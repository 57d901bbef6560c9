import Iqiq.LzUncompress
import Iqiq.SevenBitGroups

namespace Iqiq.LzLoops

open Iqiq.ByteMemory
open Iqiq.SevenBitGroups
open Iqiq.LzUncompress

/-- The number of bytes that may still be stored from `p` on. -/
def room (a : Args) (p : Int) : Nat :=
  (a.last + 1 - p).toNat

theorem full_iff (a : Args) (p : Int) : p > a.last ↔ room a p = 0 := by
  simp only [room]
  omega

theorem room_add (a : Args) (p : Int) (k : Nat) : room a (p + k) = room a p - k := by
  simp only [room]
  omega

/-- What a piece of a run does to the state when it takes `i` bytes from the
input and produces `k` bytes of output, in order and without a gap. -/
structure Moved (s s' : State) (i k : Nat) : Prop where
  inptr : s'.inptr = s.inptr + i
  loads : s'.loads = s.loads ++ addrs s.inptr i
  stores : s'.stores = s.stores ++ addrs s.outptr k
  frame : ∀ q, q < s.outptr ∨ s.outptr + k ≤ q → s'.mem q = s.mem q

theorem Moved.refl (s : State) : Moved s s 0 0 := by
  constructor <;> simp

theorem Moved.trans {s t u : State} {i j k l : Nat} (h : Moved s t i k)
    (hout : t.outptr = s.outptr + k) (h' : Moved t u j l) :
    Moved s u (i + j) (k + l) := by
  constructor
  · rw [h'.inptr, h.inptr]
    omega
  · rw [h'.loads, h.loads, h.inptr, List.append_assoc, addrs_append]
  · rw [h'.stores, h.stores, hout, List.append_assoc, addrs_append]
  · intro q hq
    rw [h'.frame q (by omega), h.frame q (by omega)]

theorem Moved.holds {s s' : State} {i k n : Nat} {xs ys : List UInt8}
    (hmoved : Moved s s' i k) (hxs : Holds s.mem s.inptr (xs ++ ys)) (hi : xs.length = i)
    (hapart : Apart s.inptr (i + ys.length) s.outptr n) (hk : k ≤ n) :
    Holds s'.mem s'.inptr ys := by
  obtain ⟨-, hys⟩ := holds_append.mp hxs
  rw [hi, ← hmoved.inptr] at hys
  have hin := hmoved.inptr
  refine hys.of_agree fun q hlo hhi => hmoved.frame q ?_
  unfold Apart at hapart
  omega

theorem moved_advance (s : State) : Moved s s.advance 1 0 := by
  constructor <;> simp [State.advance, addrs_one]

@[simp] theorem advance_mem (s : State) : s.advance.mem = s.mem := rfl

@[simp] theorem advance_inptr (s : State) : s.advance.inptr = s.inptr + 1 := rfl

@[simp] theorem advance_outptr (s : State) : s.advance.outptr = s.outptr := rfl

@[simp] theorem put_mem (s : State) (p : Int) (b : UInt8) :
    (s.put p b).mem = store s.mem p b := rfl

@[simp] theorem put_outptr (s : State) (p : Int) (b : UInt8) :
    (s.put p b).outptr = s.outptr := rfl

theorem skipLength_frame (fuel : Nat) (s : State) :
    (skipLength fuel s).1.mem = s.mem ∧ (skipLength fuel s).1.outptr = s.outptr ∧
      (skipLength fuel s).1.stores = s.stores := by
  induction fuel generalizing s with
  | zero => exact ⟨rfl, rfl, rfl⟩
  | succ fuel ih =>
      rw [skipLength]
      split
      · exact ih s.advance
      · exact ⟨rfl, rfl, rfl⟩

theorem skipLength_moved (fuel : Nat) (s : State) :
    ∃ n, Moved s (skipLength fuel s).1 n 0 ∧
      ((skipLength fuel s).2 = false → n = fuel) ∧
      ((skipLength fuel s).2 = true →
        ∃ k : Nat, n = k + 1 ∧ ¬ s.mem (s.inptr + k) > 0x7f) := by
  induction fuel generalizing s with
  | zero => exact ⟨0, Moved.refl s, fun _ => rfl, by simp [skipLength]⟩
  | succ fuel ih =>
      rw [skipLength]
      split
      · obtain ⟨n, hmoved, hrunning, hended⟩ := ih s.advance
        refine ⟨1 + n, (moved_advance s).trans (by simp) hmoved, fun h => ?_, fun h => ?_⟩
        · have := hrunning h
          omega
        · obtain ⟨k, rfl, hk⟩ := hended h
          refine ⟨k + 1, by omega, ?_⟩
          rwa [advance_mem, advance_inptr,
            show s.inptr + 1 + (k : Int) = s.inptr + ((k + 1 : Nat) : Int) by omega] at hk
      · rename_i hend
        exact ⟨1, moved_advance s, by simp, fun _ => ⟨0, rfl, by simpa using hend⟩⟩

theorem skipLength_ends {n : Nat} {s : State} (h : ¬ s.mem (s.inptr + n) > 0x7f) :
    (skipLength (n + 1) s).2 = true := by
  induction n generalizing s with
  | zero =>
      rw [skipLength, if_neg (by simpa using h)]
  | succ n ih =>
      rw [skipLength]
      split
      · apply ih
        rwa [advance_mem, advance_inptr,
          show s.inptr + 1 + (n : Int) = s.inptr + ((n + 1 : Nat) : Int) by omega]
      · rfl

theorem skipLength_of_terminated {n : Nat} {s : State}
    (hhi : ∀ i < n, s.mem (s.inptr + i) > 0x7f)
    (hlast : ¬ s.mem (s.inptr + n) > 0x7f) {fuel : Nat} (hfuel : n < fuel) :
    (skipLength fuel s).2 = true ∧ Moved s (skipLength fuel s).1 (n + 1) 0 := by
  induction n generalizing s fuel with
  | zero =>
      obtain ⟨fuel, rfl⟩ := Nat.exists_eq_succ_of_ne_zero (by omega : fuel ≠ 0)
      have hend : ¬ s.mem s.inptr > 0x7f := by simpa using hlast
      rw [skipLength, if_neg hend]
      exact ⟨rfl, moved_advance s⟩
  | succ n ih =>
      obtain ⟨fuel, rfl⟩ := Nat.exists_eq_succ_of_ne_zero (by omega : fuel ≠ 0)
      have hgo : s.mem s.inptr > 0x7f := by simpa using hhi 0 (by omega)
      have hshift : ∀ i : Nat, s.inptr + 1 + (i : Int) = s.inptr + ((i + 1 : Nat) : Int) := by
        intro i
        omega
      rw [skipLength, if_pos hgo]
      have hrec := @ih s.advance (fun i hi => by
          rw [advance_mem, advance_inptr, hshift]
          exact hhi (i + 1) (by omega))
        (by rwa [advance_mem, advance_inptr, hshift]) fuel (by omega)
      refine ⟨hrec.1, ?_⟩
      have hmoved := (moved_advance s).trans (by simp) hrec.2
      rwa [show 1 + (n + 1) = n + 1 + 1 by omega] at hmoved

theorem skipLength_of_unterminated {s : State} {fuel : Nat}
    (hhi : ∀ i < fuel, s.mem (s.inptr + (i : Nat)) > 0x7f) :
    (skipLength fuel s).2 = false := by
  induction fuel generalizing s with
  | zero => rfl
  | succ fuel ih =>
      have hgo : s.mem s.inptr > 0x7f := by simpa using hhi 0 (by omega)
      rw [skipLength, if_pos hgo]
      apply ih
      intro i hi
      have := hhi (i + 1) (by omega)
      rwa [advance_mem, advance_inptr,
        show s.inptr + 1 + (i : Int) = s.inptr + ((i + 1 : Nat) : Int) by omega]

/-- The number of bytes of the distance code at `p`. -/
def offsetLength (m : Mem) (p : Int) : Nat :=
  if m p > 0x7f then (if m (p + 1) > 0x7f then 3 else 2) else 1

/-- The value of the distance code at `p`. -/
def offsetValue (m : Mem) (p : Int) : Nat :=
  low7 (m p) + if m p > 0x7f then
    128 * low7 (m (p + 1)) + if m (p + 1) > 0x7f then 32768 * low7 (m (p + 2)) else 0
  else 0

theorem readOffset_eq (s : State) :
    readOffset s =
      if s.mem s.inptr > 0x7f then
        if s.mem (s.inptr + 1) > 0x7f then
          (s.advance.advance.advance,
            (s.mem s.inptr &&& 0x7f).toUInt64 |||
              ((s.mem (s.inptr + 1) &&& 0x7f).toUInt64 <<< 7) |||
              ((s.mem (s.inptr + 1 + 1) &&& 0x7f).toUInt64 <<< 15))
        else
          (s.advance.advance,
            (s.mem s.inptr &&& 0x7f).toUInt64 |||
              ((s.mem (s.inptr + 1) &&& 0x7f).toUInt64 <<< 7))
      else (s.advance, (s.mem s.inptr &&& 0x7f).toUInt64) := rfl

theorem readOffset_moved (s : State) :
    Moved s (readOffset s).1 (offsetLength s.mem s.inptr) 0 := by
  have h1 := moved_advance s
  have h2 := h1.trans (by simp) (moved_advance s.advance)
  have h3 := h2.trans (by simp) (moved_advance s.advance.advance)
  rw [readOffset_eq, offsetLength]
  split
  · split
    · exact h3
    · exact h2
  · exact h1

theorem readOffset_mem (s : State) : (readOffset s).1.mem = s.mem := by
  rw [readOffset_eq]
  split
  · split <;> rfl
  · rfl

theorem readOffset_outptr (s : State) : (readOffset s).1.outptr = s.outptr := by
  rw [readOffset_eq]
  split
  · split <;> rfl
  · rfl

theorem readOffset_value (s : State) :
    (readOffset s).2.toNat = offsetValue s.mem s.inptr := by
  have hzero : ((s.mem s.inptr &&& 0x7f).toUInt64).toNat = low7 (s.mem s.inptr) := by
    rw [UInt8.toNat_toUInt64, toNat_and_7f]
  have hlow0 := low7_lt (s.mem s.inptr)
  have hlow1 := low7_lt (s.mem (s.inptr + 1))
  have hone : ((s.mem s.inptr &&& 0x7f).toUInt64 |||
      ((s.mem (s.inptr + 1) &&& 0x7f).toUInt64 <<< 7)).toNat =
      low7 (s.mem s.inptr) + 128 * low7 (s.mem (s.inptr + 1)) := by
    rw [toNat_or_group _ (by decide) (by rw [hzero]; exact hlow0), hzero]
    rfl
  rw [readOffset_eq, offsetValue]
  split
  · split
    · rw [toNat_or_group _ (by decide) (by rw [hone]; change _ < 32768; omega), hone]
      change _ + 32768 * _ = _
      rw [show s.inptr + 1 + 1 = s.inptr + 2 by omega]
      omega
    · rw [hone, Nat.add_zero]
  · rw [hzero, Nat.add_zero]

theorem copyLoop_shape (a : Args) (o : UInt64) (n i : Nat) (s : State) :
    let r := copyLoop a o n i s
    let k := min n (room a (s.outptr + i))
    r.2 = decide (n ≤ room a (s.outptr + i)) ∧ r.1.inptr = s.inptr ∧
      r.1.outptr = s.outptr ∧ r.1.loads = s.loads ∧
      r.1.stores = s.stores ++ addrs (s.outptr + i) k ∧
      ∀ q, q < s.outptr + i ∨ s.outptr + i + k ≤ q → r.1.mem q = s.mem q := by
  induction n generalizing i s with
  | zero => simp [copyLoop]
  | succ n ih =>
      rw [copyLoop]
      split
      · rename_i hfull
        rw [full_iff] at hfull
        simp [hfull]
      · rename_i hroom
        rw [full_iff] at hroom
        let b := s.mem (element s.outptr (o + UInt64.ofNat i))
        have hnext : s.outptr + ((i + 1 : Nat) : Int) = s.outptr + i + (1 : Nat) := by omega
        have hless : room a (s.outptr + i + (1 : Nat)) = room a (s.outptr + i) - 1 :=
          room_add a _ 1
        obtain ⟨hflag, hin, hout, hloads, hstores, hframe⟩ :=
          ih (i + 1) (s.put (s.outptr + i) b)
        rw [put_outptr, hnext, hless] at hflag hstores hframe
        have hmin : min (n + 1) (room a (s.outptr + i)) =
            1 + min n (room a (s.outptr + i) - 1) := by omega
        refine ⟨?_, hin, hout, hloads, ?_, ?_⟩
        · rw [hflag]
          exact decide_eq_decide.mpr (by omega)
        · rw [hstores, hmin, ← addrs_append, addrs_one]
          simp [State.put]
        · intro q hq
          rw [hframe q (by omega)]
          exact store_of_ne _ _ (by omega)

theorem literalLoop_shape (a : Args) (n : Nat) (num : UInt32) (s : State) :
    let r := literalLoop a n num s
    let k := min n (room a s.outptr)
    r.2 = decide (n ≤ room a s.outptr) ∧ r.1.outptr = s.outptr + k ∧ Moved s r.1 k k := by
  induction n generalizing num s with
  | zero => simpa [literalLoop] using Moved.refl s
  | succ n ih =>
      rw [literalLoop]
      split
      · rename_i hfull
        rw [full_iff] at hfull
        simpa [hfull] using Moved.refl s
      · rename_i hroom
        rw [full_iff] at hroom
        let b := ((s.mem s.inptr).toUInt32 ^^^ num).toUInt8
        let t : State := { s.advance.put s.outptr b with outptr := s.outptr + 1 }
        have ht : Moved s t 1 1 := by
          refine ⟨rfl, by simp [t, State.put, State.advance, addrs_one],
            by simp [t, State.put, State.advance, addrs_one], fun q hq => ?_⟩
          exact store_of_ne _ _ (by omega)
        have htout : t.outptr = s.outptr + (1 : Nat) := by simp [t]
        obtain ⟨hflag, hout, hmoved⟩ := ih (num + 1) t
        rw [htout, room_add] at hflag hout hmoved
        have hmin : min (n + 1) (room a s.outptr) = 1 + min n (room a s.outptr - 1) := by
          omega
        refine ⟨?_, ?_, ?_⟩
        · change (literalLoop a n (num + 1) t).2 = _
          rw [hflag]
          exact decide_eq_decide.mpr (by omega)
        · change (literalLoop a n (num + 1) t).1.outptr = _
          rw [hout]
          omega
        · rw [hmin]
          exact ht.trans htout hmoved

/-- The number of bytes that a token with first byte `c` stands for. -/
def tokenSize (c : UInt8) : Nat :=
  if c > 0x7f then low7 c + 2 else c.toNat

/-- The number of input bytes that the token at `p` makes the loop take when
there is room for `r` more output bytes. -/
def tokenReads (m : Mem) (p : Int) (r : Nat) : Nat :=
  1 + if m p > 0x7f then offsetLength m (p + 1) else min (m p).toNat r

theorem token_of_copy (a : Args) {s : State} (hc : s.mem s.inptr > 0x7f) :
    token a s =
      let r := readOffset s.advance
      let n := low7 (s.mem s.inptr) + 2
      let q := copyLoop a (~~~r.2) n 0 r.1
      if q.2 then ({ q.1 with outptr := q.1.outptr + (n : Nat) }, true) else q := by
  simp only [token, if_pos hc, toNat_and_7f]

theorem token_of_literal (a : Args) {s : State} (hc : ¬ s.mem s.inptr > 0x7f) :
    token a s = literalLoop a (s.mem s.inptr).toNat
      (0x55 + UInt32.ofInt (s.inptr + 1 - a.input)) s.advance := by
  simp only [token, if_neg hc, advance_inptr]

/-- The whole effect of one iteration of the main loop, apart from the bytes it
stores. -/
theorem token_shape (a : Args) (s : State) :
    let r := token a s
    let n := tokenSize (s.mem s.inptr)
    r.2 = decide (n ≤ room a s.outptr) ∧
      Moved s r.1 (tokenReads s.mem s.inptr (room a s.outptr)) (min n (room a s.outptr)) ∧
      (r.2 = true → r.1.outptr = s.outptr + n) := by
  rcases em (s.mem s.inptr > 0x7f) with hc | hc
  · simp only [tokenSize, tokenReads, if_pos hc, token_of_copy a hc]
    generalize hn : low7 (s.mem s.inptr) + 2 = n
    generalize ho : ~~~(readOffset s.advance).2 = o
    have hread : Moved s (readOffset s.advance).1 (1 + offsetLength s.mem (s.inptr + 1)) 0 :=
      (moved_advance s).trans (by simp) (readOffset_moved s.advance)
    have hreadOut : (readOffset s.advance).1.outptr = s.outptr := readOffset_outptr s.advance
    generalize (readOffset s.advance).1 = t at hread hreadOut ⊢
    obtain ⟨hflag, hin, hout, hloads, hstores, hframe⟩ := copyLoop_shape a o n 0 t
    rw [Int.natCast_zero, Int.add_zero, hreadOut] at hflag hstores hframe
    have hcopy : Moved t (copyLoop a o n 0 t).1 0 (min n (room a s.outptr)) :=
      ⟨by simp [hin], by simp [hloads], by rw [hstores, hreadOut], by rwa [hreadOut]⟩
    have hmoved := hread.trans (by simp [hreadOut]) hcopy
    rw [Nat.add_zero, Nat.zero_add] at hmoved
    split
    · rename_i hok
      refine ⟨by rw [← hflag, hok],
        ⟨hmoved.inptr, hmoved.loads, hmoved.stores, hmoved.frame⟩, fun _ => ?_⟩
      rw [hout, hreadOut]
    · rename_i hfail
      exact ⟨hflag, hmoved, fun h => absurd h hfail⟩
  · simp only [tokenSize, tokenReads, if_neg hc, token_of_literal a hc]
    generalize 0x55 + UInt32.ofInt (s.inptr + 1 - a.input) = num
    obtain ⟨hflag, hout, hmoved⟩ :=
      literalLoop_shape a (s.mem s.inptr).toNat num s.advance
    rw [advance_outptr] at hflag hout hmoved
    refine ⟨hflag, ?_, fun hok => ?_⟩
    · have := (moved_advance s).trans (by simp) hmoved
      rwa [Nat.zero_add] at this
    · rw [hflag, decide_eq_true_eq] at hok
      rw [hout, Nat.min_eq_left hok]

end Iqiq.LzLoops
