import Iqiq.LzLoops
import Iqiq.TokenStream

namespace Iqiq.LzDecoding

open Iqiq.ByteMemory
open Iqiq.SevenBitGroups
open Iqiq.BackReference
open Iqiq.TokenStream
open Iqiq.LzUncompress
open Iqiq.LzLoops

theorem offsetLength_of_holds {m : Mem} {p : Int} {code : OffsetCode}
    (h : Holds m p code.bytes) : offsetLength m p = code.bytes.length := by
  cases code with
  | one b₀ h₀ =>
      obtain ⟨hb₀, -⟩ := holds_cons.mp h
      simp [offsetLength, OffsetCode.bytes, hb₀, h₀]
  | two b₀ b₁ h₀ h₁ =>
      obtain ⟨hb₀, htail⟩ := holds_cons.mp h
      obtain ⟨hb₁, -⟩ := holds_cons.mp htail
      simp [offsetLength, OffsetCode.bytes, hb₀, hb₁, h₀, h₁]
  | three b₀ b₁ b₂ h₀ h₁ =>
      obtain ⟨hb₀, htail⟩ := holds_cons.mp h
      obtain ⟨hb₁, -⟩ := holds_cons.mp htail
      simp [offsetLength, OffsetCode.bytes, hb₀, hb₁, h₀, h₁]

theorem offsetValue_of_holds {m : Mem} {p : Int} {code : OffsetCode}
    (h : Holds m p code.bytes) : offsetValue m p = code.value := by
  cases code with
  | one b₀ h₀ =>
      obtain ⟨hb₀, -⟩ := holds_cons.mp h
      simp [offsetValue, OffsetCode.value, hb₀, h₀]
  | two b₀ b₁ h₀ h₁ =>
      obtain ⟨hb₀, htail⟩ := holds_cons.mp h
      obtain ⟨hb₁, -⟩ := holds_cons.mp htail
      simp [offsetValue, OffsetCode.value, hb₀, hb₁, h₀, h₁]
  | three b₀ b₁ b₂ h₀ h₁ =>
      obtain ⟨hb₀, htail⟩ := holds_cons.mp h
      obtain ⟨hb₁, htail⟩ := holds_cons.mp htail
      obtain ⟨hb₂, -⟩ := holds_cons.mp htail
      rw [show p + 1 + 1 = p + 2 by omega] at hb₂
      simp only [offsetValue, OffsetCode.value, hb₀, hb₁, hb₂, h₀, h₁, if_true]
      omega

theorem toNat_ofNat_length {raw : List UInt8} (h : raw.length < 128) :
    (UInt8.ofNat raw.length).toNat = raw.length := by
  rw [UInt8.toNat_ofNat']
  omega

theorem tokenSize_of_holds {m : Mem} {p : Int} {t : Token} (h : Holds m p t.bytes) :
    tokenSize (m p) = t.size := by
  cases t with
  | literal raw hraw =>
      obtain ⟨hc, -⟩ := holds_cons.mp h
      have hsmall : ¬ m p > 0x7f := by
        rw [hc, gt_7f_iff, toNat_ofNat_length hraw]
        omega
      rw [tokenSize, if_neg hsmall, hc, toNat_ofNat_length hraw]
      rfl
  | copy c hc code =>
      obtain ⟨hm, -⟩ := holds_cons.mp h
      rw [tokenSize, hm, if_pos hc]
      rfl

theorem tokenReads_of_holds {m : Mem} {p : Int} {t : Token} (h : Holds m p t.bytes)
    {r : Nat} (hr : t.size ≤ r) : tokenReads m p r = t.bytes.length := by
  cases t with
  | literal raw hraw =>
      obtain ⟨hc, -⟩ := holds_cons.mp h
      have hsmall : ¬ m p > 0x7f := by
        rw [hc, gt_7f_iff, toNat_ofNat_length hraw]
        omega
      simp only [Token.size] at hr
      rw [tokenReads, if_neg hsmall, hc, toNat_ofNat_length hraw, Nat.min_eq_left hr]
      simp [Token.bytes, Nat.add_comm]
  | copy c hc code =>
      obtain ⟨hm, hcode⟩ := holds_cons.mp h
      rw [tokenReads, hm, if_pos hc, offsetLength_of_holds hcode]
      simp [Token.bytes, Nat.add_comm]

theorem tokenReads_le_of_holds {m : Mem} {p : Int} {t : Token} (h : Holds m p t.bytes)
    (r : Nat) : tokenReads m p r ≤ t.bytes.length := by
  rw [← tokenReads_of_holds h (Nat.le_refl t.size)]
  unfold tokenReads
  split
  · exact Nat.le_refl _
  · rename_i hc
    have hsize := tokenSize_of_holds h
    rw [tokenSize, if_neg hc] at hsize
    omega

theorem toInt_not_add {v : UInt64} {i : Nat} (hv : v.toNat < 2 ^ 32) (hi : i < 2 ^ 32) :
    (~~~v + UInt64.ofNat i).toInt64.toInt = (i : Int) - (v.toNat + 1 : Nat) := by
  have hsize : UInt64.size = 2 ^ 64 := rfl
  have hnat : (~~~v + UInt64.ofNat i).toNat = (UInt64.size - 1 - v.toNat + i) % 2 ^ 64 := by
    have hsmall : (UInt64.ofNat i).toNat = i := by
      rw [UInt64.toNat_ofNat']
      omega
    rw [UInt64.toNat_add, UInt64.toNat_not, hsmall]
  have hint : (~~~v + UInt64.ofNat i).toInt64.toInt =
      (~~~v + UInt64.ofNat i).toBitVec.toInt := rfl
  have hbits : (~~~v + UInt64.ofNat i).toBitVec.toNat = (~~~v + UInt64.ofNat i).toNat := rfl
  rw [hint, BitVec.toInt_eq_toNat_cond, hbits, hnat, hsize]
  split <;> omega

theorem take_expandStep {w res : List UInt8} (h : w <+: res) : res.take w.length = w := by
  exact (List.prefix_iff_eq_take.mp h).symm

theorem copyLoop_holds {a : Args} {v : UInt64} {base : Int} (hv : v.toNat < 2 ^ 32)
    (n : Nat) {i : Nat} {s : State} {w : List UInt8} (hi : i + n < 2 ^ 32)
    (hout : s.outptr + i = base + w.length) (hw : Holds s.mem base w)
    (hreach : v.toNat + 1 ≤ w.length) :
    Holds (copyLoop a (~~~v) n i s).1.mem base
      ((copyBack (v.toNat + 1) n w).take (w.length + min n (room a (s.outptr + i)))) := by
  induction n generalizing i s w with
  | zero => simpa [copyLoop, copyBack] using hw
  | succ n ih =>
      rw [copyLoop]
      split
      · rename_i hfull
        rw [full_iff] at hfull
        rw [hfull, Nat.min_zero, Nat.add_zero, take_expandStep (prefix_copyBack _ _ _)]
        exact hw
      · rename_i hroom
        rw [full_iff] at hroom
        have hlt : w.length - (v.toNat + 1) < w.length := by omega
        have hget : w[w.length - (v.toNat + 1)]? = some w[w.length - (v.toNat + 1)] :=
          List.getElem?_eq_getElem hlt
        have hval : s.mem (element s.outptr (~~~v + UInt64.ofNat i)) =
            w[w.length - (v.toNat + 1)] := by
          rw [← hw _ hlt, element, toInt_not_add hv (by omega)]
          congr 1
          omega
        rw [hval]
        have hnext : Holds (s.put (s.outptr + i) w[w.length - (v.toNat + 1)]).mem base
            (w ++ [w[w.length - (v.toNat + 1)]]) := by
          rw [put_mem]
          exact hw.store_concat hout _
        have hrec := @ih (i + 1) _ _ (by omega)
          (by simp only [put_outptr, List.length_append, List.length_cons,
                List.length_nil]; omega) hnext (by simp; omega)
        have hless : room a (s.outptr + ((i + 1 : Nat) : Int)) =
            room a (s.outptr + i) - 1 := by
          rw [← room_add]
          congr 1
          omega
        have hlen : (w ++ [w[w.length - (v.toNat + 1)]]).length +
            min n (room a (s.outptr + i) - 1) =
            w.length + min (n + 1) (room a (s.outptr + i)) := by
          rw [List.length_append, List.length_singleton]
          omega
        rw [put_outptr, hless, hlen] at hrec
        rw [copyBack, hget, Option.toList_some]
        exact hrec

theorem toUInt8_xor_num (b : UInt8) (num : UInt32) :
    (b.toUInt32 ^^^ num).toUInt8 = b ^^^ num.toUInt8 := by
  rw [UInt32.toUInt8_xor, UInt8.toUInt8_toUInt32]

theorem num_toUInt8 (p : Nat) :
    (0x55 + UInt32.ofInt (p : Int)).toUInt8 = UInt8.ofNat (0x55 + p) := by
  have hmod : ((p : Int) % 2 ^ 32).toNat = p % 2 ^ 32 := by omega
  apply UInt8.toNat_inj.mp
  rw [UInt32.ofInt, hmod, UInt32.toNat_toUInt8, UInt32.toNat_add, UInt32.toNat_ofNat',
    UInt8.toNat_ofNat']
  change (85 + _) % _ % _ = _
  omega

theorem literalLoop_holds {a : Args} {base : Int} {num : UInt32} {p : Nat} {s : State}
    {raw w : List UInt8} (hnum : num.toUInt8 = UInt8.ofNat (0x55 + p))
    (hraw : Holds s.mem s.inptr raw) (hout : s.outptr = base + w.length)
    (hw : Holds s.mem base w)
    (hapart : Apart s.inptr raw.length s.outptr (room a s.outptr)) :
    Holds (literalLoop a raw.length num s).1.mem base
      ((w ++ unmask p raw).take (w.length + min raw.length (room a s.outptr))) := by
  induction raw generalizing num p s w with
  | nil => simpa [literalLoop] using hw
  | cons b raw ih =>
      rw [List.length_cons, literalLoop]
      split
      · rename_i hfull
        rw [full_iff] at hfull
        rw [hfull, Nat.min_zero, Nat.add_zero, List.take_left]
        exact hw
      · rename_i hroom
        rw [full_iff] at hroom
        obtain ⟨hb, hrest⟩ := holds_cons.mp hraw
        have hval : ((s.mem s.inptr).toUInt32 ^^^ num).toUInt8 =
            b ^^^ UInt8.ofNat (0x55 + p) := by
          rw [toUInt8_xor_num, hb, hnum]
        simp only [hval]
        generalize hx : b ^^^ UInt8.ofNat (0x55 + p) = x at hval
        let t : State := { s.advance.put s.outptr x with outptr := s.outptr + 1 }
        have hnext : Holds t.mem base (w ++ [x]) := hw.store_concat hout x
        have hrawt : Holds t.mem t.inptr raw := by
          refine hrest.store_of_outside ?_ x
          rw [List.length_cons] at hapart
          unfold Apart at hapart
          omega
        have hless : room a t.outptr = room a s.outptr - 1 := room_add a s.outptr 1
        have hnumt : (num + 1).toUInt8 = UInt8.ofNat (0x55 + (p + 1)) := by
          rw [UInt32.toUInt8_add, hnum, ← Nat.add_assoc, UInt8.ofNat_add (0x55 + p) 1]
          rfl
        have hrec := @ih (num + 1) (p + 1) t (w ++ [x]) hnumt hrawt
          (by simp only [t, hout, List.length_append, List.length_singleton]; omega) hnext
          (by
            rw [hless]
            rw [List.length_cons] at hapart
            simp only [Apart, t, State.put, State.advance] at hapart ⊢
            omega)
        have hlen : (w ++ [x]).length + min raw.length (room a t.outptr) =
            w.length + min (raw.length + 1) (room a s.outptr) := by
          rw [hless, List.length_append, List.length_singleton]
          omega
        rw [hlen, List.append_assoc, List.singleton_append, ← hx, ← unmask_cons] at hrec
        exact hrec

/-- A match needs nothing of the input to lie apart from the output: its distance
code is read before anything is stored. -/
theorem token_copy_holds {a : Args} {base : Int} {s : State} {c : UInt8} {code : OffsetCode}
    {w : List UInt8} (hc : c > 0x7f) (hm : s.mem s.inptr = c)
    (hcode : Holds s.mem (s.inptr + 1) code.bytes) (hout : s.outptr = base + w.length)
    (hw : Holds s.mem base w) (hreach : code.distance ≤ w.length) :
    Holds (token a s).1.mem base
      ((copyBack code.distance (low7 c + 2) w).take
        (w.length + min (low7 c + 2) (room a s.outptr))) := by
  have hbig : s.mem s.inptr > 0x7f := by rwa [hm]
  have hvalue : (readOffset s.advance).2.toNat = code.value := by
    rw [readOffset_value, advance_mem, advance_inptr, offsetValue_of_holds hcode]
  have hmem : (readOffset s.advance).1.mem = s.mem := by
    rw [readOffset_mem, advance_mem]
  have houtptr : (readOffset s.advance).1.outptr = s.outptr := by
    rw [readOffset_outptr, advance_outptr]
  have hlt := code.value_lt
  have hsize := low7_lt c
  have hcopy := @copyLoop_holds a (readOffset s.advance).2 base (by omega)
    (low7 c + 2) 0 (readOffset s.advance).1 w (by omega)
    (by rw [houtptr, hout]; omega) (by rwa [hmem]) (by rw [hvalue]; exact hreach)
  rw [houtptr, Int.natCast_zero, Int.add_zero, hvalue] at hcopy
  rw [token_of_copy a hbig, hm]
  simp only
  split
  · exact hcopy
  · exact hcopy

theorem token_holds {a : Args} {base : Int} {p : Nat} {s : State} {t : Token}
    {w : List UInt8} (ht : Holds s.mem s.inptr t.bytes) (hin : s.inptr = a.input + p)
    (hout : s.outptr = base + w.length) (hw : Holds s.mem base w)
    (hreach : t.reach ≤ w.length)
    (hapart : Apart s.inptr t.bytes.length s.outptr (room a s.outptr)) :
    Holds (token a s).1.mem base
      ((t.expand p w).take (w.length + min t.size (room a s.outptr))) := by
  cases t with
  | literal raw hraw =>
      obtain ⟨hc, hbytes⟩ := holds_cons.mp ht
      have hnat := toNat_ofNat_length hraw
      have hsmall : ¬ s.mem s.inptr > 0x7f := by
        rw [hc, gt_7f_iff, hnat]
        omega
      have hnum := num_toUInt8 (p + 1)
      rw [show ((p + 1 : Nat) : Int) = s.inptr + 1 - a.input by omega] at hnum
      rw [token_of_literal a hsmall, hc, hnat]
      apply @literalLoop_holds a base _ (p + 1) s.advance raw w hnum hbytes hout hw
      simp only [Token.bytes, List.length_cons, Apart] at hapart
      simp only [Apart, advance_inptr, advance_outptr]
      omega
  | copy c hc code =>
      obtain ⟨hm, hcode⟩ := holds_cons.mp ht
      exact token_copy_holds hc hm hcode hout hw hreach

/-! ### Closed form of a back-reference -/

/-- The loop over `i` for the byte `c`, and `outptr += (c & 0x7f) + 2` behind it. -/
def backReference (a : Args) (offset : UInt64) (c : UInt8) (s : State) : State × Bool :=
  let n := (c &&& 0x7f).toNat + 2
  let q := copyLoop a offset n 0 s
  if q.2 then ({ q.1 with outptr := q.1.outptr + n }, true) else q

theorem token_eq_backReference {a : Args} {s : State} (hc : s.mem s.inptr > 0x7f) :
    token a s = backReference a (~~~(readOffset s.advance).2) (s.mem s.inptr)
      (readOffset s.advance).1 := by
  rw [token]
  exact if_pos hc

/-- A back-reference with room for it repeats the last `d` bytes periodically, and changes
nothing before the output position. -/
theorem backReference_periodic {input output len : Int} {outlen : Int32} {c : UInt8}
    {s : State} {p d : Nat} (hout : s.outptr = output + p) (hd : 1 ≤ d) (hle : d ≤ p)
    (hroom : ((p + ((c &&& 0x7f).toNat + 2) : Nat) : Int) ≤ outlen.toInt) :
    let n := (c &&& 0x7f).toNat + 2
    let r := backReference ⟨input, output, len, outlen.toInt⟩ (~~~UInt64.ofNat (d - 1)) c s
    r.2 = true ∧ r.1.outptr = s.outptr + n ∧ (∀ q < output + p, r.1.mem q = s.mem q) ∧
      ∀ k < n, r.1.mem (output + (p + k : Nat)) = s.mem (output + (p - d + k % d : Nat)) := by
  intro n
  have hmax := outlen.toInt_lt
  have hv : (UInt64.ofNat (d - 1)).toNat = d - 1 := by
    rw [UInt64.toNat_ofNat']
    omega
  generalize hargs : (⟨input, output, len, outlen.toInt⟩ : Args) = a
  intro r
  have hlong : n ≤ room a (s.outptr + (0 : Nat)) := by
    rw [← hargs]
    simp only [room, Args.last]
    omega
  obtain ⟨hflag, -, hptr, -, -, hframe⟩ := copyLoop_shape a (~~~UInt64.ofNat (d - 1)) n 0 s
  have hdone : (copyLoop a (~~~UInt64.ofNat (d - 1)) n 0 s).2 = true := by
    rw [hflag, decide_eq_true hlong]
  have hr : r = ({ (copyLoop a (~~~UInt64.ofNat (d - 1)) n 0 s).1 with
      outptr := (copyLoop a (~~~UInt64.ofNat (d - 1)) n 0 s).1.outptr + n }, true) := by
    change backReference a (~~~UInt64.ofNat (d - 1)) c s = _
    rw [backReference]
    exact if_pos hdone
  have hback : UInt64.toNat (UInt64.ofNat (d - 1)) + 1 = d := by omega
  have hholds := @copyLoop_holds a (UInt64.ofNat (d - 1)) output (by omega) n 0 s
    (slice s.mem output p) (by omega) (by rw [length_slice, hout]; omega) (holds_slice _ _ _)
    (by rw [length_slice]; omega)
  rw [hback, length_slice, Nat.min_eq_left hlong] at hholds
  rw [hr]
  refine ⟨rfl, by rw [← hptr], ?_, ?_⟩
  · intro q hq
    apply hframe
    left
    rw [hout]
    omega
  · intro k hk
    have hlen := @length_copyBack _ d n (slice s.mem output p) hd (by rwa [length_slice])
    have hget := @getElem?_copyBack_mod _ d n k (slice s.mem output p) hd
      (by rwa [length_slice]) hk
    have hmod := Nat.mod_lt k hd
    rw [length_slice] at hlen hget
    rw [getElem?_slice _ _ (by omega)] at hget
    obtain ⟨hlt, hbyte⟩ := List.getElem?_eq_some_iff.mp hget
    rw [List.take_of_length_le (by omega)] at hholds
    rw [← hbyte]
    exact hholds (p + k) hlt

/-- Three bytes of output, with a match of six bytes at distance 2 to come. -/
def threeBytes : State where
  mem := write (fun _ => 0) 100 [97, 98, 99]
  inptr := 0
  outptr := 103
  loads := []
  stores := []

theorem backReference_periodic_threeBytes :
    let r := backReference ⟨0, 100, 0, (20 : Int32).toInt⟩ (~~~UInt64.ofNat 1) 0x84 threeBytes
    r.2 = true ∧ r.1.outptr = 109 ∧ (∀ q < 103, r.1.mem q = threeBytes.mem q) ∧
      ∀ k < 6, r.1.mem (100 + (3 + k : Nat)) = threeBytes.mem (100 + (1 + k % 2 : Nat)) :=
  @backReference_periodic 0 100 0 20 0x84 threeBytes 3 2 rfl (by decide) (by decide) (by decide)

end Iqiq.LzDecoding
