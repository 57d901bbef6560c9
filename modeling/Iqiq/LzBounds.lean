import Iqiq.ProfileUnpack

namespace Iqiq.LzBounds

open Iqiq.ByteMemory
open Iqiq.TokenStream
open Iqiq.LzUncompress
open Iqiq.LzLoops
open Iqiq.LzRuns
open Iqiq.LzStreams
open Iqiq.HandleProfile
open Iqiq.ProfileUnpack

theorem unpack_stores (fuel : Nat) (m : Mem) (input output : Int) (bytes : UInt32) :
    Holds (unpack fuel m input output bytes).1.mem output header ∧
      ∀ q, q < output ∨ output + (profileLen m input + 4 : Nat) ≤ q →
        (unpack fuel m input output bytes).1.mem q = m q := by
  let a := profileArgs input output bytes (profileLen m input)
  obtain ⟨i, k, hmoved, hk⟩ := lzUncompress_moved a fuel (unpackState m output)
  have hcap : room a a.output = profileLen m input := by
    rw [room_output]
    exact Int.toNat_natCast _
  rw [hcap] at hk
  have hframe : ∀ q, q < output + 4 ∨ output + 4 + (k : Int) ≤ q →
      (unpack fuel m input output bytes).1.mem q = (unpackState m output).mem q :=
    hmoved.frame
  constructor
  · refine (holds_write m output header).of_agree fun q _ hhi => hframe q (Or.inl ?_)
    simpa [header] using hhi
  · intro q hq
    rw [hframe q (by omega)]
    apply write_of_outside
    simp only [header, List.length_cons, List.length_nil]
    omega

/-- Every run stores at `output[0]`, `output[1]`, ... in this order and only
below `outlen`, whatever the memory holds; so a profile's header and the bytes
around its output buffer keep their values. -/
theorem stores_in_order {a : Args} {s : State} (houtlen : 0 ≤ a.outlen)
    (hstores : s.stores = []) (hend : ∃ n : Nat, ¬ s.mem (a.input + 4 + n) > 0x7f) :
    (∀ fuel, let s' := (lzUncompress a fuel s).1
      (∀ k (hk : k < s'.stores.length),
        s'.stores[k] = a.output + k ∧ (k : Int) < a.outlen) ∧
      ∀ q, q < a.output ∨ a.output + a.outlen ≤ q → s'.mem q = s.mem q) ∧
    (∃ ret s', Returns a s ret s' ∧ (ret = 0 ∨ ret = 1)) ∧
    ∀ fuel m input output bytes, let s' := (unpack fuel m input output bytes).1
      Holds s'.mem output header ∧
        ∀ q, q < output ∨ output + (profileLen m input + 4 : Nat) ≤ q →
          s'.mem q = m q := by
  refine ⟨fun fuel => ?_, ?_, unpack_stores⟩
  · obtain ⟨i, k, hmoved, hk⟩ := lzUncompress_moved a fuel s
    rw [room_output] at hk
    have hall : (lzUncompress a fuel s).1.stores = addrs a.output k := by
      rw [hmoved.stores]
      change s.stores ++ addrs a.output k = _
      rw [hstores, List.nil_append]
    refine ⟨fun j hj => ?_, fun q hq => ?_⟩
    · simp only [hall, length_addrs] at hj ⊢
      rw [getElem_addrs]
      exact ⟨rfl, by omega⟩
    · refine hmoved.frame q ?_
      change q < a.output ∨ a.output + (k : Int) ≤ q
      omega
  · obtain ⟨n, hn⟩ := hend
    exact returns_of_terminated hn

theorem stores_in_order_sample :
    let a : Args := ⟨0, 100, 10, 4⟩
    let s : State := ⟨write (fun _ => 0xff) 0 [0, 0, 0, 0, 9, 2, 7, 7, 0x81, 0], 0, 0, [], []⟩
    (∃ ret s', Returns a s ret s' ∧ (ret = 0 ∨ ret = 1)) ∧
      ∀ fuel k (hk : k < (lzUncompress a fuel s).1.stores.length),
        (lzUncompress a fuel s).1.stores[k] = 100 + k ∧ (k : Int) < 4 := by
  intro a s
  have h := @stores_in_order a s (by decide) rfl ⟨0, by decide⟩
  exact ⟨h.2.1, fun fuel => (h.1 fuel).1⟩

/-- Every byte of the input that one call of `handleProfile` reads, in
`lzParseSize` and in `lzUncompress`, lies in the input buffer. -/
def LoadsInside (m : Mem) (input output : Int) (bytes : UInt32) : Prop :=
  ∀ fuel, ∀ p ∈ (lzParseSize m (input + 8)).2 ++ (unpack fuel m input output bytes).1.loads,
    input ≤ p ∧ p < input + bytes.toNat

/-- The length field ends inside the profile and, unless the profile is too long
for `int`, so does every token that is reached before the output is full. -/
def EndsInside (F : List UInt8) : Prop :=
  ∃ p : Split F, 2 ^ 31 ≤ F.length - 4 ∨
    ∃ st : Stream, st.bytes = p.rest ∧ st.ReadsInside p.size

theorem unpack_loads_mono (fuel extra : Nat) (m : Mem) (input output : Int)
    (bytes : UInt32) :
    (unpack fuel m input output bytes).1.loads <+:
      (unpack (fuel + extra) m input output bytes).1.loads :=
  lzUncompress_loads_mono _ _ _ _

theorem loadsInside_of_returns {m : Mem} {input output : Int} {bytes : UInt32}
    {F : List UInt8} (h : Loaded m input output bytes F) (p : Split F) {fuel n : Nat}
    {s' : State} {ret : Int} (hrun : unpack fuel m input output bytes = (s', some ret))
    (hloads : s'.loads = addrs (input + 8) n) (hn : 8 + n ≤ F.length) :
    LoadsInside m input output bytes := by
  intro fuel' q hq
  have hlen := h.length
  have hsplit := p.length_eq
  rw [List.mem_append, h.parseSize p] at hq
  rcases hq with hq | hq
  · rw [mem_addrs] at hq
    omega
  · have hall := (unpack_loads_mono fuel' fuel m input output bytes).subset hq
    have hsame : unpack (fuel' + fuel) m input output bytes = (s', some ret) := by
      rw [Nat.add_comm, ← hrun]
      exact lzUncompress_add (congrArg Prod.snd hrun) _
    rw [hsame, hloads, mem_addrs] at hall
    omega

/-- The profile is read inside its buffer exactly when its length field ends in
the buffer and no token runs past it before the output is full. -/
theorem loadsInside_iff {m : Mem} {input output : Int} {bytes : UInt32} {F : List UInt8}
    (h : Loaded m input output bytes F) :
    LoadsInside m input output bytes ↔ EndsInside F := by
  have hlen := h.length
  have hlong := h.long
  constructor
  · intro hinside
    rcases exists_splitField h.long with hall | ⟨⟨p⟩⟩
    · -- the skip loop runs through the whole buffer and reads the byte behind it
      exfalso
      let a := profileArgs input output bytes (profileLen m input)
      obtain ⟨n, hmoved, hn⟩ := @skipLength_leaves a (unpackState m output) (F.drop 4)
        h.holds_drop hall F.length (by rw [List.length_drop]; omega)
      have hmem : input + F.length ∈ (skipLength F.length
          (start a (unpackState m output))).1.loads := by
        rw [hmoved.loads, List.mem_append, mem_addrs]
        rw [List.length_drop] at hn
        change _ ∨ input + 4 + 4 ≤ _ ∧ _ < input + 4 + 4 + _
        omega
      have hall' := (skipLength_prefix_lzUncompress a F.length _).subset hmem
      have := (hinside F.length _ (List.mem_append_right _ hall')).2
      omega
    · refine ⟨p, ?_⟩
      rcases Nat.lt_or_ge (F.length - 4) (2 ^ 31) with hint | hint
      · obtain ⟨st, hst⟩ := exists_stream p.rest
        obtain ⟨fuel, s', i, hrun, hloads, -, hreads⟩ := unpack_of_stream h p hint hst
        refine Or.inr ⟨st, hst, hreads.mp ?_⟩
        by_contra hpast
        have hmem : input + 8 + ((p.field.bytes.length + i - 1 : Nat) : Int) ∈
            (unpack fuel m input output bytes).1.loads := by
          rw [hrun, hloads, mem_addrs]
          omega
        have := (hinside fuel _ (List.mem_append_right _ hmem)).2
        have := p.length_eq
        omega
      · exact Or.inl hint
  · rintro ⟨p, hcase⟩
    have hsplit := p.length_eq
    rcases Nat.lt_or_ge (F.length - 4) (2 ^ 31) with hint | hint
    · rcases hcase with hint' | ⟨st, hst, hreads⟩
      · omega
      · obtain ⟨fuel, s', i, hrun, hloads, -, hi⟩ := unpack_of_stream h p hint hst
        have := hi.mpr hreads
        exact loadsInside_of_returns h p hrun hloads (by omega)
    · obtain ⟨fuel, s', hrun, -, hloads⟩ := unpack_of_long h p hint
      exact loadsInside_of_returns h p hrun hloads (by omega)

/-- A profile of declared size 3 that ends in the middle of a literal token. -/
def cutProfile : List UInt8 :=
  [0x82, 0x29, 0x09, 0x00, 0x5a, 0x4c, 0x51, 0x49, 3, 3]

def cutMemory : Mem :=
  write (fun _ => 0) 0 cutProfile

theorem cutLoaded : Loaded cutMemory 0 100 10 cutProfile :=
  ⟨holds_write _ _ _, by decide, by decide, Or.inl (by decide)⟩

theorem cutProfile_not_loadsInside :
    Loaded cutMemory 0 100 10 cutProfile ∧ ¬ LoadsInside cutMemory 0 100 10 := by
  refine ⟨cutLoaded, fun h => ?_⟩
  have := (h 3 10 (by decide)).2
  contradiction

theorem loadsInside_iff_cutProfile :
    LoadsInside cutMemory 0 100 10 ↔ EndsInside cutProfile :=
  loadsInside_iff cutLoaded

end Iqiq.LzBounds
