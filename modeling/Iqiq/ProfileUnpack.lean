import Mathlib.Data.Nat.Find
import Iqiq.HandleProfile
import Iqiq.LzStreams

namespace Iqiq.ProfileUnpack

open Iqiq.ByteMemory
open Iqiq.SevenBitGroups
open Iqiq.TokenStream
open Iqiq.LzUncompress
open Iqiq.LzLoops
open Iqiq.LzRuns
open Iqiq.LzStreams
open Iqiq.HandleProfile

theorem lt_80_iff (b : UInt8) : b < 0x80 ↔ ¬ b > 0x7f := by
  rw [gt_7f_iff, UInt8.lt_iff_toNat_lt]
  exact Nat.not_le.symm

theorem lzParseSize_eq (m : Mem) (p : Int) :
    lzParseSize m p =
      if m p > 0x7f then
        if m (p + 1) > 0x7f then
          (low7 (m p) + 128 * low7 (m (p + 1)) + 32768 * low7 (m (p + 2)),
            [p, p + 1, p + 2])
        else (low7 (m p) + 128 * low7 (m (p + 1)), [p, p + 1])
      else (low7 (m p), [p]) := by
  have h₀ := low7_lt (m p)
  have h₁ := low7_lt (m (p + 1))
  have hone : low7 (m p) ||| low7 (m (p + 1)) <<< 7 =
      low7 (m p) + 128 * low7 (m (p + 1)) := or_shiftLeft h₀ _
  have htwo : low7 (m p) + 128 * low7 (m (p + 1)) ||| low7 (m (p + 2)) <<< 15 =
      low7 (m p) + 128 * low7 (m (p + 1)) + 32768 * low7 (m (p + 2)) :=
    or_shiftLeft (by omega) _
  simp only [lzParseSize, toNat_and_7f, lt_80_iff, ite_not, hone, htwo]

theorem lzParseSize_of_field {m : Mem} {p : Int} {f : LengthField}
    (h : Holds m p f.bytes) :
    lzParseSize m p = (groupsValue f.bytes, addrs p (min 3 f.bytes.length)) := by
  obtain ⟨hi, last, hhi, hlast⟩ := f
  rw [lzParseSize_eq]
  simp only [MultiByte.bytes] at h ⊢
  rcases hi with _ | ⟨b₀, _ | ⟨b₁, hi⟩⟩
  · obtain ⟨h₀, -⟩ := holds_cons.mp h
    rw [if_neg (by rwa [h₀]), h₀]
    simp [groupsValue, addrs]
  · obtain ⟨h₀, htail⟩ := holds_cons.mp h
    obtain ⟨h₁, -⟩ := holds_cons.mp htail
    rw [if_pos (by rw [h₀]; exact hhi b₀ (by simp)), if_neg (by rwa [h₁]), h₀, h₁]
    simp [groupsValue, addrs, List.range_succ]
  · obtain ⟨h₀, htail⟩ := holds_cons.mp h
    obtain ⟨h₁, htail⟩ := holds_cons.mp htail
    rw [if_pos (by rw [h₀]; exact hhi b₀ (by simp)),
      if_pos (by rw [h₁]; exact hhi b₁ (by simp)), h₀, h₁]
    have hsplit : ∃ b₂ rest, hi ++ [last] = b₂ :: rest := by
      cases hi with
      | nil => exact ⟨last, [], rfl⟩
      | cons b₂ hi => exact ⟨b₂, hi ++ [last], rfl⟩
    obtain ⟨b₂, rest, hrest⟩ := hsplit
    change Holds m _ (hi ++ [last]) at htail
    rw [hrest] at htail
    obtain ⟨h₂, -⟩ := holds_cons.mp htail
    rw [show p + 1 + 1 = p + 2 by omega] at h₂
    rw [List.cons_append, List.cons_append, hrest, h₂]
    simp [groupsValue, addrs, List.range_succ]

theorem profileLen_lt (m : Mem) (input : Int) : profileLen m input < 2 ^ 23 := by
  have h₀ := low7_lt (m (input + 8))
  have h₁ := low7_lt (m (input + 8 + 1))
  have h₂ := low7_lt (m (input + 8 + 2))
  rw [profileLen, lzParseSize_eq]
  split
  · split <;> (simp only; omega)
  · simp only
    omega

/-- The profile `F` in memory at `input`, and room for its output elsewhere. -/
structure Loaded (m : Mem) (input output : Int) (bytes : UInt32) (F : List UInt8) :
    Prop where
  holds : Holds m input F
  length : F.length = bytes.toNat
  long : 8 ≤ F.length
  apart : Apart input F.length output (profileLen m input + 4)

theorem toInt_sub_four {bytes : UInt32} (h : 4 ≤ bytes.toNat) :
    (bytes - 4).toInt32.toInt =
      if bytes.toNat - 4 < 2 ^ 31 then (bytes.toNat : Int) - 4
      else (bytes.toNat : Int) - 4 - 2 ^ 32 := by
  have hle : (4 : UInt32) ≤ bytes := by
    rw [UInt32.le_iff_toNat_le]
    exact h
  have hsub : (bytes - 4).toNat = bytes.toNat - 4 := UInt32.toNat_sub_of_le _ _ hle
  have hint : (bytes - 4).toInt32.toInt = (bytes - 4).toBitVec.toInt := rfl
  have hbits : (bytes - 4).toBitVec.toNat = (bytes - 4).toNat := rfl
  rw [hint, BitVec.toInt_eq_toNat_cond, hbits, hsub]
  split <;> split <;> omega

/-- The state in which `handleProfile` calls `lzUncompress`. -/
def unpackState (m : Mem) (output : Int) : State :=
  ⟨ByteMemory.write m output header, 0, 0, [], []⟩

theorem unpackState_mem (m : Mem) {output q : Int} (h : q < output ∨ output + 4 ≤ q) :
    (unpackState m output).mem q = m q :=
  write_of_outside m (by simpa [header] using h)

theorem Loaded.holds_drop {m : Mem} {input output : Int} {bytes : UInt32} {F : List UInt8}
    (h : Loaded m input output bytes F) :
    Holds (unpackState m output).mem (input + 4) (F.drop 4) := by
  have hsplit := h.holds
  have hlong := h.long
  rw [← List.take_append_drop 4 F, holds_append, List.length_take,
    Nat.min_eq_left (by omega)] at hsplit
  refine hsplit.2.of_agree fun q hlo hhi => unpackState_mem m ?_
  have hapart := h.apart
  simp only [Apart, List.length_drop] at *
  omega

theorem Loaded.call {m : Mem} {input output : Int} {bytes : UInt32} {F : List UInt8}
    (h : Loaded m input output bytes F) (hint : F.length - 4 < 2 ^ 31) :
    Call (profileArgs input output bytes (profileLen m input)) (unpackState m output)
      (F.drop 4) := by
  have hlong := h.long
  have hlength := h.length
  refine ⟨h.holds_drop, ?_, Int.natCast_nonneg _, ?_⟩
  · simp only [profileArgs, List.length_drop]
    rw [toInt_sub_four (by omega), if_pos (by omega)]
    omega
  · have hapart := h.apart
    simp only [Apart, profileArgs, List.length_drop] at *
    omega

theorem Loaded.len_neg {m : Mem} {input output : Int} {bytes : UInt32} {F : List UInt8}
    (h : Loaded m input output bytes F) (hint : 2 ^ 31 ≤ F.length - 4) :
    (profileArgs input output bytes (profileLen m input)).len < 0 := by
  have hlength := h.length
  have hlt := bytes.toNat_lt
  simp only [profileArgs]
  rw [toInt_sub_four (by omega), if_neg (by omega)]
  omega

/-- A profile: eight bytes, a length field and the rest. -/
structure Split (F : List UInt8) where
  front : List UInt8
  field : LengthField
  rest : List UInt8
  front_length : front.length = 8
  bytes_eq : F = front ++ field.bytes ++ rest

/-- The size that the length field of the profile stands for. -/
def Split.size {F : List UInt8} (p : Split F) : Nat :=
  groupsValue p.field.bytes

theorem Split.drop_eq {F : List UInt8} (p : Split F) :
    F.drop 4 = p.front.drop 4 ++ p.field.bytes ++ p.rest := by
  have hle : 4 ≤ p.front.length := by rw [p.front_length]; omega
  conv_lhs => rw [p.bytes_eq]
  rw [List.append_assoc, List.drop_append_of_le_length hle, List.append_assoc]

theorem Split.magic_length {F : List UInt8} (p : Split F) : (p.front.drop 4).length = 4 := by
  rw [List.length_drop, p.front_length]

theorem Split.length_eq {F : List UInt8} (p : Split F) :
    F.length = 8 + p.field.bytes.length + p.rest.length := by
  conv_lhs => rw [p.bytes_eq]
  simp only [List.length_append, p.front_length]

theorem exists_splitField {F : List UInt8} (h : 8 ≤ F.length) :
    (∀ b ∈ (F.drop 4).drop 4, b > 0x7f) ∨ Nonempty (Split F) := by
  rw [List.drop_drop]
  rcases MultiByte.exists_split (F.drop (4 + 4)) with ⟨f, rest, hsplit⟩ | hall
  · refine Or.inr ⟨⟨F.take 8, f, rest, by simp [h], ?_⟩⟩
    rw [List.append_assoc, ← hsplit, List.take_append_drop]
  · exact Or.inl hall

theorem Loaded.parseSize {m : Mem} {input output : Int} {bytes : UInt32} {F : List UInt8}
    (h : Loaded m input output bytes F) (p : Split F) :
    lzParseSize m (input + 8) = (p.size, addrs (input + 8) (min 3 p.field.bytes.length)) := by
  have hholds := h.holds
  rw [p.bytes_eq, holds_append, holds_append, p.front_length] at hholds
  exact lzParseSize_of_field hholds.1.2

theorem Loaded.profileLen {m : Mem} {input output : Int} {bytes : UInt32} {F : List UInt8}
    (h : Loaded m input output bytes F) (p : Split F) : profileLen m input = p.size := by
  rw [HandleProfile.profileLen, h.parseSize p]

theorem Loaded.callSplit {m : Mem} {input output : Int} {bytes : UInt32} {F : List UInt8}
    (h : Loaded m input output bytes F) (p : Split F) (hint : F.length - 4 < 2 ^ 31) :
    Call (profileArgs input output bytes (HandleProfile.profileLen m input))
      (unpackState m output) (p.front.drop 4 ++ p.field.bytes ++ p.rest) := by
  rw [← p.drop_eq]
  exact h.call hint

theorem Loaded.outlen {m : Mem} {input output : Int} {bytes : UInt32} {F : List UInt8}
    (h : Loaded m input output bytes F) (p : Split F) :
    (profileArgs input output bytes (HandleProfile.profileLen m input)).outlen.toNat =
      p.size := by
  rw [← h.profileLen p]
  exact Int.toNat_natCast _

theorem unpack_of_long {m : Mem} {input output : Int} {bytes : UInt32} {F : List UInt8}
    (h : Loaded m input output bytes F) (p : Split F) (hint : 2 ^ 31 ≤ F.length - 4) :
    ∃ fuel s', unpack fuel m input output bytes = (s', some 0) ∧
      s'.mem = (unpackState m output).mem ∧
      s'.loads = addrs (input + 8) p.field.bytes.length := by
  have hfield : Holds (unpackState m output).mem
      ((profileArgs input output bytes (HandleProfile.profileLen m input)).input + 4)
      p.field.bytes := by
    have := h.holds_drop
    rw [p.drop_eq, holds_append, holds_append, p.magic_length] at this
    exact this.1.2
  obtain ⟨s₁, hs₁, hrun⟩ := lzUncompress_of_field hfield
  have hneg := h.len_neg hint
  have hpast : (profileArgs input output bytes (HandleProfile.profileLen m input)).endptr ≤
      s₁.inptr := by
    rw [hs₁.inptr, Args.endptr]
    omega
  refine ⟨p.field.bytes.length + 1, s₁, ?_, hs₁.mem, ?_⟩
  · exact (hrun _ (Nat.le_succ _)).trans (mainLoop_end hpast _)
  · rw [hs₁.loads, Nat.add_sub_cancel_left]
    change [] ++ addrs (input + 4 + 4) _ = _
    rw [List.nil_append, Int.add_assoc]
    rfl

/-- What the decompression step does with a profile that fits into `int`. -/
theorem unpack_of_stream {m : Mem} {input output : Int} {bytes : UInt32} {F : List UInt8}
    (h : Loaded m input output bytes F) (p : Split F) (hint : F.length - 4 < 2 ^ 31)
    {st : Stream} (hst : st.bytes = p.rest) :
    ∃ fuel s' i, unpack fuel m input output bytes =
        (s', some (if st.size ≤ p.size then 0 else 1)) ∧
      s'.loads = addrs (input + 8) (p.field.bytes.length + i) ∧
      (∀ q, q < output + 4 ∨ output + 4 + min st.size p.size ≤ q →
        s'.mem q = (unpackState m output).mem q) ∧
      (i ≤ p.rest.length ↔ st.ReadsInside p.size) := by
  have hcall := h.callSplit p hint
  rw [← hst] at hcall
  obtain ⟨s', i, ⟨fuel, hrun⟩, hloads, -, hframe, hreads⟩ :=
    lzUncompress_stream p.magic_length hcall
  rw [h.outlen p] at hrun hframe hreads
  refine ⟨fuel, s', i, hrun, ?_, hframe, ?_⟩
  · rw [hloads]
    change [] ++ addrs (input + 4 + 4) _ = _
    rw [List.nil_append, Int.add_assoc]
    rfl
  · rw [← hst]
    exact hreads

theorem unpack_of_tokens {m : Mem} {input output base : Int} {bytes : UInt32}
    {F pre : List UInt8} (h : Loaded m input output bytes F) (p : Split F)
    (hint : F.length - 4 < 2 ^ 31) {ts : List Token} (hts : encode ts = p.rest)
    (hbase : output + 4 = base + pre.length) (hpre : Holds (unpackState m output).mem base pre)
    (hreach : Reaches pre.length ts) (hfit : totalSize ts ≤ p.size) :
    ∃ fuel s', unpack fuel m input output bytes = (s', some 0) ∧
      Holds s'.mem base (expand (4 + p.field.bytes.length) pre ts) := by
  have hcall := h.callSplit p hint
  rw [← hts] at hcall
  obtain ⟨s', ⟨fuel, hrun⟩, hholds⟩ :=
    lzUncompress_tokens p.magic_length hcall hbase hpre hreach
  rw [h.outlen p] at hrun hholds
  rw [if_pos hfit] at hrun
  have hlen := @TokenStream.length_expand (4 + p.field.bytes.length) pre ts hreach
  rw [List.take_of_length_le (by omega)] at hholds
  exact ⟨fuel, s', hrun, hholds⟩

theorem unpack_of_cut {m : Mem} {input output base : Int} {bytes : UInt32}
    {F pre : List UInt8} (h : Loaded m input output bytes F) (p : Split F)
    (hint : F.length - 4 < 2 ^ 31) {ts : List Token} {tail : Tail}
    (hrest : encode ts ++ tail.bytes = p.rest) (htail : tail ≠ .done)
    (hbase : output + 4 = base + pre.length) (hpre : Holds (unpackState m output).mem base pre)
    (hreach : Reaches pre.length ts) (hfit : totalSize ts + tail.size ≤ p.size) :
    let a := profileArgs input output bytes (HandleProfile.profileLen m input)
    ∃ fuel s₂, unpack fuel m input output bytes = ((token a s₂).1, some 0) ∧
      Boundary a base (4 + p.field.bytes.length + (encode ts).length)
        (expand (4 + p.field.bytes.length) pre ts) s₂ ∧
      Holds s₂.mem s₂.inptr tail.bytes ∧
      room a s₂.outptr = p.size - totalSize ts ∧
      ∀ q, q < output + 4 ∨ output + 4 + totalSize ts ≤ q →
        s₂.mem q = (unpackState m output).mem q := by
  have hcall := h.callSplit p hint
  rw [← hrest] at hcall
  obtain ⟨s₂, ⟨fuel, hrun⟩, hb, hheld, hroom, hframe⟩ :=
    lzUncompress_cut p.magic_length hcall htail hbase hpre hreach
      (by rw [h.outlen p]; exact hfit)
  rw [h.outlen p] at hroom
  exact ⟨fuel, s₂, hrun, hb, hheld, hroom, hframe⟩

/-- The skip loop of `lzUncompress`, from address `p` on, takes the bytes that `lzParseSize`
looks at there, and no others. -/
def ReadersAgree (m : Mem) (p : Int) : Prop :=
  ∀ s : State, s.mem = m → s.inptr = p → ∃ fuel s', skipLength fuel s = (s', true) ∧
    s'.inptr = p + (lzParseSize m p).2.length ∧ s'.loads = s.loads ++ (lzParseSize m p).2

theorem length_lzParseSize_le (m : Mem) (p : Int) : (lzParseSize m p).2.length ≤ 3 := by
  rw [lzParseSize_eq]
  split
  · split
    · exact Nat.le_refl 3
    · exact Nat.le_succ 2
  · exact Nat.le_add_left 1 2

theorem lzParseSize_addrs {m : Mem} {p : Int} {n : Nat} (hn : n < 3)
    (hhi : ∀ i < n, m (p + i) > 0x7f) (hlast : ¬ m (p + n) > 0x7f) :
    (lzParseSize m p).2 = addrs p (n + 1) := by
  rw [lzParseSize_eq]
  rcases n with _ | _ | _ | n
  · rw [if_neg (by simpa using hlast)]
    simp [addrs]
  · have h₀ := hhi 0 (by omega)
    rw [if_pos (by simpa using h₀), if_neg (by simpa using hlast)]
    simp [addrs, List.range_succ]
  · have h₀ := hhi 0 (by omega)
    have h₁ := hhi 1 (by omega)
    rw [if_pos (by simpa using h₀), if_pos (by simpa using h₁)]
    simp [addrs, List.range_succ]
  · omega

theorem readersAgree_of_le {m : Mem} {p : Int} {i : Nat} (hi : i < 3) (h : m (p + i) ≤ 0x7f) :
    ReadersAgree m p := by
  intro s hs hp
  have hend : ∃ n : Nat, ¬ m (p + n) > 0x7f := ⟨i, UInt8.not_lt.mpr h⟩
  have hlast := Nat.find_spec hend
  have hhi : ∀ j < Nat.find hend, m (p + j) > 0x7f := fun j hj => not_not.mp (Nat.find_min hend hj)
  have hle : Nat.find hend ≤ i := Nat.find_min' hend (UInt8.not_lt.mpr h)
  generalize Nat.find hend = n at hlast hhi hle
  subst hs hp
  obtain ⟨hdone, hmoved⟩ := skipLength_of_terminated hhi hlast (Nat.lt_succ_self n)
  have haddrs := lzParseSize_addrs (by omega) hhi hlast
  refine ⟨n + 1, _, Prod.ext rfl hdone, ?_, ?_⟩
  · rw [haddrs, length_addrs, hmoved.inptr]
  · rw [haddrs, hmoved.loads]

theorem le_of_readersAgree {m : Mem} {p : Int} (h : ReadersAgree m p) :
    ∃ i < 3, m (p + (i : Nat)) ≤ 0x7f := by
  obtain ⟨fuel, s', hskip, hptr, -⟩ := h ⟨m, p, 0, [], []⟩ rfl rfl
  obtain ⟨n, hmoved, -, hended⟩ := skipLength_moved fuel ⟨m, p, 0, [], []⟩
  rw [hskip] at hmoved hended
  obtain ⟨k, rfl, hk⟩ := hended rfl
  have hin := hmoved.inptr
  have hlen := length_lzParseSize_le m p
  simp only at hin hk
  exact ⟨k, by omega, UInt8.not_lt.mp hk⟩

/-- Both readers take the same bytes exactly when the length field ends within the three
bytes that `lzParseSize` can look at. -/
theorem readersAgree_iff (m : Mem) (p : Int) :
    ReadersAgree m p ↔ ∃ i < 3, m (p + (i : Nat)) ≤ 0x7f := by
  constructor
  · exact le_of_readersAgree
  · rintro ⟨i, hi, hle⟩
    exact readersAgree_of_le hi hle

theorem not_readersAgree_fourBytes :
    let m := write (fun _ => 0) 0 [0x80, 0x80, 0x80, 1]
    m 3 ≤ 0x7f ∧ ¬ ReadersAgree m 0 := by
  intro m
  refine ⟨by decide, fun h => ?_⟩
  obtain ⟨i, hi, hle⟩ := le_of_readersAgree h
  rcases i with _ | _ | _ | i
  · exact absurd hle (by decide)
  · exact absurd hle (by decide)
  · exact absurd hle (by decide)
  · omega

theorem unpack_unique {fuel fuel' : Nat} {m : Mem} {input output : Int} {bytes : UInt32}
    {s s' : State} {ret ret' : Int} (h : unpack fuel m input output bytes = (s, some ret))
    (h' : unpack fuel' m input output bytes = (s', some ret')) : ret = ret' ∧ s = s' :=
  Returns.unique ⟨fuel, h⟩ ⟨fuel', h'⟩

/-- The two buffers that `malloc` returns do not overlap. -/
def BuffersApart (c : Calls) (m : Mem) : Prop :=
  ∀ bytes input output, Ready c bytes input output →
    Apart input c.fread.length output
      (HandleProfile.profileLen (write m input c.fread) input + 4)

theorem loaded_of_ready {c : Calls} {bytes : UInt32} {input output : Int} {m : Mem}
    (h : Ready c bytes input output) (hlong : 8 ≤ c.fread.length) (hapart : BuffersApart c m) :
    Loaded (write m input c.fread) input output bytes c.fread :=
  ⟨holds_write _ _ _, h.fread, hlong, hapart _ _ _ h⟩

/-- Calls that all succeed, with `n` bytes written. -/
def goodCalls (F : List UInt8) (input output : Int) (n : Nat) : Calls :=
  ⟨some (UInt32.ofNat F.length), some input, true, F, some output, true, some n⟩

theorem goodCalls_ready {F : List UInt8} (hlt : F.length < 2 ^ 32) (input output : Int)
    (n : Nat) : Ready (goodCalls F input output n) (UInt32.ofNat F.length) input output :=
  ⟨rfl, rfl, rfl, by
    change F.length = _
    rw [UInt32.toNat_ofNat', Nat.mod_eq_of_lt hlt], rfl⟩

theorem goodCalls_apart {F : List UInt8} {m : Mem} {input output : Int} {n : Nat}
    (h : Apart input F.length output
      (HandleProfile.profileLen (write m input F) input + 4)) :
    BuffersApart (goodCalls F input output n) m := by
  rintro bytes input' output' ⟨-, hinput, -, -, houtput⟩
  simp only [goodCalls, Option.some.injEq] at hinput houtput
  subst hinput houtput
  exact h

theorem goodCalls_handles {F : List UInt8} (hlt : F.length < 2 ^ 32) {m : Mem}
    {input output : Int} {len fuel : Nat} {s : State}
    (hlen : HandleProfile.profileLen (write m input F) input = len)
    (hrun : unpack fuel (write m input F) input output (UInt32.ofNat F.length) = (s, some 0))
    (outfile : String) (disk : Option (List UInt8)) :
    ∃ r, Handles (goodCalls F input output (len + 4)) outfile m disk r ∧ r.status = 0 := by
  have hready := goodCalls_ready hlt input output (len + 4)
  refine ⟨_, hready.handles_iff.mpr ⟨fuel, s, 0, hrun, rfl⟩, ?_⟩
  change (afterUnpack _ _ _ (HandleProfile.profileLen (write m input F) input)
    _ _ _ _).status = 0
  rw [hlen]
  simp [afterUnpack, goodCalls]

theorem goodCalls_written {F : List UInt8} (hlt : F.length < 2 ^ 32) {m : Mem}
    {input output : Int} {n fuel : Nat} {s : State} {outfile : String}
    {disk : Option (List UInt8)} {r : Result}
    (hrun : unpack fuel (write m input F) input output (UInt32.ofNat F.length) = (s, some 0))
    (hr : Handles (goodCalls F input output n) outfile m disk r) (hzero : r.status = 0) :
    r.disk = some (writeFront (openCreate disk)
      (slice s.mem output (HandleProfile.profileLen (write m input F) input + 4))) := by
  obtain ⟨bytes, input', output', fuel', s', hready, hrun', hdisk⟩ := handles_zero hr hzero
  obtain ⟨rfl, rfl, rfl⟩ := hready.unique (goodCalls_ready hlt input output n)
  obtain ⟨-, rfl⟩ := unpack_unique hrun' hrun
  exact hdisk

end Iqiq.ProfileUnpack
