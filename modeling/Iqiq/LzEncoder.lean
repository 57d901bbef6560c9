import Iqiq.ProfileUnpack

namespace Iqiq.LzEncoder

open Iqiq.ByteMemory
open Iqiq.SevenBitGroups
open Iqiq.TokenStream
open Iqiq.LzUncompress
open Iqiq.LzRuns
open Iqiq.LzStreams
open Iqiq.ProfileUnpack

/-- Some length field of at most three bytes and some tokens decode to `d`,
wherever the buffers lie. -/
def Representable (d : List UInt8) : Prop :=
  ∃ (f : LengthField) (ts : List Token), f.bytes.length ≤ 3 ∧
    ∀ (magic : List UInt8) (a : Args) (s : State), magic.length = 4 →
      Call a s (magic ++ f.bytes ++ encode ts) → a.outlen = d.length →
        (lzParseSize s.mem (a.input + 4)).1 = d.length ∧
          ∃ s', Returns a s 0 s' ∧ Holds s'.mem a.output d ∧
            s'.stores = s.stores ++ addrs a.output d.length

/-- Every byte of `d` as a literal token of its own, from position `p` on. -/
def literals (p : Nat) : List UInt8 → List Token
  | [] => []
  | b :: d => .literal [b ^^^ UInt8.ofNat (0x55 + (p + 1))] (by simp) :: literals (p + 2) d

theorem reaches_literals (n p : Nat) (d : List UInt8) : Reaches n (literals p d) := by
  induction d generalizing n p with
  | nil => trivial
  | cons b d ih => exact ⟨Nat.zero_le _, ih _ _⟩

theorem totalSize_literals (p : Nat) (d : List UInt8) :
    totalSize (literals p d) = d.length := by
  induction d generalizing p with
  | nil => rfl
  | cons b d ih =>
      rw [literals, totalSize_cons, ih, List.length_cons]
      simp only [Token.size, List.length_cons, List.length_nil]
      omega

theorem expand_literals (p : Nat) (out d : List UInt8) :
    expand p out (literals p d) = out ++ d := by
  induction d generalizing p out with
  | nil => simp [literals, expand]
  | cons b d ih =>
      rw [literals, expand]
      have hmask : unmask (p + 1) [b ^^^ UInt8.ofNat (0x55 + (p + 1))] = [b] := by
        rw [unmask_cons, unmask_nil, UInt8.xor_assoc, UInt8.xor_self, UInt8.xor_zero]
      simp only [Token.expand, Token.bytes, hmask]
      exact (ih (p + 2) (out ++ [b])).trans (by simp)

/-- The three-byte length field of a size below `2 ^ 21`. -/
def sizeField (n : Nat) (hn : n < 2 ^ 21) : LengthField where
  hi := [UInt8.ofNat (128 + n % 128), UInt8.ofNat (128 + n / 128 % 128)]
  last := UInt8.ofNat (n / 32768)
  hi_gt := by
    intro b hb
    rw [gt_7f_iff]
    simp only [List.mem_cons, List.not_mem_nil, or_false] at hb
    rcases hb with rfl | rfl <;> rw [UInt8.toNat_ofNat'] <;> omega
  last_le := by
    rw [gt_7f_iff, UInt8.toNat_ofNat']
    omega

theorem groupsValue_sizeField {n : Nat} (hn : n < 2 ^ 21) :
    groupsValue (sizeField n hn).bytes =
      n % 128 + 128 * (n / 128 % 128) + 32768 * (n / 32768) := by
  simp only [sizeField, MultiByte.bytes, List.cons_append, List.nil_append, groupsValue,
    low7, UInt8.toNat_ofNat']
  omega

theorem testBit_groupsValue (bs : List UInt8) : (groupsValue bs).testBit 14 = false := by
  rw [Nat.testBit_eq_decide_div_mod_eq, decide_eq_false_iff_not]
  rcases bs with _ | ⟨b₀, _ | ⟨b₁, _ | ⟨b₂, rest⟩⟩⟩
  · simp [groupsValue]
  · have h₀ := low7_lt b₀
    simp only [groupsValue]
    omega
  · have h₀ := low7_lt b₀
    have h₁ := low7_lt b₁
    simp only [groupsValue]
    omega
  · have h₀ := low7_lt b₀
    have h₁ := low7_lt b₁
    simp only [groupsValue]
    omega

theorem Representable.testBit {d : List UInt8} (h : Representable d) :
    d.length.testBit 14 = false := by
  obtain ⟨f, ts, -, hdecode⟩ := h
  let bytes := [0, 0, 0, 0] ++ f.bytes ++ encode ts
  let a : Args := ⟨0, bytes.length, bytes.length, d.length⟩
  let s : State := ⟨write (fun _ => 0) 0 bytes, 0, 0, [], []⟩
  have hcall : Call a s bytes :=
    ⟨holds_write _ _ _, rfl, Int.natCast_nonneg _, Or.inl (by simp [a])⟩
  have hparse := (hdecode [0, 0, 0, 0] a s rfl hcall rfl).1
  rw [lzParseSize_of_field (@Call.field a s [0, 0, 0, 0] (encode ts) f hcall rfl)] at hparse
  rw [← hparse]
  exact testBit_groupsValue f.bytes

theorem representable_of_testBit {d : List UInt8} (hd : d.length < 2 ^ 21)
    (hbit : d.length.testBit 14 = false) : Representable d := by
  have hsize : groupsValue (sizeField d.length hd).bytes = d.length := by
    rw [Nat.testBit_eq_decide_div_mod_eq, decide_eq_false_iff_not] at hbit
    rw [groupsValue_sizeField]
    omega
  have hthree : (sizeField d.length hd).bytes.length ≤ 3 := Nat.le_refl 3
  generalize sizeField d.length hd = f at hsize hthree
  let p := 4 + f.bytes.length
  refine ⟨f, literals p d, hthree, fun magic a s hmagic hcall houtlen => ⟨?_, ?_⟩⟩
  · rw [lzParseSize_of_field (hcall.field hmagic)]
    exact hsize
  · have hcap : a.outlen.toNat = d.length := by omega
    have hstream : Call a s (magic ++ f.bytes ++ (Stream.mk (literals p d) .done).bytes) := by
      simpa [Stream.bytes, Tail.bytes] using hcall
    have hall : (Stream.mk (literals p d) .done).size = d.length := by
      simp [Stream.size, Tail.size, totalSize_literals]
    obtain ⟨s', i, hret, -, hstores, -, -⟩ := lzUncompress_stream hmagic hstream
    obtain ⟨s'', hret', hholds⟩ := @lzUncompress_tokens a s magic [] f (literals p d) a.output
      hmagic hcall (by simp) (holds_nil _ _) (reaches_literals _ _ _)
    rw [hall, hcap, if_pos (Nat.le_refl _)] at hret
    rw [totalSize_literals, hcap, if_pos (Nat.le_refl _)] at hret'
    rw [hall, hcap, Nat.min_self] at hstores
    rw [expand_literals, List.nil_append, List.length_nil, Nat.zero_add, hcap,
      List.take_length] at hholds
    rw [← (Returns.unique hret hret').2] at hholds
    exact ⟨s', hret, hholds, hstores⟩

/-- Of the byte strings below `2 ^ 21` bytes, those are representable whose
length has bit 14 clear. -/
theorem representable_iff {d : List UInt8} (hd : d.length < 2 ^ 21) :
    Representable d ↔ d.length.testBit 14 = false :=
  ⟨Representable.testBit, representable_of_testBit hd⟩

theorem not_representable_replicate :
    (List.replicate 16384 (0 : UInt8)).length < 2 ^ 21 ∧
      ¬ Representable (List.replicate 16384 0) := by
  refine ⟨by rw [List.length_replicate]; decide, fun h => ?_⟩
  have := h.testBit
  rw [List.length_replicate] at this
  contradiction

/-- The numbers from zero on, in eight bits. -/
def counting (n : Nat) : List UInt8 :=
  (List.range n).map UInt8.ofNat

theorem length_counting (n : Nat) : (counting n).length = n := by
  rw [counting, List.length_map, List.length_range]

theorem representable_iff_counting :
    Representable (counting 40000) ∧ ¬ Representable (counting 20000) := by
  constructor
  · apply (representable_iff (by rw [length_counting]; decide)).mpr
    rw [length_counting]
    decide
  · intro h
    have hbit := (representable_iff (by rw [length_counting]; decide)).mp h
    rw [length_counting] at hbit
    contradiction

end Iqiq.LzEncoder
