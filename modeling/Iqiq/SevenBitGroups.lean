import Mathlib.Algebra.Ring.Int.Defs
import Mathlib.Algebra.Ring.Nat
import Mathlib.Data.Nat.Basic
import Mathlib.Tactic.Common

namespace Iqiq.SevenBitGroups

/-- The low seven bits of a byte. -/
def low7 (b : UInt8) : Nat :=
  b.toNat % 128

theorem low7_lt (b : UInt8) : low7 b < 128 :=
  Nat.mod_lt _ (by omega)

theorem toNat_and_7f (b : UInt8) : (b &&& 0x7f).toNat = low7 b := by
  rw [UInt8.toNat_and]
  exact Nat.and_two_pow_sub_one_eq_mod b.toNat 7

theorem gt_7f_iff (b : UInt8) : b > 0x7f ↔ 128 ≤ b.toNat := by
  rw [gt_iff_lt, UInt8.lt_iff_toNat_lt]
  exact Nat.lt_iff_add_one_le

theorem or_shiftLeft {x k : Nat} (hx : x < 2 ^ k) (y : Nat) :
    x ||| y <<< k = x + 2 ^ k * y := by
  rw [Nat.or_comm, Nat.shiftLeft_eq, Nat.mul_comm, ← Nat.two_pow_add_eq_or_of_lt hx,
    Nat.add_comm]

theorem toNat_or_group {x k : UInt64} (b : UInt8) (hk : k.toNat ≤ 15)
    (hx : x.toNat < 2 ^ k.toNat) :
    (x ||| ((b &&& 0x7f).toUInt64 <<< k)).toNat = x.toNat + 2 ^ k.toNat * low7 b := by
  have hpow : 2 ^ k.toNat ≤ 2 ^ 15 := Nat.pow_le_pow_right (by omega) hk
  have hfits : low7 b * 2 ^ k.toNat < 2 ^ 64 := by
    have hmul := Nat.mul_le_mul (Nat.le_of_lt (low7_lt b)) hpow
    omega
  rw [UInt64.toNat_or, UInt64.toNat_shiftLeft, UInt8.toNat_toUInt64, toNat_and_7f,
    Nat.mod_eq_of_lt (by omega : k.toNat < 64), Nat.shiftLeft_eq, Nat.mod_eq_of_lt hfits,
    ← Nat.shiftLeft_eq, or_shiftLeft hx]

set_option maxRecDepth 4000 in
theorem and_80_ne_zero_iff (b : UInt8) : b &&& 0x80 ≠ 0 ↔ b > 0x7f := by
  have hall : ∀ n : Fin 256,
      UInt8.ofNat n.val &&& 0x80 ≠ 0 ↔ UInt8.ofNat n.val > 0x7f := by decide
  have := hall ⟨b.toNat, b.toNat_lt⟩
  rwa [UInt8.ofNat_toNat] at this

/-- An integer of seven-bit groups: bytes above `0x7f`, then one that is not. -/
structure MultiByte where
  hi : List UInt8
  last : UInt8
  hi_gt : ∀ b ∈ hi, b > 0x7f
  last_le : ¬ last > 0x7f

namespace MultiByte

def bytes (n : MultiByte) : List UInt8 :=
  n.hi ++ [n.last]

/-- The value, most significant group first. -/
def value (n : MultiByte) : Nat :=
  n.bytes.foldl (fun v b => 128 * v + low7 b) 0

/-- The integer of the one byte `b`. -/
def single (b : UInt8) (h : ¬ b > 0x7f) : MultiByte :=
  ⟨[], b, by simp, h⟩

theorem exists_split (bs : List UInt8) :
    (∃ (n : MultiByte) (rest : List UInt8), bs = n.bytes ++ rest) ∨ ∀ b ∈ bs, b > 0x7f := by
  induction bs with
  | nil => exact Or.inr (by simp)
  | cons b bs ih =>
      rcases em (b > 0x7f) with hb | hb
      · rcases ih with ⟨n, rest, rfl⟩ | hall
        · refine Or.inl ⟨⟨b :: n.hi, n.last, ?_, n.last_le⟩, rest, rfl⟩
          intro x hx
          rcases List.mem_cons.mp hx with rfl | hx
          · exact hb
          · exact n.hi_gt x hx
        · refine Or.inr fun x hx => ?_
          rcases List.mem_cons.mp hx with rfl | hx
          · exact hb
          · exact hall x hx
      · exact Or.inl ⟨single b hb, bs, rfl⟩

theorem append_cancel {x y : MultiByte} {as bs : List UInt8}
    (h : x.bytes ++ as = y.bytes ++ bs) : x.bytes = y.bytes ∧ as = bs := by
  obtain ⟨hi, last, hhi, hlast⟩ := x
  obtain ⟨hi', last', hhi', hlast'⟩ := y
  simp only [bytes] at *
  induction hi generalizing hi' with
  | nil =>
      cases hi' with
      | nil => simpa using h
      | cons b hi' =>
          simp only [List.nil_append, List.cons_append, List.cons.injEq] at h
          exact absurd (hhi' b List.mem_cons_self) (by rwa [← h.1])
  | cons b hi ih =>
      cases hi' with
      | nil =>
          simp only [List.nil_append, List.cons_append, List.cons.injEq] at h
          exact absurd (hhi b List.mem_cons_self) (by rwa [h.1])
      | cons b' hi' =>
          simp only [List.cons_append, List.cons.injEq] at h ⊢
          obtain ⟨htail, hrest⟩ := ih (fun x hx => hhi x (List.mem_cons_of_mem b hx)) hi'
            (fun x hx => hhi' x (List.mem_cons_of_mem b' hx)) h.2
          exact ⟨⟨h.1, htail⟩, hrest⟩

theorem value_congr {x y : MultiByte} (h : x.bytes = y.bytes) : x.value = y.value := by
  rw [value, value, h]

theorem value_single (b : UInt8) (h : ¬ b > 0x7f) : (single b h).value = b.toNat := by
  rw [gt_7f_iff] at h
  simp only [value, bytes, single, List.nil_append, List.foldl_cons, List.foldl_nil, low7]
  omega

theorem cases_bytes (n : MultiByte) :
    (∃ h, n = single n.last h) ∨ ∃ (b : UInt8) (rest : MultiByte), b > 0x7f ∧
      n.bytes = b :: rest.bytes := by
  obtain ⟨hi, last, hhi, hlast⟩ := n
  cases hi with
  | nil => exact Or.inl ⟨hlast, rfl⟩
  | cons b hi =>
      exact Or.inr ⟨b, ⟨hi, last, fun x hx => hhi x (List.mem_cons_of_mem b hx), hlast⟩,
        hhi b List.mem_cons_self, rfl⟩

theorem bytes_append_ne (n : MultiByte) (bs : List UInt8) : n.bytes ++ bs ≠ bs := by
  intro h
  have hlen := congrArg List.length h
  simp only [bytes, List.length_append, List.length_cons, List.length_nil] at hlen
  omega

end MultiByte

end Iqiq.SevenBitGroups
