import Mathlib.Algebra.Ring.Int.Defs
import Mathlib.Algebra.Ring.Nat
import Mathlib.Data.List.Basic
import Mathlib.Tactic.Common

namespace Iqiq.BackReference

variable {α : Type*}

/-- Append `n` elements to `out` one at a time, each a copy of the element `d`
places before it.  When `d < n` the source runs into the elements that the
same copy has produced. -/
def copyBack (d : Nat) : Nat → List α → List α
  | 0, out => out
  | n + 1, out => copyBack d n (out ++ (out[out.length - d]?).toList)

theorem getElem?_sub_of_le {out : List α} {d : Nat} (hd : 1 ≤ d)
    (hle : d ≤ out.length) :
    ∃ x, out[out.length - d]? = some x := by
  have hlt : out.length - d < out.length := by omega
  exact ⟨out[out.length - d], List.getElem?_eq_getElem hlt⟩

theorem length_copyBack {d : Nat} (n : Nat) {out : List α} (hd : 1 ≤ d)
    (hle : d ≤ out.length) : (copyBack d n out).length = out.length + n := by
  induction n generalizing out with
  | zero => rfl
  | succ n ih =>
      obtain ⟨x, hx⟩ := getElem?_sub_of_le hd hle
      simp only [copyBack, hx, Option.toList_some]
      rw [ih (by simp; omega)]
      simp only [List.length_append, List.length_cons, List.length_nil]
      omega

theorem prefix_copyBack (d n : Nat) (out : List α) : out <+: copyBack d n out := by
  induction n generalizing out with
  | zero => exact List.prefix_refl out
  | succ n ih => exact (List.prefix_append out _).trans (ih _)

theorem getElem?_copyBack_lt {d n i : Nat} {out : List α} (hi : i < out.length) :
    (copyBack d n out)[i]? = out[i]? := by
  obtain ⟨tail, htail⟩ := prefix_copyBack d n out
  rw [← htail, List.getElem?_append_left hi]

theorem getElem?_copyBack_back {d n k : Nat} {out : List α} (hd : 1 ≤ d)
    (hle : d ≤ out.length) (hk : k < n) :
    (copyBack d n out)[out.length + k]? = (copyBack d n out)[out.length + k - d]? := by
  induction n generalizing out k with
  | zero => omega
  | succ n ih =>
      obtain ⟨x, hx⟩ := getElem?_sub_of_le hd hle
      simp only [copyBack, hx, Option.toList_some]
      have hlen : (out ++ [x]).length = out.length + 1 := by simp
      cases k with
      | zero =>
          rw [getElem?_copyBack_lt (by omega), getElem?_copyBack_lt (by omega),
            List.getElem?_append_right (by omega),
            List.getElem?_append_left (by omega), Nat.add_zero, hx]
          simp
      | succ k =>
          have := @ih k (out ++ [x]) (by omega) (by omega)
          rw [hlen] at this
          rwa [show out.length + (k + 1) = out.length + 1 + k by omega]

theorem copyBack_append_left {d n : Nat} {before out : List α} (hle : d ≤ out.length) :
    copyBack d n (before ++ out) = before ++ copyBack d n out := by
  induction n generalizing out with
  | zero => rfl
  | succ n ih =>
      have hget : (before ++ out)[(before ++ out).length - d]? = out[out.length - d]? := by
        rw [List.length_append, List.getElem?_append_right (by omega)]
        congr 1
        omega
      simp only [copyBack, hget, List.append_assoc]
      exact ih (by rw [List.length_append]; omega)

/-- Closed form of an overlapping copy: the last `d` elements are repeated
periodically. -/
theorem getElem?_copyBack_mod {d n k : Nat} {out : List α} (hd : 1 ≤ d)
    (hle : d ≤ out.length) (hk : k < n) :
    (copyBack d n out)[out.length + k]? = out[out.length - d + k % d]? := by
  induction k using Nat.strongRecOn with
  | ind k ih =>
      rw [getElem?_copyBack_back hd hle hk]
      rcases Nat.lt_or_ge k d with hfirst | hfirst
      · rw [getElem?_copyBack_lt (by omega), Nat.mod_eq_of_lt hfirst]
        congr 1
        omega
      · have hsub : out.length + k - d = out.length + (k - d) := by omega
        rw [hsub, ih (k - d) (by omega) (by omega), ← Nat.mod_eq_sub_mod (by omega)]

end Iqiq.BackReference
