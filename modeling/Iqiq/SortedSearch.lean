import Mathlib.Algebra.Ring.Int.Defs
import Mathlib.Algebra.Ring.Nat
import Mathlib.Data.List.Sort

namespace Iqiq.SortedSearch

variable {α κ : Type*} [LinearOrder κ]

/-- Binary search for the key `x` between the indices `lo` and `hi`. -/
def search (key : α → κ) (x : κ) (xs : List α) : Nat → Nat → Nat → Option Nat
  | 0, _, _ => none
  | fuel + 1, lo, hi =>
      if lo < hi then
        let mid := (lo + hi) / 2
        match xs[mid]? with
        | none => none
        | some a =>
            if x < key a then search key x xs fuel lo mid
            else if key a < x then search key x xs fuel (mid + 1) hi
            else some mid
      else none

/-- `bsearch` over the whole list. -/
def bsearch (key : α → κ) (x : κ) (xs : List α) : Option Nat :=
  search key x xs xs.length 0 xs.length

/-- The entry at `i` has the key `x`. -/
def Hits (key : α → κ) (x : κ) (xs : List α) (i : Nat) : Prop :=
  ∃ a, xs[i]? = some a ∧ key a = x

theorem search_sound {key : α → κ} {x : κ} {xs : List α} {fuel lo hi i : Nat}
    (h : search key x xs fuel lo hi = some i) : Hits key x xs i := by
  induction fuel generalizing lo hi with
  | zero => exact nomatch h
  | succ fuel ih =>
      simp only [search] at h
      split at h
      · split at h
        · exact nomatch h
        · rename_i a hmid
          split at h
          · exact ih h
          · rename_i hge
            split at h
            · exact ih h
            · rename_i hle
              obtain rfl := Option.some.inj h
              exact ⟨a, hmid, le_antisymm (not_lt.mp hge) (not_lt.mp hle)⟩
      · exact nomatch h

/-- The list is in the order of the keys. -/
def Sorted (key : α → κ) (xs : List α) : Prop :=
  xs.Pairwise fun a b => key a ≤ key b

theorem Sorted.le {key : α → κ} {xs : List α} (h : Sorted key xs) {i j : Nat} {a b : α}
    (hi : xs[i]? = some a) (hj : xs[j]? = some b) (hij : i ≤ j) : key a ≤ key b := by
  obtain ⟨hi', rfl⟩ := List.getElem?_eq_some_iff.mp hi
  obtain ⟨hj', rfl⟩ := List.getElem?_eq_some_iff.mp hj
  rcases Nat.lt_or_eq_of_le hij with hlt | rfl
  · exact List.pairwise_iff_getElem.mp h i j hi' hj' hlt
  · exact le_rfl

theorem exists_search {key : α → κ} {x : κ} {xs : List α} {fuel lo hi i : Nat}
    (hsorted : Sorted key xs) (hi' : Hits key x xs i) (hlo : lo ≤ i) (hhi : i < hi)
    (hlen : hi ≤ xs.length) (hfuel : hi - lo ≤ fuel) :
    ∃ j, search key x xs fuel lo hi = some j := by
  obtain ⟨b, hb, rfl⟩ := hi'
  induction fuel generalizing lo hi with
  | zero => omega
  | succ fuel ih =>
      have hmid : xs[(lo + hi) / 2]? = some xs[(lo + hi) / 2] :=
        List.getElem?_eq_getElem (by omega)
      simp only [search, if_pos (by omega : lo < hi), hmid]
      split
      · rename_i hlt
        have : i < (lo + hi) / 2 := by
          refine Nat.lt_of_not_le fun hle => ?_
          exact absurd (hsorted.le hmid hb hle) (not_le.mpr hlt)
        exact ih hlo this (by omega) (by omega)
      · split
        · rename_i hgt
          have : (lo + hi) / 2 < i := by
            refine Nat.lt_of_not_le fun hle => ?_
            exact absurd (hsorted.le hb hmid hle) (not_le.mpr hgt)
          exact ih (by omega) hhi hlen (by omega)
        · exact ⟨_, rfl⟩

theorem bsearch_eq_none_iff {key : α → κ} {x : κ} {xs : List α} (hsorted : Sorted key xs) :
    bsearch key x xs = none ↔ ∀ a ∈ xs, key a ≠ x := by
  constructor
  · rintro h a ha rfl
    obtain ⟨i, hi, rfl⟩ := List.mem_iff_getElem.mp ha
    obtain ⟨j, hj⟩ := @exists_search α κ _ key _ xs xs.length 0 xs.length i hsorted
      ⟨_, List.getElem?_eq_getElem hi, rfl⟩ (Nat.zero_le i) hi le_rfl (by omega)
    rw [bsearch, hj] at h
    exact nomatch h
  · intro h
    cases hres : bsearch key x xs with
    | none => rfl
    | some i =>
        obtain ⟨a, ha, rfl⟩ := search_sound hres
        exact absurd rfl (h a (List.mem_of_getElem? ha))

/-- The first of the entries with the key of the one at `i`, for a sorted list. -/
def leftmost (key : α → κ) (x : κ) (xs : List α) : Nat → Nat
  | 0 => 0
  | i + 1 => if xs[i]?.map key = some x then leftmost key x xs i else i + 1

theorem hits_leftmost {key : α → κ} {x : κ} {xs : List α} {i : Nat} (h : Hits key x xs i) :
    Hits key x xs (leftmost key x xs i) := by
  induction i with
  | zero => exact h
  | succ i ih =>
      rw [leftmost]
      split
      · rename_i hkey
        obtain ⟨a, ha, hax⟩ := Option.map_eq_some_iff.mp hkey
        exact ih ⟨a, ha, hax⟩
      · exact h

end Iqiq.SortedSearch
