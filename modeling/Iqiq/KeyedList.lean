import Mathlib.Data.List.Nodup

namespace Iqiq.KeyedList

variable {α κ : Type} [DecidableEq κ]

/-! Lists in which each element has a key of its own. -/

section

variable (key : α → κ)

def lookup (xs : List α) (k : κ) : Option α :=
  xs.find? fun x => key x = k

/-- The element with the key of `y` becomes `y`. -/
def replace (xs : List α) (y : α) : List α :=
  xs.map fun x => if key x = key y then y else x

def remove (xs : List α) (k : κ) : List α :=
  xs.filter fun x => key x ≠ k

end

variable {key : α → κ} {xs : List α} {x y : α} {k : κ}

theorem lookup_eq_some_iff (hxs : (xs.map key).Nodup) :
    lookup key xs k = some x ↔ x ∈ xs ∧ key x = k := by
  induction xs with
  | nil => simp [lookup]
  | cons a xs ih =>
      rw [List.map_cons, List.nodup_cons] at hxs
      rw [lookup, List.find?_cons]
      rcases eq_or_ne (key a) k with rfl | hne
      · simp only [decide_true, Option.some.injEq, List.mem_cons]
        constructor
        · rintro rfl
          exact ⟨Or.inl rfl, rfl⟩
        · rintro ⟨rfl | hmem, hkey⟩
          · rfl
          · exact absurd (List.mem_map.mpr ⟨x, hmem, hkey⟩) hxs.1
      · have hrest := ih hxs.2
        rw [lookup] at hrest
        simp only [decide_eq_false hne, hrest, List.mem_cons]
        constructor
        · rintro ⟨hmem, hkey⟩
          exact ⟨Or.inr hmem, hkey⟩
        · rintro ⟨rfl | hmem, hkey⟩
          · exact absurd hkey hne
          · exact ⟨hmem, hkey⟩

theorem lookup_eq_none_iff : lookup key xs k = none ↔ ∀ x ∈ xs, key x ≠ k := by
  rw [lookup, List.find?_eq_none]
  simp

theorem map_key_replace (key : α → κ) (xs : List α) (y : α) :
    (replace key xs y).map key = xs.map key := by
  rw [replace, List.map_map]
  refine List.map_congr_left fun x _ => ?_
  simp only [Function.comp_apply]
  split
  · rename_i heq
    exact heq.symm
  · rfl

theorem mem_replace (hy : ∃ x ∈ xs, key x = key y) :
    x ∈ replace key xs y ↔ x = y ∨ x ∈ xs ∧ key x ≠ key y := by
  rw [replace, List.mem_map]
  constructor
  · rintro ⟨a, ha, rfl⟩
    split
    · exact Or.inl rfl
    · rename_i hne
      exact Or.inr ⟨ha, hne⟩
  · rintro (rfl | ⟨hx, hne⟩)
    · obtain ⟨a, ha, hkey⟩ := hy
      exact ⟨a, ha, if_pos hkey⟩
    · exact ⟨x, hx, if_neg hne⟩

theorem replace_self (hxs : (xs.map key).Nodup) (hx : x ∈ xs) : replace key xs x = xs := by
  rw [replace, List.map_congr_left, List.map_id]
  intro a ha
  split
  · rename_i heq
    exact (List.inj_on_of_nodup_map hxs ha hx heq).symm
  · rfl

theorem lookup_replace (hxs : (xs.map key).Nodup) (hy : ∃ x ∈ xs, key x = key y) (k : κ) :
    lookup key (replace key xs y) k = if k = key y then some y else lookup key xs k := by
  have hnodup : ((replace key xs y).map key).Nodup := by rwa [map_key_replace]
  refine Option.ext fun x => ?_
  rw [lookup_eq_some_iff hnodup, mem_replace hy]
  split
  · rename_i heq
    rw [Option.some.injEq]
    constructor
    · rintro ⟨rfl | ⟨-, hne⟩, hkey⟩
      · rfl
      · exact absurd (hkey.trans heq) hne
    · rintro rfl
      exact ⟨Or.inl rfl, heq.symm⟩
  · rename_i hne
    rw [lookup_eq_some_iff hxs]
    constructor
    · rintro ⟨rfl | ⟨hmem, -⟩, hkey⟩
      · exact absurd hkey.symm hne
      · exact ⟨hmem, hkey⟩
    · rintro ⟨hmem, hkey⟩
      exact ⟨Or.inr ⟨hmem, fun heq => hne (hkey.symm.trans heq)⟩, hkey⟩

theorem mem_remove : x ∈ remove key xs k ↔ x ∈ xs ∧ key x ≠ k := by
  rw [remove, List.mem_filter, decide_eq_true_eq]

theorem countP_replace (hxs : (xs.map key).Nodup) (hx : x ∈ xs) (hkey : key x = key y)
    {p : α → Bool} (hp : p x = p y) : (replace key xs y).countP p = xs.countP p := by
  rw [replace, List.countP_map]
  refine List.countP_congr fun a ha => ?_
  simp only [Function.comp_apply]
  split
  · rename_i heq
    rw [List.inj_on_of_nodup_map hxs ha hx (heq.trans hkey.symm), hp]
  · rfl

theorem countP_remove (hxs : (xs.map key).Nodup) (hx : x ∈ xs) (p : α → Bool) :
    (remove key xs (key x)).countP p + (if p x then 1 else 0) = xs.countP p := by
  induction xs with
  | nil => exact absurd hx List.not_mem_nil
  | cons a xs ih =>
      rw [List.map_cons, List.nodup_cons] at hxs
      rcases List.mem_cons.mp hx with rfl | hmem
      · have hrest : remove key xs (key x) = xs := by
          refine List.filter_eq_self.mpr fun b hb => ?_
          rw [decide_eq_true_eq]
          exact fun heq => hxs.1 (List.mem_map.mpr ⟨b, hb, heq⟩)
        rw [remove, List.filter_cons_of_neg (by simp), ← remove, hrest, List.countP_cons]
      · have hne : key a ≠ key x := fun heq =>
          hxs.1 (List.mem_map.mpr ⟨x, hmem, heq.symm⟩)
        have hih := ih hxs.2 hmem
        rw [remove, List.filter_cons_of_pos (by simpa using hne), ← remove, List.countP_cons,
          List.countP_cons]
        omega

/-- One element of a list, and the others. -/
theorem exists_perm_modify {i : Nat} (h : xs[i]? = some x) (g : α → α) :
    ∃ rest, xs.Perm (x :: rest) ∧ (xs.modify i g).Perm (g x :: rest) := by
  obtain ⟨hi, rfl⟩ := List.getElem?_eq_some_iff.mp h
  refine ⟨xs.take i ++ xs.drop (i + 1), ?_, ?_⟩
  · have hsplit : xs = xs.take i ++ xs[i] :: xs.drop (i + 1) := by
      rw [← List.drop_eq_getElem_cons hi, List.take_append_drop]
    exact (List.Perm.of_eq hsplit).trans List.perm_middle
  · rw [List.modify_eq_take_cons_drop hi]
    exact List.perm_middle

end Iqiq.KeyedList
