import Mathlib.Data.List.Nodup
import Mathlib.Logic.Function.Basic

namespace Iqiq.NextPath

variable {α : Type}

/-- From `first` on, `next` leads through the elements of the list and then to `last`. -/
def Path (next : α → α) : α → List α → α → Prop
  | first, [], last => first = last
  | first, a :: as, last => a = first ∧ Path next (next a) as last

section

variable {next next' : α → α} {first last a b : α} {as bs : List α}

@[simp] theorem path_nil : Path next first [] last ↔ first = last :=
  Iff.rfl

@[simp] theorem path_cons :
    Path next first (a :: as) last ↔ a = first ∧ Path next (next a) as last :=
  Iff.rfl

theorem path_append :
    Path next first (as ++ bs) last ↔ ∃ mid, Path next first as mid ∧ Path next mid bs last := by
  induction as generalizing first with
  | nil => simp
  | cons a as ih => simp [ih, and_assoc]

theorem path_concat : Path next first (as ++ [a]) last ↔
    Path next first as a ∧ next a = last := by
  rw [path_append]
  constructor
  · rintro ⟨mid, has, ha, hlast⟩
    rw [← ha] at has
    exact ⟨has, hlast⟩
  · rintro ⟨has, hlast⟩
    exact ⟨a, has, rfl, hlast⟩

theorem Path.congr (h : Path next first as last) (hnext : ∀ a ∈ as, next a = next' a) :
    Path next' first as last := by
  induction as generalizing first with
  | nil => exact h
  | cons a as ih =>
      obtain ⟨rfl, hrest⟩ := h
      refine ⟨rfl, ?_⟩
      rw [← hnext a List.mem_cons_self]
      exact ih hrest fun b hb => hnext b (List.mem_cons_of_mem a hb)

theorem Path.eq (h : Path next first as last) (h' : Path next first bs last)
    (hlast : last ∉ as) (hlast' : last ∉ bs) : as = bs := by
  induction as generalizing first bs with
  | nil =>
      cases bs with
      | nil => rfl
      | cons b bs =>
          obtain rfl := h'.1
          exact absurd (h ▸ List.mem_cons_self) hlast'
  | cons a as ih =>
      obtain ⟨rfl, hrest⟩ := h
      cases bs with
      | nil =>
          exact absurd ((path_nil.mp h') ▸ List.mem_cons_self) hlast
      | cons b bs =>
          obtain ⟨rfl, hrest'⟩ := h'
          rw [ih hrest hrest' (List.not_mem_of_not_mem_cons hlast)
            (List.not_mem_of_not_mem_cons hlast')]

theorem Path.nodup (h : Path next first as last) (hlast : last ∉ as) : as.Nodup := by
  induction as generalizing first with
  | nil => exact List.nodup_nil
  | cons a as ih =>
      obtain ⟨rfl, hrest⟩ := h
      have hlast' := List.not_mem_of_not_mem_cons hlast
      refine List.nodup_cons.mpr ⟨?_, ih hrest hlast'⟩
      intro hmem
      -- what follows the second `a` would be as long as what follows the first
      obtain ⟨before, behind, rfl⟩ := List.append_of_mem hmem
      obtain ⟨mid, -, rfl, hbehind⟩ := path_append.mp hrest
      have hlen := congrArg List.length (hrest.eq hbehind hlast' (by
        intro hmem
        exact hlast' (by simp [hmem])))
      simp at hlen
      omega

/-- The last element of a path can be given another successor. -/
theorem Path.redirect [DecidableEq α] (h : Path next first (as ++ [a]) last)
    (hnodup : (as ++ [a]).Nodup) (b : α) :
    Path (Function.update next a b) first (as ++ [a]) b := by
  obtain ⟨has, -⟩ := path_concat.mp h
  refine path_concat.mpr ⟨has.congr ?_, Function.update_self _ _ _⟩
  rintro c hc
  refine (Function.update_of_ne ?_ _ _).symm
  rintro rfl
  exact (List.nodup_append.mp hnodup).2.2 c hc c List.mem_cons_self rfl

end

end Iqiq.NextPath
