import Mathlib.Data.List.Chain
import Mathlib.Data.List.Nodup
import Mathlib.Logic.Relation

namespace Iqiq.LinkChain

open Relation

variable {α : Type*} {r : α → α → Prop} {a b : α}

/-- The links from `a` on lead to an element that they lead back to. -/
def ComesBack (r : α → α → Prop) (a : α) : Prop :=
  ∃ b, ReflTransGen r a b ∧ TransGen r b b

theorem ComesBack.exists_link (h : ComesBack r a) : ∃ b, r a b := by
  obtain ⟨b, hab, hb⟩ := h
  rcases hab.cases_head with rfl | ⟨c, hac, -⟩
  · obtain ⟨c, hac, -⟩ := TransGen.head'_iff.mp hb
    exact ⟨c, hac⟩
  · exact ⟨c, hac⟩

theorem ComesBack.step (h : ComesBack r a) (hr : Relator.RightUnique r) (hab : r a b) :
    ComesBack r b := by
  obtain ⟨c, hac, hc⟩ := h
  rcases hac.cases_head with rfl | ⟨d, had, hdc⟩
  · obtain ⟨d, had, hda⟩ := TransGen.head'_iff.mp hc
    obtain rfl := hr hab had
    exact ⟨b, .refl, TransGen.tail' hda hab⟩
  · obtain rfl := hr hab had
    exact ⟨c, hdc, hc⟩

theorem pairwise_transGen {l : List α} (h : l.IsChain r) : l.Pairwise (TransGen r) :=
  List.IsChain.pairwise (h.imp fun _ _ hab => TransGen.single hab)

/-- Links that do not come back pass no element twice. -/
theorem nodup_of_not_comesBack {l : List α} (h : ¬ ComesBack r a) (hl : (a :: l).IsChain r) :
    (a :: l).Nodup := by
  have hpairs := pairwise_transGen hl
  refine hpairs.imp_of_mem ?_
  rintro b c hb - hbc rfl
  refine h ⟨b, ?_, hbc⟩
  rcases List.mem_cons.mp hb with rfl | hb
  · exact .refl
  · exact ((List.pairwise_cons.mp hpairs).1 b hb).to_reflTransGen

end Iqiq.LinkChain
