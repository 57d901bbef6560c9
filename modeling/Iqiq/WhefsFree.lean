import Iqiq.WhefsChains

namespace Iqiq.WhefsFree

open Iqiq.Whefs
open Iqiq.WhefsAllocation
open Iqiq.WhefsChains
open Iqiq.WhefsDisk
open Iqiq.WhefsEncode
open Iqiq.WhefsVolume

section

variable {opt : Options}

def blockIds (opt : Options) : List UInt32 :=
  (List.range opt.blockCount.toNat).map idOf

/-- The blocks that are not in use, from the least one on. -/
def freeIds (v : Volume opt) : List UInt32 :=
  (blockIds opt).filter fun id => ¬ isUsed (v.block id).flags

variable {v w : Volume opt} {hints : Hints} {id : UInt32} {rest freed : List UInt32}

theorem mem_blockIds : id ∈ blockIds opt ↔ IsBlock opt id := by
  rw [blockIds, List.mem_map]
  constructor
  · rintro ⟨k, hk, rfl⟩
    have hlt := List.mem_range.mp hk
    have := opt.blockCount.toNat_lt
    rw [IsBlock, toNat_idOf (by omega)]
    omega
  · rintro ⟨hpos, hle⟩
    exact ⟨id.toNat - 1, List.mem_range.mpr (by omega), idOf_pred hpos⟩

theorem pairwise_blockIds (opt : Options) : (blockIds opt).Pairwise (· < ·) := by
  rw [blockIds, List.pairwise_map]
  refine List.pairwise_lt_range.imp_of_mem ?_
  intro a b ha hb hab
  have := opt.blockCount.toNat_lt
  have hb' := List.mem_range.mp hb
  rw [UInt32.lt_iff_toNat_lt, toNat_idOf (by omega), toNat_idOf (by omega)]
  omega

theorem mem_freeIds : id ∈ freeIds v ↔ IsBlock opt id ∧ ¬ BlockUsed v id := by
  rw [freeIds, List.mem_filter, mem_blockIds, decide_eq_true_eq]
  rfl

theorem pairwise_freeIds (v : Volume opt) : (freeIds v).Pairwise (· < ·) :=
  (pairwise_blockIds opt).filter _

theorem nodup_freeIds (v : Volume opt) : (freeIds v).Nodup :=
  (pairwise_freeIds v).imp fun h => UInt32.ne_of_lt h

theorem freeIds_congr (h : ∀ i, IsBlock opt i → (BlockUsed w i ↔ BlockUsed v i)) :
    freeIds w = freeIds v := by
  refine List.filter_congr fun i hi => ?_
  exact decide_eq_decide.mpr (not_congr (h i (mem_blockIds.mp hi)))

theorem used_below (h : freeIds v = id :: rest) {i : UInt32} (hi : IsBlock opt i) (hlt : i < id) :
    BlockUsed v i := by
  by_contra hfree
  have hmem : i ∈ id :: rest := h ▸ mem_freeIds.mpr ⟨hi, hfree⟩
  have hsorted := pairwise_freeIds v
  rw [h] at hsorted
  rcases List.mem_cons.mp hmem with rfl | hrest
  · exact UInt32.lt_irrefl i hlt
  · exact UInt32.lt_asymm hlt ((List.pairwise_cons.mp hsorted).1 i hrest)

theorem freeIds_of_taken (h : freeIds v = id :: rest)
    (hused : ∀ i, BlockUsed w i ↔ BlockUsed v i ∨ i = id) : freeIds w = rest := by
  have hnodup := nodup_freeIds v
  rw [h] at hnodup
  have hfilter : freeIds w = (freeIds v).filter fun i => i ≠ id := by
    rw [freeIds, freeIds, List.filter_filter]
    refine List.filter_congr fun i _ => ?_
    rw [← Bool.decide_and, decide_eq_decide]
    change ¬ BlockUsed w i ↔ i ≠ id ∧ ¬ BlockUsed v i
    rw [hused, not_or]
    exact and_comm
  rw [hfilter, h, List.filter_cons_of_neg (by simp)]
  refine List.filter_eq_self.mpr fun i hi => ?_
  rw [decide_eq_true_eq]
  rintro rfl
  exact (List.nodup_cons.mp hnodup).1 hi

theorem length_freeIds_freeBlocks (hnodup : freed.Nodup)
    (hfreed : ∀ id ∈ freed, IsBlock opt id ∧ BlockUsed v id) :
    (freeIds (freeBlocks v freed)).length = (freeIds v).length + freed.length := by
  have hperm : (freeIds (freeBlocks v freed)).Perm (freeIds v ++ freed) := by
    refine (List.perm_ext_iff_of_nodup (nodup_freeIds _) ?_).mpr fun i => ?_
    · refine List.nodup_append'.mpr ⟨nodup_freeIds v, hnodup, ?_⟩
      exact fun i hi hmem => (mem_freeIds.mp hi).2 (hfreed i hmem).2
    · rw [mem_freeIds, blockUsed_freeBlocks, List.mem_append, mem_freeIds]
      constructor
      · rintro ⟨hi, hfree⟩
        rcases Classical.em (i ∈ freed) with hmem | hmem
        · exact Or.inr hmem
        · exact Or.inl ⟨hi, fun hused => hfree ⟨hmem, hused⟩⟩
      · rintro (⟨hi, hfree⟩ | hmem)
        · exact ⟨hi, fun hused => hfree hused.2⟩
        · exact ⟨(hfreed i hmem).1, fun hused => hused.1 hmem⟩
  rw [hperm.length_eq, List.length_append]

/-- An inode has no more blocks than those that are in use. -/
theorem length_add_free_le {chains : UInt32 → List UInt32} (h : Chained v chains) {n : UInt32}
    (hn : IsInode opt n) :
    (chains n).length + (freeIds v).length ≤ opt.blockCount.toNat := by
  have hnodup : (chains n ++ freeIds v).Nodup := by
    refine List.nodup_append'.mpr ⟨(h.chain n hn).nodup, nodup_freeIds v, ?_⟩
    exact fun i hi hfree => (mem_freeIds.mp hfree).2 (h.used n hn i hi)
  have hsub : chains n ++ freeIds v ⊆ blockIds opt := by
    intro i hi
    rcases List.mem_append.mp hi with hi | hi
    · exact mem_blockIds.mpr ((h.chain n hn).isBlock i hi)
    · exact mem_blockIds.mpr (mem_freeIds.mp hi).1
  have hlen := (List.subperm_of_subset hnodup hsub).length_le
  rwa [List.length_append, blockIds, List.length_map, List.length_range] at hlen

theorem blockNextFree_eq (h : Hinted v hints) (markUsed : Bool) :
    blockNextFree (disk v hints) markUsed =
      blockNextFreeLoop markUsed (opt.blockCount.toNat + 1 - hints.unusedBlockStart.toNat)
        (disk v hints) hints.unusedBlockStart := by
  have hne : ¬ (disk v hints).hints.unusedBlockStart = 0 := by
    intro hzero
    have hpos := h.block_pos
    rw [show hints.unusedBlockStart = 0 from hzero] at hpos
    exact absurd hpos (by decide)
  rw [blockNextFree]
  simp only
  rw [if_neg hne]
  rfl

theorem blockNextFree_full (hopt : Formattable opt) (h : Hinted v hints) (hfree : freeIds v = []) :
    blockNextFree (disk v hints) true = .ok (.error .fsFull, disk v hints) := by
  have hused : ∀ i, IsBlock opt i → BlockUsed v i := by
    intro i hi
    by_contra hunused
    have hmem := mem_freeIds.mpr ⟨hi, hunused⟩
    rw [hfree] at hmem
    exact List.not_mem_nil hmem
  have hpos := h.block_pos
  rw [blockNextFree_eq h]
  rcases Nat.lt_or_ge opt.blockCount.toNat hints.unusedBlockStart.toNat with hlt | hle
  · rw [Nat.sub_eq_zero_of_le hlt]
    rfl
  · refine blockNextFreeLoop_full hopt hpos ?_ (by omega) true
    exact fun j hj hj' => hused j ⟨by omega, hj'⟩

theorem blockNextFree_found (hopt : Formattable opt) (h : Hinted v hints)
    (hfree : freeIds v = id :: rest) :
    blockNextFree (disk v hints) true = .ok (.ok (taken v id),
      disk (v.setBlock (taken v id)) { hints with unusedBlockStart := id + 1 }) := by
  obtain ⟨hid, hunused⟩ := mem_freeIds.mp (hfree ▸ List.mem_cons_self : id ∈ freeIds v)
  have hpos := h.block_pos
  have hcount := hid.2
  have hle : hints.unusedBlockStart.toNat ≤ id.toNat := by
    by_contra hlt
    exact hunused (h.block id hid (UInt32.lt_iff_toNat_lt.mpr (Nat.not_le.mp hlt)))
  rw [blockNextFree_eq h]
  refine blockNextFreeLoop_found hopt hid hunused hpos hle ?_ (by omega)
  intro j hj hlt
  exact used_below hfree ⟨by omega, by omega⟩ (UInt32.lt_iff_toNat_lt.mpr hlt)

end

end Iqiq.WhefsFree
