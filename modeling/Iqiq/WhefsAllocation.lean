import Iqiq.NextPath
import Iqiq.WhefsDisk

namespace Iqiq.WhefsAllocation

open Iqiq.NextPath
open Iqiq.Whefs
open Iqiq.WhefsDisk
open Iqiq.WhefsEncode
open Iqiq.WhefsFiles
open Iqiq.WhefsVolume

section Chains

variable {opt : Options}

def nextOf (v : Volume opt) (id : UInt32) : UInt32 :=
  (v.block id).nextBlock

/-- The blocks from `first` on, up to one without a successor. -/
structure Chain (v : Volume opt) (first : UInt32) (ids : List UInt32) : Prop where
  path : Path (nextOf v) first ids 0
  isBlock : ∀ id ∈ ids, IsBlock opt id

variable {v w : Volume opt} {first id : UInt32} {ids ids' : List UInt32}

theorem Chain.zero_notMem (h : Chain v first ids) : 0 ∉ ids :=
  fun hmem => absurd (h.isBlock 0 hmem).1 (by decide)

theorem Chain.nodup (h : Chain v first ids) : ids.Nodup :=
  h.path.nodup h.zero_notMem

theorem Chain.eq (h : Chain v first ids) (h' : Chain v first ids') : ids = ids' :=
  h.path.eq h'.path h.zero_notMem h'.zero_notMem

theorem chain_nil_iff : Chain v first [] ↔ first = 0 :=
  ⟨fun h => h.path, fun h => ⟨h, by simp⟩⟩

theorem chain_cons_iff :
    Chain v first (id :: ids) ↔ id = first ∧ IsBlock opt id ∧ Chain v (nextOf v id) ids := by
  constructor
  · rintro ⟨⟨hid, hrest⟩, hblocks⟩
    exact ⟨hid, hblocks id List.mem_cons_self, hrest, fun i hi => hblocks i (by simp [hi])⟩
  · rintro ⟨hid, hblock, hrest, hblocks⟩
    exact ⟨⟨hid, hrest⟩, List.forall_mem_cons.mpr ⟨hblock, hblocks⟩⟩

theorem Chain.congr (h : Chain v first ids) (hnext : ∀ id ∈ ids, nextOf v id = nextOf w id) :
    Chain w first ids :=
  ⟨h.path.congr hnext, h.isBlock⟩

theorem Chain.length_le (h : Chain v first ids) : ids.length ≤ opt.blockCount.toNat := by
  have hsub : ids.map UInt32.toNat ⊆ List.range' 1 opt.blockCount.toNat := by
    intro k hk
    obtain ⟨id, hid, rfl⟩ := List.mem_map.mp hk
    have := h.isBlock id hid
    rw [List.mem_range'_1]
    have hlt := this.1
    have hle := this.2
    omega
  have hnodup : (ids.map UInt32.toNat).Nodup := h.nodup.map fun a b hab => UInt32.toNat_inj.mp hab
  simpa using (List.subperm_of_subset hnodup hsub).length_le

theorem Chain.isChain (hopt : Formattable opt) (h : Chain v first ids) :
    IsChain v.fs first (ids.map v.block) := by
  induction ids generalizing first with
  | nil => exact h.path
  | cons id ids ih =>
      obtain ⟨rfl, hblock, hrest⟩ := chain_cons_iff.mp h
      exact ⟨Volume.blockIdIsValid_fs.mpr hblock, v.blockRead_eq hopt hblock, v.block_id id,
        ih hrest⟩

end Chains

section Freeing

variable {opt : Options}

def freeBlocks (v : Volume opt) (ids : List UInt32) : Volume opt :=
  ids.foldl freeBlock v

def lowerBlocks (hints : Hints) (ids : List UInt32) : Hints :=
  ids.foldl lowerBlock hints

variable {v : Volume opt} {hints : Hints} {id : UInt32} {ids : List UInt32}

theorem freeBlock_block (v : Volume opt) (id : UInt32) :
    (freeBlock v id).block = Function.update v.block id (unusedBlock id) :=
  rfl

theorem freeBlock_data (v : Volume opt) (id : UInt32) : (freeBlock v id).data =
    Function.update v.data id (List.replicate opt.blockSize.toNat 0) := by
  rw [freeBlock, zeroFrom, Volume.setData]
  simp [Volume.setBlock]

theorem freeBlocks_block (v : Volume opt) (ids : List UInt32) (id : UInt32) :
    (freeBlocks v ids).block id = if id ∈ ids then unusedBlock id else v.block id := by
  induction ids generalizing v with
  | nil => simp [freeBlocks]
  | cons i ids ih =>
      rw [freeBlocks, List.foldl_cons, ← freeBlocks, ih, freeBlock_block]
      rcases eq_or_ne id i with rfl | hne
      · simp
      · simp [hne]

theorem freeBlocks_data (v : Volume opt) (ids : List UInt32) (id : UInt32) :
    (freeBlocks v ids).data id =
      if id ∈ ids then List.replicate opt.blockSize.toNat 0 else v.data id := by
  induction ids generalizing v with
  | nil => simp [freeBlocks]
  | cons i ids ih =>
      rw [freeBlocks, List.foldl_cons, ← freeBlocks, ih, freeBlock_data]
      rcases eq_or_ne id i with rfl | hne
      · simp
      · simp [hne]

@[simp] theorem freeBlocks_inode (v : Volume opt) (ids : List UInt32) :
    (freeBlocks v ids).inode = v.inode := by
  induction ids generalizing v with
  | nil => rfl
  | cons i ids ih => exact ih (freeBlock v i)

@[simp] theorem freeBlocks_name (v : Volume opt) (ids : List UInt32) :
    (freeBlocks v ids).name = v.name := by
  induction ids generalizing v with
  | nil => rfl
  | cons i ids ih => exact ih (freeBlock v i)

theorem freeBlocks_concat (v : Volume opt) (ids : List UInt32) (id : UInt32) :
    freeBlocks v (ids ++ [id]) = freeBlock (freeBlocks v ids) id :=
  List.foldl_concat ..

theorem lowerBlocks_concat (hints : Hints) (ids : List UInt32) (id : UInt32) :
    lowerBlocks hints (ids ++ [id]) = lowerBlock (lowerBlocks hints ids) id :=
  List.foldl_concat ..

theorem lt_lowerBlocks_iff (hints : Hints) (ids : List UInt32) (id : UInt32) :
    id < (lowerBlocks hints ids).unusedBlockStart ↔
      id < hints.unusedBlockStart ∧ ∀ i ∈ ids, id < i := by
  induction ids generalizing hints with
  | nil => simp [lowerBlocks]
  | cons i ids ih =>
      have hone : id < (lowerBlock hints i).unusedBlockStart ↔
          id < hints.unusedBlockStart ∧ id < i := by
        simp only [lowerBlock, UInt32.lt_iff_toNat_lt]
        split
        · rename_i hlt
          simp only
          omega
        · rename_i hge
          omega
      rw [lowerBlocks, List.foldl_cons, ← lowerBlocks, ih, hone, List.forall_mem_cons, and_assoc]

@[simp] theorem lowerBlocks_unusedInodeStart (hints : Hints) (ids : List UInt32) :
    (lowerBlocks hints ids).unusedInodeStart = hints.unusedInodeStart := by
  induction ids generalizing hints with
  | nil => rfl
  | cons i ids ih =>
      rw [lowerBlocks, List.foldl_cons, ← lowerBlocks, ih, lowerBlock]
      split <;> rfl

theorem blockReadNext_fs (hopt : Formattable opt) {bl : Block} (hvalid : IsBlock opt bl.id)
    (hnext : IsBlock opt bl.nextBlock) :
    blockReadNext v.fs bl = .ok (v.block bl.nextBlock) := by
  have hne : bl.nextBlock ≠ 0 := by
    intro hzero
    rw [hzero] at hnext
    exact absurd hnext.1 (by decide)
  rw [blockReadNext, if_neg (not_not_intro (Volume.blockIdIsValid_fs.mpr hvalid)), if_neg hne,
    v.blockRead_eq hopt hnext]

theorem blockWipeNext_disk (hopt : Formattable opt) {xb : Block} {fuel : Nat}
    (hvalid : IsBlock opt xb.id) (hchain : Chain v xb.nextBlock ids) (hfuel : ids.length ≤ fuel) :
    blockWipeNext true true fuel (disk v hints) xb =
      .ok (.of .ok, disk (freeBlocks v ids) (lowerBlocks hints ids)) := by
  induction ids generalizing v hints xb fuel with
  | nil =>
      rw [blockWipeNext.eq_def, if_pos (chain_nil_iff.mp hchain)]
      rfl
  | cons id ids ih =>
      have hnodup := hchain.nodup
      obtain ⟨rfl, hblock, hrest⟩ := chain_cons_iff.mp hchain
      obtain ⟨fuel, rfl⟩ := Nat.exists_eq_succ_of_ne_zero
        (by simp only [List.length_cons] at hfuel; omega : fuel ≠ 0)
      have hne : xb.nextBlock ≠ 0 := fun hzero => hchain.zero_notMem (by simp [hzero])
      have hid := v.block_id xb.nextBlock
      have hwipe := @blockWipeOne_disk opt v hints hopt (v.block xb.nextBlock) (by rwa [hid])
      rw [hid] at hwipe
      have hbehind : Chain (freeBlock v xb.nextBlock) (v.block xb.nextBlock).nextBlock ids := by
        refine hrest.congr fun i hi => ?_
        have hother : i ≠ xb.nextBlock := fun heq => (List.nodup_cons.mp hnodup).1 (heq ▸ hi)
        rw [nextOf, nextOf, freeBlock_block, Function.update_of_ne hother]
      rw [blockWipeNext, if_neg hne]
      simp only [disk_fs, blockReadNext_fs hopt hvalid hblock, hwipe]
      exact ih (by rwa [hid]) hbehind (by simpa using hfuel)

theorem blockWipe_disk (hopt : Formattable opt) {bl : Block} {fuel : Nat}
    (hvalid : IsBlock opt bl.id) (hchain : Chain v bl.nextBlock ids) (hfuel : ids.length ≤ fuel) :
    blockWipe fuel (disk v hints) bl true true true =
      .ok (.of .ok, disk (freeBlocks v (ids ++ [bl.id])) (lowerBlocks hints (ids ++ [bl.id]))) := by
  have hwipe := @blockWipeOne_disk opt (freeBlocks v ids) (lowerBlocks hints ids) hopt bl hvalid
  rw [blockWipe, disk_fs, if_neg (not_not_intro (Volume.blockIdIsValid_fs.mpr hvalid)), if_pos rfl,
    blockWipeNext_disk hopt hvalid hchain hfuel, Run.ok_bind]
  rw [freeBlocks_concat, lowerBlocks_concat]
  simp only [ne_eq, not_true_eq_false, if_false, hwipe]
  rfl

end Freeing

section Searching

variable {opt : Options}

def BlockUsed (v : Volume opt) (id : UInt32) : Prop :=
  isUsed (v.block id).flags = true

/-- The block after `whefs_block_next_free` has taken it. -/
def taken (v : Volume opt) (id : UInt32) : Block :=
  { v.block id with flags := 1 }

variable {v : Volume opt} {hints : Hints} {i id : UInt32} {left : Nat}

theorem toNat_succ {count : UInt32} (h : i.toNat < count.toNat) : (i + 1).toNat = i.toNat + 1 :=
  toNat_add_one (UInt32.lt_iff_toNat_lt.mpr h)

theorem blockMarkUsed_disk (hopt : Formattable opt) (hblock : IsBlock opt id) :
    blockMarkUsed (disk v hints) (v.block id) =
      (taken v id, disk (v.setBlock (taken v id)) { hints with unusedBlockStart := id + 1 }) := by
  have hid : (taken v id).id = id := v.block_id id
  have hflush := @blockFlush_disk opt v hints hopt (taken v id) (by rwa [hid])
  have htaken : { v.block id with flags := 1 } = taken v id := rfl
  rw [blockMarkUsed]
  simp only [htaken, hflush, disk_hints]
  rw [v.block_id]
  rfl

theorem blockNextFreeLoop_found (hopt : Formattable opt) (hblock : IsBlock opt id)
    (hfree : ¬ BlockUsed v id) (hpos : 1 ≤ i.toNat) (hle : i.toNat ≤ id.toNat)
    (hused : ∀ j : UInt32, i.toNat ≤ j.toNat → j.toNat < id.toNat → BlockUsed v j)
    (hleft : i.toNat + left = opt.blockCount.toNat + 1) :
    blockNextFreeLoop true left (disk v hints) i =
      .ok (.ok (taken v id), disk (v.setBlock (taken v id))
        { hints with unusedBlockStart := id + 1 }) := by
  have hcount := hblock.2
  induction left generalizing i with
  | zero => omega
  | succ left ih =>
      have hi : IsBlock opt i := ⟨hpos, by omega⟩
      rw [blockNextFreeLoop]
      simp only [disk_fs, v.blockRead_eq hopt hi, v.block_id]
      rw [if_neg (not_not_intro rfl)]
      rcases Nat.eq_or_lt_of_le hle with heq | hlt
      · obtain rfl : i = id := UInt32.toNat_inj.mp heq
        have hfree' : ¬ isUsed (v.block i).flags = true := hfree
        rw [if_neg hfree', if_pos trivial, blockMarkUsed_disk hopt hi]
      · have hused' : isUsed (v.block i).flags = true := hused i le_rfl hlt
        have hsucc : (i + 1).toNat = i.toNat + 1 := @toNat_succ i opt.blockCount (by omega)
        rw [if_pos hused']
        exact ih (by omega) (by omega) (fun j hj hj' => hused j (by omega) hj') (by omega)

theorem blockNextFreeLoop_full (hopt : Formattable opt) (hpos : 1 ≤ i.toNat)
    (hused : ∀ j : UInt32, i.toNat ≤ j.toNat → j.toNat ≤ opt.blockCount.toNat → BlockUsed v j)
    (hleft : i.toNat + left = opt.blockCount.toNat + 1) (markUsed : Bool) :
    blockNextFreeLoop markUsed left (disk v hints) i = .ok (.error .fsFull, disk v hints) := by
  induction left generalizing i with
  | zero => rfl
  | succ left ih =>
      have hi : IsBlock opt i := ⟨hpos, by omega⟩
      rw [blockNextFreeLoop]
      simp only [disk_fs, v.blockRead_eq hopt hi, v.block_id]
      have hused' : isUsed (v.block i).flags = true := hused i le_rfl (by omega)
      rw [if_neg (not_not_intro rfl), if_pos hused']
      rcases Nat.eq_zero_or_pos left with rfl | hpos'
      · rfl
      · have hsucc : (i + 1).toNat = i.toNat + 1 := @toNat_succ i opt.blockCount (by omega)
        exact ih (by omega) (fun j hj hj' => hused j (by omega) hj') (by omega)

end Searching

end Iqiq.WhefsAllocation
