import Iqiq.WhefsNaming

namespace Iqiq.WhefsInodes

open Iqiq.BlockedFile
open Iqiq.Whefs
open Iqiq.WhefsAllocation
open Iqiq.WhefsChains
open Iqiq.WhefsDisk
open Iqiq.WhefsEncode
open Iqiq.WhefsFiles
open Iqiq.WhefsFree
open Iqiq.WhefsGrowth
open Iqiq.WhefsMount
open Iqiq.WhefsNaming
open Iqiq.WhefsOpened
open Iqiq.WhefsVolume
open Iqiq.WhefsWriting

section

variable {opt : Options}

def InodeUsed (v : Volume opt) (id : UInt32) : Prop :=
  isUsed (v.inode id).flags = true

/-- The inode after `whefs_inode_next_free` has taken it. -/
def marked (now : UInt32) (ino : Inode) : Inode :=
  { ino with flags := ino.flags ||| 1, mtime := now }

variable {v w : Volume opt} {hints : Hints} {chains : UInt32 → List UInt32} {now i id : UInt32}
  {left : Nat} {ino : Inode}

theorem isUsed_or (flags : UInt8) : isUsed (flags ||| 1) = true := by
  have hone : (flags ||| 1) &&& 1 = 1 := by
    rw [← UInt8.toNat_inj, UInt8.toNat_and, UInt8.toNat_or]
    change (flags.toNat ||| 1) &&& 1 = 1
    rw [Nat.and_one_is_mod, Nat.or_mod_two_eq_one]
    exact Or.inr rfl
  rw [isUsed, hone]
  decide

theorem lowerInode_of_used (hints : Hints) (h : isUsed ino.flags = true) :
    lowerInode hints ino = hints := by
  rw [lowerInode, if_pos h]

theorem inodeMarkUsed_disk (hopt : Formattable opt) (hid : IsInode opt id) :
    inodeMarkUsed now (disk v hints) (v.inode id) = (marked now (v.inode id),
      disk (v.setInode (marked now (v.inode id))) { hints with unusedInodeStart := id + 1 }) := by
  have hself : (marked now (v.inode id)).id = id := v.inode_id id
  have hflush := @inodeFlush_disk opt v hints hopt (marked now (v.inode id)) (by rwa [hself])
  have hused : isUsed (marked now (v.inode id)).flags = true := isUsed_or _
  have hnext : (v.inode id).id + 1 = id + 1 := by rw [v.inode_id]
  rw [lowerInode_of_used hints hused, marked] at hflush
  rw [inodeMarkUsed]
  simp only [hflush, disk_hints]
  rw [hnext]
  rfl

theorem inodeNextFreeLoop_found (hopt : Formattable opt) (hid : IsFileId opt id)
    (hfree : ¬ InodeUsed v id) (hi : 2 ≤ i.toNat) (hle : i.toNat ≤ id.toNat)
    (hused : ∀ j : UInt32, i.toNat ≤ j.toNat → j.toNat < id.toNat → InodeUsed v j)
    (hleft : i.toNat + left = opt.inodeCount.toNat + 1) (n : Inode) :
    inodeNextFreeLoop now true left (disk v hints) i n = .ok (.ok (marked now (v.inode id)),
      disk (v.setInode (marked now (v.inode id))) { hints with unusedInodeStart := id + 1 }) := by
  have hcount := hid.2
  induction left generalizing i n with
  | zero => omega
  | succ left ih =>
      have hfile : IsFileId opt i := ⟨hi, by omega⟩
      have hself : IsInode opt (v.inode i).id := by
        rw [v.inode_id]
        exact hfile.isInode
      rw [inodeNextFreeLoop, inodeIdReadHints_disk hopt hfile.isInode]
      simp only
      rw [if_neg (not_not_intro rfl), if_neg (not_not_intro (v.inode_id i))]
      rcases Nat.eq_or_lt_of_le hle with heq | hlt
      · obtain rfl : i = id := UInt32.toNat_inj.mp heq
        have hunused : ¬ isUsed (v.inode i).flags = true := hfree
        have hlower : { lowerInode hints (v.inode i) with unusedInodeStart := i + 1 } =
            { hints with unusedInodeStart := i + 1 } := by
          rw [lowerInode, if_neg hunused]
          split <;> rfl
        rw [if_neg hunused, if_pos trivial, inodeMarkUsed_disk hopt hfile.isInode, hlower]
      · have hused' : isUsed (v.inode i).flags = true := hused i le_rfl hlt
        have hsucc : (i + 1).toNat = i.toNat + 1 := @toNat_succ i opt.inodeCount (by omega)
        rw [if_pos hused', lowerInode_of_used hints hused', inodeUpdateUsed_disk hself,
          lowerInode_of_used hints hused']
        exact ih (by omega) (by omega) (fun j hj hj' => hused j (by omega) hj') (by omega) _

theorem inodeNextFreeLoop_full (hopt : Formattable opt) (hi : 2 ≤ i.toNat)
    (hused : ∀ j : UInt32, i.toNat ≤ j.toNat → j.toNat ≤ opt.inodeCount.toNat → InodeUsed v j)
    (hleft : i.toNat + left = opt.inodeCount.toNat + 1) (n : Inode) :
    inodeNextFreeLoop now true left (disk v hints) i n = .ok (.error .fsFull, disk v hints) := by
  induction left generalizing i n with
  | zero => rfl
  | succ left ih =>
      have hfile : IsFileId opt i := ⟨hi, by omega⟩
      have hself : IsInode opt (v.inode i).id := by
        rw [v.inode_id]
        exact hfile.isInode
      have hused' : isUsed (v.inode i).flags = true := hused i le_rfl (by omega)
      rw [inodeNextFreeLoop, inodeIdReadHints_disk hopt hfile.isInode]
      simp only
      rw [if_neg (not_not_intro rfl), if_neg (not_not_intro (v.inode_id i)), if_pos hused',
        lowerInode_of_used hints hused', inodeUpdateUsed_disk hself,
        lowerInode_of_used hints hused']
      rcases Nat.eq_zero_or_pos left with rfl | hpos
      · rfl
      · have hsucc : (i + 1).toNat = i.toNat + 1 := @toNat_succ i opt.inodeCount (by omega)
        exact ih (by omega) (fun j hj hj' => hused j (by omega) hj') (by omega) _

/-- The hint that a search starts from: the inode 1 is not one of a file. -/
def fileStart (hints : Hints) : Hints :=
  if hints.unusedInodeStart < 2 then { hints with unusedInodeStart := 2 } else hints

theorem le_fileStart (hints : Hints) : 2 ≤ (fileStart hints).unusedInodeStart.toNat := by
  rw [fileStart]
  split
  · exact le_rfl
  · rename_i hge
    rw [UInt32.lt_iff_toNat_lt] at hge
    exact Nat.not_lt.mp hge

theorem Hinted.fileStart (h : Hinted v hints) : Hinted v (fileStart hints) := by
  rw [WhefsInodes.fileStart]
  split
  · refine ⟨h.block_pos, h.block, fun n _ hn hlt => ?_⟩
    rw [UInt32.lt_iff_toNat_lt] at hlt
    change n.toNat < 2 at hlt
    omega
  · exact h

theorem inodeNextFree_eq (v : Volume opt) (hints : Hints) (now : UInt32) :
    inodeNextFree now (disk v hints) true =
      inodeNextFreeLoop now true
        (opt.inodeCount.toNat + 1 - (fileStart hints).unusedInodeStart.toNat)
        (disk v (fileStart hints)) (fileStart hints).unusedInodeStart inodeEmpty := by
  rw [inodeNextFree, fileStart]
  rcases Decidable.em (hints.unusedInodeStart < 2) with hlow | hlow
  · have hlow' : (disk v hints).hints.unusedInodeStart < 2 := hlow
    rw [if_pos hlow]
    simp only
    rw [if_pos hlow']
    rfl
  · have hlow' : ¬ (disk v hints).hints.unusedInodeStart < 2 := hlow
    rw [if_neg hlow]
    simp only
    rw [if_neg hlow']
    rfl

theorem Hinted.marked (h : Hinted v hints) (hopt : Formattable opt) (hid : IsFileId opt id)
    (hbelow : ∀ j, IsFileId opt j → j < id → InodeUsed v j) (now : UInt32) :
    Hinted (v.setInode (marked now (v.inode id))) { hints with unusedInodeStart := id + 1 } := by
  have hself : (WhefsInodes.marked now (v.inode id)).id = id := v.inode_id id
  have hcount : opt.inodeCount.toNat < 2 ^ 27 :=
    Nat.lt_of_le_of_lt hopt.blockCount (blockCount_lt hopt)
  have hsucc : (id + 1).toNat = id.toNat + 1 := by
    have hle := hid.2
    rw [UInt32.toNat_add]
    change (id.toNat + 1) % 2 ^ 32 = _
    omega
  refine ⟨h.block_pos, h.block, fun n hn hroot hlt => ?_⟩
  rw [UInt32.lt_iff_toNat_lt] at hlt
  change n.toNat < (id + 1).toNat at hlt
  rw [Volume.setInode_inode, hself]
  rcases eq_or_ne n id with rfl | hne
  · rw [Function.update_self]
    exact isUsed_or _
  · rw [Function.update_of_ne hne]
    refine hbelow n ⟨hroot, hn.2⟩ (UInt32.lt_iff_toNat_lt.mpr ?_)
    have := UInt32.toNat_inj.ne.mpr hne
    omega

/-- `whefs_inode_next_free` takes the first inode that is not in use. -/
theorem inodeNextFree_found (hopt : Formattable opt) (h : Hinted v hints) (hid : IsFileId opt id)
    (hfree : ¬ InodeUsed v id) (hbelow : ∀ j, IsFileId opt j → j < id → InodeUsed v j)
    (now : UInt32) :
    ∃ hints', inodeNextFree now (disk v hints) true = .ok (.ok (marked now (v.inode id)),
        disk (v.setInode (marked now (v.inode id))) hints') ∧
      Hinted (v.setInode (marked now (v.inode id))) hints' := by
  have hstart := Hinted.fileStart h
  have htwo := le_fileStart hints
  have hcount := hid.2
  have hle : (fileStart hints).unusedInodeStart.toNat ≤ id.toNat := by
    by_contra hlt
    exact hfree (hstart.inode id hid.isInode hid.1 (UInt32.lt_iff_toNat_lt.mpr (Nat.not_le.mp hlt)))
  refine ⟨_, ?_, Hinted.marked hstart hopt hid hbelow now⟩
  rw [inodeNextFree_eq]
  refine inodeNextFreeLoop_found hopt hid hfree htwo hle ?_ (by omega) inodeEmpty
  intro j hj hlt
  exact hbelow j ⟨by omega, by omega⟩ (UInt32.lt_iff_toNat_lt.mpr hlt)

theorem inodeNextFree_full (hopt : Formattable opt) (h : Hinted v hints)
    (hused : ∀ j, IsFileId opt j → InodeUsed v j) (now : UInt32) :
    ∃ hints', inodeNextFree now (disk v hints) true = .ok (.error .fsFull, disk v hints') ∧
      Hinted v hints' := by
  have htwo := le_fileStart hints
  refine ⟨_, ?_, Hinted.fileStart h⟩
  rw [inodeNextFree_eq]
  rcases Nat.lt_or_ge opt.inodeCount.toNat (fileStart hints).unusedInodeStart.toNat with hlt | hle
  · rw [Nat.sub_eq_zero_of_le hlt]
    rfl
  · refine inodeNextFreeLoop_full hopt htwo ?_ (by omega) inodeEmpty
    exact fun j hj hj' => hused j ⟨by omega, hj'⟩

end

end Iqiq.WhefsInodes
