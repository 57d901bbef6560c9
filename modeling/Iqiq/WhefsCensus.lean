import Mathlib.Algebra.Order.BigOperators.Group.List
import Iqiq.StoreInvariants

namespace Iqiq.WhefsCensus

open Iqiq.BlockedFile
open Iqiq.FileStore
open Iqiq.FileStore.Store
open Iqiq.RecordTable
open Iqiq.StoreEffects
open Iqiq.StoreInvariants
open Iqiq.Whefs
open Iqiq.WhefsAllocation
open Iqiq.WhefsChains
open Iqiq.WhefsDirectory
open Iqiq.WhefsDisk
open Iqiq.WhefsEncode
open Iqiq.WhefsFree
open Iqiq.WhefsGrowth
open Iqiq.WhefsInodes
open Iqiq.WhefsMkfs
open Iqiq.WhefsMount
open Iqiq.WhefsOpened
open Iqiq.WhefsStore
open Iqiq.WhefsVolume
open Iqiq.WhefsWriting

/-- The blocks of the files. -/
def owned (opt : Options) (chains : UInt32 → List UInt32) : List UInt32 :=
  (ids opt).flatMap chains

/-- The blocks in use that are of no file. -/
def strays {opt : Options} (v : Volume opt) (chains : UInt32 → List UInt32) : List UInt32 :=
  (blockIds opt).filter fun id => isUsed (v.block id).flags ∧ id ∉ owned opt chains

section

variable {opt : Options} {S : List UInt8 → Prop} {m : Mount} {s : Store} {v w : Volume opt}
  {hints : Hints} {chains : UInt32 → List UInt32} {id : UInt32}

theorem mem_owned : id ∈ owned opt chains ↔ ∃ n, IsFileId opt n ∧ id ∈ chains n := by
  rw [owned, List.mem_flatMap]
  simp only [mem_ids]

theorem nodup_owned (h : Chained v chains) : (owned opt chains).Nodup := by
  rw [owned, List.nodup_flatMap]
  constructor
  · intro n hn
    exact (h.chain n (mem_ids.mp hn).isInode).nodup
  · apply (List.Pairwise.and_mem.mp (pairwise_ids opt)).imp
    rintro n n' ⟨hn, hn', hlt⟩
    exact h.disjoint n n' (mem_ids.mp hn).isInode (mem_ids.mp hn').isInode (UInt32.ne_of_lt hlt)

theorem nodup_blockIds (opt : Options) : (blockIds opt).Nodup :=
  (pairwise_blockIds opt).imp fun h => UInt32.ne_of_lt h

theorem mem_strays : id ∈ strays v chains ↔
    IsBlock opt id ∧ BlockUsed v id ∧ id ∉ owned opt chains := by
  rw [strays, List.mem_filter, mem_blockIds, decide_eq_true_eq]
  rfl

/-- A block is free, or a file has it, or it is a stray one. -/
theorem length_strays (h : Chained v chains) :
    (strays v chains).length + ((owned opt chains).length + (freeIds v).length) =
      opt.blockCount.toNat := by
  have hused : ∀ i ∈ owned opt chains, IsBlock opt i ∧ BlockUsed v i := by
    intro i hi
    obtain ⟨n, hn, hmem⟩ := mem_owned.mp hi
    exact ⟨(h.chain n hn.isInode).isBlock i hmem, h.used n hn.isInode i hmem⟩
  have hnodup : (strays v chains ++ (owned opt chains ++ freeIds v)).Nodup := by
    rw [List.nodup_append', List.nodup_append']
    refine ⟨(nodup_blockIds opt).filter _, ⟨nodup_owned h, nodup_freeIds v, ?_⟩, ?_⟩
    · intro i hi hfree
      exact (mem_freeIds.mp hfree).2 (hused i hi).2
    · intro i hi hrest
      obtain ⟨-, hblock, hnot⟩ := mem_strays.mp hi
      rcases List.mem_append.mp hrest with hmem | hfree
      · exact hnot hmem
      · exact (mem_freeIds.mp hfree).2 hblock
  have hperm : (strays v chains ++ (owned opt chains ++ freeIds v)).Perm (blockIds opt) := by
    apply (List.perm_ext_iff_of_nodup hnodup (nodup_blockIds opt)).mpr
    intro i
    rw [List.mem_append, List.mem_append, mem_strays, mem_freeIds, mem_blockIds]
    constructor
    · rintro (⟨hi, -, -⟩ | hi | ⟨hi, -⟩)
      · exact hi
      · exact (hused i hi).1
      · exact hi
    · intro hi
      by_cases hblock : BlockUsed v i
      · by_cases hmem : i ∈ owned opt chains
        · exact Or.inr (Or.inl hmem)
        · exact Or.inl ⟨hi, hblock, hmem⟩
      · exact Or.inr (Or.inr ⟨hi, hblock⟩)
  have hlen := hperm.length_eq
  rw [List.length_append, List.length_append, blockIds, List.length_map, List.length_range] at hlen
  exact hlen

theorem contents_of_used (h : Tied S m s v hints chains) (hid : IsFileId opt id)
    (hused : InodeUsed v id) :
    contents s id = some ⟨sizeAt v m.nodes id, room v (chains id)⟩ := by
  rw [contents, h.files id hid, fileAt_of_used hused]
  rfl

theorem contents_of_unused (h : Tied S m s v hints chains) (hid : IsFileId opt id)
    (hunused : ¬ InodeUsed v id) : contents s id = none := by
  rw [contents, h.files id hid, fileAt_of_unused hunused]
  rfl

theorem heldIn_eq (hopt : Formattable opt) (h : Tied S m s v hints chains)
    (hid : IsFileId opt id) : heldIn opt s id = (chains id).length := by
  by_cases hused : InodeUsed v id
  · rw [heldIn, contents_of_used h hid hused]
    exact held_of_room hopt (length_room v (chains id))
  · rw [heldIn, contents_of_unused h hid hused, chains_of_unused h hid hused]
    rfl

/-- What is missing from the store's account is stray. -/
theorem strays_accounted (hopt : Formattable opt) (h : Tied S m s v hints chains) :
    (strays v chains).length + accounted opt s = opt.blockCount.toNat := by
  have hheld : (ids opt).map (heldIn opt s) = (ids opt).map fun n => (chains n).length :=
    List.map_congr_left fun n hn => heldIn_eq hopt h (mem_ids.mp hn)
  rw [← length_strays h.formed.chained, accounted, hheld, h.free, owned, List.length_flatMap,
    Nat.add_comm (freeIds v).length]

theorem held_add_free_le (hopt : Formattable opt) (h : Tied S m s v hints chains)
    (hid : IsFileId opt id) {c : Content UInt8} (hc : contents s id = some c) :
    held opt c + s.free ≤ opt.blockCount.toNat := by
  have hall := strays_accounted hopt h
  have hheld : heldIn opt s id = held opt c := by
    rw [heldIn, hc, Option.elim_some]
  have hsum : heldIn opt s id ≤ ((ids opt).map (heldIn opt s)).sum :=
    List.single_le_sum (fun _ _ => Nat.zero_le _) _ (List.mem_map_of_mem (mem_ids.mpr hid))
  rw [accounted] at hall
  omega

/-- The inodes for files that are not in use. -/
def unused (v : Volume opt) : List UInt32 :=
  (ids opt).filter fun id => ¬ isUsed (v.inode id).flags

theorem mem_unused : id ∈ unused v ↔ IsFileId opt id ∧ ¬ InodeUsed v id := by
  rw [unused, List.mem_filter, mem_ids, decide_eq_true_eq]
  rfl

theorem inodeUsed_of_notMem (hid : IsFileId opt id) (h : id ∉ unused v) : InodeUsed v id := by
  by_contra hfree
  exact h (mem_unused.mpr ⟨hid, hfree⟩)

theorem unused_eq (h : Tied S m s v hints chains) :
    unused v = (ids opt).filter fun id => (s.files id).isNone := by
  apply List.filter_congr
  intro id hid
  have hfile := mem_ids.mp hid
  by_cases hused : InodeUsed v id
  · obtain ⟨f, hf, -⟩ := exists_file (contents_of_used h hfile hused)
    rw [hf]
    exact decide_eq_false (not_not_intro hused)
  · have hnone : s.files id = none := Option.map_eq_none_iff.mp (contents_of_unused h hfile hused)
    rw [hnone]
    exact decide_eq_true hused

theorem inodeNextFree_nil (hopt : Formattable opt) (h : Hinted v hints) (hnone : unused v = [])
    (now : UInt32) :
    ∃ hints', inodeNextFree now (disk v hints) true = .ok (.error .fsFull, disk v hints') ∧
      Hinted v hints' := by
  apply inodeNextFree_full hopt h _ now
  intro j hj
  exact inodeUsed_of_notMem hj (by rw [hnone]; exact List.not_mem_nil)

theorem inodeNextFree_cons (hopt : Formattable opt) (h : Hinted v hints) {rest : List UInt32}
    (hfirst : unused v = id :: rest) (now : UInt32) :
    ∃ hints', inodeNextFree now (disk v hints) true = .ok (.ok (marked now (v.inode id)),
        disk (v.setInode (marked now (v.inode id))) hints') ∧
      Hinted (v.setInode (marked now (v.inode id))) hints' ∧
      unused (v.setInode (marked now (v.inode id))) = rest := by
  obtain ⟨before, after, hids, hbefore, hfree, hrest⟩ := List.filter_eq_cons_iff.mp hfirst
  have hsorted := pairwise_ids opt
  rw [hids] at hsorted
  obtain ⟨-, htail, hcross⟩ := List.pairwise_append.mp hsorted
  have hmem : id ∈ unused v := by
    rw [hfirst]
    exact List.mem_cons_self
  obtain ⟨hid, hunused⟩ := mem_unused.mp hmem
  have hbelow : ∀ j, IsFileId opt j → j < id → InodeUsed v j := by
    intro j hj hlt
    apply inodeUsed_of_notMem hj
    rw [hfirst, ← hrest]
    intro hmem
    rcases List.mem_cons.mp hmem with rfl | hmem
    · exact UInt32.lt_irrefl j hlt
    · exact UInt32.lt_asymm hlt ((List.pairwise_cons.mp htail).1 j (List.mem_filter.mp hmem).1)
  obtain ⟨hints', hrun, hhinted⟩ := inodeNextFree_found hopt h hid hunused hbelow now
  refine ⟨hints', hrun, hhinted, ?_⟩
  have hself : (marked now (v.inode id)).id = id := v.inode_id id
  have hsame : ∀ j, j ≠ id → (v.setInode (marked now (v.inode id))).inode j = v.inode j := by
    intro j hne
    rw [Volume.setInode_inode, hself, Function.update_of_ne hne]
  have hused : isUsed ((v.setInode (marked now (v.inode id))).inode id).flags = true := by
    rw [Volume.setInode_inode, hself, Function.update_self]
    exact isUsed_or _
  rw [unused, hids, List.filter_append, List.filter_cons_of_neg (by simp [hused]),
    List.filter_eq_nil_iff.mpr, List.nil_append, ← hrest]
  · apply List.filter_congr
    intro j hj
    rw [hsame j (UInt32.ne_of_lt ((List.pairwise_cons.mp htail).1 j hj)).symm]
  · intro j hj
    rw [hsame j (UInt32.ne_of_lt (hcross j hj id List.mem_cons_self))]
    exact hbefore j hj

theorem isInode_cases (hid : IsInode opt id) : id = 1 ∨ IsFileId opt id := by
  rcases Nat.eq_or_lt_of_le hid.1 with hone | htwo
  · exact Or.inl (UInt32.toNat_inj.mp hone.symm)
  · exact Or.inr ⟨htwo, hid.2⟩

theorem idTable_congr {g g' : UInt32 → List UInt8} {n : Nat}
    (h : ∀ k < n, g (idOf k) = g' (idOf k)) : idTable g n = idTable g' n :=
  table_congr h

theorem tables_congr (hname : ∀ id, IsInode opt id → v.name id = w.name id)
    (hinode : ∀ id, IsInode opt id → v.inode id = w.inode id)
    (hblock : ∀ id, IsBlock opt id → v.block id = w.block id)
    (hdata : ∀ id, IsBlock opt id → v.data id = w.data id) :
    v.image.drop (headerSize opt) = w.image.drop (headerSize opt) := by
  have htables : ∀ u : Volume opt,
      u.image.drop (headerSize opt) = u.names ++ (u.inodes ++ u.blocks) := by
    intro u
    rw [u.image_names, ← u.length_before_names, List.drop_left]
  have hnames : v.names = w.names := by
    apply idTable_congr
    intro k hk
    rw [Volume.nameRecord, Volume.nameRecord, hname _ (isInode_idOf hk)]
  have hinodes : v.inodes = w.inodes := by
    apply idTable_congr
    intro k hk
    rw [Volume.inodeRecord, Volume.inodeRecord, hinode _ (isInode_idOf hk)]
  have hblocks : v.blocks = w.blocks := by
    apply idTable_congr
    intro k hk
    rw [Volume.blockRecord, Volume.blockRecord, hblock _ (isBlock_idOf hk),
      hdata _ (isBlock_idOf hk)]
  rw [htables v, htables w, hnames, hinodes, hblocks]

/-- Without files and strays the tables are those of a new volume. -/
theorem tables_of_no_files (h : Tied S m s v hints chains)
    (hfiles : ∀ id, IsFileId opt id → contents s id = none) (hstrays : strays v chains = [])
    {magic : List UInt8} (hmagic : magic.length = opt.magicLength.toNat) :
    v.image.drop (headerSize opt) = (blank opt magic hmagic).image.drop (headerSize opt) := by
  have hunused : ∀ id, IsFileId opt id → ¬ InodeUsed v id := by
    intro id hid hused
    have hsome := contents_of_used h hid hused
    rw [hfiles id hid] at hsome
    exact absurd hsome (by simp)
  have hrecord : ∀ id, IsInode opt id → Unwritten v id := by
    intro id hid
    rcases isInode_cases hid with rfl | hfile
    · exact h.root
    · exact (h.recorded id hfile).blank (hunused id hfile)
  have hblank : ∀ id, IsBlock opt id → Blank v id := by
    intro id hid
    apply h.formed.chained.blank id hid
    intro hused
    have hstray : id ∈ strays v chains := by
      apply mem_strays.mpr ⟨hid, hused, ?_⟩
      intro howned
      obtain ⟨n, hn, hmem⟩ := mem_owned.mp howned
      rw [chains_of_unused h hn (hunused n hn)] at hmem
      exact absurd hmem List.not_mem_nil
    rw [hstrays] at hstray
    exact absurd hstray List.not_mem_nil
  apply tables_congr
  · exact fun id hid => (hrecord id hid).name
  · exact fun id hid => (hrecord id hid).inode
  · exact fun id hid => (hblank id hid).1
  · exact fun id hid => (hblank id hid).2

end

end Iqiq.WhefsCensus
