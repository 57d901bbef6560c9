import Iqiq.WhefsAllocation

namespace Iqiq.WhefsChains

open Iqiq.NextPath
open Iqiq.Whefs
open Iqiq.WhefsAllocation
open Iqiq.WhefsDisk
open Iqiq.WhefsEncode
open Iqiq.WhefsFiles
open Iqiq.WhefsVolume

section

variable {opt : Options}

/-- The block is as `mkfs` has written it. -/
def Blank (v : Volume opt) (id : UInt32) : Prop :=
  v.block id = unusedBlock id ∧ v.data id = List.replicate opt.blockSize.toNat 0

/-- Each inode `n` has the blocks `chains n`, which are in use and not shared; blocks that
are not in use are blank. -/
structure Chained (v : Volume opt) (chains : UInt32 → List UInt32) : Prop where
  chain : ∀ n, IsInode opt n → Chain v (v.inode n).firstBlock (chains n)
  used : ∀ n, IsInode opt n → ∀ id ∈ chains n, BlockUsed v id
  disjoint : ∀ n m, IsInode opt n → IsInode opt m → n ≠ m → (chains n).Disjoint (chains m)
  blank : ∀ id, IsBlock opt id → ¬ BlockUsed v id → Blank v id

/-- What is below the hints is in use. -/
structure Hinted (v : Volume opt) (hints : Hints) : Prop where
  block_pos : 1 ≤ hints.unusedBlockStart.toNat
  block : ∀ id, IsBlock opt id → id < hints.unusedBlockStart → BlockUsed v id
  inode : ∀ n, IsInode opt n → 2 ≤ n.toNat → n < hints.unusedInodeStart →
    isUsed (v.inode n).flags = true

variable {v w : Volume opt} {chains : UInt32 → List UInt32} {hints : Hints} {n id a : UInt32}
  {ids : List UInt32}

/-- The inode `n` gets the blocks `ids`, which are its own or were not in use. -/
theorem Chained.change (h : Chained v chains) (hn : IsInode opt n)
    (hinode : ∀ m, m ≠ n → (w.inode m).firstBlock = (v.inode m).firstBlock)
    (hother : ∀ id, BlockUsed v id → id ∉ chains n → w.block id = v.block id)
    (hchain : Chain w (w.inode n).firstBlock ids) (hused : ∀ id ∈ ids, BlockUsed w id)
    (hfrom : ∀ id ∈ ids, id ∈ chains n ∨ ¬ BlockUsed v id)
    (hblank : ∀ id, IsBlock opt id → ¬ BlockUsed w id → Blank w id) :
    Chained w (Function.update chains n ids) := by
  have hkeep : ∀ m, IsInode opt m → m ≠ n → ∀ id ∈ chains m, w.block id = v.block id :=
    fun m hm hne id hid => hother id (h.used m hm id hid) (h.disjoint m n hm hn hne hid)
  have hapart : ∀ m, IsInode opt m → m ≠ n → ids.Disjoint (chains m) := by
    intro m hm hne id hid hmem
    rcases hfrom id hid with hmine | hfree
    · exact h.disjoint m n hm hn hne hmem hmine
    · exact hfree (h.used m hm id hmem)
  constructor
  · intro m hm
    rcases eq_or_ne m n with rfl | hne
    · rwa [Function.update_self]
    · rw [Function.update_of_ne hne, hinode m hne]
      exact (h.chain m hm).congr fun id hid => by rw [nextOf, nextOf, hkeep m hm hne id hid]
  · intro m hm
    rcases eq_or_ne m n with rfl | hne
    · rwa [Function.update_self]
    · rw [Function.update_of_ne hne]
      intro id hid
      rw [BlockUsed, hkeep m hm hne id hid]
      exact h.used m hm id hid
  · intro m m' hm hm' hne
    rcases eq_or_ne m n with rfl | hmn
    · rw [Function.update_self, Function.update_of_ne hne.symm]
      exact hapart m' hm' hne.symm
    · rcases eq_or_ne m' n with rfl | hmn'
      · rw [Function.update_self, Function.update_of_ne hne]
        exact List.disjoint_comm.mp (hapart m hm hne)
      · rw [Function.update_of_ne hmn, Function.update_of_ne hmn']
        exact h.disjoint m m' hm hm' hne
  · exact hblank

theorem Chained.setInode (h : Chained v chains) {ino : Inode}
    (hfirst : ino.firstBlock = (v.inode ino.id).firstBlock) :
    Chained (v.setInode ino) chains := by
  refine ⟨fun m hm => ?_, h.used, h.disjoint, h.blank⟩
  have hsame : ((v.setInode ino).inode m).firstBlock = (v.inode m).firstBlock := by
    rw [Volume.setInode]
    rcases eq_or_ne m ino.id with rfl | hne
    · simp [hfirst]
    · simp [hne]
  rw [hsame]
  exact (h.chain m hm).congr fun _ _ => rfl

theorem Chained.setData (h : Chained v chains) (hused : BlockUsed v id) {bytes : List UInt8}
    (hlen : bytes.length = opt.blockSize.toNat) : Chained (v.setData id bytes hlen) chains := by
  refine ⟨fun m hm => (h.chain m hm).congr fun _ _ => rfl, h.used, h.disjoint, ?_⟩
  intro i hi hfree
  have hne : i ≠ id := by
    rintro rfl
    exact hfree hused
  refine ⟨(h.blank i hi hfree).1, ?_⟩
  rw [Volume.setData]
  simp only [Function.update_of_ne hne]
  exact (h.blank i hi hfree).2

theorem taken_blank (h : Chained v chains) (hid : IsBlock opt id) (hfree : ¬ BlockUsed v id) :
    taken v id = ⟨id, 1, 0⟩ := by
  rw [taken, (h.blank id hid hfree).1]
  rfl

theorem blockUsed_of_flags {bl : Block} (h : w.block id = bl) (hflags : bl.flags = 1) :
    BlockUsed w id := by
  rw [BlockUsed, h, hflags]
  rfl

theorem Chained.first (h : Chained v chains) (hn : IsInode opt n) (hid : IsBlock opt id)
    (hfree : ¬ BlockUsed v id) {ino : Inode} (hino : ino.id = n) (hfirst : ino.firstBlock = id) :
    Chained ((v.setBlock (taken v id)).setInode ino) (Function.update chains n [id]) := by
  have htaken := taken_blank h hid hfree
  have hblock : ∀ i, ((v.setBlock (taken v id)).setInode ino).block i =
      if i = id then ⟨id, 1, 0⟩ else v.block i := by
    intro i
    rw [htaken, Volume.setInode, Volume.setBlock]
    exact Function.update_apply ..
  have hinode : ∀ m, ((v.setBlock (taken v id)).setInode ino).inode m =
      if m = n then ino else v.inode m := by
    intro m
    rw [Volume.setInode, Volume.setBlock, ← hino]
    exact Function.update_apply ..
  refine h.change hn ?_ ?_ ?_ ?_ ?_ ?_
  · intro m hm
    rw [hinode, if_neg hm]
  · intro i hi _
    have hne : i ≠ id := by
      rintro rfl
      exact hfree hi
    rw [hblock, if_neg hne]
  · rw [hinode, if_pos rfl]
    refine chain_cons_iff.mpr ⟨hfirst.symm, hid, chain_nil_iff.mpr ?_⟩
    rw [nextOf, hblock, if_pos rfl]
  · intro i hi
    rw [List.mem_singleton.mp hi]
    exact blockUsed_of_flags (by rw [hblock, if_pos rfl]) rfl
  · intro i hi
    rw [List.mem_singleton.mp hi]
    exact Or.inr hfree
  · intro i hi hunused
    have hne : i ≠ id := by
      rintro rfl
      exact hunused (blockUsed_of_flags (by rw [hblock, if_pos rfl]) rfl)
    have hold : ¬ BlockUsed v i := by
      rwa [BlockUsed, hblock, if_neg hne] at hunused
    exact ⟨by rw [hblock, if_neg hne]; exact (h.blank i hi hold).1, (h.blank i hi hold).2⟩

theorem Chained.append (h : Chained v chains) (hn : IsInode opt n) (hids : chains n = ids ++ [a])
    (hid : IsBlock opt id) (hfree : ¬ BlockUsed v id) :
    Chained ((v.setBlock (taken v id)).setBlock { v.block a with nextBlock := id })
      (Function.update chains n (ids ++ [a] ++ [id])) := by
  have htaken := taken_blank h hid hfree
  have ha : a ∈ chains n := by simp [hids]
  have hne : a ≠ id := by
    rintro rfl
    exact hfree (h.used n hn _ ha)
  have hblock : ∀ i, ((v.setBlock (taken v id)).setBlock
      { v.block a with nextBlock := id }).block i =
        if i = a then { v.block a with nextBlock := id } else if i = id then ⟨id, 1, 0⟩
        else v.block i := by
    intro i
    have haid : (v.block a).id = a := v.block_id a
    rw [htaken, Volume.setBlock, Volume.setBlock]
    simp only [Function.update_apply, haid]
  have hold := h.chain n hn
  rw [hids] at hold
  refine h.change hn ?_ ?_ ?_ ?_ ?_ ?_
  · exact fun _ _ => rfl
  · intro i hi hmem
    have hia : i ≠ a := fun heq => hmem (heq ▸ ha)
    have hiid : i ≠ id := by
      rintro rfl
      exact hfree hi
    rw [hblock, if_neg hia, if_neg hiid]
  · refine ⟨path_concat.mpr ⟨?_, ?_⟩, ?_⟩
    · refine (hold.path.redirect hold.nodup id).congr fun i hi => ?_
      rw [nextOf, hblock, Function.update_apply]
      have hiid : i ≠ id := by
        rintro rfl
        exact hfree (h.used n hn _ (by rwa [hids]))
      split
      · rfl
      · rfl
    · rw [nextOf, hblock, if_neg hne.symm, if_pos rfl]
    · intro i hi
      rcases List.mem_append.mp hi with hi | hi
      · exact hold.isBlock i hi
      · rwa [List.mem_singleton.mp hi]
  · intro i hi
    rcases eq_or_ne i id with rfl | hiid
    · exact blockUsed_of_flags (by rw [hblock, if_neg hne.symm, if_pos rfl]) rfl
    · have hmem : i ∈ chains n := by
        rw [hids]
        simpa [hiid] using hi
      have husedi := h.used n hn i hmem
      rw [BlockUsed, hblock]
      split
      · rename_i heq
        rwa [BlockUsed, heq] at husedi
      · exact husedi
  · intro i hi
    rcases List.mem_append.mp hi with hi | hi
    · exact Or.inl (by rwa [hids])
    · rw [List.mem_singleton.mp hi]
      exact Or.inr hfree
  · intro i hi hunused
    have hiid : i ≠ id := by
      rintro rfl
      exact hunused (blockUsed_of_flags (by rw [hblock, if_neg hne.symm, if_pos rfl]) rfl)
    have hia : i ≠ a := by
      rintro rfl
      rw [BlockUsed, hblock, if_pos rfl] at hunused
      exact hunused (h.used n hn _ ha)
    have hfree' : ¬ BlockUsed v i := by
      rwa [BlockUsed, hblock, if_neg hia, if_neg hiid] at hunused
    refine ⟨?_, (h.blank i hi hfree').2⟩
    rw [hblock, if_neg hia, if_neg hiid]
    exact (h.blank i hi hfree').1

theorem blockUsed_freeBlocks (v : Volume opt) (freed : List UInt32) (id : UInt32) :
    BlockUsed (freeBlocks v freed) id ↔ id ∉ freed ∧ BlockUsed v id := by
  rw [BlockUsed, freeBlocks_block]
  split
  · rename_i hmem
    have hunused : ¬ isUsed (unusedBlock id).flags = true :=
      (by decide : ¬ isUsed (0 : UInt8) = true)
    exact iff_of_false hunused fun hid => hid.1 hmem
  · rename_i hmem
    exact (and_iff_right hmem).symm

theorem blank_freeBlocks (h : Chained v chains) {freed : List UInt32} (hid : IsBlock opt id)
    (hfree : ¬ BlockUsed (freeBlocks v freed) id) : Blank (freeBlocks v freed) id := by
  rw [Blank, freeBlocks_block, freeBlocks_data]
  rw [blockUsed_freeBlocks, not_and] at hfree
  split
  · exact ⟨rfl, rfl⟩
  · rename_i hmem
    exact h.blank id hid (hfree hmem)

theorem Chained.release (h : Chained v chains) (hn : IsInode opt n) {freed : List UInt32}
    (hfreed : ∀ id, id ∈ freed ↔ id ∈ chains n) {ino : Inode} (hino : ino.id = n)
    (hfirst : ino.firstBlock = 0) :
    Chained ((freeBlocks v freed).setInode ino) (Function.update chains n []) := by
  refine h.change hn ?_ ?_ ?_ ?_ ?_ ?_
  · intro m hm
    have hne : m ≠ ino.id := hino ▸ hm
    simp [Volume.setInode, hne]
  · intro i _ hmem
    change (freeBlocks v freed).block i = _
    rw [freeBlocks_block, if_neg (mt (hfreed i).mp hmem)]
  · refine chain_nil_iff.mpr ?_
    rw [← hino, Volume.setInode]
    simp [hfirst]
  · simp
  · simp
  · exact fun i hi hfree => blank_freeBlocks h hi hfree

theorem Chained.cut (h : Chained v chains) (hn : IsInode opt n) {dropped freed : List UInt32}
    (hids : chains n = ids ++ [a] ++ dropped) (hfreed : ∀ id, id ∈ freed ↔ id ∈ dropped) :
    Chained ((freeBlocks v freed).setBlock { v.block a with nextBlock := 0 })
      (Function.update chains n (ids ++ [a])) := by
  have hold := h.chain n hn
  rw [hids] at hold
  have hapart := (List.nodup_append'.mp hold.nodup).2.2
  have hafreed : a ∉ freed := fun hmem => hapart (by simp) ((hfreed a).mp hmem)
  have haused : BlockUsed v a := h.used n hn a (by simp [hids])
  have hblock : ∀ i, ((freeBlocks v freed).setBlock { v.block a with nextBlock := 0 }).block i =
      if i = a then { v.block a with nextBlock := 0 } else (freeBlocks v freed).block i := by
    intro i
    have haid : (v.block a).id = a := v.block_id a
    rw [Volume.setBlock]
    simp only [Function.update_apply, haid]
  have hkept : ∀ i ∈ ids ++ [a], i ≠ a → ((freeBlocks v freed).setBlock
      { v.block a with nextBlock := 0 }).block i = v.block i := by
    intro i hi hne
    rw [hblock, if_neg hne, freeBlocks_block, if_neg fun hmem => hapart hi ((hfreed i).mp hmem)]
  refine h.change hn ?_ ?_ ?_ ?_ ?_ ?_
  · intro m _
    change ((freeBlocks v freed).inode m).firstBlock = _
    rw [freeBlocks_inode]
  · intro i _ hmem
    have hne : i ≠ a := by
      rintro rfl
      simp [hids] at hmem
    have hdropped : i ∉ dropped := fun hi => by simp [hids, hi] at hmem
    rw [hblock, if_neg hne, freeBlocks_block, if_neg (mt (hfreed i).mp hdropped)]
  · obtain ⟨mid, hpath, -⟩ := path_append.mp hold.path
    refine ⟨?_, fun i hi => hold.isBlock i (List.mem_append_left _ hi)⟩
    change Path _ ((freeBlocks v freed).inode n).firstBlock _ _
    rw [freeBlocks_inode]
    refine (hpath.redirect (List.nodup_append'.mp hold.nodup).1 0).congr fun i hi => ?_
    rcases eq_or_ne i a with rfl | hne
    · rw [Function.update_self, nextOf, hblock, if_pos rfl]
    · rw [Function.update_of_ne hne, nextOf, nextOf, hkept i hi hne]
  · intro i hi
    rcases eq_or_ne i a with rfl | hne
    · rw [BlockUsed, hblock, if_pos rfl]
      exact haused
    · rw [BlockUsed, hkept i hi hne]
      exact h.used n hn i (hids ▸ List.mem_append_left _ hi)
  · exact fun i hi => Or.inl (hids ▸ List.mem_append_left _ hi)
  · intro i hi hfree
    have hne : i ≠ a := by
      rintro rfl
      rw [BlockUsed, hblock, if_pos rfl] at hfree
      exact hfree haused
    have hfree' : ¬ BlockUsed (freeBlocks v freed) i := by
      rwa [BlockUsed, hblock, if_neg hne] at hfree
    have hblank := blank_freeBlocks h hi hfree'
    exact ⟨by rw [hblock, if_neg hne]; exact hblank.1, hblank.2⟩

theorem Chained.forget (h : Chained v chains) (hn : IsInode opt n) {ino : Inode}
    (hino : ino.id = n) (hfirst : ino.firstBlock = 0) :
    Chained (v.setInode ino) (Function.update chains n []) := by
  refine h.change hn ?_ ?_ ?_ ?_ ?_ ?_
  · intro m hm
    have hne : m ≠ ino.id := hino ▸ hm
    simp [Volume.setInode, hne]
  · exact fun _ _ _ => rfl
  · refine chain_nil_iff.mpr ?_
    rw [← hino, Volume.setInode]
    simp [hfirst]
  · simp
  · simp
  · exact h.blank

theorem Hinted.setInode (h : Hinted v hints) (ino : Inode) :
    Hinted (v.setInode ino) (lowerInode hints ino) := by
  have hblock : (lowerInode hints ino).unusedBlockStart = hints.unusedBlockStart := by
    rw [lowerInode]
    split
    · rfl
    · split <;> rfl
  refine ⟨?_, ?_, ?_⟩
  · rw [hblock]
    exact h.block_pos
  · rw [hblock]
    exact h.block
  · intro m hm hroot hlt
    rw [Volume.setInode]
    rw [lowerInode] at hlt
    split at hlt
    · rename_i hused
      rcases eq_or_ne m ino.id with rfl | hne
      · simpa using hused
      · simpa [hne] using h.inode m hm hroot hlt
    · split at hlt
      · rename_i hlow
        have hne : m ≠ ino.id := by
          rintro rfl
          exact absurd hlt (UInt32.lt_irrefl _)
        simpa [hne] using h.inode m hm hroot (UInt32.lt_trans hlt hlow)
      · rename_i hlow
        have hne : m ≠ ino.id := by
          rintro rfl
          exact hlow hlt
        simpa [hne] using h.inode m hm hroot hlt

theorem Hinted.lowerInode (h : Hinted v hints) (n : UInt32) :
    Hinted v (lowerInode hints (v.inode n)) := by
  have hset := h.setInode (v.inode n)
  have hsame : (v.setInode (v.inode n)).inode = v.inode := by
    rw [Volume.setInode_inode, v.inode_id]
    exact Function.update_eq_self n v.inode
  refine ⟨hset.block_pos, hset.block, fun m hm hroot hlt => ?_⟩
  rw [← hsame]
  exact hset.inode m hm hroot hlt

theorem Hinted.setBlock (h : Hinted v hints) {bl : Block} (hbl : isUsed bl.flags = true) :
    Hinted (v.setBlock bl) hints := by
  refine ⟨h.block_pos, fun i hi hlt => ?_, h.inode⟩
  rw [BlockUsed, Volume.setBlock_block]
  rcases eq_or_ne i bl.id with rfl | hne
  · rwa [Function.update_self]
  · rw [Function.update_of_ne hne]
    exact h.block i hi hlt

theorem Hinted.taken (h : Hinted v hints) (hopt : Formattable opt) (hid : IsBlock opt id)
    (hbelow : ∀ i, IsBlock opt i → i < id → BlockUsed v i) :
    Hinted (v.setBlock (taken v id)) { hints with unusedBlockStart := id + 1 } := by
  have hsucc : (id + 1).toNat = id.toNat + 1 := by
    have hfits := hopt.fits
    have hcount : opt.blockCount.toNat * 1 ≤ opt.blockCount.toNat * blockWidth opt :=
      Nat.mul_le_mul_left _ (by rw [blockWidth]; omega)
    rw [totalSize, blocksStart, inodesStart, headerSize] at hfits
    rw [UInt32.toNat_add, Nat.mod_eq_of_lt]
    · rfl
    · have := hid.2
      change id.toNat + 1 < 2 ^ 32
      omega
  refine ⟨?_, fun i hi hlt => ?_, h.inode⟩
  · change 1 ≤ (id + 1).toNat
    omega
  · rw [UInt32.lt_iff_toNat_lt] at hlt
    change i.toNat < (id + 1).toNat at hlt
    rw [BlockUsed, Volume.setBlock_block]
    rcases eq_or_ne i (WhefsAllocation.taken v id).id with rfl | hne
    · rw [Function.update_self]
      exact (by decide : isUsed (1 : UInt8) = true)
    · have hne' : i ≠ id := by
        rwa [WhefsAllocation.taken, v.block_id] at hne
      rw [Function.update_of_ne hne]
      refine hbelow i hi (UInt32.lt_iff_toNat_lt.mpr ?_)
      have := UInt32.toNat_inj.ne.mpr hne'
      omega

theorem Hinted.freeBlocks (h : Hinted v hints) {freed : List UInt32}
    (hfreed : ∀ id ∈ freed, IsBlock opt id) :
    Hinted (freeBlocks v freed) (lowerBlocks hints freed) := by
  refine ⟨?_, fun i hi hlt => ?_, fun m hm hroot hlt => ?_⟩
  · refine UInt32.lt_iff_toNat_lt.mp ((lt_lowerBlocks_iff hints freed 0).mpr ⟨?_, ?_⟩)
    · exact UInt32.lt_iff_toNat_lt.mpr h.block_pos
    · exact fun i hi => UInt32.lt_iff_toNat_lt.mpr (hfreed i hi).1
  · obtain ⟨hlt, hbelow⟩ := (lt_lowerBlocks_iff hints freed i).mp hlt
    refine (blockUsed_freeBlocks v freed i).mpr ⟨?_, h.block i hi hlt⟩
    exact fun hmem => absurd (hbelow i hmem) (UInt32.lt_irrefl i)
  · rw [freeBlocks_inode]
    rw [lowerBlocks_unusedInodeStart] at hlt
    exact h.inode m hm hroot hlt

end

end Iqiq.WhefsChains
