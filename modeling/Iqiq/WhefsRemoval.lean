import Iqiq.WhefsLives

namespace Iqiq.WhefsRemoval

open Iqiq.FileStore
open Iqiq.FileStore.Store
open Iqiq.StoreEffects
open Iqiq.Whefs
open Iqiq.WhefsAllocation
open Iqiq.WhefsChains
open Iqiq.WhefsDirectory
open Iqiq.WhefsDisk
open Iqiq.WhefsEncode
open Iqiq.WhefsFree
open Iqiq.WhefsInodes
open Iqiq.WhefsLives
open Iqiq.WhefsMkfs
open Iqiq.WhefsMount
open Iqiq.WhefsOpened
open Iqiq.WhefsRuns
open Iqiq.WhefsSessions
open Iqiq.WhefsStore
open Iqiq.WhefsVolume

section

variable {opt : Options}

/-- Each block is as it was, or blank. -/
def Wiped (v w : Volume opt) : Prop :=
  ∀ id, w.block id = v.block id ∧ w.data id = v.data id ∨ Blank w id

variable {v w u : Volume opt} {hints : Hints} {id : UInt32}

theorem Wiped.refl (v : Volume opt) : Wiped v v :=
  fun _ => Or.inl ⟨rfl, rfl⟩

theorem blank_of_same (h : Blank v id) (hblock : w.block id = v.block id)
    (hdata : w.data id = v.data id) : Blank w id :=
  ⟨hblock.trans h.1, hdata.trans h.2⟩

theorem Wiped.trans (h : Wiped v w) (h' : Wiped w u) : Wiped v u := by
  intro id
  rcases h' id with ⟨hblock, hdata⟩ | hblank
  · rcases h id with ⟨hblock', hdata'⟩ | hblank
    · exact Or.inl ⟨hblock.trans hblock', hdata.trans hdata'⟩
    · exact Or.inr (blank_of_same hblank hblock hdata)
  · exact Or.inr hblank

end

section

variable {S : List UInt8 → Prop} {opt : Options} {magic : List UInt8} {fuel : Nat}
  {acts : List Act} {name : List UInt8} {id : UInt32}

theorem lowerInode_unused (hints : Hints) (id : UInt32) :
    (lowerInode hints { inodeEmpty with id }).unusedInodeStart ≤ id ∧
      (lowerInode hints { inodeEmpty with id }).unusedBlockStart = hints.unusedBlockStart := by
  have hunused : ¬ isUsed ({ inodeEmpty with id } : Inode).flags = true := by
    show ¬ isUsed (0 : UInt8) = true
    decide
  rw [lowerInode, if_neg hunused]
  split
  · exact ⟨UInt32.le_refl id, rfl⟩
  · rename_i hle
    exact ⟨UInt32.not_lt.mp hle, rfl⟩

/-- A file that is removed leaves no trace: its blocks are blank and free, the records of its
inode are as in a new volume, and nothing else has changed. -/
theorem unlink_wipes (h : Lived S opt magic fuel acts) (image : List UInt8) (hname : S name)
    (hfound : (fable opt acts).2.store.byName (fable opt acts).2.opt name = some id)
    (hclosed : (fable opt acts).2.store.isOpen id = false) :
    ∃ (answers : List Answer) (m m' : Mount) (v w : Volume (fable opt acts).2.opt)
        (hints hints' : Hints) (chains : UInt32 → List UInt32),
      life fuel opt magic image acts = .ok (answers, m) ∧ m.disk = disk v hints ∧
        Chained v chains ∧ v.name id = name ∧
        m.step fuel (.unlink name) = .ok (.code (.of .ok), m') ∧ m'.disk = disk w hints' ∧
        (∀ b ∈ chains id, Blank w b ∧ hints'.unusedBlockStart ≤ b) ∧
        (∀ b, b ∉ chains id → w.block b = v.block b ∧ w.data b = v.data b) ∧
        Unwritten w id ∧ hints'.unusedInodeStart ≤ id ∧
        ∀ n, n ≠ id → w.inode n = v.inode n ∧ w.name n = v.name n := by
  obtain ⟨m, hlife, hopt, v, hints, chains, hm⟩ := h.holds image
  obtain ⟨hid, hself⟩ := byName_spec hm (h.names.ne_nil name hname) hfound
  subst hself
  have hnodes : ∀ x ∈ m.nodes, nodeId x ≠ id := by
    intro x hx heq
    rw [(isOpen_iff hm id).mpr ⟨x, hx, heq⟩] at hclosed
    exact absurd hclosed (by decide)
  obtain ⟨freed, cache, hrun, hfreed, -⟩ :=
    unlinkFilename_closed hopt h.names hm h.fuel hid (h.names.ne_nil _ hname) hnodes
  obtain ⟨hlow, hblocks⟩ := lowerInode_unused (lowerBlocks hints freed) id
  obtain ⟨m', hstep, hdisk⟩ : ∃ m', m.step fuel (.unlink (v.name id)) =
      .ok (.code (.of .ok), m') ∧ m'.disk = disk (unlinked v id freed)
        (lowerInode (lowerBlocks hints freed) { inodeEmpty with id }) := by
    rw [Mount.step, hrun]
    exact ⟨_, rfl, rfl⟩
  refine ⟨_, m, m', v, unlinked v id freed, hints,
    lowerInode (lowerBlocks hints freed) { inodeEmpty with id }, chains, hlife, hm.disk,
    hm.formed.chained, rfl, hstep, hdisk, ?_, ?_, ?_, hlow, ?_⟩
  · intro b hb
    have hmem := hfreed.mem_iff.mpr hb
    refine ⟨⟨?_, ?_⟩, ?_⟩
    · show (freeBlocks v freed).block b = _
      rw [freeBlocks_block, if_pos hmem]
    · show (freeBlocks v freed).data b = _
      rw [freeBlocks_data, if_pos hmem]
    · rw [hblocks]
      apply UInt32.not_lt.mp
      intro hlt
      exact UInt32.lt_irrefl b (((lt_lowerBlocks_iff hints freed b).mp hlt).2 b hmem)
  · intro b hb
    have hmem : b ∉ freed := fun hmem => hb (hfreed.mem_iff.mp hmem)
    constructor
    · show (freeBlocks v freed).block b = _
      rw [freeBlocks_block, if_neg hmem]
    · show (freeBlocks v freed).data b = _
      rw [freeBlocks_data, if_neg hmem]
  · constructor
    · rw [unlinked_name, Function.update_self]
    · rw [unlinked_inode, Function.update_self]
  · intro n hne
    rw [unlinked_name, unlinked_inode, Function.update_of_ne hne, Function.update_of_ne hne]
    exact ⟨rfl, rfl⟩

theorem unlink_wipes_small : ∃ (answers : List Answer) (m m' : Mount) (v w : Volume smallOptions)
    (hints hints' : Hints) (chains : UInt32 → List UInt32),
    life (2 ^ 32) smallOptions [0x21] [] (opening ++ [writing, .call (.close 1)]) =
        .ok (answers, m) ∧
      m.disk = disk v hints ∧ Chained v chains ∧ v.name 2 = [0x41] ∧
      m.step (2 ^ 32) (.unlink [0x41]) = .ok (.code (.of .ok), m') ∧ m'.disk = disk w hints' ∧
      (∀ b ∈ chains 2, Blank w b ∧ hints'.unusedBlockStart ≤ b) ∧
      (∀ b, b ∉ chains 2 → w.block b = v.block b ∧ w.data b = v.data b) ∧
      Unwritten w 2 ∧ hints'.unusedInodeStart ≤ 2 ∧
      ∀ n, n ≠ 2 → w.inode n = v.inode n ∧ w.name n = v.name n := by
  have hplays : Plays smallName (fable smallOptions opening).2 [writing, .call (.close 1)] :=
    ⟨⟨rfl, by decide⟩, rfl, trivial⟩
  exact unlink_wipes (lived_opening hplays) [] (Or.inl rfl) rfl rfl

end

end Iqiq.WhefsRemoval
