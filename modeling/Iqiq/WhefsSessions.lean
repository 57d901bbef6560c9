import Iqiq.WhefsAppend
import Iqiq.WhefsOpening
import Iqiq.WhefsDirectory

namespace Iqiq.WhefsSessions

open Iqiq.BlockedFile
open Iqiq.FileStore
open Iqiq.NameCache
open Iqiq.NextPath
open Iqiq.Whefs
open Iqiq.WhefsAllocation
open Iqiq.WhefsAppend
open Iqiq.WhefsChains
open Iqiq.WhefsDisk
open Iqiq.WhefsEncode
open Iqiq.WhefsFiles
open Iqiq.WhefsFree
open Iqiq.WhefsGrowth
open Iqiq.WhefsInodes
open Iqiq.WhefsMkfs
open Iqiq.WhefsMount
open Iqiq.WhefsNaming
open Iqiq.WhefsOpened
open Iqiq.WhefsOpening
open Iqiq.WhefsStore
open Iqiq.WhefsVolume
open Iqiq.WhefsWriting

/-- `whefs_fs_closer_list_close`, from the first of the devices on. -/
def closeDevs : List Dev → Mount → Run Mount
  | [], m => .ok m
  | dev :: rest, m => do
      let (_, m) ← devClose m dev.key
      closeDevs rest m

/-- The loop over the inodes that are still open. -/
def closeNodes (fuel : Nat) (m : Mount) : Run Mount :=
  match m.nodes with
  | [] => .ok m
  | x :: _ =>
      match fuel with
      | 0 => .error .running
      | fuel + 1 => closeNodes fuel (inodeClose m x.inode.id x.writer).2

/-- `whefs_fs_finalize`, with what it leaves in the file. -/
def finalize (fuel : Nat) (m : Mount) : Run (List UInt8) := do
  let m ← closeDevs m.devs { m with disk := (hintsWrite m.disk).2 }
  let m ← closeNodes fuel m
  return m.disk.fs.image

/-- A store without handles: what has been opened has been closed. -/
def reopened (s : Store) : Store :=
  ⟨fun id => (s.files id).map Store.flushed, s.free, []⟩

def emptyStore (opt : Options) : Store :=
  ⟨fun _ => none, opt.blockCount.toNat, []⟩

section

variable {opt : Options} {S : List UInt8 → Prop} {m m' : Mount} {s s' : Store} {v w : Volume opt}
  {hints : Hints} {chains : UInt32 → List UInt32} {nodes : List Node} {devs : List Dev}

theorem Tied.setHints (h : Tied S m s v hints chains) (written : Hints) :
    Tied S { m with disk := WhefsDisk.disk (v.setHints written) hints } s (v.setHints written)
      hints chains where
  disk := rfl
  formed := by
    have hc := h.formed.chained
    have hh := h.formed.hinted
    refine ⟨⟨fun n hn => ?_, hc.used, hc.disjoint, hc.blank⟩, ⟨hh.block_pos, hh.block, hh.inode⟩⟩
    exact ⟨(hc.chain n hn).path, (hc.chain n hn).isBlock⟩
  wired := by
    refine ⟨h.wired.sorted, h.wired.keys, fun x hx => ?_, h.wired.live⟩
    have hn := h.wired.node x hx
    have ho := hn.opened
    exact ⟨hn.isFile, hn.used, ⟨ho.isInode, ho.firstBlock, ho.flags, ho.dataSize, ho.blocks⟩,
      hn.count, hn.count_pos, hn.writer, hn.stored⟩
  named := h.named.congr rfl
  root := ⟨h.root.name, h.root.inode⟩
  recorded := fun id hid => ⟨(h.recorded id hid).named, fun hunused =>
    ⟨((h.recorded id hid).blank hunused).name, ((h.recorded id hid).blank hunused).inode⟩⟩
  files := h.files
  free := h.free
  handles := h.handles

theorem nodes_nil (h : Wired v chains nodes []) : nodes = [] := by
  rw [List.eq_nil_iff_forall_not_mem]
  intro x hx
  have hcount := (h.node x hx).count
  have hpos := (h.node x hx).count_pos
  rw [List.countP_nil] at hcount
  omega

theorem fileAt_flushed (v : Volume opt) (chains : UInt32 → List UInt32) (id : UInt32) :
    (fileAt v chains [] id).map Store.flushed = fileAt v chains [] id := by
  by_cases hused : InodeUsed v id
  · rw [fileAt_of_used hused]
    rfl
  · rw [fileAt_of_unused hused]
    rfl

theorem Tied.opened (h : Tied S m s v hints chains) (hdevs : m.devs = []) :
    Tied S ⟨WhefsDisk.disk v hints, none, [], []⟩ (reopened s) v hints chains where
  disk := rfl
  formed := h.formed
  wired := by
    refine ⟨List.Pairwise.nil, List.nodup_nil, ?_, ?_⟩
    · rintro x ⟨⟩
    · rintro d ⟨⟩
  named := by
    refine ⟨Tidy.none opt, ?_, List.Pairwise.nil, h.named.mem, h.named.distinct⟩
    rintro e ⟨⟩
  root := h.root
  recorded := h.recorded
  files := by
    intro id hid
    have hwired := h.wired
    rw [hdevs] at hwired
    change (s.files id).map Store.flushed = fileAt v chains [] id
    rw [h.files id hid, nodes_nil hwired, fileAt_flushed]
  free := h.free
  handles := rfl

theorem reopened_close {h : Handle} {f : FileState} (hf : s.files h.file = some f) :
    reopened (s.close h f).2 = reopened s := by
  have hfiles : ∀ id, ((s.close h f).2.files id).map Store.flushed =
      (s.files id).map Store.flushed := by
    intro id
    rw [Store.close]
    split
    · rcases eq_or_ne id h.file with rfl | hne
      · rw [hf]
        have hself := Function.update_self h.file (some (Store.flushed f)) s.files
        exact (congrArg (Option.map Store.flushed) hself).trans rfl
      · exact congrArg (Option.map Store.flushed) (Function.update_of_ne hne ..)
    · rfl
  have hfree : (s.close h f).2.free = s.free := by
    rw [Store.close]
    split <;> rfl
  rw [reopened, reopened, hfree]
  exact congrArg (Store.mk · s.free []) (funext hfiles)

theorem handles_close (s : Store) (h : Handle) (f : FileState) :
    (s.close h f).2.handles = s.handles.filter fun x => x.key ≠ h.key := by
  rw [Store.close]
  split <;> rfl

/-- Devices are closed one after the other, up to the last one. -/
theorem closeDevs_all (hopt : Formattable opt) (h : Tied S m s v hints chains)
    (hdevs : s.handles.map Handle.key = devs.map Dev.key) :
    ∃ (m' : Mount) (s' : Store) (w : Volume opt), closeDevs devs m = .ok m' ∧
      w.hints = v.hints ∧ Tied S m' s' w hints chains ∧ s'.handles = [] ∧
      reopened s' = reopened s := by
  induction devs generalizing m s v with
  | nil => exact ⟨m, s, v, rfl, rfl, h, List.map_eq_nil_iff.mp hdevs, rfl⟩
  | cons d rest ih =>
      obtain ⟨h₀, hs, hhandles, hkey, hrest⟩ := List.map_eq_cons_iff.mp hdevs
      have hlive : (s.handle d.key).isSome := by
        rw [Store.handle, hhandles, List.find?_cons_of_pos (by simpa using hkey)]
        rfl
      have hnodup : (s.handles.map Handle.key).Nodup := by
        rw [h.handles, List.map_map]
        exact h.wired.keys
      rw [hhandles, List.map_cons, List.nodup_cons] at hnodup
      obtain ⟨dev, node, hat⟩ := h.live hlive
      obtain ⟨m₁, w, hclose, -, hhints, hw⟩ := h.closing hopt hlive
      have hstep : s.step opt (.close d.key) = s.close (handleOf dev) _ := hat.withHandle _
      have hdkey : (handleOf dev).key = d.key := hat.key_eq
      have hleft : (s.step opt (.close d.key)).2.handles = hs := by
        rw [hstep, handles_close, hhandles, hdkey, List.filter_cons_of_neg (by simp [hkey])]
        refine List.filter_eq_self.mpr fun x hx => ?_
        rw [decide_eq_true_eq, ← hkey]
        exact fun heq => hnodup.1 (heq ▸ List.mem_map_of_mem hx)
      obtain ⟨m', s', w', hrun, hhints', hw', hnone, hsame⟩ := ih hw (hleft ▸ hrest)
      refine ⟨m', s', w', ?_, hhints'.trans hhints, hw', hnone, ?_⟩
      · rw [closeDevs, hclose]
        exact hrun
      · rw [hsame, hstep]
        exact reopened_close hat.file

/-- What is in the file when it is closed stands for the same files when it is opened anew. -/
theorem finalize_openfs (hopt : Formattable opt) (hm : Stands opt S m s) (fuel : Nat) :
    ∃ image m', finalize fuel m = .ok image ∧ openfs image = .ok (.ok m') ∧
      m'.disk.fs.image = image ∧ Stands opt S m' (reopened s) := by
  obtain ⟨v, hints, chains, h⟩ := hm
  have hkeys : s.handles.map Handle.key = m.devs.map Dev.key := by
    rw [h.handles, List.map_map]
    rfl
  obtain ⟨m', s', w, hclose, hhints, hw, hnone, hsame⟩ :=
    closeDevs_all hopt (Tied.setHints h hints) hkeys
  have hdevs : m'.devs = [] := by
    have hhandles := hw.handles
    rw [hnone] at hhandles
    exact List.map_eq_nil_iff.mp hhandles.symm
  have hwired := hw.wired
  rw [hdevs] at hwired
  have hnodes : m'.nodes = [] := nodes_nil hwired
  have hstands := Tied.opened hw hdevs
  rw [hsame] at hstands
  refine ⟨w.image, _, ?_, openfs_image w hopt, rfl, ?_⟩
  · have hwrite := hintsWrite_disk v hints
    rw [finalize, h.disk, hwrite, hclose]
    change (closeNodes fuel m' >>= _) = _
    rw [closeNodes, hnodes]
    change Except.ok m'.disk.fs.image = _
    rw [hw.disk]
    rfl
  · rw [hhints]
    exact ⟨w, _, chains, hstands⟩

theorem freeIds_blank {magic : List UInt8} (hmagic : magic.length = opt.magicLength.toNat) :
    freeIds (blank opt magic hmagic) = blockIds opt := by
  refine List.filter_eq_self.mpr fun id _ => ?_
  rw [decide_eq_true_eq]
  change ¬ isUsed (0 : UInt8) = true
  decide

theorem stands_blank {magic : List UInt8} (hmagic : magic.length = opt.magicLength.toNat) :
    Stands opt S ⟨WhefsDisk.disk (blank opt magic hmagic) firstHints, none, [], []⟩
      (emptyStore opt) := by
  have hunused : ∀ id, ¬ InodeUsed (blank opt magic hmagic) id := by
    intro id
    change ¬ isUsed (0 : UInt8) = true
    decide
  have hchained : Chained (blank opt magic hmagic) fun _ => [] := by
    constructor
    · intro n _
      exact chain_nil_iff.mpr rfl
    · rintro n _ id ⟨⟩
    · intro n m _ _ _
      exact List.disjoint_nil_left _
    · intro id _ _
      exact ⟨rfl, rfl⟩
  have hhinted : Hinted (blank opt magic hmagic) firstHints := by
    constructor
    · decide
    · intro id hid hlt
      exact absurd (UInt32.lt_iff_toNat_lt.mp hlt) (Nat.not_lt.mpr hid.1)
    · intro n _ htwo hlt
      exact absurd (UInt32.lt_iff_toNat_lt.mp hlt) (Nat.not_lt.mpr htwo)
  refine ⟨blank opt magic hmagic, firstHints, fun _ => [], ?_⟩
  constructor
  · rfl
  · exact ⟨hchained, hhinted⟩
  · refine ⟨List.Pairwise.nil, List.nodup_nil, ?_, ?_⟩
    · rintro x ⟨⟩
    · rintro d ⟨⟩
  · refine ⟨Tidy.none opt, ?_, List.Pairwise.nil, fun id _ hne => absurd rfl hne,
      fun id _ _ _ hne => absurd rfl hne⟩
    rintro e ⟨⟩
  · exact ⟨rfl, rfl⟩
  · intro id _
    exact ⟨fun hused => absurd hused (hunused id), fun _ => ⟨rfl, rfl⟩⟩
  · intro id _
    exact (fileAt_of_unused (hunused id)).symm
  · rw [freeIds_blank, blockIds, List.length_map, List.length_range]
    rfl
  · rfl

theorem mkfs_stands (hopt : Formattable opt) {magic : List UInt8}
    (hmagic : magic.length = opt.magicLength.toNat) (image : List UInt8) :
    ∃ d, mkfs opt magic image = .ok (.ok d) ∧ Stands opt S ⟨d, none, [], []⟩ (emptyStore opt) :=
  ⟨_, mkfs_eq hopt hmagic image, stands_blank hmagic⟩

/-! ### More blocks -/

variable {count : UInt32}

theorem blockIds_grown (h : Growable opt count) : blockIds (grownOptions opt count) =
    blockIds opt ++ (List.range' opt.blockCount.toNat count.toNat).map idOf := by
  rw [blockIds, h.blockCount, List.range_eq_range', ← List.range'_append_1, List.map_append,
    Nat.zero_add, ← List.range_eq_range', blockIds]

theorem isBlock_grown (h : Growable opt count) {id : UInt32} (hid : IsBlock opt id) :
    IsBlock (grownOptions opt count) id := by
  rw [IsBlock, h.blockCount]
  exact ⟨hid.1, Nat.le_trans hid.2 (Nat.le_add_right _ _)⟩

theorem length_freeIds_appended (h : Growable opt count) (v : Volume opt) :
    (freeIds (appended v count)).length = (freeIds v).length + count.toNat := by
  have hcount := (grownOptions opt count).blockCount.toNat_lt
  rw [h.blockCount] at hcount
  have hold : (blockIds opt).filter (fun id => ¬ isUsed ((appended v count).block id).flags) =
      freeIds v := by
    refine List.filter_congr fun id hid => ?_
    rw [appended_block_of_isBlock v count (mem_blockIds.mp hid)]
  have hnew : ((List.range' opt.blockCount.toNat count.toNat).map idOf).filter
      (fun id => ¬ isUsed ((appended v count).block id).flags) =
        (List.range' opt.blockCount.toNat count.toNat).map idOf := by
    refine List.filter_eq_self.mpr fun id hid => ?_
    obtain ⟨k, hk, rfl⟩ := List.mem_map.mp hid
    rw [List.mem_range'_1] at hk
    rw [(appended_of_not_isBlock v count (by rw [toNat_idOf (by omega)]; omega)).1,
      decide_eq_true_eq]
    change ¬ isUsed (0 : UInt8) = true
    decide
  rw [freeIds, blockIds_grown h, List.filter_append, hold, hnew, List.length_append,
    List.length_map, List.length_range']

theorem Formed.appended (hg : Growable opt count) (h : Formed v hints chains) :
    Formed (appended v count) (lowerBlock hints (opt.blockCount + 1)) chains := by
  have hc := h.chained
  have hh := h.hinted
  have hblock : ∀ n, IsInode opt n → ∀ id ∈ chains n,
      (WhefsAppend.appended v count).block id = v.block id :=
    fun n hn id hid => appended_block_of_isBlock v count ((hc.chain n hn).isBlock id hid)
  have hfirst : (opt.blockCount + 1).toNat = opt.blockCount.toNat + 1 := by
    have := blockCount_lt hg.formattable
    rw [UInt32.toNat_add]
    change (_ + 1) % 2 ^ 32 = _
    omega
  constructor
  · constructor
    · intro n hn
      refine ⟨(hc.chain n hn).path.congr fun id hid => ?_, fun id hid => ?_⟩
      · exact (congrArg Block.nextBlock (hblock n hn id hid)).symm
      · exact isBlock_grown hg ((hc.chain n hn).isBlock id hid)
    · intro n hn id hid
      rw [BlockUsed, hblock n hn id hid]
      exact hc.used n hn id hid
    · exact hc.disjoint
    · intro id hid hunused
      rcases Nat.lt_or_ge opt.blockCount.toNat id.toNat with hlt | hle
      · exact appended_of_not_isBlock v count hlt
      · have hold : IsBlock opt id := ⟨hid.1, hle⟩
        rw [BlockUsed, appended_block_of_isBlock v count hold] at hunused
        obtain ⟨hmeta, hdata⟩ := hc.blank id hold hunused
        exact ⟨(appended_block_of_isBlock v count hold).trans hmeta,
          (appended_data_of_isBlock v count hold).trans hdata⟩
  · have hlow := lt_lowerBlocks_iff hints [opt.blockCount + 1]
    refine ⟨?_, fun id hid hlt => ?_, fun n hn htwo hlt => ?_⟩
    · refine UInt32.lt_iff_toNat_lt.mp ((hlow 0).mpr ⟨?_, ?_⟩)
      · exact UInt32.lt_iff_toNat_lt.mpr hh.block_pos
      · rw [List.forall_mem_singleton, UInt32.lt_iff_toNat_lt, hfirst]
        exact Nat.succ_pos _
    · obtain ⟨hlt, hnew⟩ := (hlow id).mp hlt
      rw [List.forall_mem_singleton, UInt32.lt_iff_toNat_lt, hfirst] at hnew
      have hold : IsBlock opt id := ⟨hid.1, Nat.le_of_lt_succ hnew⟩
      rw [BlockUsed, appended_block_of_isBlock v count hold]
      exact hh.block id hold hlt
    · refine hh.inode n hn htwo ?_
      have hsame := lowerBlocks_unusedInodeStart hints [opt.blockCount + 1]
      rwa [← hsame]

theorem Opened.appended (hc : Chained v chains) {f : File} (h : Opened v chains f)
    (count : UInt32) : Opened (appended v count) chains f := by
  refine ⟨h.isInode, h.firstBlock, h.flags, h.dataSize, h.blocks.imp_right fun hblocks => ?_⟩
  rw [hblocks]
  refine List.map_congr_left fun id hid => ?_
  exact (appended_block_of_isBlock v count ((hc.chain _ h.isInode).isBlock id hid)).symm

theorem fileAt_appended (hc : Chained v chains) (count : UInt32) {id : UInt32}
    (hid : IsFileId opt id) : fileAt (appended v count) chains nodes id =
      fileAt v chains nodes id := by
  have hroom : room (appended v count) (chains id) = room v (chains id) := by
    rw [room, room]
    refine List.flatMap_congr fun i hi => ?_
    exact appended_data_of_isBlock v count ((hc.chain id hid.isInode).isBlock i hi)
  rw [fileAt, hroom]
  rfl

def withFree (s : Store) (count : Nat) : Store :=
  { s with free := s.free + count }

def withDisk (m : Mount) (disk : Disk) : Mount :=
  { m with disk }

/-- The blocks that are appended are free, and no file sees them. -/
theorem Tied.appended (hg : Growable opt count) (h : Tied S m s v hints chains) :
    Tied S (withDisk m (WhefsDisk.disk (appended v count) (lowerBlock hints (opt.blockCount + 1))))
      (withFree s count.toNat) (appended v count) (lowerBlock hints (opt.blockCount + 1))
      chains where
  disk := rfl
  formed := Formed.appended hg h.formed
  wired := by
    refine ⟨h.wired.sorted, h.wired.keys, fun x hx => ?_, h.wired.live⟩
    have hn := h.wired.node x hx
    exact ⟨hn.isFile, hn.used, Opened.appended h.formed.chained hn.opened count, hn.count,
      hn.count_pos, hn.writer, hn.stored⟩
  named := by
    have htidy := h.named.tidy
    exact ⟨⟨htidy.isSorted, htidy.sorted, htidy.maxAlloc, htidy.id_ne⟩, h.named.cached,
      h.named.unique, h.named.mem, h.named.distinct⟩
  root := ⟨h.root.name, h.root.inode⟩
  recorded := fun id hid => ⟨(h.recorded id hid).named, fun hunused =>
    ⟨((h.recorded id hid).blank hunused).name, ((h.recorded id hid).blank hunused).inode⟩⟩
  files := fun id hid => (h.files id hid).trans (fileAt_appended h.formed.chained count hid).symm
  free := by
    rw [length_freeIds_appended hg]
    exact congrArg (· + count.toNat) h.free
  handles := h.handles

end

end Iqiq.WhefsSessions
