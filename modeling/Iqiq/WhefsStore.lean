import Iqiq.Simulation
import Iqiq.WhefsInodes

namespace Iqiq.WhefsStore

open Iqiq.BlockedFile
open Iqiq.FileStore
open Iqiq.KeyedList
open Iqiq.Whefs
open Iqiq.WhefsAllocation
open Iqiq.WhefsChains
open Iqiq.WhefsDisk
open Iqiq.WhefsEncode
open Iqiq.WhefsFiles
open Iqiq.WhefsFree
open Iqiq.WhefsGrowth
open Iqiq.WhefsInodes
open Iqiq.WhefsMount
open Iqiq.WhefsNaming
open Iqiq.WhefsOpened
open Iqiq.WhefsReading
open Iqiq.WhefsTruncate
open Iqiq.WhefsVolume
open Iqiq.WhefsWriting

section

variable {opt : Options}

/-- The size of a file: that of its opened inode, or the one in the record. -/
def sizeAt (v : Volume opt) (nodes : List Node) (id : UInt32) : Nat :=
  match searchOpened nodes id with
  | some x => x.inode.dataSize.toNat
  | none => (v.inode id).dataSize.toNat

def fileAt (v : Volume opt) (chains : UInt32 → List UInt32) (nodes : List Node) (id : UInt32) :
    Option FileState :=
  if isUsed (v.inode id).flags then
    some ⟨v.name id, (v.inode id).dataSize.toNat, ⟨sizeAt v nodes id, room v (chains id)⟩⟩
  else none

def handleOf (dev : Dev) : Handle :=
  ⟨dev.key, dev.node, dev.posabs.toNat, dev.rw⟩

/-- The records of the inode are as `mkfs` has written them. -/
structure Unwritten (v : Volume opt) (id : UInt32) : Prop where
  name : v.name id = []
  inode : v.inode id = { inodeEmpty with id }

/-- An inode in use has a name, and one that is not is blank. -/
structure Recorded (v : Volume opt) (id : UInt32) : Prop where
  named : InodeUsed v id → v.name id ≠ []
  blank : ¬ InodeUsed v id → Unwritten v id

/-- The store `s` is what the mounted volume `v` stands for. -/
structure Tied (S : List UInt8 → Prop) (m : Mount) (s : Store) (v : Volume opt) (hints : Hints)
    (chains : UInt32 → List UInt32) : Prop where
  disk : m.disk = disk v hints
  formed : Formed v hints chains
  wired : Wired v chains m.nodes m.devs
  named : Named S v m.cache
  root : Unwritten v 1
  recorded : ∀ id, IsFileId opt id → Recorded v id
  files : ∀ id, IsFileId opt id → s.files id = fileAt v chains m.nodes id
  free : s.free = (freeIds v).length
  handles : s.handles = m.devs.map handleOf

variable {S : List UInt8 → Prop} {m m' : Mount} {s s' : Store} {v w : Volume opt}
  {hints hints' : Hints} {chains : UInt32 → List UInt32} {nodes nodes' : List Node} {x node : Node}
  {dev : Dev} {ids : List UInt32} {c : Content UInt8} {stored free key : Nat} {f' : File}
  {id n : UInt32}

theorem sizeAt_of_mem (h : Sorted nodes) (hx : x ∈ nodes) (hid : nodeId x = id) :
    sizeAt v nodes id = x.inode.dataSize.toNat := by
  rw [sizeAt, (searchOpened_eq_some_iff h).mpr ⟨hx, hid⟩]

theorem sizeAt_of_closed (h : Sorted nodes) (hclosed : ∀ x ∈ nodes, nodeId x ≠ id) :
    sizeAt v nodes id = (v.inode id).dataSize.toNat := by
  rw [sizeAt, (searchOpened_eq_none_iff h).mpr hclosed]

theorem sizeAt_congr (h : Sorted nodes) (h' : Sorted nodes')
    (hnodes : ∀ x, nodeId x = id → (x ∈ nodes' ↔ x ∈ nodes)) (hinode : w.inode id = v.inode id) :
    sizeAt w nodes' id = sizeAt v nodes id := by
  have hsearch : searchOpened nodes' id = searchOpened nodes id := by
    refine Option.ext fun x => ?_
    rw [searchOpened_eq_some_iff h, searchOpened_eq_some_iff h']
    exact and_congr_left fun hid => hnodes x hid
  rw [sizeAt, sizeAt, hsearch, hinode]

theorem fileAt_other (happart : Apart v chains n w) (hid : IsFileId opt id) (hne : id ≠ n)
    (h : Sorted nodes) (h' : Sorted nodes')
    (hnodes : ∀ x, nodeId x ≠ n → (x ∈ nodes' ↔ x ∈ nodes)) :
    fileAt w (Function.update chains n ids) nodes' id = fileAt v chains nodes id := by
  have hsize := sizeAt_congr h h' (fun x hx => hnodes x (hx ▸ hne)) (happart.inode id hne)
  have hroom : room w (chains id) = room v (chains id) :=
    room_congr (happart.data id hid.isInode hne)
  rw [fileAt, fileAt, hsize, happart.inode id hne, happart.name id hne,
    Function.update_of_ne hne, hroom]

theorem fileAt_of_used (hused : InodeUsed v id) : fileAt v chains nodes id =
    some ⟨v.name id, (v.inode id).dataSize.toNat, ⟨sizeAt v nodes id, room v (chains id)⟩⟩ :=
  if_pos hused

theorem fileAt_of_unused (hused : ¬ InodeUsed v id) : fileAt v chains nodes id = none :=
  if_neg hused

/-- A step that changes one file. -/
theorem Tied.change (h : Tied S m s v hints chains) (happart : Apart v chains n w) (hroot : n ≠ 1)
    (hdisk : m'.disk = WhefsDisk.disk w hints')
    (hformed : Formed w hints' (Function.update chains n ids))
    (hwired : Wired w (Function.update chains n ids) m'.nodes m'.devs)
    (hnamed : Named S w m'.cache) (hrecorded : IsFileId opt n → Recorded w n)
    (hnodes : ∀ x, nodeId x ≠ n → (x ∈ m'.nodes ↔ x ∈ m.nodes))
    (hfile : IsFileId opt n → s'.files n = fileAt w (Function.update chains n ids) m'.nodes n)
    (hfiles : ∀ id, id ≠ n → s'.files id = s.files id) (hfree : s'.free = (freeIds w).length)
    (hhandles : s'.handles = m'.devs.map handleOf) :
    Tied S m' s' w hints' (Function.update chains n ids) := by
  have hkeep : ∀ id, id ≠ n → Unwritten v id → Unwritten w id := fun id hne hold =>
    ⟨(happart.name id hne).trans hold.name, (happart.inode id hne).trans hold.inode⟩
  refine ⟨hdisk, hformed, hwired, hnamed, hkeep 1 hroot.symm h.root,
    fun id hid => ?_, fun id hid => ?_, hfree, hhandles⟩
  · rcases eq_or_ne id n with rfl | hne
    · exact hrecorded hid
    · have hold := h.recorded id hid
      refine ⟨fun hused => ?_, fun hunused => ?_⟩
      · rw [InodeUsed, happart.inode id hne] at hused
        rw [happart.name id hne]
        exact hold.named hused
      · rw [InodeUsed, happart.inode id hne] at hunused
        exact hkeep id hne (hold.blank hunused)
  · rcases eq_or_ne id n with rfl | hne
    · exact hfile hid
    · rw [hfiles id hne, h.files id hid]
      exact (fileAt_other happart hid hne h.wired.sorted hwired.sorted hnodes).symm

theorem Tied.rewire (h : Tied S m s v hints chains) (hdisk : m'.disk = m.disk)
    (hwired : Wired v chains m'.nodes m'.devs) (hcache : m'.cache = m.cache)
    (hsize : ∀ id, IsFileId opt id → sizeAt v m'.nodes id = sizeAt v m.nodes id)
    (hfiles : s'.files = s.files) (hfree : s'.free = s.free)
    (hhandles : s'.handles = m'.devs.map handleOf) : Tied S m' s' v hints chains := by
  refine ⟨hdisk.trans h.disk, h.formed, hwired, hcache ▸ h.named, h.root, h.recorded,
    fun id hid => ?_, hfree.trans h.free, hhandles⟩
  rw [hfiles, h.files id hid, fileAt, fileAt, hsize id hid]

theorem Tied.withCache (h : Tied S m s v hints chains) {cache : NameCache.Cache}
    (hcache : Named S v cache) :
    Tied S { m with cache } s v hints chains :=
  ⟨h.disk, h.formed, h.wired, hcache, h.root, h.recorded, h.files, h.free, h.handles⟩

/-! ### Calls for a device -/

theorem map_setDev (hkeys : (m.devs.map Dev.key).Nodup) (hdev : dev ∈ m.devs) (posabs : UInt32) :
    (m.devs.map handleOf).map (fun h => if h.key = dev.key then { h with pos := posabs.toNat }
      else h) = (setDev m.devs { dev with posabs }).map handleOf := by
  rw [setDev, List.map_map, List.map_map]
  refine List.map_congr_left fun d hd => ?_
  simp only [Function.comp_apply]
  change (if d.key = dev.key then _ else _) = _
  split
  · rename_i hkey
    rw [List.inj_on_of_nodup_map hkeys hd hdev hkey]
    rfl
  · rfl

/-- What a device has done to its file. -/
theorem Tied.put (h : Tied S m s v hints chains) (hdev : dev ∈ m.devs) (hnode : node ∈ m.nodes)
    (hid : nodeId node = dev.node)
    (hb : Became v chains (fileOf dev node) ids c stored free w hints' f')
    (hsync : node.writer = none → c.size = stored) :
    Tied S (m.put dev node f' (WhefsDisk.disk w hints'))
      { (s.setFile dev.node (some ⟨v.name dev.node, stored, c⟩)).setPos dev.key f'.posabs.toNat with
        free }
      w hints' (Function.update chains dev.node ids) := by
  have hold := h.wired.node node hnode
  have hwired := h.wired.put hdev hnode hid hb hsync
  have hfile : (fileOf dev node).inode.id = dev.node := hid
  have hnew : nodeId { node with inode := f'.inode, blocks := f'.blocks } = dev.node :=
    hb.id_eq.trans hfile
  have hformed := hb.formed
  have hkept := hb.kept
  have hcontent := hb.content
  have hstored := hb.dataSize
  rw [hfile] at hformed hkept hcontent hstored
  have hused : InodeUsed w dev.node := by
    rw [InodeUsed, hkept.flags, ← hid]
    exact hold.used
  have hnodes : ∀ y, y ∈ setNode m.nodes { node with inode := f'.inode, blocks := f'.blocks } ↔
      y = { node with inode := f'.inode, blocks := f'.blocks } ∨
        y ∈ m.nodes ∧ nodeId y ≠ dev.node := by
    intro y
    rw [mem_setNode hnode (hid.trans hnew.symm), hnew]
  have hname : w.name dev.node = v.name dev.node := congrFun hkept.name dev.node
  have hroot : dev.node ≠ 1 := hid ▸ hold.isFile.ne_one
  refine h.change (Kept.apart hkept) hroot rfl hformed hwired ?_ ?_ ?_ ?_ ?_ ?_ ?_
  · exact h.named.congr hkept.name
  · refine fun hfid => ⟨fun _ => ?_, fun hunused => absurd hused hunused⟩
    rw [hname]
    refine (h.recorded _ hfid).named ?_
    rw [InodeUsed, ← hid]
    exact hold.used
  · intro y hne
    change y ∈ setNode m.nodes _ ↔ _
    rw [hnodes, and_iff_left hne, or_iff_right]
    rintro rfl
    exact hne hnew
  · intro _
    have hsize := @sizeAt_of_mem _ w _ _ _ hwired.sorted ((hnodes _).mpr (Or.inl rfl)) hnew
    rw [fileAt_of_used hused, hname, hstored]
    change Function.update s.files dev.node _ dev.node = _
    rw [Function.update_self, Mount.put, hsize, ← hcontent, contentOf, hb.id_eq, hfile]
  · exact fun i hne => Function.update_of_ne hne _ _
  · exact hb.free.symm
  · change List.map _ s.handles = _
    rw [h.handles]
    exact map_setDev h.wired.keys hdev f'.posabs

/-- The mounted volume `m` stands for the store `s`. -/
def Stands (opt : Options) (S : List UInt8 → Prop) (m : Mount) (s : Store) : Prop :=
  ∃ (v : Volume opt) (hints : Hints) (chains : UInt32 → List UInt32), Tied S m s v hints chains

/-- The device at `key` and its inode, and the handle and the file that they stand for. -/
structure Live (m : Mount) (s : Store) (v : Volume opt) (chains : UInt32 → List UInt32)
    (key : Nat) (dev : Dev) (node : Node) : Prop where
  dev_mem : dev ∈ m.devs
  key_eq : dev.key = key
  node_mem : node ∈ m.nodes
  id_eq : nodeId node = dev.node
  devAt : m.devAt key = some (dev, node)
  handle : s.handle key = some (handleOf dev)
  file : s.files dev.node = some ⟨v.name dev.node, (v.inode dev.node).dataSize.toNat,
    contentOf v chains (fileOf dev node)⟩
  opened : Opened v chains (fileOf dev node)

theorem handle_eq (h : Tied S m s v hints chains) (key : Nat) :
    s.handle key = (m.devs.find? fun d => d.key = key).map handleOf := by
  rw [Store.handle, h.handles, List.find?_map]
  rfl

theorem Tied.live (h : Tied S m s v hints chains) (hlive : (s.handle key).isSome) :
    ∃ dev node, Live m s v chains key dev node := by
  have hhandle := handle_eq h key
  cases hdev : m.devs.find? fun d => d.key = key with
  | none =>
      rw [hdev] at hhandle
      rw [hhandle] at hlive
      exact absurd hlive (by decide)
  | some dev =>
      obtain ⟨hmem, rfl⟩ := (lookup_eq_some_iff h.wired.keys).mp hdev
      obtain ⟨node, hat⟩ := exists_devAt h.wired hmem
      obtain ⟨-, -, hnode, hid⟩ := (devAt_eq_some_iff h.wired).mp hat
      have hold := h.wired.node node hnode
      have hsize := @sizeAt_of_mem _ v _ _ _ h.wired.sorted hnode hid
      refine ⟨dev, node, hmem, rfl, hnode, hid, hat, ?_, ?_, Opened.move hold.opened dev.posabs⟩
      · rw [hhandle, hdev]
        rfl
      · have hused : InodeUsed v dev.node := by
          rw [InodeUsed, ← hid]
          exact hold.used
        rw [h.files dev.node (hid ▸ hold.isFile), fileAt_of_used hused, hsize, ← hid]
        rfl

theorem Live.withDev {α : Type} (h : Live m s v chains key dev node)
    (call : Dev → Node → Run α) : m.withDev key call = call dev node := by
  rw [Mount.withDev, h.devAt]

theorem Live.withHandle (h : Live m s v chains key dev node)
    (call : Handle → FileState → Answer × Store) :
    s.withHandle key call = call (handleOf dev) ⟨v.name dev.node,
      (v.inode dev.node).dataSize.toNat, contentOf v chains (fileOf dev node)⟩ := by
  have hfile : s.files (handleOf dev).file = _ := h.file
  rw [Store.withHandle, h.handle]
  simp only [hfile]

theorem Live.setFile_self (h : Live m s v chains key dev node) :
    s.setFile dev.node (some ⟨v.name dev.node, (v.inode dev.node).dataSize.toNat,
      contentOf v chains (fileOf dev node)⟩) = s := by
  rw [Store.setFile, ← h.file, Function.update_eq_self]

theorem became_same {f f' : File} (h : Formed v hints chains) (hf' : Opened v chains f')
    (hinode : f'.inode = f.inode) :
    Became v chains f (chains f.inode.id) (contentOf v chains f)
      (v.inode f.inode.id).dataSize.toNat (freeIds v).length v hints f' := by
  have hsame : Function.update chains f.inode.id (chains f.inode.id) = chains :=
    Function.update_eq_self ..
  refine ⟨?_, ?_, congrArg Inode.id hinode, Kept.refl v chains _, ?_, rfl, rfl⟩
  · rwa [hsame]
  · rwa [hsame]
  · rw [hsame, contentOf, contentOf, hinode]

theorem Live.sync (h : Tied S m s v hints chains) (hat : Live m s v chains key dev node)
    (hnone : node.writer = none) :
    (contentOf v chains (fileOf dev node)).size = (v.inode dev.node).dataSize.toNat := by
  have hstored := (h.wired.node node hat.node_mem).stored hnone
  rw [hat.id_eq] at hstored
  exact congrArg UInt32.toNat hstored

theorem Tied.move (h : Tied S m s v hints chains) (hat : Live m s v chains key dev node)
    (hf' : Opened v chains f') (hinode : f'.inode = node.inode) :
    Stands opt S (m.put dev node f' m.disk) (s.setPos key f'.posabs.toNat) := by
  have hb := @became_same _ v _ chains (fileOf dev node) f' h.formed hf' hinode
  have hid : (fileOf dev node).inode.id = dev.node := hat.id_eq
  rw [hid] at hb
  have hput := h.put hat.dev_mem hat.node_mem hat.id_eq hb (hat.sync h)
  rw [hat.setFile_self, ← h.free, ← h.disk, hat.key_eq] at hput
  exact ⟨_, _, _, hput⟩

theorem Tied.read (hopt : Formattable opt) (h : Tied S m s v hints chains) {fuel : Nat}
    (hfuel : 2 ^ 32 ≤ fuel) (hlive : (s.handle key).isSome) (n : UInt32) :
    ∃ m', m.step fuel (.read key n) = .ok ((s.step opt (.read key n)).1, m') ∧
      Stands opt S m' (s.step opt (.read key n)).2 := by
  obtain ⟨dev, node, hat⟩ := h.live hlive
  have hcount := blockCount_lt hopt
  obtain ⟨f', hrun, hmoved⟩ := inodeRead_fs hopt h.formed hat.opened
    (Nat.le_trans (by omega) hfuel) (Nat.lt_of_lt_of_le n.toNat_lt hfuel)
  have hmove := h.move hat hmoved.opened hmoved.inode
  refine ⟨m.put dev node f' m.disk, ?_, ?_⟩
  · rw [Mount.step, devRead, hat.withDev, Store.step, hat.withHandle, Store.read, h.disk, disk_fs,
      hrun]
    rfl
  · rw [Store.step, hat.withHandle, Store.read]
    rwa [hmoved.posabs, ← hat.key_eq] at hmove

theorem Tied.write (hopt : Formattable opt) (h : Tied S m s v hints chains) {fuel : Nat}
    (hfuel : 2 ^ 32 ≤ fuel) (hlive : (s.handle key).isSome) (now : UInt32) {src : List UInt8}
    (hsrc : src.length < 2 ^ 32) :
    ∃ m', m.step fuel (.write now key src) = .ok ((s.step opt (.write now key src)).1, m') ∧
      Stands opt S m' (s.step opt (.write now key src)).2 := by
  obtain ⟨dev, node, hat⟩ := h.live hlive
  have hcount := blockCount_lt hopt
  rw [Mount.step, devWrite, hat.withDev, Store.step, hat.withHandle, Store.write]
  change ∃ m', (if ¬ dev.rw = true then _ else _) >>= _ = Except.ok (Prod.fst (if ¬ dev.rw = true
    then _ else _), m') ∧ Stands opt S m' (Prod.snd (if ¬ dev.rw = true then _ else _))
  cases hrw : dev.rw with
  | false => exact ⟨m, rfl, v, hints, chains, h⟩
  | true =>
      rw [if_neg (not_not_intro rfl), if_neg (not_not_intro rfl)]
      have hid : (fileOf dev node).inode.id = dev.node := hat.id_eq
      obtain ⟨k, w, hints', f', hrun, hwrote⟩ := @inodeWrite_disk _ _ _ _ _ _ _ now hopt
        h.formed hat.opened (Nat.le_trans (by omega) hfuel) hsrc _ (Nat.lt_of_lt_of_le hsrc hfuel)
      have hb := Wrote.became hwrote
      have hposabs := hwrote.posabs
      rw [← h.disk] at hrun
      rw [hid] at hb
      have hwriter := h.wired.writer_of_rw hat.dev_mem hat.node_mem hat.id_eq hrw
      have hput := h.put hat.dev_mem hat.node_mem hat.id_eq hb (by simp [hwriter])
      rw [hposabs] at hput
      rw [h.free]
      refine ⟨m.put dev node f' (WhefsDisk.disk w hints'), ?_, _, _, _, hput⟩
      rw [hrun]
      rfl

theorem Live.put_eq (hwired : Wired v chains m.nodes m.devs) (hat : Live m s v chains key dev node)
    (posabs : UInt32) (d : Disk) : m.put dev node { fileOf dev node with posabs } d =
      { m with disk := d, devs := setDev m.devs { dev with posabs } } := by
  have hnodes : setNode m.nodes node = m.nodes :=
    @replace_self _ _ _ nodeId _ _ hwired.sorted.nodup hat.node_mem
  rw [Mount.put]
  change (⟨d, m.cache, setNode m.nodes node, _⟩ : Mount) = _
  rw [hnodes]

theorem Live.setDev_self (hwired : Wired v chains m.nodes m.devs)
    (hat : Live m s v chains key dev node) : setDev m.devs { dev with posabs := dev.posabs } =
      m.devs :=
  @replace_self _ _ _ Dev.key _ _ hwired.keys hat.dev_mem

theorem Live.setPos_self (h : Tied S m s v hints chains) (hat : Live m s v chains key dev node)
    (hhandles : s'.handles = s.handles) : s'.setPos dev.key dev.posabs.toNat = s' := by
  have hmap := map_setDev h.wired.keys hat.dev_mem dev.posabs
  rw [hat.setDev_self h.wired, ← h.handles, ← hhandles] at hmap
  rw [Store.setPos, hmap]

theorem Tied.putFile (h : Tied S m s v hints chains) (hat : Live m s v chains key dev node)
    (hb : Became v chains (fileOf dev node) ids c stored free w hints' f')
    (hposabs : f'.posabs = dev.posabs) (hsync : node.writer = none → c.size = stored) :
    Tied S (m.put dev node f' (WhefsDisk.disk w hints'))
      { s.setFile dev.node (some ⟨v.name dev.node, stored, c⟩) with free }
      w hints' (Function.update chains dev.node ids) := by
  have hput := h.put hat.dev_mem hat.node_mem hat.id_eq hb hsync
  have hpos : (s.setFile dev.node (some ⟨v.name dev.node, stored, c⟩)).setPos dev.key
      dev.posabs.toNat = s.setFile dev.node (some ⟨v.name dev.node, stored, c⟩) :=
    hat.setPos_self h rfl
  rwa [hposabs, hpos] at hput

/-- `posabs` after a seek to `target`. -/
def wrapped (target : Int) : UInt32 :=
  UInt32.ofNat (target % 2 ^ 32).toNat

theorem toNat_wrapped (target : Int) : (wrapped target).toNat = (target % 2 ^ 32).toNat :=
  UInt32.toNat_ofNat_of_lt' (by change _ < 2 ^ 32; omega)

theorem Tied.seekTo (h : Tied S m s v hints chains) (hat : Live m s v chains key dev node)
    (target : Int) :
    Stands opt S { m with devs := setDev m.devs { dev with posabs := wrapped target } }
      (s.setPos key (target % 2 ^ 32).toNat) := by
  have hmove := h.move hat (Opened.move hat.opened (wrapped target)) rfl
  rwa [hat.put_eq h.wired, toNat_wrapped] at hmove

theorem Tied.seek (h : Tied S m s v hints chains) {fuel : Nat} (hlive : (s.handle key).isSome)
    (pos : Int) (whence : Whence) :
    ∃ m', m.step fuel (.seek key pos whence) =
        .ok ((s.step opt (.seek key pos whence)).1, m') ∧
      Stands opt S m' (s.step opt (.seek key pos whence)).2 := by
  obtain ⟨dev, node, hat⟩ := h.live hlive
  have hto := h.seekTo hat
  have hanswer : ∀ target : Int, Answer.position ((some (wrapped target)).map UInt32.toNat) =
      .position (some (target % 2 ^ 32).toNat) := by
    intro target
    rw [Option.map_some, toNat_wrapped]
  rw [← hat.key_eq] at hto
  rw [Mount.step, devSeek, hat.withDev, Store.step, hat.withHandle, Store.seek.eq_def]
  cases whence with
  | seekSet =>
      simp only
      split
      · exact ⟨m, rfl, v, hints, chains, h⟩
      · exact ⟨_, congrArg (fun a => Except.ok (a, _)) (hanswer pos), hto pos⟩
  | seekCur => exact ⟨_, congrArg (fun a => Except.ok (a, _)) (hanswer _), hto _⟩
  | seekEnd => exact ⟨_, congrArg (fun a => Except.ok (a, _)) (hanswer _), hto _⟩

theorem Tied.flushed (h : Tied S m s v hints chains) (hat : Live m s v chains key dev node) :
    Tied S { m with disk := WhefsDisk.disk (v.setInode node.inode) (lowerInode hints node.inode) }
      (s.setFile dev.node (some (Store.flushed ⟨v.name dev.node, (v.inode dev.node).dataSize.toNat,
        contentOf v chains (fileOf dev node)⟩)))
      (v.setInode node.inode) (lowerInode hints node.inode) chains := by
  have hb := @became_setInode opt v hints chains (fileOf dev node) node.inode h.formed hat.opened
    rfl rfl rfl
  have hput := h.putFile hat hb rfl fun _ => rfl
  have hid : (fileOf dev node).inode.id = dev.node := hat.id_eq
  have hsame : Function.update chains dev.node (chains dev.node) = chains :=
    Function.update_eq_self ..
  have heq := hat.put_eq h.wired dev.posabs
    (WhefsDisk.disk (v.setInode node.inode) (lowerInode hints node.inode))
  rw [hat.setDev_self h.wired] at heq
  have hcontent : contentOf v chains (fileOf dev node) =
      ⟨node.inode.dataSize.toNat, room v (chains dev.node)⟩ := by
    rw [contentOf, hid]
    rfl
  rw [hid, hsame, ← h.free] at hput
  rw [Store.flushed, hcontent]
  exact heq ▸ hput

theorem Tied.flush (hopt : Formattable opt) (h : Tied S m s v hints chains) {fuel : Nat}
    (hlive : (s.handle key).isSome) :
    ∃ m', m.step fuel (.flush key) = .ok ((s.step opt (.flush key)).1, m') ∧
      Stands opt S m' (s.step opt (.flush key)).2 := by
  obtain ⟨dev, node, hat⟩ := h.live hlive
  have hflush := @inodeFlush_disk opt v hints hopt node.inode hat.opened.isInode
  rw [Mount.step, devFlush, hat.withDev, Store.step, hat.withHandle, Store.flush, h.disk, hflush]
  change ∃ m', (if ¬ dev.rw = true then _ else _) >>= _ = Except.ok (_, m') ∧
    Stands opt S m' (if dev.rw = true then _ else _)
  cases hrw : dev.rw with
  | false => exact ⟨m, rfl, v, hints, chains, h⟩
  | true => exact ⟨_, rfl, _, _, _, h.flushed hat⟩

theorem held_contentOf (hopt : Formattable opt) (f : File) :
    Store.held opt (contentOf v chains f) = (chains f.inode.id).length := by
  rw [Store.held, contentOf, length_room, Nat.mul_div_cancel _ (blockSize_pos hopt)]

/-- What `whio_dev_inode_trunc` makes of a file, for a size that it does not have. -/
theorem trunc_cases (hopt : Formattable opt) (h : Formed v hints chains) {f : File}
    (hf : Opened v chains f) {fuel : Nat} (hfuel : opt.blockCount.toNat ≤ fuel) {off : UInt32}
    (hoff : off ≠ 0) (hne : off ≠ f.inode.dataSize)
    (hkeep : off < f.inode.dataSize →
      (off.toNat - 1) / opt.blockSize.toNat + 1 < (chains f.inode.id).length ∨
        (off.toNat - 1) / opt.blockSize.toNat + 1 = 1 ∧ (chains f.inode.id).length = 1) :
    ∃ rc c free ids w hints' f', inodeTrunc fuel (disk v hints) f off.toNat =
        .ok (rc, f', disk w hints') ∧
      Became v chains f ids c off.toNat free w hints' f' ∧ f'.posabs = f.posabs ∧
      (rc, c, free) =
        if f.inode.dataSize < off then
          (growCode opt ((chains f.inode.id).length + (freeIds v).length) off,
            enlarge opt.blockSize.toNat opt.blockCount.toNat 0 (freeIds v).length
              (contentOf v chains f) off.toNat)
        else
          (.of .ok,
            cut opt.blockSize.toNat 0 (contentOf v chains f) off.toNat
              ((off.toNat - 1) / opt.blockSize.toNat + 1)
              ((off.toNat - 1) / opt.blockSize.toNat * opt.blockSize.toNat +
                off.toNat % opt.blockSize.toNat),
            (freeIds v).length +
              ((chains f.inode.id).length - ((off.toNat - 1) / opt.blockSize.toNat + 1))) := by
  rcases Decidable.em (f.inode.dataSize < off) with hgrow | hgrow
  · obtain ⟨ids, w, hints', f', hrun, hb, hpos⟩ := inodeTrunc_grow hopt h hf hfuel hgrow
    rw [if_pos hgrow]
    exact ⟨_, _, _, ids, w, hints', f', hrun, hb, hpos, rfl⟩
  · have hsize : off < f.inode.dataSize := by
      rw [UInt32.lt_iff_toNat_lt] at hgrow ⊢
      have := UInt32.toNat_inj.ne.mpr hne
      omega
    rw [if_neg hgrow]
    rcases hkeep hsize with hless | ⟨hone, hlen⟩
    · obtain ⟨ids, w, hints', f', hrun, hb, hpos⟩ := inodeTrunc_cut hopt h hf hfuel hoff hsize hless
      exact ⟨_, _, _, ids, w, hints', f', hrun, hb, hpos, rfl⟩
    · obtain ⟨w, hints', hrun, hb⟩ :=
        inodeTrunc_last hopt h hf hfuel hoff hsize (hone.trans hlen.symm)
      have htake : ((chains f.inode.id).map w.block).take 1 = (chains f.inode.id).map w.block :=
        List.take_of_length_le (by rw [List.length_map, hlen])
      rw [htake] at hrun
      have hnone :
          (chains f.inode.id).length - ((off.toNat - 1) / opt.blockSize.toNat + 1) = 0 := by
        omega
      rw [hnone]
      exact ⟨_, _, _, _, w, hints', _, hrun, hb, rfl, rfl⟩

theorem Tied.truncated (h : Tied S m s v hints chains) (hat : Live m s v chains key dev node)
    (hrw : dev.rw = true) {len : Int} (hneg : ¬ len < 0) {fuel : Nat} {rc : Code}
    (hrun : inodeTrunc fuel m.disk (fileOf dev node) len =
      .ok (rc, f', WhefsDisk.disk w hints'))
    (hb : Became v chains (fileOf dev node) ids c stored free w hints' f')
    (hpos : f'.posabs = dev.posabs) :
    ∃ m', m.step fuel (.trunc key len) = .ok (.code rc, m') ∧
      Stands opt S m' { s.setFile dev.node (some ⟨v.name dev.node, stored, c⟩) with free } := by
  have hwriter := h.wired.writer_of_rw hat.dev_mem hat.node_mem hat.id_eq hrw
  refine ⟨_, ?_, _, _, _, h.putFile hat hb hpos (by simp [hwriter])⟩
  rw [Mount.step, devTrunc, hat.withDev, if_neg hneg, if_neg (not_not_intro hrw), hrun]
  rfl

theorem Tied.trunc (hopt : Formattable opt) (h : Tied S m s v hints chains) {fuel : Nat}
    (hfuel : 2 ^ 32 ≤ fuel) {len : Int} (hlive : (s.handle key).isSome)
    (hallowed : ∀ h f, s.handle key = some h → s.files h.file = some f →
      Store.TruncAllowed opt f len) :
    ∃ m', m.step fuel (.trunc key len) = .ok ((s.step opt (.trunc key len)).1, m') ∧
      Stands opt S m' (s.step opt (.trunc key len)).2 := by
  obtain ⟨dev, node, hat⟩ := h.live hlive
  obtain ⟨hlen, hshrink⟩ := hallowed _ _ hat.handle hat.file
  have hcount := blockCount_lt hopt
  have hid : (fileOf dev node).inode.id = dev.node := hat.id_eq
  rw [Store.step, hat.withHandle, Store.trunc]
  simp only
  rcases Decidable.em (len < 0) with hneg | hneg
  · rw [Mount.step, devTrunc, hat.withDev, if_pos hneg, if_pos hneg]
    exact ⟨m, rfl, v, hints, chains, h⟩
  cases hrw : dev.rw with
  | false =>
      have hrw' : ¬ dev.rw = true := by simp [hrw]
      have hrw'' : ¬ (handleOf dev).rw = true := hrw'
      rw [Mount.step, devTrunc, hat.withDev, if_neg hneg, if_neg hneg, if_pos hrw', if_pos hrw'']
      exact ⟨m, rfl, v, hints, chains, h⟩
  | true =>
      have hrw' : (handleOf dev).rw = true := hrw
      rw [if_neg hneg, if_neg (not_not_intro hrw')]
      have hoff : (UInt32.ofNat len.toNat).toNat = len.toNat :=
        UInt32.toNat_ofNat_of_lt' (by change _ < 2 ^ 32; omega)
      have hcast : ((UInt32.ofNat len.toNat).toNat : Int) = len := by omega
      have hheld := @held_contentOf _ v chains hopt (fileOf dev node)
      generalize UInt32.ofNat len.toNat = off at hoff hcast ⊢
      obtain rfl := hcast
      rcases Decidable.em (off.toNat = node.inode.dataSize.toNat) with hsame | hne
      · have hsize : (fileOf dev node).inode.dataSize = off := (UInt32.toNat_inj.mp hsame).symm
        have hrun : inodeTrunc fuel m.disk (fileOf dev node) off.toNat =
            .ok (.of .ok, fileOf dev node, WhefsDisk.disk v hints) := by
          rw [inodeTrunc, h.disk]
          simp only
          rw [if_neg hneg, if_pos (by rw [Int.toNat_natCast, UInt32.ofNat_toNat, hsize])]
        have hb := @became_same _ v hints chains _ (fileOf dev node) h.formed hat.opened rfl
        obtain ⟨m', hstep, hstands⟩ := h.truncated hat hrw hneg hrun hb rfl
        have hsame' : off.toNat = (contentOf v chains (fileOf dev node)).size := hsame
        rw [hid, hat.setFile_self, ← h.free] at hstands
        rw [if_pos hsame']
        exact ⟨m', hstep, hstands⟩
      · have hne' : ¬ off.toNat = (contentOf v chains (fileOf dev node)).size := hne
        rw [if_neg hne']
        rcases Decidable.em (off = 0) with rfl | hpos
        · have hsize : (fileOf dev node).inode.dataSize ≠ 0 := fun heq => hne (by
            rw [← heq]
            rfl)
          have hzero : ((0 : UInt32).toNat : Int) = 0 := rfl
          obtain ⟨w, hints', f', hrun, hb, hposabs⟩ :=
            inodeTrunc_zero hopt h.formed hat.opened hsize fuel
          rw [← h.disk] at hrun
          obtain ⟨m', hstep, hstands⟩ := h.truncated hat hrw hneg hrun hb hposabs
          rw [← h.free] at hstands
          rw [if_pos hzero]
          exact ⟨m', hstep, hstands⟩
        · have hone := toNat_pos hpos
          have hpos' : ¬ (off.toNat : Int) = 0 := by omega
          have hkeep := hshrink (by omega)
          rw [hheld] at hkeep
          obtain ⟨rc, c, free, ids, w, hints', f', hrun, hb, hposabs, hres⟩ :=
            @trunc_cases _ v hints chains hopt h.formed (fileOf dev node) hat.opened fuel
              (Nat.le_trans (by omega) hfuel) off hpos
              (fun heq => hne (congrArg UInt32.toNat heq))
              fun hlt => hkeep (UInt32.lt_iff_toNat_lt.mp hlt)
          rw [← h.disk] at hrun
          obtain ⟨m', hstep, hstands⟩ := h.truncated hat hrw hneg hrun hb hposabs
          rw [if_neg hpos', hheld, h.free]
          have hiff : (contentOf v chains (fileOf dev node)).size < off.toNat ↔
              (fileOf dev node).inode.dataSize < off := UInt32.lt_iff_toNat_lt.symm
          rcases Decidable.em ((fileOf dev node).inode.dataSize < off) with hgrow | hgrow
          · rw [if_pos hgrow] at hres
            obtain ⟨rfl, hrest⟩ := Prod.mk.inj hres
            obtain ⟨rfl, rfl⟩ := Prod.ext_iff.mp hrest
            rw [if_pos (hiff.mpr hgrow)]
            exact ⟨m', hstep, hstands⟩
          · rw [if_neg hgrow] at hres
            obtain ⟨rfl, hrest⟩ := Prod.mk.inj hres
            obtain ⟨rfl, rfl⟩ := Prod.mk.inj hrest
            rw [if_neg (mt hiff.mp hgrow)]
            exact ⟨m', hstep, hstands⟩

theorem Live.flushed (h : Tied S m s v hints chains) (hat : Live m s v chains key dev node) :
    Live { m with disk := WhefsDisk.disk (v.setInode node.inode) (lowerInode hints node.inode) }
      (s.setFile dev.node (some (Store.flushed ⟨v.name dev.node, (v.inode dev.node).dataSize.toNat,
        contentOf v chains (fileOf dev node)⟩)))
      (v.setInode node.inode) chains key dev node := by
  have hlive : ((s.setFile dev.node (some (Store.flushed ⟨v.name dev.node,
      (v.inode dev.node).dataSize.toNat, contentOf v chains (fileOf dev node)⟩))).handle
        key).isSome := by
    change (s.handle key).isSome
    rw [hat.handle]
    rfl
  obtain ⟨dev', node', hat'⟩ := (h.flushed hat).live hlive
  have hsame : some (dev', node') = some (dev, node) := hat'.devAt.symm.trans hat.devAt
  obtain ⟨rfl, rfl⟩ := Prod.mk.inj (Option.some.inj hsame)
  exact hat'

/-- What `whefs_inode_close` makes of an opened inode, for a device that is its writer or not. -/
def released (x : Node) (rw : Bool) : Node :=
  { x with
    writer := if rw then none else x.writer
    openCount := x.openCount - 1 }

def leave (nodes : List Node) (x : Node) : List Node :=
  if x.openCount = 0 then nodes.filter fun y => y.inode.id ≠ nodeId x else setNode nodes x

theorem Tied.left (h : Tied S m s v hints chains) (hat : Live m s v chains key dev node)
    (hsync : dev.rw = true → node.inode.dataSize = (v.inode dev.node).dataSize) :
    Tied S { m with
        nodes := leave m.nodes (released node dev.rw)
        devs := m.devs.filter fun d => d.key ≠ key }
      { s with handles := s.handles.filter fun h => h.key ≠ key } v hints chains := by
  have hid : nodeId (released node dev.rw) = dev.node := hat.id_eq
  have hwired := h.wired.close hat.dev_mem hat.node_mem hat.id_eq hsync
    (x := released node dev.rw) rfl
  rw [hat.key_eq] at hwired
  have hleave : (if (released node dev.rw).openCount = 0 then
      m.nodes.filter fun y => y.inode.id ≠ dev.node else setNode m.nodes (released node dev.rw)) =
        leave m.nodes (released node dev.rw) := by
    rw [leave, hid]
  rw [hleave] at hwired
  refine h.rewire rfl hwired rfl (fun id hfile => ?_) rfl rfl ?_
  · have hold := @sizeAt_of_mem _ v _ _ _ h.wired.sorted hat.node_mem hat.id_eq
    rcases Decidable.em ((released node dev.rw).openCount = 0) with hzero | hne
    · have hnodes : leave m.nodes (released node dev.rw) =
          m.nodes.filter fun y => y.inode.id ≠ dev.node := by
        rw [← hleave, if_pos hzero]
      rw [hnodes] at hwired
      have hmem : ∀ y : Node, (y ∈ m.nodes.filter fun y => y.inode.id ≠ dev.node) ↔
          y ∈ m.nodes ∧ nodeId y ≠ dev.node := by
        intro y
        rw [List.mem_filter, decide_eq_true_eq]
        rfl
      change sizeAt v (leave m.nodes (released node dev.rw)) id = _
      rw [hnodes]
      rcases eq_or_ne id dev.node with rfl | hne
      · -- the record has got the size: a device that can write has written it
        have hsize : node.inode.dataSize = (v.inode dev.node).dataSize := by
          cases hrw : dev.rw with
          | true => exact hsync hrw
          | false =>
              rw [← hat.id_eq]
              refine (h.wired.node node hat.node_mem).stored ?_
              cases hwriter : node.writer with
              | none => rfl
              | some k =>
                  obtain ⟨d, hd, -, hdn, hdrw⟩ :=
                    ((h.wired.node node hat.node_mem).writer k).mp hwriter
                  have hother : d.key ≠ key := by
                    intro hkey
                    rw [← hat.key_eq] at hkey
                    rw [List.inj_on_of_nodup_map h.wired.keys hd hat.dev_mem hkey, hrw] at hdrw
                    exact absurd hdrw (by decide)
                  obtain ⟨y, hy, hyd⟩ := hwired.live d (List.mem_filter.mpr ⟨hd, by simpa⟩)
                  exact absurd (hyd.trans (hdn.trans hat.id_eq)) ((hmem y).mp hy).2
        rw [hold, sizeAt_of_closed hwired.sorted fun y hy => ((hmem y).mp hy).2, hsize]
      · exact sizeAt_congr h.wired.sorted hwired.sorted
          (fun y hy => (hmem y).trans (and_iff_left (hy ▸ hne))) rfl
    · have hnodes : leave m.nodes (released node dev.rw) =
          setNode m.nodes (released node dev.rw) := by
        rw [leave, if_neg hne]
      rw [hnodes] at hwired
      have hmem : ∀ y, y ∈ setNode m.nodes (released node dev.rw) ↔
          y = released node dev.rw ∨ y ∈ m.nodes ∧ nodeId y ≠ dev.node := by
        intro y
        rw [mem_setNode hat.node_mem (hat.id_eq.trans hid.symm), hid]
      change sizeAt v (leave m.nodes (released node dev.rw)) id = _
      rw [hnodes]
      rcases eq_or_ne id dev.node with rfl | hne
      · rw [hold, sizeAt_of_mem hwired.sorted ((hmem _).mpr (Or.inl rfl)) hid]
        rfl
      · refine sizeAt_congr h.wired.sorted hwired.sorted (fun y hy => ?_) rfl
        rw [hmem, and_iff_left (hy ▸ hne), or_iff_right]
        rintro rfl
        exact hne (hy.symm.trans hid)
  · change List.filter _ s.handles = _
    rw [h.handles, List.filter_map]
    rfl

theorem inodeClose_eq (h : Tied S m s v hints chains) (hat : Live m s v chains key dev node)
    (devs : List Dev) (d : Disk) :
    inodeClose { m with disk := d, devs } dev.node (some key) =
      (.of .ok, { m with
        disk := if dev.rw then (inodeFlush d node.inode).2 else d
        nodes := leave m.nodes (released node dev.rw)
        devs }) := by
  have hsearch : searchOpened m.nodes dev.node = some node :=
    (searchOpened_eq_some_iff h.wired.sorted).mpr ⟨hat.node_mem, hat.id_eq⟩
  have hwriter : decide (node.writer ≠ none ∧ node.writer = some key) = dev.rw := by
    cases hrw : dev.rw with
    | true =>
        rw [decide_eq_true_eq, h.wired.writer_of_rw hat.dev_mem hat.node_mem hat.id_eq hrw,
          hat.key_eq]
        exact ⟨by simp, rfl⟩
    | false =>
        rw [decide_eq_false_iff_not]
        rintro ⟨-, hkey⟩
        rw [← hat.key_eq] at hkey
        rw [h.wired.rw_of_writer hat.dev_mem hat.node_mem hkey] at hrw
        exact absurd hrw (by decide)
  have hid : nodeId (released node dev.rw) = dev.node := hat.id_eq
  rw [inodeClose]
  simp only [hsearch, hwriter]
  rw [leave, hid]
  rfl

theorem setInode_idem (v : Volume opt) (ino : Inode) :
    (v.setInode ino).setInode ino = v.setInode ino := by
  rw [Volume.setInode]
  simp only [Volume.setInode, Function.update_idem]

/-- Closing a device writes nothing but the record of its inode, which is in use. -/
theorem Tied.closing (hopt : Formattable opt) (h : Tied S m s v hints chains)
    (hlive : (s.handle key).isSome) :
    ∃ (m' : Mount) (w : Volume opt), devClose m key = .ok (.of .ok, m') ∧
      (s.step opt (.close key)).1 = .code (.of .ok) ∧ w.hints = v.hints ∧
      Tied S m' (s.step opt (.close key)).2 w hints chains := by
  obtain ⟨dev, node, hat⟩ := h.live hlive
  have hkey : (handleOf dev).key = key := hat.key_eq
  rw [devClose, hat.withDev, Store.step, hat.withHandle, Store.close, hkey]
  simp only
  rw [inodeClose_eq h hat]
  cases hrw : dev.rw with
  | false =>
      have hrw' : ¬ (handleOf dev).rw = true := by
        change ¬ dev.rw = true
        simp [hrw]
      have hleft := h.left hat (by simp [hrw])
      rw [hrw] at hleft
      rw [if_neg hrw']
      exact ⟨_, v, rfl, trivial, rfl, hleft⟩
  | true =>
      have hrw' : (handleOf dev).rw = true := hrw
      have hused : isUsed node.inode.flags = true := by
        have hflags := hat.opened.flags
        change node.inode.flags = _ at hflags
        rw [hflags]
        exact (h.wired.node node hat.node_mem).used
      have hlower : lowerInode hints node.inode = hints := lowerInode_of_used _ hused
      have hflush := @inodeFlush_disk opt v hints hopt node.inode hat.opened.isInode
      have hflush' := @inodeFlush_disk opt (v.setInode node.inode) hints hopt node.inode
        hat.opened.isInode
      rw [hlower] at hflush
      rw [setInode_idem, hlower] at hflush'
      have hself : ((v.setInode node.inode).inode dev.node).dataSize = node.inode.dataSize := by
        rw [Volume.setInode_inode, ← hat.id_eq]
        exact congrArg Inode.dataSize (Function.update_self ..)
      have hleft := (h.flushed hat).left (hat.flushed h) fun _ => hself.symm
      rw [hrw, hlower] at hleft
      rw [if_pos hrw', h.disk, if_pos rfl, if_pos rfl, hflush]
      simp only
      rw [hflush']
      exact ⟨_, v.setInode node.inode, rfl, trivial, rfl, hleft⟩

theorem Tied.close (hopt : Formattable opt) (h : Tied S m s v hints chains) {fuel : Nat}
    (hlive : (s.handle key).isSome) :
    ∃ m', m.step fuel (.close key) = .ok ((s.step opt (.close key)).1, m') ∧
      Stands opt S m' (s.step opt (.close key)).2 := by
  obtain ⟨m', w, hclose, hanswer, -, hw⟩ := h.closing hopt hlive
  refine ⟨m', ?_, w, hints, chains, hw⟩
  rw [Mount.step, hclose, hanswer]
  rfl

end

end Iqiq.WhefsStore
