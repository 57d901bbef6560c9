import Iqiq.ScanCoverage
import Iqiq.StoreInvariants

namespace Iqiq.ScannedStore

open Iqiq.BlockedFile
open Iqiq.FileStore
open Iqiq.NameCache
open Iqiq.RecordTable
open Iqiq.StoreEffects
open Iqiq.StoreInvariants
open Iqiq.UnpackScan
open Iqiq.Whefs
open Iqiq.WhefsAllocation
open Iqiq.WhefsChains
open Iqiq.WhefsDisk
open Iqiq.WhefsEncode
open Iqiq.WhefsFiles
open Iqiq.WhefsGrowth
open Iqiq.WhefsInodes
open Iqiq.WhefsMount
open Iqiq.WhefsNames
open Iqiq.WhefsNaming hiding Named
open Iqiq.WhefsOpened
open Iqiq.WhefsOpening
open Iqiq.WhefsReading
open Iqiq.WhefsSessions
open Iqiq.WhefsStore
open Iqiq.WhefsVolume
open Iqiq.WhefsWriting

/-- The bytes of a file. -/
def bytesOf (c : Content UInt8) : List UInt8 :=
  c.room.take c.size

section

variable {opt : Options} {S : List UInt8 → Prop} {m : Mount} {s : Store} {v : Volume opt}
  {hints : Hints} {chains : UInt32 → List UInt32} {id : UInt32}

theorem getElem?_eq_window {α : Type} (xs : List α) (p : Nat) : xs[p]? = (window xs p 1)[0]? := by
  rw [window, List.getElem?_take_of_lt Nat.zero_lt_one, List.getElem?_drop, Nat.add_zero]

theorem chainByte_fs (hopt : Formattable opt) {ids : List UInt32}
    (hids : ∀ id ∈ ids, IsBlock opt id) {k : Nat} (hk : k < (room v ids).length) :
    chainByte v.fs (ids.map v.block) k = (room v ids)[k]? := by
  have hbs := blockSize_pos hopt
  rw [length_room, Nat.mul_comm] at hk
  have hquot : k / opt.blockSize.toNat < ids.length := Nat.div_lt_of_lt_mul hk
  have hrem : k % opt.blockSize.toNat + 1 ≤ opt.blockSize.toNat := Nat.mod_lt k hbs
  have hget : ids[k / opt.blockSize.toNat]? = some ids[k / opt.blockSize.toNat] :=
    List.getElem?_eq_getElem hquot
  have hblock := hids _ (List.getElem_mem hquot)
  have hread := v.readAt_data hopt hblock hrem
  rw [chainByte, List.getElem?_map, fs_options, hget, getElem?_eq_window (room v ids),
    window_room hget hrem, ← hread]
  exact getElem?_eq_window v.image _

theorem stores_fs (hopt : Formattable opt) (h : Formed v hints chains) (hid : IsInode opt id)
    (hsize : (v.inode id).dataSize.toNat ≤ (room v (chains id)).length) :
    Stores v.fs (v.inode id) ((chains id).map v.block)
      (bytesOf ⟨(v.inode id).dataSize.toNat, room v (chains id)⟩) := by
  have hchain := h.chained.chain id hid
  have hids : ((chains id).map v.block).map Block.id = chains id := by
    rw [List.map_map]
    refine (List.map_congr_left fun i _ => ?_).trans (List.map_id _)
    exact v.block_id i
  constructor
  · rw [v.inode_id]
    exact Volume.inodeIdIsValid_fs.mpr hid
  · exact hchain.isChain hopt
  · rw [hids]
    exact hchain.nodup
  · intro hzero
    have := blockSize_pos hopt
    rw [fs_options] at hzero
    rw [hzero] at this
    exact absurd this (by decide)
  · rw [bytesOf, List.length_take]
    exact Nat.min_eq_left hsize
  · intro k hk
    rw [bytesOf, List.length_take] at hk
    rw [bytesOf, List.getElem?_take_of_lt (Nat.lt_of_lt_of_le hk (Nat.min_le_left _ _))]
    exact chainByte_fs hopt hchain.isBlock (Nat.lt_of_lt_of_le hk (Nat.min_le_right _ _))

theorem named_fs (hopt : Formattable opt) (h : Tied S m s v hints chains) :
    ScanCoverage.Named v.fs id ↔ IsFileId opt id ∧ InodeUsed v id := by
  constructor
  · rintro ⟨hvalid, hname⟩
    have hid := Volume.inodeIdIsValid_fs.mp hvalid
    rw [recordName_fs hopt v hid] at hname
    have hone : id.toNat ≠ 1 := by
      intro hone
      obtain rfl : id = 1 := UInt32.toNat_inj.mp hone
      exact hname h.root.name
    have hfile : IsFileId opt id := ⟨by have := hid.1; omega, hid.2⟩
    refine ⟨hfile, ?_⟩
    by_contra hunused
    exact hname ((h.recorded id hfile).blank hunused).name
  · rintro ⟨hfile, hused⟩
    refine ⟨Volume.inodeIdIsValid_fs.mpr hfile.isInode, ?_⟩
    rw [recordName_fs hopt v hfile.isInode]
    exact (h.recorded id hfile).named hused

theorem file_of_used (h : Tied S m s v hints chains) (hdevs : m.devs = []) (hfile : IsFileId opt id)
    (hused : InodeUsed v id) : s.files id = some ⟨v.name id, (v.inode id).dataSize.toNat,
      ⟨(v.inode id).dataSize.toNat, room v (chains id)⟩⟩ := by
  have hwired := h.wired
  rw [hdevs] at hwired
  rw [h.files id hfile, nodes_nil hwired, fileAt_of_used hused]
  rfl

/-- A volume that is closed, as the archive that the scan finds. -/
def archiveOf (hopt : Formattable opt) (h : Tied S m s v hints chains) (hdevs : m.devs = [])
    (hbacked : Backed opt s) : ScanCoverage.Archive where
  image := v.image
  fs := v.fs
  inode := v.inode
  blocks id := (chains id).map v.block
  bytes id := bytesOf ⟨(v.inode id).dataSize.toNat, room v (chains id)⟩
  opened := openfsStage2_image v hopt
  filenameLength_le := hopt.filenameLength_le
  inode_intact id hid :=
    ⟨v.inodeIdRead_eq hopt (Volume.inodeIdIsValid_fs.mp hid) inodeEmpty, v.inode_id id⟩
  name_intact _ hid := nameIntact_fs hopt v (Volume.inodeIdIsValid_fs.mp hid)
  names_distinct j k hj hk heq := by
    obtain ⟨hfile, hused⟩ := (named_fs hopt h).mp hj
    obtain ⟨hfile', -⟩ := (named_fs hopt h).mp hk
    rw [recordName_fs hopt v hfile.isInode, recordName_fs hopt v hfile'.isInode] at heq
    exact h.named.distinct j k hfile hfile' ((h.recorded j hfile).named hused) heq
  stores id hid := by
    obtain ⟨hfile, hused⟩ := (named_fs hopt h).mp hid
    exact stores_fs hopt h.formed hfile.isInode
      (hbacked id hfile _ (contents_of_file (file_of_used h hdevs hfile hused)))

theorem noTwins_archiveOf (hopt : Formattable opt) (hS : HashNames S)
    (h : Tied S m s v hints chains) (hdevs : m.devs = []) (hbacked : Backed opt s) {σ : Type}
    (handle : σ → File → Int × σ) (world : σ) :
    (archiveOf hopt h hdevs hbacked).NoTwins handle world := by
  intro p _ j k hj hk hlt _ hhash
  obtain ⟨hfile, hused⟩ := (named_fs hopt h).mp hj
  obtain ⟨hfile', hused'⟩ := (named_fs hopt h).mp hk
  have hne := (h.recorded j hfile).named hused
  have hne' := (h.recorded k hfile').named hused'
  change hashCstring (recordName v.fs j) = hashCstring (recordName v.fs k) at hhash
  rw [recordName_fs hopt v hfile.isInode, recordName_fs hopt v hfile'.isInode] at hhash
  have hname := hS.inj _ _ (h.named.mem j hfile hne) (h.named.mem k hfile' hne') hhash
  obtain rfl := h.named.distinct j k hfile hfile' hne hname
  exact absurd hlt (UInt32.lt_irrefl j)

/-- The archive of a volume says of the files what the store says. -/
structure Shows (opt : Options) (s : Store) (arch : ScanCoverage.Archive) : Prop where
  named : ∀ id, ScanCoverage.Named arch.fs id ↔ IsFileId opt id ∧ (s.files id).isSome
  name : ∀ id, IsFileId opt id → ∀ f, s.files id = some f → recordName arch.fs id = f.name
  bytes : ∀ id, IsFileId opt id → ∀ f, s.files id = some f → arch.bytes id = bytesOf f.content

theorem shows_archiveOf (hopt : Formattable opt) (h : Tied S m s v hints chains)
    (hdevs : m.devs = []) (hbacked : Backed opt s) :
    Shows opt s (archiveOf hopt h hdevs hbacked) := by
  have hused : ∀ id, IsFileId opt id → ((s.files id).isSome ↔ InodeUsed v id) := by
    intro id hfile
    constructor
    · intro hsome
      by_contra hunused
      rw [h.files id hfile, fileAt_of_unused hunused] at hsome
      exact absurd hsome (by decide)
    · intro hused
      rw [file_of_used h hdevs hfile hused]
      rfl
  constructor
  · intro id
    exact (named_fs hopt h).trans (and_congr_right fun hfile => (hused id hfile).symm)
  · intro id hfile f hf
    have hsome : InodeUsed v id := (hused id hfile).mp (hf ▸ rfl)
    rw [file_of_used h hdevs hfile hsome] at hf
    obtain rfl := Option.some.inj hf
    exact recordName_fs hopt v hfile.isInode
  · intro id hfile f hf
    have hsome : InodeUsed v id := (hused id hfile).mp (hf ▸ rfl)
    rw [file_of_used h hdevs hfile hsome] at hf
    obtain rfl := Option.some.inj hf
    rfl

theorem backed_reopened (h : Backed opt s) : Backed opt (reopened s) := by
  intro id hfile c hc
  rw [contents_reopened] at hc
  exact h id hfile c hc

theorem shows_reopened {arch : ScanCoverage.Archive} (h : Shows opt (reopened s) arch) :
    Shows opt s arch := by
  constructor
  · intro id
    rw [h.named id]
    change _ ∧ ((s.files id).map Store.flushed).isSome = true ↔ _
    rw [Option.isSome_map]
  · intro id hfile f hf
    exact h.name id hfile (Store.flushed f) (congrArg (Option.map Store.flushed) hf)
  · intro id hfile f hf
    exact h.bytes id hfile (Store.flushed f) (congrArg (Option.map Store.flushed) hf)

/-- The scan of a file that has been closed. -/
theorem scan_of_stands (hopt : Formattable opt) (hS : HashNames S) (hm : Stands opt S m s)
    (hbacked : Backed opt s) (fuel : Nat) :
    ∃ (image : List UInt8) (arch : ScanCoverage.Archive), finalize fuel m = .ok image ∧
      arch.image = image ∧ Shows opt s arch ∧
      ∀ {σ : Type} (handle : σ → File → Int × σ) (fuel' : Nat) (n : Inode) (world : σ),
        opt.blockCount.toNat < fuel' →
          arch.MissesNone fuel' (main handle fuel' 3 (some image) n world) := by
  obtain ⟨image, m', hfinal, -, himage, v, hints, chains, h⟩ := finalize_openfs hopt hm fuel
  have hdevs : m'.devs = [] := List.map_eq_nil_iff.mp h.handles.symm
  rw [h.disk] at himage
  refine ⟨image, archiveOf hopt h hdevs (backed_reopened hbacked), hfinal, himage,
    shows_reopened (shows_archiveOf hopt h hdevs _), fun handle fuel' n world hfuel => ?_⟩
  rw [← himage]
  exact (ScanCoverage.missesNone_iff (archiveOf hopt h hdevs (backed_reopened hbacked)) handle
    fuel' hfuel n world).mpr (noTwins_archiveOf hopt hS h hdevs _ handle world)

end

end Iqiq.ScannedStore
