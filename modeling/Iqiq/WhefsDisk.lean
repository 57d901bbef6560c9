import Iqiq.WhefsVolume

namespace Iqiq.WhefsDisk

open Iqiq.RecordTable
open Iqiq.Whefs
open Iqiq.WhefsEncode
open Iqiq.WhefsFiles
open Iqiq.WhefsNames
open Iqiq.WhefsVolume

/-- The return codes of the functions that write. -/
inductive Code where
  | of (rc : Rc)
  | fsFull
  | accessError
  deriving DecidableEq

/-- What the functions that write change of a `whefs_fs` opened for reading and writing. -/
structure Disk where
  fs : Fs
  hints : Hints

/-- `WHEFS_FLAG_Used` is among the flags. -/
def isUsed (flags : UInt8) : Bool :=
  flags &&& 1 ≠ 0

def Disk.write (d : Disk) (pos : UInt32) (bytes : List UInt8) : Disk :=
  { d with fs := { d.fs with image := writeAt d.fs.image pos bytes } }

def blockFlush (d : Disk) (bl : Block) : Code × Disk :=
  let pos := blockIdPos d.fs bl.id
  if pos = 0 then (.of .argError, d) else (.of .ok, d.write pos (blockEncode bl))

/-- `whefs_block_wipe_data`, whose zeros are written in pieces of 4096 bytes. -/
def blockWipeData (d : Disk) (bl : Block) (startPos : UInt32) : Code × Disk :=
  let bs := d.fs.options.blockSize
  if startPos ≥ bs then (.of .rangeError, d)
  else (.of .ok, d.write (blockDataPos d.fs bl + startPos) (List.replicate (bs - startPos).toNat 0))

/-- The hints after the block `id` has become free. -/
def lowerBlock (hints : Hints) (id : UInt32) : Hints :=
  if id < hints.unusedBlockStart then { hints with unusedBlockStart := id } else hints

/-- The record of a block that is not in use. -/
def unusedBlock (id : UInt32) : Block :=
  { blockEmpty with id }

/-- What `whefs_block_wipe` does for `wipeMeta`. -/
def blockWipeMeta (d : Disk) (bl : Block) : Code × Disk :=
  match blockFlush d (unusedBlock bl.id) with
  | (.of .ok, d) => (.of .ok, { d with hints := lowerBlock d.hints bl.id })
  | (rc, d) => (rc, d)

/-- `whefs_block_wipe` after its walk through the blocks that follow. -/
def blockWipeOne (d : Disk) (bl : Block) (wipeData wipeMeta : Bool) : Code × Disk :=
  if ¬ blockIdIsValid d.fs bl.id then (.of .argError, d)
  else
    match if wipeMeta then blockWipeMeta d bl else (.of .ok, d) with
    | (.of .ok, d) => if wipeData then blockWipeData d bl 0 else (.of .ok, d)
    | (rc, d) => (rc, d)

/-- The walk of `whefs_block_wipe` behind the block `xb`. -/
def blockWipeNext (wipeData wipeMeta : Bool) (fuel : Nat) (d : Disk) (xb : Block) :
    Run (Code × Disk) :=
  if xb.nextBlock = 0 then .ok (.of .ok, d)
  else
    match fuel with
    | 0 => .error .running
    | fuel + 1 =>
        match blockReadNext d.fs xb with
        | .error rc => .ok (.of rc, d)
        | .ok next =>
            match blockWipeOne d next wipeData wipeMeta with
            | (.of .ok, d) => blockWipeNext wipeData wipeMeta fuel d next
            | (rc, d) => .ok (rc, d)

def blockWipe (fuel : Nat) (d : Disk) (bl : Block) (wipeData wipeMeta deep : Bool) :
    Run (Code × Disk) :=
  if ¬ blockIdIsValid d.fs bl.id then .ok (.of .argError, d)
  else do
    let (rc, d) ← if deep then blockWipeNext wipeData wipeMeta fuel d bl else pure (.of .ok, d)
    return if rc ≠ .of .ok then (rc, d) else blockWipeOne d bl wipeData wipeMeta

/-- What `whefs_block_next_free` does for `markUsed`. -/
def blockMarkUsed (d : Disk) (bl : Block) : Block × Disk :=
  let bl := { bl with flags := 1 }
  let d := (blockFlush d bl).2
  (bl, { d with hints := { d.hints with unusedBlockStart := bl.id + 1 } })

/-- The loop of `whefs_block_next_free` over the `left` blocks from `i` on. -/
def blockNextFreeLoop (markUsed : Bool) : Nat → Disk → UInt32 → Run (Except Code Block × Disk)
  | 0, d, _ => .ok (.error .fsFull, d)
  | left + 1, d, i =>
      match blockRead d.fs i with
      | .error rc => .ok (.error (.of rc), d)
      | .ok bl =>
          if bl.id ≠ i then .error .assertion
          else if isUsed bl.flags then blockNextFreeLoop markUsed left d (i + 1)
          else
            let (bl, d) := if markUsed then blockMarkUsed d bl else (bl, d)
            .ok (.ok bl, d)

def blockNextFree (d : Disk) (markUsed : Bool) : Run (Except Code Block × Disk) :=
  let d := if d.hints.unusedBlockStart = 0 then
    { d with hints := { d.hints with unusedBlockStart := 1 } } else d
  let i := d.hints.unusedBlockStart
  blockNextFreeLoop markUsed (d.fs.options.blockCount.toNat + 1 - i.toNat) d i

/-- What `whefs_inode_update_used` makes of the hints. -/
def lowerInode (hints : Hints) (ino : Inode) : Hints :=
  if isUsed ino.flags then hints
  else if hints.unusedInodeStart > ino.id then { hints with unusedInodeStart := ino.id }
  else hints

def inodeUpdateUsed (d : Disk) (ino : Inode) : Disk :=
  if ¬ inodeIdIsValid d.fs ino.id then d else { d with hints := lowerInode d.hints ino }

def inodeFlush (d : Disk) (ino : Inode) : Code × Disk :=
  if ¬ inodeIdIsValid d.fs ino.id then (.of .argError, d)
  else
    let d := inodeUpdateUsed d ino
    let pos := inodeIdPos d.fs ino.id
    if pos = 0 then (.of .argError, d) else (.of .ok, d.write pos (inodeEncode ino))

/-- `whefs_inode_id_read`, with what it does to the hints. -/
def inodeIdReadHints (d : Disk) (nid : UInt32) (tgt : Inode) : Rc × Inode × Disk :=
  let (rc, ino) := inodeIdRead d.fs nid tgt
  let complete := (readAt d.fs.image (inodeIdPos d.fs nid) sizeofInode).length = sizeofInode
  (rc, ino, if rc = .ok ∧ complete then inodeUpdateUsed d ino else d)

/-- What `whefs_inode_next_free` does for `markUsed`. -/
def inodeMarkUsed (now : UInt32) (d : Disk) (n : Inode) : Inode × Disk :=
  let n := { n with flags := n.flags ||| 1, mtime := now }
  let d := (inodeFlush d n).2
  (n, { d with hints := { d.hints with unusedInodeStart := n.id + 1 } })

/-- The loop of `whefs_inode_next_free` over the `left` inodes from `i` on. -/
def inodeNextFreeLoop (now : UInt32) (markUsed : Bool) :
    Nat → Disk → UInt32 → Inode → Run (Except Code Inode × Disk)
  | 0, d, _, _ => .ok (.error .fsFull, d)
  | left + 1, d, i, n =>
      let (rc, n, d) := inodeIdReadHints d i n
      if rc ≠ .ok then .ok (.error (.of rc), d)
      else if n.id ≠ i then .error .assertion
      else if isUsed n.flags then
        inodeNextFreeLoop now markUsed left (inodeUpdateUsed d n) (i + 1) n
      else
        let (n, d) := if markUsed then inodeMarkUsed now d n else (n, d)
        .ok (.ok n, d)

/-- `whefs_inode_next_free` at the time `now`; the inode 1 is that of the root. -/
def inodeNextFree (now : UInt32) (d : Disk) (markUsed : Bool) : Run (Except Code Inode × Disk) :=
  let d := if d.hints.unusedInodeStart < 2 then
    { d with hints := { d.hints with unusedInodeStart := 2 } } else d
  let i := d.hints.unusedInodeStart
  inodeNextFreeLoop now markUsed (d.fs.options.inodeCount.toNat + 1 - i.toNat) d i inodeEmpty

/-- `whefs_fs_name_write`. -/
def nameWrite (d : Disk) (id : UInt32) (name : List UInt8) : Code × Disk :=
  if ¬ inodeIdIsValid d.fs id then (.of .argError, d)
  else if name.length > d.fs.options.filenameLength.toNat then (.of .rangeError, d)
  else (.of .ok, d.write (inodeNamePos d.fs id) (nameEncode d.fs.options id name))

/-- `whefs_fs_hints_write`. -/
def hintsWrite (d : Disk) : Code × Disk :=
  (.of .ok, d.write (hintsOffset d.fs.options) (hintsEncode d.hints))

section Volumes

variable {opt : Options}

def disk (v : Volume opt) (hints : Hints) : Disk :=
  ⟨v.fs, hints⟩

/-- The data of a block, with zeros from `k` on. -/
def zeroFrom (v : Volume opt) (id : UInt32) (k : Nat) : Volume opt :=
  v.setData id ((v.data id).take k ++ List.replicate (opt.blockSize.toNat - k) 0) (by
    rw [List.length_append, List.length_take, List.length_replicate, v.data_length]
    omega)

def freeBlock (v : Volume opt) (id : UInt32) : Volume opt :=
  zeroFrom (v.setBlock (unusedBlock id)) id 0

variable {v : Volume opt} {hints : Hints} {id : UInt32}

@[simp] theorem disk_fs (v : Volume opt) (hints : Hints) : (disk v hints).fs = v.fs := rfl

@[simp] theorem disk_hints (v : Volume opt) (hints : Hints) : (disk v hints).hints = hints := rfl

@[simp] theorem fs_image (v : Volume opt) : v.fs.image = v.image := rfl

@[simp] theorem fs_options (v : Volume opt) : v.fs.options = opt := rfl

theorem blockFlush_disk (h : Formattable opt) {bl : Block} (hvalid : IsBlock opt bl.id) :
    blockFlush (disk v hints) bl = (.of .ok, disk (v.setBlock bl) hints) := by
  have hne : blockIdPos (disk v hints).fs bl.id ≠ 0 := blockIdPos_ne_zero v.image h hvalid
  have hwrite : (disk v hints).write (blockIdPos (disk v hints).fs bl.id) (blockEncode bl) =
      disk (v.setBlock bl) hints := by
    have himage := v.writeAt_block h hvalid
    exact congrArg (fun image => (⟨⟨image, opt⟩, hints⟩ : Disk)) himage
  rw [blockFlush]
  simp only [if_neg hne, hwrite]

theorem write_data (h : Formattable opt) {bl : Block} (hvalid : IsBlock opt bl.id)
    {pos : UInt32} {ys : List UInt8} (hpos : pos.toNat + ys.length ≤ opt.blockSize.toNat) :
    (disk v hints).write (blockDataPos v.fs bl + pos) ys =
      disk (v.setData bl.id (overwrite (v.data bl.id) pos.toNat ys)
        ((length_overwrite (by rwa [v.data_length])).trans (v.data_length bl.id))) hints := by
  have hplace : blockDataPos v.fs bl = blockDataPos v.fs (v.block bl.id) := by
    rw [blockDataPos, blockDataPos, v.block_id]
  have himage := v.writeAt_data h hvalid hpos
  rw [UInt32.ofNat_toNat, ← hplace] at himage
  exact congrArg (fun image => (⟨⟨image, opt⟩, hints⟩ : Disk)) himage

theorem blockWipeData_disk (h : Formattable opt) {bl : Block}
    (hvalid : IsBlock opt bl.id) {startPos : UInt32} (hstart : startPos < opt.blockSize) :
    blockWipeData (disk v hints) bl startPos =
      (.of .ok, disk (zeroFrom v bl.id startPos.toNat) hints) := by
  have hlt := UInt32.lt_iff_toNat_lt.mp hstart
  have hcount : (opt.blockSize - startPos).toNat = opt.blockSize.toNat - startPos.toNat :=
    UInt32.toNat_sub_of_le _ _ (UInt32.le_iff_toNat_le.mpr hlt.le)
  have hbytes : overwrite (v.data bl.id) startPos.toNat
      (List.replicate (opt.blockSize.toNat - startPos.toNat) 0) =
        (v.data bl.id).take startPos.toNat ++
          List.replicate (opt.blockSize.toNat - startPos.toNat) 0 := by
    rw [overwrite, List.drop_eq_nil_of_le (by rw [List.length_replicate, v.data_length]; omega),
      List.append_nil]
  have hwrite := @write_data opt v hints h bl hvalid startPos
    (List.replicate (opt.blockSize.toNat - startPos.toNat) 0) (by
      rw [List.length_replicate]
      omega)
  simp only [hbytes] at hwrite
  rw [blockWipeData]
  have hrange : ¬ startPos ≥ opt.blockSize := by
    rw [ge_iff_le, UInt32.le_iff_toNat_le]
    omega
  simp only [disk_fs, fs_options, if_neg hrange, hcount, hwrite, zeroFrom]

theorem blockWipeMeta_disk (h : Formattable opt) {bl : Block}
    (hvalid : IsBlock opt bl.id) :
    blockWipeMeta (disk v hints) bl =
      (.of .ok, disk (v.setBlock (unusedBlock bl.id)) (lowerBlock hints bl.id)) := by
  have hflush := @blockFlush_disk opt v hints h (unusedBlock bl.id) hvalid
  rw [blockWipeMeta, hflush]
  rfl

theorem blockWipeOne_disk (h : Formattable opt) {bl : Block}
    (hvalid : IsBlock opt bl.id) :
    blockWipeOne (disk v hints) bl true true =
      (.of .ok, disk (freeBlock v bl.id) (lowerBlock hints bl.id)) := by
  have hzero : (0 : UInt32) < opt.blockSize := by
    have := h.blockSize
    rw [UInt32.lt_iff_toNat_lt]
    exact Nat.lt_of_lt_of_le (by decide) this
  have hwipe := @blockWipeData_disk opt (v.setBlock (unusedBlock bl.id)) (lowerBlock hints bl.id)
    h bl hvalid 0 hzero
  rw [show (0 : UInt32).toNat = 0 from rfl] at hwipe
  rw [blockWipeOne, disk_fs, if_neg (not_not_intro (Volume.blockIdIsValid_fs.mpr hvalid)),
    if_pos rfl, blockWipeMeta_disk h hvalid]
  simp only [if_true, hwipe, freeBlock]

theorem inodeUpdateUsed_disk {ino : Inode} (hvalid : IsInode opt ino.id) :
    inodeUpdateUsed (disk v hints) ino = disk v (lowerInode hints ino) := by
  rw [inodeUpdateUsed, disk_fs, if_neg (not_not_intro (Volume.inodeIdIsValid_fs.mpr hvalid))]
  rfl

theorem inodeFlush_disk (h : Formattable opt) {ino : Inode}
    (hvalid : IsInode opt ino.id) :
    inodeFlush (disk v hints) ino = (.of .ok, disk (v.setInode ino) (lowerInode hints ino)) := by
  have hne : inodeIdPos v.fs ino.id ≠ 0 := inodeIdPos_ne_zero v.image h hvalid
  have hwrite : (disk v (lowerInode hints ino)).write (inodeIdPos v.fs ino.id) (inodeEncode ino) =
      disk (v.setInode ino) (lowerInode hints ino) := by
    have himage := v.writeAt_inode h hvalid
    exact congrArg (fun image => (⟨⟨image, opt⟩, lowerInode hints ino⟩ : Disk)) himage
  rw [inodeFlush, disk_fs, if_neg (not_not_intro (Volume.inodeIdIsValid_fs.mpr hvalid)),
    inodeUpdateUsed_disk hvalid]
  change (if inodeIdPos v.fs ino.id = 0 then _ else _) = _
  rw [if_neg hne]
  exact congrArg (Prod.mk _) hwrite

theorem inodeIdReadHints_disk (h : Formattable opt) (hvalid : IsInode opt id)
    (tgt : Inode) :
    inodeIdReadHints (disk v hints) id tgt =
      (.ok, v.inode id, disk v (lowerInode hints (v.inode id))) := by
  have hread := v.inodeIdRead_eq h hvalid tgt
  have hplace := toNat_inodeIdPos v.image h hvalid
  have ⟨hpos, hle⟩ := hvalid
  have hcomplete : (readAt v.image (inodeIdPos v.fs id) sizeofInode).length = sizeofInode := by
    refine length_window ?_
    have hrow : (id.toNat - 1 + 1) * sizeofInode ≤ opt.inodeCount.toNat * sizeofInode :=
      Nat.mul_le_mul_right _ (by omega)
    rw [Nat.succ_mul] at hrow
    rw [Volume.fs, hplace, v.length_image, totalSize, blocksStart]
    omega
  have hused := @inodeUpdateUsed_disk opt v hints (v.inode id) (by rwa [v.inode_id])
  simp only [inodeIdReadHints, disk_fs, hread, fs_image, hcomplete, and_self, if_true, hused]

theorem nameWrite_disk (h : Formattable opt) (hvalid : IsInode opt id)
    {name : List UInt8} (hlen : name.length ≤ opt.filenameLength.toNat) (hne : 0 ∉ name) :
    nameWrite (disk v hints) id name = (.of .ok, disk (v.setName id name hlen hne) hints) := by
  have hwrite : (disk v hints).write (inodeNamePos v.fs id) (nameEncode opt id name) =
      disk (v.setName id name hlen hne) hints := by
    have himage := v.writeAt_name h hvalid hlen hne
    exact congrArg (fun image => (⟨⟨image, opt⟩, hints⟩ : Disk)) himage
  have hfits : ¬ name.length > v.fs.options.filenameLength.toNat := by
    change ¬ _ > opt.filenameLength.toNat
    omega
  rw [nameWrite, disk_fs, if_neg (not_not_intro (Volume.inodeIdIsValid_fs.mpr hvalid)),
    if_neg hfits]
  exact congrArg (Prod.mk _) hwrite

theorem hintsWrite_disk (v : Volume opt) (hints : Hints) :
    hintsWrite (disk v hints) = (.of .ok, disk (v.setHints hints) hints) := by
  have himage := v.writeAt_hints hints
  exact congrArg (fun image => (Code.of .ok, (⟨⟨image, opt⟩, hints⟩ : Disk))) himage

end Volumes

end Iqiq.WhefsDisk
