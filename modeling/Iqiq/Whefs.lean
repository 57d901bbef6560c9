import Mathlib.Algebra.Ring.Int.Defs
import Mathlib.Algebra.Ring.Nat
import Mathlib.Data.List.Basic

namespace Iqiq.Whefs

/-- The return codes of `whefs_rc` and `whio_rc`; `mismatch` stands for a result of
`strcmp` other than zero that is passed on as a code. -/
inductive Rc where
  | ok
  | argError
  | ioError
  | consistencyError
  | rangeError
  | internalError
  | allocError
  | badMagicError
  | mismatch
  deriving DecidableEq, Repr

/-- Why a call does not return. -/
inductive Stop where
  /-- An `assert` fails. -/
  | assertion
  /-- The source divides by zero, or reallocates memory that is not on the heap. -/
  | undefined
  /-- The loops were cut off. -/
  | running
  deriving DecidableEq, Repr

/-- What becomes of a call. -/
abbrev Run (α : Type) :=
  Except Stop α

@[simp] theorem Run.ok_bind {α β : Type} (a : α) (f : α → Run β) :
    (Except.ok a : Run α) >>= f = f a :=
  rfl

/-! ### The device and the encoded numbers

Functions keep the names of the source, without `whefs_`, `whefs_fs_` and `whio_`. -/

/-- What a read of `n` bytes at `pos` delivers; it is short at the end of the file. -/
def readAt (image : List UInt8) (pos : UInt32) (n : Nat) : List UInt8 :=
  (image.drop pos.toNat).take n

def decodeUint32 (src : List UInt8) : Except Rc UInt32 :=
  if src.getD 0 0 ≠ 0xa0 then .error .consistencyError
  else
    .ok (((src.getD 1 0).toUInt32 <<< 24) + ((src.getD 2 0).toUInt32 <<< 16) +
      ((src.getD 3 0).toUInt32 <<< 8) + (src.getD 4 0).toUInt32)

def decodeUint16 (src : List UInt8) : Except Rc UInt16 :=
  if src.getD 0 0 ≠ 0x90 then .error .consistencyError
  else .ok (((src.getD 1 0).toUInt16 <<< 8) + (src.getD 2 0).toUInt16)

def decodeUint8 (src : List UInt8) : Except Rc UInt8 :=
  if src.getD 0 0 ≠ 0x88 then .error .consistencyError else .ok (src.getD 1 0)

/-- `whio_dev_decode_uint32`, with the device at `pos`. -/
def devDecodeUint32 (image : List UInt8) (pos : UInt32) : Except Rc UInt32 :=
  let buf := readAt image pos 5
  if buf.length = 5 then decodeUint32 buf else .error .ioError

/-- `whio_dev_decode_uint16`, with the device at `pos`. -/
def devDecodeUint16 (image : List UInt8) (pos : UInt32) : Except Rc UInt16 :=
  let buf := readAt image pos 3
  if buf.length = 3 then decodeUint16 buf else .error .ioError

/-- `whefs_fs_options`, with the length of the client's magic. -/
structure Options where
  magicLength : UInt16
  blockSize : UInt32
  blockCount : UInt32
  inodeCount : UInt32
  filenameLength : UInt16
  deriving DecidableEq

/-- What stays fixed of a `whefs_fs`: the file behind it and its options. -/
structure Fs where
  image : List UInt8
  options : Options
  deriving DecidableEq

def sizeofName (opt : Options) : UInt32 :=
  9 + opt.filenameLength.toUInt32

/-- `whefs_sizeof_encoded_inode`. -/
def sizeofInode : Nat := 23

/-- `whefs_sizeof_encoded_block`. -/
def sizeofBlockHeader : Nat := 14

def sizeofBlock (opt : Options) : UInt32 :=
  opt.blockSize + UInt32.ofNat sizeofBlockHeader

/-! The offsets of `whefs_fs_init_sizes`, in 32 bits. -/

def clientMagicOffset : UInt32 := 25

def optionsOffset (opt : Options) : UInt32 :=
  clientMagicOffset + 3 + opt.magicLength.toUInt32

def hintsOffset (opt : Options) : UInt32 :=
  optionsOffset opt + 18

def inodeNamesOffset (opt : Options) : UInt32 :=
  hintsOffset opt + 11

def inodesOffset (opt : Options) : UInt32 :=
  inodeNamesOffset opt + opt.inodeCount * sizeofName opt

def blocksOffset (opt : Options) : UInt32 :=
  inodesOffset opt + opt.inodeCount * UInt32.ofNat sizeofInode

def magicBytes : List UInt32 :=
  [2009, 12, 1, 32]

/-- The options at the current position of `whefs_openfs_stage2`. -/
def readOptions (image : List UInt8) : Except Rc Options := do
  let magicLength ← devDecodeUint16 image clientMagicOffset
  let pos := clientMagicOffset + 3 + magicLength.toUInt32
  let blockSize ← devDecodeUint32 image pos
  let blockCount ← devDecodeUint32 image (pos + 5)
  let inodeCount ← devDecodeUint32 image (pos + 10)
  let filenameLength ← devDecodeUint16 image (pos + 15)
  return { magicLength, blockSize, blockCount, inodeCount, filenameLength }

/-- `whefs_fs_hints_read`; the hints themselves serve to find free inodes only. -/
def hintsRead (fs : Fs) : Except Rc Unit := do
  let buf := readAt fs.image (hintsOffset fs.options) 11
  if buf.length ≠ 11 then throw .ioError
  if buf.getD 0 0 ≠ 0x48 then throw .consistencyError
  let _ ← decodeUint32 (buf.drop 1)
  let _ ← decodeUint32 (buf.drop 6)

/-- `whefs_fs_init_bitsets`: the sets hold one bit more than there are items, and the
bit of the root inode is set. -/
def initBitsets (opt : Options) : Run Rc :=
  if opt.inodeCount + 1 = 0 then .ok .allocError
  else if ¬ 1 < opt.inodeCount + 1 then .error .assertion
  else if opt.blockCount + 1 = 0 then .ok .allocError
  else .ok .ok

/-- `whefs_openfs_stage2` on the file `image`. -/
def openfsStage2 (image : List UInt8) : Run (Except Rc Fs) :=
  if [0, 5, 10, 15].map (devDecodeUint32 image) ≠ magicBytes.map Except.ok then
    .ok (.error .badMagicError)
  else
    match devDecodeUint32 image 20 with
    | .error _ => .ok (.error .badMagicError)
    | .ok fsize =>
        let aSize := UInt32.ofNat image.length
        if fsize = 0 ∨ aSize = 0 ∨ aSize ≠ fsize then .ok (.error .consistencyError)
        else
          match readOptions image with
          | .error rc => .ok (.error rc)
          | .ok opt => do
              let rc ← initBitsets opt
              if rc ≠ .ok then return .error rc
              match hintsRead ⟨image, opt⟩ with
              | .error rc => return .error rc
              | .ok _ => return .ok ⟨image, opt⟩

theorem toNat_add_one {i n : UInt32} (h : i < n) : (i + 1).toNat = i.toNat + 1 := by
  have hle : i.toNat + 1 ≤ n.toNat := UInt32.lt_iff_toNat_lt.mp h
  rw [UInt32.toNat_add]
  exact Nat.mod_eq_of_lt (Nat.lt_of_le_of_lt hle n.toNat_lt)

def inodeIdIsValid (fs : Fs) (nid : UInt32) : Bool :=
  nid ≠ 0 ∧ nid ≤ fs.options.inodeCount

theorem inodeIdIsValid_iff {fs : Fs} {nid : UInt32} :
    inodeIdIsValid fs nid ↔ 1 ≤ nid.toNat ∧ nid.toNat ≤ fs.options.inodeCount.toNat := by
  rw [inodeIdIsValid, decide_eq_true_eq, ne_eq, ← UInt32.toNat_inj, UInt32.le_iff_toNat_le]
  exact and_congr_left fun _ => Nat.pos_iff_ne_zero.symm

/-- `whefs_inode`, as far as it is on the disk. -/
structure Inode where
  id : UInt32
  flags : UInt8
  mtime : UInt32
  dataSize : UInt32
  firstBlock : UInt32
  deriving DecidableEq

def inodeEmpty : Inode := ⟨0, 0, 0, 0, 0⟩

/-- `whefs_inode_decode`; a field that cannot be decoded ends it, and `dest` keeps what
has been decoded so far. -/
def inodeDecode (dest : Inode) (src : List UInt8) : Rc × Inode :=
  if src.getD 0 0 ≠ 0x49 then (.consistencyError, dest)
  else
    match decodeUint32 (src.drop 1) with
    | .error rc => (rc, dest)
    | .ok id =>
        let dest := { dest with id }
        match decodeUint8 (src.drop 6) with
        | .error rc => (rc, dest)
        | .ok flags =>
            let dest := { dest with flags }
            match decodeUint32 (src.drop 8) with
            | .error rc => (rc, dest)
            | .ok mtime =>
                let dest := { dest with mtime }
                match decodeUint32 (src.drop 13) with
                | .error rc => (rc, dest)
                | .ok dataSize =>
                    let dest := { dest with dataSize }
                    match decodeUint32 (src.drop 18) with
                    | .error rc => (rc, dest)
                    | .ok firstBlock => (.ok, { dest with firstBlock })

def inodeIdPos (fs : Fs) (nid : UInt32) : UInt32 :=
  if inodeIdIsValid fs nid then inodesOffset fs.options + (nid - 1) * UInt32.ofNat sizeofInode
  else 0

/-- `whefs_inode_id_read`. A short read is not an error: it leaves `tgt` as it is. -/
def inodeIdRead (fs : Fs) (nid : UInt32) (tgt : Inode) : Rc × Inode :=
  if ¬ inodeIdIsValid fs nid then (.argError, tgt)
  else
    let pos := inodeIdPos fs nid
    if pos = 0 then (.argError, tgt)
    else
      let buf := readAt fs.image pos sizeofInode
      if buf.length ≠ sizeofInode then (.ok, tgt) else inodeDecode tgt buf

def blockIdIsValid (fs : Fs) (blid : UInt32) : Bool :=
  blid ≠ 0 ∧ blid ≤ fs.options.blockCount

structure Block where
  id : UInt32
  flags : UInt8
  nextBlock : UInt32
  deriving DecidableEq

def blockEmpty : Block := ⟨0, 0, 0⟩

def blockIdPos (fs : Fs) (id : UInt32) : UInt32 :=
  if blockIdIsValid fs id then blocksOffset fs.options + (id - 1) * sizeofBlock fs.options else 0

def blockDataPos (fs : Fs) (bl : Block) : UInt32 :=
  let pos := blockIdPos fs bl.id
  if pos = 0 then 0 else pos + UInt32.ofNat sizeofBlockHeader

def blockDecode (src : List UInt8) : Except Rc Block := do
  if src.getD 0 0 ≠ 0x42 then throw .consistencyError
  let id ← decodeUint32 (src.drop 1)
  let flags ← decodeUint8 (src.drop 6)
  let nextBlock ← decodeUint32 (src.drop 8)
  return { id, flags, nextBlock }

/-- `whefs_block_read`. For an id that is not valid it succeeds with the empty block. -/
def blockRead (fs : Fs) (bid : UInt32) : Except Rc Block :=
  if ¬ blockIdIsValid fs bid then .ok blockEmpty
  else
    let pos := blockIdPos fs bid
    if pos = 0xffffffff then .error .ioError
    else
      let buf := readAt fs.image pos sizeofBlockHeader
      if buf.length ≠ sizeofBlockHeader then .error .ioError else blockDecode buf

def blockReadNext (fs : Fs) (bl : Block) : Except Rc Block :=
  if ¬ blockIdIsValid fs bl.id then .error .argError
  else if bl.nextBlock = 0 then .error .rangeError
  else blockRead fs bl.nextBlock

end Iqiq.Whefs
