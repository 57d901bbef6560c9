import Iqiq.RecordTable
import Iqiq.WhefsFiles

namespace Iqiq.WhefsEncode

open Iqiq.RecordTable
open Iqiq.Whefs
open Iqiq.WhefsFiles

/-- A write of `bytes` at `pos`, as a file takes it: a gap before it is filled with zeros. -/
def writeAt (image : List UInt8) (pos : UInt32) (bytes : List UInt8) : List UInt8 :=
  overwrite (image ++ List.replicate (pos.toNat - image.length) 0) pos.toNat bytes

theorem writeAt_of_le {image bytes : List UInt8} {pos : UInt32} (h : pos.toNat ≤ image.length) :
    writeAt image pos bytes = overwrite image pos.toNat bytes := by
  rw [writeAt, Nat.sub_eq_zero_of_le h, List.replicate_zero, List.append_nil]

def encodeUint32 (i : UInt32) : List UInt8 :=
  [0xa0, (i >>> 24).toUInt8, (i >>> 16).toUInt8, (i >>> 8).toUInt8, i.toUInt8]

def encodeUint16 (i : UInt16) : List UInt8 :=
  [0x90, (i >>> 8).toUInt8, i.toUInt8]

def encodeUint8 (i : UInt8) : List UInt8 :=
  [0x88, i]

@[simp] theorem length_encodeUint32 (i : UInt32) : (encodeUint32 i).length = 5 := rfl

@[simp] theorem length_encodeUint16 (i : UInt16) : (encodeUint16 i).length = 3 := rfl

@[simp] theorem length_encodeUint8 (i : UInt8) : (encodeUint8 i).length = 2 := rfl

theorem decodeUint32_encodeUint32 (i : UInt32) (rest : List UInt8) :
    decodeUint32 (encodeUint32 i ++ rest) = .ok i := by
  have hvalue : ((i >>> 24).toUInt8.toUInt32 <<< 24) + ((i >>> 16).toUInt8.toUInt32 <<< 16) +
      ((i >>> 8).toUInt8.toUInt32 <<< 8) + i.toUInt8.toUInt32 = i := by
    rw [← UInt32.toNat_inj]
    simp only [UInt32.toNat_add, UInt32.toNat_shiftLeft, UInt8.toNat_toUInt32,
      UInt32.toNat_toUInt8, UInt32.toNat_shiftRight, Nat.shiftRight_eq_div_pow,
      Nat.shiftLeft_eq, UInt32.toNat_ofNat, Nat.reducePow, Nat.reduceMod]
    have := i.toNat_lt
    omega
  have htag : (encodeUint32 i ++ rest).getD 0 0 = 0xa0 := rfl
  rw [decodeUint32, if_neg (not_not_intro htag)]
  exact congrArg Except.ok hvalue

theorem decodeUint16_encodeUint16 (i : UInt16) (rest : List UInt8) :
    decodeUint16 (encodeUint16 i ++ rest) = .ok i := by
  have hvalue : ((i >>> 8).toUInt8.toUInt16 <<< 8) + i.toUInt8.toUInt16 = i := by
    rw [← UInt16.toNat_inj]
    simp only [UInt16.toNat_add, UInt16.toNat_shiftLeft, UInt8.toNat_toUInt16,
      UInt16.toNat_toUInt8, UInt16.toNat_shiftRight, Nat.shiftRight_eq_div_pow,
      Nat.shiftLeft_eq, UInt16.toNat_ofNat, Nat.reducePow, Nat.reduceMod]
    have := i.toNat_lt
    omega
  have htag : (encodeUint16 i ++ rest).getD 0 0 = 0x90 := rfl
  rw [decodeUint16, if_neg (not_not_intro htag)]
  exact congrArg Except.ok hvalue

theorem decodeUint8_encodeUint8 (i : UInt8) (rest : List UInt8) :
    decodeUint8 (encodeUint8 i ++ rest) = .ok i :=
  rfl

def inodeEncode (src : Inode) : List UInt8 :=
  0x49 :: (encodeUint32 src.id ++ (encodeUint8 src.flags ++ (encodeUint32 src.mtime ++
    (encodeUint32 src.dataSize ++ encodeUint32 src.firstBlock))))

/-- The buffer of `whefs_block_flush`, which is one byte longer than what is encoded. -/
def blockEncode (bl : Block) : List UInt8 :=
  0x42 :: (encodeUint32 bl.id ++ (encodeUint8 bl.flags ++ (encodeUint32 bl.nextBlock ++ [0])))

/-- The buffer of `whefs_fs_name_write`. -/
def nameEncode (opt : Options) (id : UInt32) (name : List UInt8) : List UInt8 :=
  let used := 0x22 :: (encodeUint32 id ++ (encodeUint16 (UInt16.ofNat name.length) ++ name))
  used ++ List.replicate ((sizeofName opt).toNat - used.length) 0

/-- `fs->hints`. -/
structure Hints where
  unusedInodeStart : UInt32
  unusedBlockStart : UInt32
  deriving DecidableEq

def hintsEncode (hints : Hints) : List UInt8 :=
  0x48 :: (encodeUint32 hints.unusedInodeStart ++ encodeUint32 hints.unusedBlockStart)

/-- What `whefs_mkfs_write_options` writes. -/
def optionsEncode (opt : Options) : List UInt8 :=
  encodeUint32 opt.blockSize ++ (encodeUint32 opt.blockCount ++ (encodeUint32 opt.inodeCount ++
    encodeUint16 opt.filenameLength))

@[simp] theorem length_inodeEncode (src : Inode) : (inodeEncode src).length = sizeofInode := rfl

@[simp] theorem length_blockEncode (bl : Block) :
    (blockEncode bl).length = sizeofBlockHeader := rfl

@[simp] theorem length_hintsEncode (hints : Hints) : (hintsEncode hints).length = 11 := rfl

@[simp] theorem length_optionsEncode (opt : Options) : (optionsEncode opt).length = 18 := rfl

theorem length_nameEncode {opt : Options} {id : UInt32} {name : List UInt8}
    (h : name.length ≤ opt.filenameLength.toNat) :
    (nameEncode opt id name).length = 9 + opt.filenameLength.toNat := by
  simp only [nameEncode, WhefsNames.sizeofName_toNat, List.length_append, List.length_cons,
    length_encodeUint32, length_encodeUint16, List.length_replicate]
  omega

theorem inodeDecode_inodeEncode (dest src : Inode) :
    inodeDecode dest (inodeEncode src) = (.ok, src) := by
  rw [inodeDecode_eq_ok_iff]
  refine ⟨rfl, ?_, ?_, ?_, ?_, ?_⟩
  · exact decodeUint32_encodeUint32 _ _
  · exact decodeUint8_encodeUint8 _ _
  · exact decodeUint32_encodeUint32 _ _
  · exact decodeUint32_encodeUint32 _ _
  · exact decodeUint32_encodeUint32 src.firstBlock []

theorem blockDecode_blockEncode (bl : Block) : blockDecode (blockEncode bl) = .ok bl := by
  have hid : decodeUint32 ((blockEncode bl).drop 1) = .ok bl.id :=
    decodeUint32_encodeUint32 _ _
  have hflags : decodeUint8 ((blockEncode bl).drop 6) = .ok bl.flags :=
    decodeUint8_encodeUint8 _ _
  have hnext : decodeUint32 ((blockEncode bl).drop 8) = .ok bl.nextBlock :=
    decodeUint32_encodeUint32 _ _
  have htag : (blockEncode bl).getD 0 0 = 0x42 := rfl
  rw [blockDecode, if_neg (not_not_intro htag), hid, hflags, hnext]
  rfl

end Iqiq.WhefsEncode
