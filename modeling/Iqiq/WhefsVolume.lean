import Iqiq.WhefsEncode

namespace Iqiq.WhefsVolume

open Iqiq.RecordTable
open Iqiq.Whefs
open Iqiq.WhefsEncode
open Iqiq.WhefsFiles
open Iqiq.WhefsNames

/-! ### The parts of a file

Their sizes, which the source computes in 32 bits. -/

section Sizes

variable (opt : Options)

def headerSize : Nat :=
  57 + opt.magicLength.toNat

def nameWidth : Nat :=
  9 + opt.filenameLength.toNat

def blockWidth : Nat :=
  14 + opt.blockSize.toNat

def inodesStart : Nat :=
  headerSize opt + opt.inodeCount.toNat * nameWidth opt

def blocksStart : Nat :=
  inodesStart opt + opt.inodeCount.toNat * sizeofInode

def totalSize : Nat :=
  blocksStart opt + opt.blockCount.toNat * blockWidth opt

/-- `whefs_mkfs_stage1` accepts the options, and the size of the file fits 32 bits. -/
structure Formattable : Prop where
  inodeCount : 2 ≤ opt.inodeCount.toNat
  blockSize : 32 ≤ opt.blockSize.toNat
  filenameLength_pos : 1 ≤ opt.filenameLength.toNat
  filenameLength_le : opt.filenameLength.toNat ≤ 128
  magicLength : 1 ≤ opt.magicLength.toNat
  blockCount : opt.inodeCount.toNat ≤ opt.blockCount.toNat
  fits : totalSize opt < 2 ^ 32

def IsInode (id : UInt32) : Prop :=
  1 ≤ id.toNat ∧ id.toNat ≤ opt.inodeCount.toNat

def IsBlock (id : UInt32) : Prop :=
  1 ≤ id.toNat ∧ id.toNat ≤ opt.blockCount.toNat

end Sizes

def idOf (k : Nat) : UInt32 :=
  UInt32.ofNat (k + 1)

def idTable (g : UInt32 → List UInt8) (n : Nat) : List UInt8 :=
  table (fun k => g (idOf k)) n

theorem idOf_pred {id : UInt32} (h : 1 ≤ id.toNat) : idOf (id.toNat - 1) = id := by
  rw [idOf, Nat.sub_add_cancel h, UInt32.ofNat_toNat]

theorem toNat_idOf {k : Nat} (h : k + 1 < 2 ^ 32) : (idOf k).toNat = k + 1 :=
  UInt32.toNat_ofNat_of_lt' h

section IdTables

variable {g : UInt32 → List UInt8} {w n j m : Nat} {id : UInt32} {ys : List UInt8}

theorem length_idTable (hw : ∀ id, (g id).length = w) : (idTable g n).length = n * w :=
  length_table fun _ _ => hw _

theorem window_idTable (hw : ∀ id, (g id).length = w) (hpos : 1 ≤ id.toNat) (hle : id.toNat ≤ n)
    (hj : j + m ≤ w) :
    window (idTable g n) ((id.toNat - 1) * w + j) m = window (g id) j m := by
  rw [idTable, window_table (fun _ _ => hw _) (by omega) hj, idOf_pred hpos]

theorem overwrite_idTable (hw : ∀ id, (g id).length = w) (hpos : 1 ≤ id.toNat)
    (hle : id.toNat ≤ n) (hn : n < 2 ^ 32) (hj : j + ys.length ≤ w) :
    overwrite (idTable g n) ((id.toNat - 1) * w + j) ys =
      idTable (Function.update g id (overwrite (g id) j ys)) n := by
  rw [idTable, overwrite_table (fun _ _ => hw _) (by omega) hj]
  refine table_congr fun i hi => ?_
  have hkey : idOf i = id ↔ i = id.toNat - 1 := by
    rw [← UInt32.toNat_inj, toNat_idOf (by omega)]
    omega
  rcases eq_or_ne i (id.toNat - 1) with rfl | hne
  · rw [Function.update_self, idOf_pred hpos, Function.update_self]
  · rw [Function.update_of_ne hne, Function.update_of_ne (mt hkey.mp hne)]

end IdTables

/-- The contents of a file, record by record. -/
structure Volume (opt : Options) where
  magic : List UInt8
  hints : Hints
  name : UInt32 → List UInt8
  inode : UInt32 → Inode
  block : UInt32 → Block
  data : UInt32 → List UInt8
  magic_length : magic.length = opt.magicLength.toNat
  name_length : ∀ id, (name id).length ≤ opt.filenameLength.toNat
  name_ne : ∀ id, 0 ∉ name id
  inode_id : ∀ id, (inode id).id = id
  block_id : ∀ id, (block id).id = id
  data_length : ∀ id, (data id).length = opt.blockSize.toNat

namespace Volume

variable {opt : Options}

section Image

variable (v : Volume opt)

def nameRecord (id : UInt32) : List UInt8 :=
  nameEncode opt id (v.name id)

def inodeRecord (id : UInt32) : List UInt8 :=
  inodeEncode (v.inode id)

def blockRecord (id : UInt32) : List UInt8 :=
  blockEncode (v.block id) ++ v.data id

/-- What stands before the hints. -/
def preamble : List UInt8 :=
  magicBytes.flatMap encodeUint32 ++ (encodeUint32 (UInt32.ofNat (totalSize opt)) ++
    (encodeUint16 opt.magicLength ++ (v.magic ++ optionsEncode opt)))

def names : List UInt8 :=
  idTable v.nameRecord opt.inodeCount.toNat

def inodes : List UInt8 :=
  idTable v.inodeRecord opt.inodeCount.toNat

def blocks : List UInt8 :=
  idTable v.blockRecord opt.blockCount.toNat

def image : List UInt8 :=
  v.preamble ++ (hintsEncode v.hints ++ (v.names ++ (v.inodes ++ v.blocks)))

def fs : Fs :=
  ⟨v.image, opt⟩

end Image

section Updates

variable (v : Volume opt)

def setHints (hints : Hints) : Volume opt :=
  { v with hints }

def setName (id : UInt32) (name : List UInt8) (hlen : name.length ≤ opt.filenameLength.toNat)
    (hne : 0 ∉ name) : Volume opt :=
  { v with
    name := Function.update v.name id name
    name_length := fun i => by
      rcases eq_or_ne i id with rfl | h
      · rwa [Function.update_self]
      · rw [Function.update_of_ne h]
        exact v.name_length i
    name_ne := fun i => by
      rcases eq_or_ne i id with rfl | h
      · rwa [Function.update_self]
      · rw [Function.update_of_ne h]
        exact v.name_ne i }

def setInode (ino : Inode) : Volume opt :=
  { v with
    inode := Function.update v.inode ino.id ino
    inode_id := fun i => by
      rcases eq_or_ne i ino.id with rfl | h
      · rw [Function.update_self]
      · rw [Function.update_of_ne h, v.inode_id] }

def setBlock (bl : Block) : Volume opt :=
  { v with
    block := Function.update v.block bl.id bl
    block_id := fun i => by
      rcases eq_or_ne i bl.id with rfl | h
      · rw [Function.update_self]
      · rw [Function.update_of_ne h, v.block_id] }

def setData (id : UInt32) (bytes : List UInt8) (hlen : bytes.length = opt.blockSize.toNat) :
    Volume opt :=
  { v with
    data := Function.update v.data id bytes
    data_length := fun i => by
      rcases eq_or_ne i id with rfl | h
      · rwa [Function.update_self]
      · rw [Function.update_of_ne h, v.data_length] }

theorem setName_name (id : UInt32) (name : List UInt8)
    (hlen : name.length ≤ opt.filenameLength.toNat) (hne : 0 ∉ name) :
    (v.setName id name hlen hne).name = Function.update v.name id name := rfl

theorem setInode_inode (ino : Inode) :
    (v.setInode ino).inode = Function.update v.inode ino.id ino := rfl

theorem setBlock_block (bl : Block) :
    (v.setBlock bl).block = Function.update v.block bl.id bl := rfl

theorem setData_data (id : UInt32) (bytes : List UInt8)
    (hlen : bytes.length = opt.blockSize.toNat) :
    (v.setData id bytes hlen).data = Function.update v.data id bytes := rfl

end Updates

theorem length_preamble (v : Volume opt) : v.preamble.length = 46 + opt.magicLength.toNat := by
  have hmagic : (magicBytes.flatMap encodeUint32).length = 20 := rfl
  simp only [preamble, List.length_append, hmagic, length_encodeUint32, length_encodeUint16,
    v.magic_length, length_optionsEncode]
  omega

theorem length_nameRecord (v : Volume opt) (id : UInt32) :
    (v.nameRecord id).length = nameWidth opt :=
  length_nameEncode (v.name_length id)

theorem length_inodeRecord (v : Volume opt) (id : UInt32) :
    (v.inodeRecord id).length = sizeofInode :=
  rfl

theorem length_blockRecord (v : Volume opt) (id : UInt32) :
    (v.blockRecord id).length = blockWidth opt := by
  rw [blockRecord, List.length_append, length_blockEncode, v.data_length]
  rfl

theorem length_image (v : Volume opt) : v.image.length = totalSize opt := by
  simp only [image, names, inodes, blocks, List.length_append, v.length_preamble,
    length_hintsEncode, length_idTable v.length_nameRecord, length_idTable v.length_inodeRecord,
    length_idTable v.length_blockRecord, totalSize, blocksStart, inodesStart, headerSize]
  omega

end Volume

section Positions

variable {opt : Options} {id : UInt32}

theorem toNat_hintsOffset (opt : Options) :
    (hintsOffset opt).toNat = 46 + opt.magicLength.toNat := by
  have := opt.magicLength.toNat_lt
  simp only [hintsOffset, optionsOffset, clientMagicOffset, UInt32.toNat_add,
    UInt16.toNat_toUInt32, UInt32.toNat_ofNat, Nat.reducePow, Nat.reduceMod]
  omega

theorem toNat_inodeNamesOffset (opt : Options) : (inodeNamesOffset opt).toNat = headerSize opt := by
  have := opt.magicLength.toNat_lt
  simp only [inodeNamesOffset, UInt32.toNat_add, toNat_hintsOffset, UInt32.toNat_ofNat,
    Nat.reducePow, Nat.reduceMod, headerSize]
  omega

theorem toNat_sizeofBlock (h : Formattable opt) :
    (sizeofBlock opt).toNat = blockWidth opt := by
  have hfits := h.fits
  have hcount : 1 * blockWidth opt ≤ opt.blockCount.toNat * blockWidth opt :=
    Nat.mul_le_mul_right _ (by have := h.inodeCount; have := h.blockCount; omega)
  simp only [totalSize] at hfits
  simp only [blockWidth] at hcount hfits ⊢
  simp only [sizeofBlock, UInt32.toNat_add]
  change (_ + 14) % 2 ^ 32 = _
  omega

theorem toNat_inodesOffset (h : Formattable opt) :
    (inodesOffset opt).toNat = inodesStart opt := by
  have hfits := h.fits
  simp only [totalSize, blocksStart, inodesStart] at hfits ⊢
  simp only [inodesOffset, UInt32.toNat_add, UInt32.toNat_mul, sizeofName_toNat,
    toNat_inodeNamesOffset]
  change (_ + opt.inodeCount.toNat * nameWidth opt % 2 ^ 32) % 2 ^ 32 = _
  omega

theorem toNat_blocksOffset (h : Formattable opt) :
    (blocksOffset opt).toNat = blocksStart opt := by
  have hfits := h.fits
  simp only [totalSize, blocksStart] at hfits ⊢
  simp only [blocksOffset, UInt32.toNat_add, UInt32.toNat_mul, toNat_inodesOffset h]
  change (_ + opt.inodeCount.toNat * sizeofInode % 2 ^ 32) % 2 ^ 32 = _
  omega

theorem inodeIdIsValid_mk {image : List UInt8} :
    inodeIdIsValid ⟨image, opt⟩ id ↔ IsInode opt id :=
  inodeIdIsValid_iff

theorem blockIdIsValid_mk {image : List UInt8} :
    blockIdIsValid ⟨image, opt⟩ id ↔ IsBlock opt id :=
  blockIdIsValid_iff

theorem toNat_recordPos {start width : UInt32} {count bound : Nat} (hpos : 1 ≤ id.toNat)
    (hle : id.toNat ≤ count) (hbound : start.toNat + count * width.toNat ≤ bound)
    (hfits : bound < 2 ^ 32) :
    (start + (id - 1) * width).toNat = start.toNat + (id.toNat - 1) * width.toNat ∧
      start.toNat + (id.toNat - 1) * width.toNat + width.toNat ≤ bound := by
  have hone : (1 : UInt32) ≤ id := UInt32.le_iff_toNat_le.mpr hpos
  have hrow : (id.toNat - 1) * width.toNat + width.toNat ≤ count * width.toNat := by
    rw [← Nat.succ_mul]
    exact Nat.mul_le_mul_right _ (by omega)
  constructor
  · rw [UInt32.toNat_add, UInt32.toNat_mul, UInt32.toNat_sub_of_le _ _ hone]
    change (_ + (id.toNat - 1) * _ % 2 ^ 32) % 2 ^ 32 = _
    omega
  · omega

theorem toNat_inodeNamePos (image : List UInt8) (h : Formattable opt) (hvalid : IsInode opt id) :
    (inodeNamePos ⟨image, opt⟩ id).toNat =
      headerSize opt + (id.toNat - 1) * nameWidth opt := by
  have ⟨hpos, hle⟩ := hvalid
  have hbound : (inodeNamesOffset opt).toNat + opt.inodeCount.toNat * (sizeofName opt).toNat ≤
      totalSize opt := by
    rw [toNat_inodeNamesOffset, sizeofName_toNat, ← nameWidth, totalSize, blocksStart, inodesStart]
    omega
  have hcomm : inodeNamePos ⟨image, opt⟩ id = inodeNamesOffset opt + (id - 1) * sizeofName opt := by
    rw [inodeNamePos, UInt32.mul_comm]
  rw [hcomm, (toNat_recordPos hpos hle hbound h.fits).1, toNat_inodeNamesOffset, sizeofName_toNat,
    nameWidth]

theorem toNat_inodeIdPos (image : List UInt8) (h : Formattable opt) (hvalid : IsInode opt id) :
    (inodeIdPos ⟨image, opt⟩ id).toNat =
      inodesStart opt + (id.toNat - 1) * sizeofInode := by
  have ⟨hpos, hle⟩ := hvalid
  have hbound : (inodesOffset opt).toNat +
      opt.inodeCount.toNat * (UInt32.ofNat sizeofInode).toNat ≤ totalSize opt := by
    rw [toNat_inodesOffset h, totalSize, blocksStart]
    exact Nat.le_add_right _ _
  rw [inodeIdPos, if_pos (inodeIdIsValid_mk.mpr hvalid),
    (toNat_recordPos hpos hle hbound h.fits).1, toNat_inodesOffset h]
  rfl

theorem toNat_blockIdPos (image : List UInt8) (h : Formattable opt) (hvalid : IsBlock opt id) :
    (blockIdPos ⟨image, opt⟩ id).toNat = blocksStart opt + (id.toNat - 1) * blockWidth opt ∧
      blocksStart opt + (id.toNat - 1) * blockWidth opt + blockWidth opt ≤ totalSize opt := by
  have ⟨hpos, hle⟩ := hvalid
  have hbound : (blocksOffset opt).toNat + opt.blockCount.toNat * (sizeofBlock opt).toNat ≤
      totalSize opt := by
    rw [toNat_blocksOffset h, toNat_sizeofBlock h, totalSize]
  have hrecord := toNat_recordPos hpos hle hbound h.fits
  rw [toNat_blocksOffset h, toNat_sizeofBlock h] at hrecord
  rwa [blockIdPos, if_pos (blockIdIsValid_mk.mpr hvalid)]

theorem inodeIdPos_ne_zero (image : List UInt8) (h : Formattable opt) (hvalid : IsInode opt id) :
    inodeIdPos ⟨image, opt⟩ id ≠ 0 := by
  have hplace := toNat_inodeIdPos image h hvalid
  intro hzero
  rw [hzero, inodesStart, headerSize] at hplace
  change 0 = _ at hplace
  omega

theorem blockIdPos_ne_zero (image : List UInt8) (h : Formattable opt) (hvalid : IsBlock opt id) :
    blockIdPos ⟨image, opt⟩ id ≠ 0 := by
  have hplace := (toNat_blockIdPos image h hvalid).1
  intro hzero
  rw [hzero, blocksStart, inodesStart, headerSize] at hplace
  change 0 = _ at hplace
  omega

end Positions

namespace Volume

variable {opt : Options}

section Parts

variable (v : Volume opt)

theorem image_names : v.image = (v.preamble ++ hintsEncode v.hints) ++ (v.names ++
    (v.inodes ++ v.blocks)) := by
  rw [image, List.append_assoc]

theorem image_inodes : v.image = (v.preamble ++ hintsEncode v.hints ++ v.names) ++
    (v.inodes ++ v.blocks) := by
  rw [image_names, List.append_assoc (_ ++ _)]

theorem image_blocks : v.image = (v.preamble ++ hintsEncode v.hints ++ v.names ++ v.inodes) ++
    (v.blocks ++ []) := by
  rw [image_inodes, List.append_assoc (_ ++ _ ++ _), List.append_nil]

theorem length_before_names : (v.preamble ++ hintsEncode v.hints).length = headerSize opt := by
  rw [List.length_append, v.length_preamble, length_hintsEncode, headerSize]
  omega

theorem length_before_inodes :
    (v.preamble ++ hintsEncode v.hints ++ v.names).length = inodesStart opt := by
  rw [List.length_append, v.length_before_names, names, length_idTable v.length_nameRecord]
  rfl

theorem length_before_blocks :
    (v.preamble ++ hintsEncode v.hints ++ v.names ++ v.inodes).length = blocksStart opt := by
  rw [List.length_append, v.length_before_inodes, inodes, length_idTable v.length_inodeRecord]
  rfl

end Parts

section Reading

variable (v : Volume opt) {id : UInt32}

theorem inodeIdIsValid_fs {v : Volume opt} : inodeIdIsValid v.fs id ↔ IsInode opt id :=
  inodeIdIsValid_iff

theorem blockIdIsValid_fs {v : Volume opt} : blockIdIsValid v.fs id ↔ IsBlock opt id :=
  blockIdIsValid_iff

theorem nameRecord_eq (h : Formattable opt) (hvalid : IsInode opt id) :
    WhefsNames.nameRecord v.fs id = v.nameRecord id := by
  have ⟨hpos, hle⟩ := hvalid
  have hpart : (id.toNat - 1) * nameWidth opt + nameWidth opt ≤ v.names.length := by
    rw [names, length_idTable v.length_nameRecord, ← Nat.succ_mul]
    exact Nat.mul_le_mul_right _ (by omega)
  change window v.image (inodeNamePos v.fs id).toNat (sizeofName opt).toNat = _
  rw [fs, toNat_inodeNamePos v.image h hvalid, sizeofName_toNat, ← nameWidth, image_names,
    ← v.length_before_names, window_middle _ _ hpart]
  have hrecord := @window_idTable v.nameRecord _ _ 0 _ _ v.length_nameRecord hpos hle
    (Nat.zero_add (nameWidth opt)).le
  rwa [Nat.add_zero, window_all (v.length_nameRecord id)] at hrecord

theorem inodeIdRead_eq (h : Formattable opt) (hvalid : IsInode opt id) (tgt : Inode) :
    inodeIdRead v.fs id tgt = (.ok, v.inode id) := by
  have ⟨hpos, hle⟩ := hvalid
  have hpart : (id.toNat - 1) * sizeofInode + sizeofInode ≤ v.inodes.length := by
    rw [inodes, length_idTable v.length_inodeRecord, ← Nat.succ_mul]
    exact Nat.mul_le_mul_right _ (by omega)
  have hplace := toNat_inodeIdPos v.image h hvalid
  have hread : readAt v.image (inodeIdPos v.fs id) sizeofInode = v.inodeRecord id := by
    change window v.image (inodeIdPos v.fs id).toNat sizeofInode = _
    rw [fs, hplace, image_inodes, ← v.length_before_inodes, window_middle _ _ hpart]
    have hrecord := @window_idTable v.inodeRecord _ _ 0 _ _ v.length_inodeRecord hpos hle
      (Nat.zero_add sizeofInode).le
    rwa [Nat.add_zero, window_all (v.length_inodeRecord id)] at hrecord
  have hne : inodeIdPos v.fs id ≠ 0 := inodeIdPos_ne_zero v.image h hvalid
  rw [inodeIdRead, if_neg (not_not_intro (inodeIdIsValid_fs.mpr hvalid))]
  simp only [if_neg hne]
  change (if (readAt v.image _ _).length ≠ _ then _ else inodeDecode tgt (readAt v.image _ _)) = _
  rw [hread, if_neg (not_not_intro (v.length_inodeRecord id)), inodeRecord,
    inodeDecode_inodeEncode]

theorem window_blockRecord (h : Formattable opt) (hvalid : IsBlock opt id) {j n : Nat}
    (hj : j + n ≤ blockWidth opt) :
    window v.image ((blockIdPos v.fs id).toNat + j) n = window (v.blockRecord id) j n := by
  have ⟨hpos, hle⟩ := hvalid
  have hpart : (id.toNat - 1) * blockWidth opt + (j + n) ≤ v.blocks.length := by
    rw [blocks, length_idTable v.length_blockRecord]
    have hrow : (id.toNat - 1 + 1) * blockWidth opt ≤ opt.blockCount.toNat * blockWidth opt :=
      Nat.mul_le_mul_right _ (by omega)
    rw [Nat.succ_mul] at hrow
    omega
  rw [fs, (toNat_blockIdPos v.image h hvalid).1, Nat.add_assoc, image_blocks,
    ← v.length_before_blocks, window_middle _ _ (by rwa [Nat.add_assoc]), blocks,
    window_idTable v.length_blockRecord hpos hle hj]

theorem blockRead_eq (h : Formattable opt) (hvalid : IsBlock opt id) :
    blockRead v.fs id = .ok (v.block id) := by
  have hplace := toNat_blockIdPos v.image h hvalid
  have hread :
      readAt v.image (blockIdPos v.fs id) sizeofBlockHeader = blockEncode (v.block id) := by
    have hwindow := v.window_blockRecord (j := 0) (n := sizeofBlockHeader) h hvalid (by
      rw [blockWidth, sizeofBlockHeader]
      omega)
    rwa [Nat.add_zero, blockRecord, window_left (Nat.zero_add sizeofBlockHeader).le,
      window_all (length_blockEncode _)] at hwindow
  have hne : blockIdPos v.fs id ≠ 0xffffffff := by
    intro heq
    have hfits := h.fits
    have hwidth := h.blockSize
    rw [fs] at heq
    rw [heq] at hplace
    change 2 ^ 32 - 1 = _ ∧ _ at hplace
    rw [← hplace.1, blockWidth] at hplace
    omega
  rw [blockRead, if_neg (not_not_intro (blockIdIsValid_fs.mpr hvalid))]
  simp only [if_neg hne]
  change (if (readAt v.image _ _).length ≠ _ then _ else blockDecode (readAt v.image _ _)) = _
  rw [hread, if_neg (not_not_intro (length_blockEncode _)), blockDecode_blockEncode]

theorem toNat_blockDataPos (h : Formattable opt) (hvalid : IsBlock opt id) {j : Nat}
    (hj : j ≤ opt.blockSize.toNat) :
    (blockDataPos v.fs (v.block id) + UInt32.ofNat j).toNat =
      (blockIdPos v.fs id).toNat + (14 + j) := by
  have hplace := toNat_blockIdPos v.image h hvalid
  have hfits := h.fits
  have hne : blockIdPos v.fs id ≠ 0 := blockIdPos_ne_zero v.image h hvalid
  rw [blockDataPos, v.block_id]
  simp only [if_neg hne]
  rw [fs]
  rw [blockWidth] at hplace
  simp only [UInt32.toNat_add, UInt32.toNat_ofNat']
  change ((_ + 14) % 2 ^ 32 + _) % 2 ^ 32 = _
  omega

theorem readAt_data (h : Formattable opt) (hvalid : IsBlock opt id) {j n : Nat}
    (hj : j + n ≤ opt.blockSize.toNat) :
    readAt v.image (blockDataPos v.fs (v.block id) + UInt32.ofNat j) n =
      window (v.data id) j n := by
  change window v.image (blockDataPos v.fs (v.block id) + UInt32.ofNat j).toNat n = _
  rw [v.toNat_blockDataPos h hvalid (by omega), v.window_blockRecord h hvalid (by
      rw [blockWidth]
      omega), blockRecord]
  exact window_right (blockEncode (v.block id)) (v.data id) j n

end Reading

section Writing

variable (v : Volume opt) {id : UInt32}

theorem writeAt_idTable {before behind image ys : List UInt8} {g : UInt32 → List UInt8}
    {w n j : Nat} {pos : UInt32} (himage : image = before ++ (idTable g n ++ behind))
    (hplace : pos.toNat = before.length + ((id.toNat - 1) * w + j))
    (hw : ∀ id, (g id).length = w) (hpos : 1 ≤ id.toNat) (hle : id.toNat ≤ n) (hn : n < 2 ^ 32)
    (hj : j + ys.length ≤ w) :
    writeAt image pos ys =
      before ++ (idTable (Function.update g id (overwrite (g id) j ys)) n ++ behind) := by
  have hrow : (id.toNat - 1 + 1) * w ≤ n * w := Nat.mul_le_mul_right _ (by omega)
  rw [Nat.succ_mul] at hrow
  have hpart : (id.toNat - 1) * w + j + ys.length ≤ (idTable g n).length := by
    rw [length_idTable hw]
    omega
  have hwithin : pos.toNat ≤ image.length := by
    rw [himage, hplace, List.length_append, List.length_append]
    omega
  rw [writeAt_of_le hwithin, himage, hplace, overwrite_middle _ _ hpart,
    overwrite_idTable hw hpos hle hn hj]

theorem writeAt_hints (hints : Hints) :
    writeAt v.image (hintsOffset opt) (hintsEncode hints) = (v.setHints hints).image := by
  have hplace : (hintsOffset opt).toNat = v.preamble.length + 0 := by
    rw [toNat_hintsOffset, v.length_preamble, Nat.add_zero]
  have hwithin : (hintsOffset opt).toNat ≤ v.image.length := by
    rw [hplace, image, List.length_append, Nat.add_zero]
    exact Nat.le_add_right _ _
  rw [writeAt_of_le hwithin, hplace, image, overwrite_middle _ _ (by simp), overwrite_all (by simp)]
  rfl

theorem writeAt_name (h : Formattable opt) (hvalid : IsInode opt id) {name : List UInt8}
    (hlen : name.length ≤ opt.filenameLength.toNat) (hne : 0 ∉ name) :
    writeAt v.image (inodeNamePos v.fs id) (nameEncode opt id name) =
      (v.setName id name hlen hne).image := by
  have ⟨hpos, hle⟩ := hvalid
  have hplace : (inodeNamePos v.fs id).toNat =
      (v.preamble ++ hintsEncode v.hints).length + ((id.toNat - 1) * nameWidth opt + 0) := by
    rw [v.length_before_names, Nat.add_zero]
    exact toNat_inodeNamePos v.image h hvalid
  have hwidth : 0 + (nameEncode opt id name).length ≤ nameWidth opt :=
    ((Nat.zero_add _).trans (length_nameEncode hlen)).le
  have hrecords : (v.setName id name hlen hne).nameRecord =
      Function.update v.nameRecord id (nameEncode opt id name) :=
    funext fun i => Function.apply_update (fun i name => nameEncode opt i name) v.name id name i
  rw [writeAt_idTable v.image_names hplace v.length_nameRecord hpos hle
    opt.inodeCount.toNat_lt hwidth, overwrite_all (by
      rw [length_nameEncode hlen, v.length_nameRecord, nameWidth]), image_names, names, hrecords]
  rfl

theorem writeAt_inode (h : Formattable opt) {ino : Inode} (hvalid : IsInode opt ino.id) :
    writeAt v.image (inodeIdPos v.fs ino.id) (inodeEncode ino) = (v.setInode ino).image := by
  have ⟨hpos, hle⟩ := hvalid
  have hplace : (inodeIdPos v.fs ino.id).toNat =
      (v.preamble ++ hintsEncode v.hints ++ v.names).length +
        ((ino.id.toNat - 1) * sizeofInode + 0) := by
    rw [v.length_before_inodes, Nat.add_zero]
    exact toNat_inodeIdPos v.image h hvalid
  have hrecord : overwrite (v.inodeRecord ino.id) 0 (inodeEncode ino) = inodeEncode ino :=
    overwrite_all rfl
  have hrecords : (v.setInode ino).inodeRecord =
      Function.update v.inodeRecord ino.id (inodeEncode ino) :=
    funext fun i => Function.apply_update (fun _ => inodeEncode) v.inode ino.id ino i
  rw [writeAt_idTable v.image_inodes hplace v.length_inodeRecord hpos hle
    opt.inodeCount.toNat_lt (by simp), hrecord, image_inodes, inodes, hrecords]
  rfl

theorem writeAt_blockRecord (h : Formattable opt) (hvalid : IsBlock opt id)
    {pos : UInt32} {j : Nat} {ys : List UInt8} (hplace : pos.toNat = (blockIdPos v.fs id).toNat + j)
    (hj : j + ys.length ≤ blockWidth opt) :
    writeAt v.image pos ys = (v.preamble ++ hintsEncode v.hints ++ v.names ++ v.inodes) ++
      (idTable (Function.update v.blockRecord id (overwrite (v.blockRecord id) j ys))
        opt.blockCount.toNat ++ []) := by
  have ⟨hpos, hle⟩ := hvalid
  refine writeAt_idTable v.image_blocks ?_ v.length_blockRecord hpos hle opt.blockCount.toNat_lt hj
  rw [v.length_before_blocks, hplace, ← Nat.add_assoc]
  exact congrArg (· + j) (toNat_blockIdPos v.image h hvalid).1

theorem writeAt_block (h : Formattable opt) {bl : Block} (hvalid : IsBlock opt bl.id) :
    writeAt v.image (blockIdPos v.fs bl.id) (blockEncode bl) = (v.setBlock bl).image := by
  have hrecord : overwrite (v.blockRecord bl.id) 0 (blockEncode bl) =
      blockEncode bl ++ v.data bl.id := by
    rw [blockRecord, overwrite_left (by simp), overwrite_all (by simp)]
  have hrecords : (v.setBlock bl).blockRecord =
      Function.update v.blockRecord bl.id (blockEncode bl ++ v.data bl.id) :=
    funext fun i =>
      Function.apply_update (fun i bl => blockEncode bl ++ v.data i) v.block bl.id bl i
  rw [v.writeAt_blockRecord h hvalid (Nat.add_zero _).symm (by
      rw [length_blockEncode, blockWidth, sizeofBlockHeader]
      omega), hrecord, image_blocks, blocks, hrecords]
  rfl

theorem writeAt_data (h : Formattable opt) (hvalid : IsBlock opt id) {j : Nat}
    {ys : List UInt8} (hj : j + ys.length ≤ opt.blockSize.toNat) :
    writeAt v.image (blockDataPos v.fs (v.block id) + UInt32.ofNat j) ys =
      (v.setData id (overwrite (v.data id) j ys)
        ((length_overwrite (by rwa [v.data_length])).trans (v.data_length id))).image := by
  have hrecord : overwrite (v.blockRecord id) (14 + j) ys =
      blockEncode (v.block id) ++ overwrite (v.data id) j ys :=
    overwrite_right (blockEncode (v.block id)) (v.data id) j ys
  have hrecords : ∀ hlen, (v.setData id (overwrite (v.data id) j ys) hlen).blockRecord =
      Function.update v.blockRecord id
        (blockEncode (v.block id) ++ overwrite (v.data id) j ys) :=
    fun _ => funext fun i => Function.apply_update
      (fun i bytes => blockEncode (v.block i) ++ bytes) v.data id (overwrite (v.data id) j ys) i
  rw [v.writeAt_blockRecord h hvalid (v.toNat_blockDataPos h hvalid (by omega)) (by
      rw [blockWidth]
      omega), hrecord, image_blocks, blocks, hrecords]
  rfl

end Writing

end Volume

end Iqiq.WhefsVolume
