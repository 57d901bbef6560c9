import Iqiq.WhefsDisk

namespace Iqiq.WhefsMkfs

open Iqiq.RecordTable
open Iqiq.Whefs
open Iqiq.WhefsDisk
open Iqiq.WhefsEncode
open Iqiq.WhefsFiles
open Iqiq.WhefsNames
open Iqiq.WhefsVolume

/-- `whefs_fs_calculate_size`. -/
def calculateSize (opt : Options) : UInt32 :=
  20 + 5 + 3 + opt.magicLength.toUInt32 + 18 + 11 + sizeofName opt * opt.inodeCount +
    UInt32.ofNat sizeofInode * opt.inodeCount + sizeofBlock opt * opt.blockCount

/-- `whefs_mkfs_stage1`, for options with a magic. -/
def mkfsStage1 (opt : Options) : Run Rc :=
  if opt.inodeCount < 2 ∨ opt.blockSize < 32 ∨ opt.filenameLength = 0 ∨
      opt.filenameLength > 128 ∨ opt.magicLength = 0 ∨ opt.blockCount < opt.inodeCount then
    .ok .rangeError
  else initBitsets opt

/-- What `truncate` makes of the file: what is new in it is zero. -/
def devTruncate (image : List UInt8) (size : Nat) : List UInt8 :=
  image.take size ++ List.replicate (size - image.length) 0

def mkfsWriteMagic (d : Disk) (filesize : UInt32) (magic : List UInt8) : Disk :=
  d.write 0 (magicBytes.flatMap encodeUint32 ++ (encodeUint32 filesize ++
    (encodeUint16 d.fs.options.magicLength ++ magic)))

def mkfsWriteOptions (d : Disk) : Disk :=
  d.write (optionsOffset d.fs.options) (optionsEncode d.fs.options)

/-- A loop of `mkfs` over the `left` ids from `i` on, which an error ends. -/
def eachId (step : Disk → UInt32 → Code × Disk) : Nat → Disk → UInt32 → Code × Disk
  | 0, d, _ => (.of .ok, d)
  | left + 1, d, i =>
      match step d i with
      | (.of .ok, d) => eachId step left d (i + 1)
      | (rc, d) => (rc, d)

def mkfsWriteNamesTable (d : Disk) : Code × Disk :=
  eachId (fun d i => nameWrite d i []) d.fs.options.inodeCount.toNat d 1

def mkfsWriteInodelist (d : Disk) : Code × Disk :=
  eachId
    (fun d i => (.of .ok, d.write (inodeIdPos d.fs i) (inodeEncode { inodeEmpty with id := i })))
    d.fs.options.inodeCount.toNat d 1

/-- The blocks are wiped one by one, `whefs_block_wipe` not being asked to go deep. -/
def mkfsWriteBlocklist (d : Disk) : Code × Disk :=
  eachId (fun d i => blockWipeOne d (unusedBlock i) true true) d.fs.options.blockCount.toNat d 1

/-- The `CHECKRC` of `whefs_mkfs_stage2`. -/
def checked (result : Code × Disk) (next : Disk → Code × Disk) : Code × Disk :=
  match result with
  | (.of .ok, d) => next d
  | (rc, d) => (rc, d)

def mkfsWriteTables (d : Disk) : Code × Disk :=
  checked (hintsWrite d) fun d => checked (mkfsWriteNamesTable d) fun d =>
    checked (mkfsWriteInodelist d) mkfsWriteBlocklist

/-- The file's size is known, and written, at the end only. -/
def mkfsWriteFilesize (d : Disk) : Disk :=
  d.write 20 (encodeUint32 (UInt32.ofNat d.fs.image.length))

/-- The hints of `whefs_fs_empty`. -/
def firstHints : Hints :=
  ⟨2, 1⟩

/-- `whefs_mkfs_stage2` on a device that holds `image`. -/
def mkfsStage2 (opt : Options) (magic image : List UInt8) : Except Code Disk :=
  let size := calculateSize opt
  let d : Disk := ⟨⟨devTruncate image size.toNat, opt⟩, firstHints⟩
  match mkfsWriteTables (mkfsWriteOptions (mkfsWriteMagic d 0 magic)) with
  | (.of .ok, d) =>
      if size ≠ UInt32.ofNat d.fs.image.length then .error (.of .consistencyError)
      else .ok (mkfsWriteFilesize d)
  | (rc, _) => .error rc

/-- `whefs_mkfs_dev`. -/
def mkfs (opt : Options) (magic image : List UInt8) : Run (Except Code Disk) := do
  let rc ← mkfsStage1 opt
  if rc ≠ .ok then return .error (.of rc) else return mkfsStage2 opt magic image

section

variable {opt : Options}

theorem initBitsets_eq_ok (hcount : opt.inodeCount.toNat < 2 ^ 32 - 1)
    (hpos : 1 ≤ opt.inodeCount.toNat) (hblocks : opt.blockCount.toNat < 2 ^ 32 - 1) :
    initBitsets opt = .ok .ok := by
  have hinodes : (opt.inodeCount + 1).toNat = opt.inodeCount.toNat + 1 := by
    rw [UInt32.toNat_add]
    change (_ + 1) % 2 ^ 32 = _
    omega
  have hblocks' : (opt.blockCount + 1).toNat = opt.blockCount.toNat + 1 := by
    rw [UInt32.toNat_add]
    change (_ + 1) % 2 ^ 32 = _
    omega
  have hne : ∀ n : UInt32, 1 ≤ n.toNat → n ≠ 0 := by
    rintro n hn rfl
    exact absurd hn (by decide)
  have hone : 1 < opt.inodeCount + 1 := by
    rw [UInt32.lt_iff_toNat_lt, hinodes]
    change 1 < _
    omega
  rw [initBitsets, if_neg (hne _ (by omega)), if_neg (not_not_intro hone),
    if_neg (hne _ (by omega))]

theorem initBitsets_of_formattable (hopt : Formattable opt) : initBitsets opt = .ok .ok := by
  have hfits := hopt.fits
  have hwide : opt.blockCount.toNat * 14 ≤ opt.blockCount.toNat * blockWidth opt :=
    Nat.mul_le_mul_left _ (Nat.le_add_right _ _)
  have hcount := hopt.blockCount
  have hinodes := hopt.inodeCount
  rw [totalSize] at hfits
  exact initBitsets_eq_ok (by omega) (by omega) (by omega)

/-- The first stage lets through what can be formatted, unless the sizes overflow. -/
theorem mkfsStage1_eq_ok_iff :
    mkfsStage1 opt = .ok .ok ∧ totalSize opt < 2 ^ 32 ↔ Formattable opt := by
  have hzero : ∀ n : UInt16, n = 0 ↔ n.toNat = 0 := fun n => UInt16.toNat_inj.symm
  constructor
  · rintro ⟨hok, hfits⟩
    rw [mkfsStage1] at hok
    split at hok
    · simp at hok
    · rename_i hrange
      simp only [not_or, UInt32.lt_iff_toNat_lt, gt_iff_lt, UInt16.lt_iff_toNat_lt, hzero] at hrange
      obtain ⟨hinodes, hsize, hname, hlong, hmagic, hblocks⟩ := hrange
      change ¬ _ < 2 at hinodes
      change ¬ _ < 32 at hsize
      change ¬ 128 < _ at hlong
      exact ⟨by omega, by omega, by omega, by omega, by omega, by omega, hfits⟩
  · intro h
    refine ⟨?_, h.fits⟩
    rw [mkfsStage1, if_neg, initBitsets_of_formattable h]
    simp only [not_or, UInt32.lt_iff_toNat_lt, gt_iff_lt, UInt16.lt_iff_toNat_lt, hzero]
    have := h.blockCount
    have := h.inodeCount
    have := h.blockSize
    have := h.filenameLength_pos
    have := h.filenameLength_le
    have := h.magicLength
    refine ⟨?_, ?_, ?_, ?_, ?_, ?_⟩
    · change ¬ _ < 2
      omega
    · change ¬ _ < 32
      omega
    · omega
    · change ¬ 128 < _
      omega
    · omega
    · omega

theorem toNat_calculateSize (hopt : Formattable opt) :
    (calculateSize opt).toNat = totalSize opt := by
  have hfits := hopt.fits
  have hmagic := opt.magicLength.toNat_lt
  have hinode : (UInt32.ofNat sizeofInode).toNat = sizeofInode := rfl
  simp only [totalSize, blocksStart, inodesStart, headerSize] at hfits ⊢
  simp only [calculateSize, UInt32.toNat_add, UInt32.toNat_mul, sizeofName_toNat,
    toNat_sizeofBlock hopt, UInt16.toNat_toUInt32, UInt32.toNat_ofNat, hinode, Nat.reducePow,
    Nat.reduceMod]
  rw [← nameWidth, Nat.mul_comm (nameWidth opt), Nat.mul_comm sizeofInode,
    Nat.mul_comm (blockWidth opt)]
  generalize opt.inodeCount.toNat * nameWidth opt = a at *
  generalize opt.inodeCount.toNat * sizeofInode = b at *
  generalize opt.blockCount.toNat * blockWidth opt = c at *
  omega

end

section

variable {opt : Options} {hints : Hints} {d : Disk} {before ys : List UInt8} {pos : UInt32}

/-- The file begins with `before`; what comes behind it need not be known. -/
structure Begins (opt : Options) (hints : Hints) (d : Disk) (before : List UInt8) : Prop where
  options : d.fs.options = opt
  hints : d.hints = hints
  image : ∃ rest, d.fs.image = before ++ rest
  length : d.fs.image.length = totalSize opt

theorem Begins.write (h : Begins opt hints d before) (hpos : pos.toNat = before.length)
    (hfits : before.length + ys.length ≤ totalSize opt) :
    Begins opt hints (d.write pos ys) (before ++ ys) := by
  obtain ⟨rest, hrest⟩ := h.image
  have hlen := h.length
  have hbefore : pos.toNat ≤ d.fs.image.length := by omega
  have himage : writeAt d.fs.image pos ys = before ++ ys ++ rest.drop ys.length := by
    rw [writeAt_of_le hbefore, hpos, hrest, overwrite_next]
  refine ⟨h.options, h.hints, ⟨_, himage⟩, ?_⟩
  change (writeAt d.fs.image pos ys).length = _
  rw [writeAt_of_le hbefore, length_overwrite (by omega), hlen]

theorem idOf_add_one (k : Nat) : idOf k + 1 = idOf (k + 1) := by
  rw [idOf, idOf, UInt32.ofNat_add (k + 1)]
  rfl

theorem idTable_succ (g : UInt32 → List UInt8) (k : Nat) :
    idTable g (k + 1) = idTable g k ++ g (idOf k) :=
  table_succ _ k

theorem begins_eachId {step : Disk → UInt32 → Code × Disk} {g : UInt32 → List UInt8}
    {hintsAt : Nat → Hints} {n k₀ : Nat}
    (hstep : ∀ k, k₀ ≤ k → k < n → ∀ d, Begins opt (hintsAt k) d (before ++ idTable g k) →
      ∃ d', step d (idOf k) = (.of .ok, d') ∧
        Begins opt (hintsAt (k + 1)) d' (before ++ idTable g k ++ g (idOf k)))
    {left k : Nat} (hk : k₀ ≤ k) (hsum : k + left = n)
    (h : Begins opt (hintsAt k) d (before ++ idTable g k)) :
    ∃ d', eachId step left d (idOf k) = (.of .ok, d') ∧
      Begins opt (hintsAt n) d' (before ++ idTable g n) := by
  induction left generalizing k d with
  | zero =>
      obtain rfl : k = n := hsum
      exact ⟨d, rfl, h⟩
  | succ left ih =>
      obtain ⟨d', hrun, hd'⟩ := hstep k hk (by omega) d h
      rw [List.append_assoc, ← idTable_succ] at hd'
      obtain ⟨d'', hrun', hd''⟩ := ih (by omega) (by omega) hd'
      refine ⟨d'', ?_, hd''⟩
      rw [eachId, hrun]
      simp only
      rw [idOf_add_one, hrun']

theorem begins_table {step : Disk → UInt32 → Code × Disk} {g : UInt32 → List UInt8} {n : Nat}
    (hstep : ∀ k < n, ∀ d, Begins opt hints d (before ++ idTable g k) →
      ∃ d', step d (idOf k) = (.of .ok, d') ∧
        Begins opt hints d' (before ++ idTable g k ++ g (idOf k)))
    (h : Begins opt hints d before) :
    ∃ d', eachId step n d 1 = (.of .ok, d') ∧ Begins opt hints d' (before ++ idTable g n) := by
  have hall := @begins_eachId opt d before step g (fun _ => hints) n 0 fun k _ => hstep k
  refine hall (Nat.zero_le 0) (Nat.zero_add n) ?_
  rw [idTable, table_zero, List.append_nil]
  exact h

theorem isInode_idOf {k : Nat} (hk : k < opt.inodeCount.toNat) : IsInode opt (idOf k) := by
  have := opt.inodeCount.toNat_lt
  rw [IsInode, toNat_idOf (by omega)]
  omega

theorem isBlock_idOf {k : Nat} (hk : k < opt.blockCount.toNat) : IsBlock opt (idOf k) := by
  have := opt.blockCount.toNat_lt
  rw [IsBlock, toNat_idOf (by omega)]
  omega

theorem toNat_idOf_pred {k n : Nat} (hk : k < n) (hn : n < 2 ^ 32) : (idOf k).toNat - 1 = k := by
  rw [toNat_idOf (by omega)]
  omega

theorem row_le {k n : Nat} (hk : k < n) (w : Nat) : k * w + w ≤ n * w := by
  rw [← Nat.succ_mul]
  exact Nat.mul_le_mul_right w hk

theorem Begins.fs_eq (h : Begins opt hints d before) : d.fs = ⟨d.fs.image, opt⟩ := by
  rw [← h.options]

theorem Begins.image_eq (h : Begins opt hints d before) (hlen : before.length = totalSize opt) :
    d.fs.image = before := by
  obtain ⟨rest, hrest⟩ := h.image
  have hlength := h.length
  rw [hrest, List.length_append] at hlength
  rw [hrest, List.eq_nil_of_length_eq_zero (by omega : rest.length = 0), List.append_nil]

/-- A file with no names and nothing in use. -/
def blank (opt : Options) (magic : List UInt8) (hmagic : magic.length = opt.magicLength.toNat) :
    Volume opt where
  magic := magic
  hints := firstHints
  name _ := []
  inode id := { inodeEmpty with id }
  block := unusedBlock
  data _ := List.replicate opt.blockSize.toNat 0
  magic_length := hmagic
  name_length _ := Nat.zero_le _
  name_ne _ := List.not_mem_nil
  inode_id _ := rfl
  block_id _ := rfl
  data_length _ := List.length_replicate

variable {v : Volume opt}

theorem begins_names (hopt : Formattable opt) (hname : ∀ id, v.name id = [])
    (hbefore : before.length = headerSize opt) (h : Begins opt hints d before) :
    ∃ d', mkfsWriteNamesTable d = (.of .ok, d') ∧ Begins opt hints d' (before ++ v.names) := by
  rw [mkfsWriteNamesTable, h.options]
  refine begins_table (fun k hk d hd => ?_) h
  have hrow := row_le hk (nameWidth opt)
  have hvalid := isInode_idOf hk
  have hplace : (inodeNamePos d.fs (idOf k)).toNat = (before ++ idTable v.nameRecord k).length := by
    rw [hd.fs_eq, toNat_inodeNamePos _ hopt hvalid, toNat_idOf_pred hk opt.inodeCount.toNat_lt,
      List.length_append, hbefore, length_idTable v.length_nameRecord]
  have hrecord : nameEncode opt (idOf k) [] = v.nameRecord (idOf k) := by
    rw [Volume.nameRecord, hname]
  have hnext := @Begins.write _ _ _ _ (v.nameRecord (idOf k)) _ hd hplace (by
    rw [List.length_append, hbefore, length_idTable v.length_nameRecord, v.length_nameRecord,
      totalSize, blocksStart, inodesStart]
    omega)
  refine ⟨_, ?_, hnext⟩
  have hvalid' : inodeIdIsValid d.fs (idOf k) = true := by
    rw [hd.fs_eq]
    exact inodeIdIsValid_iff.mpr hvalid
  have hshort : ¬ ([] : List UInt8).length > opt.filenameLength.toNat := Nat.not_lt_zero _
  rw [nameWrite, if_neg (not_not_intro hvalid'), hd.options, if_neg hshort, hrecord]

theorem begins_inodes (hopt : Formattable opt) (hinode : ∀ id, v.inode id = { inodeEmpty with id })
    (hbefore : before.length = inodesStart opt) (h : Begins opt hints d before) :
    ∃ d', mkfsWriteInodelist d = (.of .ok, d') ∧ Begins opt hints d' (before ++ v.inodes) := by
  rw [mkfsWriteInodelist, h.options]
  refine begins_table (fun k hk d hd => ?_) h
  have hrow := row_le hk sizeofInode
  have hplace : (inodeIdPos d.fs (idOf k)).toNat =
      (before ++ idTable v.inodeRecord k).length := by
    rw [hd.fs_eq, toNat_inodeIdPos _ hopt (isInode_idOf hk),
      toNat_idOf_pred hk opt.inodeCount.toNat_lt, List.length_append, hbefore,
      length_idTable v.length_inodeRecord]
  have hrecord : inodeEncode { inodeEmpty with id := idOf k } = v.inodeRecord (idOf k) := by
    rw [Volume.inodeRecord, hinode]
  have hnext := @Begins.write _ _ _ _ (v.inodeRecord (idOf k)) _ hd hplace (by
    rw [List.length_append, hbefore, length_idTable v.length_inodeRecord, v.length_inodeRecord,
      totalSize, blocksStart]
    omega)
  refine ⟨_, ?_, hnext⟩
  rw [hrecord]

/-- The hints when the blocks behind the first `k₀` have been wiped, up to the first `k`. -/
def loweredFrom (hints : Hints) (k₀ k : Nat) : Hints :=
  if k ≤ k₀ then hints else lowerBlock hints (idOf k₀)

theorem lowerBlock_loweredFrom {k₀ k : Nat} (hk : k₀ ≤ k) (hlt : k + 1 < 2 ^ 32) :
    lowerBlock (loweredFrom hints k₀ k) (idOf k) = loweredFrom hints k₀ (k + 1) := by
  rw [loweredFrom, loweredFrom, if_neg (by omega : ¬ k + 1 ≤ k₀)]
  split
  · rw [(by omega : k = k₀)]
  · rename_i hne
    have hle : (lowerBlock hints (idOf k₀)).unusedBlockStart.toNat ≤ k₀ + 1 := by
      rw [lowerBlock, ← toNat_idOf (by omega : k₀ + 1 < 2 ^ 32)]
      split
      · exact Nat.le_refl _
      · rename_i hnot
        exact Nat.not_lt.mp (mt UInt32.lt_iff_toNat_lt.mpr hnot)
    refine if_neg ?_
    rw [UInt32.lt_iff_toNat_lt, toNat_idOf hlt]
    omega

/-- A block's header has been written. -/
def headed (d : Disk) (id : UInt32) : Disk :=
  d.write (blockIdPos d.fs id) (blockEncode (unusedBlock id))

def lowered (d : Disk) (id : UInt32) : Disk :=
  { d with hints := lowerBlock d.hints id }

theorem blockWipeMeta_eq (hopt : Formattable opt) {id : UInt32} (hid : IsBlock opt id)
    (h : Begins opt hints d before) :
    blockWipeMeta d (unusedBlock id) = (.of .ok, lowered (headed d id) id) := by
  have hne : blockIdPos d.fs id ≠ 0 := by
    rw [h.fs_eq]
    exact blockIdPos_ne_zero _ hopt hid
  have hflush : blockFlush d (unusedBlock id) = (.of .ok, headed d id) := by
    rw [blockFlush]
    exact if_neg hne
  rw [blockWipeMeta, show unusedBlock (unusedBlock id).id = unusedBlock id from rfl, hflush]
  rfl

theorem blockWipeOne_eq (hopt : Formattable opt) {id : UInt32} (hid : IsBlock opt id)
    (h : Begins opt hints d before) :
    blockWipeOne d (unusedBlock id) true true =
      (.of .ok, (lowered (headed d id) id).write
        (blockDataPos (headed d id).fs (unusedBlock id) + 0)
        (List.replicate opt.blockSize.toNat 0)) := by
  have hvalid : blockIdIsValid d.fs (unusedBlock id).id = true := by
    rw [h.fs_eq]
    exact blockIdIsValid_mk.mpr hid
  have hsize : ¬ (0 : UInt32) ≥ opt.blockSize := by
    have := hopt.blockSize
    rw [ge_iff_le, UInt32.le_iff_toNat_le]
    change ¬ _ ≤ 0
    omega
  have hopt' : (lowered (headed d id) id).fs.options = opt := h.options
  rw [blockWipeOne, if_neg (not_not_intro hvalid), if_pos rfl, blockWipeMeta_eq hopt hid h]
  simp only [if_true]
  rw [blockWipeData]
  simp only [hopt', if_neg hsize, UInt32.sub_zero]
  rfl

theorem Begins.lowered (h : Begins opt hints d before) (id : UInt32) :
    Begins opt (lowerBlock hints id) (lowered d id) before :=
  ⟨h.options, congrArg (fun hints => lowerBlock hints id) h.hints, h.image, h.length⟩

theorem begins_blocks (hopt : Formattable opt) {k₀ : Nat} (hk₀ : k₀ ≤ opt.blockCount.toNat)
    (hblank : ∀ k, k₀ ≤ k → k < opt.blockCount.toNat → v.block (idOf k) = unusedBlock (idOf k) ∧
      v.data (idOf k) = List.replicate opt.blockSize.toNat 0)
    (hbefore : before.length = blocksStart opt)
    (h : Begins opt hints d (before ++ idTable v.blockRecord k₀)) :
    ∃ d', eachId (fun d i => blockWipeOne d (unusedBlock i) true true)
        (opt.blockCount.toNat - k₀) d (idOf k₀) = (.of .ok, d') ∧
      Begins opt (loweredFrom hints k₀ opt.blockCount.toNat) d' (before ++ v.blocks) := by
  have hstart : loweredFrom hints k₀ k₀ = hints := if_pos (Nat.le_refl k₀)
  have hall := @begins_eachId opt d before (fun d i => blockWipeOne d (unusedBlock i) true true)
    v.blockRecord (loweredFrom hints k₀) opt.blockCount.toNat k₀
  refine hall (fun k hle hk d hd => ?_) (Nat.le_refl k₀) (by omega) (hstart.symm ▸ h)
  have hcount := opt.blockCount.toNat_lt
  have hrow := row_le hk (blockWidth opt)
  have hvalid := isBlock_idOf hk
  obtain ⟨hblock, hdata⟩ := hblank k hle hk
  have hwidth : blockWidth opt = 14 + opt.blockSize.toNat := rfl
  have hlen :
      (before ++ idTable v.blockRecord k).length = blocksStart opt + k * blockWidth opt := by
    rw [List.length_append, hbefore, length_idTable v.length_blockRecord]
  have hplace : (blockIdPos d.fs (idOf k)).toNat = (before ++ idTable v.blockRecord k).length := by
    rw [hd.fs_eq, (toNat_blockIdPos _ hopt hvalid).1, toNat_idOf_pred hk opt.blockCount.toNat_lt,
      hlen]
  -- the header first, then the zeros of the data
  have hhead : Begins opt (loweredFrom hints k₀ k) (headed d (idOf k))
      (before ++ idTable v.blockRecord k ++ blockEncode (unusedBlock (idOf k))) := by
    refine hd.write hplace ?_
    rw [hlen, length_blockEncode, totalSize, sizeofBlockHeader]
    omega
  have hdataPlace := v.toNat_blockDataPos hopt hvalid (Nat.zero_le _)
  rw [hblock] at hdataPlace
  have hplace' : (blockDataPos (headed d (idOf k)).fs (unusedBlock (idOf k)) + 0).toNat =
      (before ++ idTable v.blockRecord k ++ blockEncode (unusedBlock (idOf k))).length := by
    rw [hhead.fs_eq, List.length_append, length_blockEncode, ← hplace, hd.fs_eq]
    exact hdataPlace
  have hrecord : blockEncode (unusedBlock (idOf k)) ++ List.replicate opt.blockSize.toNat 0 =
      v.blockRecord (idOf k) := by
    rw [Volume.blockRecord, hblock, hdata]
  have hlowered := hhead.lowered (idOf k)
  rw [lowerBlock_loweredFrom hle (by omega)] at hlowered
  refine ⟨_, blockWipeOne_eq hopt hvalid hd, ?_⟩
  rw [← hrecord, ← List.append_assoc]
  refine hlowered.write hplace' ?_
  rw [List.length_append, hlen, length_blockEncode, List.length_replicate, totalSize,
    sizeofBlockHeader]
  omega

end

/-! ### The formatted file -/

section

variable {opt : Options} {magic : List UInt8}

theorem checked_ok (d : Disk) (next : Disk → Code × Disk) : checked (.of .ok, d) next = next d :=
  rfl

theorem length_devTruncate (image : List UInt8) (size : Nat) :
    (devTruncate image size).length = size := by
  rw [devTruncate, List.length_append, List.length_take, List.length_replicate]
  omega

theorem totalSize_ge (opt : Options) : headerSize opt ≤ totalSize opt := by
  rw [totalSize, blocksStart, inodesStart]
  omega

theorem toNat_optionsOffset (opt : Options) :
    (optionsOffset opt).toNat = 28 + opt.magicLength.toNat := by
  have := opt.magicLength.toNat_lt
  simp only [optionsOffset, clientMagicOffset, UInt32.toNat_add, UInt16.toNat_toUInt32,
    UInt32.toNat_ofNat, Nat.reducePow, Nat.reduceMod]
  omega

theorem loweredFrom_first (n : Nat) : loweredFrom firstHints 0 n = firstHints := by
  rw [loweredFrom]
  split
  · rfl
  · decide

theorem begins_tables (hopt : Formattable opt) (hmagic : magic.length = opt.magicLength.toNat)
    {d : Disk} {before : List UInt8} (hbefore : before.length = 46 + opt.magicLength.toNat)
    (h : Begins opt firstHints d before) :
    ∃ d', mkfsWriteTables d = (.of .ok, d') ∧
      Begins opt firstHints d' (before ++ hintsEncode firstHints ++
        (blank opt magic hmagic).names ++ (blank opt magic hmagic).inodes ++
        (blank opt magic hmagic).blocks) := by
  have hhints : Begins opt firstHints (d.write (hintsOffset d.fs.options) (hintsEncode d.hints))
      (before ++ hintsEncode firstHints) := by
    rw [h.options, h.hints]
    refine h.write (by rw [toNat_hintsOffset, hbefore]) ?_
    have := totalSize_ge opt
    rw [headerSize] at this
    rw [hbefore, length_hintsEncode]
    omega
  have hheader : (before ++ hintsEncode firstHints).length = headerSize opt := by
    rw [List.length_append, hbefore, length_hintsEncode, headerSize]
    omega
  obtain ⟨d₁, hnames, h₁⟩ := begins_names (v := blank opt magic hmagic) hopt (fun _ => rfl) hheader
    hhints
  obtain ⟨d₂, hinodes, h₂⟩ := begins_inodes (v := blank opt magic hmagic) hopt (fun _ => rfl) (by
    rw [List.length_append, hheader, Volume.names, length_idTable (Volume.length_nameRecord _)]
    rfl) h₁
  have hbare : Begins opt firstHints d₂ (before ++ hintsEncode firstHints ++
      (blank opt magic hmagic).names ++ (blank opt magic hmagic).inodes ++
        idTable (blank opt magic hmagic).blockRecord 0) := by
    rw [idTable, table_zero, List.append_nil]
    exact h₂
  obtain ⟨d₃, hblocks, h₃⟩ := begins_blocks (v := blank opt magic hmagic) hopt (Nat.zero_le _)
    (fun _ _ _ => ⟨rfl, rfl⟩) (by
      rw [List.length_append, List.length_append, hheader, Volume.names, Volume.inodes,
        length_idTable (Volume.length_nameRecord _), length_idTable (Volume.length_inodeRecord _)]
      rfl) hbare
  rw [loweredFrom_first] at h₃
  refine ⟨d₃, ?_, h₃⟩
  rw [mkfsWriteTables, hintsWrite, checked_ok, hnames, checked_ok, hinodes, checked_ok,
    mkfsWriteBlocklist, h₂.options]
  exact hblocks

/-- The length and the magic of a file behind the size, and its options. -/
def clientMagic (opt : Options) (magic : List UInt8) : List UInt8 :=
  encodeUint16 opt.magicLength ++ (magic ++ optionsEncode opt)

theorem begins_header (hmagic : magic.length = opt.magicLength.toNat) (image : List UInt8) :
    Begins opt firstHints (mkfsWriteOptions (mkfsWriteMagic
        ⟨⟨devTruncate image (totalSize opt), opt⟩, firstHints⟩ 0 magic))
      (magicBytes.flatMap encodeUint32 ++ (encodeUint32 0 ++ clientMagic opt magic)) := by
  have htotal := totalSize_ge opt
  rw [headerSize] at htotal
  have hfirst : Begins opt firstHints ⟨⟨devTruncate image (totalSize opt), opt⟩, firstHints⟩ [] :=
    ⟨rfl, rfl, ⟨_, rfl⟩, length_devTruncate image _⟩
  have hlen : (magicBytes.flatMap encodeUint32 ++ (encodeUint32 0 ++
      (encodeUint16 opt.magicLength ++ magic))).length = 28 + opt.magicLength.toNat := by
    have hcore : (magicBytes.flatMap encodeUint32).length = 20 := rfl
    simp only [List.length_append, hcore, length_encodeUint32, length_encodeUint16, hmagic]
    omega
  have hwritten : Begins opt firstHints
      (mkfsWriteMagic ⟨⟨devTruncate image (totalSize opt), opt⟩, firstHints⟩ 0 magic)
      (magicBytes.flatMap encodeUint32 ++ (encodeUint32 0 ++
        (encodeUint16 opt.magicLength ++ magic))) := by
    refine hfirst.write rfl ?_
    rw [hlen, List.length_nil]
    omega
  have hplace : (optionsOffset opt).toNat = (magicBytes.flatMap encodeUint32 ++ (encodeUint32 0 ++
      (encodeUint16 opt.magicLength ++ magic))).length := by
    rw [toNat_optionsOffset, hlen]
  have hfits : (magicBytes.flatMap encodeUint32 ++ (encodeUint32 0 ++
      (encodeUint16 opt.magicLength ++ magic))).length + (optionsEncode opt).length ≤
        totalSize opt := by
    rw [hlen, length_optionsEncode]
    omega
  have hoptions := hwritten.write hplace hfits
  simp only [List.append_assoc] at hoptions
  exact hoptions

/-- A file of which the size is said to be `filesize`. -/
def sized (opt : Options) (magic : List UInt8) (filesize : UInt32) (tables : List UInt8) :
    List UInt8 :=
  magicBytes.flatMap encodeUint32 ++ (encodeUint32 filesize ++ (clientMagic opt magic ++ tables))

theorem writeAt_filesize (magic : List UInt8) (filesize filesize' : UInt32) (tables : List UInt8) :
    writeAt (sized opt magic filesize tables) 20 (encodeUint32 filesize') =
      sized opt magic filesize' tables := by
  have hcore : (magicBytes.flatMap encodeUint32).length = 20 := rfl
  have hwithin : (20 : UInt32).toNat ≤ (sized opt magic filesize tables).length := by
    rw [sized, List.length_append, hcore]
    exact Nat.le_add_right _ _
  have hfield : overwrite (encodeUint32 filesize) 0 (encodeUint32 filesize') =
      encodeUint32 filesize' :=
    overwrite_all rfl
  have hmiddle := @overwrite_middle _ (encodeUint32 filesize') 0
    (magicBytes.flatMap encodeUint32) (clientMagic opt magic ++ tables) (encodeUint32 filesize)
    (Nat.zero_add 5).le
  rw [hfield] at hmiddle
  rw [writeAt_of_le hwithin]
  exact hmiddle

def tablesOf (v : Volume opt) : List UInt8 :=
  hintsEncode v.hints ++ (v.names ++ (v.inodes ++ v.blocks))

theorem image_sized (v : Volume opt) :
    v.image = sized opt v.magic (UInt32.ofNat (totalSize opt)) (tablesOf v) := by
  simp only [Volume.image, Volume.preamble, sized, clientMagic, tablesOf, List.append_assoc]

/-- Whatever the device has held, a new file is the blank one. -/
theorem mkfsStage2_eq (hopt : Formattable opt) (hmagic : magic.length = opt.magicLength.toNat)
    (image : List UInt8) :
    mkfsStage2 opt magic image = .ok (disk (blank opt magic hmagic) firstHints) := by
  have hsize := toNat_calculateSize hopt
  have hcore : (magicBytes.flatMap encodeUint32).length = 20 := rfl
  have hheader : (magicBytes.flatMap encodeUint32 ++ (encodeUint32 0 ++
      clientMagic opt magic)).length = 46 + opt.magicLength.toNat := by
    simp only [clientMagic, List.length_append, hcore, length_encodeUint32, length_encodeUint16,
      hmagic, length_optionsEncode]
    omega
  obtain ⟨d, htables, hd⟩ := begins_tables hopt hmagic hheader (begins_header hmagic image)
  simp only [List.append_assoc] at hd
  -- nothing is left of what the device has held
  have himage : d.fs.image = sized opt magic 0 (tablesOf (blank opt magic hmagic)) := by
    refine hd.image_eq ?_
    have hlength := (blank opt magic hmagic).length_image
    rw [image_sized] at hlength
    exact hlength
  have hfilesize : mkfsWriteFilesize d = disk (blank opt magic hmagic) firstHints := by
    have hbytes : writeAt d.fs.image 20 (encodeUint32 (UInt32.ofNat (totalSize opt))) =
        (blank opt magic hmagic).image := by
      rw [himage, writeAt_filesize, image_sized]
      rfl
    have hdisk : ∀ image, ({ d with fs := { d.fs with image } } : Disk) =
        ⟨⟨image, opt⟩, firstHints⟩ := by
      intro image
      rw [← hd.options, ← hd.hints]
    rw [mkfsWriteFilesize, hd.length, Disk.write, hbytes, hdisk]
    rfl
  have hcheck : ¬ calculateSize opt ≠ UInt32.ofNat (totalSize opt) := by
    rw [not_not, ← hsize, UInt32.ofNat_toNat]
  rw [mkfsStage2, hsize, htables]
  simp only
  rw [hd.length, if_neg hcheck, hfilesize]

theorem mkfs_eq (hopt : Formattable opt) (hmagic : magic.length = opt.magicLength.toNat)
    (image : List UInt8) :
    mkfs opt magic image = .ok (.ok (disk (blank opt magic hmagic) firstHints)) := by
  rw [mkfs, (mkfsStage1_eq_ok_iff.mpr hopt).1, mkfsStage2_eq hopt hmagic]
  rfl

end

end Iqiq.WhefsMkfs
