import Iqiq.WhefsMkfs

namespace Iqiq.WhefsAppend

open Iqiq.RecordTable
open Iqiq.Whefs
open Iqiq.WhefsDisk
open Iqiq.WhefsEncode
open Iqiq.WhefsFiles
open Iqiq.WhefsMkfs
open Iqiq.WhefsVolume

def grownOptions (opt : Options) (count : UInt32) : Options :=
  { opt with blockCount := opt.blockCount + count }

/-- `whefs_fs_append_blocks`, where `eof` is `fs->offsets[WHEFS_OFF_EOF]`. -/
def appendBlocks (d : Disk) (eof count : UInt32) : Code × Disk :=
  if count = 0 then (.of .argError, d)
  else
    let opt := d.fs.options
    let newEof := eof.toNat + (sizeofBlock opt * count).toNat
    let d := { d with fs := ⟨devTruncate d.fs.image newEof, grownOptions opt count⟩ }
    let d := mkfsWriteOptions (d.write 20 (encodeUint32 (UInt32.ofNat newEof)))
    eachId (fun d i => blockWipeOne d (unusedBlock i) true true)
      ((opt.blockCount + count).toNat - opt.blockCount.toNat) d (opt.blockCount + 1)

section

variable {opt : Options} {hints : Hints} {count : UInt32}

/-- The file may get so many blocks more. -/
structure Growable (opt : Options) (count : UInt32) : Prop where
  formattable : Formattable opt
  fits : totalSize opt + count.toNat * blockWidth opt < 2 ^ 32

theorem Growable.blockCount (h : Growable opt count) :
    (grownOptions opt count).blockCount.toNat = opt.blockCount.toNat + count.toNat := by
  have hfits := h.fits
  have hold : opt.blockCount.toNat * 1 ≤ opt.blockCount.toNat * blockWidth opt :=
    Nat.mul_le_mul_left _ (by rw [blockWidth]; omega)
  have hnew : count.toNat * 1 ≤ count.toNat * blockWidth opt :=
    Nat.mul_le_mul_left _ (by rw [blockWidth]; omega)
  rw [totalSize] at hfits
  rw [grownOptions, UInt32.toNat_add]
  change (_ + _) % 2 ^ 32 = _
  omega

theorem Growable.totalSize (h : Growable opt count) :
    totalSize (grownOptions opt count) = totalSize opt + count.toNat * blockWidth opt := by
  rw [WhefsVolume.totalSize, h.blockCount, Nat.add_mul, ← Nat.add_assoc]
  rfl

theorem Growable.grown (h : Growable opt count) : Formattable (grownOptions opt count) where
  inodeCount := h.formattable.inodeCount
  blockSize := h.formattable.blockSize
  filenameLength_pos := h.formattable.filenameLength_pos
  filenameLength_le := h.formattable.filenameLength_le
  magicLength := h.formattable.magicLength
  blockCount := by
    rw [h.blockCount]
    exact Nat.le_trans h.formattable.blockCount (Nat.le_add_right _ _)
  fits := by
    rw [h.totalSize]
    exact h.fits

/-- The volume with blank blocks behind those that it has had. -/
def appended (v : Volume opt) (count : UInt32) : Volume (grownOptions opt count) where
  magic := v.magic
  hints := v.hints
  name := v.name
  inode := v.inode
  block id := if id ≤ opt.blockCount then v.block id else unusedBlock id
  data id := if id ≤ opt.blockCount then v.data id else List.replicate opt.blockSize.toNat 0
  magic_length := v.magic_length
  name_length := v.name_length
  name_ne := v.name_ne
  inode_id := v.inode_id
  block_id id := by
    split
    · exact v.block_id id
    · rfl
  data_length id := by
    split
    · exact v.data_length id
    · exact List.length_replicate

theorem appended_block_of_isBlock (v : Volume opt) (count : UInt32) {id : UInt32}
    (hid : IsBlock opt id) : (appended v count).block id = v.block id :=
  if_pos (UInt32.le_iff_toNat_le.mpr hid.2)

theorem appended_data_of_isBlock (v : Volume opt) (count : UInt32) {id : UInt32}
    (hid : IsBlock opt id) : (appended v count).data id = v.data id :=
  if_pos (UInt32.le_iff_toNat_le.mpr hid.2)

theorem appended_of_not_isBlock (v : Volume opt) (count : UInt32) {id : UInt32}
    (hid : opt.blockCount.toNat < id.toNat) : (appended v count).block id = unusedBlock id ∧
      (appended v count).data id = List.replicate opt.blockSize.toNat 0 := by
  have hnot : ¬ id ≤ opt.blockCount := by
    rw [UInt32.le_iff_toNat_le]
    omega
  exact ⟨if_neg hnot, if_neg hnot⟩

theorem idTable_appended (v : Volume opt) (count : UInt32) :
    idTable (appended v count).blockRecord opt.blockCount.toNat = v.blocks := by
  refine table_congr fun k hk => ?_
  rw [Volume.blockRecord, Volume.blockRecord, appended_block_of_isBlock v count (isBlock_idOf hk),
    appended_data_of_isBlock v count (isBlock_idOf hk)]

theorem writeAt_options (magic : List UInt8) (hmagic : magic.length = opt.magicLength.toNat)
    (count filesize : UInt32) (tables : List UInt8) :
    writeAt (sized opt magic filesize tables) (optionsOffset opt)
        (optionsEncode (grownOptions opt count)) =
      sized (grownOptions opt count) magic filesize tables := by
  have hcore : (magicBytes.flatMap encodeUint32).length = 20 := rfl
  have hsplit : ∀ opt' : Options, opt'.magicLength = opt.magicLength →
      sized opt' magic filesize tables = (magicBytes.flatMap encodeUint32 ++
        (encodeUint32 filesize ++ (encodeUint16 opt.magicLength ++ magic))) ++
          (optionsEncode opt' ++ tables) := by
    intro opt' hlength
    simp only [sized, clientMagic, hlength, List.append_assoc]
  have hbefore : (magicBytes.flatMap encodeUint32 ++ (encodeUint32 filesize ++
      (encodeUint16 opt.magicLength ++ magic))).length = 28 + opt.magicLength.toNat := by
    simp only [List.length_append, hcore, length_encodeUint32, length_encodeUint16, hmagic]
    omega
  have hplace : (optionsOffset opt).toNat = (magicBytes.flatMap encodeUint32 ++
      (encodeUint32 filesize ++ (encodeUint16 opt.magicLength ++ magic))).length + 0 := by
    rw [toNat_optionsOffset, hbefore, Nat.add_zero]
  have hall : overwrite (optionsEncode opt) 0 (optionsEncode (grownOptions opt count)) =
      optionsEncode (grownOptions opt count) :=
    overwrite_all rfl
  rw [hsplit opt rfl, hsplit (grownOptions opt count) rfl, writeAt_of_le, hplace,
    overwrite_middle _ _ (Nat.zero_add 18).le, hall]
  rw [hplace, Nat.add_zero]
  simp only [List.length_append]
  omega

/-- What stands before the blocks. -/
def beforeBlocks (v : Volume opt) : List UInt8 :=
  v.preamble ++ hintsEncode v.hints ++ v.names ++ v.inodes

theorem image_eq_beforeBlocks (v : Volume opt) : v.image = beforeBlocks v ++ v.blocks := by
  rw [v.image_blocks, List.append_nil]
  rfl

theorem begins_appended (h : Growable opt count) (v : Volume opt) (rest : List UInt8)
    (hrest : rest.length = count.toNat * blockWidth opt) :
    Begins (grownOptions opt count) hints
      ⟨⟨sized (grownOptions opt count) v.magic
        (UInt32.ofNat (totalSize (grownOptions opt count))) (tablesOf v ++ rest),
          grownOptions opt count⟩, hints⟩
      (beforeBlocks (appended v count) ++
        idTable (appended v count).blockRecord opt.blockCount.toNat) := by
  have himage : sized (grownOptions opt count) v.magic
      (UInt32.ofNat (totalSize (grownOptions opt count))) (tablesOf v ++ rest) =
        beforeBlocks (appended v count) ++
          idTable (appended v count).blockRecord opt.blockCount.toNat ++ rest := by
    rw [idTable_appended]
    simp only [beforeBlocks, Volume.preamble, sized, clientMagic, tablesOf, List.append_assoc]
    rfl
  refine ⟨rfl, rfl, ⟨rest, himage⟩, ?_⟩
  have hlength := v.length_image
  rw [image_sized] at hlength
  have hsame : (sized (grownOptions opt count) v.magic
      (UInt32.ofNat (totalSize (grownOptions opt count))) (tablesOf v)).length =
        (sized opt v.magic (UInt32.ofNat (totalSize opt)) (tablesOf v)).length := by
    simp only [sized, clientMagic, List.length_append, length_encodeUint32, length_encodeUint16,
      length_optionsEncode]
  have hsplit : sized (grownOptions opt count) v.magic
      (UInt32.ofNat (totalSize (grownOptions opt count))) (tablesOf v ++ rest) =
        sized (grownOptions opt count) v.magic
          (UInt32.ofNat (totalSize (grownOptions opt count))) (tablesOf v) ++ rest := by
    simp only [sized, List.append_assoc]
  change (sized _ _ _ _).length = _
  rw [hsplit, List.length_append, hsame, hlength, hrest, h.totalSize]

theorem appendBlocks_disk (h : Growable opt count) (hcount : count ≠ 0) (v : Volume opt) :
    appendBlocks (disk v hints) (UInt32.ofNat (totalSize opt)) count =
      (.of .ok, disk (appended v count) (lowerBlock hints (opt.blockCount + 1))) := by
  have hopt := h.formattable
  have hpos : 1 ≤ count.toNat := by
    rcases Nat.eq_zero_or_pos count.toNat with hzero | hpos
    · exact absurd (UInt32.toNat_inj.mp hzero) hcount
    · exact hpos
  have hfits := h.fits
  have hwidth : (sizeofBlock opt * count).toNat = count.toNat * blockWidth opt := by
    rw [UInt32.toNat_mul, toNat_sizeofBlock hopt, Nat.mul_comm]
    exact Nat.mod_eq_of_lt (by omega)
  have hnewEof : (UInt32.ofNat (totalSize opt)).toNat + (sizeofBlock opt * count).toNat =
      totalSize (grownOptions opt count) := by
    rw [UInt32.toNat_ofNat_of_lt' hopt.fits, hwidth, h.totalSize]
  -- the file as it is before the loop over the new blocks
  have htruncate : devTruncate v.image (totalSize (grownOptions opt count)) =
      sized opt v.magic (UInt32.ofNat (totalSize opt)) (tablesOf v ++
        List.replicate (count.toNat * blockWidth opt) 0) := by
    rw [devTruncate, v.length_image, h.totalSize, Nat.add_sub_cancel_left,
      List.take_of_length_le (by rw [v.length_image]; omega), image_sized]
    simp only [sized, List.append_assoc]
  have hwritten : mkfsWriteOptions ((⟨⟨devTruncate v.image (totalSize (grownOptions opt count)),
      grownOptions opt count⟩, hints⟩ : Disk).write 20
        (encodeUint32 (UInt32.ofNat (totalSize (grownOptions opt count))))) =
      ⟨⟨sized (grownOptions opt count) v.magic
        (UInt32.ofNat (totalSize (grownOptions opt count))) (tablesOf v ++
          List.replicate (count.toNat * blockWidth opt) 0), grownOptions opt count⟩, hints⟩ := by
    rw [htruncate]
    simp only [mkfsWriteOptions, Disk.write]
    rw [writeAt_filesize]
    exact congrArg (fun image => (⟨⟨image, grownOptions opt count⟩, hints⟩ : Disk))
      (writeAt_options v.magic v.magic_length count _ _)
  have hfirst : opt.blockCount + 1 = idOf opt.blockCount.toNat := by
    rw [idOf, UInt32.ofNat_add, UInt32.ofNat_toNat]
    rfl
  have hbegins := @begins_appended opt hints count h v
    (List.replicate (count.toNat * blockWidth opt) 0) List.length_replicate
  have hle : opt.blockCount.toNat ≤ (grownOptions opt count).blockCount.toNat := by
    rw [h.blockCount]
    omega
  have hblank : ∀ k, opt.blockCount.toNat ≤ k → k < (grownOptions opt count).blockCount.toNat →
      (appended v count).block (idOf k) = unusedBlock (idOf k) ∧
        (appended v count).data (idOf k) =
          List.replicate (grownOptions opt count).blockSize.toNat 0 := by
    intro k hle hk
    apply appended_of_not_isBlock v count
    have := (grownOptions opt count).blockCount.toNat_lt
    rw [toNat_idOf (by omega)]
    omega
  obtain ⟨d, hrun, hd⟩ :=
    begins_blocks h.grown hle hblank (Volume.length_before_blocks _) hbegins
  have himage : d.fs.image = (appended v count).image := by
    rw [image_eq_beforeBlocks]
    refine hd.image_eq ?_
    have hlength := (appended v count).length_image
    rw [image_eq_beforeBlocks] at hlength
    exact hlength
  have hhints : d.hints = lowerBlock hints (opt.blockCount + 1) := by
    rw [hd.hints, loweredFrom, h.blockCount, if_neg (by omega), hfirst]
  have hd' : d = disk (appended v count) (lowerBlock hints (opt.blockCount + 1)) := by
    rw [← hhints, disk, Volume.fs, ← himage, ← hd.fs_eq]
  rw [appendBlocks, if_neg hcount]
  simp only [disk_fs, fs_options, disk_hints, fs_image]
  rw [hnewEof, hwritten, ← hd', hfirst]
  exact hrun

end

end Iqiq.WhefsAppend
