import Iqiq.WhefsMkfs
import Iqiq.WhefsMount

namespace Iqiq.WhefsOpening

open Iqiq.RecordTable
open Iqiq.Whefs
open Iqiq.WhefsDisk
open Iqiq.WhefsEncode
open Iqiq.WhefsMkfs
open Iqiq.WhefsMount
open Iqiq.WhefsVolume

/-- `whefs_fs_hints_read`, with the hints. -/
def hintsValues (fs : Fs) : Except Rc Hints := do
  let buf := readAt fs.image (hintsOffset fs.options) 11
  if buf.length ≠ 11 then throw .ioError
  if buf.getD 0 0 ≠ 0x48 then throw .consistencyError
  let unusedInodeStart ← decodeUint32 (buf.drop 1)
  let unusedBlockStart ← decodeUint32 (buf.drop 6)
  return { unusedInodeStart, unusedBlockStart }

theorem hintsRead_eq (fs : Fs) : hintsRead fs = (hintsValues fs).map fun _ => () := by
  rw [hintsRead, hintsValues]
  split
  · rfl
  · split
    · rfl
    · cases decodeUint32 ((readAt fs.image (hintsOffset fs.options) 11).drop 1) with
      | error rc => rfl
      | ok _ =>
          cases decodeUint32 ((readAt fs.image (hintsOffset fs.options) 11).drop 6) with
          | error rc => rfl
          | ok _ => rfl

/-- `whefs_openfs_dev`, for a device that holds `image`. -/
def openfs (image : List UInt8) : Run (Except Rc Mount) := do
  match ← openfsStage2 image with
  | .error rc => return .error rc
  | .ok fs =>
      match hintsValues fs with
      | .error rc => return .error rc
      | .ok hints => return .ok ⟨⟨fs, hints⟩, none, [], []⟩

section

variable {image ys rest : List UInt8} {pos i : UInt32} {n p : Nat}

theorem drop_next (h : image.drop p = ys ++ rest) : image.drop (p + ys.length) = rest := by
  rw [← List.drop_drop, h, List.drop_left]

theorem readAt_of_drop (h : image.drop pos.toNat = ys ++ rest) (hn : ys.length = n) :
    readAt image pos n = ys := by
  rw [readAt, h, ← hn, List.take_left]

theorem devDecodeUint32_of_drop (h : image.drop pos.toNat = encodeUint32 i ++ rest) :
    devDecodeUint32 image pos = .ok i := by
  have hdecode := decodeUint32_encodeUint32 i []
  rw [List.append_nil] at hdecode
  rw [devDecodeUint32, readAt_of_drop h (length_encodeUint32 i)]
  exact (if_pos (length_encodeUint32 i)).trans hdecode

theorem devDecodeUint16_of_drop {i : UInt16} (h : image.drop pos.toNat = encodeUint16 i ++ rest) :
    devDecodeUint16 image pos = .ok i := by
  have hdecode := decodeUint16_encodeUint16 i []
  rw [List.append_nil] at hdecode
  rw [devDecodeUint16, readAt_of_drop h (length_encodeUint16 i)]
  exact (if_pos (length_encodeUint16 i)).trans hdecode

end

section

variable {opt : Options} (v : Volume opt)

theorem toNat_optionPos (opt : Options) {k : UInt32} (hk : k.toNat ≤ 15) :
    (clientMagicOffset + 3 + opt.magicLength.toUInt32 + k).toNat =
      28 + opt.magicLength.toNat + k.toNat := by
  have := opt.magicLength.toNat_lt
  simp only [clientMagicOffset, UInt32.toNat_add, UInt16.toNat_toUInt32, UInt32.toNat_ofNat,
    Nat.reducePow, Nat.reduceMod]
  omega

theorem drop_option {ys : List UInt8} {k : UInt32} (hk : k.toNat ≤ 15)
    (h : v.image.drop (28 + opt.magicLength.toNat + k.toNat) = ys) :
    v.image.drop (clientMagicOffset + 3 + opt.magicLength.toUInt32 + k).toNat = ys := by
  rw [toNat_optionPos opt hk, h]

theorem drop_size : v.image.drop 20 =
    encodeUint32 (UInt32.ofNat (totalSize opt)) ++ (clientMagic opt v.magic ++ tablesOf v) :=
  drop_next (p := 0) (image_sized v)

theorem readOptions_image : readOptions v.image = .ok opt := by
  have hlength : v.image.drop 25 = encodeUint16 opt.magicLength ++ (v.magic ++
      optionsEncode opt ++ tablesOf v) := by
    have hsize := drop_next (drop_size v)
    rw [clientMagic, List.append_assoc] at hsize
    exact hsize
  have hmagic : v.image.drop 28 = v.magic ++ (optionsEncode opt ++ tablesOf v) := by
    rw [← List.append_assoc]
    exact drop_next hlength
  have hblockSize : v.image.drop (28 + opt.magicLength.toNat) = encodeUint32 opt.blockSize ++
      (encodeUint32 opt.blockCount ++ (encodeUint32 opt.inodeCount ++
        (encodeUint16 opt.filenameLength ++ tablesOf v))) := by
    rw [← v.magic_length, drop_next hmagic, optionsEncode]
    simp only [List.append_assoc]
  have hblockCount := drop_next hblockSize
  have hinodeCount := drop_next hblockCount
  have hfilename := drop_next hinodeCount
  have h₁ : devDecodeUint16 v.image clientMagicOffset = .ok opt.magicLength :=
    devDecodeUint16_of_drop hlength
  have h₂ : devDecodeUint32 v.image (clientMagicOffset + 3 + opt.magicLength.toUInt32) =
      .ok opt.blockSize := by
    have hdrop := drop_option v (k := 0) (by decide) hblockSize
    rw [UInt32.add_zero] at hdrop
    exact devDecodeUint32_of_drop hdrop
  have h₃ : devDecodeUint32 v.image (clientMagicOffset + 3 + opt.magicLength.toUInt32 + 5) =
      .ok opt.blockCount :=
    devDecodeUint32_of_drop (drop_option v (k := 5) (by decide) hblockCount)
  have h₄ : devDecodeUint32 v.image (clientMagicOffset + 3 + opt.magicLength.toUInt32 + 10) =
      .ok opt.inodeCount :=
    devDecodeUint32_of_drop (drop_option v (k := 10) (by decide) hinodeCount)
  have h₅ : devDecodeUint16 v.image (clientMagicOffset + 3 + opt.magicLength.toUInt32 + 15) =
      .ok opt.filenameLength :=
    devDecodeUint16_of_drop (drop_option v (k := 15) (by decide) hfilename)
  rw [readOptions, h₁]
  change (devDecodeUint32 v.image (clientMagicOffset + 3 + opt.magicLength.toUInt32) >>= _) = _
  rw [h₂]
  change (devDecodeUint32 v.image (clientMagicOffset + 3 + opt.magicLength.toUInt32 + 5) >>= _) = _
  rw [h₃]
  change (devDecodeUint32 v.image (clientMagicOffset + 3 + opt.magicLength.toUInt32 + 10) >>= _) = _
  rw [h₄]
  change (devDecodeUint16 v.image (clientMagicOffset + 3 + opt.magicLength.toUInt32 + 15) >>= _) = _
  rw [h₅]
  rfl

theorem hintsValues_fs : hintsValues v.fs = .ok v.hints := by
  have hhints : v.image.drop (hintsOffset opt).toNat =
      hintsEncode v.hints ++ (v.names ++ (v.inodes ++ v.blocks)) := by
    rw [toNat_hintsOffset, ← v.length_preamble]
    exact List.drop_left
  have hread : readAt v.fs.image (hintsOffset v.fs.options) 11 = hintsEncode v.hints :=
    readAt_of_drop hhints (length_hintsEncode _)
  have hinode : decodeUint32 ((hintsEncode v.hints).drop 1) = .ok v.hints.unusedInodeStart :=
    decodeUint32_encodeUint32 _ _
  have hblock : decodeUint32 ((hintsEncode v.hints).drop 6) = .ok v.hints.unusedBlockStart := by
    have h := decodeUint32_encodeUint32 v.hints.unusedBlockStart []
    rwa [List.append_nil] at h
  rw [hintsValues, hread]
  change (decodeUint32 ((hintsEncode v.hints).drop 1) >>= _) = _
  rw [hinode]
  change (decodeUint32 ((hintsEncode v.hints).drop 6) >>= fun unusedBlockStart =>
    pure (Hints.mk v.hints.unusedInodeStart unusedBlockStart)) = _
  rw [hblock]
  rfl

theorem hintsRead_fs : hintsRead v.fs = .ok () := by
  rw [hintsRead_eq, hintsValues_fs]
  rfl

theorem openfsStage2_image (hopt : Formattable opt) : openfsStage2 v.image = .ok (.ok v.fs) := by
  have h₁ : v.image.drop 0 = encodeUint32 2009 ++ (encodeUint32 12 ++ (encodeUint32 1 ++
      (encodeUint32 32 ++ v.image.drop 20))) := by
    rw [drop_size]
    exact image_sized v
  have h₂ := drop_next h₁
  have h₃ := drop_next h₂
  have h₄ := drop_next h₃
  have hmagic : [0, 5, 10, 15].map (devDecodeUint32 v.image) = magicBytes.map Except.ok := by
    have hword₁ : devDecodeUint32 v.image 0 = .ok 2009 := devDecodeUint32_of_drop h₁
    have hword₂ : devDecodeUint32 v.image 5 = .ok 12 := devDecodeUint32_of_drop h₂
    have hword₃ : devDecodeUint32 v.image 10 = .ok 1 := devDecodeUint32_of_drop h₃
    have hword₄ : devDecodeUint32 v.image 15 = .ok 32 := devDecodeUint32_of_drop h₄
    rw [List.map_cons, List.map_cons, List.map_cons, List.map_cons, List.map_nil, hword₁, hword₂,
      hword₃, hword₄]
    rfl
  have hsize : devDecodeUint32 v.image 20 = .ok (UInt32.ofNat (totalSize opt)) :=
    devDecodeUint32_of_drop (drop_size v)
  have hne : UInt32.ofNat (totalSize opt) ≠ 0 := by
    have := totalSize_ge opt
    have := hopt.fits
    rw [headerSize] at *
    rw [ne_eq, ← UInt32.toNat_inj, UInt32.toNat_ofNat_of_lt' hopt.fits]
    change ¬ _ = 0
    omega
  rw [openfsStage2, if_neg (not_not_intro hmagic), hsize]
  simp only
  rw [v.length_image, if_neg (by simp [hne]), readOptions_image]
  simp only
  have hread : hintsRead ⟨v.image, opt⟩ = .ok () := hintsRead_fs v
  rw [initBitsets_of_formattable hopt, hread]
  rfl

theorem openfs_image (hopt : Formattable opt) :
    openfs v.image = .ok (.ok ⟨disk v v.hints, none, [], []⟩) := by
  rw [openfs, openfsStage2_image v hopt, Run.ok_bind]
  simp only
  rw [hintsValues_fs]
  rfl

end

end Iqiq.WhefsOpening
