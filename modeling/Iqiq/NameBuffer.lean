import Iqiq.ScanReach

namespace Iqiq.NameBuffer

open Iqiq.NameCache
open Iqiq.ScanReach
open Iqiq.UnpackScan
open Iqiq.Whefs
open Iqiq.WhefsFiles
open Iqiq.WhefsNames

/-- The call of `whefs_inode_name_get` returns: its assertion holds, and the string that
it finds is shorter than the buffer. -/
def NameFits (fs : Fs) (cache : Cache) (id : UInt32) : Prop :=
  ∀ stop, inodeNameGet fs cache id [] ≠ .error stop

/-- What the archive has to say about the inode for that. -/
def LeavesRoom (fs : Fs) (id : UInt32) : Prop :=
  inodeIdIsValid fs id → fs.options.filenameLength.toNat ≤ 130 ∧
    (NameIntact fs id → (recordName fs id).length ≤ 128)

theorem stringCopyCstring_of_le {name : List UInt8} (h : name.length ≤ 128) :
    stringCopyCstring nameBufSize name = .ok name := by
  rw [stringCopyCstring]
  split
  · rename_i hnil
    rw [hnil]
  · rw [if_pos (by simp only [nameBufSize]; omega)]

theorem stringCopyCstring_of_lt {name : List UInt8} (h : 128 < name.length) :
    stringCopyCstring nameBufSize name = .error .undefined := by
  have hne : name ≠ [] := by
    rintro rfl
    exact absurd h (Nat.not_lt_zero _)
  rw [stringCopyCstring, if_neg hne, if_neg (by simp only [nameBufSize]; omega)]

theorem toRead_le_iff (fs : Fs) :
    (sizeofName fs.options).toNat ≤ sizeofInodeName ↔
      fs.options.filenameLength.toNat ≤ 130 := by
  simp only [sizeofName_toNat, sizeofInodeName]
  omega

theorem nameFits_of_leavesRoom {fs : Fs} {id : UInt32} (h : LeavesRoom fs id) (cache : Cache) :
    NameFits fs cache id := by
  intro stop
  rw [inodeNameGet]
  split
  · simp
  · rename_i hvalid
    obtain ⟨hlength, hname⟩ := h (not_not.mp hvalid)
    simp only [if_neg (not_not_intro ((toRead_le_iff fs).mpr hlength))]
    split
    · simp
    · rename_i hcomplete
      split
      · simp
      · rename_i htag
        split
        · simp
        · rename_i sl hsl
          have hintact : NameIntact fs id := ⟨not_not.mp hcomplete, not_not.mp htag, sl, hsl⟩
          rw [stringCopyCstring_of_le (hname hintact), Run.ok_bind]
          simp [pure, Except.pure]

theorem leavesRoom_of_nameFits {fs : Fs} {id : UInt32} {cache : Cache}
    (h : NameFits fs cache id) : LeavesRoom fs id := by
  intro hvalid
  have hlength : fs.options.filenameLength.toNat ≤ 130 := by
    by_contra hlong
    refine h .assertion ?_
    rw [inodeNameGet, if_neg (not_not_intro hvalid)]
    exact if_pos fun hle => hlong ((toRead_le_iff fs).mp hle)
  refine ⟨hlength, fun hintact => ?_⟩
  by_contra hlong
  obtain ⟨sl, hsl⟩ := hintact.decodes
  refine h .undefined ?_
  rw [inodeNameGet, if_neg (not_not_intro hvalid)]
  simp only [if_neg (not_not_intro ((toRead_le_iff fs).mpr hlength)), hintact.complete,
    hintact.tagged, hsl, stringCopyCstring_of_lt (Nat.lt_of_not_le hlong)]
  rw [if_neg (not_not_intro rfl), if_neg (not_not_intro rfl)]
  rfl

theorem nameFits_iff {fs : Fs} {id : UInt32} {cache : Cache} :
    NameFits fs cache id ↔ LeavesRoom fs id :=
  ⟨leavesRoom_of_nameFits, fun h => nameFits_of_leavesRoom h cache⟩

/-- Whatever is true of the state of the cache and the id in every call that `main` makes
of `whefs_inode_name_get`. -/
def EachFetch {σ : Type} (handle : σ → File → Int × σ) (fuel : Nat) (image : List UInt8)
    (n : Inode) (world : σ) (p : Fs → Cache → UInt32 → Prop) : Prop :=
  ∀ fs, openfsStage2 image = .ok (.ok fs) →
    ∀ i s m, Reached handle fs fuel (initial n world) i s →
      inodeIdRead fs i s.n = (.ok, m) → p fs s.cache m.id

section

variable {σ : Type} (handle : σ → File → Int × σ) (fuel : Nat) (image : List UInt8) (n : Inode)
  (world : σ)

/-- In a run of `main` every name fits the buffer exactly when the archive leaves room for
it at every inode that the run gets to. -/
theorem each_nameFits_iff :
    EachFetch handle fuel image n world NameFits ↔
      EachFetch handle fuel image n world fun fs _ id => LeavesRoom fs id := by
  refine forall₂_congr fun fs _ => forall₃_congr fun i s m => forall₂_congr fun _ _ => ?_
  exact nameFits_iff

/-- The bound that `whefs_mkfs` checks is enough. -/
theorem each_nameFits_of_filenameLength_le
    (h : ∀ fs, openfsStage2 image = .ok (.ok fs) → fs.options.filenameLength.toNat ≤ 128) :
    EachFetch handle fuel image n world NameFits := by
  intro fs hopen i s m _ _
  refine nameFits_of_leavesRoom (fun _ => ?_) s.cache
  have hle := h fs hopen
  exact ⟨by omega, fun _ => (length_recordName_le fs m.id).trans hle⟩

end

/-- An archive without blocks and with one inode, whose name has 129 bytes. -/
def longNameImage : List UInt8 :=
  [0xa0, 0, 0, 0x07, 0xd9, 0xa0, 0, 0, 0, 12, 0xa0, 0, 0, 0, 1, 0xa0, 0, 0, 0, 32,
    0xa0, 0, 0, 0, 218, 0x90, 0, 0,
    0xa0, 0, 0, 0, 0, 0xa0, 0, 0, 0, 0, 0xa0, 0, 0, 0, 1, 0x90, 0, 129,
    0x48, 0xa0, 0, 0, 0, 0, 0xa0, 0, 0, 0, 0,
    0x22, 0xa0, 0, 0, 0, 1, 0x90, 0, 129] ++ List.replicate 129 0x61 ++
    [0x49, 0xa0, 0, 0, 0, 1, 0x88, 0, 0xa0, 0, 0, 0, 0, 0xa0, 0, 0, 0, 0, 0xa0, 0, 0, 0, 0]

def longNameFs : Fs where
  image := longNameImage
  options :=
    { magicLength := 0, blockSize := 0, blockCount := 0, inodeCount := 1, filenameLength := 129 }

theorem openfsStage2_longName : openfsStage2 longNameImage = .ok (.ok longNameFs) := by
  decide +kernel

theorem not_leavesRoom_longName : ¬ LeavesRoom longNameFs 1 := by
  intro h
  have hintact : NameIntact longNameFs 1 :=
    ⟨by decide +kernel, by decide +kernel, 129, by decide +kernel⟩
  exact absurd ((h (by decide)).2 hintact) (by decide +kernel)

theorem not_each_nameFits_longName :
    ¬ EachFetch (fun (_ : Unit) _ => (0, ())) 0 longNameImage inodeEmpty () NameFits := by
  intro h
  have hreached : Reached (fun (_ : Unit) _ => (0, ())) longNameFs 0 (initial inodeEmpty ()) 1
      (initial inodeEmpty ()) := Reached.next Reached.first rfl (by decide)
  have hread : inodeIdRead longNameFs 1 inodeEmpty = (.ok, ⟨1, 0, 0, 0, 0⟩) := by decide +kernel
  have hfits : NameFits longNameFs none 1 :=
    h longNameFs openfsStage2_longName 1 (initial inodeEmpty ()) ⟨1, 0, 0, 0, 0⟩ hreached hread
  exact not_leavesRoom_longName (leavesRoom_of_nameFits hfits)

end Iqiq.NameBuffer
