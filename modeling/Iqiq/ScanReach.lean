import Iqiq.UnpackScan

namespace Iqiq.ScanReach

open Iqiq.UnpackScan
open Iqiq.Whefs
open Iqiq.WhefsFiles
open Iqiq.WhefsNames

section

variable {σ : Type} (handle : σ → File → Int × σ) (fs : Fs) (fuel : Nat)

/-- The rounds of the loop in `main` that begin, with the inode's id and the variables
before the round. -/
inductive Reached (start : Scan σ) : UInt32 → Scan σ → Prop where
  | first : Reached start 0 start
  | next {i : UInt32} {s s' : Scan σ} (reached : Reached start i s)
      (goes : scanInode handle fs fuel i s = (s', none)) (more : i < fs.options.inodeCount) :
      Reached start (i + 1) s'

/-- The round opens the file `f` for reading. -/
def Opens (i : UInt32) (s : Scan σ) (f : File) : Prop :=
  ∃ n name cache cache', inodeIdRead fs i s.n = (.ok, n) ∧
    inodeNameGet fs s.cache n.id [] = .ok (.ok, name, cache) ∧ name ≠ [] ∧
    fopen fs cache name = .ok (some f, cache')

end

/-- The variables of `main` before its loop. -/
def initial {σ : Type} (n : Inode) (world : σ) : Scan σ :=
  ⟨n, none, world, []⟩

section Runs

variable {σ : Type} {handle : σ → File → Int × σ} {fs : Fs} {fuel : Nat} {start s s' : Scan σ}
  {i : UInt32}

theorem Reached.le (h : Reached handle fs fuel start i s) : i ≤ fs.options.inodeCount := by
  induction h with
  | first => exact UInt32.le_iff_toNat_le.mpr (Nat.zero_le _)
  | next _ _ hmore _ =>
      rw [UInt32.le_iff_toNat_le, toNat_add_one hmore]
      exact UInt32.lt_iff_toNat_lt.mp hmore

theorem scanLoop_ending {left : Nat} {ending : Run Int}
    (hreached : Reached handle fs fuel start i s)
    (hleft : i.toNat + left = fs.options.inodeCount.toNat)
    (h : scanLoop handle fs fuel (left + 1) i s = (s', ending)) :
    ending = .ok 0 ∨
      ∃ j t, Reached handle fs fuel start j t ∧
        scanInode handle fs fuel j t = (s', some ending) := by
  induction left generalizing i s with
  | zero =>
      rw [scanLoop] at h
      rcases hround : scanInode handle fs fuel i s with ⟨t, _ | e⟩
      · simp only [hround, scanLoop] at h
        exact Or.inl (Prod.ext_iff.mp h).2.symm
      · simp only [hround] at h
        obtain ⟨rfl, rfl⟩ := Prod.ext_iff.mp h
        exact Or.inr ⟨i, s, hreached, hround⟩
  | succ left ih =>
      rw [scanLoop] at h
      rcases hround : scanInode handle fs fuel i s with ⟨t, _ | e⟩
      · simp only [hround] at h
        have hmore : i < fs.options.inodeCount := by
          rw [UInt32.lt_iff_toNat_lt]
          omega
        have hnext : (i + 1).toNat + left = fs.options.inodeCount.toNat := by
          rw [toNat_add_one hmore]
          omega
        exact ih (hreached.next hround hmore) hnext h
      · simp only [hround] at h
        obtain ⟨rfl, rfl⟩ := Prod.ext_iff.mp h
        exact Or.inr ⟨i, s, hreached, hround⟩

theorem Reached.scanLoop_eq (h : Reached handle fs fuel start i s) :
    ∃ left, i.toNat + left = fs.options.inodeCount.toNat ∧
      scanLoop handle fs fuel (fs.options.inodeCount.toNat + 1) 0 start =
        scanLoop handle fs fuel (left + 1) i s := by
  induction h with
  | first => exact ⟨fs.options.inodeCount.toNat, Nat.zero_add _, rfl⟩
  | @next i s s' _ hgoes hmore ih =>
      obtain ⟨left, hleft, hloop⟩ := ih
      have hlt := UInt32.lt_iff_toNat_lt.mp hmore
      obtain ⟨left, rfl⟩ := Nat.exists_eq_succ_of_ne_zero (by omega : left ≠ 0)
      refine ⟨left, ?_, ?_⟩
      · rw [toNat_add_one hmore]
        omega
      · rw [hloop, scanLoop, hgoes]

theorem Reached.main_eq {image : List UInt8} {n : Inode} {world : σ} {ending : Run Int}
    (h : Reached handle fs fuel (initial n world) i s)
    (hopen : openfsStage2 image = .ok (.ok fs))
    (hround : scanInode handle fs fuel i s = (s', some ending)) :
    main handle fuel 3 (some image) n world = (s', ending) := by
  obtain ⟨left, -, hloop⟩ := h.scanLoop_eq
  rw [main, if_neg (not_not_intro rfl)]
  simp only [hopen]
  exact hloop.trans (by rw [scanLoop, hround])

/-- `main` on an archive that is accepted ends with 0, or as one of its rounds says. -/
theorem main_ending (handle : σ → File → Int × σ) (fuel : Nat) {image : List UInt8}
    (hopen : openfsStage2 image = .ok (.ok fs)) (n : Inode) (world : σ) :
    (main handle fuel 3 (some image) n world).2 = .ok 0 ∨
      ∃ j t t', Reached handle fs fuel (initial n world) j t ∧
        scanInode handle fs fuel j t =
          (t', some (main handle fuel 3 (some image) n world).2) := by
  rcases hmain : main handle fuel 3 (some image) n world with ⟨s', ending⟩
  rw [main, if_neg (not_not_intro rfl)] at hmain
  simp only [hopen] at hmain
  rcases scanLoop_ending Reached.first (Nat.zero_add _) hmain with hzero | ⟨j, t, hj, hround⟩
  · exact Or.inl hzero
  · exact Or.inr ⟨j, t, s', hj, hround⟩

end Runs

end Iqiq.ScanReach
