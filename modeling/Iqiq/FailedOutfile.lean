import Iqiq.ProfileUnpack

namespace Iqiq.FailedOutfile

open Iqiq.ByteMemory
open Iqiq.LzUncompress
open Iqiq.HandleProfile
open Iqiq.ProfileUnpack

/-- A call of `handleProfile` that fails leaves the outfile as it was. -/
def LeavesOutfile (c : Calls) (outfile : String) (m : Mem) (disk : Option (List UInt8)) : Prop :=
  ∀ r, Handles c outfile m disk r → r.status ≠ 0 → r.disk = disk

/-- Everything up to `open` succeeds, and the `write` of `data` fails or is short. -/
structure Interrupted (c : Calls) (m : Mem) (data : List UInt8) : Prop where
  unpacked : ∃ bytes input output fuel s, Ready c bytes input output ∧
    unpack fuel (ByteMemory.write m input c.fread) input output bytes = (s, some 0) ∧
    data = slice s.mem output (profileLen (ByteMemory.write m input c.fread) input + 4)
  openOk : c.openOk = true
  write : c.write ≠ some data.length

/-- What such a `write` leaves: the bytes that it wrote, none if it failed, and the old ones
behind them. -/
def cutOff (c : Calls) (disk : Option (List UInt8)) (data : List UInt8) : List UInt8 :=
  writeFront (openCreate disk) (data.take (c.write.getD 0))

section

variable {c : Calls} {outfile : String} {m : Mem} {disk : Option (List UInt8)} {r : Result}

theorem afterUnpack_failed {output : Int} {len : Nat} {printed : List String} {ret : Int}
    (h : (afterUnpack c outfile output len printed disk m ret).status ≠ 0) :
    (¬ (ret = 0 ∧ c.openOk = true) ∧
      (afterUnpack c outfile output len printed disk m ret).disk = disk) ∨
    (ret = 0 ∧ c.openOk = true ∧ c.write ≠ some (len + 4) ∧
      (afterUnpack c outfile output len printed disk m ret).disk =
        some (cutOff c disk (slice m output (len + 4)))) := by
  rw [afterUnpack] at h ⊢
  split
  · rename_i hret
    exact Or.inl ⟨fun hzero => hret hzero.1, rfl⟩
  · rename_i hret
    rw [if_neg hret] at h
    split
    · rename_i hopen
      exact Or.inl ⟨fun hzero => by simp [hzero.2] at hopen, rfl⟩
    · rename_i hopen
      rw [if_neg hopen] at h
      refine Or.inr ⟨not_not.mp hret, by simpa using hopen, ?_⟩
      cases hwrite : c.write with
      | none => exact ⟨by simp, by simp [cutOff, hwrite, writeFront]⟩
      | some n =>
          rw [hwrite] at h
          simp only at h ⊢
          rcases eq_or_ne n (len + 4) with hall | hshort
          · rw [if_neg (not_not_intro hall)] at h
            exact absurd rfl h
          · refine ⟨fun heq => hshort (Option.some.inj heq), ?_⟩
            rw [if_pos hshort, cutOff, hwrite]
            rfl

/-- A failed call leaves the outfile as it was, unless `write` is what failed. -/
theorem failed_leaves_or_cutOff (hr : Handles c outfile m disk r) (hfail : r.status ≠ 0) :
    ((∀ data, ¬ Interrupted c m data) ∧ r.disk = disk) ∨
      ∃ data, Interrupted c m data ∧ r.disk = some (cutOff c disk data) := by
  rcases em (∃ bytes input output, Ready c bytes input output) with
    ⟨bytes, input, output, hready⟩ | hnot
  · obtain ⟨fuel, s, ret, hrun, rfl⟩ := hready.handles_iff.mp hr
    rcases afterUnpack_failed hfail with ⟨hno, hdisk⟩ | ⟨rfl, hopen, hwrite, hdisk⟩
    · refine Or.inl ⟨?_, hdisk⟩
      rintro data ⟨⟨bytes', input', output', fuel', s', hready', hrun', -⟩, hopen, -⟩
      obtain ⟨rfl, rfl, rfl⟩ := hready.unique hready'
      exact hno ⟨(unpack_unique hrun hrun').1, hopen⟩
    · refine Or.inr ⟨_, ⟨⟨bytes, input, output, fuel, s, hready, hrun, rfl⟩, hopen, ?_⟩, hdisk⟩
      rwa [length_slice]
  · obtain ⟨fuel, hrun⟩ := hr
    obtain ⟨r', hr', -, hdisk⟩ := (ready_or_fails c).resolve_left hnot outfile fuel m disk
    obtain rfl : r = r' := Option.some.inj (hrun.symm.trans hr')
    refine Or.inl ⟨?_, hdisk⟩
    rintro data ⟨⟨bytes, input, output, -, -, hready, -⟩, -, -⟩
    exact hnot ⟨bytes, input, output, hready⟩

end

/-- A profile without tokens that declares the size 0; `write` writes two bytes. -/
def shortWrite : Calls where
  fstat := some 9
  mallocInput := some 0
  fseekOk := true
  fread := [0x82, 0x29, 0x09, 0x00, 0x5a, 0x4c, 0x51, 0x49, 0]
  mallocOutput := some 100
  openOk := true
  write := some 2

theorem handles_shortWrite : ∃ r, Handles shortWrite "out" (fun _ => 0) (some [1, 2, 3]) r ∧
    r.status = 1 ∧ r.disk = some [0x82, 0x29, 3] := by
  refine ⟨_, ⟨2, rfl⟩, ?_⟩
  decide +kernel

theorem not_leavesOutfile_shortWrite :
    ¬ LeavesOutfile shortWrite "out" (fun _ => 0) (some [1, 2, 3]) := by
  intro h
  obtain ⟨r, hr, hstatus, hdisk⟩ := handles_shortWrite
  have hsame := h r hr (by rw [hstatus]; decide)
  rw [hdisk] at hsame
  exact absurd hsame (by decide)

theorem failed_leaves_or_cutOff_shortWrite : ∃ r : Result,
    Handles shortWrite "out" (fun _ => 0) (some [1, 2, 3]) r ∧ r.status = 1 ∧
      (((∀ data, ¬ Interrupted shortWrite (fun _ => 0) data) ∧ r.disk = some [1, 2, 3]) ∨
        ∃ data, Interrupted shortWrite (fun _ => 0) data ∧
          r.disk = some (cutOff shortWrite (some [1, 2, 3]) data)) := by
  obtain ⟨r, hr, hstatus, -⟩ := handles_shortWrite
  exact ⟨r, hr, hstatus, failed_leaves_or_cutOff hr (by rw [hstatus]; decide)⟩

end Iqiq.FailedOutfile
