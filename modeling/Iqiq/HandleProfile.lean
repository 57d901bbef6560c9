import Iqiq.LzUncompress

namespace Iqiq.HandleProfile

open Iqiq.ByteMemory
open Iqiq.LzUncompress

/-- What the calls that `handleProfile` makes come back with. -/
structure Calls where
  /-- `st.bytes`, when `whefs_fstat` returns `whefs_rc.OK`. -/
  fstat : Option UInt32
  mallocInput : Option Int
  fseekOk : Bool
  /-- The bytes that `whefs_fread` delivers; it returns their number. -/
  fread : List UInt8
  mallocOutput : Option Int
  openOk : Bool
  /-- The number of bytes that `write` writes; `none` stands for -1. -/
  write : Option Nat

/-- The four bytes that `memcpy` puts in front of the output. -/
def header : List UInt8 :=
  [0x82, 0x29, 0x09, 0x00]

/-- The arguments of the call `lzUncompress(input + 4, output + 4, st.bytes - 4, len)`;
the third is an `unsigned` difference that is passed as an `int`. -/
def profileArgs (input output : Int) (bytes : UInt32) (len : Nat) : Args :=
  ⟨input + 4, output + 4, (bytes - 4).toInt32.toInt, len⟩

/-- The value of `len`, with the profile in memory at `input`. -/
def profileLen (m : Mem) (input : Int) : Nat :=
  (lzParseSize m (input + 8)).1

/-- The decompression step, from the memory in which the profile has been read. -/
def unpack (fuel : Nat) (m : Mem) (input output : Int) (bytes : UInt32) : State × Option Int :=
  lzUncompress (profileArgs input output bytes (profileLen m input)) fuel
    ⟨ByteMemory.write m output header, 0, 0, [], []⟩

/-- `open` with `O_WRONLY | O_CREAT`: a file that is there keeps its bytes. -/
def openCreate (file : Option (List UInt8)) : List UInt8 :=
  file.getD []

@[simp] theorem openCreate_some (file : List UInt8) : openCreate (some file) = file := rfl

/-- The file after `data` has been written at offset 0. -/
def writeFront (file data : List UInt8) : List UInt8 :=
  data ++ file.drop data.length

/-- The return value, memory, the outfile (`none` if there is none) and what has
been printed. -/
structure Result where
  status : Int
  mem : Mem
  disk : Option (List UInt8)
  printed : List String

/-- `handleProfile` from the return of `lzUncompress` with `ret` on. -/
def afterUnpack (c : Calls) (outfile : String) (output : Int) (len : Nat)
    (printed : List String) (disk : Option (List UInt8)) (m : Mem) (ret : Int) : Result :=
  if ret ≠ 0 then
    ⟨1, m, disk, printed ++ ["[-] Failed to decompress buffer.\n"]⟩
  else if !c.openOk then
    ⟨1, m, disk, printed ++ ["[-] Failed to open output file.\n"]⟩
  else
    let file := openCreate disk
    match c.write with
    | none => ⟨1, m, some file, printed ++ ["[-] Writing to output file failed.\n"]⟩
    | some n =>
      let file := writeFront file ((slice m output (len + 4)).take n)
      if n ≠ len + 4 then
        ⟨1, m, some file, printed ++ ["[-] Writing to output file failed.\n"]⟩
      else
        ⟨0, m, some file, printed ++
          ["[+] Successfully wrote decompressed profile to " ++ outfile ++ ".\n"]⟩

/-- `handleProfile`, with the loops of `lzUncompress` cut off after `fuel` steps;
`none` while they are still running.  `disk` is the content of the outfile. -/
def handleProfile (c : Calls) (outfile : String) (fuel : Nat) (m : Mem)
    (disk : Option (List UInt8)) : Option Result :=
  match c.fstat with
  | none => some ⟨1, m, disk, ["[-] fstat on profile failed.\n"]⟩
  | some bytes =>
    match c.mallocInput with
    | none => some ⟨1, m, disk, ["[-] Failed to allocate input buffer.\n"]⟩
    | some input =>
      if !c.fseekOk then
        some ⟨1, m, disk, ["[-] fseek on profile failed.\n"]⟩
      else
        let m := ByteMemory.write m input c.fread
        if c.fread.length ≠ bytes.toNat then
          some ⟨1, m, disk, ["[-] Failed to read profile.\n"]⟩
        else
          let len := profileLen m input
          let printed := ["[+] Decompressed length is " ++ toString len ++ " bytes.\n"]
          match c.mallocOutput with
          | none =>
            some ⟨1, m, disk, printed ++ ["[-] Failed to allocate output buffer.\n"]⟩
          | some output =>
            let r := unpack fuel m input output bytes
            r.2.map (afterUnpack c outfile output len printed disk r.1.mem)

/-- `handleProfile` returns `r`. -/
def Handles (c : Calls) (outfile : String) (m : Mem) (disk : Option (List UInt8))
    (r : Result) : Prop :=
  ∃ fuel, handleProfile c outfile fuel m disk = some r

/-- All the calls before the decompression step succeed. -/
structure Ready (c : Calls) (bytes : UInt32) (input output : Int) : Prop where
  fstat : c.fstat = some bytes
  mallocInput : c.mallocInput = some input
  fseekOk : c.fseekOk = true
  fread : c.fread.length = bytes.toNat
  mallocOutput : c.mallocOutput = some output

theorem Ready.handles_iff {c : Calls} {bytes : UInt32} {input output : Int}
    (h : Ready c bytes input output) {outfile : String} {m : Mem}
    {disk : Option (List UInt8)} {r : Result} :
    Handles c outfile m disk r ↔ ∃ fuel s' ret,
      unpack fuel (ByteMemory.write m input c.fread) input output bytes = (s', some ret) ∧
      afterUnpack c outfile output (profileLen (ByteMemory.write m input c.fread) input)
        ["[+] Decompressed length is " ++
          toString (profileLen (ByteMemory.write m input c.fread) input) ++ " bytes.\n"]
        disk s'.mem ret = r := by
  simp only [Handles, handleProfile, h.fstat, h.mallocInput, h.fseekOk, h.fread,
    h.mallocOutput, Bool.not_true, Bool.false_eq_true, if_false, ne_eq, not_true_eq_false,
    Option.map_eq_some_iff]
  constructor
  · rintro ⟨fuel, ret, hret, hr⟩
    exact ⟨fuel, _, ret, Prod.ext rfl hret, hr⟩
  · rintro ⟨fuel, s', ret, hrun, hr⟩
    exact ⟨fuel, ret, by rw [hrun], by rw [hrun]; exact hr⟩

/-- Where some call before the decompression step fails, the status is 1 and the
outfile is as before. -/
theorem ready_or_fails (c : Calls) :
    (∃ bytes input output, Ready c bytes input output) ∨
      ∀ outfile fuel m disk, ∃ r, handleProfile c outfile fuel m disk = some r ∧
        r.status = 1 ∧ r.disk = disk := by
  rcases em (∃ bytes input output, Ready c bytes input output) with h | h
  · exact Or.inl h
  · refine Or.inr fun outfile fuel m disk => ?_
    unfold handleProfile
    split
    · exact ⟨_, rfl, rfl, rfl⟩
    · rename_i bytes hfstat
      split
      · exact ⟨_, rfl, rfl, rfl⟩
      · rename_i input hinput
        split
        · exact ⟨_, rfl, rfl, rfl⟩
        · rename_i hfseek
          simp only
          split
          · exact ⟨_, rfl, rfl, rfl⟩
          · rename_i hfread
            split
            · exact ⟨_, rfl, rfl, rfl⟩
            · rename_i output houtput
              exact absurd ⟨bytes, input, output, hfstat, hinput, by simpa using hfseek,
                by simpa using hfread, houtput⟩ h

theorem afterUnpack_zero {c : Calls} {outfile : String} {output : Int} {len : Nat}
    {printed : List String} {disk : Option (List UInt8)} {m : Mem} {ret : Int}
    (h : (afterUnpack c outfile output len printed disk m ret).status = 0) :
    ret = 0 ∧ (afterUnpack c outfile output len printed disk m ret).disk =
      some (writeFront (openCreate disk) (slice m output (len + 4))) := by
  unfold afterUnpack at h ⊢
  split at h
  · simp at h
  · rename_i hret
    have hzero : ret = 0 := by simpa using hret
    refine ⟨hzero, ?_⟩
    rw [if_neg hret]
    split at h
    · simp at h
    · rename_i hopen
      rw [if_neg hopen]
      split at h
      · simp at h
      · rename_i n hwrite
        simp only at h ⊢
        split at h
        · simp at h
        · rename_i hn
          have hall : n = len + 4 := by simpa using hn
          rw [if_neg hn, hall, List.take_of_length_le (by simp)]

theorem handles_zero {c : Calls} {outfile : String} {m : Mem} {disk : Option (List UInt8)}
    {r : Result} (hr : Handles c outfile m disk r) (hzero : r.status = 0) :
    ∃ bytes input output fuel s, Ready c bytes input output ∧
      unpack fuel (ByteMemory.write m input c.fread) input output bytes = (s, some 0) ∧
      r.disk = some (writeFront (openCreate disk) (slice s.mem output
        (profileLen (ByteMemory.write m input c.fread) input + 4))) := by
  rcases ready_or_fails c with ⟨bytes, input, output, hready⟩ | hfails
  · obtain ⟨fuel, s, ret, hrun, rfl⟩ := hready.handles_iff.mp hr
    obtain ⟨rfl, hdisk⟩ := afterUnpack_zero hzero
    exact ⟨bytes, input, output, fuel, s, hready, hrun, hdisk⟩
  · obtain ⟨fuel, hrun⟩ := hr
    obtain ⟨r', hr', hone, -⟩ := hfails outfile fuel m disk
    rw [hrun] at hr'
    rw [Option.some.inj hr', hone] at hzero
    omega

theorem Ready.unique {c : Calls} {bytes bytes' : UInt32} {input input' output output' : Int}
    (h : Ready c bytes input output) (h' : Ready c bytes' input' output') :
    bytes = bytes' ∧ input = input' ∧ output = output' := by
  have hb := h.fstat.symm.trans h'.fstat
  have hi := h.mallocInput.symm.trans h'.mallocInput
  have ho := h.mallocOutput.symm.trans h'.mallocOutput
  simp only [Option.some.injEq] at hb hi ho
  exact ⟨hb, hi, ho⟩

end Iqiq.HandleProfile
