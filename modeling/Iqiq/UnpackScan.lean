import Iqiq.WhefsFiles

namespace Iqiq.UnpackScan

open Iqiq.NameCache
open Iqiq.Whefs
open Iqiq.WhefsFiles
open Iqiq.WhefsNames

/-- What `main` does that can be seen from outside: it prints, and it passes a file to
`handleProfile`, which returns. -/
inductive Event where
  | printed (text : List UInt8)
  | handled (file : File) (ret : Int)

def ascii (text : String) : List UInt8 :=
  text.toList.map fun c => UInt8.ofNat c.toNat

def usage : Event :=
  .printed (ascii "[-] Usage: ./IQunpack [archive.img] [output]\n")

def archiveFailed : Event :=
  .printed (ascii "[-] Failed to open archive.img.\n")

def openFailed : Event :=
  .printed (ascii "[-] Failed to open file.\n")

def foundProfile (name : List UInt8) : Event :=
  .printed (ascii "[+] Found profile in \"" ++ name ++ ascii "\"!\n")

def parseFailed : Event :=
  .printed (ascii "[-] Failed to parse profile.\n")

/-- The local variables of `main` that outlive a round of its loop, with the events so
far. `world` is whatever `handleProfile` works on besides the file. -/
structure Scan (σ : Type) where
  n : Inode
  cache : Cache
  world : σ
  trace : List Event

/-- The four bytes that `main` compares `&header[4]` with. -/
def zlqi : List UInt8 :=
  [0x5a, 0x4c, 0x51, 0x49]

section

variable {σ : Type} (handle : σ → File → Int × σ) (fs : Fs) (fuel : Nat)

/-- The call of `handleProfile`, and what `main` makes of its result. -/
def handleFound (name : List UInt8) (file : File) (s : Scan σ) :
    Scan σ × Option (Run Int) :=
  let (ret, world) := handle s.world file
  let s := { s with world, trace := s.trace ++ [foundProfile name, .handled file ret] }
  if ret ≠ 0 then ({ s with trace := s.trace ++ [parseFailed] }, some (.ok 1)) else (s, none)

/-- What `main` does with the name of an inode that has one. -/
def scanFile (name : List UInt8) (s : Scan σ) : Scan σ × Option (Run Int) :=
  match fopen fs s.cache name with
  | .error stop => (s, some (.error stop))
  | .ok (file, cache) =>
      let s := { s with cache }
      match file with
      | none => ({ s with trace := s.trace ++ [openFailed] }, none)
      | some file =>
          match fread fs fuel 8 file with
          | .error stop => (s, some (.error stop))
          | .ok (header, file) =>
              if header.length ≠ 8 then (s, none)
              else if header.drop 4 = zlqi then handleFound handle name file s
              else (s, none)

/-- One round of the loop; it ends `main` when it delivers a value. -/
def scanInode (i : UInt32) (s : Scan σ) : Scan σ × Option (Run Int) :=
  let (rc, n) := inodeIdRead fs i s.n
  let s := { s with n }
  if rc ≠ .ok then (s, none)
  else
    match inodeNameGet fs s.cache n.id [] with
    | .error stop => (s, some (.error stop))
    | .ok (rc, name, cache) =>
        let s := { s with cache }
        if rc ≠ .ok then (s, none)
        else if name = [] then (s, none)
        else scanFile handle fs fuel name s

/-- The loop over the `left` inodes from `i` on. -/
def scanLoop : Nat → UInt32 → Scan σ → Scan σ × Run Int
  | 0, _, s => (s, .ok 0)
  | left + 1, i, s =>
      match scanInode handle fs fuel i s with
      | (s, some ending) => (s, ending)
      | (s, none) => scanLoop left (i + 1) s

end

/-- `main` on the archive that it is given, `none` if that cannot be opened. The inode
`n` is not initialized. -/
def main {σ : Type} (handle : σ → File → Int × σ) (fuel : Nat) (argc : Int)
    (archive : Option (List UInt8)) (n : Inode) (world : σ) : Scan σ × Run Int :=
  let s : Scan σ := ⟨n, none, world, []⟩
  if argc ≠ 3 then ({ s with trace := [usage] }, .ok 1)
  else
    match archive with
    | none => ({ s with trace := [archiveFailed] }, .ok 1)
    | some image =>
        match openfsStage2 image with
        | .error stop => (s, .error stop)
        | .ok (.error _) => ({ s with trace := [archiveFailed] }, .ok 1)
        | .ok (.ok fs) => scanLoop handle fs fuel (fs.options.inodeCount.toNat + 1) 0 s

end Iqiq.UnpackScan
