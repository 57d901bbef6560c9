import Iqiq.WhefsMount

namespace Iqiq.FileStore

open Iqiq.BlockedFile
open Iqiq.NameCache
open Iqiq.Whefs
open Iqiq.WhefsDisk
open Iqiq.WhefsMount
open Iqiq.WhefsTruncate

/-- A file. What is opened anew finds `stored` for its size. -/
structure FileState where
  name : List UInt8
  stored : Nat
  content : Content UInt8

structure Handle where
  key : Nat
  file : UInt32
  pos : Nat
  rw : Bool

/-- Files, a number of blocks for more of them, and handles to some of them. -/
structure Store where
  files : UInt32 → Option FileState
  free : Nat
  handles : List Handle

namespace Store

variable (opt : Options) (s : Store)

/-- The ids for files; the first inode is that of the root. -/
def ids : List UInt32 :=
  (List.range' 2 (opt.inodeCount.toNat - 1)).map UInt32.ofNat

def byName (name : List UInt8) : Option UInt32 :=
  (ids opt).find? fun id => (s.files id).any fun f => f.name = name

def fresh : Option UInt32 :=
  (ids opt).find? fun id => (s.files id).isNone

def handle (key : Nat) : Option Handle :=
  s.handles.find? fun h => h.key = key

def isOpen (id : UInt32) : Bool :=
  s.handles.any fun h => h.file = id

def isWritten (id : UInt32) : Bool :=
  s.handles.any fun h => h.file = id ∧ h.rw

def setFile (id : UInt32) (f : Option FileState) : Store :=
  { s with files := Function.update s.files id f }

def setPos (key pos : Nat) : Store :=
  { s with handles := s.handles.map fun h => if h.key = key then { h with pos } else h }

/-- The number of blocks of a file. -/
def held (c : Content UInt8) : Nat :=
  c.room.length / opt.blockSize.toNat

/-- A file has one writer at most. -/
def openId (key : Nat) (id : UInt32) (rw : Bool) : Answer × Store :=
  if rw ∧ s.isWritten id then (.opened false, s)
  else (.opened true, { s with handles := s.handles ++ [⟨key, id, 0, rw⟩] })

/-- A file that there is not yet is made for a writer. -/
def openName (key : Nat) (name : List UInt8) (rw : Bool) : Answer × Store :=
  match s.byName opt name with
  | some id => s.openId key id rw
  | none =>
      if ¬ rw then (.opened false, s)
      else
        match s.fresh opt with
        | none => (.opened false, s)
        | some id => (s.setFile id (some ⟨name, 0, ⟨0, []⟩⟩)).openId key id rw

def read (h : Handle) (f : FileState) (n : Nat) : Answer × Store :=
  let bytes := f.content.get h.pos n
  (.bytes bytes, s.setPos h.key (h.pos + bytes.length))

def write (h : Handle) (f : FileState) (src : List UInt8) : Answer × Store :=
  if ¬ h.rw then (.count 0, s)
  else
    let out := put opt.blockSize.toNat opt.blockCount.toNat 0 s.free f.content h.pos src
    (.count out.count,
      { (s.setFile h.file (some { f with content := out.content })).setPos h.key
          (h.pos + out.count) with
        free := out.free })

/-- Positions are numbers of 32 bits. -/
def seek (h : Handle) (f : FileState) (pos : Int) (whence : Whence) : Answer × Store :=
  let move (target : Int) : Answer × Store :=
    let too := (target % 2 ^ 32).toNat
    (.position (some too), s.setPos h.key too)
  match whence with
  | .seekSet => if pos < 0 then (.position none, s) else move pos
  | .seekCur => move (h.pos + pos)
  | .seekEnd => move (f.content.size + pos)

def flushed (f : FileState) : FileState :=
  { f with stored := f.content.size }

def flush (h : Handle) (f : FileState) : Answer × Store :=
  (.code (.of .ok), if h.rw then s.setFile h.file (some (flushed f)) else s)

/-- A file that shrinks to nothing loses its blocks for good. One that shrinks to fewer of
them is blank in the last one from the position of its end on. -/
def trunc (h : Handle) (f : FileState) (len : Int) : Answer × Store :=
  let bs := opt.blockSize.toNat
  let off := UInt32.ofNat len.toNat
  let n := off.toNat
  if len < 0 then (.code (.of .argError), s)
  else if ¬ h.rw then (.code .accessError, s)
  else if n = f.content.size then (.code (.of .ok), s)
  else if len = 0 then
    (.code (.of .ok), s.setFile h.file (some { f with stored := 0, content := ⟨0, []⟩ }))
  else if f.content.size < n then
    let (content, free) := enlarge bs opt.blockCount.toNat 0 s.free f.content n
    (.code (growCode opt (held opt f.content + s.free) off),
      { s.setFile h.file (some { f with stored := n, content }) with free })
  else
    let keep := (n - 1) / bs + 1
    let content := cut bs 0 f.content n keep ((n - 1) / bs * bs + n % bs)
    (.code (.of .ok),
      { s.setFile h.file (some { f with stored := n, content }) with
        free := s.free + (held opt f.content - keep) })

/-- A file may shrink to fewer blocks than it has, or within its only one. -/
def TruncAllowed (f : FileState) (len : Int) : Prop :=
  len < 2 ^ 32 ∧ (0 < len → len.toNat < f.content.size →
    (len.toNat - 1) / opt.blockSize.toNat + 1 < held opt f.content ∨
      (len.toNat - 1) / opt.blockSize.toNat + 1 = 1 ∧ held opt f.content = 1)

def close (h : Handle) (f : FileState) : Answer × Store :=
  let s := if h.rw then s.setFile h.file (some (flushed f)) else s
  (.code (.of .ok), { s with handles := s.handles.filter fun x => x.key ≠ h.key })

def nameSet (h : Handle) (f : FileState) (name : List UInt8) : Answer × Store :=
  if name = [] then (.code (.of .argError), s)
  else if ¬ h.rw then (.code .accessError, s)
  else (.code (.of .ok), s.setFile h.file (some { f with name }))

/-- What a search comes back with that finds no file: how the last name that there is
compares, if the last inode has one. -/
def notFound : Rc :=
  if (s.files opt.inodeCount).isSome then .mismatch else .rangeError

def unlink (name : List UInt8) : Answer × Store :=
  match s.byName opt name with
  | none => (.code (.of (s.notFound opt)), s)
  | some id =>
      if s.isOpen id then (.code .accessError, s)
      else
        (.code (.of .ok), { s.setFile id none with
          free := s.free + (s.files id).elim 0 fun f => held opt f.content })

/-- A call for a handle that there is not changes nothing. -/
def withHandle (key : Nat) (call : Handle → FileState → Answer × Store) : Answer × Store :=
  match s.handle key with
  | none => (.code (.of .argError), s)
  | some h =>
      match s.files h.file with
      | none => (.code (.of .argError), s)
      | some f => call h f

def step : Op → Answer × Store
  | .openDev _ key name rw => s.openName opt key name rw
  | .read key n => s.withHandle key fun h f => s.read h f n.toNat
  | .write _ key src => s.withHandle key fun h f => s.write opt h f src
  | .seek key pos whence => s.withHandle key fun h f => s.seek h f pos whence
  | .flush key => s.withHandle key s.flush
  | .trunc key len => s.withHandle key fun h f => s.trunc opt h f len
  | .close key => s.withHandle key s.close
  | .nameSet key name => s.withHandle key fun h f => s.nameSet h f name
  | .unlink name => s.unlink opt name

/-- Calls that a program may make: with names of `S` that fit, and with handles that there
are. No two files get one name, and a file has 65535 handles at most. -/
def Allowed (S : List UInt8 → Prop) : Op → Prop
  | .openDev _ key name _ => (s.handle key).isNone ∧ S name ∧
      name.length ≤ opt.filenameLength.toNat ∧ s.handles.length < 65535
  | .read key _ => (s.handle key).isSome
  | .write _ key src => (s.handle key).isSome ∧ src.length < 2 ^ 32
  | .seek key _ _ => (s.handle key).isSome
  | .flush key => (s.handle key).isSome
  | .trunc key len => (s.handle key).isSome ∧
      ∀ h f, s.handle key = some h → s.files h.file = some f → TruncAllowed opt f len
  | .close key => (s.handle key).isSome
  | .nameSet key name => (s.handle key).isSome ∧
      (name ≠ [] → S name ∧ name.length ≤ opt.filenameLength.toNat ∧
        ∀ h, s.handle key = some h → ∀ id f, s.files id = some f → f.name = name → id = h.file)
  | .unlink name => S name ∧ name.length ≤ opt.filenameLength.toNat

end Store

end Iqiq.FileStore
