import Iqiq.WhefsTruncate

namespace Iqiq.WhefsMount

open Iqiq.NameCache
open Iqiq.Whefs
open Iqiq.WhefsDisk
open Iqiq.WhefsEncode
open Iqiq.WhefsFiles
open Iqiq.WhefsNames
open Iqiq.WhefsReading
open Iqiq.WhefsTruncate
open Iqiq.WhefsWrite

/-- An entry of `fs->opened_nodes`. Its writer is a device, by its address. -/
structure Node where
  inode : Inode
  blocks : List Block
  writer : Option Nat
  openCount : UInt16

/-- A `whio_dev` of `whefs_dev_for_inode` at the address `key`; its inode is the opened one
with the id `node`. -/
structure Dev where
  key : Nat
  node : UInt32
  posabs : UInt32
  rw : Bool

/-- A `whefs_fs` opened for reading and writing: `devs` are the devices in `fs->closers`. -/
structure Mount where
  disk : Disk
  cache : Cache
  nodes : List Node
  devs : List Dev

/-- `whefs_inode_search_opened`, for an id that is valid. The entries are sorted. -/
def searchOpened : List Node → UInt32 → Option Node
  | [], _ => none
  | x :: rest, id =>
      if x.inode.id < id then searchOpened rest id
      else if x.inode.id > id then none
      else some x

/-- The insertion into `fs->opened_nodes` of `whefs_inode_open`. -/
def insertNode (ent : Node) : List Node → List Node
  | [] => [ent]
  | li :: rest =>
      if li.inode.id < ent.inode.id then li :: insertNode ent rest else ent :: li :: rest

def setNode (nodes : List Node) (node : Node) : List Node :=
  nodes.map fun x => if x.inode.id = node.inode.id then node else x

def setDev (devs : List Dev) (dev : Dev) : List Dev :=
  devs.map fun x => if x.key = dev.key then dev else x

/-- `whefs_inode_open`. -/
def inodeOpen (m : Mount) (nid : UInt32) (writer : Option Nat) : Code × Mount :=
  if ¬ inodeIdIsValid m.disk.fs nid then (.of .argError, m)
  else
    match searchOpened m.nodes nid with
    | some x =>
        if x.writer ≠ none ∧ x.writer = writer then (.of .ok, m)
        else if x.writer ≠ none ∧ writer ≠ none then (.accessError, m)
        else
          let writer := if x.writer = none then writer else x.writer
          (.of .ok,
            { m with nodes := setNode m.nodes { x with writer, openCount := x.openCount + 1 } })
    | none =>
        let (rc, inode, disk) := inodeIdReadHints m.disk nid { inodeEmpty with id := nid }
        if rc ≠ .ok then (.of rc, { m with disk })
        else (.of .ok, { m with disk, nodes := insertNode ⟨inode, [], writer, 1⟩ m.nodes })

/-- `whefs_inode_close`, for the opened inode with the id `nid`. -/
def inodeClose (m : Mount) (nid : UInt32) (writer : Option Nat) : Code × Mount :=
  match searchOpened m.nodes nid with
  | none => (.of .argError, m)
  | some x =>
      let isWriter : Bool := x.writer ≠ none ∧ x.writer = writer
      let disk := if isWriter then (inodeFlush m.disk x.inode).2 else m.disk
      let x := { x with
        writer := if isWriter then none else x.writer
        openCount := x.openCount - 1 }
      (.of .ok, { m with
        disk
        nodes := if x.openCount = 0 then m.nodes.filter fun y => y.inode.id ≠ nid
          else setNode m.nodes x })

/-- `whefs_inode_hash_cache_search_ndx`. -/
def hashSearchNdx (cache : Cache) (name : List UInt8) : Option Nat :=
  cache.bind fun li => li.indexOf (hashCstring name)

/-- What `whefs_inode_name_set` makes of the entry for the old name. -/
def rehash (li : HashidList) (ndx : Nat) (name : List UInt8) : HashidList :=
  HashidList.sort { li with
    list := li.list.modify ndx fun e => { e with hash := hashCstring name } }

/-- `whefs_inode_name_set`. -/
def inodeNameSet (m : Mount) (nid : UInt32) (name : List UInt8) : Run (Code × Mount) :=
  if ¬ inodeIdIsValid m.disk.fs nid then .ok (.of .argError, m)
  else do
    let (rc, old, cache) ← inodeNameGet m.disk.fs m.cache nid []
    if rc ≠ .ok then return (.of rc, { m with cache })
    else if old ≠ [] ∧ old = name then return (.of .ok, { m with cache })
    else
      let nameCheck := if old = [] then name else old
      let cache := inodeHashCacheSort cache
      let ndx := hashSearchNdx cache nameCheck
      let clash := ndx.any fun i => (cache.bind fun li => li.list[i]?).any fun e => e.id ≠ nid
      if clash then return (.of .internalError, { m with cache })
      else
        let (rc, disk) := nameWrite m.disk nid name
        if rc ≠ .of .ok then return (rc, { m with cache, disk })
        else
          let cache := match ndx with
            | some i => cache.map fun li => rehash li i name
            | none => cache
          return (rc, { m with cache, disk })

/-- `whefs_inode_by_name`, with what it does to the hints. -/
def inodeByNameHints (m : Mount) (name : List UInt8) : Run (Rc × Inode × Mount) := do
  let (rc, n, cache) ← inodeByName m.disk.fs m.cache name
  return (rc, n, { m with cache, disk := if rc = .ok then inodeUpdateUsed m.disk n else m.disk })

/-- What `whefs_inode_unlink` does with the blocks. -/
def inodeUnlinkBlocks (fuel : Nat) (d : Disk) (ino : Inode) : Run (Code × Disk) :=
  if ino.firstBlock = 0 then .ok (.of .ok, d)
  else
    let bl := match blockRead d.fs ino.firstBlock with
      | .ok bl => bl
      | .error _ => blockReadPart d.fs ino.firstBlock
    blockWipe fuel d bl true true true

/-- `whefs_inode_unlink`. -/
def inodeUnlink (fuel : Nat) (m : Mount) (ino : Inode) : Run (Code × Mount) :=
  if ¬ inodeIdIsValid m.disk.fs ino.id then .ok (.of .argError, m)
  else if (searchOpened m.nodes ino.id).isSome then .ok (.accessError, m)
  else do
    let (rc, disk) ← inodeUnlinkBlocks fuel m.disk ino
    let m := { m with disk }
    if rc ≠ .of .ok then return (rc, m)
    let (rc, m) ← inodeNameSet m ino.id []
    if rc ≠ .of .ok then return (rc, m)
    let (rc, disk) := inodeFlush m.disk { inodeEmpty with id := ino.id }
    return (rc, { m with disk })

def unlinkFilename (fuel : Nat) (m : Mount) (name : List UInt8) : Run (Code × Mount) := do
  let (rc, ino, m) ← inodeByNameHints m name
  if rc ≠ .ok then return (.of rc, m)
  else inodeUnlink fuel m ino

/-- `whefs_dev_for_inode`, whose new device is at `key`. -/
def devForInode (m : Mount) (key : Nat) (nid : UInt32) (writeMode : Bool) : Bool × Mount :=
  if ¬ inodeIdIsValid m.disk.fs nid then (false, m)
  else
    let (rc, m) := inodeOpen m nid (if writeMode then some key else none)
    if rc ≠ .of .ok then (false, m)
    else (true, { m with devs := m.devs ++ [⟨key, nid, 0, writeMode⟩] })

/-- `whefs_dev_open` at the time `now`. -/
def devOpen (now : UInt32) (m : Mount) (key : Nat) (name : List UInt8) (writeMode : Bool) :
    Run (Bool × Mount) := do
  let (rc, ino, m) ← inodeByNameHints m name
  if rc = .ok then return devForInode m key ino.id writeMode
  else if ¬ writeMode then return (false, m)
  else
    let (found, disk) ← inodeNextFree now m.disk true
    let m := { m with disk }
    match found with
    | .error _ => return (false, m)
    | .ok ino =>
        let (rc, m) ← inodeNameSet m ino.id name
        if rc ≠ .of .ok then return (false, m)
        else return devForInode { m with disk := (inodeFlush m.disk ino).2 } key ino.id writeMode

/-- The device at `key` and its inode. -/
def Mount.devAt (m : Mount) (key : Nat) : Option (Dev × Node) := do
  let dev ← m.devs.find? fun x => x.key = key
  let node ← searchOpened m.nodes dev.node
  return (dev, node)

def fileOf (dev : Dev) (node : Node) : File :=
  ⟨node.inode, dev.posabs, node.blocks⟩

/-- What has become of a device and its inode. -/
def Mount.put (m : Mount) (dev : Dev) (node : Node) (f : File) (disk : Disk) : Mount :=
  { m with
    disk
    nodes := setNode m.nodes { node with inode := f.inode, blocks := f.blocks }
    devs := setDev m.devs { dev with posabs := f.posabs } }

/-- A call for a device that there is not. -/
def Mount.withDev {α : Type} (m : Mount) (key : Nat) (call : Dev → Node → Run α) : Run α :=
  match m.devAt key with
  | none => .error .undefined
  | some (dev, node) => call dev node

/-- `whio_dev_inode_read`. -/
def devRead (fuel : Nat) (m : Mount) (key : Nat) (n : UInt32) : Run (List UInt8 × Mount) :=
  m.withDev key fun dev node => do
    let (bytes, f) ← inodeRead m.disk.fs fuel fuel (fileOf dev node) n
    return (bytes, m.put dev node f m.disk)

/-- `whio_dev_inode_write`. -/
def devWrite (now : UInt32) (fuel : Nat) (m : Mount) (key : Nat) (src : List UInt8) :
    Run (Nat × Mount) :=
  m.withDev key fun dev node => do
    if ¬ dev.rw then return (0, m)
    else
      let (sz, f, disk) ← inodeWrite now fuel fuel m.disk (fileOf dev node) src
      return (sz, m.put dev node f disk)

inductive Whence where
  | seekSet
  | seekCur
  | seekEnd
  deriving DecidableEq

/-- `whio_dev_inode_seek`; the result is none for `SizeTError`. -/
def devSeek (m : Mount) (key : Nat) (pos : Int) (whence : Whence) :
    Run (Option UInt32 × Mount) :=
  m.withDev key fun dev node =>
    let move (target : Int) : Run (Option UInt32 × Mount) :=
      let too := UInt32.ofNat (target % 2 ^ 32).toNat
      .ok (some too, { m with devs := setDev m.devs { dev with posabs := too } })
    match whence with
    | .seekSet => if pos < 0 then .ok (none, m) else move pos
    | .seekCur => move (dev.posabs.toNat + pos)
    | .seekEnd => move (node.inode.dataSize.toNat + pos)

/-- `whio_dev_inode_flush`. -/
def devFlush (m : Mount) (key : Nat) : Run (Code × Mount) :=
  m.withDev key fun dev node =>
    if ¬ dev.rw then .ok (.of .ok, m)
    else
      let (rc, disk) := inodeFlush m.disk node.inode
      .ok (rc, { m with disk })

/-- `whio_dev_inode_trunc`. -/
def devTrunc (fuel : Nat) (m : Mount) (key : Nat) (len : Int) : Run (Code × Mount) :=
  m.withDev key fun dev node => do
    if len < 0 then return (.of .argError, m)
    else if ¬ dev.rw then return (.accessError, m)
    else
      let (rc, f, disk) ← inodeTrunc fuel m.disk (fileOf dev node) len
      return (rc, m.put dev node f disk)

/-- `whio_dev_inode_close`. -/
def devClose (m : Mount) (key : Nat) : Run (Code × Mount) :=
  m.withDev key fun dev node =>
    let disk := if dev.rw then (inodeFlush m.disk node.inode).2 else m.disk
    .ok (inodeClose { m with disk, devs := m.devs.filter fun x => x.key ≠ key } dev.node (some key))

/-- `whefs_file_name_set`, for the file of a device. -/
def fileNameSet (m : Mount) (key : Nat) (newName : List UInt8) : Run (Code × Mount) :=
  m.withDev key fun dev node =>
    if newName = [] then .ok (.of .argError, m)
    else if ¬ dev.rw then .ok (.accessError, m)
    else inodeNameSet m node.inode.id newName

inductive Op where
  | openDev (now : UInt32) (key : Nat) (name : List UInt8) (writeMode : Bool)
  | read (key : Nat) (n : UInt32)
  | write (now : UInt32) (key : Nat) (src : List UInt8)
  | seek (key : Nat) (pos : Int) (whence : Whence)
  | flush (key : Nat)
  | trunc (key : Nat) (len : Int)
  | close (key : Nat)
  | nameSet (key : Nat) (name : List UInt8)
  | unlink (name : List UInt8)

inductive Answer where
  | opened (there : Bool)
  | bytes (bytes : List UInt8)
  | count (sz : Nat)
  | position (pos : Option Nat)
  | code (rc : Code)
  deriving DecidableEq

def Mount.step (fuel : Nat) (m : Mount) : Op → Run (Answer × Mount)
  | .openDev now key name writeMode => do
      let (there, m) ← devOpen now m key name writeMode
      return (.opened there, m)
  | .read key n => do
      let (bytes, m) ← devRead fuel m key n
      return (.bytes bytes, m)
  | .write now key src => do
      let (sz, m) ← devWrite now fuel m key src
      return (.count sz, m)
  | .seek key pos whence => do
      let (too, m) ← devSeek m key pos whence
      return (.position (too.map UInt32.toNat), m)
  | .flush key => do
      let (rc, m) ← devFlush m key
      return (.code rc, m)
  | .trunc key len => do
      let (rc, m) ← devTrunc fuel m key len
      return (.code rc, m)
  | .close key => do
      let (rc, m) ← devClose m key
      return (.code rc, m)
  | .nameSet key name => do
      let (rc, m) ← fileNameSet m key name
      return (.code rc, m)
  | .unlink name => do
      let (rc, m) ← unlinkFilename fuel m name
      return (.code rc, m)

end Iqiq.WhefsMount
