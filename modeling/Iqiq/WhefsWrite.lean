import Iqiq.BlockedFile
import Iqiq.WhefsFree

namespace Iqiq.WhefsWrite

open Iqiq.BlockedFile
open Iqiq.RecordTable
open Iqiq.Whefs
open Iqiq.WhefsAllocation
open Iqiq.WhefsChains
open Iqiq.WhefsDisk
open Iqiq.WhefsEncode
open Iqiq.WhefsFiles
open Iqiq.WhefsFree
open Iqiq.WhefsVolume

/-- `whefs_inode_block_list_append`: the last block, or the inode, gets its successor. -/
def blockListAdd (d : Disk) (ino : Inode) (blocks : List Block) (bl : Block) :
    Run (Inode × List Block × Disk) :=
  -- as in `blockListAppend`
  if 2 ^ 31 ≤ blocks.length then .error .undefined
  else
    match blocks.getLast? with
    | none =>
        if ino.firstBlock = 0 then
          let ino := { ino with firstBlock := bl.id }
          .ok (ino, [bl], (inodeFlush d ino).2)
        else if ino.firstBlock ≠ bl.id then .error .assertion
        else .ok (ino, [bl], d)
    | some prev =>
        if prev.nextBlock = 0 then
          let prev := { prev with nextBlock := bl.id }
          .ok (ino, blocks.dropLast ++ [prev] ++ [bl], (blockFlush d prev).2)
        else if prev.nextBlock ≠ bl.id then .error .assertion
        else .ok (ino, blocks ++ [bl], d)

/-- The loop of `whefs_block_for_pos` that adds `left` blocks to the list. -/
def blockListExpand : Nat → Disk → File → Block → Run (Except Code Block × File × Disk)
  | 0, d, f, bl => .ok (.ok bl, f, d)
  | left + 1, d, f, _ => do
      let (found, d) ← blockNextFree d true
      match found with
      | .error rc => return (.error rc, f, d)
      | .ok bl =>
          let (inode, blocks, d) ← blockListAdd d f.inode f.blocks bl
          blockListExpand left d { f with inode, blocks } bl

/-- `whefs_block_for_pos`, with `expand`. -/
def blockForPosExpand (fuel : Nat) (d : Disk) (f : File) (pos : UInt32) :
    Run (Except Code Block × File × Disk) :=
  let bs := d.fs.options.blockSize
  if bs = 0 then .error .undefined
  else
    let bc := 1 + pos / bs
    if bc > d.fs.options.blockCount then .ok (.error (.of .rangeError), f, d)
    else do
      let (rc, blocks) ← loadedBlocks d.fs fuel f
      let f := { f with blocks }
      if rc ≠ .ok then return (.error (.of rc), f, d)
      match blocks[bc.toNat - 1]? with
      | some bl => return (.ok bl, f, d)
      | none => blockListExpand (bc.toNat - blocks.length) d f blockEmpty

/-- `whio_dev_inode_write_impl` at the time `now`: the number of bytes that it takes and its
`keepGoing`. -/
def inodeWriteImpl (now : UInt32) (fuel : Nat) (d : Disk) (f : File) (src : List UInt8) :
    Run (Nat × Bool × File × Disk) :=
  if src = [] then .ok (0, false, f, d)
  else do
    let (block, f, d) ← blockForPosExpand fuel d f f.posabs
    match block with
    | .error _ => return (0, false, f, d)
    | .ok block =>
        let bs := d.fs.options.blockSize
        let n := UInt32.ofNat src.length
        let wpos := f.posabs % bs
        let left := bs - wpos
        let wlen := if n > left then left else n
        let d := d.write (blockDataPos d.fs block + wpos) (src.take wlen.toNat)
        let szCheck := f.posabs + wlen
        let posabs := if szCheck > f.posabs then szCheck else f.posabs
        let dataSize := if f.inode.dataSize < posabs then posabs else f.inode.dataSize
        let inode := { f.inode with mtime := now, dataSize }
        return (wlen.toNat, wlen < n, { f with inode, posabs }, d)

/-- `whio_dev_inode_write`, for a device that can be written. -/
def inodeWrite (now : UInt32) (fuel : Nat) :
    Nat → Disk → File → List UInt8 → Run (Nat × File × Disk)
  | 0, _, _, _ => .error .running
  | rounds + 1, d, f, src => do
      let (sz, keepGoing, f, d) ← inodeWriteImpl now fuel d f src
      if keepGoing then
        let (more, f, d) ← inodeWrite now fuel rounds d f (src.drop sz)
        return (sz + more, f, d)
      else return (sz, f, d)

end Iqiq.WhefsWrite
