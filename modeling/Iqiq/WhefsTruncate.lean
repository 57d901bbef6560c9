import Iqiq.WhefsReading

namespace Iqiq.WhefsTruncate

open Iqiq.BlockedFile
open Iqiq.NextPath
open Iqiq.RecordTable
open Iqiq.Whefs
open Iqiq.WhefsAllocation
open Iqiq.WhefsChains
open Iqiq.WhefsDisk
open Iqiq.WhefsEncode
open Iqiq.WhefsFiles
open Iqiq.WhefsFree
open Iqiq.WhefsGrowth
open Iqiq.WhefsReading
open Iqiq.WhefsVolume
open Iqiq.WhefsWrite
open Iqiq.WhefsWriting

/-- What a `whefs_block_read` that fails has decoded into an empty block. -/
def blockReadPart (fs : Fs) (bid : UInt32) : Block :=
  let buf := readAt fs.image (blockIdPos fs bid) sizeofBlockHeader
  if buf.length ≠ sizeofBlockHeader ∨ buf.getD 0 0 ≠ 0x42 then blockEmpty
  else
    match decodeUint32 (buf.drop 1) with
    | .error _ => blockEmpty
    | .ok id =>
        match decodeUint8 (buf.drop 6) with
        | .error _ => { blockEmpty with id }
        | .ok flags => { blockEmpty with id, flags }

/-- `whio_dev_inode_trunc` to no bytes. Only what cannot be read is wiped: the blocks of a
file that is in order stay in use. -/
def inodeTruncZero (fuel : Nat) (d : Disk) (f : File) : Run (Code × File × Disk) := do
  let (rc, d) ←
    if f.inode.firstBlock = 0 then pure (.of .ok, d)
    else
      match blockRead d.fs f.inode.firstBlock with
      | .ok _ => pure (.of .ok, d)
      | .error _ => blockWipe fuel d (blockReadPart d.fs f.inode.firstBlock) true true true
  if rc ≠ .of .ok then return (rc, f, d)
  let inode := { f.inode with firstBlock := 0, dataSize := 0 }
  return (.of .ok, { f with inode, blocks := [] }, (inodeFlush d inode).2)

/-- What `whio_dev_inode_trunc` does when it shrinks a file to `off` bytes, of which the last
one is in `bl`. -/
def inodeShrink (fuel : Nat) (d : Disk) (f : File) (bl : Block) (off : UInt32) :
    Run (Code × File × Disk) :=
  match blockWipeData d bl (off % d.fs.options.blockSize) with
  | (.of .ok, d) =>
      -- the list is cut to one block, also when `bl` is not the first one
      if bl.nextBlock = 0 then .ok (.of .ok, { f with blocks := f.blocks.take 1 }, d)
      else
        match f.blocks.tail.findIdx? fun b => b.id = bl.nextBlock with
        | none => .ok (.of .internalError, f, d)
        | some i => do
            let (_, d) ← blockWipe fuel d (f.blocks.getD (i + 1) blockEmpty) true true true
            let last := { f.blocks.getD i blockEmpty with nextBlock := 0 }
            let (rc, d) := blockFlush d last
            return (rc, { f with blocks := f.blocks.take i ++ [last] }, d)
  | (rc, d) => .ok (rc, f, d)

/-- `whio_dev_inode_trunc`, for a device that can be written; the new size is `len` in
32 bits. -/
def inodeTrunc (fuel : Nat) (d : Disk) (f : File) (len : Int) : Run (Code × File × Disk) :=
  let off := UInt32.ofNat len.toNat
  if len < 0 then .ok (.of .argError, f, d)
  else if off = f.inode.dataSize then .ok (.of .ok, f, d)
  else if len = 0 then inodeTruncZero fuel d f
  else if off = 0 then .error .assertion
  else do
    let shrinks : Bool := off < f.inode.dataSize
    let f := { f with inode := { f.inode with dataSize := off } }
    let (rc, d) := inodeFlush d f.inode
    if rc ≠ .of .ok then return (rc, f, d)
    let (block, f, d) ← blockForPosExpand fuel d f (off - 1)
    match block with
    | .error rc => return (rc, f, d)
    | .ok bl =>
        if shrinks then inodeShrink fuel d f bl off
        else
          -- zeros are written from the new end on, so none are
          return (.of .ok, f, d)

section

variable {opt : Options}

/-- What a step makes of an opened inode: it has the blocks `ids` and the content `c`, its
record has the size `stored`, and `free` blocks are not in use. Nothing else has changed. -/
structure Became (v : Volume opt) (chains : UInt32 → List UInt32) (f : File) (ids : List UInt32)
    (c : Content UInt8) (stored free : Nat) (w : Volume opt) (hints : Hints) (f' : File) :
    Prop where
  formed : Formed w hints (Function.update chains f.inode.id ids)
  opened : Opened w (Function.update chains f.inode.id ids) f'
  id_eq : f'.inode.id = f.inode.id
  kept : Kept v chains f.inode.id w
  content : contentOf w (Function.update chains f.inode.id ids) f' = c
  dataSize : (w.inode f.inode.id).dataSize.toNat = stored
  free : (freeIds w).length = free

variable {v w u : Volume opt} {hints hints' : Hints} {chains : UInt32 → List UInt32}
  {f f' f'' : File} {ids ids' dropped freed : List UInt32} {c c' : Content UInt8}
  {stored stored' free free' k fuel : Nat} {a id : UInt32} {ino : Inode}

theorem Became.trans (h : Became v chains f ids c stored free w hints f')
    (h' : Became w (Function.update chains f.inode.id ids) f' ids' c' stored' free' u hints' f'') :
    Became v chains f ids' c' stored' free' u hints' f'' := by
  have hn := h.id_eq
  have hchains : Function.update (Function.update chains f.inode.id ids) f'.inode.id ids' =
      Function.update chains f.inode.id ids' := by
    rw [hn, Function.update_idem]
  constructor
  · exact hchains ▸ h'.formed
  · exact hchains ▸ h'.opened
  · exact h'.id_eq.trans hn
  · exact h.kept.trans (fun m hm => Function.update_of_ne hm _ _) (hn ▸ h'.kept)
  · exact hchains ▸ h'.content
  · exact hn ▸ h'.dataSize
  · exact h'.free

theorem Wrote.became {out : Written UInt8} (h : Wrote v chains f out k w hints f') :
    Became v chains f (chains f.inode.id ++ (freeIds v).take k) out.content
      (v.inode f.inode.id).dataSize.toNat out.free w hints f' :=
  ⟨h.formed, h.opened, h.id_eq, h.kept, h.content, congrArg UInt32.toNat h.dataSize,
    h.length_free⟩

theorem Grown.became (h : Chained v chains) (hk : k ≤ (freeIds v).length)
    (hgrown : Grown v chains f k w hints f') :
    Became v chains f (chains f.inode.id ++ (freeIds v).take k)
      ⟨f.inode.dataSize.toNat, (contentOf v chains f).grow opt.blockSize.toNat 0
        (chains f.inode.id).length ((chains f.inode.id).length + k)⟩
      (v.inode f.inode.id).dataSize.toNat ((freeIds v).length - k) w hints f' := by
  have hroom := room_grown h hk f.inode.id
  refine ⟨hgrown.formed, hgrown.opened, hgrown.id_eq, kept_of_grown hgrown, ?_,
    congrArg UInt32.toNat hgrown.dataSize, ?_⟩
  · rw [contentOf, hgrown.id_eq, hgrown.size, Function.update_self, room, hgrown.data, ← room,
      hroom, Content.grow, Nat.add_sub_cancel_left]
    rfl
  · rw [hgrown.free, List.length_drop]

theorem became_setInode (h : Formed v hints chains) (hf : Opened v chains f)
    (hid : ino.id = f.inode.id) (hfirst : ino.firstBlock = f.inode.firstBlock)
    (hflags : ino.flags = f.inode.flags) :
    Became v chains f (chains f.inode.id) ⟨ino.dataSize.toNat, room v (chains f.inode.id)⟩
      ino.dataSize.toNat (freeIds v).length (v.setInode ino) (lowerInode hints ino)
      { f with inode := ino } := by
  have hself : (v.setInode ino).inode f.inode.id = ino := by
    rw [Volume.setInode_inode, ← hid]
    exact Function.update_self ..
  have hsame : Function.update chains f.inode.id (chains f.inode.id) = chains :=
    Function.update_eq_self ..
  have hfirst' : ino.firstBlock = (v.inode ino.id).firstBlock := by
    rw [hid, hfirst, hf.firstBlock]
  constructor
  · rw [hsame]
    exact ⟨h.chained.setInode hfirst', h.hinted.setInode ino⟩
  · rw [hsame]
    refine ⟨hid ▸ hf.isInode, ?_, ?_, ?_, ?_⟩
    · rw [hid, hself]
    · rw [hid, hself]
    · rw [hid, hself]
      exact fun _ => rfl
    · rw [hid]
      exact hf.blocks
  · exact hid
  · refine ⟨fun _ _ _ _ _ => rfl, fun _ _ _ _ _ => rfl, rfl, fun m hm => ?_, ?_⟩
    · rw [Volume.setInode_inode, Function.update_of_ne (hid ▸ hm)]
    · rw [hself, hflags, hf.flags]
  · rw [hsame, contentOf, hid]
    rfl
  · rw [hself]
  · rfl

theorem became_forget (h : Formed v hints chains) (hf : Opened v chains f)
    (hid : ino.id = f.inode.id) (hfirst : ino.firstBlock = 0) (hflags : ino.flags = f.inode.flags) :
    Became v chains f [] ⟨ino.dataSize.toNat, []⟩ ino.dataSize.toNat (freeIds v).length
      (v.setInode ino) (lowerInode hints ino) { f with inode := ino, blocks := [] } := by
  have hself : (v.setInode ino).inode f.inode.id = ino := by
    rw [Volume.setInode_inode, ← hid]
    exact Function.update_self ..
  constructor
  · exact ⟨h.chained.forget hf.isInode hid hfirst, h.hinted.setInode ino⟩
  · refine ⟨hid ▸ hf.isInode, ?_, ?_, ?_, Or.inl rfl⟩
    · rw [hid, hself]
    · rw [hid, hself]
    · rw [hid, hself]
      exact fun _ => rfl
  · exact hid
  · refine ⟨fun _ _ _ _ _ => rfl, fun _ _ _ _ _ => rfl, rfl, fun m hm => ?_, ?_⟩
    · rw [Volume.setInode_inode, Function.update_of_ne (hid ▸ hm)]
    · rw [hself, hflags, hf.flags]
  · rw [contentOf, hid, Function.update_self]
    rfl
  · rw [hself]
  · rfl

/-- The inode of `f` with another size. -/
def resized (f : File) (off : UInt32) : Inode :=
  { f.inode with dataSize := off }

def emptied (f : File) : Inode :=
  { f.inode with firstBlock := 0, dataSize := 0 }

theorem inodeTrunc_zero (hopt : Formattable opt) (h : Formed v hints chains)
    (hf : Opened v chains f) (hsize : f.inode.dataSize ≠ 0) (fuel : Nat) :
    ∃ w hints' f', inodeTrunc fuel (disk v hints) f 0 = .ok (.of .ok, f', disk w hints') ∧
      Became v chains f [] ⟨0, []⟩ 0 (freeIds v).length w hints' f' ∧ f'.posabs = f.posabs := by
  have hflush := @inodeFlush_disk opt v hints hopt (emptied f) hf.isInode
  have hchain := h.chained.chain f.inode.id hf.isInode
  rw [← hf.firstBlock] at hchain
  have hread : f.inode.firstBlock ≠ 0 →
      ∃ bl, blockRead v.fs f.inode.firstBlock = .ok bl := by
    intro hne
    cases hids : chains f.inode.id with
    | nil => exact absurd (chain_nil_iff.mp (hids ▸ hchain)) hne
    | cons id ids =>
        obtain ⟨rfl, hblock, -⟩ := chain_cons_iff.mp (hids ▸ hchain)
        exact ⟨_, v.blockRead_eq hopt hblock⟩
  have hbecame := @became_forget opt v hints chains f (emptied f) h hf rfl rfl rfl
  have hne : ¬ UInt32.ofNat (Int.toNat 0) = f.inode.dataSize := hsize.symm
  refine ⟨_, _, _, ?_, hbecame, rfl⟩
  rw [inodeTrunc]
  simp only
  rw [if_neg (by decide), if_neg hne, if_pos trivial, inodeTruncZero]
  rw [emptied] at hflush ⊢
  rcases eq_or_ne f.inode.firstBlock 0 with hzero | hfirst
  · rw [if_pos hzero]
    simp only [pure_bind, hflush]
    rfl
  · obtain ⟨bl, hbl⟩ := hread hfirst
    rw [if_neg hfirst, disk_fs, hbl]
    simp only [pure_bind, hflush]
    rfl

theorem inodeTrunc_eq (hopt : Formattable opt) (hf : Opened v chains f) {off : UInt32}
    (hsize : off ≠ f.inode.dataSize) (hoff : off ≠ 0) (fuel : Nat) :
    inodeTrunc fuel (disk v hints) f off.toNat = (do
      let (block, f', d) ← blockForPosExpand fuel
        (disk (v.setInode (resized f off)) (lowerInode hints (resized f off)))
        { f with inode := resized f off } (off - 1)
      match block with
      | .error rc => return (rc, f', d)
      | .ok bl =>
          if off < f.inode.dataSize then inodeShrink fuel d f' bl off
          else return (.of .ok, f', d)) := by
  have hflush := @inodeFlush_disk opt v hints hopt (resized f off) hf.isInode
  have hlen : UInt32.ofNat (Int.toNat off.toNat) = off := by
    rw [Int.toNat_natCast, UInt32.ofNat_toNat]
  have hne : (off.toNat : Int) ≠ 0 := by
    have := toNat_pos hoff
    omega
  have hpos : ¬ (off.toNat : Int) < 0 := by omega
  rw [inodeTrunc]
  simp only
  rw [hlen, if_neg hpos, if_neg hsize, if_neg hne, if_neg hoff]
  rw [resized] at hflush ⊢
  simp only [hflush]
  rw [if_neg (by simp)]
  simp only [decide_eq_true_eq]

/-- What the code returns when it has looked for the blocks of a file that has grown. -/
def growCode (opt : Options) (avail : Nat) (off : UInt32) : Code :=
  if opt.blockCount.toNat ≤ (off.toNat - 1) / opt.blockSize.toNat then .of .rangeError
  else if avail ≤ (off.toNat - 1) / opt.blockSize.toNat then .fsFull
  else .of .ok

theorem toNat_sub_one {off : UInt32} (hoff : off ≠ 0) : (off - 1).toNat = off.toNat - 1 := by
  rw [UInt32.toNat_sub_of_le]
  · rfl
  · exact UInt32.le_iff_toNat_le.mpr (toNat_pos hoff)

theorem formed_resized (h : Formed v hints chains) (hf : Opened v chains f) (off : UInt32) :
    Formed (v.setInode (resized f off)) (lowerInode hints (resized f off)) chains ∧
      Opened (v.setInode (resized f off)) chains { f with inode := resized f off } := by
  have hset := @became_setInode opt v hints chains f (resized f off) h hf rfl rfl rfl
  have hsame : Function.update chains f.inode.id (chains f.inode.id) = chains :=
    Function.update_eq_self ..
  exact ⟨hsame ▸ hset.formed, hsame ▸ hset.opened⟩

theorem Grown.resized (h : Formed v hints chains) (hf : Opened v chains f) {off : UInt32}
    (hk : k ≤ (freeIds v).length)
    (hgrown : Grown (v.setInode (resized f off)) chains { f with inode := resized f off } k w
      hints' f') :
    Became v chains f (chains f.inode.id ++ (freeIds v).take k)
      ⟨off.toNat, (contentOf v chains f).grow opt.blockSize.toNat 0 (chains f.inode.id).length
        ((chains f.inode.id).length + k)⟩
      off.toNat ((freeIds v).length - k) w hints' f' := by
  have hset := @became_setInode opt v hints chains f (WhefsTruncate.resized f off) h hf rfl rfl rfl
  have hsame : Function.update chains f.inode.id (chains f.inode.id) = chains :=
    Function.update_eq_self ..
  have hself : ((v.setInode (WhefsTruncate.resized f off)).inode
      (WhefsTruncate.resized f off).id).dataSize.toNat = off.toNat := hset.dataSize
  have hbecame := Grown.became (formed_resized h hf off).1.chained hk hgrown
  simp only [hself] at hbecame
  refine hset.trans ?_
  rw [hsame]
  exact hbecame

/-- A file that grows has the new size also when there are too few blocks for it. -/
theorem inodeTrunc_grow (hopt : Formattable opt) (h : Formed v hints chains)
    (hf : Opened v chains f) (hfuel : opt.blockCount.toNat ≤ fuel) {off : UInt32}
    (hsize : f.inode.dataSize < off) :
    ∃ ids w hints' f', inodeTrunc fuel (disk v hints) f off.toNat =
        .ok (growCode opt ((chains f.inode.id).length + (freeIds v).length) off, f',
          disk w hints') ∧
      Became v chains f ids
        (enlarge opt.blockSize.toNat opt.blockCount.toNat 0 (freeIds v).length
          (contentOf v chains f) off.toNat).1 off.toNat
        (enlarge opt.blockSize.toNat opt.blockCount.toNat 0 (freeIds v).length
          (contentOf v chains f) off.toNat).2 w hints' f' ∧ f'.posabs = f.posabs := by
  have hoff : off ≠ 0 := by
    rintro rfl
    exact absurd (UInt32.lt_iff_toNat_lt.mp hsize) (Nat.not_lt_zero _)
  have hpos := toNat_pos hoff
  have hbs := blockSize_pos hopt
  have hnot : ¬ off < f.inode.dataSize := UInt32.lt_asymm hsize
  have hlast := toNat_sub_one hoff
  obtain ⟨hformed, hopened⟩ := formed_resized h hf off
  have hfreeIds : freeIds (v.setInode (resized f off)) = freeIds v := rfl
  rw [inodeTrunc_eq hopt hf (UInt32.ne_of_lt hsize).symm hoff, growCode]
  rcases Nat.lt_or_ge ((off.toNat - 1) / opt.blockSize.toNat) opt.blockCount.toNat with hlt | hge
  · rw [enlarge_of_lt hbs (length_room v _) hpos hlt, if_neg (Nat.not_le.mpr hlt)]
    simp only
    rw [← hlast] at hlt ⊢
    rcases Nat.lt_or_ge ((off - 1).toNat / opt.blockSize.toNat)
      ((chains f.inode.id).length + (freeIds v).length) with hfree | hfree
    · obtain ⟨w, hints', f', bl, hrun, hgrown, -⟩ :=
        blockForPosExpand_found hopt hformed hopened hfuel hlt hfree
      have hreach : max (chains f.inode.id).length (min ((chains f.inode.id).length +
          (freeIds v).length) ((off - 1).toNat / opt.blockSize.toNat + 1)) =
            (chains f.inode.id).length +
              ((off - 1).toNat / opt.blockSize.toNat + 1 - (chains f.inode.id).length) := by
        omega
      have hbecame := Grown.resized h hf (by simp only [resized]; omega) hgrown
      rw [hreach, Nat.add_sub_cancel_left]
      refine ⟨_, w, hints', f', ?_, hbecame, hgrown.posabs⟩
      rw [hrun, if_neg (Nat.not_le.mpr hfree)]
      simp only [Run.ok_bind, if_neg hnot]
      rfl
    · obtain ⟨w, hints', f', hrun, hgrown⟩ :=
        blockForPosExpand_full hopt hformed hopened hfuel hlt hfree
      have hreach : max (chains f.inode.id).length (min ((chains f.inode.id).length +
          (freeIds v).length) ((off - 1).toNat / opt.blockSize.toNat + 1)) =
            (chains f.inode.id).length + (freeIds v).length := by
        omega
      have hbecame := Grown.resized h hf le_rfl hgrown
      rw [hreach, Nat.add_sub_cancel_left]
      refine ⟨_, w, hints', f', ?_, hbecame, hgrown.posabs⟩
      rw [hrun, if_pos hfree]
      rfl
  · rw [enlarge_outside hge, if_pos hge]
    rw [← hlast] at hge
    have hset := @became_setInode opt v hints chains f (resized f off) h hf rfl rfl rfl
    refine ⟨_, _, _, _, ?_, hset, rfl⟩
    rw [blockForPosExpand_range hopt hge]
    rfl

/-! ### To fewer bytes -/

/-- The file ends with its block `a`, whose data are zeros from `k` on. -/
def shortened (v : Volume opt) (a : UInt32) (k : Nat) (freed : List UInt32) : Volume opt :=
  (freeBlocks (zeroFrom v a k) freed).setBlock { v.block a with nextBlock := 0 }

theorem zeroFrom_data (v : Volume opt) (id : UInt32) (k : Nat) : (zeroFrom v id k).data =
    Function.update v.data id
      ((v.data id).take k ++ List.replicate (opt.blockSize.toNat - k) 0) :=
  rfl

theorem room_congr {v w : Volume opt} (h : ∀ id ∈ ids, w.data id = v.data id) :
    room w ids = room v ids := by
  rw [room, room, List.flatMap_def, List.flatMap_def, List.map_congr_left h]

theorem room_zeroFrom (v : Volume opt) (hnodup : (ids ++ [a] ++ dropped).Nodup)
    (hk : k ≤ opt.blockSize.toNat) :
    room (zeroFrom v a k) (ids ++ [a]) =
      (room v (ids ++ [a] ++ dropped)).take (ids.length * opt.blockSize.toNat + k) ++
        List.replicate ((ids.length + 1) * opt.blockSize.toNat -
          (ids.length * opt.blockSize.toNat + k)) 0 := by
  have ha : a ∉ ids := by
    intro hmem
    rw [List.append_assoc] at hnodup
    exact (List.nodup_append.mp hnodup).2.2 a hmem a (by simp) rfl
  have hsame : room (zeroFrom v a k) ids = room v ids := by
    refine room_congr fun id hid => ?_
    have hne : id ≠ a := by
      rintro rfl
      exact ha hid
    rw [zeroFrom_data, Function.update_of_ne hne]
  have hlen := length_room v ids
  have hdata := v.data_length a
  have hzeros : (ids.length + 1) * opt.blockSize.toNat - (ids.length * opt.blockSize.toNat + k) =
      opt.blockSize.toNat - k := by
    rw [Nat.succ_mul, Nat.add_sub_add_left]
  have hleft : room (zeroFrom v a k) (ids ++ [a]) = room v ids ++
      ((v.data a).take k ++ List.replicate (opt.blockSize.toNat - k) 0) := by
    rw [room, List.flatMap_append, ← room, hsame, List.flatMap_singleton, zeroFrom_data,
      Function.update_self]
  have hright : room v (ids ++ [a] ++ dropped) = room v ids ++ (v.data a ++ room v dropped) := by
    rw [room, List.flatMap_append, List.flatMap_append, ← room, List.flatMap_singleton, ← room,
      List.append_assoc]
  rw [hleft, hright, hzeros, ← hlen, List.take_length_add_append,
    List.take_append_of_le_length (by omega), List.append_assoc]

theorem shortened_block (v : Volume opt) (a : UInt32) (k : Nat) (freed : List UInt32)
    (i : UInt32) : (shortened v a k freed).block i =
      if i = a then { v.block a with nextBlock := 0 }
      else if i ∈ freed then unusedBlock i else v.block i := by
  have haid : (v.block a).id = a := v.block_id a
  rw [shortened, Volume.setBlock_block]
  simp only [Function.update_apply, haid, freeBlocks_block]
  rfl

theorem shortened_inode (v : Volume opt) (a : UInt32) (k : Nat) (freed : List UInt32) :
    (shortened v a k freed).inode = v.inode :=
  freeBlocks_inode (zeroFrom v a k) freed

theorem shortened_data (v : Volume opt) (k : Nat) (hid : id ∉ freed) :
    (shortened v a k freed).data id = (zeroFrom v a k).data id := by
  have hdata := freeBlocks_data (zeroFrom v a k) freed id
  rwa [if_neg hid] at hdata

theorem became_shortened (h : Formed v hints chains)
    (hf : Opened v chains f) (hids : chains f.inode.id = ids ++ [a] ++ dropped)
    (hk : k ≤ opt.blockSize.toNat) (hfreed : ∀ id, id ∈ freed ↔ id ∈ dropped)
    (hnodup : freed.Nodup) :
    Became v chains f (ids ++ [a])
      (cut opt.blockSize.toNat 0 (contentOf v chains f) f.inode.dataSize.toNat (ids.length + 1)
        (ids.length * opt.blockSize.toNat + k))
      (v.inode f.inode.id).dataSize.toNat ((freeIds v).length + freed.length)
      (shortened v a k freed) (lowerBlocks hints freed)
      { f with blocks := ids.map v.block ++ [{ v.block a with nextBlock := 0 }] } := by
  have hchain := h.chained.chain f.inode.id hf.isInode
  have hall := hchain.nodup
  rw [hids] at hchain hall
  have husedAll : ∀ id ∈ ids ++ [a] ++ dropped, BlockUsed v id := by
    intro id hid
    exact h.chained.used f.inode.id hf.isInode id (by rwa [hids])
  have haused : BlockUsed v a := husedAll a (by simp)
  have hisfreed : ∀ id ∈ freed, IsBlock opt id ∧ BlockUsed v id := by
    intro id hid
    have hmem : id ∈ ids ++ [a] ++ dropped := by simp [(hfreed id).mp hid]
    exact ⟨hchain.isBlock id hmem, husedAll id hmem⟩
  have hapart : ∀ id ∈ ids ++ [a], id ∉ freed := by
    intro id hid hmem
    exact (List.nodup_append.mp hall).2.2 id hid id ((hfreed id).mp hmem) rfl
  have hne : ∀ id ∈ ids, id ≠ a := by
    rintro id hid rfl
    exact (List.nodup_append.mp (List.nodup_append.mp hall).1).2.2 id hid id (by simp) rfl
  have hzero : Chained (zeroFrom v a k) chains := h.chained.setData haused _
  constructor
  · constructor
    · exact hzero.cut hf.isInode hids hfreed
    · have hhinted : Hinted (zeroFrom v a k) hints := Hinted.setData h.hinted a _
      exact (hhinted.freeBlocks fun id hid => (hisfreed id hid).1).setBlock haused
  · refine ⟨hf.isInode, ?_, ?_, ?_, Or.inr ?_⟩
    · rw [shortened_inode]
      exact hf.firstBlock
    · rw [shortened_inode]
      exact hf.flags
    · intro hnil
      rw [Function.update_self] at hnil
      simp at hnil
    · simp only [Function.update_self, List.map_append, List.map_singleton, shortened_block,
        if_true]
      congr 1
      refine List.map_congr_left fun id hid => ?_
      rw [shortened_block, if_neg (hne id hid), if_neg (hapart id (by simp [hid]))]
  · rfl
  · have hother : ∀ m, IsInode opt m → m ≠ f.inode.id → ∀ id ∈ chains m,
        id ≠ a ∧ id ∉ freed := by
      intro m hm hother id hid
      have hnot : id ∉ ids ++ [a] ++ dropped := by
        rw [← hids]
        exact h.chained.disjoint m f.inode.id hm hf.isInode hother hid
      constructor
      · rintro rfl
        simp at hnot
      · exact fun hmem => hnot (by simp [(hfreed id).mp hmem])
    refine ⟨fun m hm hne id hid => ?_, fun m hm hne id hid => ?_,
      freeBlocks_name (zeroFrom v a k) freed,
      fun m _ => congrFun (shortened_inode v a k freed) m, ?_⟩
    · obtain ⟨hida, hidfreed⟩ := hother m hm hne id hid
      rw [shortened_block, if_neg hida, if_neg hidfreed]
    · obtain ⟨hida, hidfreed⟩ := hother m hm hne id hid
      rw [shortened_data v k hidfreed, zeroFrom_data, Function.update_of_ne hida]
    · rw [shortened_inode]
  · have hroom := room_zeroFrom v hall hk
    rw [← hids] at hroom
    have hsame : room (shortened v a k freed) (ids ++ [a]) = room (zeroFrom v a k) (ids ++ [a]) :=
      room_congr fun id hid => shortened_data v k (hapart id hid)
    rw [contentOf, Function.update_self, hsame, hroom]
    rfl
  · rw [shortened_inode]
  · have hfree : freeIds (shortened v a k freed) = freeIds (freeBlocks (zeroFrom v a k) freed) := by
      refine freeIds_congr fun i _ => ?_
      have haid : (v.block a).id = a := v.block_id a
      rw [shortened, blockUsed_setBlock, haid]
      split
      · rename_i heq
        refine iff_of_true haused ((blockUsed_freeBlocks _ _ _).mpr ⟨?_, ?_⟩)
        · exact heq ▸ hapart a (by simp)
        · exact heq ▸ haused
      · rfl
    rw [hfree]
    exact length_freeIds_freeBlocks hnodup hisfreed

theorem chain_split (h : Chain v id (ids ++ [a] ++ dropped)) :
    IsBlock opt a ∧ Chain v (nextOf v a) dropped := by
  obtain ⟨mid, hpath, hrest⟩ := path_append.mp h.path
  obtain ⟨-, hnext⟩ := path_concat.mp hpath
  refine ⟨h.isBlock a (by simp), ?_, fun i hi => h.isBlock i (by simp [hi])⟩
  rwa [hnext]

theorem inodeShrink_last (hopt : Formattable opt) (h : Chain v id (ids ++ [a])) (off : UInt32) :
    inodeShrink fuel (disk v hints) f (v.block a) off =
      .ok (.of .ok, { f with blocks := f.blocks.take 1 },
        disk (zeroFrom v a (off.toNat % opt.blockSize.toNat)) hints) := by
  have haid : (v.block a).id = a := v.block_id a
  obtain ⟨hblock, hnext⟩ := @chain_split opt v ids [] a id (by rwa [List.append_nil])
  have hlt : off % opt.blockSize < opt.blockSize :=
    UInt32.mod_lt off (UInt32.lt_iff_toNat_lt.mpr (blockSize_pos hopt))
  have hwipe := @blockWipeData_disk opt v hints hopt (v.block a) (by rwa [haid]) _ hlt
  rw [haid, UInt32.toNat_mod] at hwipe
  have hend : (v.block a).nextBlock = 0 := chain_nil_iff.mp hnext
  rw [inodeShrink, disk_fs, fs_options, hwipe]
  simp only [hend, if_true]

theorem findIdx_next (hnodup : (ids ++ [a] ++ id :: dropped).Nodup) :
    (((ids ++ [a] ++ id :: dropped).map v.block).tail.findIdx? fun b => b.id = id) =
      some ids.length := by
  have hmap : ((ids ++ [a] ++ id :: dropped).map v.block).tail =
      ((ids ++ [a]).tail ++ id :: dropped).map v.block := by
    cases ids <;> simp
  have hlen : (ids ++ [a]).tail.length = ids.length := by simp
  have hget : ((ids ++ [a]).tail ++ id :: dropped)[ids.length]? = some id := by
    rw [List.getElem?_append_right (by omega), hlen, Nat.sub_self]
    rfl
  have hbefore : ∀ j < ids.length, ((ids ++ [a]).tail ++ id :: dropped)[j]? ≠ some id := by
    intro j hj hsome
    rw [List.getElem?_append_left (by omega)] at hsome
    have hmem : id ∈ ids ++ [a] := List.mem_of_mem_tail (List.mem_of_getElem? hsome)
    exact (List.nodup_append.mp hnodup).2.2 id hmem id (by simp) rfl
  rw [hmap, List.findIdx?_map, List.findIdx?_eq_some_iff_getElem]
  obtain ⟨hlt, hat⟩ := List.getElem?_eq_some_iff.mp hget
  refine ⟨hlt, ?_, fun j hj => ?_⟩
  · simp [hat, v.block_id]
  · have hne := hbefore j hj
    rw [List.getElem?_eq_getElem (by omega)] at hne
    simpa [v.block_id] using hne

theorem inodeShrink_cut (hopt : Formattable opt) {b : UInt32}
    (h : Chain v id (ids ++ [a] ++ b :: dropped))
    (hblocks : f.blocks = (ids ++ [a] ++ b :: dropped).map v.block)
    (hfuel : dropped.length ≤ fuel) (off : UInt32) :
    inodeShrink fuel (disk v hints) f (v.block a) off =
      .ok (.of .ok,
        { f with blocks := ids.map v.block ++ [{ v.block a with nextBlock := 0 }] },
        disk (shortened v a (off.toNat % opt.blockSize.toNat) (dropped ++ [b]))
          (lowerBlocks hints (dropped ++ [b]))) := by
  have haid : (v.block a).id = a := v.block_id a
  have hbid : (v.block b).id = b := v.block_id b
  obtain ⟨hblock, hrest⟩ := chain_split h
  obtain ⟨hnext, hbblock, hbehind⟩ := chain_cons_iff.mp hrest
  have hlt : off % opt.blockSize < opt.blockSize :=
    UInt32.mod_lt off (UInt32.lt_iff_toNat_lt.mpr (blockSize_pos hopt))
  have hwipe := @blockWipeData_disk opt v hints hopt (v.block a) (by rwa [haid]) _ hlt
  rw [haid, UInt32.toNat_mod] at hwipe
  have hne : ¬ b = 0 := by
    rintro rfl
    exact absurd hbblock.1 (by decide)
  have hfind := @findIdx_next opt v ids dropped a b h.nodup
  rw [← hblocks] at hfind
  have hlast : f.blocks.getD ids.length blockEmpty = v.block a := by
    rw [hblocks]
    simp
  have hfollow : f.blocks.getD (ids.length + 1) blockEmpty = v.block b := by
    rw [hblocks]
    simp
  have htake : f.blocks.take ids.length = ids.map v.block := by
    rw [hblocks]
    simp
  have hdeep := @blockWipe_disk opt (zeroFrom v a (off.toNat % opt.blockSize.toNat)) hints dropped
    hopt (v.block b) fuel (by rwa [hbid]) (hbehind.congr fun _ _ => rfl) hfuel
  rw [hbid] at hdeep
  have hflush := @blockFlush_disk opt
    (freeBlocks (zeroFrom v a (off.toNat % opt.blockSize.toNat)) (dropped ++ [b]))
    (lowerBlocks hints (dropped ++ [b])) hopt { v.block a with nextBlock := 0 } (by rwa [haid])
  rw [inodeShrink, disk_fs, fs_options, hwipe]
  rw [nextOf] at hnext
  simp only [← hnext, if_neg hne, hfind, hlast, hfollow, htake, hdeep, Run.ok_bind, hflush]
  rfl

theorem Became.of_loaded {blocks : List Block}
    (h : Became v chains { f with blocks } ids c stored free w hints f') :
    Became v chains f ids c stored free w hints f' :=
  ⟨h.formed, h.opened, h.id_eq, h.kept, h.content, h.dataSize, h.free⟩

theorem setBlock_self (v : Volume opt) (id : UInt32) : v.setBlock (v.block id) = v := by
  have hid : (v.block id).id = id := v.block_id id
  have hblock : Function.update v.block (v.block id).id (v.block id) = v.block := by
    rw [hid, Function.update_eq_self]
  rw [Volume.setBlock]
  simp only [hblock]

theorem shortened_nil (v : Volume opt) (h : (v.block a).nextBlock = 0) (k : Nat) :
    shortened v a k [] = zeroFrom v a k := by
  have hsame : { v.block a with nextBlock := 0 } = v.block a := by
    rw [← h]
  rw [shortened, hsame]
  exact setBlock_self (zeroFrom v a k) a

theorem split_chain {q : Nat} (hq : q < ids.length) :
    ∃ a, ids = ids.take q ++ [a] ++ ids.drop (q + 1) ∧ (ids.take q).length = q ∧
      ids[q]? = some a := by
  refine ⟨ids[q], ?_, List.length_take_of_le hq.le, List.getElem?_eq_getElem hq⟩
  rw [List.append_assoc, List.singleton_append, List.getElem_cons_drop, List.take_append_drop]

theorem inodeShrink_became (hopt : Formattable opt) (h : Formed v hints chains)
    (hf : Opened v chains f) (hfuel : opt.blockCount.toNat ≤ fuel)
    (hblocks : f.blocks = (chains f.inode.id).map v.block) (off : UInt32) {q : Nat}
    (hq : q + 1 < (chains f.inode.id).length) :
    ∃ bl, f.blocks[q]? = some bl ∧ ∃ ids w hints' f',
      inodeShrink fuel (disk v hints) f bl off = .ok (.of .ok, f', disk w hints') ∧
      Became v chains f ids
        (cut opt.blockSize.toNat 0 (contentOf v chains f) f.inode.dataSize.toNat (q + 1)
          (q * opt.blockSize.toNat + off.toNat % opt.blockSize.toNat))
        (v.inode f.inode.id).dataSize.toNat
        ((freeIds v).length + ((chains f.inode.id).length - (q + 1))) w hints' f' ∧
      f'.posabs = f.posabs := by
  have hchain := h.chained.chain f.inode.id hf.isInode
  have hle := hchain.length_le
  have hmod := Nat.mod_lt off.toNat (blockSize_pos hopt)
  obtain ⟨a, hids, hlen, hget⟩ := split_chain (Nat.lt_of_succ_lt hq)
  obtain ⟨b, dropped, hdrop⟩ := List.exists_cons_of_length_pos
    (show 0 < ((chains f.inode.id).drop (q + 1)).length by rw [List.length_drop]; omega)
  have hcount : (chains f.inode.id).length - (q + 1) = (dropped ++ [b]).length := by
    have := congrArg List.length hdrop
    rw [List.length_drop, List.length_cons] at this
    rw [List.length_append, List.length_singleton, this]
  rw [hdrop] at hids
  have hnodup : (dropped ++ [b]).Nodup := by
    have hall := hchain.nodup
    rw [hids, List.nodup_append] at hall
    rw [List.nodup_append_comm]
    exact hall.2.1
  have hbecame := became_shortened h hf hids hmod.le (fun id => by simp [or_comm]) hnodup
  rw [hids] at hchain hblocks
  have hrun := @inodeShrink_cut opt v hints f _ dropped fuel a _ hopt b hchain hblocks
    (by rw [List.length_append, List.length_singleton] at hcount; omega) off
  have hfound : f.blocks[q]? = some (v.block a) := by
    rw [hblocks, ← hids, List.getElem?_map, hget]
    rfl
  rw [hlen, ← hcount] at hbecame
  exact ⟨v.block a, hfound, _, _, _, _, hrun, hbecame, rfl⟩

/-- A file that shrinks to fewer blocks: also a new end at a multiple of the block size makes
the last one of them blank from there on, which is all of it. -/
theorem inodeTrunc_cut (hopt : Formattable opt) (h : Formed v hints chains)
    (hf : Opened v chains f) (hfuel : opt.blockCount.toNat ≤ fuel) {off : UInt32} (hoff : off ≠ 0)
    (hsize : off < f.inode.dataSize)
    (hkeep : (off.toNat - 1) / opt.blockSize.toNat + 1 < (chains f.inode.id).length) :
    ∃ ids w hints' f', inodeTrunc fuel (disk v hints) f off.toNat =
        .ok (.of .ok, f', disk w hints') ∧
      Became v chains f ids
        (cut opt.blockSize.toNat 0 (contentOf v chains f) off.toNat
          ((off.toNat - 1) / opt.blockSize.toNat + 1)
          ((off.toNat - 1) / opt.blockSize.toNat * opt.blockSize.toNat +
            off.toNat % opt.blockSize.toNat))
        off.toNat ((freeIds v).length +
          ((chains f.inode.id).length - ((off.toNat - 1) / opt.blockSize.toNat + 1)))
        w hints' f' ∧ f'.posabs = f.posabs := by
  have hlast := toNat_sub_one hoff
  obtain ⟨hformed, hopened⟩ := formed_resized h hf off
  have hset := @became_setInode opt v hints chains f (resized f off) h hf rfl rfl rfl
  have hsame : Function.update chains f.inode.id (chains f.inode.id) = chains :=
    Function.update_eq_self ..
  have hself : ((v.setInode (resized f off)).inode (resized f off).id).dataSize.toNat =
      off.toNat := hset.dataSize
  have hcount : (off - 1).toNat / opt.blockSize.toNat < opt.blockCount.toNat := by
    have := (h.chained.chain f.inode.id hf.isInode).length_le
    rw [hlast]
    omega
  have hrun := blockForPosExpand_eq hopt hformed hopened hfuel hcount
  obtain ⟨bl, hget, ids, w, hints', f', hshrink, hbecame, hposabs⟩ :=
    inodeShrink_became hopt hformed hopened.loaded hfuel rfl off hkeep
  rw [hlast, hget] at hrun
  simp only [hself] at hbecame
  refine ⟨ids, w, hints', f', ?_, hset.trans ?_, hposabs⟩
  · rw [inodeTrunc_eq hopt hf (UInt32.ne_of_lt hsize) hoff, hrun]
    simp only [Run.ok_bind, if_pos hsize]
    exact hshrink
  · rw [hsame]
    exact hbecame.of_loaded

/-- A file that shrinks within its last block: what is in memory of its list is one block. -/
theorem inodeTrunc_last (hopt : Formattable opt) (h : Formed v hints chains)
    (hf : Opened v chains f) (hfuel : opt.blockCount.toNat ≤ fuel) {off : UInt32} (hoff : off ≠ 0)
    (hsize : off < f.inode.dataSize)
    (hkeep : (off.toNat - 1) / opt.blockSize.toNat + 1 = (chains f.inode.id).length) :
    ∃ w hints', inodeTrunc fuel (disk v hints) f off.toNat = .ok (.of .ok,
        { f with
          inode := resized f off
          blocks := ((chains f.inode.id).map w.block).take 1 }, disk w hints') ∧
      Became v chains f (chains f.inode.id)
        (cut opt.blockSize.toNat 0 (contentOf v chains f) off.toNat
          ((off.toNat - 1) / opt.blockSize.toNat + 1)
          ((off.toNat - 1) / opt.blockSize.toNat * opt.blockSize.toNat +
            off.toNat % opt.blockSize.toNat))
        off.toNat (freeIds v).length w hints'
        { f with
          inode := resized f off
          blocks := (chains f.inode.id).map w.block } := by
  have hlast := toNat_sub_one hoff
  obtain ⟨hformed, hopened⟩ := formed_resized h hf off
  have hset := @became_setInode opt v hints chains f (resized f off) h hf rfl rfl rfl
  have hsame : Function.update chains f.inode.id (chains f.inode.id) = chains :=
    Function.update_eq_self ..
  have hself : ((v.setInode (resized f off)).inode (resized f off).id).dataSize.toNat =
      off.toNat := hset.dataSize
  have hcount : (off - 1).toNat / opt.blockSize.toNat < opt.blockCount.toNat := by
    have := (h.chained.chain f.inode.id hf.isInode).length_le
    rw [hlast]
    omega
  have hchain := hformed.chained.chain f.inode.id hf.isInode
  have hmod := Nat.mod_lt off.toNat (blockSize_pos hopt)
  have hrun := blockForPosExpand_eq hopt hformed hopened hfuel hcount
  obtain ⟨a, hids, hlen, hget⟩ := split_chain (Nat.lt_of_succ_le hkeep.le)
  have hdrop : (chains f.inode.id).drop ((off.toNat - 1) / opt.blockSize.toNat + 1) = [] :=
    List.drop_eq_nil_of_le hkeep.ge
  rw [hdrop] at hids
  have hids' := hids
  rw [List.append_nil] at hids'
  rw [hids'] at hchain
  have hend : ((v.setInode (resized f off)).block a).nextBlock = 0 :=
    (path_concat.mp hchain.path).2
  have hshrink := fun f' => @inodeShrink_last opt (v.setInode (resized f off))
    (lowerInode hints (resized f off)) f' _ fuel a _ hopt hchain off
  have hbecame := became_shortened hformed hopened.loaded hids hmod.le (fun _ => Iff.rfl)
    List.nodup_nil
  have hlastBlock : { (v.setInode (resized f off)).block a with nextBlock := 0 } =
      (v.setInode (resized f off)).block a := by
    rw [← hend]
  have hblocks : ((chains f.inode.id).take ((off.toNat - 1) / opt.blockSize.toNat)).map
      (v.setInode (resized f off)).block ++ [(v.setInode (resized f off)).block a] =
        (chains f.inode.id).map (v.setInode (resized f off)).block := by
    rw [← List.map_singleton, ← List.map_append, ← hids']
  rw [shortened_nil _ hend, hlastBlock, hblocks, ← hids', hlen] at hbecame
  simp only [hself] at hbecame
  rw [hlast, List.getElem?_map] at hrun
  simp only [resized] at hrun hshrink
  rw [hget] at hrun
  refine ⟨zeroFrom (v.setInode (resized f off)) a (off.toNat % opt.blockSize.toNat),
    lowerInode hints (resized f off), ?_, hset.trans ?_⟩
  · rw [inodeTrunc_eq hopt hf (UInt32.ne_of_lt hsize) hoff, resized, hrun]
    simp only [Option.map_some, Run.ok_bind, if_pos hsize]
    exact hshrink _
  · rw [hsame]
    exact hbecame.of_loaded

end

end Iqiq.WhefsTruncate
