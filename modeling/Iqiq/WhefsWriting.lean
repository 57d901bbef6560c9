import Iqiq.WhefsGrowth

namespace Iqiq.WhefsWriting

open Iqiq.BlockedFile
open Iqiq.RecordTable
open Iqiq.Whefs
open Iqiq.WhefsAllocation
open Iqiq.WhefsChains
open Iqiq.WhefsDisk
open Iqiq.WhefsEncode
open Iqiq.WhefsFiles
open Iqiq.WhefsFree
open Iqiq.WhefsGrowth
open Iqiq.WhefsVolume
open Iqiq.WhefsWrite

section

variable {opt : Options}

/-- What the blocks of an inode hold. -/
def room (v : Volume opt) (ids : List UInt32) : List UInt8 :=
  ids.flatMap v.data

/-- The file behind an opened inode. -/
def contentOf (v : Volume opt) (chains : UInt32 → List UInt32) (f : File) : Content UInt8 :=
  ⟨f.inode.dataSize.toNat, room v (chains f.inode.id)⟩

/-- A step has changed nothing but the file of the inode `n`. -/
structure Kept (v : Volume opt) (chains : UInt32 → List UInt32) (n : UInt32) (w : Volume opt) :
    Prop where
  block : ∀ m, IsInode opt m → m ≠ n → ∀ id ∈ chains m, w.block id = v.block id
  data : ∀ m, IsInode opt m → m ≠ n → ∀ id ∈ chains m, w.data id = v.data id
  name : w.name = v.name
  inode : ∀ m, m ≠ n → w.inode m = v.inode m
  flags : (w.inode n).flags = (v.inode n).flags

/-- A write has done to the file of `f` what `out` says, with the first `k` free blocks. -/
structure Wrote (v : Volume opt) (chains : UInt32 → List UInt32) (f : File) (out : Written UInt8)
    (k : Nat) (w : Volume opt) (hints : Hints) (f' : File) : Prop where
  formed : Formed w hints (extend chains f.inode.id ((freeIds v).take k))
  opened : Opened w (extend chains f.inode.id ((freeIds v).take k)) f'
  id_eq : f'.inode.id = f.inode.id
  kept : Kept v chains f.inode.id w
  dataSize : (w.inode f.inode.id).dataSize = (v.inode f.inode.id).dataSize
  free : freeIds w = (freeIds v).drop k
  out_free : out.free + k = (freeIds v).length
  content : contentOf w (extend chains f.inode.id ((freeIds v).take k)) f' = out.content
  posabs : f'.posabs.toNat = f.posabs.toNat + out.count

variable {v w : Volume opt} {hints : Hints} {chains : UInt32 → List UInt32} {f f' : File}
  {n : UInt32} {ids : List UInt32} {k : Nat}

theorem length_room (v : Volume opt) (ids : List UInt32) :
    (room v ids).length = ids.length * opt.blockSize.toNat :=
  length_flatMap_of_width v.data_length ids

theorem room_free (h : Chained v chains) (hids : ∀ id ∈ ids, id ∈ freeIds v) :
    room v ids = List.replicate (ids.length * opt.blockSize.toNat) 0 := by
  induction ids with
  | nil => simp [room]
  | cons id ids ih =>
      have hfree := mem_freeIds.mp (hids id List.mem_cons_self)
      rw [room, List.flatMap_cons, ← room, ih fun i hi => hids i (List.mem_cons_of_mem id hi),
        (h.blank id hfree.1 hfree.2).2, List.replicate_append_replicate, List.length_cons,
        Nat.succ_mul, Nat.add_comm]

theorem room_grown (h : Chained v chains) (hk : k ≤ (freeIds v).length) (n : UInt32) :
    room v (chains n ++ (freeIds v).take k) =
      (room v (chains n)) ++ List.replicate (k * opt.blockSize.toNat) 0 := by
  have hblank := @room_free _ v chains ((freeIds v).take k) h
    fun id hid => List.mem_of_mem_take hid
  rw [List.length_take_of_le hk] at hblank
  rw [room, List.flatMap_append, ← room, ← room, hblank]

theorem Kept.refl (v : Volume opt) (chains : UInt32 → List UInt32) (n : UInt32) :
    Kept v chains n v :=
  ⟨fun _ _ _ _ _ => rfl, fun _ _ _ _ _ => rfl, rfl, fun _ _ => rfl, rfl⟩

theorem kept_of_grown {f' : File} (h : Grown v chains f k w hints f') :
    Kept v chains f.inode.id w :=
  ⟨h.block, fun _ _ _ id _ => congrFun h.data id, h.name, h.inode, h.flags⟩

theorem Kept.trans {u : Volume opt} {chains' : UInt32 → List UInt32} (h : Kept v chains n w)
    (hchains : ∀ m, m ≠ n → chains' m = chains m) (h' : Kept w chains' n u) :
    Kept v chains n u := by
  refine ⟨fun m hm hne id hid => ?_, fun m hm hne id hid => ?_, h'.name.trans h.name,
    fun m hm => ?_, h'.flags.trans h.flags⟩
  · rw [h'.block m hm hne id ((hchains m hne).symm ▸ hid), h.block m hm hne id hid]
  · rw [h'.data m hm hne id ((hchains m hne).symm ▸ hid), h.data m hm hne id hid]
  · rw [h'.inode m hm, h.inode m hm]

theorem Hinted.setData (h : Hinted v hints) (id : UInt32) {bytes : List UInt8}
    (hlen : bytes.length = opt.blockSize.toNat) : Hinted (v.setData id bytes hlen) hints :=
  ⟨h.block_pos, h.block, h.inode⟩

section Piece

variable {src : List UInt8} {fuel : Nat} {now : UInt32}

theorem blockSize_pos (hopt : Formattable opt) : 0 < opt.blockSize.toNat :=
  Nat.lt_of_lt_of_le (by decide) hopt.blockSize

theorem capacity_lt (hopt : Formattable opt) :
    opt.blockCount.toNat * opt.blockSize.toNat < 2 ^ 32 := by
  have hfits := hopt.fits
  have hwidth : opt.blockCount.toNat * opt.blockSize.toNat ≤
      opt.blockCount.toNat * blockWidth opt :=
    Nat.mul_le_mul_left _ (by rw [blockWidth]; omega)
  rw [totalSize] at hfits
  omega

/-- The number of bytes that one round of a write of `n` bytes takes. -/
def pieceLength (opt : Options) (pos : UInt32) (n : Nat) : Nat :=
  min n (opt.blockSize.toNat - pos.toNat % opt.blockSize.toNat)

/-- What a round of a write at `pos` makes of the inode. -/
def stamped (now : UInt32) (ino : Inode) (pos : UInt32) : Inode :=
  { ino with mtime := now, dataSize := if ino.dataSize < pos then pos else ino.dataSize }

theorem pieceLength_pos (hopt : Formattable opt) (pos : UInt32) {n : Nat} (hn : 0 < n) :
    0 < pieceLength opt pos n := by
  have hmod := Nat.mod_lt pos.toNat (blockSize_pos hopt)
  rw [pieceLength]
  omega

theorem toNat_pieceLength (pos : UInt32) {n : Nat} (hn : n < 2 ^ 32) :
    (UInt32.ofNat (pieceLength opt pos n)).toNat = pieceLength opt pos n :=
  UInt32.toNat_ofNat_of_lt' (Nat.lt_of_le_of_lt (Nat.min_le_left _ _) hn)

theorem wlen_eq (hopt : Formattable opt) (pos : UInt32) {n : Nat} (hn : n < 2 ^ 32) :
    (if UInt32.ofNat n > opt.blockSize - pos % opt.blockSize
      then opt.blockSize - pos % opt.blockSize else UInt32.ofNat n) =
        UInt32.ofNat (pieceLength opt pos n) := by
  have hmod := Nat.mod_lt pos.toNat (blockSize_pos hopt)
  have hleft : (opt.blockSize - pos % opt.blockSize).toNat =
      opt.blockSize.toNat - pos.toNat % opt.blockSize.toNat := by
    rw [UInt32.toNat_sub_of_le, UInt32.toNat_mod]
    rw [UInt32.le_iff_toNat_le, UInt32.toNat_mod]
    omega
  have hcount : (UInt32.ofNat n).toNat = n := UInt32.toNat_ofNat_of_lt' hn
  rw [← UInt32.toNat_inj, toNat_pieceLength pos hn, pieceLength]
  split
  · rename_i hgt
    rw [gt_iff_lt, UInt32.lt_iff_toNat_lt, hleft, hcount] at hgt
    rw [hleft]
    omega
  · rename_i hle
    rw [gt_iff_lt, UInt32.lt_iff_toNat_lt, hleft, hcount] at hle
    rw [hcount]
    omega

theorem inodeWriteImpl_eq (hopt : Formattable opt) (hne : src ≠ []) (hlen : src.length < 2 ^ 32)
    {hints' : Hints} {bl : Block}
    (hpos : f.posabs.toNat + pieceLength opt f.posabs src.length < 2 ^ 32)
    (hrun : blockForPosExpand fuel (disk v hints) f f.posabs =
      .ok (.ok bl, f', disk w hints')) (hsame : f'.posabs = f.posabs) :
    inodeWriteImpl now fuel (disk v hints) f src =
      let piece := pieceLength opt f.posabs src.length
      .ok (piece, decide (piece < src.length),
        { f' with
          inode := stamped now f'.inode (f.posabs + UInt32.ofNat piece)
          posabs := f.posabs + UInt32.ofNat piece },
        (disk w hints').write (blockDataPos w.fs bl + f.posabs % opt.blockSize)
          (src.take piece)) := by
  have hpiece := @toNat_pieceLength opt f.posabs _ hlen
  have hmove : (f.posabs + UInt32.ofNat (pieceLength opt f.posabs src.length)).toNat =
      f.posabs.toNat + pieceLength opt f.posabs src.length := by
    rw [UInt32.toNat_add, hpiece]
    exact Nat.mod_eq_of_lt hpos
  have hgt : f.posabs + UInt32.ofNat (pieceLength opt f.posabs src.length) > f.posabs := by
    have := pieceLength_pos hopt f.posabs (List.length_pos_iff.mpr hne)
    rw [gt_iff_lt, UInt32.lt_iff_toNat_lt, hmove]
    omega
  have hgoing : UInt32.ofNat (pieceLength opt f.posabs src.length) < UInt32.ofNat src.length ↔
      pieceLength opt f.posabs src.length < src.length := by
    rw [UInt32.lt_iff_toNat_lt, hpiece, UInt32.toNat_ofNat_of_lt' hlen]
  rw [inodeWriteImpl, if_neg hne, hrun]
  simp only [Run.ok_bind, hsame, disk_fs, fs_options, wlen_eq hopt f.posabs hlen, if_pos hgt,
    hpiece, hgoing]
  rfl

theorem write_block (hopt : Formattable opt) {id : UInt32} (hvalid : IsBlock opt id) {pos : UInt32}
    {ys : List UInt8} (hpos : pos.toNat + ys.length ≤ opt.blockSize.toNat) :
    (disk w hints).write (blockDataPos w.fs (w.block id) + pos) ys =
      disk (w.setData id (overwrite (w.data id) pos.toNat ys)
        ((length_overwrite (by rwa [w.data_length])).trans (w.data_length id))) hints := by
  have hwrite := @write_data opt w hints hopt (w.block id) (by rwa [w.block_id]) pos ys hpos
  simp only [w.block_id] at hwrite
  exact hwrite

theorem room_setData (hnodup : ids.Nodup) {id : UInt32} {q j : Nat} (hid : ids[q]? = some id)
    {ys : List UInt8} (hj : j + ys.length ≤ opt.blockSize.toNat)
    (hlen : (overwrite (w.data id) j ys).length = opt.blockSize.toNat) :
    room (w.setData id (overwrite (w.data id) j ys) hlen) ids =
      overwrite (room w ids) (q * opt.blockSize.toNat + j) ys :=
  (overwrite_flatMap w.data_length hnodup hid hj).symm

theorem toNat_move (hopt : Formattable opt) {pos : UInt32} {m : Nat}
    (hpos : pos.toNat / opt.blockSize.toNat < opt.blockCount.toNat)
    (hm : pos.toNat % opt.blockSize.toNat + m ≤ opt.blockSize.toNat) :
    (pos + UInt32.ofNat m).toNat = pos.toNat + m ∧
      pos.toNat + m ≤ (pos.toNat / opt.blockSize.toNat + 1) * opt.blockSize.toNat := by
  have hdiv := Nat.div_add_mod' pos.toNat opt.blockSize.toNat
  have hlast : (pos.toNat / opt.blockSize.toNat + 1) * opt.blockSize.toNat ≤
      opt.blockCount.toNat * opt.blockSize.toNat := Nat.mul_le_mul_right _ hpos
  have hcapacity := capacity_lt hopt
  rw [Nat.succ_mul] at hlast ⊢
  constructor
  · rw [UInt32.toNat_add, UInt32.toNat_ofNat_of_lt' (by change _ < 2 ^ 32; omega)]
    exact Nat.mod_eq_of_lt (by omega)
  · omega

theorem wrote_piece (hopt : Formattable opt) (hf : Opened v chains f)
    (hpos : f.posabs.toNat / opt.blockSize.toNat < opt.blockCount.toNat)
    (hfree : f.posabs.toNat / opt.blockSize.toNat <
      (chains f.inode.id).length + (freeIds v).length)
    (hchained : Chained v chains)
    (hgrown : Grown v chains f
      (f.posabs.toNat / opt.blockSize.toNat + 1 - (chains f.inode.id).length) w hints f')
    {id : UInt32} (hid : (chains f.inode.id ++ (freeIds v).take
      (f.posabs.toNat / opt.blockSize.toNat + 1 - (chains f.inode.id).length))[
        f.posabs.toNat / opt.blockSize.toNat]? = some id)
    {ys : List UInt8} (hne : ys ≠ [])
    (hys : f.posabs.toNat % opt.blockSize.toNat + ys.length ≤ opt.blockSize.toNat)
    (hlen : (overwrite (w.data id) (f.posabs.toNat % opt.blockSize.toNat) ys).length =
      opt.blockSize.toNat) (now : UInt32) :
    Wrote v chains f (put opt.blockSize.toNat opt.blockCount.toNat 0 (freeIds v).length
        (contentOf v chains f) f.posabs.toNat ys)
      (f.posabs.toNat / opt.blockSize.toNat + 1 - (chains f.inode.id).length)
      (w.setData id (overwrite (w.data id) (f.posabs.toNat % opt.blockSize.toNat) ys) hlen) hints
      { f' with
        inode := stamped now f'.inode (f.posabs + UInt32.ofNat ys.length)
        posabs := f.posabs + UInt32.ofNat ys.length } := by
  obtain ⟨hmove, hstop⟩ := toNat_move hopt hpos hys
  have hbs := blockSize_pos hopt
  have hdiv := Nat.div_add_mod' f.posabs.toNat opt.blockSize.toNat
  have hmem : id ∈ extend chains f.inode.id ((freeIds v).take
      (f.posabs.toNat / opt.blockSize.toNat + 1 - (chains f.inode.id).length)) f.inode.id := by
    rw [extend_self]
    exact List.mem_of_getElem? hid
  have hused := hgrown.formed.chained.used f.inode.id hf.isInode id hmem
  have hnodup := (hgrown.formed.chained.chain f.inode.id hf.isInode).nodup
  rw [extend_self] at hnodup
  generalize hq : f.posabs.toNat / opt.blockSize.toNat = q at *
  generalize hk : q + 1 - (chains f.inode.id).length = k at *
  have hkle : k ≤ (freeIds v).length := by omega
  -- the write takes all of `ys`, and it reaches the block `q`
  have hneed : blocksFor opt.blockSize.toNat (f.posabs.toNat + ys.length) = q + 1 := by
    have := List.length_pos_iff.mpr hne
    exact blocksFor_eq hbs (by omega) hstop
  have htotal := length_add_free_le hchained hf.isInode
  have hput := @put_all _ opt.blockSize.toNat opt.blockCount.toNat (chains f.inode.id).length
    (freeIds v).length f.posabs.toNat (0 : UInt8) (contentOf v chains f) ys hbs
    (length_room v _) htotal hne (hstop.trans (Nat.mul_le_mul_right _ hfree))
  rw [hneed] at hput
  have hreach : max (chains f.inode.id).length (q + 1) = (chains f.inode.id).length + k := by omega
  rw [hreach] at hput
  constructor
  · exact ⟨hgrown.formed.chained.setData hused hlen, Hinted.setData hgrown.formed.hinted id hlen⟩
  · refine ⟨hgrown.opened.isInode, hgrown.opened.firstBlock, hgrown.opened.flags, ?_, Or.inr ?_⟩
    · intro hnil
      have hsame : f'.inode.id = f.inode.id := hgrown.id_eq
      change extend chains f.inode.id _ f'.inode.id = [] at hnil
      rw [hsame] at hnil
      rw [hnil] at hmem
      exact absurd hmem List.not_mem_nil
    · change f'.blocks = (extend chains f.inode.id ((freeIds v).take k) f'.inode.id).map w.block
      rw [hgrown.id_eq, extend_self]
      exact hgrown.blocks
  · exact hgrown.id_eq
  · have hkept := kept_of_grown hgrown
    refine ⟨hkept.block, fun m hm hother i hi => ?_, hkept.name, hkept.inode, hkept.flags⟩
    have hother' : extend chains f.inode.id ((freeIds v).take k) m = chains m :=
      Function.update_of_ne hother _ _
    have hapart := hgrown.formed.chained.disjoint f.inode.id m hf.isInode hm hother.symm
    have hne' : i ≠ id := by
      rintro rfl
      exact hapart hmem (hother'.symm ▸ hi)
    rw [Volume.setData_data, Function.update_of_ne hne']
    exact hkept.data m hm hother i hi
  · exact hgrown.dataSize
  · exact hgrown.free
  · rw [hput]
    simp only
    omega
  · have hroom : room w (chains f.inode.id ++ (freeIds v).take k) =
        (contentOf v chains f).grow opt.blockSize.toNat 0 (chains f.inode.id).length
          ((chains f.inode.id).length + k) := by
      rw [Content.grow, Nat.add_sub_cancel_left, room, hgrown.data]
      exact room_grown hchained hkle f.inode.id
    have hsize : (stamped now f'.inode (f.posabs + UInt32.ofNat ys.length)).dataSize.toNat =
        max f.inode.dataSize.toNat (f.posabs.toNat + ys.length) := by
      rw [stamped, hgrown.size]
      simp only [UInt32.lt_iff_toNat_lt, hmove]
      split
      · rw [hmove]
        omega
      · omega
    have hbytes := @room_setData _ w (chains f.inode.id ++ (freeIds v).take k) hnodup id q
      (f.posabs.toNat % opt.blockSize.toNat) hid ys hys hlen
    rw [hdiv, hroom] at hbytes
    rw [hput, contentOf]
    simp only
    rw [show (stamped now f'.inode (f.posabs + UInt32.ofNat ys.length)).id = f.inode.id from
      hgrown.id_eq, extend_self, hbytes, hsize]
    rfl
  · rw [hput]
    exact hmove

theorem inodeWriteImpl_found (hopt : Formattable opt) (h : Formed v hints chains)
    (hf : Opened v chains f) (hfuel : opt.blockCount.toNat ≤ fuel) (hne : src ≠ [])
    (hlen : src.length < 2 ^ 32)
    (hpos : f.posabs.toNat / opt.blockSize.toNat < opt.blockCount.toNat)
    (hfree : f.posabs.toNat / opt.blockSize.toNat <
      (chains f.inode.id).length + (freeIds v).length) :
    ∃ k w hints' f', inodeWriteImpl now fuel (disk v hints) f src =
        .ok (pieceLength opt f.posabs src.length,
          decide (pieceLength opt f.posabs src.length < src.length), f', disk w hints') ∧
      Wrote v chains f (put opt.blockSize.toNat opt.blockCount.toNat 0 (freeIds v).length
        (contentOf v chains f) f.posabs.toNat (src.take (pieceLength opt f.posabs src.length)))
        k w hints' f' := by
  obtain ⟨w, hints', f', bl, hrun, hgrown, hget⟩ :=
    blockForPosExpand_found hopt h hf hfuel hpos hfree
  rw [hgrown.blocks, List.getElem?_map] at hget
  obtain ⟨id, hid, rfl⟩ := Option.map_eq_some_iff.mp hget
  have hmod := Nat.mod_lt f.posabs.toNat (blockSize_pos hopt)
  have hpiece := pieceLength_pos hopt f.posabs (List.length_pos_iff.mpr hne)
  have hbytes : (src.take (pieceLength opt f.posabs src.length)).length =
      pieceLength opt f.posabs src.length := List.length_take_of_le (Nat.min_le_left _ _)
  have hys : f.posabs.toNat % opt.blockSize.toNat +
      (src.take (pieceLength opt f.posabs src.length)).length ≤ opt.blockSize.toNat := by
    rw [hbytes, pieceLength]
    omega
  have hne' : src.take (pieceLength opt f.posabs src.length) ≠ [] := by
    rw [← List.length_pos_iff, hbytes]
    exact hpiece
  have hblock : IsBlock opt id := by
    refine (hgrown.formed.chained.chain f.inode.id hf.isInode).isBlock id ?_
    rw [extend_self]
    exact List.mem_of_getElem? hid
  have hbound : f.posabs.toNat + pieceLength opt f.posabs src.length < 2 ^ 32 := by
    have hmove := toNat_move hopt hpos hys
    rw [hbytes] at hmove
    rw [← hmove.1]
    exact UInt32.toNat_lt _
  have hwrite := @write_block opt w hints' hopt id hblock (f.posabs % opt.blockSize) _
    (by rwa [UInt32.toNat_mod])
  have hwrote := wrote_piece hopt hf hpos hfree h.chained hgrown hid hne' hys
    ((length_overwrite (by rwa [w.data_length])).trans (w.data_length id)) now
  refine ⟨_, _, _, _, ?_, hwrote⟩
  rw [inodeWriteImpl_eq hopt hne hlen hbound hrun hgrown.posabs]
  simp only [hwrite, hbytes, UInt32.toNat_mod]

theorem Wrote.refl (h : Formed v hints chains) (hf : Opened v chains f) :
    Wrote v chains f ⟨0, contentOf v chains f, (freeIds v).length⟩ 0 v hints f := by
  constructor
  · rwa [List.take_zero, extend_nil]
  · rwa [List.take_zero, extend_nil]
  · rfl
  · exact Kept.refl v chains f.inode.id
  · rfl
  · rw [List.drop_zero]
  · rfl
  · rw [List.take_zero, extend_nil]
  · rfl

theorem Wrote.length_free {out : Written UInt8} (h : Wrote v chains f out k w hints f') :
    (freeIds w).length = out.free := by
  have := h.out_free
  rw [h.free, List.length_drop]
  omega

theorem Wrote.trans {u : Volume opt} {hints' : Hints} {f'' : File} {out out' : Written UInt8}
    {j : Nat} (h : Wrote v chains f out j w hints f')
    (h' : Wrote w (extend chains f.inode.id ((freeIds v).take j)) f' out' k u hints' f'') :
    Wrote v chains f ⟨out.count + out'.count, out'.content, out'.free⟩ (j + k) u hints' f'' := by
  have hn := h.id_eq
  have hchains : extend (extend chains f.inode.id ((freeIds v).take j)) f'.inode.id
      ((freeIds w).take k) = extend chains f.inode.id ((freeIds v).take (j + k)) := by
    rw [hn, extend_extend, h.free, List.take_add]
  constructor
  · exact hchains ▸ h'.formed
  · exact hchains ▸ h'.opened
  · exact h'.id_eq.trans hn
  · exact h.kept.trans (fun m hm => Function.update_of_ne hm _ _) (hn ▸ h'.kept)
  · exact (hn ▸ h'.dataSize).trans h.dataSize
  · rw [h'.free, h.free, List.drop_drop]
  · have hleft := h'.out_free
    have hfirst := h.out_free
    rw [h.free, List.length_drop] at hleft
    simp only
    omega
  · exact hchains ▸ h'.content
  · have hmove := h'.posabs
    rw [h.posabs] at hmove
    rw [hmove, Nat.add_assoc]

theorem wrote_full (hopt : Formattable opt) (h : Chained v chains)
    (hgrown : Grown v chains f (freeIds v).length w hints f') (hne : src ≠ [])
    (hpos : f.posabs.toNat / opt.blockSize.toNat < opt.blockCount.toNat)
    (hfull : (chains f.inode.id).length + (freeIds v).length ≤
      f.posabs.toNat / opt.blockSize.toNat) :
    Wrote v chains f (put opt.blockSize.toNat opt.blockCount.toNat 0 (freeIds v).length
        (contentOf v chains f) f.posabs.toNat src) (freeIds v).length w hints f' ∧
      (put opt.blockSize.toNat opt.blockCount.toNat 0 (freeIds v).length
        (contentOf v chains f) f.posabs.toNat src).count = 0 := by
  have hbs := blockSize_pos hopt
  have hmost := (Nat.le_div_iff_mul_le hbs).mp hfull
  have hlen := List.length_pos_iff.mpr hne
  have hcount : min src.length (((chains f.inode.id).length + (freeIds v).length) *
      opt.blockSize.toNat - f.posabs.toNat) = 0 := by omega
  have hneed : (chains f.inode.id).length + (freeIds v).length <
      blocksFor opt.blockSize.toNat (f.posabs.toNat + src.length) :=
    (lt_blocksFor_iff hbs).mpr (by omega)
  have hreach : max (chains f.inode.id).length (min ((chains f.inode.id).length +
      (freeIds v).length) (blocksFor opt.blockSize.toNat (f.posabs.toNat + src.length))) =
        (chains f.inode.id).length + (freeIds v).length := by omega
  have hput := @put_of_lt _ opt.blockSize.toNat opt.blockCount.toNat (chains f.inode.id).length
    (freeIds v).length f.posabs.toNat (0 : UInt8) (contentOf v chains f) src hbs
    (length_room v _) hne hpos
  rw [hcount, hreach] at hput
  simp only [if_true, List.take_zero, overwrite_nil, Nat.add_sub_cancel_left, Nat.sub_self] at hput
  rw [hput]
  refine ⟨?_, rfl⟩
  constructor
  · exact hgrown.formed
  · exact hgrown.opened
  · exact hgrown.id_eq
  · exact kept_of_grown hgrown
  · exact hgrown.dataSize
  · exact hgrown.free
  · exact Nat.zero_add _
  · have hroom := room_grown h le_rfl f.inode.id
    rw [contentOf, hgrown.id_eq, hgrown.size, extend_self, room, hgrown.data, ← room, hroom,
      Content.grow, Nat.add_sub_cancel_left]
    rfl
  · rw [hgrown.posabs]
    rfl

theorem inodeWriteImpl_stopped (hopt : Formattable opt) (h : Formed v hints chains)
    (hf : Opened v chains f) (hfuel : opt.blockCount.toNat ≤ fuel) (hne : src ≠ [])
    (hpos : opt.blockCount.toNat ≤ f.posabs.toNat / opt.blockSize.toNat ∨
      (chains f.inode.id).length + (freeIds v).length ≤
        f.posabs.toNat / opt.blockSize.toNat) :
    ∃ k w hints' f', inodeWriteImpl now fuel (disk v hints) f src =
        .ok (0, false, f', disk w hints') ∧
      Wrote v chains f (put opt.blockSize.toNat opt.blockCount.toNat 0 (freeIds v).length
        (contentOf v chains f) f.posabs.toNat src) k w hints' f' ∧
      (put opt.blockSize.toNat opt.blockCount.toNat 0 (freeIds v).length
        (contentOf v chains f) f.posabs.toNat src).count = 0 := by
  rcases Nat.lt_or_ge (f.posabs.toNat / opt.blockSize.toNat) opt.blockCount.toNat with hlt | hge
  · have hfull := hpos.resolve_left (Nat.not_le.mpr hlt)
    obtain ⟨w, hints', f', hrun, hgrown⟩ := blockForPosExpand_full hopt h hf hfuel hlt hfull
    have hout := wrote_full hopt h.chained hgrown hne hlt hfull
    refine ⟨_, w, hints', f', ?_, hout⟩
    rw [inodeWriteImpl, if_neg hne, hrun]
    rfl
  · rw [put_outside hge]
    refine ⟨0, v, hints, f, ?_, Wrote.refl h hf, rfl⟩
    rw [inodeWriteImpl, if_neg hne, blockForPosExpand_range hopt hge]
    rfl

/-- `whio_dev_inode_write` does to the file what a write of the abstract file does. -/
theorem inodeWrite_disk (hopt : Formattable opt) (h : Formed v hints chains)
    (hf : Opened v chains f) (hfuel : opt.blockCount.toNat ≤ fuel)
    (hlen : src.length < 2 ^ 32) {rounds : Nat} (hrounds : src.length < rounds) :
    ∃ k w hints' f', inodeWrite now fuel rounds (disk v hints) f src =
        .ok ((put opt.blockSize.toNat opt.blockCount.toNat 0 (freeIds v).length
          (contentOf v chains f) f.posabs.toNat src).count, f', disk w hints') ∧
      Wrote v chains f (put opt.blockSize.toNat opt.blockCount.toNat 0 (freeIds v).length
        (contentOf v chains f) f.posabs.toNat src) k w hints' f' := by
  induction rounds generalizing v hints chains f src with
  | zero => exact absurd hrounds (Nat.not_lt_zero _)
  | succ rounds ih =>
      rw [inodeWrite]
      rcases eq_or_ne src [] with rfl | hne
      · rw [put_nil, inodeWriteImpl, if_pos rfl]
        exact ⟨0, v, hints, f, rfl, Wrote.refl h hf⟩
      by_cases hpos : f.posabs.toNat / opt.blockSize.toNat < opt.blockCount.toNat ∧
          f.posabs.toNat / opt.blockSize.toNat <
            (chains f.inode.id).length + (freeIds v).length
      · obtain ⟨k, w, hints', f', hrun, hwrote⟩ := @inodeWriteImpl_found _ _ _ _ _ _ _ now hopt h hf
          hfuel hne hlen hpos.1 hpos.2
        have hpiece := pieceLength_pos hopt f.posabs (List.length_pos_iff.mpr hne)
        have hmod := Nat.mod_lt f.posabs.toNat (blockSize_pos hopt)
        have hle : pieceLength opt f.posabs src.length ≤ src.length := Nat.min_le_left _ _
        have hpart : f.posabs.toNat % opt.blockSize.toNat +
            pieceLength opt f.posabs src.length ≤ opt.blockSize.toNat := by
          rw [pieceLength]
          omega
        generalize pieceLength opt f.posabs src.length = piece at *
        have hbytes : (src.take piece).length = piece := List.length_take_of_le hle
        have hne' : src.take piece ≠ [] := by
          rw [← List.length_pos_iff, hbytes]
          exact hpiece
        have hstop : f.posabs.toNat + (src.take piece).length ≤
            ((chains f.inode.id).length + (freeIds v).length) * opt.blockSize.toNat := by
          rw [hbytes]
          exact (toNat_move hopt hpos.1 hpart).2.trans (Nat.mul_le_mul_right _ hpos.2)
        have htotal := length_add_free_le h.chained hf.isInode
        have hall := @put_all _ _ _ _ (freeIds v).length f.posabs.toNat (0 : UInt8)
          (contentOf v chains f) _ (blockSize_pos hopt) (length_room v _) htotal hne' hstop
        have happend := @put_append _ _ _ _ (freeIds v).length f.posabs.toNat (0 : UInt8)
          (contentOf v chains f) _ (src.drop piece) (blockSize_pos hopt) (length_room v _) htotal
          hne' hstop
        have hcount := congrArg Written.count hall
        have hfree := hwrote.length_free
        have hposabs := hwrote.posabs
        rw [hcount] at hposabs
        rw [List.take_append_drop] at happend
        simp only at happend hposabs hcount
        rw [← hwrote.content, ← hfree, ← hposabs] at happend
        rw [hrun]
        rcases Nat.lt_or_eq_of_le hle with hlt | heq
        · -- the write goes on with the next block
          obtain ⟨k', u, hints'', f'', hrest, hwrote'⟩ := @ih w hints' _ f' (src.drop piece)
            hwrote.formed hwrote.opened (by rw [List.length_drop]; omega)
            (by rw [List.length_drop]; omega)
          refine ⟨k + k', u, hints'', f'', ?_, ?_⟩
          · simp only [Run.ok_bind, hlt, decide_true, if_true, hrest, happend, hbytes]
            rfl
          · have htrans := hwrote.trans hwrote'
            rw [hcount] at htrans
            rw [happend]
            exact htrans
        · rw [heq, List.take_length] at hwrote hcount
          rw [heq, hcount]
          refine ⟨k, w, hints', f', ?_, hwrote⟩
          simp only [Run.ok_bind, Nat.lt_irrefl, decide_false]
          rfl
      · obtain ⟨k, w, hints', f', hrun, hwrote, hcount⟩ :=
          @inodeWriteImpl_stopped _ _ _ _ _ _ _ now hopt h hf hfuel hne (by omega)
        rw [hrun, hcount]
        exact ⟨k, w, hints', f', rfl, hwrote⟩

end Piece

end

end Iqiq.WhefsWriting
