import Iqiq.WhefsWriting

namespace Iqiq.WhefsReading

open Iqiq.BlockedFile
open Iqiq.RecordTable
open Iqiq.Whefs
open Iqiq.WhefsAllocation
open Iqiq.WhefsChains
open Iqiq.WhefsDisk
open Iqiq.WhefsEncode
open Iqiq.WhefsFiles
open Iqiq.WhefsFree
open Iqiq.WhefsGrowth
open Iqiq.WhefsVolume
open Iqiq.WhefsWriting

section

variable {opt : Options} {v : Volume opt} {hints : Hints} {chains : UInt32 → List UInt32}
  {f : File} {n : UInt32} {fuel : Nat}

theorem toNat_pos (hn : n ≠ 0) : 0 < n.toNat :=
  Nat.pos_iff_ne_zero.mpr fun hzero => hn (UInt32.toNat_inj.mp hzero)

/-- The number of bytes of a round of a read of `n` bytes. -/
def readPiece (opt : Options) (f : File) (n : Nat) : Nat :=
  min (pieceLength opt f.posabs n) (f.inode.dataSize.toNat - f.posabs.toNat)

theorem readPiece_pos (hopt : Formattable opt) (hlt : f.posabs.toNat < f.inode.dataSize.toNat)
    {n : Nat} (hn : 0 < n) : 0 < readPiece opt f n := by
  have := pieceLength_pos hopt f.posabs hn
  rw [readPiece]
  omega

theorem readPiece_le (opt : Options) (f : File) (n : Nat) : readPiece opt f n ≤ n :=
  (Nat.min_le_left _ _).trans (Nat.min_le_left _ _)

theorem toNat_readLength (hopt : Formattable opt)
    (hpos : f.posabs.toNat / opt.blockSize.toNat < opt.blockCount.toNat)
    (hlt : f.posabs.toNat < f.inode.dataSize.toNat) (n : UInt32) :
    (readLength v.fs f n).toNat = readPiece opt f n.toNat := by
  have hmod := Nat.mod_lt f.posabs.toNat (blockSize_pos hopt)
  have hpart : f.posabs.toNat % opt.blockSize.toNat + pieceLength opt f.posabs n.toNat ≤
      opt.blockSize.toNat := by
    rw [pieceLength]
    omega
  have hmove := (toNat_move hopt hpos hpart).1
  have hwlen := wlen_eq hopt f.posabs n.toNat_lt
  rw [UInt32.ofNat_toNat] at hwlen
  have hlength : readLength v.fs f n =
      if UInt32.ofNat (pieceLength opt f.posabs n.toNat) + f.posabs ≥ f.inode.dataSize
      then f.inode.dataSize - f.posabs else UInt32.ofNat (pieceLength opt f.posabs n.toNat) :=
    congrArg (fun rdlen => if rdlen + f.posabs ≥ f.inode.dataSize
      then f.inode.dataSize - f.posabs else rdlen) hwlen
  rw [hlength, UInt32.add_comm, readPiece]
  split
  · rename_i hend
    rw [ge_iff_le, UInt32.le_iff_toNat_le, hmove] at hend
    rw [UInt32.toNat_sub_of_le _ _ (UInt32.le_iff_toNat_le.mpr hlt.le)]
    omega
  · rename_i hend
    rw [ge_iff_le, UInt32.le_iff_toNat_le, hmove] at hend
    rw [toNat_pieceLength f.posabs n.toNat_lt]
    omega

/-- What a read leaves of an opened inode: it may have loaded the block list. -/
structure Moved (v : Volume opt) (chains : UInt32 → List UInt32) (f : File) (m : Nat) (f' : File) :
    Prop where
  opened : Opened v chains f'
  inode : f'.inode = f.inode
  posabs : f'.posabs.toNat = f.posabs.toNat + m

theorem Moved.refl (hf : Opened v chains f) : Moved v chains f 0 f :=
  ⟨hf, rfl, rfl⟩

theorem blockForPos_eq (hopt : Formattable opt) (h : Formed v hints chains)
    (hf : Opened v chains f) (hfuel : opt.blockCount.toNat ≤ fuel)
    (hlt : f.posabs.toNat < f.inode.dataSize.toNat) :
    ∃ f', Moved v chains f 0 f' ∧ f'.posabs = f.posabs ∧
      blockForPos v.fs fuel f f.posabs =
        match ((chains f.inode.id).map v.block)[f.posabs.toNat / opt.blockSize.toNat]? with
        | some bl => .ok (.ok bl, f')
        | none => .ok (.error .rangeError, f') := by
  have hsize : ¬ f.inode.dataSize ≤ f.posabs := by
    rw [UInt32.le_iff_toNat_le]
    omega
  have hbs : ¬ v.fs.options.blockSize = 0 := blockSize_ne_zero hopt
  have hle := (h.chained.chain f.inode.id hf.isInode).length_le
  rw [blockForPos, if_neg hsize]
  simp only
  rw [if_neg hbs]
  rcases Nat.lt_or_ge (f.posabs.toNat / opt.blockSize.toNat) opt.blockCount.toNat with hpos | hpos
  · have hcount : ¬ 1 + f.posabs / v.fs.options.blockSize > v.fs.options.blockCount := by
      rw [fs_options, gt_iff_lt, UInt32.lt_iff_toNat_lt, toNat_blocksNeeded hopt]
      omega
    refine ⟨{ f with blocks := (chains f.inode.id).map v.block }, ⟨hf.loaded, rfl, rfl⟩, rfl, ?_⟩
    rw [if_neg hcount, loadedBlocks_fs hopt h hf hfuel]
    simp only [Run.ok_bind, fs_options, toNat_blocksNeeded hopt, Nat.add_sub_cancel]
    rw [if_neg (not_not_intro rfl)]
    cases ((chains f.inode.id).map v.block)[f.posabs.toNat / opt.blockSize.toNat]? <;> rfl
  · have hcount : 1 + f.posabs / v.fs.options.blockSize > v.fs.options.blockCount := by
      rw [fs_options, gt_iff_lt, UInt32.lt_iff_toNat_lt, toNat_blocksNeeded hopt]
      omega
    refine ⟨f, Moved.refl hf, rfl, ?_⟩
    rw [if_pos hcount, List.getElem?_eq_none]
    rw [List.length_map]
    omega

theorem window_room {ids : List UInt32} {id : UInt32} {pos m : Nat}
    (hid : ids[pos / opt.blockSize.toNat]? = some id)
    (hm : pos % opt.blockSize.toNat + m ≤ opt.blockSize.toNat) :
    window (room v ids) pos m = window (v.data id) (pos % opt.blockSize.toNat) m := by
  have hwindow := window_flatMap v.data_length hid hm
  rwa [Nat.div_add_mod'] at hwindow

theorem inodeReadImpl_found (hopt : Formattable opt) (h : Formed v hints chains)
    (hf : Opened v chains f) (hfuel : opt.blockCount.toNat ≤ fuel) (hn : n ≠ 0)
    (hlt : f.posabs.toNat < f.inode.dataSize.toNat)
    (hpos : f.posabs.toNat / opt.blockSize.toNat < (chains f.inode.id).length) :
    ∃ f', inodeReadImpl v.fs fuel f n =
        .ok ((contentOf v chains f).get f.posabs.toNat (readPiece opt f n.toNat),
          decide (readPiece opt f n.toNat < n.toNat), f') ∧
      Moved v chains f (readPiece opt f n.toNat) f' ∧
      ((contentOf v chains f).get f.posabs.toNat (readPiece opt f n.toNat)).length =
        readPiece opt f n.toNat := by
  obtain ⟨f', hmoved, hsame, hrun⟩ := blockForPos_eq hopt h hf hfuel hlt
  have hchain := h.chained.chain f.inode.id hf.isInode
  have hpos' : f.posabs.toNat / opt.blockSize.toNat < opt.blockCount.toNat :=
    Nat.lt_of_lt_of_le hpos hchain.length_le
  have hid := List.getElem?_eq_getElem hpos
  have hblock := hchain.isBlock _ (List.getElem_mem hpos)
  generalize (chains f.inode.id)[f.posabs.toNat / opt.blockSize.toNat] = id at hid hblock
  rw [List.getElem?_map, hid] at hrun
  simp only [Option.map_some] at hrun
  have hmod := Nat.mod_lt f.posabs.toNat (blockSize_pos hopt)
  have hpiece := readPiece_pos hopt hlt (toNat_pos hn)
  have hpart : f.posabs.toNat % opt.blockSize.toNat + readPiece opt f n.toNat ≤
      opt.blockSize.toNat := by
    rw [readPiece, pieceLength]
    omega
  have hend : f.posabs.toNat + readPiece opt f n.toNat ≤ f.inode.dataSize.toNat := by
    rw [readPiece]
    omega
  have hlen : (readLength v.fs f' n).toNat = readPiece opt f n.toNat := by
    have hsame' : readLength v.fs f' n = readLength v.fs f n := by
      rw [readLength, readLength, hmoved.inode, hsame]
    rw [hsame', toNat_readLength hopt hpos' hlt n]
  have hget : (contentOf v chains f).get f.posabs.toNat (readPiece opt f n.toNat) =
      window (v.data id) (f.posabs.toNat % opt.blockSize.toNat) (readPiece opt f n.toNat) := by
    rw [Content.get_of_le hend]
    exact window_room hid hpart
  have hbytes := v.readAt_data hopt hblock hpart
  rw [← hget, ← UInt32.toNat_mod, UInt32.ofNat_toNat] at hbytes
  have hcount : ((contentOf v chains f).get f.posabs.toNat (readPiece opt f n.toNat)).length =
      readPiece opt f n.toNat := by
    rw [hget, length_window]
    rwa [v.data_length]
  have hsz : UInt32.ofNat (readPiece opt f n.toNat) = readLength v.fs f' n := by
    rw [← hlen, UInt32.ofNat_toNat]
  have hmove := toNat_move hopt hpos' hpart
  have hne : ¬ UInt32.ofNat (readPiece opt f n.toNat) = 0 := by
    rw [hsz, ← UInt32.toNat_inj, hlen]
    exact hpiece.ne'
  have hgt : f.posabs + UInt32.ofNat (readPiece opt f n.toNat) > f.posabs := by
    rw [gt_iff_lt, UInt32.lt_iff_toNat_lt, hmove.1]
    omega
  have hstart : ¬ f.posabs ≥ f.inode.dataSize := by
    rw [ge_iff_le, UInt32.le_iff_toNat_le]
    omega
  have hgoing : readLength v.fs f' n < n ↔ readPiece opt f n.toNat < n.toNat := by
    rw [UInt32.lt_iff_toNat_lt, hlen]
  refine ⟨{ f' with posabs := f.posabs + UInt32.ofNat (readPiece opt f n.toNat) }, ?_, ?_, hcount⟩
  · rw [inodeReadImpl, if_neg hn, if_neg hstart, hrun]
    simp only [Run.ok_bind, hsame, hlen, fs_image, fs_options, hbytes, hcount]
    rw [if_neg hne, if_pos hgt, hsz]
    simp only [hgoing, true_and]
    rfl
  · exact ⟨⟨hmoved.opened.isInode, hmoved.opened.firstBlock, hmoved.opened.flags,
      hmoved.opened.dataSize, hmoved.opened.blocks⟩, hmoved.inode, hmove.1⟩

theorem inodeReadImpl_end (hopt : Formattable opt) (h : Formed v hints chains)
    (hf : Opened v chains f) (hfuel : opt.blockCount.toNat ≤ fuel)
    (hend : n = 0 ∨ f.inode.dataSize.toNat ≤ f.posabs.toNat ∨
      (chains f.inode.id).length ≤ f.posabs.toNat / opt.blockSize.toNat) :
    ∃ f', inodeReadImpl v.fs fuel f n = .ok ([], false, f') ∧ Moved v chains f 0 f' ∧
      (contentOf v chains f).get f.posabs.toNat n.toNat = [] := by
  rw [inodeReadImpl]
  rcases eq_or_ne n 0 with rfl | hn
  · refine ⟨f, if_pos rfl, Moved.refl hf, ?_⟩
    rw [Content.get, window]
    exact List.take_zero
  rw [if_neg hn]
  rcases Nat.lt_or_ge f.posabs.toNat f.inode.dataSize.toNat with hlt | hge
  · have hpos := (hend.resolve_left hn).resolve_left (Nat.not_le.mpr hlt)
    have hstart : ¬ f.posabs ≥ f.inode.dataSize := by
      rw [ge_iff_le, UInt32.le_iff_toNat_le]
      omega
    obtain ⟨f', hmoved, -, hrun⟩ := blockForPos_eq hopt h hf hfuel hlt
    rw [List.getElem?_eq_none (by rwa [List.length_map])] at hrun
    refine ⟨f', ?_, hmoved, Content.get_eq_nil (Or.inr ?_) _⟩
    · rw [if_neg hstart, hrun]
      rfl
    · rw [contentOf, length_room]
      exact (Nat.le_div_iff_mul_le (blockSize_pos hopt)).mp hpos
  · refine ⟨f, if_pos (UInt32.le_iff_toNat_le.mpr hge), Moved.refl hf, ?_⟩
    exact Content.get_eq_nil (Or.inl hge) _

/-- `whio_dev_inode_read` delivers what a read of the abstract file does. -/
theorem inodeRead_fs (hopt : Formattable opt) (h : Formed v hints chains)
    (hf : Opened v chains f) (hfuel : opt.blockCount.toNat ≤ fuel) {rounds : Nat}
    (hrounds : n.toNat < rounds) :
    ∃ f', inodeRead v.fs fuel rounds f n =
        .ok ((contentOf v chains f).get f.posabs.toNat n.toNat, f') ∧
      Moved v chains f ((contentOf v chains f).get f.posabs.toNat n.toNat).length f' := by
  induction rounds generalizing f n with
  | zero => exact absurd hrounds (Nat.not_lt_zero _)
  | succ rounds ih =>
      rw [inodeRead]
      by_cases hend : n = 0 ∨ f.inode.dataSize.toNat ≤ f.posabs.toNat ∨
          (chains f.inode.id).length ≤ f.posabs.toNat / opt.blockSize.toNat
      · obtain ⟨f', hrun, hmoved, hnil⟩ := inodeReadImpl_end hopt h hf hfuel hend
        rw [hrun, hnil]
        exact ⟨f', rfl, hmoved⟩
      · rw [not_or, not_or, Nat.not_le, Nat.not_le] at hend
        obtain ⟨hn, hlt, hpos⟩ := hend
        obtain ⟨f', hrun, hmoved, hcount⟩ := inodeReadImpl_found hopt h hf hfuel hn hlt hpos
        have hpiece := readPiece_pos hopt hlt (toNat_pos hn)
        have hle := readPiece_le opt f n.toNat
        rw [hrun]
        generalize readPiece opt f n.toNat = piece at *
        rcases Nat.lt_or_eq_of_le hle with hmore | heq
        · -- the read goes on behind the piece
          have hpart : (UInt32.ofNat piece).toNat = piece :=
            UInt32.toNat_ofNat_of_lt' (Nat.lt_of_le_of_lt hle n.toNat_lt)
          have hrest : (n - UInt32.ofNat piece).toNat = n.toNat - piece := by
            rw [UInt32.toNat_sub_of_le _ _ (by rwa [UInt32.le_iff_toNat_le, hpart]), hpart]
          obtain ⟨f'', hrun', hmoved'⟩ :=
            @ih f' (n - UInt32.ofNat piece) hmoved.opened (by rw [hrest]; omega)
          have hsame : contentOf v chains f' = contentOf v chains f := by
            rw [contentOf, contentOf, hmoved.inode]
          have hsplit := (contentOf v chains f).get_add f.posabs.toNat piece (n.toNat - piece)
          rw [Nat.add_sub_cancel' hle] at hsplit
          rw [hsame, hmoved.posabs, hrest] at hrun' hmoved'
          refine ⟨f'', ?_, hmoved'.opened, hmoved'.inode.trans hmoved.inode, ?_⟩
          · simp only [Run.ok_bind, hmore, decide_true, if_true, hcount, hrun', hsplit]
            rfl
          · rw [hmoved'.posabs, hmoved.posabs, hsplit, List.length_append, hcount, Nat.add_assoc]
        · rw [heq] at hmoved hcount ⊢
          refine ⟨f', ?_, ?_⟩
          · simp only [Run.ok_bind, Nat.lt_irrefl, decide_false]
            rfl
          · rwa [hcount]

end

end Iqiq.WhefsReading
