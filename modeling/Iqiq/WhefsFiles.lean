import Mathlib.Data.List.Perm.Subperm
import Mathlib.Data.List.Nodup
import Iqiq.WhefsNames

namespace Iqiq.WhefsFiles

open Iqiq.NameCache
open Iqiq.Whefs
open Iqiq.WhefsNames

/-- A `whefs_file` opened for reading: its opened inode, the position of its device,
and the block list of the inode, which is empty until it is loaded. -/
structure File where
  inode : Inode
  posabs : UInt32
  blocks : List Block
  deriving DecidableEq

/-- `whefs_inode_block_list_append`, for a block that is not the last one's new
successor. The list has room for 8, 16, 32 and so on blocks. -/
def blockListAppend (ino : Inode) (blocks : List Block) (bl : Block) : Run (List Block) :=
  -- twice `2 ^ 31` is 0 in 32 bits: the list is freed, and the block is written to it
  if 2 ^ 31 ≤ blocks.length then .error .undefined
  else
    let expected := match blocks.getLast? with
      | none => ino.firstBlock
      | some prev => prev.nextBlock
    if expected ≠ bl.id then .error .assertion else .ok (blocks ++ [bl])

theorem blockListAppend_nil (ino : Inode) (bl : Block) :
    blockListAppend ino [] bl = if ino.firstBlock ≠ bl.id then .error .assertion else .ok [bl] :=
  rfl

theorem blockListAppend_concat (ino : Inode) (before : List Block) (prev bl : Block) :
    blockListAppend ino (before ++ [prev]) bl =
      if 2 ^ 31 ≤ before.length + 1 then .error .undefined
      else if prev.nextBlock ≠ bl.id then .error .assertion
      else .ok (before ++ [prev] ++ [bl]) := by
  simp [blockListAppend]

/-- The loop of `whefs_inode_block_list_load`, from the last block that was read. -/
def blockListWalk (fs : Fs) (ino : Inode) (fuel : Nat) (bl : Block) (blocks : List Block) :
    Run (Rc × List Block) :=
  if bl.nextBlock = 0 then .ok (.ok, blocks)
  else
    match fuel with
    | 0 => .error .running
    | fuel + 1 =>
        match blockReadNext fs bl with
        | .error rc => .ok (rc, blocks)
        | .ok next => do
            let blocks ← blockListAppend ino blocks next
            blockListWalk fs ino fuel next blocks

/-- `whefs_inode_block_list_load`, for an inode whose list is empty. -/
def blockListLoad (fs : Fs) (ino : Inode) (fuel : Nat) : Run (Rc × List Block) :=
  if ¬ inodeIdIsValid fs ino.id then .ok (.argError, [])
  else if ino.firstBlock = 0 then .ok (.ok, [])
  else
    match blockRead fs ino.firstBlock with
    | .error rc => .ok (rc, [])
    | .ok bl => do
        let blocks ← blockListAppend ino [] bl
        blockListWalk fs ino fuel bl blocks

/-- The block list of the inode, loaded if there is none. -/
def loadedBlocks (fs : Fs) (fuel : Nat) (f : File) : Run (Rc × List Block) :=
  if f.blocks = [] then blockListLoad fs f.inode fuel else .ok (.ok, f.blocks)

/-- `whefs_block_for_pos`, without `expand`. -/
def blockForPos (fs : Fs) (fuel : Nat) (f : File) (pos : UInt32) :
    Run (Except Rc Block × File) :=
  if f.inode.dataSize ≤ pos then .ok (.error .rangeError, f)
  else
    let bs := fs.options.blockSize
    if bs = 0 then .error .undefined
    else
      let bc := 1 + pos / bs
      if bc > fs.options.blockCount then .ok (.error .rangeError, f)
      else do
        let (rc, blocks) ← loadedBlocks fs fuel f
        let f := { f with blocks }
        if rc ≠ .ok then return (.error rc, f)
        match blocks[bc.toNat - 1]? with
        | none => return (.error .rangeError, f)
        | some bl => return (.ok bl, f)

/-- The number of bytes that one round of a read of `n` bytes asks for: they end with the
block or with the file. -/
def readLength (fs : Fs) (f : File) (n : UInt32) : UInt32 :=
  let left := fs.options.blockSize - f.posabs % fs.options.blockSize
  let rdlen := if n > left then left else n
  if rdlen + f.posabs ≥ f.inode.dataSize then f.inode.dataSize - f.posabs else rdlen

/-- `whio_dev_inode_read_impl`: the bytes it delivers and its `keepGoing`. -/
def inodeReadImpl (fs : Fs) (fuel : Nat) (f : File) (n : UInt32) :
    Run (List UInt8 × Bool × File) :=
  if n = 0 then .ok ([], false, f)
  else if f.posabs ≥ f.inode.dataSize then .ok ([], false, f)
  else do
    let (block, f) ← blockForPos fs fuel f f.posabs
    match block with
    | .error _ => return ([], false, f)
    | .ok block =>
        let rdpos := f.posabs % fs.options.blockSize
        let rdlen := readLength fs f n
        let bytes := readAt fs.image (blockDataPos fs block + rdpos) rdlen.toNat
        let sz := UInt32.ofNat bytes.length
        if sz = 0 then return ([], false, f)
        else if f.posabs + sz > f.posabs then
          let f := { f with posabs := f.posabs + sz }
          return (bytes, sz = rdlen ∧ rdlen < n, f)
        else return ([], false, f)

/-- `whio_dev_inode_read`. -/
def inodeRead (fs : Fs) (fuel : Nat) : Nat → File → UInt32 → Run (List UInt8 × File)
  | 0, _, _ => .error .running
  | rounds + 1, f, n => do
      let (bytes, keepGoing, f) ← inodeReadImpl fs fuel f n
      if keepGoing then
        let (more, f) ← inodeRead fs fuel rounds f (n - UInt32.ofNat bytes.length)
        return (bytes ++ more, f)
      else return (bytes, f)

/-- `whefs_fread` of `count` items of one byte; it returns the number of the bytes. -/
def fread (fs : Fs) (fuel : Nat) : Nat → File → Run (List UInt8 × File)
  | 0, f => .ok ([], f)
  | count + 1, f => do
      let (bytes, f) ← inodeRead fs fuel fuel f 1
      if bytes.length ≠ 1 then return ([], f)
      else
        let (more, f) ← fread fs fuel count f
        return (bytes ++ more, f)

/-- `whefs_fseek` to the start. -/
def rewind (f : File) : File :=
  { f with posabs := 0 }

/-- `whefs_dev_for_inode` for reading, while no inode is open. -/
def devForInode (fs : Fs) (nid : UInt32) : Option File :=
  if ¬ inodeIdIsValid fs nid then none
  else
    match inodeIdRead fs nid { inodeEmpty with id := nid } with
    | (.ok, ino) => some ⟨ino, 0, []⟩
    | (_, _) => none

/-- `whefs_fopen` with the mode `"rb"`. -/
def fopen (fs : Fs) (cache : Cache) (name : List UInt8) : Run (Option File × Cache) :=
  if name = [] then .ok (none, cache)
  else do
    let (rc, n, cache) ← inodeByName fs cache name
    return (if rc = .ok then devForInode fs n.id else none, cache)

/-! ### Chains of blocks -/

/-- The block records from `first` on, up to one without a successor; each carries its
own id. -/
def IsChain (fs : Fs) : UInt32 → List Block → Prop
  | first, [] => first = 0
  | first, bl :: blocks => blockIdIsValid fs first ∧ blockRead fs first = .ok bl ∧
      bl.id = first ∧ IsChain fs bl.nextBlock blocks

/-- The record of the block can be read, and it carries the id that it is read with. -/
def Sound (fs : Fs) (bl : Block) : Prop :=
  blockIdIsValid fs bl.id ∧ blockRead fs bl.id = .ok bl

/-- The byte at `k` of the data of the blocks. -/
def chainByte (fs : Fs) (blocks : List Block) (k : Nat) : Option UInt8 :=
  blocks[k / fs.options.blockSize.toNat]?.bind fun bl =>
    fs.image[(blockDataPos fs bl + UInt32.ofNat (k % fs.options.blockSize.toNat)).toNat]?

theorem ne_zero_of_blockIdIsValid {fs : Fs} {id : UInt32} (h : blockIdIsValid fs id) : id ≠ 0 := by
  simp only [blockIdIsValid, decide_eq_true_eq] at h
  exact h.1

theorem IsChain.sound {fs : Fs} {first : UInt32} {blocks : List Block}
    (h : IsChain fs first blocks) : ∀ bl ∈ blocks, Sound fs bl := by
  induction blocks generalizing first with
  | nil => simp
  | cons b blocks ih =>
      obtain ⟨hvalid, hread, rfl, hrest⟩ := h
      intro bl hbl
      rcases List.mem_cons.mp hbl with rfl | hbl
      · exact ⟨hvalid, hread⟩
      · exact ih hrest bl hbl

theorem blockIdIsValid_iff {fs : Fs} {id : UInt32} :
    blockIdIsValid fs id ↔ 1 ≤ id.toNat ∧ id.toNat ≤ fs.options.blockCount.toNat := by
  rw [blockIdIsValid, decide_eq_true_eq, ne_eq, ← UInt32.toNat_inj, UInt32.le_iff_toNat_le]
  exact and_congr_left fun _ => Nat.pos_iff_ne_zero.symm

theorem length_le_of_sound {fs : Fs} {blocks : List Block} (h : ∀ bl ∈ blocks, Sound fs bl)
    (hnodup : (blocks.map Block.id).Nodup) : blocks.length ≤ fs.options.blockCount.toNat := by
  have hsub : (blocks.map fun bl => bl.id.toNat) ⊆ List.range' 1 fs.options.blockCount.toNat := by
    intro k hk
    obtain ⟨bl, hbl, rfl⟩ := List.mem_map.mp hk
    have hvalid := blockIdIsValid_iff.mp (h bl hbl).1
    rw [List.mem_range'_1]
    omega
  have hnodup' : (blocks.map fun bl => bl.id.toNat).Nodup := by
    have := hnodup.map (f := UInt32.toNat) fun a b hab => UInt32.toNat_inj.mp hab
    rwa [List.map_map] at this
  simpa using (List.subperm_of_subset hnodup' hsub).length_le

theorem getElem?_readAt {image : List UInt8} {pos : UInt32} {n i : Nat} (hi : i < n) :
    (readAt image pos n)[i]? = image[pos.toNat + i]? := by
  rw [readAt, List.getElem?_take_of_lt hi, List.getElem?_drop]

theorem getElem?_of_readAt {image : List UInt8} {pos : UInt32} {n i : Nat} {b : UInt8}
    (hlen : (readAt image pos n).length = n) (hi : i < n)
    (h : (readAt image pos n).getD i 0 = b) : image[pos.toNat + i]? = some b := by
  rw [← getElem?_readAt hi, ← h, List.getD_eq_getElem?_getD,
    List.getElem?_eq_getElem (by rwa [hlen]), Option.getD_some]

theorem getD_drop (src : List UInt8) (k : Nat) : (src.drop k).getD 0 0 = src.getD k 0 := by
  simp [List.getD_eq_getElem?_getD]

theorem tag_of_decodeUint32 {src : List UInt8} {v : UInt32} (h : decodeUint32 src = .ok v) :
    src.getD 0 0 = 0xa0 := by
  rw [decodeUint32] at h
  split at h
  · exact nomatch h
  · rename_i htag
    exact not_not.mp htag

theorem tag_of_decodeUint8 {src : List UInt8} {v : UInt8} (h : decodeUint8 src = .ok v) :
    src.getD 0 0 = 0x88 := by
  rw [decodeUint8] at h
  split at h
  · exact nomatch h
  · rename_i htag
    exact not_not.mp htag

theorem tags_of_blockDecode {src : List UInt8} {bl : Block} (h : blockDecode src = .ok bl) :
    src.getD 0 0 = 0x42 ∧ src.getD 1 0 = 0xa0 ∧ src.getD 6 0 = 0x88 := by
  rw [← getD_drop src 1, ← getD_drop src 6]
  rw [blockDecode] at h
  split at h
  · exact nomatch h
  · rename_i htag
    cases hid : decodeUint32 (src.drop 1) with
    | error rc =>
        rw [hid] at h
        exact nomatch h
    | ok id =>
    cases hflags : decodeUint8 (src.drop 6) with
    | error rc =>
        rw [hid, hflags] at h
        exact nomatch h
    | ok flags =>
        exact ⟨not_not.mp htag, tag_of_decodeUint32 hid, tag_of_decodeUint8 hflags⟩

theorem Sound.tags {fs : Fs} {bl : Block} (h : Sound fs bl) :
    fs.image[(blockIdPos fs bl.id).toNat]? = some 0x42 ∧
      fs.image[(blockIdPos fs bl.id).toNat + 1]? = some 0xa0 ∧
      fs.image[(blockIdPos fs bl.id).toNat + 6]? = some 0x88 := by
  obtain ⟨hvalid, hread⟩ := h
  rw [blockRead, if_neg (not_not_intro hvalid)] at hread
  generalize blockIdPos fs bl.id = pos at hread
  simp only at hread
  split at hread
  · exact nomatch hread
  · split at hread
    · exact nomatch hread
    · rename_i hlen
      rw [not_not] at hlen
      obtain ⟨htag, hid, hflags⟩ := tags_of_blockDecode hread
      refine ⟨?_, ?_, ?_⟩
      · exact getElem?_of_readAt hlen (by decide) htag
      · exact getElem?_of_readAt hlen (by decide) hid
      · exact getElem?_of_readAt hlen (by decide) hflags

theorem Sound.eq_of_pos {fs : Fs} {bl bl' : Block} (h : Sound fs bl) (h' : Sound fs bl')
    (hpos : (blockIdPos fs bl.id).toNat = (blockIdPos fs bl'.id).toNat) : bl = bl' := by
  have hread := h.2
  have hread' := h'.2
  rw [blockRead, if_neg (not_not_intro h.1), UInt32.toNat_inj.mp hpos] at hread
  rw [blockRead, if_neg (not_not_intro h'.1), hread] at hread'
  exact Except.ok.inj hread'

theorem Sound.eq_of_id {fs : Fs} {bl bl' : Block} (h : Sound fs bl) (h' : Sound fs bl')
    (hid : bl.id = bl'.id) : bl = bl' := by
  have hread := h.2
  rw [hid, h'.2] at hread
  exact (Except.ok.inj hread).symm

theorem disjoint_of_value {α β : Type} {f : α → β} {xs ys : List α} {a b : β}
    (hx : ∀ k ∈ xs, f k = a) (hy : ∀ k ∈ ys, f k = b) (hne : a ≠ b) : xs.Disjoint ys := by
  intro k hkx hky
  exact hne ((hx k hkx).symm.trans (hy k hky))

theorem length_lt_of_sound {fs : Fs} {blocks : List Block} (h : ∀ bl ∈ blocks, Sound fs bl)
    (hnodup : (blocks.map Block.id).Nodup) : blocks.length < 2 ^ 31 := by
  let starts : List Nat := blocks.map fun bl => (blockIdPos fs bl.id).toNat
  have hstarts : starts.Nodup := by
    refine List.pairwise_map.mpr ((List.pairwise_map.mp hnodup).imp_of_mem ?_)
    intro bl bl' hbl hbl' hne heq
    exact hne (congrArg Block.id ((h bl hbl).eq_of_pos (h bl' hbl') heq))
  have htags : ∀ k ∈ starts, fs.image[k]? = some 0x42 ∧ fs.image[k + 1]? = some 0xa0 ∧
      fs.image[k + 6]? = some 0x88 := by
    intro k hk
    obtain ⟨bl, hbl, rfl⟩ := List.mem_map.mp hk
    exact (h bl hbl).tags
  have hlt : ∀ k ∈ starts, k < 2 ^ 32 := by
    intro k hk
    obtain ⟨bl, -, rfl⟩ := List.mem_map.mp hk
    exact (blockIdPos fs bl.id).toNat_lt
  have hone : (starts.map (· + 1)).Nodup := hstarts.map fun _ _ => Nat.add_right_cancel
  have hsix : (starts.map (· + 6)).Nodup := hstarts.map fun _ _ => Nat.add_right_cancel
  have htag : ∀ k ∈ starts, fs.image[k]? = some 0x42 := fun k hk => (htags k hk).1
  have hid : ∀ k ∈ starts.map (· + 1), fs.image[k]? = some 0xa0 :=
    List.forall_mem_map.mpr fun k hk => (htags k hk).2.1
  have hflags : ∀ k ∈ starts.map (· + 6), fs.image[k]? = some 0x88 :=
    List.forall_mem_map.mpr fun k hk => (htags k hk).2.2
  have hall : (starts ++ (starts.map (· + 1) ++ starts.map (· + 6))).Nodup := by
    refine List.nodup_append'.mpr ⟨hstarts, List.nodup_append'.mpr ⟨hone, hsix, ?_⟩, ?_⟩
    · exact disjoint_of_value hid hflags (by decide)
    · rw [List.disjoint_append_right]
      constructor
      · exact disjoint_of_value htag hid (by decide)
      · exact disjoint_of_value htag hflags (by decide)
  have hsub : starts ++ (starts.map (· + 1) ++ starts.map (· + 6)) ⊆ List.range (2 ^ 32 + 6) := by
    intro k hk
    rw [List.mem_range]
    simp only [List.mem_append, List.mem_map] at hk
    rcases hk with hk | ⟨i, hi, rfl⟩ | ⟨i, hi, rfl⟩
    · have := hlt k hk
      omega
    · have := hlt i hi
      omega
    · have := hlt i hi
      omega
  have hlen := (List.subperm_of_subset hall hsub).length_le
  simp only [List.length_append, List.length_map, List.length_range, starts] at hlen
  omega

theorem blockListWalk_of_isChain {fs : Fs} {ino : Inode} {bl : Block} {before rest : List Block}
    {fuel : Nat} (hvalid : blockIdIsValid fs bl.id) (hchain : IsChain fs bl.nextBlock rest)
    (hfuel : rest.length ≤ fuel) (hlen : before.length + 1 + rest.length ≤ 2 ^ 31) :
    blockListWalk fs ino fuel bl (before ++ [bl]) = .ok (.ok, before ++ bl :: rest) := by
  induction rest generalizing bl before fuel with
  | nil =>
      rw [blockListWalk.eq_def, if_pos (show bl.nextBlock = 0 from hchain)]
  | cons next rest ih =>
      obtain ⟨hnext, hread, hid, hrest⟩ := hchain
      obtain ⟨fuel, rfl⟩ := Nat.exists_eq_succ_of_ne_zero
        (by simp only [List.length_cons] at hfuel; omega : fuel ≠ 0)
      have hne := ne_zero_of_blockIdIsValid hnext
      have hreadNext : blockReadNext fs bl = .ok next := by
        rw [blockReadNext, if_neg (not_not_intro hvalid), if_neg hne, hread]
      have happend : blockListAppend ino (before ++ [bl]) next =
          .ok (before ++ [bl] ++ [next]) := by
        rw [List.length_cons] at hlen
        rw [blockListAppend_concat, if_neg (by omega), if_neg (not_not_intro hid.symm)]
      rw [blockListWalk, if_neg hne]
      simp only [hreadNext, happend, Run.ok_bind]
      rw [ih (by rwa [hid]) hrest (by simpa using hfuel) (by
        rw [List.length_cons] at hlen
        rw [List.length_append, List.length_singleton]
        omega)]
      simp

theorem blockListLoad_of_isChain {fs : Fs} {ino : Inode} {blocks : List Block} {fuel : Nat}
    (hvalid : inodeIdIsValid fs ino.id) (hchain : IsChain fs ino.firstBlock blocks)
    (hfuel : blocks.length ≤ fuel) (hlen : blocks.length ≤ 2 ^ 31) :
    blockListLoad fs ino fuel = .ok (.ok, blocks) := by
  rw [blockListLoad, if_neg (not_not_intro hvalid)]
  cases blocks with
  | nil => rw [if_pos (show ino.firstBlock = 0 from hchain)]
  | cons bl rest =>
      obtain ⟨hfirst, hread, hid, hrest⟩ := hchain
      have happend : blockListAppend ino [] bl = .ok ([] ++ [bl]) := by
        rw [blockListAppend_nil, if_neg (not_not_intro hid.symm), List.nil_append]
      rw [if_neg (ne_zero_of_blockIdIsValid hfirst)]
      simp only [hread, happend, Run.ok_bind]
      rw [blockListWalk_of_isChain (by rwa [hid]) hrest
        (by simp only [List.length_cons] at hfuel; omega)
        (by simp only [List.length_cons, List.length_nil] at hlen ⊢; omega)]
      rfl

/-- The inode has a chain of blocks, and `bytes` are the first `data_size` bytes of it. -/
structure Stores (fs : Fs) (ino : Inode) (blocks : List Block) (bytes : List UInt8) : Prop where
  valid : inodeIdIsValid fs ino.id
  chain : IsChain fs ino.firstBlock blocks
  acyclic : (blocks.map Block.id).Nodup
  blockSize : fs.options.blockSize ≠ 0
  length : bytes.length = ino.dataSize.toNat
  byte : ∀ k < bytes.length, chainByte fs blocks k = bytes[k]?

/-- A handle of the inode at position `k`, before or after its block list is loaded. -/
structure HandleAt (ino : Inode) (blocks : List Block) (k : Nat) (f : File) : Prop where
  inode : f.inode = ino
  posabs : f.posabs.toNat = k
  blocks : f.blocks = [] ∨ f.blocks = blocks

section Reading

variable {fs : Fs} {ino : Inode} {blocks : List Block} {bytes : List UInt8} {fuel k : Nat}
  {f : File}

theorem Stores.blockForPos (h : Stores fs ino blocks bytes) (hf : HandleAt ino blocks k f)
    (hk : k < bytes.length) (hfuel : blocks.length ≤ fuel) :
    ∃ bl, blocks[k / fs.options.blockSize.toNat]? = some bl ∧
      fs.image[(blockDataPos fs bl +
        UInt32.ofNat (k % fs.options.blockSize.toNat)).toNat]? = bytes[k]? ∧
      blockForPos fs fuel f f.posabs = .ok (.ok bl, { f with blocks }) := by
  have hbyte := h.byte k hk
  rw [List.getElem?_eq_getElem hk] at hbyte
  obtain ⟨bl, hbl, hdata⟩ := Option.bind_eq_some_iff.mp hbyte
  refine ⟨bl, hbl, by rw [hdata, List.getElem?_eq_getElem hk], ?_⟩
  have hle := length_le_of_sound h.chain.sound h.acyclic
  have hshort := length_lt_of_sound h.chain.sound h.acyclic
  have hlt := (List.getElem?_eq_some_iff.mp hbl).1
  have hbc : (1 + f.posabs / fs.options.blockSize).toNat =
      k / fs.options.blockSize.toNat + 1 := by
    rw [UInt32.toNat_add, UInt32.toNat_div, hf.posabs]
    change (1 + k / fs.options.blockSize.toNat) % 2 ^ 32 = _
    generalize k / fs.options.blockSize.toNat = q at hlt ⊢
    omega
  have hload : loadedBlocks fs fuel f = .ok (.ok, blocks) := by
    rw [loadedBlocks, hf.inode]
    split
    · exact blockListLoad_of_isChain h.valid h.chain hfuel hshort.le
    · rename_i hne
      rw [hf.blocks.resolve_left hne]
  have hpos : ¬ f.inode.dataSize ≤ f.posabs := by
    rw [hf.inode, UInt32.le_iff_toNat_le, hf.posabs, ← h.length]
    omega
  have hcount' : ¬ 1 + f.posabs / fs.options.blockSize > fs.options.blockCount := by
    rw [gt_iff_lt, UInt32.lt_iff_toNat_lt, hbc]
    omega
  rw [WhefsFiles.blockForPos, if_neg hpos, if_neg h.blockSize, if_neg hcount']
  simp only [hload, Run.ok_bind, hbc, Nat.add_sub_cancel, hbl]
  rfl

theorem readAt_one {image : List UInt8} {pos : UInt32} {b : UInt8}
    (h : image[pos.toNat]? = some b) : readAt image pos 1 = [b] := by
  obtain ⟨hlt, rfl⟩ := List.getElem?_eq_some_iff.mp h
  rw [readAt, List.drop_eq_getElem_cons hlt]
  rfl

theorem readLength_one (hbs : fs.options.blockSize ≠ 0)
    (hpos : f.posabs.toNat < f.inode.dataSize.toNat) : readLength fs f 1 = 1 := by
  have hbs' : 0 < fs.options.blockSize.toNat :=
    Nat.pos_of_ne_zero (by rwa [← UInt32.toNat_inj.ne] at hbs)
  have hmod := Nat.mod_lt f.posabs.toNat hbs'
  have hleft : ¬ (1 : UInt32) > fs.options.blockSize - f.posabs % fs.options.blockSize := by
    rw [gt_iff_lt, UInt32.lt_iff_toNat_lt, UInt32.toNat_sub_of_le _ _
      (by rw [UInt32.le_iff_toNat_le, UInt32.toNat_mod]; omega), UInt32.toNat_mod]
    change ¬ _ < 1
    omega
  rw [readLength]
  simp only [if_neg hleft]
  split
  · rename_i hend
    rw [ge_iff_le, UInt32.le_iff_toNat_le, UInt32.toNat_add] at hend
    change f.inode.dataSize.toNat ≤ (1 + f.posabs.toNat) % 2 ^ 32 at hend
    rw [← UInt32.toNat_inj, UInt32.toNat_sub_of_le _ _ (by rw [UInt32.le_iff_toNat_le]; omega)]
    change _ = 1
    omega
  · rfl

theorem Stores.inodeReadImpl_one (h : Stores fs ino blocks bytes)
    (hf : HandleAt ino blocks k f) (hk : k < bytes.length) (hfuel : blocks.length ≤ fuel) :
    inodeReadImpl fs fuel f 1 = .ok ([bytes[k]], false, ⟨ino, f.posabs + 1, blocks⟩) ∧
      HandleAt ino blocks (k + 1) ⟨ino, f.posabs + 1, blocks⟩ := by
  obtain ⟨bl, hbl, hdata, hblock⟩ := h.blockForPos hf hk hfuel
  have hlt : f.posabs.toNat < f.inode.dataSize.toNat := by
    rw [hf.inode, hf.posabs, ← h.length]
    exact hk
  have hpos : ¬ f.posabs ≥ f.inode.dataSize := by
    rw [ge_iff_le, UInt32.le_iff_toNat_le]
    omega
  have hmove : (f.posabs + 1).toNat = k + 1 := by
    rw [toNat_add_one (UInt32.lt_iff_toNat_lt.mpr hlt), hf.posabs]
  have hgt : f.posabs + 1 > f.posabs := by
    rw [gt_iff_lt, UInt32.lt_iff_toNat_lt, hmove, hf.posabs]
    omega
  have hrdpos : f.posabs % fs.options.blockSize =
      UInt32.ofNat (k % fs.options.blockSize.toNat) := by
    rw [← hf.posabs, ← UInt32.toNat_mod, UInt32.ofNat_toNat]
  rw [List.getElem?_eq_getElem hk, ← hrdpos] at hdata
  have hlength : readLength fs { f with blocks } 1 = 1 := readLength_one h.blockSize hlt
  have hsz : UInt32.ofNat [bytes[k]].length = 1 := rfl
  refine ⟨?_, ⟨rfl, hmove, Or.inr rfl⟩⟩
  rw [WhefsFiles.inodeReadImpl, if_neg (by decide), if_neg hpos, hblock]
  simp only [Run.ok_bind, hlength]
  rw [show (1 : UInt32).toNat = 1 from rfl, readAt_one hdata]
  simp only [hsz]
  rw [if_neg (by decide), if_pos hgt]
  simp [hf.inode, pure, Except.pure]

theorem Stores.inodeRead_one (h : Stores fs ino blocks bytes) (hf : HandleAt ino blocks k f)
    (hk : k < bytes.length) (hfuel : blocks.length ≤ fuel) (rounds : Nat) :
    inodeRead fs fuel (rounds + 1) f 1 = .ok ([bytes[k]], ⟨ino, f.posabs + 1, blocks⟩) := by
  rw [inodeRead, (h.inodeReadImpl_one hf hk hfuel).1]
  rfl

theorem Stores.inodeRead_end (h : Stores fs ino blocks bytes) (hf : HandleAt ino blocks k f)
    (hk : bytes.length ≤ k) (rounds : Nat) : inodeRead fs fuel (rounds + 1) f 1 = .ok ([], f) := by
  have hpos : f.posabs ≥ f.inode.dataSize := by
    rw [ge_iff_le, UInt32.le_iff_toNat_le, hf.inode, hf.posabs, ← h.length]
    exact hk
  rw [inodeRead, inodeReadImpl, if_neg (by decide), if_pos hpos]
  rfl

/-- `whefs_fread` from position `k` delivers the bytes from there on, and the first byte
loads the block list. -/
theorem Stores.fread (h : Stores fs ino blocks bytes) (hf : HandleAt ino blocks k f)
    (hk : k ≤ bytes.length) (hfuel : blocks.length < fuel) (count : Nat) :
    ∃ f', fread fs fuel count f = .ok ((bytes.drop k).take count, f') ∧
      HandleAt ino blocks (min (k + count) bytes.length) f' ∧
      (f.blocks = blocks ∨ 0 < count ∧ k < bytes.length → f'.blocks = blocks) := by
  obtain ⟨rounds, rfl⟩ := Nat.exists_eq_succ_of_ne_zero (by omega : fuel ≠ 0)
  induction count generalizing k f with
  | zero =>
      refine ⟨f, by simp [WhefsFiles.fread], by simpa [hk] using hf, ?_⟩
      rintro (hloaded | ⟨hcount, -⟩)
      · exact hloaded
      · exact absurd hcount (lt_irrefl 0)
  | succ count ih =>
      rcases Nat.lt_or_eq_of_le hk with hlt | rfl
      · obtain ⟨f', hrest, hf', hloaded⟩ :=
          ih (h.inodeReadImpl_one hf hlt hfuel.le).2 hlt
        refine ⟨f', ?_, ?_, fun _ => hloaded (Or.inl rfl)⟩
        · rw [WhefsFiles.fread, h.inodeRead_one hf hlt hfuel.le rounds]
          simp only [Run.ok_bind, hrest]
          rw [List.drop_eq_getElem_cons hlt]
          rfl
        · rwa [show k + (count + 1) = k + 1 + count by omega]
      · refine ⟨f, ?_, by simpa using hf, ?_⟩
        · rw [WhefsFiles.fread, h.inodeRead_end hf le_rfl rounds]
          simp
          rfl
        · rintro (hloaded | ⟨-, hlt⟩)
          · exact hloaded
          · exact absurd hlt (lt_irrefl _)

end Reading

/-- The inode record of `id` can be read, and it carries its own id. -/
structure InodeIntact (fs : Fs) (id : UInt32) (ino : Inode) : Prop where
  read : inodeIdRead fs id inodeEmpty = (.ok, ino)
  id_eq : ino.id = id

theorem decodeUint32_ne {src : List UInt8} : decodeUint32 src ≠ .error .ok := by
  rw [decodeUint32]
  split <;> simp

theorem decodeUint8_ne {src : List UInt8} : decodeUint8 src ≠ .error .ok := by
  rw [decodeUint8]
  split <;> simp

theorem ne_error {α : Type} {x : Except Rc α} {rc : Rc} {dest ino : Inode}
    (h : (rc, dest) = (.ok, ino)) (hx : x ≠ .error .ok) : x ≠ .error rc := by
  obtain rfl : rc = .ok := (Prod.ext_iff.mp h).1
  exact hx

theorem inodeDecode_eq_ok_iff {dest ino : Inode} {src : List UInt8} :
    inodeDecode dest src = (.ok, ino) ↔
      src.getD 0 0 = 0x49 ∧ decodeUint32 (src.drop 1) = .ok ino.id ∧
        decodeUint8 (src.drop 6) = .ok ino.flags ∧ decodeUint32 (src.drop 8) = .ok ino.mtime ∧
        decodeUint32 (src.drop 13) = .ok ino.dataSize ∧
        decodeUint32 (src.drop 18) = .ok ino.firstBlock := by
  constructor
  · intro h
    rw [inodeDecode] at h
    split at h
    · simp at h
    rename_i htag
    split at h
    · exact absurd ‹_› (ne_error h decodeUint32_ne)
    rename_i id hid
    split at h
    · exact absurd ‹_› (ne_error h decodeUint8_ne)
    rename_i flags hflags
    split at h
    · exact absurd ‹_› (ne_error h decodeUint32_ne)
    rename_i mtime hmtime
    split at h
    · exact absurd ‹_› (ne_error h decodeUint32_ne)
    rename_i dataSize hsize
    split at h
    · exact absurd ‹_› (ne_error h decodeUint32_ne)
    rename_i firstBlock hfirst
    obtain rfl := (Prod.ext_iff.mp h).2
    exact ⟨not_not.mp htag, hid, hflags, hmtime, hsize, hfirst⟩
  · rintro ⟨htag, hid, hflags, hmtime, hsize, hfirst⟩
    rw [inodeDecode, if_neg (not_not_intro htag)]
    simp only [hid, hflags, hmtime, hsize, hfirst]

/-- What the inode's record is read from, for whatever the target of the read held. -/
structure RecordDecodes (fs : Fs) (id : UInt32) (ino : Inode) : Prop where
  valid : inodeIdIsValid fs id
  pos_ne : inodeIdPos fs id ≠ 0
  complete : (readAt fs.image (inodeIdPos fs id) sizeofInode).length = sizeofInode
  decodes : ∀ dest,
    inodeDecode dest (readAt fs.image (inodeIdPos fs id) sizeofInode) = (.ok, ino)

theorem InodeIntact.recordDecodes {fs : Fs} {id : UInt32} {ino : Inode}
    (h : InodeIntact fs id ino) : RecordDecodes fs id ino := by
  obtain ⟨hread, rfl⟩ := h
  rw [inodeIdRead] at hread
  split at hread
  · simp at hread
  · rename_i hvalid
    simp only at hread
    split at hread
    · simp at hread
    · rename_i hpos
      split at hread
      · -- a short read leaves the id 0, which is not valid
        obtain rfl : inodeEmpty = ino := by simpa using hread
        simp [inodeIdIsValid, inodeEmpty] at hvalid
      · rename_i hlen
        exact ⟨not_not.mp hvalid, hpos, not_not.mp hlen, fun dest =>
          inodeDecode_eq_ok_iff.mpr (inodeDecode_eq_ok_iff.mp hread)⟩

theorem RecordDecodes.inodeIdRead {fs : Fs} {id : UInt32} {ino : Inode}
    (h : RecordDecodes fs id ino) (tgt : Inode) : inodeIdRead fs id tgt = (.ok, ino) := by
  rw [Whefs.inodeIdRead, if_neg (not_not_intro h.valid)]
  simp only [if_neg h.pos_ne]
  rw [if_neg (not_not_intro h.complete), h.decodes]

theorem RecordDecodes.devForInode {fs : Fs} {id : UInt32} {ino : Inode}
    (h : RecordDecodes fs id ino) : devForInode fs id = some ⟨ino, 0, []⟩ := by
  rw [WhefsFiles.devForInode, if_neg (not_not_intro h.valid)]
  simp only [h.inodeIdRead]

theorem RecordDecodes.tags {fs : Fs} {id : UInt32} {ino : Inode} (h : RecordDecodes fs id ino) :
    fs.image[(inodeIdPos fs id).toNat]? = some 0x49 ∧
      fs.image[(inodeIdPos fs id).toNat + 1]? = some 0xa0 := by
  have hlen := h.complete
  obtain ⟨htag, hid, -⟩ := inodeDecode_eq_ok_iff.mp (h.decodes inodeEmpty)
  have hidtag := tag_of_decodeUint32 hid
  rw [getD_drop] at hidtag
  constructor
  · exact getElem?_of_readAt hlen (by decide) htag
  · exact getElem?_of_readAt hlen (by decide) hidtag

end Iqiq.WhefsFiles
