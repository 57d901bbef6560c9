import Iqiq.WhefsWrite

namespace Iqiq.WhefsGrowth

open Iqiq.NextPath
open Iqiq.Whefs
open Iqiq.WhefsAllocation
open Iqiq.WhefsChains
open Iqiq.WhefsDisk
open Iqiq.WhefsEncode
open Iqiq.WhefsFiles
open Iqiq.WhefsFree
open Iqiq.WhefsVolume
open Iqiq.WhefsWrite

section

variable {opt : Options}

structure Formed (v : Volume opt) (hints : Hints) (chains : UInt32 → List UInt32) : Prop where
  chained : Chained v chains
  hinted : Hinted v hints

/-- What an opened inode has in memory: its size may be ahead of the record's, and its
block list is empty until it is loaded. -/
structure Opened (v : Volume opt) (chains : UInt32 → List UInt32) (f : File) : Prop where
  isInode : IsInode opt f.inode.id
  firstBlock : f.inode.firstBlock = (v.inode f.inode.id).firstBlock
  flags : f.inode.flags = (v.inode f.inode.id).flags
  dataSize : chains f.inode.id = [] → f.inode.dataSize = (v.inode f.inode.id).dataSize
  blocks : f.blocks = [] ∨ f.blocks = (chains f.inode.id).map v.block

/-- The inode `n` gets more blocks. -/
def extend (chains : UInt32 → List UInt32) (n : UInt32) (ids : List UInt32) :
    UInt32 → List UInt32 :=
  Function.update chains n (chains n ++ ids)

/-- The inode of `f` has got the first `k` free blocks. -/
structure Grown (v : Volume opt) (chains : UInt32 → List UInt32) (f : File) (k : Nat)
    (w : Volume opt) (hints : Hints) (f' : File) : Prop where
  formed : Formed w hints (extend chains f.inode.id ((freeIds v).take k))
  opened : Opened w (extend chains f.inode.id ((freeIds v).take k)) f'
  blocks : f'.blocks = (chains f.inode.id ++ (freeIds v).take k).map w.block
  id_eq : f'.inode.id = f.inode.id
  size : f'.inode.dataSize = f.inode.dataSize
  posabs : f'.posabs = f.posabs
  block : ∀ m, IsInode opt m → m ≠ f.inode.id → ∀ i ∈ chains m, w.block i = v.block i
  data : w.data = v.data
  name : w.name = v.name
  inode : ∀ m, m ≠ f.inode.id → w.inode m = v.inode m
  flags : (w.inode f.inode.id).flags = (v.inode f.inode.id).flags
  dataSize : (w.inode f.inode.id).dataSize = (v.inode f.inode.id).dataSize
  free : freeIds w = (freeIds v).drop k

variable {v w : Volume opt} {hints : Hints} {chains : UInt32 → List UInt32} {f : File}
  {n id : UInt32} {ids rest : List UInt32}

theorem Formed.setName (h : Formed v hints chains) {name : List UInt8}
    {hlen : name.length ≤ opt.filenameLength.toNat} {hzero : 0 ∉ name} :
    Formed (v.setName id name hlen hzero) hints chains :=
  ⟨⟨fun n hn => (h.chained.chain n hn).congr fun _ _ => rfl, h.chained.used, h.chained.disjoint,
    h.chained.blank⟩, ⟨h.hinted.block_pos, h.hinted.block, h.hinted.inode⟩⟩

@[simp] theorem extend_self (chains : UInt32 → List UInt32) (n : UInt32) (ids : List UInt32) :
    extend chains n ids n = chains n ++ ids :=
  Function.update_self ..

@[simp] theorem extend_nil (chains : UInt32 → List UInt32) (n : UInt32) :
    extend chains n [] = chains := by
  rw [extend, List.append_nil, Function.update_eq_self]

theorem extend_extend (chains : UInt32 → List UInt32) (n : UInt32) (ids ids' : List UInt32) :
    extend (extend chains n ids) n ids' = extend chains n (ids ++ ids') := by
  rw [extend, extend_self, extend, Function.update_idem, extend, List.append_assoc]

theorem blockUsed_setBlock (v : Volume opt) (bl : Block) (i : UInt32) :
    BlockUsed (v.setBlock bl) i ↔ if i = bl.id then isUsed bl.flags = true else BlockUsed v i := by
  rw [BlockUsed, Volume.setBlock_block]
  split
  · rename_i heq
    rw [heq, Function.update_self]
  · rename_i hne
    rw [Function.update_of_ne hne]
    rfl

theorem blockUsed_taken (v : Volume opt) (id i : UInt32) :
    BlockUsed (v.setBlock (taken v id)) i ↔ BlockUsed v i ∨ i = id := by
  have hid : (taken v id).id = id := v.block_id id
  have hflags : isUsed (taken v id).flags = true := (by decide : isUsed (1 : UInt8) = true)
  rw [blockUsed_setBlock, hid]
  split
  · rename_i heq
    exact iff_of_true hflags (Or.inr heq)
  · rename_i hne
    exact ⟨Or.inl, fun h => h.resolve_right hne⟩

theorem blockCount_lt (hopt : Formattable opt) : opt.blockCount.toNat < 2 ^ 27 := by
  have hfits := hopt.fits
  have hsize := hopt.blockSize
  have hwidth : opt.blockCount.toNat * 46 ≤ opt.blockCount.toNat * blockWidth opt :=
    Nat.mul_le_mul_left _ (by rw [blockWidth]; omega)
  rw [totalSize] at hfits
  omega

theorem blockListAdd_nil_disk (hopt : Formattable opt) {ino : Inode} (hino : IsInode opt ino.id)
    (hzero : ino.firstBlock = 0) (bl : Block) :
    blockListAdd (disk v hints) ino [] bl = .ok ({ ino with firstBlock := bl.id }, [bl],
      disk (v.setInode { ino with firstBlock := bl.id })
        (lowerInode hints { ino with firstBlock := bl.id })) := by
  have hflush := @inodeFlush_disk opt v hints hopt { ino with firstBlock := bl.id } hino
  rw [blockListAdd, if_neg (by simp), List.getLast?_nil]
  simp only [hzero, if_true, hflush]

theorem blockListAdd_concat_disk (hopt : Formattable opt) (ino : Inode) {blocks : List Block}
    {prev : Block} (hprev : IsBlock opt prev.id) (hnext : prev.nextBlock = 0)
    (hlen : blocks.length + 1 < 2 ^ 31) (bl : Block) :
    blockListAdd (disk v hints) ino (blocks ++ [prev]) bl =
      .ok (ino, blocks ++ [{ prev with nextBlock := bl.id }] ++ [bl],
        disk (v.setBlock { prev with nextBlock := bl.id }) hints) := by
  have hflush := @blockFlush_disk opt v hints hopt { prev with nextBlock := bl.id } hprev
  rw [blockListAdd, if_neg (by rw [List.length_append, List.length_singleton]; omega),
    List.getLast?_concat]
  simp only [hnext, if_true, hflush, List.dropLast_concat]

theorem Grown.first (hopt : Formattable opt) (h : Formed v hints chains)
    (hf : Opened v chains f) (hchain : chains f.inode.id = []) (hfree : freeIds v = id :: rest)
    {ino : Inode} (hino : ino = { f.inode with firstBlock := id }) :
    Grown v chains f 1 ((v.setBlock (taken v id)).setInode ino)
      (lowerInode { hints with unusedBlockStart := id + 1 } ino)
      { f with inode := ino, blocks := [taken v id] } := by
  obtain ⟨hid, hunused⟩ := mem_freeIds.mp (hfree ▸ List.mem_cons_self : id ∈ freeIds v)
  have htaken : (taken v id).id = id := v.block_id id
  have hn : ino.id = f.inode.id := by rw [hino]
  have hformed : Formed ((v.setBlock (taken v id)).setInode ino)
      (lowerInode { hints with unusedBlockStart := id + 1 } ino)
      (extend chains f.inode.id [id]) := by
    constructor
    · rw [extend, hchain, List.nil_append]
      exact h.chained.first hf.isInode hid hunused hn (by rw [hino])
    · exact (h.hinted.taken hopt hid fun i hi hlt => used_below hfree hi hlt).setInode _
  have htake : (freeIds v).take 1 = [id] := by rw [hfree]; rfl
  have hinode : ((v.setBlock (taken v id)).setInode ino).inode f.inode.id = ino := by
    rw [Volume.setInode_inode, ← hn]
    exact Function.update_self ..
  have hblock : ((v.setBlock (taken v id)).setInode ino).block id = taken v id := by
    change (v.setBlock (taken v id)).block id = _
    rw [Volume.setBlock_block, htaken, Function.update_self]
  constructor
  · rwa [htake]
  · rw [htake]
    refine ⟨by rw [hn]; exact hf.isInode, ?_, ?_, ?_, ?_⟩
    · rw [hn, hinode]
    · rw [hn, hinode]
    · rw [hn, hinode]
      exact fun _ => rfl
    · refine Or.inr ?_
      rw [hn, extend_self, hchain, List.nil_append, List.map_singleton, hblock]
  · rw [htake, hchain, List.nil_append, List.map_singleton, hblock]
  · exact hn
  · rw [hino]
  · rfl
  · intro m hm _ i hi
    have hne : i ≠ id := by
      rintro rfl
      exact hunused (h.chained.used m hm i hi)
    change (v.setBlock (taken v id)).block i = _
    rw [Volume.setBlock_block, htaken, Function.update_of_ne hne]
  · rfl
  · rfl
  · intro m hm
    rw [Volume.setInode_inode, Function.update_of_ne (hn ▸ hm)]
    rfl
  · rw [hinode, hino, ← hf.flags]
  · rw [hinode, hino, ← hf.dataSize hchain]
  · rw [hfree]
    exact freeIds_of_taken hfree fun i => blockUsed_taken v id i

theorem Grown.next (hopt : Formattable opt) (h : Formed v hints chains)
    (hf : Opened v chains f) {a : UInt32} (hchain : chains f.inode.id = ids ++ [a])
    (hfree : freeIds v = id :: rest) :
    Grown v chains f 1 ((v.setBlock (taken v id)).setBlock { v.block a with nextBlock := id })
      { hints with unusedBlockStart := id + 1 }
      { f with
        blocks := ids.map v.block ++ [{ v.block a with nextBlock := id }] ++ [taken v id] } := by
  obtain ⟨hid, hunused⟩ := mem_freeIds.mp (hfree ▸ List.mem_cons_self : id ∈ freeIds v)
  have htaken : (taken v id).id = id := v.block_id id
  have haid : (v.block a).id = a := v.block_id a
  have hnodup := (h.chained.chain f.inode.id hf.isInode).nodup
  rw [hchain] at hnodup
  have hmem : ∀ i ∈ ids ++ [a], i ≠ id := by
    rintro i hi rfl
    exact hunused (h.chained.used f.inode.id hf.isInode i (by rwa [hchain]))
  have haused : isUsed (v.block a).flags = true :=
    h.chained.used f.inode.id hf.isInode a (by simp [hchain])
  have hblock : ∀ i, ((v.setBlock (taken v id)).setBlock
      { v.block a with nextBlock := id }).block i =
        if i = a then { v.block a with nextBlock := id }
        else if i = id then taken v id else v.block i := by
    intro i
    rw [Volume.setBlock_block, Volume.setBlock_block]
    simp only [Function.update_apply, haid, htaken]
  have hblocks : ids.map v.block ++ [{ v.block a with nextBlock := id }] ++ [taken v id] =
      (ids ++ [a] ++ [id]).map ((v.setBlock (taken v id)).setBlock
        { v.block a with nextBlock := id }).block := by
    have hids : ids.map v.block = ids.map ((v.setBlock (taken v id)).setBlock
        { v.block a with nextBlock := id }).block := by
      refine List.map_congr_left fun i hi => ?_
      have hne : i ≠ a := by
        rintro rfl
        exact (List.nodup_append.mp hnodup).2.2 i hi i List.mem_cons_self rfl
      rw [hblock, if_neg hne, if_neg (hmem i (by simp [hi]))]
    rw [List.map_append, List.map_append, List.map_singleton, List.map_singleton, hblock a,
      if_pos rfl, hblock id, if_neg (hmem a (by simp)).symm, if_pos rfl, hids]
  have htake : (freeIds v).take 1 = [id] := by rw [hfree]; rfl
  have hformed : Formed ((v.setBlock (taken v id)).setBlock { v.block a with nextBlock := id })
      { hints with unusedBlockStart := id + 1 } (extend chains f.inode.id [id]) := by
    constructor
    · rw [extend, hchain]
      exact h.chained.append hf.isInode hchain hid hunused
    · exact (h.hinted.taken hopt hid fun i hi hlt => used_below hfree hi hlt).setBlock haused
  constructor
  · rwa [htake]
  · rw [htake]
    refine ⟨hf.isInode, hf.firstBlock, hf.flags, ?_, Or.inr ?_⟩
    · intro hnil
      rw [extend_self] at hnil
      simp at hnil
    · rw [extend_self, hchain]
      exact hblocks
  · rw [htake, hchain]
    exact hblocks
  · rfl
  · rfl
  · rfl
  · intro m hm hne i hi
    have hia : i ≠ a := by
      rintro rfl
      exact h.chained.disjoint m f.inode.id hm hf.isInode hne hi (by simp [hchain])
    have hiid : i ≠ id := by
      rintro rfl
      exact hunused (h.chained.used m hm i hi)
    rw [hblock, if_neg hia, if_neg hiid]
  · rfl
  · rfl
  · exact fun _ _ => rfl
  · rfl
  · rfl
  · rw [hfree]
    refine freeIds_of_taken hfree fun i => ?_
    rw [blockUsed_setBlock]
    simp only [haid]
    split
    · rename_i heq
      exact iff_of_true haused (Or.inl (heq ▸ haused))
    · exact blockUsed_taken v id i

theorem blockListAdd_disk (hopt : Formattable opt) (h : Formed v hints chains)
    (hf : Opened v chains f) (hblocks : f.blocks = (chains f.inode.id).map v.block)
    (hfree : freeIds v = id :: rest) :
    ∃ w hints' inode blocks, blockListAdd (disk (v.setBlock (taken v id))
        { hints with unusedBlockStart := id + 1 }) f.inode f.blocks (taken v id) =
          .ok (inode, blocks, disk w hints') ∧
      Grown v chains f 1 w hints' { f with inode, blocks } ∧
      blocks.getLast? = some (taken v id) := by
  have htaken : (taken v id).id = id := v.block_id id
  have hchain := h.chained.chain f.inode.id hf.isInode
  rw [hblocks]
  rcases List.eq_nil_or_concat' (chains f.inode.id) with hnil | ⟨ids, a, hids⟩
  · rw [hnil] at hchain
    have hzero : f.inode.firstBlock = 0 := hf.firstBlock.trans (chain_nil_iff.mp hchain)
    rw [hnil, List.map_nil, blockListAdd_nil_disk hopt hf.isInode hzero, htaken]
    exact ⟨_, _, _, _, rfl, Grown.first hopt h hf hnil hfree rfl, rfl⟩
  · have hle := hchain.length_le
    have hcount := blockCount_lt hopt
    rw [hids] at hchain hle
    have haid : (v.block a).id = a := v.block_id a
    have hprev : IsBlock opt (v.block a).id := by
      rw [haid]
      exact hchain.isBlock a (by simp)
    rw [hids, List.map_append, List.map_singleton, blockListAdd_concat_disk hopt f.inode hprev
      (path_concat.mp hchain.path).2 (by
        rw [List.length_append, List.length_singleton] at hle
        rw [List.length_map]
        omega), htaken]
    exact ⟨_, _, _, _, rfl, Grown.next hopt h hf hids hfree, List.getLast?_concat⟩

theorem Grown.refl (h : Formed v hints chains) (hf : Opened v chains f)
    (hblocks : f.blocks = (chains f.inode.id).map v.block) : Grown v chains f 0 v hints f := by
  constructor
  · rwa [List.take_zero, extend_nil]
  · rwa [List.take_zero, extend_nil]
  · rwa [List.take_zero, List.append_nil]
  · rfl
  · rfl
  · rfl
  · exact fun _ _ _ _ _ => rfl
  · rfl
  · rfl
  · exact fun _ _ => rfl
  · rfl
  · rfl
  · rw [List.drop_zero]

/-- What holds after one block more. -/
structure Stepped (v : Volume opt) (chains : UInt32 → List UInt32) (f : File) (rest : List UInt32)
    (hints : Hints) : Prop where
  formed : Formed v hints chains
  opened : Opened v chains f
  blocks : f.blocks = (chains f.inode.id).map v.block
  free : freeIds v = rest

theorem Grown.stepped {f' : File} (hfree : freeIds v = id :: rest)
    (h : Grown v chains f 1 w hints f') :
    Stepped w (extend chains f.inode.id [id]) f' rest hints := by
  have htake : (freeIds v).take 1 = [id] := by
    rw [hfree]
    rfl
  constructor
  · exact htake ▸ h.formed
  · exact htake ▸ h.opened
  · rw [h.blocks, h.id_eq, extend_self, htake]
  · rw [h.free, hfree]
    rfl

theorem Grown.trans {w' : Volume opt} {hints' : Hints} {f' f'' : File} {k : Nat}
    (hfree : freeIds v = id :: rest) (h : Grown v chains f 1 w hints f')
    (h' : Grown w (extend chains f.inode.id [id]) f' k w' hints' f'') :
    Grown v chains f (k + 1) w' hints' f'' := by
  have hrest := (h.stepped hfree).free
  have htake : (freeIds v).take (k + 1) = [id] ++ rest.take k := by
    rw [hfree]
    rfl
  have hchains : extend (extend chains f.inode.id [id]) f'.inode.id ((freeIds w).take k) =
      extend chains f.inode.id ((freeIds v).take (k + 1)) := by
    rw [h.id_eq, extend_extend, hrest, htake]
  have hn := h.id_eq
  constructor
  · exact hchains ▸ h'.formed
  · exact hchains ▸ h'.opened
  · rw [h'.blocks, hn, extend_self, List.append_assoc, hrest, htake]
  · exact h'.id_eq.trans hn
  · exact h'.size.trans h.size
  · exact h'.posabs.trans h.posabs
  · intro m hm hne i hi
    have hother : extend chains f.inode.id [id] m = chains m := Function.update_of_ne hne _ _
    rw [h'.block m hm (hn ▸ hne) i (hother.symm ▸ hi), h.block m hm hne i hi]
  · exact h'.data.trans h.data
  · exact h'.name.trans h.name
  · intro m hm
    rw [h'.inode m (hn ▸ hm), h.inode m hm]
  · have hflags := h'.flags
    rw [hn] at hflags
    exact hflags.trans h.flags
  · have hsize := h'.dataSize
    rw [hn] at hsize
    exact hsize.trans h.dataSize
  · rw [h'.free, hrest, hfree]
    rfl

theorem blockListExpand_found (hopt : Formattable opt) {left : Nat} (h : Formed v hints chains)
    (hf : Opened v chains f) (hblocks : f.blocks = (chains f.inode.id).map v.block)
    (hleft : left ≤ (freeIds v).length) {bl : Block}
    (hlast : left = 0 → f.blocks.getLast? = some bl) :
    ∃ w hints' f' found, blockListExpand left (disk v hints) f bl =
        .ok (.ok found, f', disk w hints') ∧
      Grown v chains f left w hints' f' ∧ f'.blocks.getLast? = some found := by
  induction left generalizing v hints chains f bl with
  | zero => exact ⟨v, hints, f, bl, rfl, Grown.refl h hf hblocks, hlast rfl⟩
  | succ left ih =>
      cases hfree : freeIds v with
      | nil => simp [hfree] at hleft
      | cons id rest =>
          obtain ⟨w, hints', inode, blocks, hadd, hgrown, hlast'⟩ :=
            blockListAdd_disk hopt h hf hblocks hfree
          have hstep := hgrown.stepped hfree
          have hleft' : left ≤ (freeIds w).length := by
            rw [hstep.free]
            rw [hfree, List.length_cons] at hleft
            omega
          obtain ⟨w', hints'', f', found, hrun, hgrown', hfound⟩ :=
            ih hstep.formed hstep.opened hstep.blocks hleft' fun _ => hlast'
          refine ⟨w', hints'', f', found, ?_, hgrown.trans hfree hgrown', hfound⟩
          rw [blockListExpand, blockNextFree_found hopt h.hinted hfree]
          simp only [Run.ok_bind, hadd]
          exact hrun

theorem blockListExpand_full (hopt : Formattable opt) {left : Nat} (h : Formed v hints chains)
    (hf : Opened v chains f) (hblocks : f.blocks = (chains f.inode.id).map v.block)
    (hleft : (freeIds v).length < left) (bl : Block) :
    ∃ w hints' f', blockListExpand left (disk v hints) f bl =
        .ok (.error .fsFull, f', disk w hints') ∧
      Grown v chains f (freeIds v).length w hints' f' := by
  induction left generalizing v hints chains f bl with
  | zero => exact absurd hleft (Nat.not_lt_zero _)
  | succ left ih =>
      cases hfree : freeIds v with
      | nil =>
          refine ⟨v, hints, f, ?_, Grown.refl h hf hblocks⟩
          rw [blockListExpand, blockNextFree_full hopt h.hinted hfree]
          rfl
      | cons id rest =>
          obtain ⟨w, hints', inode, blocks, hadd, hgrown, -⟩ :=
            blockListAdd_disk hopt h hf hblocks hfree
          have hstep := hgrown.stepped hfree
          have hleft' : (freeIds w).length < left := by
            rw [hstep.free]
            rw [hfree, List.length_cons] at hleft
            omega
          obtain ⟨w', hints'', f', hrun, hgrown'⟩ :=
            ih hstep.formed hstep.opened hstep.blocks hleft' (taken v id)
          rw [hstep.free] at hgrown'
          refine ⟨w', hints'', f', ?_, hgrown.trans hfree hgrown'⟩
          rw [blockListExpand, blockNextFree_found hopt h.hinted hfree]
          simp only [Run.ok_bind, hadd]
          exact hrun

theorem loadedBlocks_fs (hopt : Formattable opt) (h : Formed v hints chains)
    (hf : Opened v chains f) {fuel : Nat} (hfuel : opt.blockCount.toNat ≤ fuel) :
    loadedBlocks v.fs fuel f = .ok (.ok, (chains f.inode.id).map v.block) := by
  have hchain := h.chained.chain f.inode.id hf.isInode
  have hle := hchain.length_le
  have hcount := blockCount_lt hopt
  rw [loadedBlocks]
  split
  · rw [← hf.firstBlock] at hchain
    refine blockListLoad_of_isChain (Volume.inodeIdIsValid_fs.mpr hf.isInode)
      (hchain.isChain hopt) ?_ ?_
    · rw [List.length_map]
      omega
    · rw [List.length_map]
      omega
  · rename_i hne
    rw [hf.blocks.resolve_left hne]

theorem Opened.loaded (hf : Opened v chains f) :
    Opened v chains { f with blocks := (chains f.inode.id).map v.block } :=
  ⟨hf.isInode, hf.firstBlock, hf.flags, hf.dataSize, Or.inr rfl⟩

theorem Grown.of_loaded {blocks : List Block} {k : Nat} {f' : File}
    (h : Grown v chains { f with blocks } k w hints f') : Grown v chains f k w hints f' :=
  ⟨h.formed, h.opened, h.blocks, h.id_eq, h.size, h.posabs, h.block, h.data, h.name, h.inode,
    h.flags, h.dataSize, h.free⟩

variable {pos : UInt32} {fuel : Nat}

theorem blockSize_ne_zero (hopt : Formattable opt) : opt.blockSize ≠ 0 := by
  intro hzero
  have hsize := hopt.blockSize
  rw [hzero] at hsize
  exact absurd hsize (by decide)

theorem toNat_blocksNeeded (hopt : Formattable opt) (pos : UInt32) :
    (1 + pos / opt.blockSize).toNat = pos.toNat / opt.blockSize.toNat + 1 := by
  have hdiv : pos.toNat / opt.blockSize.toNat ≤ pos.toNat / 32 :=
    Nat.div_le_div_left hopt.blockSize (by decide)
  have := pos.toNat_lt
  rw [UInt32.toNat_add, UInt32.toNat_div]
  generalize pos.toNat / opt.blockSize.toNat = q at hdiv ⊢
  change (1 + q) % 2 ^ 32 = _
  omega

theorem blockForPosExpand_range (hopt : Formattable opt)
    (hpos : opt.blockCount.toNat ≤ pos.toNat / opt.blockSize.toNat) :
    blockForPosExpand fuel (disk v hints) f pos =
      .ok (.error (.of .rangeError), f, disk v hints) := by
  have hbs : ¬ (disk v hints).fs.options.blockSize = 0 := blockSize_ne_zero hopt
  have hcount : 1 + pos / (disk v hints).fs.options.blockSize >
      (disk v hints).fs.options.blockCount := by
    rw [disk_fs, fs_options, gt_iff_lt, UInt32.lt_iff_toNat_lt, toNat_blocksNeeded hopt]
    omega
  rw [blockForPosExpand]
  simp only
  rw [if_neg hbs, if_pos hcount]

theorem blockForPosExpand_eq (hopt : Formattable opt) (h : Formed v hints chains)
    (hf : Opened v chains f) (hfuel : opt.blockCount.toNat ≤ fuel)
    (hpos : pos.toNat / opt.blockSize.toNat < opt.blockCount.toNat) :
    blockForPosExpand fuel (disk v hints) f pos =
      match ((chains f.inode.id).map v.block)[pos.toNat / opt.blockSize.toNat]? with
      | some bl => .ok (.ok bl, { f with blocks := (chains f.inode.id).map v.block }, disk v hints)
      | none => blockListExpand
          (pos.toNat / opt.blockSize.toNat + 1 - (chains f.inode.id).length) (disk v hints)
          { f with blocks := (chains f.inode.id).map v.block } blockEmpty := by
  have hbs : ¬ (disk v hints).fs.options.blockSize = 0 := blockSize_ne_zero hopt
  have hcount : ¬ 1 + pos / (disk v hints).fs.options.blockSize >
      (disk v hints).fs.options.blockCount := by
    rw [disk_fs, fs_options, gt_iff_lt, UInt32.lt_iff_toNat_lt, toNat_blocksNeeded hopt]
    omega
  rw [blockForPosExpand]
  simp only
  rw [if_neg hbs, if_neg hcount, disk_fs, fs_options, loadedBlocks_fs hopt h hf hfuel]
  simp only [Run.ok_bind, toNat_blocksNeeded hopt, Nat.add_sub_cancel, List.length_map]
  rfl

/-- The block for a position, when the file has it or gets it. -/
theorem blockForPosExpand_found (hopt : Formattable opt) (h : Formed v hints chains)
    (hf : Opened v chains f) (hfuel : opt.blockCount.toNat ≤ fuel)
    (hpos : pos.toNat / opt.blockSize.toNat < opt.blockCount.toNat)
    (hfree : pos.toNat / opt.blockSize.toNat < (chains f.inode.id).length + (freeIds v).length) :
    ∃ w hints' f' bl, blockForPosExpand fuel (disk v hints) f pos =
        .ok (.ok bl, f', disk w hints') ∧
      Grown v chains f (pos.toNat / opt.blockSize.toNat + 1 - (chains f.inode.id).length)
        w hints' f' ∧ f'.blocks[pos.toNat / opt.blockSize.toNat]? = some bl := by
  rw [blockForPosExpand_eq hopt h hf hfuel hpos]
  rcases Nat.lt_or_ge (pos.toNat / opt.blockSize.toNat) (chains f.inode.id).length with hlt | hge
  · have hget := List.getElem?_eq_getElem
      (show pos.toNat / opt.blockSize.toNat < ((chains f.inode.id).map v.block).length by
        rwa [List.length_map])
    rw [hget, Nat.sub_eq_zero_of_le hlt]
    exact ⟨_, _, _, _, rfl, (Grown.refl h hf.loaded rfl).of_loaded, hget⟩
  · rw [List.getElem?_eq_none (by rwa [List.length_map])]
    obtain ⟨w, hints', f', found, hrun, hgrown, hlast⟩ :=
      @blockListExpand_found _ _ _ _ _ hopt
        (pos.toNat / opt.blockSize.toNat + 1 - (chains f.inode.id).length) h hf.loaded rfl
        (by omega) blockEmpty (by omega)
    refine ⟨w, hints', f', found, hrun, hgrown.of_loaded, ?_⟩
    have hlen : f'.blocks.length = pos.toNat / opt.blockSize.toNat + 1 := by
      rw [hgrown.blocks, List.length_map, List.length_append, List.length_take]
      simp only
      omega
    rw [List.getLast?_eq_getElem?, hlen, Nat.add_sub_cancel] at hlast
    exact hlast

/-- When there are too few free blocks, the file gets all of them. -/
theorem blockForPosExpand_full (hopt : Formattable opt) (h : Formed v hints chains)
    (hf : Opened v chains f) (hfuel : opt.blockCount.toNat ≤ fuel)
    (hpos : pos.toNat / opt.blockSize.toNat < opt.blockCount.toNat)
    (hfree : (chains f.inode.id).length + (freeIds v).length ≤ pos.toNat / opt.blockSize.toNat) :
    ∃ w hints' f', blockForPosExpand fuel (disk v hints) f pos =
        .ok (.error .fsFull, f', disk w hints') ∧
      Grown v chains f (freeIds v).length w hints' f' := by
  rw [blockForPosExpand_eq hopt h hf hfuel hpos,
    List.getElem?_eq_none (by rw [List.length_map]; omega)]
  obtain ⟨w, hints', f', hrun, hgrown⟩ :=
    @blockListExpand_full _ _ _ _ _ hopt
      (pos.toNat / opt.blockSize.toNat + 1 - (chains f.inode.id).length) h hf.loaded rfl
      (by omega) blockEmpty
  exact ⟨w, hints', f', hrun, hgrown.of_loaded⟩

end

end Iqiq.WhefsGrowth
