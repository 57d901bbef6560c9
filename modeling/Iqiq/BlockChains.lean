import Iqiq.LinkChain
import Iqiq.WhefsFiles

namespace Iqiq.BlockChains

open Iqiq.LinkChain
open Iqiq.Whefs
open Iqiq.WhefsFiles

/-- The record of the block `id` names `next` as the block that follows. -/
def Link (fs : Fs) (id next : UInt32) : Prop :=
  ∃ bl, Sound fs bl ∧ bl.id = id ∧ bl.nextBlock = next ∧ next ≠ 0

/-- `whefs_inode_block_list_load` returns, with at most `block_count` blocks in the list,
or an assertion fails, in at most `block_count` rounds of its loop. -/
def WalkEnds (fs : Fs) (ino : Inode) : Prop :=
  ∀ fuel, fs.options.blockCount.toNat ≤ fuel →
    blockListLoad fs ino fuel = .error .assertion ∨
      ∃ rc blocks, blockListLoad fs ino fuel = .ok (rc, blocks) ∧
        blocks.length ≤ fs.options.blockCount.toNat

section

variable {fs : Fs} {ino : Inode} {bl : Block} {before : List Block} {fuel : Nat}

theorem link_rightUnique (fs : Fs) : Relator.RightUnique (Link fs) := by
  rintro id next next' ⟨bl, hsound, hid, rfl, -⟩ ⟨bl', hsound', hid', rfl, -⟩
  rw [hsound.eq_of_id hsound' (hid.trans hid'.symm)]

theorem exists_sound_of_comesBack {id : UInt32} (h : ComesBack (Link fs) id) :
    ∃ bl, Sound fs bl ∧ bl.id = id ∧ bl.nextBlock ≠ 0 ∧ ComesBack (Link fs) bl.nextBlock := by
  obtain ⟨next, hlink⟩ := h.exists_link
  have hnext := h.step (link_rightUnique fs) hlink
  obtain ⟨bl, hsound, hid, rfl, hne⟩ := hlink
  exact ⟨bl, hsound, hid, hne, hnext⟩

theorem sound_of_blockRead {id : UInt32} (hne : id ≠ 0) (hread : blockRead fs id = .ok bl)
    (hid : bl.id = id) : Sound fs bl := by
  subst hid
  refine ⟨?_, hread⟩
  by_contra hvalid
  rw [blockRead, if_pos hvalid] at hread
  exact hne (by rw [← Except.ok.inj hread]; rfl)

theorem blockListWalk_round (hsound : Sound fs bl) (hne : bl.nextBlock ≠ 0) :
    (∃ rc, blockListWalk fs ino (fuel + 1) bl (before ++ [bl]) = .ok (rc, before ++ [bl])) ∨
    blockListWalk fs ino (fuel + 1) bl (before ++ [bl]) = .error .assertion ∨
    2 ^ 31 ≤ before.length + 1 ∧
      blockListWalk fs ino (fuel + 1) bl (before ++ [bl]) = .error .undefined ∨
    ∃ next, Sound fs next ∧ next.id = bl.nextBlock ∧
      blockListWalk fs ino (fuel + 1) bl (before ++ [bl]) =
        blockListWalk fs ino fuel next (before ++ [bl] ++ [next]) := by
  rw [blockListWalk, if_neg hne, blockReadNext, if_neg (not_not_intro hsound.1), if_neg hne]
  cases hread : blockRead fs bl.nextBlock with
  | error rc => exact Or.inl ⟨rc, rfl⟩
  | ok next =>
      simp only [blockListAppend_concat]
      split
      · rename_i hfull
        exact Or.inr (Or.inr (Or.inl ⟨hfull, rfl⟩))
      · rcases eq_or_ne bl.nextBlock next.id with hid | hid
        · rw [if_neg (not_not_intro hid)]
          exact Or.inr (Or.inr (Or.inr
            ⟨next, sound_of_blockRead hne hread hid.symm, hid.symm, rfl⟩))
        · rw [if_pos hid]
          exact Or.inr (Or.inl rfl)

/-- The blocks that a walk has loaded: each is sound, and each names the next one. -/
structure Walked (fs : Fs) (first : UInt32) (blocks : List Block) : Prop where
  sound : ∀ bl ∈ blocks, Sound fs bl
  links : (blocks.map Block.id).IsChain (Link fs)
  head : (blocks.map Block.id).head? = some first

theorem Walked.nodup {first : UInt32} {blocks : List Block} (h : Walked fs first blocks)
    (hback : ¬ ComesBack (Link fs) first) : (blocks.map Block.id).Nodup := by
  have hlinks := h.links
  have hhead := h.head
  cases hids : blocks.map Block.id with
  | nil => exact List.nodup_nil
  | cons id ids =>
      rw [hids] at hlinks hhead
      obtain rfl : id = first := Option.some.inj hhead
      exact nodup_of_not_comesBack hback hlinks

theorem Walked.append {first : UInt32} {next : Block} (h : Walked fs first (before ++ [bl]))
    (hne : bl.nextBlock ≠ 0) (hnext : Sound fs next) (hid : next.id = bl.nextBlock) :
    Walked fs first (before ++ [bl] ++ [next]) := by
  constructor
  · intro b hb
    rcases List.mem_append.mp hb with hb | hb
    · exact h.sound b hb
    · rwa [List.mem_singleton.mp hb]
  · have hlinks := h.links
    have hlink : Link fs bl.id next.id := by
      rw [hid]
      exact ⟨bl, h.sound bl (by simp), rfl, rfl, hne⟩
    simp only [List.map_append, List.map_cons, List.map_nil] at hlinks ⊢
    refine List.isChain_append.mpr ⟨hlinks, List.isChain_singleton _, ?_⟩
    simpa using hlink
  · rw [List.map_append, List.head?_append, h.head, Option.some_or]

/-- Without a way back the walk ends before it runs out of blocks. -/
theorem blockListWalk_ends {first : UInt32} (hback : ¬ ComesBack (Link fs) first)
    (h : Walked fs first (before ++ [bl]))
    (hfuel : fs.options.blockCount.toNat ≤ before.length + fuel) :
    blockListWalk fs ino fuel bl (before ++ [bl]) = .error .assertion ∨
      ∃ rc blocks, blockListWalk fs ino fuel bl (before ++ [bl]) = .ok (rc, blocks) ∧
        blocks.length ≤ fs.options.blockCount.toNat := by
  have hsound := h.sound bl (by simp)
  have hcount := length_le_of_sound h.sound (h.nodup hback)
  have hlen : (before ++ [bl]).length = before.length + 1 := by simp
  induction fuel generalizing before bl with
  | zero => omega
  | succ fuel ih =>
      rcases eq_or_ne bl.nextBlock 0 with hend | hne
      · rw [blockListWalk.eq_def, if_pos hend]
        exact Or.inr ⟨_, _, rfl, hcount⟩
      · rcases blockListWalk_round hsound hne with
          ⟨rc, hreturns⟩ | hassert | ⟨hfull, -⟩ | ⟨next, hnext, hid, hgoes⟩
        · exact Or.inr ⟨rc, _, hreturns, hcount⟩
        · exact Or.inl hassert
        · have hshort := length_lt_of_sound h.sound (h.nodup hback)
          omega
        · rw [hgoes]
          have hwalked := h.append hne hnext hid
          exact ih hwalked (by rw [hlen]; omega) hnext
            (length_le_of_sound hwalked.sound (hwalked.nodup hback)) (by simp)

theorem blockListWalk_comesBack (before : List Block) (hsound : Sound fs bl)
    (hback : ComesBack (Link fs) bl.id) :
    blockListWalk fs ino fuel bl (before ++ [bl]) = .error .running ∨
      blockListWalk fs ino fuel bl (before ++ [bl]) = .error .undefined := by
  induction fuel generalizing before bl with
  | zero =>
      obtain ⟨bl', hsound', hid, hne, -⟩ := exists_sound_of_comesBack hback
      obtain rfl := hsound'.eq_of_id hsound hid
      rw [blockListWalk.eq_def, if_neg hne]
      exact Or.inl rfl
  | succ fuel ih =>
      obtain ⟨bl', hsound', hid, hne, hback'⟩ := exists_sound_of_comesBack hback
      obtain rfl := hsound'.eq_of_id hsound hid
      obtain ⟨next, hnext, hnextId, -, -⟩ := exists_sound_of_comesBack hback'
      have hread : blockRead fs bl'.nextBlock = .ok next := by
        rw [← hnextId]
        exact hnext.2
      rw [blockListWalk, if_neg hne, blockReadNext, if_neg (not_not_intro hsound.1), if_neg hne,
        hread]
      simp only [blockListAppend_concat]
      split
      · exact Or.inr rfl
      · rw [if_neg (not_not_intro hnextId.symm)]
        exact ih _ hnext (by rwa [hnextId])

theorem blockListLoad_cases (fuel : Nat) (hvalid : inodeIdIsValid fs ino.id)
    (hfirst : ino.firstBlock ≠ 0) :
    (∃ rc, blockListLoad fs ino fuel = .ok (rc, [])) ∨
    blockListLoad fs ino fuel = .error .assertion ∨
    ∃ bl, Sound fs bl ∧ bl.id = ino.firstBlock ∧
      blockListLoad fs ino fuel = blockListWalk fs ino fuel bl ([] ++ [bl]) := by
  rw [blockListLoad, if_neg (not_not_intro hvalid), if_neg hfirst]
  cases hread : blockRead fs ino.firstBlock with
  | error rc => exact Or.inl ⟨rc, rfl⟩
  | ok bl =>
      simp only [blockListAppend_nil]
      rcases eq_or_ne ino.firstBlock bl.id with hid | hid
      · rw [if_neg (not_not_intro hid)]
        exact Or.inr (Or.inr ⟨bl, sound_of_blockRead hfirst hread hid.symm, hid.symm, rfl⟩)
      · rw [if_pos hid]
        exact Or.inr (Or.inl rfl)

theorem walkEnds_of_not_comesBack (hback : ¬ ComesBack (Link fs) ino.firstBlock) :
    WalkEnds fs ino := by
  intro fuel hfuel
  rcases em (inodeIdIsValid fs ino.id) with hvalid | hvalid
  · rcases eq_or_ne ino.firstBlock 0 with hfirst | hfirst
    · rw [blockListLoad, if_neg (not_not_intro hvalid), if_pos hfirst]
      exact Or.inr ⟨.ok, [], rfl, Nat.zero_le _⟩
    · rcases blockListLoad_cases fuel hvalid hfirst with
        ⟨rc, hreturns⟩ | hassert | ⟨bl, hsound, hid, hgoes⟩
      · exact Or.inr ⟨rc, [], hreturns, Nat.zero_le _⟩
      · exact Or.inl hassert
      · rw [hgoes]
        have hwalked : Walked fs ino.firstBlock ([] ++ [bl]) := by
          constructor
          · intro b hb
            rwa [List.mem_singleton.mp hb]
          · exact List.isChain_singleton _
          · simp [hid]
        exact blockListWalk_ends hback hwalked (by simpa using hfuel)
  · rw [blockListLoad, if_pos hvalid]
    exact Or.inr ⟨.argError, [], rfl, Nat.zero_le _⟩

theorem blockListLoad_comesBack (fuel : Nat) (hvalid : inodeIdIsValid fs ino.id)
    (hback : ComesBack (Link fs) ino.firstBlock) :
    blockListLoad fs ino fuel = .error .running ∨
      blockListLoad fs ino fuel = .error .undefined := by
  obtain ⟨bl, hsound, hid, -, -⟩ := exists_sound_of_comesBack hback
  have hfirst : ino.firstBlock ≠ 0 := by
    rw [← hid]
    exact ne_zero_of_blockIdIsValid hsound.1
  have hread : blockRead fs ino.firstBlock = .ok bl := by
    rw [← hid]
    exact hsound.2
  rw [blockListLoad, if_neg (not_not_intro hvalid), if_neg hfirst, hread]
  simp only [blockListAppend_nil]
  rw [if_neg (not_not_intro hid.symm)]
  exact blockListWalk_comesBack [] hsound (by rwa [hid])

theorem not_walkEnds_of_comesBack (hvalid : inodeIdIsValid fs ino.id)
    (hback : ComesBack (Link fs) ino.firstBlock) : ¬ WalkEnds fs ino := by
  intro hends
  have hendless := blockListLoad_comesBack fs.options.blockCount.toNat hvalid hback
  rcases hends _ le_rfl with hassert | ⟨rc, blocks, hreturns, -⟩
  · rw [hassert] at hendless
    simp at hendless
  · rw [hreturns] at hendless
    simp at hendless

/-- The walk ends in time exactly when the blocks do not lead back to one of them. -/
theorem walkEnds_iff (hvalid : inodeIdIsValid fs ino.id) :
    WalkEnds fs ino ↔ ¬ ComesBack (Link fs) ino.firstBlock :=
  ⟨fun hends hback => not_walkEnds_of_comesBack hvalid hback hends, walkEnds_of_not_comesBack⟩

end

end Iqiq.BlockChains
