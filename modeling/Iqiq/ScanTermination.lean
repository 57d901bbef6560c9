import Iqiq.BlockChains
import Iqiq.ScanReach

namespace Iqiq.ScanTermination

open Iqiq.BlockChains
open Iqiq.LinkChain
open Iqiq.NameCache
open Iqiq.ScanReach
open Iqiq.UnpackScan
open Iqiq.Whefs
open Iqiq.WhefsFiles
open Iqiq.WhefsNames

/-- The call is not cut off, and what it returns is as `p` says. -/
def Ends {α : Type} (p : α → Prop) : Run α → Prop
  | .ok a => p a
  | .error stop => stop ≠ .running

theorem ends_error {α : Type} {p : α → Prop} {stop : Stop} (h : stop ≠ .running) :
    Ends p (.error stop) := h

theorem Ends.bind {α β : Type} {p : α → Prop} {q : β → Prop} {x : Run α} {f : α → Run β}
    (hx : Ends p x) (hf : ∀ a, p a → Ends q (f a)) : Ends q (x >>= f) := by
  cases x with
  | ok a => exact hf a hx
  | error stop => exact hx

section

variable {fs : Fs} {fuel : Nat} {f : File} {cache : Cache}

theorem inodeNameGet_ends (fs : Fs) (cache : Cache) (id : UInt32) (tgt : List UInt8) :
    Ends (fun _ => True) (inodeNameGet fs cache id tgt) := by
  rw [inodeNameGet]
  split
  · trivial
  · simp only
    split
    · exact ends_error (by decide)
    · split
      · trivial
      · split
        · trivial
        · split
          · trivial
          · refine Ends.bind (p := fun _ => True) ?_ fun _ _ => trivial
            rw [stringCopyCstring]
            split
            · trivial
            · split
              · trivial
              · exact ends_error (by decide)

theorem byNameLoop_ends (name : List UInt8) (expectExact : Bool) (left : Nat) (i : UInt32)
    (rc : Rc) (cache : Cache) :
    Ends (fun _ => True) (byNameLoop fs name expectExact left i rc cache) := by
  induction left generalizing i rc cache with
  | zero => trivial
  | succ left ih =>
      rw [byNameLoop]
      refine (inodeNameGet_ends fs cache i []).bind ?_
      rintro ⟨rc', ns, cache'⟩ -
      simp only
      split
      · trivial
      · split
        · exact ih _ _ _
        · split
          · trivial
          · split
            · exact ends_error (by decide)
            · exact ih _ _ _

theorem fopen_ends (fs : Fs) (cache : Cache) (name : List UInt8) :
    Ends (fun _ => True) (fopen fs cache name) := by
  rw [fopen]
  split
  · trivial
  · refine Ends.bind (p := fun _ => True) ?_ fun _ _ => trivial
    rw [inodeByName]
    split
    · trivial
    · split
      · trivial
      · split
        · trivial
        · refine (byNameLoop_ends name _ _ _ _ _).bind ?_
          rintro ⟨found, cache'⟩ -
          cases found with
          | error rc => trivial
          | ok i => trivial

/-- Reading the file loads its blocks. -/
def WalksChain (fs : Fs) (ino : Inode) : Prop :=
  ino.dataSize ≠ 0 ∧ fs.options.blockSize ≠ 0 ∧ inodeIdIsValid fs ino.id

/-- The walk is not cut off, if there is one. -/
def LoadEnds (fs : Fs) (fuel : Nat) (ino : Inode) : Prop :=
  WalksChain fs ino → Ends (fun _ => True) (blockListLoad fs ino fuel)

theorem blockForPos_ends (hload : LoadEnds fs fuel f.inode) (pos : UInt32) :
    Ends (fun r => r.2.inode = f.inode) (blockForPos fs fuel f pos) := by
  rw [blockForPos]
  split
  · exact rfl
  · rename_i hpos
    simp only
    split
    · exact ends_error (by decide)
    · rename_i hbs
      split
      · exact rfl
      · have hblocks : Ends (fun _ => True) (loadedBlocks fs fuel f) := by
          rw [loadedBlocks]
          split
          · rcases em (inodeIdIsValid fs f.inode.id) with hvalid | hvalid
            · refine hload ⟨?_, hbs, hvalid⟩
              intro hzero
              rw [hzero] at hpos
              exact hpos (UInt32.le_iff_toNat_le.mpr (Nat.zero_le _))
            · rw [blockListLoad, if_pos hvalid]
              trivial
          · trivial
        refine hblocks.bind ?_
        rintro ⟨rc, blocks⟩ -
        simp only
        split
        · exact rfl
        · split
          · exact rfl
          · exact rfl

theorem inodeReadImpl_ends (hload : LoadEnds fs fuel f.inode) :
    Ends (fun r => r.2.1 = false ∧ r.2.2.inode = f.inode) (inodeReadImpl fs fuel f 1) := by
  rw [inodeReadImpl, if_neg (by decide)]
  split
  · exact ⟨rfl, rfl⟩
  · refine (blockForPos_ends hload f.posabs).bind ?_
    rintro ⟨block, f'⟩ hinode
    cases block with
    | error rc => exact ⟨rfl, hinode⟩
    | ok block =>
        simp only
        split
        · exact ⟨rfl, hinode⟩
        · rename_i hsz
          split
          · refine ⟨decide_eq_false ?_, hinode⟩
            -- only a read of no bytes asks for fewer than one
            rintro ⟨heq, hlt⟩
            have hzero : readLength fs f' 1 = 0 := by
              rw [UInt32.lt_iff_toNat_lt] at hlt
              exact UInt32.toNat_inj.mp (Nat.lt_one_iff.mp hlt)
            exact hsz (heq.trans hzero)
          · exact ⟨rfl, hinode⟩

theorem inodeRead_ends (hload : LoadEnds fs fuel f.inode) (rounds : Nat) :
    Ends (fun r => r.2.inode = f.inode) (inodeRead fs fuel (rounds + 1) f 1) := by
  rw [inodeRead]
  refine (inodeReadImpl_ends hload).bind ?_
  rintro ⟨bytes, keepGoing, f'⟩ ⟨rfl, hinode⟩
  exact hinode

theorem fread_ends (hload : LoadEnds fs fuel f.inode) (hfuel : 0 < fuel) (count : Nat) :
    Ends (fun _ => True) (fread fs fuel count f) := by
  obtain ⟨rounds, hrounds⟩ := Nat.exists_eq_succ_of_ne_zero (by omega : fuel ≠ 0)
  induction count generalizing f with
  | zero => trivial
  | succ count ih =>
      have hread := inodeRead_ends hload rounds
      rw [fread]
      rw [← Nat.succ_eq_add_one, ← hrounds] at hread
      refine hread.bind ?_
      rintro ⟨bytes, f'⟩ hinode
      simp only
      split
      · trivial
      · refine (ih (by rwa [show f'.inode = f.inode from hinode])).bind ?_
        rintro ⟨more, f''⟩ -
        trivial

end

section

variable {fs : Fs} {fuel : Nat} {stop : Stop}

theorem blockForPos_stops {ino : Inode} (hwalks : WalksChain fs ino)
    (hcount : fs.options.blockCount ≠ 0) (hload : blockListLoad fs ino fuel = .error stop) :
    blockForPos fs fuel ⟨ino, 0, []⟩ 0 = .error stop := by
  obtain ⟨hsize, hbs, -⟩ := hwalks
  have hpos : ¬ ino.dataSize ≤ 0 := by
    rw [UInt32.le_zero_iff]
    exact hsize
  have hfirst : ¬ 1 + 0 / fs.options.blockSize > fs.options.blockCount := by
    rw [UInt32.zero_div, UInt32.add_zero, gt_iff_lt, UInt32.not_lt, UInt32.le_iff_toNat_le]
    exact Nat.pos_of_ne_zero (by rwa [← UInt32.toNat_inj.ne] at hcount)
  rw [blockForPos, if_neg hpos, if_neg hbs, if_neg hfirst]
  simp only [loadedBlocks, if_true, hload]
  rfl

theorem fread_stops {ino : Inode} (hwalks : WalksChain fs ino)
    (hcount : fs.options.blockCount ≠ 0) (hload : blockListLoad fs ino fuel = .error stop)
    (hfuel : 0 < fuel) (count : Nat) :
    fread fs fuel (count + 1) ⟨ino, 0, []⟩ = .error stop := by
  obtain ⟨rounds, rfl⟩ := Nat.exists_eq_succ_of_ne_zero (by omega : fuel ≠ 0)
  have hpos : ¬ (0 : UInt32) ≥ ino.dataSize := by
    rw [ge_iff_le, UInt32.le_zero_iff]
    exact hwalks.1
  rw [fread, inodeRead, inodeReadImpl, if_neg (by decide), if_neg hpos,
    blockForPos_stops hwalks hcount hload]
  rfl

theorem fopen_fresh {cache cache' : Cache} {name : List UInt8} {f : File}
    (h : fopen fs cache name = .ok (some f, cache')) : f = ⟨f.inode, 0, []⟩ := by
  have hdev {id : UInt32} (hid : devForInode fs id = some f) : f = ⟨f.inode, 0, []⟩ := by
    rw [devForInode] at hid
    split at hid
    · simp at hid
    · split at hid
      · rw [← Option.some.inj hid]
      · simp at hid
  rw [fopen] at h
  split at h
  · exact absurd (Prod.ext_iff.mp (Except.ok.inj h)).1 (by simp)
  · cases hname : inodeByName fs cache name with
    | error stop =>
        rw [hname] at h
        simp at h
    | ok r =>
        obtain ⟨rc, n, cache''⟩ := r
        rw [hname] at h
        have hfile := (Prod.ext_iff.mp (Except.ok.inj h)).1
        simp only at hfile
        split at hfile
        · exact hdev hfile
        · simp at hfile

end

section

variable {σ : Type} {handle : σ → File → Int × σ} {fs : Fs} {fuel : Nat} {i : UInt32} {s : Scan σ}

/-- The round does not end `main` by being cut off. -/
def RoundEnds (r : Scan σ × Option (Run Int)) : Prop :=
  ∀ ending, r.2 = some ending → ending ≠ .error .running

theorem handleFound_ends (name : List UInt8) (file : File) :
    RoundEnds (handleFound handle name file s) := by
  intro ending h
  rw [handleFound] at h
  simp only at h
  split at h
  · rw [← Option.some.inj h]
    simp
  · simp at h

theorem scanFile_ends {name : List UInt8} (hfuel : 0 < fuel)
    (hload : ∀ f cache, fopen fs s.cache name = .ok (some f, cache) → LoadEnds fs fuel f.inode) :
    RoundEnds (scanFile handle fs fuel name s) := by
  intro ending h
  rw [scanFile] at h
  have hopen := fopen_ends fs s.cache name
  cases hf : fopen fs s.cache name with
  | error stop =>
      rw [hf] at h hopen
      rw [← Option.some.inj h]
      exact fun heq => hopen (Except.error.inj heq)
  | ok r =>
      obtain ⟨file, cache⟩ := r
      rw [hf] at h
      cases file with
      | none => simp at h
      | some f =>
          have hread := fread_ends (hload f cache hf) hfuel 8
          simp only at h
          cases hheader : fread fs fuel 8 f with
          | error stop =>
              rw [hheader] at h hread
              rw [← Option.some.inj h]
              exact fun heq => hread (Except.error.inj heq)
          | ok r =>
              obtain ⟨header, f'⟩ := r
              rw [hheader] at h
              simp only at h
              split at h
              · simp at h
              · split at h
                · exact handleFound_ends name f' ending h
                · simp at h

theorem scanInode_ends (hfuel : 0 < fuel)
    (hload : ∀ f, Opens fs i s f → LoadEnds fs fuel f.inode) :
    RoundEnds (scanInode handle fs fuel i s) := by
  intro ending h
  rw [scanInode] at h
  rcases hinode : inodeIdRead fs i s.n with ⟨rc, n⟩
  simp only [hinode] at h
  split at h
  · simp at h
  · rename_i hrc
    obtain rfl : rc = .ok := not_not.mp hrc
    have hname := inodeNameGet_ends fs s.cache n.id []
    cases hget : inodeNameGet fs s.cache n.id [] with
    | error stop =>
        rw [hget] at h hname
        rw [← Option.some.inj h]
        exact fun heq => hname (Except.error.inj heq)
    | ok r =>
        obtain ⟨rc, name, cache⟩ := r
        rw [hget] at h
        simp only at h
        split at h
        · simp at h
        · rename_i hrc
          obtain rfl : rc = .ok := not_not.mp hrc
          split at h
          · simp at h
          · rename_i hne
            refine scanFile_ends hfuel (fun f cache' hf => ?_) ending h
            exact hload f ⟨n, name, cache, cache', hinode, hget, hne, hf⟩

end

/-- The run of `main` ends, and so does each walk through the blocks of a file that it
reads. -/
structure ScanEnds {σ : Type} (handle : σ → File → Int × σ) (fuel : Nat) (image : List UInt8)
    (fs : Fs) (n : Inode) (world : σ) : Prop where
  main : (main handle fuel 3 (some image) n world).2 ≠ .error .running
  walks : ∀ i s f, Reached handle fs fuel (initial n world) i s → Opens fs i s f →
    WalksChain fs f.inode → WalkEnds fs f.inode

/-- No file that the run reads has blocks that lead back to one of them. -/
def NoWayBack {σ : Type} (handle : σ → File → Int × σ) (fuel : Nat) (fs : Fs) (n : Inode)
    (world : σ) : Prop :=
  ∀ i s f, Reached handle fs fuel (initial n world) i s → Opens fs i s f →
    WalksChain fs f.inode → ¬ ComesBack (Link fs) f.inode.firstBlock

theorem loadEnds_of_walkEnds {fs : Fs} {fuel : Nat} {ino : Inode}
    (hfuel : fs.options.blockCount.toNat ≤ fuel) (h : WalkEnds fs ino) :
    Ends (fun _ => True) (blockListLoad fs ino fuel) := by
  rcases h fuel hfuel with hassert | ⟨rc, blocks, hreturns, -⟩
  · rw [hassert]
    exact ends_error (by decide)
  · rw [hreturns]
    trivial

section

variable {σ : Type} {handle : σ → File → Int × σ} {image : List UInt8} {fs : Fs} {fuel : Nat}
  {n : Inode} {world : σ}

theorem ScanEnds.noWayBack (h : ScanEnds handle fuel image fs n world) :
    NoWayBack handle fuel fs n world := by
  intro i s f hreached hopens hwalks hback
  exact not_walkEnds_of_comesBack hwalks.2.2 hback (h.walks i s f hreached hopens hwalks)

/-- On every archive that is accepted, the run of `main` and its walks through the blocks
end in time exactly when no file that the run reads has blocks that lead back to one of
them. -/
theorem scanEnds_iff (hopen : openfsStage2 image = .ok (.ok fs))
    (hfuel : fs.options.blockCount.toNat < fuel) :
    ScanEnds handle fuel image fs n world ↔ NoWayBack handle fuel fs n world := by
  constructor
  · exact ScanEnds.noWayBack
  · intro h
    have hwalks : ∀ i s f, Reached handle fs fuel (initial n world) i s → Opens fs i s f →
        WalksChain fs f.inode → WalkEnds fs f.inode := by
      intro i s f hreached hopens hwalks
      exact walkEnds_of_not_comesBack (h i s f hreached hopens hwalks)
    refine ⟨?_, hwalks⟩
    rcases main_ending handle fuel hopen n world with
      hzero | ⟨i, s, s', hreached, hround⟩
    · rw [hzero]
      simp
    · refine scanInode_ends (by omega) (fun f hopens hchain => ?_) _ (Prod.ext_iff.mp hround).2
      exact loadEnds_of_walkEnds hfuel.le (hwalks i s f hreached hopens hchain)

end

theorem scanInode_stops {σ : Type} (handle : σ → File → Int × σ) {fs : Fs} {fuel : Nat}
    {i : UInt32} {s : Scan σ} {f : File} {stop : Stop} (hopens : Opens fs i s f)
    (hread : fread fs fuel 8 f = .error stop) :
    ∃ s', scanInode handle fs fuel i s = (s', some (.error stop)) := by
  obtain ⟨n, name, cache, cache', hinode, hname, hne, hopen⟩ := hopens
  rw [scanInode, hinode]
  simp only [hname, if_neg hne, scanFile, hopen, hread]
  exact ⟨_, rfl⟩

/-- Where blocks of a file that `main` reads lead back to one of them, `main` itself goes
on as long as it is let, or until the list is too long. -/
theorem main_of_wayBack {σ : Type} {handle : σ → File → Int × σ} {image : List UInt8} {fs : Fs}
    {fuel : Nat} {n : Inode} {world : σ} (hopen : openfsStage2 image = .ok (.ok fs))
    (hfuel : 0 < fuel) (h : ¬ NoWayBack handle fuel fs n world) :
    (main handle fuel 3 (some image) n world).2 = .error .running ∨
      (main handle fuel 3 (some image) n world).2 = .error .undefined := by
  simp only [NoWayBack, not_forall, not_not] at h
  obtain ⟨i, s, f, hreached, hopens, hwalks, hback⟩ := h
  have hcount : fs.options.blockCount ≠ 0 := by
    intro hzero
    obtain ⟨bl, hsound, -⟩ := exists_sound_of_comesBack hback
    have hvalid := blockIdIsValid_iff.mp hsound.1
    rw [hzero] at hvalid
    exact absurd (hvalid.1.trans hvalid.2) (by decide)
  have hfresh : f = ⟨f.inode, 0, []⟩ := by
    obtain ⟨_, _, _, _, -, -, -, hfile⟩ := hopens
    exact fopen_fresh hfile
  have hstops {stop : Stop} (hload : blockListLoad fs f.inode fuel = .error stop) :
      (main handle fuel 3 (some image) n world).2 = .error stop := by
    have hread := fread_stops hwalks hcount hload hfuel 7
    rw [← hfresh] at hread
    obtain ⟨s', hround⟩ := scanInode_stops handle hopens hread
    rw [hreached.main_eq hopen hround]
  rcases blockListLoad_comesBack fuel hwalks.2.2 hback with hload | hload
  · exact Or.inl (hstops hload)
  · exact Or.inr (hstops hload)

/-- An archive with one inode, named `A`, and one block, whose successor is that block. -/
def selfLinkImage : List UInt8 :=
  [0xa0, 0, 0, 0x07, 0xd9, 0xa0, 0, 0, 0, 12, 0xa0, 0, 0, 0, 1, 0xa0, 0, 0, 0, 32,
    0xa0, 0, 0, 0, 105, 0x90, 0, 0,
    0xa0, 0, 0, 0, 1, 0xa0, 0, 0, 0, 1, 0xa0, 0, 0, 0, 1, 0x90, 0, 1,
    0x48, 0xa0, 0, 0, 0, 0, 0xa0, 0, 0, 0, 0,
    0x22, 0xa0, 0, 0, 0, 1, 0x90, 0, 1, 0x41,
    0x49, 0xa0, 0, 0, 0, 1, 0x88, 0, 0xa0, 0, 0, 0, 0, 0xa0, 0, 0, 0, 1, 0xa0, 0, 0, 0, 1,
    0x42, 0xa0, 0, 0, 0, 1, 0x88, 0, 0xa0, 0, 0, 0, 1, 0, 0]

def selfLinkFs : Fs where
  image := selfLinkImage
  options :=
    { magicLength := 0, blockSize := 1, blockCount := 1, inodeCount := 1, filenameLength := 1 }

theorem openfsStage2_selfLink : openfsStage2 selfLinkImage = .ok (.ok selfLinkFs) := by
  decide +kernel

theorem selfLink_comesBack : ComesBack (Link selfLinkFs) 1 := by
  have hlink : Link selfLinkFs 1 1 :=
    ⟨⟨1, 0, 1⟩, ⟨by decide, by decide +kernel⟩, rfl, rfl, by decide⟩
  exact ⟨1, .refl, .single hlink⟩

theorem selfLink_opens : Opens selfLinkFs 1 (initial inodeEmpty ()) ⟨⟨1, 0, 0, 1, 1⟩, 0, []⟩ := by
  have hname : inodeNameGet selfLinkFs none 1 [] = .ok (.ok, recordName selfLinkFs 1,
      cacheName selfLinkFs.options none 1 (recordName selfLinkFs 1)) :=
    inodeNameGet_of_intact (by decide) (by decide)
      ⟨by decide +kernel, by decide +kernel, 1, by decide +kernel⟩ none []
  have hfile : (fopen selfLinkFs (cacheName selfLinkFs.options none 1 (recordName selfLinkFs 1))
      (recordName selfLinkFs 1)).map Prod.fst = .ok (some ⟨⟨1, 0, 0, 1, 1⟩, 0, []⟩) := by
    decide +kernel
  cases hopen : fopen selfLinkFs (cacheName selfLinkFs.options none 1 (recordName selfLinkFs 1))
      (recordName selfLinkFs 1) with
  | error stop =>
      rw [hopen] at hfile
      simp [Except.map] at hfile
  | ok r =>
      rw [hopen] at hfile
      obtain ⟨file, cache⟩ := r
      obtain rfl : file = _ := Except.ok.inj hfile
      exact ⟨⟨1, 0, 0, 1, 1⟩, recordName selfLinkFs 1, _, cache, by decide +kernel, hname,
        by decide +kernel, hopen⟩

theorem not_scanEnds_selfLink :
    ¬ ScanEnds (fun (_ : Unit) _ => (0, ())) 2 selfLinkImage selfLinkFs inodeEmpty () := by
  intro h
  have hreached : Reached (fun (_ : Unit) _ => (0, ())) selfLinkFs 2 (initial inodeEmpty ()) 1
      (initial inodeEmpty ()) := Reached.next Reached.first rfl (by decide)
  have hwalks : WalksChain selfLinkFs ⟨1, 0, 0, 1, 1⟩ := ⟨by decide, by decide, by decide⟩
  exact h.noWayBack 1 _ _ hreached selfLink_opens hwalks selfLink_comesBack

theorem scanEnds_iff_selfLink :
    ScanEnds (fun (_ : Unit) _ => (0, ())) 2 selfLinkImage selfLinkFs inodeEmpty () ↔
      NoWayBack (fun (_ : Unit) _ => (0, ())) 2 selfLinkFs inodeEmpty () :=
  scanEnds_iff openfsStage2_selfLink (by decide)

end Iqiq.ScanTermination
