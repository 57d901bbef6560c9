import Iqiq.ScannedStore
import Iqiq.StoreLives
import Iqiq.WhefsCensus

namespace Iqiq.WhefsLives

open Iqiq.BlockedFile
open Iqiq.FileStore
open Iqiq.FileStore.Store
open Iqiq.ScannedStore
open Iqiq.Simulation
open Iqiq.StoreEffects
open Iqiq.StoreInvariants
open Iqiq.StoreLives
open Iqiq.UnpackScan
open Iqiq.Whefs
open Iqiq.WhefsAllocation
open Iqiq.WhefsCensus
open Iqiq.WhefsChains
open Iqiq.WhefsDirectory
open Iqiq.WhefsDisk
open Iqiq.WhefsEncode
open Iqiq.WhefsFiles hiding devForInode
open Iqiq.WhefsInodes
open Iqiq.WhefsMkfs
open Iqiq.WhefsMount
open Iqiq.WhefsNaming hiding Named
open Iqiq.WhefsOpened
open Iqiq.WhefsOpening
open Iqiq.WhefsRuns
open Iqiq.WhefsSessions
open Iqiq.WhefsStore
open Iqiq.WhefsVolume
open Iqiq.WhefsWriting

/-- A new volume on a device that holds `image`, and what is done to it. -/
def life (fuel : Nat) (opt : Options) (magic image : List UInt8) (acts : List Act) :
    Except (Code ⊕ Failure) (List Answer × Mount) := do
  match ← (mkfs opt magic image).mapError (Sum.inr ∘ Sum.inl) with
  | .error rc => throw (Sum.inl rc)
  | .ok disk => (run (act fuel) ⟨disk, none, [], []⟩ acts).mapError Sum.inr

/-- The answers that a store gives, and what becomes of it. -/
def fable (opt : Options) (acts : List Act) : List Answer × Archive :=
  runAbs Archive.act ⟨opt, emptyStore opt⟩ acts

/-- Options that `mkfs` takes, and acts with names of `S` that can be told apart, each
allowed when its time comes. -/
structure Lived (S : List UInt8 → Prop) (opt : Options) (magic : List UInt8) (fuel : Nat)
    (acts : List Act) : Prop where
  formattable : Formattable opt
  names : HashNames S
  magic : magic.length = opt.magicLength.toNat
  fuel : 2 ^ 32 ≤ fuel
  plays : Plays S ⟨opt, emptyStore opt⟩ acts

section

variable {S : List UInt8 → Prop} {opt : Options} {magic : List UInt8} {fuel : Nat}
  {acts : List Act}

theorem Lived.mounted (h : Lived S opt magic fuel acts) :
    Mounted S ⟨opt, emptyStore opt⟩ :=
  ⟨_, h.formattable, stands_blank h.magic⟩

theorem life_of_run (hopt : Formattable opt) (hmagic : magic.length = opt.magicLength.toNat)
    {answers : List Answer} {m : Mount}
    (hrun : run (act fuel) ⟨disk (blank opt magic hmagic) firstHints, none, [], []⟩ acts =
      .ok (answers, m)) (image : List UInt8) :
    life fuel opt magic image acts = .ok (answers, m) := by
  rw [life, mkfs_eq hopt hmagic]
  show (run (act fuel) ⟨disk (blank opt magic hmagic) firstHints, none, [], []⟩ acts).mapError
    Sum.inr = _
  rw [hrun]
  rfl

theorem Lived.runs (h : Lived S opt magic fuel acts) :
    ∃ m, run (act fuel) ⟨disk (blank opt magic h.magic) firstHints, none, [], []⟩ acts =
        .ok ((fable opt acts).1, m) ∧ Holds S m (fable opt acts).2 :=
  run_simulates h.names h.fuel ⟨h.formattable, stands_blank h.magic⟩ h.plays

theorem Lived.holds (h : Lived S opt magic fuel acts) (image : List UInt8) :
    ∃ m, life fuel opt magic image acts = .ok ((fable opt acts).1, m) ∧
      Holds S m (fable opt acts).2 := by
  obtain ⟨m, hrun, hm⟩ := h.runs
  exact ⟨m, life_of_run h.formattable h.magic hrun image, hm⟩

theorem every_emptyStore (opt : Options) (P : Content UInt8 → Prop) :
    Every opt (emptyStore opt) P := by
  rintro id - c ⟨⟩

theorem accounted_emptyStore (opt : Options) :
    accounted opt (emptyStore opt) = opt.blockCount.toNat := by
  have hnone : (ids opt).map (heldIn opt (emptyStore opt)) = (ids opt).map fun _ => 0 := rfl
  rw [accounted, hnone, List.map_const', List.sum_replicate_nat, Nat.mul_zero]
  rfl

theorem blockCount_act {a : Archive} {x : Act} (hallowed : a.Allowed S x) :
    (a.act x).2.opt.blockCount.toNat = a.opt.blockCount.toNat + gainedBy x := by
  cases x with
  | call op => rfl
  | reopen => rfl
  | append count =>
      rcases eq_or_ne count 0 with rfl | hcount
      · rfl
      · rw [Archive.act, if_neg hcount]
        exact hallowed.blockCount

theorem blockCount_run {a : Archive} (hS : HashNames S) (h : Mounted S a) (hacts : Plays S a acts) :
    (runAbs Archive.act a acts).2.opt.blockCount.toNat =
      a.opt.blockCount.toNat + gainedIn acts := by
  induction acts generalizing a with
  | nil => rfl
  | cons x acts ih =>
      have hstep := blockCount_act hacts.1
      have hrest := ih (Mounted.next hS h hacts.1) hacts.2
      rw [runAbs_cons]
      simp only [gainedIn, List.map_cons, List.sum_cons] at hrest ⊢
      omega

theorem magicLength_run (a : Archive) (acts : List Act) :
    (runAbs Archive.act a acts).2.opt.magicLength = a.opt.magicLength := by
  induction acts generalizing a with
  | nil => rfl
  | cons x acts ih =>
      have hstep : (a.act x).2.opt.magicLength = a.opt.magicLength := by
        cases x with
        | call op => rfl
        | reopen => rfl
        | append count =>
            rw [Archive.act]
            split <;> rfl
      rw [runAbs_cons]
      exact (ih _).trans hstep

theorem Lived.magic_fable (h : Lived S opt magic fuel acts) :
    magic.length = (fable opt acts).2.opt.magicLength.toNat :=
  h.magic.trans (congrArg UInt16.toNat (magicLength_run ⟨opt, emptyStore opt⟩ acts).symm)

theorem Lived.length_strays (h : Lived S opt magic fuel acts) {m : Mount}
    {v : Volume (fable opt acts).2.opt} {hints : Hints} {chains : UInt32 → List UInt32}
    (hm : Tied S m (fable opt acts).2.store v hints chains) :
    (strays v chains).length = lostIn ⟨opt, emptyStore opt⟩ acts := by
  have hopt : Formattable (fable opt acts).2.opt := by
    obtain ⟨m, -, hopt, -⟩ := h.holds []
    exact hopt
  have hstrays := strays_accounted hopt hm
  have haccount : accounted (fable opt acts).2.opt (fable opt acts).2.store +
      lostIn ⟨opt, emptyStore opt⟩ acts = accounted opt (emptyStore opt) + gainedIn acts :=
    run_accounted h.names h.mounted h.plays
  have hcount : (fable opt acts).2.opt.blockCount.toNat = opt.blockCount.toNat + gainedIn acts :=
    blockCount_run h.names h.mounted h.plays
  rw [accounted_emptyStore] at haccount
  omega

theorem fable_append (opt : Options) (acts acts' : List Act) :
    fable opt (acts ++ acts') =
      ((fable opt acts).1 ++ (runAbs Archive.act (fable opt acts).2 acts').1,
        (runAbs Archive.act (fable opt acts).2 acts').2) :=
  runAbs_append _ _ _

theorem Lived.part {acts' : List Act} (h : Lived S opt magic fuel (acts ++ acts')) :
    Lived S opt magic fuel acts ∧ Mounted S (fable opt acts).2 := by
  have hpart : Lived S opt magic fuel acts :=
    ⟨h.formattable, h.names, h.magic, h.fuel, (allAllowed_append.mp h.plays).1⟩
  obtain ⟨m, -, hm⟩ := hpart.holds []
  exact ⟨hpart, m, hm⟩

end

/-! ### A small volume -/

def smallOptions : Options :=
  { magicLength := 1, blockSize := 32, inodeCount := 4, blockCount := 4, filenameLength := 1 }

/-- The names `A` and `B`. -/
def smallName (name : List UInt8) : Prop :=
  name = [0x41] ∨ name = [0x42]

/-- Two files, and a profile in the second one. -/
def opening : List Act :=
  [.call (.openDev 0 1 [0x41] true), .call (.openDev 0 2 [0x42] true),
    .call (.write 0 2 ScanCoverage.sampleProfile)]

def writing : Act :=
  .call (.write 0 1 [7, 8, 9])

/-- The second file changes, and the first one is opened anew. -/
def reading : List Act :=
  [.call (.write 0 2 [1]), .call (.close 1), .reopen, .append 1,
    .call (.openDev 0 3 [0x41] false)]

def removing : List Act :=
  [.call (.close 1), .call (.close 2), .call (.unlink [0x41]), .call (.unlink [0x42])]

theorem formattable_small : Formattable smallOptions := by
  constructor <;> decide

theorem hashNames_small : HashNames smallName :=
  hashNames_pair (by decide) (by decide) (by decide)

theorem plays_opening : Plays smallName ⟨smallOptions, emptyStore smallOptions⟩ opening :=
  ⟨⟨rfl, Or.inl rfl, by decide, by decide⟩, ⟨rfl, Or.inr rfl, by decide, by decide⟩,
    ⟨rfl, by decide⟩, trivial⟩

theorem granted_opening : AllAllowed GrantedAct Archive.act ⟨smallOptions, emptyStore smallOptions⟩
    opening := by
  refine ⟨?_, ?_, ?_, trivial⟩
  · rintro key len ⟨⟩
  · rintro key len ⟨⟩
  · rintro key len ⟨⟩

theorem lived_opening {acts : List Act} (h : Plays smallName (fable smallOptions opening).2 acts) :
    Lived smallName smallOptions [0x21] (2 ^ 32) (opening ++ acts) :=
  ⟨formattable_small, hashNames_small, rfl, le_rfl, allAllowed_append.mpr ⟨plays_opening, h⟩⟩

theorem plays_writing : Plays smallName (fable smallOptions opening).2 [writing] :=
  ⟨⟨rfl, by decide⟩, trivial⟩

theorem plays_reading : Plays smallName (fable smallOptions opening).2
    (writing :: (reading ++ [.call (.seek 3 0 .seekSet), .call (.read 3 3)])) := by
  refine ⟨⟨rfl, by decide⟩, ⟨rfl, by decide⟩, rfl, trivial, ?_, ?_, rfl, rfl, trivial⟩
  · exact ⟨formattable_small, by decide⟩
  · exact ⟨rfl, Or.inl rfl, by decide, by decide⟩

theorem plays_emptying : Plays smallName (fable smallOptions opening).2
    [writing, .call (.trunc 1 0)] := by
  refine ⟨⟨rfl, by decide⟩, ⟨rfl, ?_⟩, trivial⟩
  rintro h f - -
  exact ⟨by decide, fun hpos => absurd hpos (by decide)⟩

theorem plays_removing : Plays smallName (fable smallOptions opening).2 (writing :: removing) :=
  ⟨⟨rfl, by decide⟩, rfl, rfl, ⟨Or.inl rfl, by decide⟩, ⟨Or.inr rfl, by decide⟩, trivial⟩

section

variable {S : List UInt8 → Prop} {opt : Options} {magic : List UInt8} {fuel : Nat}
  {acts : List Act}

/-- The answers are those of the store, and what is in the file in the end is the store. -/
theorem life_answers (h : Lived S opt magic fuel acts) (image : List UInt8) :
    ∃ m image' m', life fuel opt magic image acts = .ok ((fable opt acts).1, m) ∧
      finalize fuel m = .ok image' ∧ openfs image' = .ok (.ok m') ∧ m'.disk.fs.image = image' ∧
      Stands (fable opt acts).2.opt S m' (reopened (fable opt acts).2.store) := by
  obtain ⟨m, hlife, hopt, hm⟩ := h.holds image
  obtain ⟨image', m', hfinal, hopen, himage, hm'⟩ := finalize_openfs hopt hm fuel
  exact ⟨m, image', m', hlife, hfinal, hopen, himage, hm'⟩

theorem life_answers_small : ∃ m image' m',
    life (2 ^ 32) smallOptions [0x21] [] (opening ++ [writing]) =
        .ok ([.opened true, .opened true, .count 11, .count 3], m) ∧
      finalize (2 ^ 32) m = .ok image' ∧ openfs image' = .ok (.ok m') ∧
      m'.disk.fs.image = image' ∧ Stands smallOptions smallName m'
        (reopened (fable smallOptions (opening ++ [writing])).2.store) :=
  life_answers (lived_opening plays_writing) []

/-- Open inodes are sorted and count their devices, of which one at most can write; chains
end and share no blocks; blocks that are not in use are blank, and those below the hint are
in use. -/
theorem life_wired (h : Lived S opt magic fuel acts) (image : List UInt8) :
    ∃ (answers : List Answer) (m : Mount) (v : Volume (fable opt acts).2.opt) (hints : Hints)
        (chains : UInt32 → List UInt32),
      life fuel opt magic image acts = .ok (answers, m) ∧ m.disk = disk v hints ∧
        Chained v chains ∧ Hinted v hints ∧ Wired v chains m.nodes m.devs := by
  obtain ⟨m, hlife, -, v, hints, chains, hm⟩ := h.holds image
  exact ⟨_, m, v, hints, chains, hlife, hm.disk, hm.formed.chained, hm.formed.hinted, hm.wired⟩

theorem life_wired_small : ∃ (answers : List Answer) (m : Mount) (v : Volume smallOptions)
    (hints : Hints) (chains : UInt32 → List UInt32),
    life (2 ^ 32) smallOptions [0x21] [] (opening ++ [writing]) = .ok (answers, m) ∧
      m.disk = disk v hints ∧ Chained v chains ∧ Hinted v hints ∧ Wired v chains m.nodes m.devs :=
  life_wired (lived_opening plays_writing) []

/-- As many blocks are in use without a file as there were in the files that have been
truncated to nothing. -/
theorem life_strays (h : Lived S opt magic fuel acts) (image : List UInt8) :
    ∃ (answers : List Answer) (m : Mount) (v : Volume (fable opt acts).2.opt) (hints : Hints)
        (chains : UInt32 → List UInt32),
      life fuel opt magic image acts = .ok (answers, m) ∧ m.disk = disk v hints ∧
        Chained v chains ∧
        (strays v chains).length = lostIn ⟨opt, emptyStore opt⟩ acts := by
  obtain ⟨m, hlife, hopt, v, hints, chains, hm⟩ := h.holds image
  refine ⟨_, m, v, hints, chains, hlife, hm.disk, hm.formed.chained, ?_⟩
  exact h.length_strays hm

theorem life_strays_small : ∃ (answers : List Answer) (m : Mount) (v : Volume smallOptions)
    (hints : Hints) (chains : UInt32 → List UInt32),
    life (2 ^ 32) smallOptions [0x21] [] (opening ++ [writing, .call (.trunc 1 0)]) =
        .ok (answers, m) ∧
      m.disk = disk v hints ∧ Chained v chains ∧ (strays v chains).length = 1 :=
  life_strays (lived_opening plays_emptying) []

/-- Where no file has bytes and where no block is in use, there is nothing but zeros. -/
theorem life_no_traces (h : Lived S opt magic fuel acts) (image : List UInt8) :
    ∃ (answers : List Answer) (m : Mount) (v : Volume (fable opt acts).2.opt) (hints : Hints)
        (chains : UInt32 → List UInt32),
      life fuel opt magic image acts = .ok (answers, m) ∧ m.disk = disk v hints ∧
        Chained v chains ∧
        (∀ id, IsFileId (fable opt acts).2.opt id → InodeUsed v id →
          ∀ i, sizeAt v m.nodes id ≤ i → i < (room v (chains id)).length →
            (room v (chains id))[i]? = some 0) ∧
        ∀ id, IsBlock (fable opt acts).2.opt id → ¬ BlockUsed v id →
          v.data id = List.replicate (fable opt acts).2.opt.blockSize.toNat 0 := by
  obtain ⟨m, hlife, hopt, v, hints, chains, hm⟩ := h.holds image
  have hclean := clean_run h.names h.mounted (every_emptyStore opt _) h.plays
  refine ⟨_, m, v, hints, chains, hlife, hm.disk, hm.formed.chained, ?_, ?_⟩
  · intro id hid hused
    exact hclean id hid _ (contents_of_used hm hid hused)
  · intro id hid hunused
    exact (hm.formed.chained.blank id hid hunused).2

theorem life_no_traces_small : ∃ (answers : List Answer) (m : Mount) (v : Volume smallOptions)
    (hints : Hints) (chains : UInt32 → List UInt32),
    life (2 ^ 32) smallOptions [0x21] [] (opening ++ [writing]) = .ok (answers, m) ∧
      m.disk = disk v hints ∧ Chained v chains ∧
      (∀ id, IsFileId smallOptions id → InodeUsed v id →
        ∀ i, sizeAt v m.nodes id ≤ i → i < (room v (chains id)).length →
          (room v (chains id))[i]? = some 0) ∧
      ∀ id, IsBlock smallOptions id → ¬ BlockUsed v id → v.data id = List.replicate 32 0 :=
  life_no_traces (lived_opening plays_writing) []

/-- A volume without files, on which no block has been lost, has the tables of a new one. -/
theorem life_blank_again (h : Lived S opt magic fuel acts) (image : List UInt8)
    (hnone : ∀ id, IsFileId (fable opt acts).2.opt id → (fable opt acts).2.store.files id = none)
    (hlost : lostIn ⟨opt, emptyStore opt⟩ acts = 0) :
    ∃ answers m, life fuel opt magic image acts = .ok (answers, m) ∧
      m.disk.fs.image.drop (headerSize (fable opt acts).2.opt) =
        (blank (fable opt acts).2.opt magic h.magic_fable).image.drop
          (headerSize (fable opt acts).2.opt) := by
  obtain ⟨m, hlife, hopt, v, hints, chains, hm⟩ := h.holds image
  have hempty : ∀ id, IsFileId (fable opt acts).2.opt id →
      contents (fable opt acts).2.store id = none := by
    intro id hid
    rw [contents, hnone id hid]
    rfl
  have hstrays := h.length_strays hm
  rw [hlost] at hstrays
  refine ⟨_, m, hlife, ?_⟩
  rw [hm.disk]
  exact tables_of_no_files hm hempty (List.length_eq_zero_iff.mp hstrays) h.magic_fable

theorem life_blank_again_small : ∃ answers m,
    life (2 ^ 32) smallOptions [0x21] [] (opening ++ writing :: removing) = .ok (answers, m) ∧
      m.disk.fs.image.drop (headerSize smallOptions) =
        (blank smallOptions [0x21] rfl).image.drop (headerSize smallOptions) := by
  apply life_blank_again (lived_opening plays_removing) [] _ rfl
  rintro id ⟨htwo, hfour⟩
  change id.toNat ≤ 4 at hfour
  have hid : id = 2 ∨ id = 3 ∨ id = 4 := by
    rw [← UInt32.toNat_inj, ← UInt32.toNat_inj, ← UInt32.toNat_inj]
    change id.toNat = 2 ∨ id.toNat = 3 ∨ id.toNat = 4
    omega
  rcases hid with rfl | rfl | rfl
  · rfl
  · rfl
  · rfl

/-- What is in the file in the end is found by the scan, if each file has got the blocks that
it has asked for. -/
theorem life_scanned (h : Lived S opt magic fuel acts) (image : List UInt8)
    (hgranted : AllAllowed GrantedAct Archive.act ⟨opt, emptyStore opt⟩ acts) :
    ∃ (answers : List Answer) (m : Mount) (image' : List UInt8) (arch : ScanCoverage.Archive),
      life fuel opt magic image acts = .ok (answers, m) ∧ finalize fuel m = .ok image' ∧
        arch.image = image' ∧ Shows (fable opt acts).2.opt (fable opt acts).2.store arch ∧
        ∀ {σ : Type} (handle : σ → File → Int × σ) (fuel' : Nat) (n : Inode) (world : σ),
          (fable opt acts).2.opt.blockCount.toNat < fuel' →
            arch.MissesNone fuel' (main handle fuel' 3 (some image') n world) := by
  obtain ⟨m, hlife, hopt, hm⟩ := h.holds image
  have hbacked := backed_run h.names h.mounted (every_emptyStore opt _) h.plays hgranted
  obtain ⟨image', arch, hfinal, himage, hshows, hscan⟩ :=
    scan_of_stands hopt h.names hm hbacked fuel
  exact ⟨_, m, image', arch, hlife, hfinal, himage, hshows, hscan⟩

theorem life_scanned_small : ∃ (answers : List Answer) (m : Mount) (image' : List UInt8)
    (arch : ScanCoverage.Archive),
    life (2 ^ 32) smallOptions [0x21] [] (opening ++ [writing]) = .ok (answers, m) ∧
      finalize (2 ^ 32) m = .ok image' ∧ arch.image = image' ∧
      Shows smallOptions (fable smallOptions (opening ++ [writing])).2.store arch ∧
      ∀ {σ : Type} (handle : σ → File → Int × σ) (fuel' : Nat) (n : Inode) (world : σ),
        4 < fuel' → arch.MissesNone fuel' (main handle fuel' 3 (some image') n world) := by
  have hgranted : AllAllowed GrantedAct Archive.act ⟨smallOptions, emptyStore smallOptions⟩
      (opening ++ [writing]) := by
    refine allAllowed_append.mpr ⟨granted_opening, ?_, trivial⟩
    rintro key len ⟨⟩
  exact life_scanned (lived_opening plays_writing) [] hgranted

/-- Bytes that have been written are read by whoever has the file open, after whatever else has
been done that is no call to change or to remove the file: also after the volume has been closed
and opened anew, and after it has got more blocks. -/
theorem written_read_back {before between : List Act} {key key' : Nat} {now n : UInt32}
    {src : List UInt8} {x y : Handle} {k : Nat}
    (h : Lived S opt magic fuel ((before ++ .call (.write now key src) :: between) ++
      [.call (.seek key' x.pos .seekSet), .call (.read key' n)]))
    (image : List UInt8) (hx : (fable opt before).2.store.handle key = some x)
    (hcount : ((fable opt before).2.act (.call (.write now key src))).1 = .count k)
    (hspares : AllAllowed (Spares x.file) Archive.act
      ((fable opt before).2.act (.call (.write now key src))).2 between)
    (hy : (fable opt (before ++ .call (.write now key src) :: between)).2.store.handle key' =
      some y)
    (hfile : y.file = x.file) (hn : n.toNat ≤ k) :
    ∃ answers m, life fuel opt magic image
        ((before ++ .call (.write now key src) :: between) ++
          [.call (.seek key' x.pos .seekSet), .call (.read key' n)]) =
      .ok (answers ++ [.position (some x.pos), .bytes (src.take n.toNat)], m) := by
  obtain ⟨m, hlife, -⟩ := h.holds image
  obtain ⟨hwritten, -⟩ := h.part
  obtain ⟨-, m₀, hopt₀, hm₀⟩ := hwritten.part
  obtain ⟨⟨f, hf⟩, hpos⟩ := Stands.handle hm₀ hx
  obtain ⟨c, hc, hget⟩ := step_write hopt₀ (Stands.shaped hm₀) hx hf now hcount
  have hkept := contents_spared hc hspares
  have hend : (fable opt (before ++ .call (.write now key src) :: between)).2 =
      (runAbs Archive.act ((fable opt before).2.act (.call (.write now key src))).2 between).2 := by
    rw [fable_append, runAbs_cons]
  rw [← hend, ← hfile] at hkept
  obtain ⟨hseek, hread⟩ := @seek_read
    (fable opt (before ++ .call (.write now key src) :: between)).2.opt _ _ _ _ hy hkept _ hpos n
  refine ⟨(fable opt (before ++ .call (.write now key src) :: between)).1, m, ?_⟩
  have htail : (runAbs Archive.act (fable opt (before ++ .call (.write now key src) :: between)).2
      [.call (.seek key' x.pos .seekSet), .call (.read key' n)]).1 =
        [.position (some x.pos), .bytes (c.get x.pos n.toNat)] := by
    rw [runAbs_cons, runAbs_cons, runAbs]
    exact congrArg₂ (fun p b => [p, b]) hseek hread
  rw [hlife, fable_append, htail, hget _ hn]

theorem written_read_back_small : ∃ answers m,
    life (2 ^ 32) smallOptions [0x21] []
        ((opening ++ writing :: reading) ++ [.call (.seek 3 0 .seekSet), .call (.read 3 3)]) =
      .ok (answers ++ [.position (some 0), .bytes [7, 8, 9]], m) := by
  have hspares : AllAllowed (Spares 2) Archive.act
      ((fable smallOptions opening).2.act writing).2 reading := by
    refine ⟨?_, not_false, trivial, trivial, not_false, trivial⟩
    rintro ⟨h, ⟨⟩, hfile⟩
    exact absurd hfile (by decide)
  have hlived := lived_opening plays_reading
  rw [← List.cons_append, ← List.append_assoc] at hlived
  exact written_read_back (x := ⟨1, 2, 0, true⟩) (y := ⟨3, 2, 0, false⟩) hlived [] rfl rfl hspares
    rfl rfl (by decide)

end

end Iqiq.WhefsLives
