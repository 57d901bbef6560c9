import Iqiq.WhefsLives

namespace Iqiq.WhefsCollisions

open Iqiq.FileStore
open Iqiq.FileStore.Store
open Iqiq.Simulation
open Iqiq.NameCache
open Iqiq.Whefs
open Iqiq.WhefsChains
open Iqiq.WhefsDirectory
open Iqiq.WhefsDisk
open Iqiq.WhefsEncode
open Iqiq.WhefsLives
open Iqiq.WhefsMount
open Iqiq.WhefsNames
open Iqiq.WhefsNaming
open Iqiq.WhefsOpened
open Iqiq.WhefsOpening
open Iqiq.WhefsRuns
open Iqiq.WhefsSessions
open Iqiq.WhefsStore
open Iqiq.WhefsVolume

section

variable {opt : Options} {S : List UInt8 → Prop} {m m' : Mount} {s : Store} {v : Volume opt}
  {hints : Hints} {chains : UInt32 → List UInt32} {cache : Cache} {id : UInt32}
  {name other : List UInt8} {key : Nat} {rw : Bool} {image : List UInt8}

theorem inodeByName_collision (hopt : Formattable opt) (hS : HashNames S) (h : Named S v cache)
    (hname : S name) (hcached : Cached cache name) (hne : other ≠ []) (hother : other ≠ name)
    (hlen : other.length ≤ opt.filenameLength.toNat)
    (hhash : hashCstring other = hashCstring name) :
    inodeByName v.fs cache other = .error .assertion := by
  cases hlookup : lookup cache other with
  | none =>
      obtain ⟨e, he, hehash⟩ := hcached
      exact absurd (hehash.trans hhash.symm) ((lookup_eq_none_iff h.tidy other).mp hlookup e he)
  | some e =>
      obtain ⟨he, hehash⟩ := lookup_sound hlookup
      obtain ⟨hfile, hthere⟩ := h.eq_of_hash hS hname he (hehash.trans hhash)
      have hrecord := recordName_fs hopt v hfile.isInode
      rw [hthere] at hrecord
      have hrun := @inodeByName_of_lookup v.fs cache other e h.tidy hlookup
        hopt.filenameLength_le (Volume.inodeIdIsValid_fs.mpr hfile.isInode)
        (nameIntact_fs hopt v hfile.isInode) (by rw [hrecord]; exact hS.ne_nil name hname) hne hlen
      rw [hrecord, if_neg hother.symm] at hrun
      exact hrun

/-- No call that looks for the name returns. -/
theorem step_collision (hopt : Formattable opt) (hS : HashNames S) (h : Tied S m s v hints chains)
    (hname : S name) (hcached : Cached m.cache name) (hne : other ≠ []) (hother : other ≠ name)
    (hlen : other.length ≤ opt.filenameLength.toNat) (hhash : hashCstring other = hashCstring name)
    (fuel : Nat) :
    (∀ now key rw, m.step fuel (.openDev now key other rw) = .error .assertion) ∧
      m.step fuel (.unlink other) = .error .assertion := by
  have hrun := inodeByName_collision hopt hS h.named hname hcached hne hother hlen hhash
  have hhints : inodeByNameHints m other = .error .assertion := by
    rw [inodeByNameHints, h.disk, disk_fs, hrun]
    rfl
  constructor
  · intro now key rw
    rw [Mount.step, devOpen, hhints]
    rfl
  · rw [Mount.step, unlinkFilename, hhints]
    rfl

theorem byName_reopened (opt : Options) (s : Store) (name : List UInt8) :
    (reopened s).byName opt name = s.byName opt name := by
  rw [Store.byName, Store.byName]
  congr 1
  funext id
  exact Option.any_map ..

theorem cache_of_openfs (h : openfs image = .ok (.ok m)) : m.cache = none := by
  rw [openfs] at h
  cases hstage : openfsStage2 image with
  | error e =>
      rw [hstage] at h
      cases h
  | ok result =>
      rw [hstage, Run.ok_bind] at h
      cases result with
      | error rc => cases h
      | ok fs =>
          simp only at h
          split at h
          · cases h
          · cases h
            rfl

theorem inodeOpen_cache (m : Mount) (nid : UInt32) (writer : Option Nat) :
    (inodeOpen m nid writer).2.cache = m.cache := by
  rw [inodeOpen]
  split
  · rfl
  · split
    · split
      · rfl
      · split
        · rfl
        · rfl
    · split
      split
      · rfl
      · rfl

theorem devForInode_cache (m : Mount) (key : Nat) (nid : UInt32) (writeMode : Bool) :
    (WhefsMount.devForInode m key nid writeMode).2.cache = m.cache := by
  have hopen := inodeOpen_cache m nid (if writeMode then some key else none)
  rw [WhefsMount.devForInode]
  generalize inodeOpen m nid (if writeMode then some key else none) = opened at hopen ⊢
  split
  · rfl
  · simp only
    split
    · exact hopen
    · exact hopen

theorem openDev_cached (hopt : Formattable opt) (hS : HashNames S) (h : Tied S m s v hints chains)
    (hempty : m.cache = none) (hid : IsFileId opt id) (hname : v.name id ≠ []) {fuel : Nat}
    {now : UInt32} {answer : Answer}
    (hrun : m.step fuel (.openDev now key (v.name id) rw) = .ok (answer, m')) :
    Cached m'.cache (v.name id) := by
  obtain ⟨cache, hfound, -, hcached⟩ := inodeByName_found hopt hS h.named hid hname
  have hhints : inodeByNameHints m (v.name id) = .ok (.ok, v.inode id,
      { m with cache, disk := inodeUpdateUsed m.disk (v.inode id) }) := by
    rw [inodeByNameHints, h.disk, disk_fs, hfound]
    rfl
  rw [Mount.step, devOpen, hhints] at hrun
  simp only [Run.ok_bind, if_true] at hrun
  cases hrun
  rw [devForInode_cache]
  exact hcached hempty

end

section

variable {S : List UInt8 → Prop} {opt : Options} {magic : List UInt8} {fuel : Nat}
  {acts : List Act} {name other : List UInt8} {id : UInt32}

/-- When a file has been opened on a volume that has been opened anew, a name with the same hash
value cannot be looked for. -/
theorem life_collision (h : Lived S opt magic fuel acts) (image : List UInt8) (hname : S name)
    (hfound : (fable opt acts).2.store.byName (fable opt acts).2.opt name = some id)
    (hne : other ≠ []) (hother : other ≠ name)
    (hlen : other.length ≤ (fable opt acts).2.opt.filenameLength.toNat)
    (hhash : hashCstring other = hashCstring name) (now : UInt32) (key : Nat) (rw : Bool) :
    ∃ (answers : List Answer) (m m₁ m₂ : Mount),
      life fuel opt magic image acts = .ok (answers, m) ∧
        act fuel m .reopen = .ok (.code (.of .ok), m₁) ∧
        m₁.step fuel (.openDev now key name rw) = .ok (.opened true, m₂) ∧
        (∀ now' key' rw', m₂.step fuel (.openDev now' key' other rw') = .error .assertion) ∧
        m₂.step fuel (.unlink other) = .error .assertion := by
  obtain ⟨m, hlife, hopt, hm⟩ := h.holds image
  obtain ⟨image', m₁, hfinal, hopen, -, v, hints, chains, htied⟩ := finalize_openfs hopt hm fuel
  have hreopen := act_reopen hfinal hopen
  have hfound' :=
    (byName_reopened (fable opt acts).2.opt (fable opt acts).2.store name).trans hfound
  obtain ⟨hid, rfl⟩ := byName_spec htied (h.names.ne_nil name hname) hfound'
  have hnonempty := h.names.ne_nil _ hname
  have hallowed : (reopened (fable opt acts).2.store).Allowed (fable opt acts).2.opt S
      (.openDev now key (v.name id) rw) :=
    ⟨rfl, hname, v.name_length id, Nat.succ_pos _⟩
  obtain ⟨m₂, hstep, v', hints', chains', htied'⟩ :=
    step_simulates hopt h.names h.fuel m₁ _ _ ⟨v, hints, chains, htied⟩ hallowed
  have hanswer : ((reopened (fable opt acts).2.store).step (fable opt acts).2.opt
      (.openDev now key (v.name id) rw)).1 = .opened true := by
    rw [Store.step, Store.openName, hfound']
    exact congrArg Prod.fst (if_neg fun hwritten => absurd hwritten.2 Bool.false_ne_true)
  rw [hanswer] at hstep
  have hcached := openDev_cached hopt h.names htied (cache_of_openfs hopen) hid hnonempty hstep
  exact ⟨_, m, m₁, m₂, hlife, hreopen, hstep,
    step_collision hopt h.names htied' hname hcached hne hother hlen hhash fuel⟩

/-! ### Two names with one hash value -/

def pairOptions : Options :=
  { smallOptions with filenameLength := 2 }

/-- `Az`, with which `BY` has its hash value in common, and `C`. -/
def pairName (name : List UInt8) : Prop :=
  name = [0x41, 0x7a] ∨ name = [0x43]

def pairOpening : List Act :=
  [.call (.openDev 0 1 [0x41, 0x7a] true), .call (.openDev 0 2 [0x43] true)]

theorem life_collision_pair : ∃ (answers : List Answer) (m m₁ m₂ : Mount),
    life (2 ^ 32) pairOptions [0x21] [] pairOpening = .ok (answers, m) ∧
      act (2 ^ 32) m .reopen = .ok (.code (.of .ok), m₁) ∧
      m₁.step (2 ^ 32) (.openDev 0 1 [0x41, 0x7a] false) = .ok (.opened true, m₂) ∧
      (∀ now' key' rw', m₂.step (2 ^ 32) (.openDev now' key' [0x42, 0x59] rw') =
        .error .assertion) ∧
      m₂.step (2 ^ 32) (.unlink [0x42, 0x59]) = .error .assertion := by
  have hopt : Formattable pairOptions := by
    constructor <;> decide
  have hnames : HashNames pairName :=
    hashNames_pair (by decide) (by decide) (by decide)
  have hplays : Plays pairName ⟨pairOptions, emptyStore pairOptions⟩ pairOpening :=
    ⟨⟨rfl, Or.inl rfl, by decide, by decide⟩, ⟨rfl, Or.inr rfl, by decide, by decide⟩, trivial⟩
  have hname : pairName [0x41, 0x7a] := Or.inl rfl
  have hfound : (fable pairOptions pairOpening).2.store.byName pairOptions [0x41, 0x7a] =
      some 2 := rfl
  exact life_collision ⟨hopt, hnames, rfl, le_rfl, hplays⟩ [] hname hfound (by decide) (by decide)
    (by decide) (by decide) 0 1 false

end

end Iqiq.WhefsCollisions
