import Iqiq.WhefsLives

namespace Iqiq.WhefsShortcuts

open Iqiq.FileStore
open Iqiq.FileStore.Store
open Iqiq.NameCache hiding lookup
open Iqiq.StoreEffects
open Iqiq.Whefs
open Iqiq.WhefsAllocation
open Iqiq.WhefsCensus
open Iqiq.WhefsChains
open Iqiq.WhefsDirectory
open Iqiq.WhefsDisk
open Iqiq.WhefsEncode
open Iqiq.WhefsFree
open Iqiq.WhefsInodes
open Iqiq.WhefsLives
open Iqiq.WhefsMkfs
open Iqiq.WhefsMount
open Iqiq.WhefsNames
open Iqiq.WhefsNaming
open Iqiq.WhefsOpened
open Iqiq.WhefsRuns
open Iqiq.WhefsStore
open Iqiq.WhefsVolume

section

variable {opt : Options} {S : List UInt8 → Prop} {m : Mount} {s : Store} {v : Volume opt}
  {hints : Hints} {chains : UInt32 → List UInt32} {cache : Cache} {name : List UInt8}

theorem hinted_first (v : Volume opt) : Hinted v firstHints := by
  constructor
  · decide
  · intro id hid hlt
    exact absurd (UInt32.lt_iff_toNat_lt.mp hlt) (Nat.not_lt.mpr hid.1)
  · intro n _ htwo hlt
    exact absurd (UInt32.lt_iff_toNat_lt.mp hlt) (Nat.not_lt.mpr htwo)

/-- The block that comes into use next: the first one that is not. -/
def nextBlock (v : Volume opt) : Except Code Block :=
  match freeIds v with
  | [] => .error .fsFull
  | id :: _ => .ok (taken v id)

/-- The inode that comes into use next. -/
def nextInode (v : Volume opt) (now : UInt32) : Except Code Inode :=
  match (ids opt).find? fun id => ¬ isUsed (v.inode id).flags with
  | none => .error .fsFull
  | some id => .ok (marked now (v.inode id))

theorem blockNextFree_fst (hopt : Formattable opt) (h : Hinted v hints) :
    (blockNextFree (disk v hints) true).map Prod.fst = .ok (nextBlock v) := by
  rw [nextBlock]
  cases hfree : freeIds v with
  | nil =>
      rw [blockNextFree_full hopt h hfree]
      rfl
  | cons id rest =>
      rw [blockNextFree_found hopt h hfree]
      rfl

theorem inodeNextFree_fst (hopt : Formattable opt) (h : Hinted v hints) (now : UInt32) :
    (inodeNextFree now (disk v hints) true).map Prod.fst = .ok (nextInode v now) := by
  have hfirst : ((ids opt).find? fun id => ¬ isUsed (v.inode id).flags) = (unused v).head? :=
    (List.head?_filter ..).symm
  rw [nextInode, hfirst]
  cases hunused : unused v with
  | nil =>
      obtain ⟨hints', hrun, -⟩ := inodeNextFree_nil hopt h hunused now
      rw [hrun]
      rfl
  | cons id rest =>
      obtain ⟨hints', hrun, -⟩ := inodeNextFree_cons hopt h hunused now
      rw [hrun]
      rfl

theorem named_uncached (h : Named S v cache) : Named S v none := by
  refine ⟨Tidy.none opt, ?_, List.Pairwise.nil, h.mem, h.distinct⟩
  rintro e ⟨⟩

/-- What a search for a name finds does not depend on the cache. -/
theorem inodeByName_agree (hopt : Formattable opt) (hS : HashNames S) {cache' : Cache}
    (h : Named S v cache) (h' : Named S v cache') (hname : S name)
    (hlen : name.length ≤ opt.filenameLength.toNat) :
    (inodeByName v.fs cache name).map (fun r => (r.1, r.2.1)) =
      (inodeByName v.fs cache' name).map fun r => (r.1, r.2.1) := by
  have hne := hS.ne_nil name hname
  by_cases hfound : ∃ id, IsFileId opt id ∧ v.name id = name
  · obtain ⟨id, hid, rfl⟩ := hfound
    obtain ⟨_, hrun, -⟩ := inodeByName_found hopt hS h hid hne
    obtain ⟨_, hrun', -⟩ := inodeByName_found hopt hS h' hid hne
    rw [hrun, hrun']
    rfl
  · have hmissing : ∀ id, IsFileId opt id → v.name id ≠ name :=
      fun id hid heq => hfound ⟨id, hid, heq⟩
    obtain ⟨_, hrun, -⟩ := inodeByName_missing hopt hS h hname hlen hmissing
    obtain ⟨_, hrun', -⟩ := inodeByName_missing hopt hS h' hname hlen hmissing
    rw [hrun, hrun']
    rfl

end

section

variable {S : List UInt8 → Prop} {opt : Options} {magic : List UInt8} {fuel : Nat}
  {acts : List Act}

/-- The hints lead to the same block and to the same inode as a search from the start. -/
theorem life_hints_agree (h : Lived S opt magic fuel acts) (image : List UInt8) :
    ∃ (answers : List Answer) (m : Mount),
      life fuel opt magic image acts = .ok (answers, m) ∧
        (blockNextFree m.disk true).map Prod.fst =
          (blockNextFree { m.disk with hints := firstHints } true).map Prod.fst ∧
        ∀ now, (inodeNextFree now m.disk true).map Prod.fst =
          (inodeNextFree now { m.disk with hints := firstHints } true).map Prod.fst := by
  obtain ⟨m, hlife, hopt, v, hints, chains, hm⟩ := h.holds image
  have hfirst : ({ m.disk with hints := firstHints } : Disk) = disk v firstHints := by
    rw [hm.disk]
    rfl
  refine ⟨_, m, hlife, ?_, fun now => ?_⟩
  · rw [hfirst, hm.disk, blockNextFree_fst hopt hm.formed.hinted,
      blockNextFree_fst hopt (hinted_first v)]
  · rw [hfirst, hm.disk, inodeNextFree_fst hopt hm.formed.hinted,
      inodeNextFree_fst hopt (hinted_first v)]

theorem life_hints_agree_small : ∃ (answers : List Answer) (m : Mount),
    life (2 ^ 32) smallOptions [0x21] [] (opening ++ [writing]) = .ok (answers, m) ∧
      (blockNextFree m.disk true).map Prod.fst =
        (blockNextFree { m.disk with hints := firstHints } true).map Prod.fst ∧
      ∀ now, (inodeNextFree now m.disk true).map Prod.fst =
        (inodeNextFree now { m.disk with hints := firstHints } true).map Prod.fst :=
  life_hints_agree (lived_opening plays_writing) []

/-- The cache leads to the same inode as a search through all names, and to the same code. -/
theorem life_cache_agrees (h : Lived S opt magic fuel acts) (image : List UInt8) :
    ∃ (answers : List Answer) (m : Mount),
      life fuel opt magic image acts = .ok (answers, m) ∧
        ∀ name, S name → name.length ≤ (fable opt acts).2.opt.filenameLength.toNat →
          (inodeByName m.disk.fs m.cache name).map (fun r => (r.1, r.2.1)) =
            (inodeByName m.disk.fs none name).map fun r => (r.1, r.2.1) := by
  obtain ⟨m, hlife, hopt, v, hints, chains, hm⟩ := h.holds image
  refine ⟨_, m, hlife, fun name hname hlen => ?_⟩
  rw [hm.disk]
  exact inodeByName_agree hopt h.names hm.named (named_uncached hm.named) hname hlen

theorem life_cache_agrees_small : ∃ (answers : List Answer) (m : Mount),
    life (2 ^ 32) smallOptions [0x21] [] (opening ++ [writing]) = .ok (answers, m) ∧
      ∀ name, smallName name → name.length ≤ 1 →
        (inodeByName m.disk.fs m.cache name).map (fun r => (r.1, r.2.1)) =
          (inodeByName m.disk.fs none name).map fun r => (r.1, r.2.1) :=
  life_cache_agrees (lived_opening plays_writing) []

end

end Iqiq.WhefsShortcuts
