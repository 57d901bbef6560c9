import Iqiq.WhefsLives

namespace Iqiq.WhefsLongNames

open Iqiq.FileStore
open Iqiq.FileStore.Store
open Iqiq.Simulation
open Iqiq.NameCache
open Iqiq.Whefs
open Iqiq.WhefsCensus
open Iqiq.WhefsChains
open Iqiq.WhefsDisk
open Iqiq.WhefsEncode
open Iqiq.WhefsInodes
open Iqiq.WhefsLives
open Iqiq.WhefsMount
open Iqiq.WhefsNames
open Iqiq.WhefsNaming
open Iqiq.WhefsRuns
open Iqiq.WhefsVolume

/-- Inodes are in use now that have not been; nothing else has changed. -/
structure Spent {opt : Options} (v : Volume opt) (k : Nat) (w : Volume opt) : Prop where
  unused : unused w = (unused v).drop k
  name : w.name = v.name
  block : w.block = v.block
  data : w.data = v.data

section

variable {opt : Options} {v w u : Volume opt} {hints : Hints} {m : Mount} {id : UInt32}
  {name : List UInt8} {k l : Nat}

theorem Spent.refl (v : Volume opt) : Spent v 0 v :=
  ⟨rfl, rfl, rfl, rfl⟩

theorem Spent.trans (h : Spent v k w) (h' : Spent w l u) : Spent v (k + l) u where
  unused := by rw [h'.unused, h.unused, List.drop_drop]
  name := h'.name.trans h.name
  block := h'.block.trans h.block
  data := h'.data.trans h.data

theorem inodeNameSet_long (hopt : Formattable opt) (hdisk : m.disk = disk v hints)
    (hid : IsInode opt id) (hlong : opt.filenameLength.toNat < name.length) :
    ∃ rc cache, inodeNameSet m id name = .ok (rc, { m with cache }) ∧ rc ≠ .of .ok := by
  have hold : ¬ (v.name id ≠ [] ∧ v.name id = name) := by
    rintro ⟨-, rfl⟩
    exact absurd (v.name_length id) (Nat.not_le.mpr hlong)
  have hwrite : nameWrite m.disk id name = (.of .rangeError, m.disk) := by
    rw [nameWrite, hdisk, disk_fs, if_neg (not_not_intro (Volume.inodeIdIsValid_fs.mpr hid)),
      fs_options, if_pos hlong]
  have hvalid : inodeIdIsValid m.disk.fs id := by
    rw [hdisk, disk_fs]
    exact Volume.inodeIdIsValid_fs.mpr hid
  obtain ⟨cache, hget⟩ : ∃ cache, inodeNameGet v.fs m.cache id [] = .ok (.ok, v.name id, cache) :=
    ⟨_, inodeNameGet_fs hopt v hid m.cache⟩
  have hfs : m.disk.fs = v.fs := by
    rw [hdisk, disk_fs]
  rw [inodeNameSet, if_neg (not_not_intro hvalid), hfs, hget]
  simp only [Run.ok_bind, ne_eq, not_true_eq_false, if_false]
  rw [if_neg hold]
  generalize (if v.name id = [] then name else v.name id) = nameCheck
  split
  · exact ⟨.of .internalError, _, rfl, by decide⟩
  · rw [hwrite]
    exact ⟨.of .rangeError, _, rfl, by decide⟩

theorem devOpen_long (hopt : Formattable opt) (hdisk : m.disk = disk v hints)
    (h : Hinted v hints) (hlong : opt.filenameLength.toNat < name.length) (now : UInt32)
    (key : Nat) :
    ∃ m' w hints', devOpen now m key name true = .ok (false, m') ∧ m'.disk = disk w hints' ∧
      Hinted w hints' ∧ Spent v 1 w := by
  have hne : name ≠ [] := by
    rintro rfl
    exact Nat.not_lt_zero _ hlong
  have hcount : ¬ opt.inodeCount = 0 := by
    intro hzero
    have htwo := hopt.inodeCount
    rw [hzero] at htwo
    exact absurd htwo (by decide)
  have hsearch : inodeByNameHints m name = .ok (.rangeError, inodeEmpty, m) := by
    rw [inodeByNameHints, hdisk, disk_fs, inodeByName, if_neg hne, fs_options, if_neg hcount,
      if_pos hlong, ← hdisk]
    rfl
  rw [devOpen, hsearch]
  simp only [Run.ok_bind]
  rw [if_neg (by decide), if_neg (by decide), hdisk]
  cases hfirst : unused v with
  | nil =>
      obtain ⟨hints', hrun, hhinted⟩ := inodeNextFree_nil hopt h hfirst now
      rw [hrun]
      refine ⟨_, v, hints', rfl, rfl, hhinted, ?_, rfl, rfl, rfl⟩
      rw [hfirst]
      rfl
  | cons id rest =>
      obtain ⟨hints', hrun, hhinted, hrest⟩ := inodeNextFree_cons hopt h hfirst now
      have hmem : id ∈ unused v := by
        rw [hfirst]
        exact List.mem_cons_self
      have hid := (mem_unused.mp hmem).1.isInode
      have hself : (marked now (v.inode id)).id = id := v.inode_id id
      obtain ⟨rc, cache, hset, hrc⟩ := @inodeNameSet_long opt
        (v.setInode (marked now (v.inode id))) hints'
        { m with disk := disk (v.setInode (marked now (v.inode id))) hints' } id name hopt rfl hid
        hlong
      rw [hrun]
      simp only [Run.ok_bind, hself]
      rw [hset]
      simp only [Run.ok_bind]
      rw [if_pos hrc]
      refine ⟨_, v.setInode (marked now (v.inode id)), hints', rfl, rfl, hhinted, ?_, rfl, rfl, rfl⟩
      rw [hrest, hfirst]
      rfl

/-- Each of the calls takes one inode, as long as there are any. -/
theorem run_long (hopt : Formattable opt) (hdisk : m.disk = disk v hints) (h : Hinted v hints)
    (hlong : opt.filenameLength.toNat < name.length) (fuel : Nat) (now : UInt32) (key k : Nat) :
    ∃ m' w hints',
      run (act fuel) m (List.replicate k (.call (.openDev now key name true))) =
          .ok (List.replicate k (.opened false), m') ∧
        m'.disk = disk w hints' ∧ Hinted w hints' ∧ Spent v k w := by
  induction k generalizing m v hints with
  | zero => exact ⟨m, v, hints, rfl, hdisk, h, Spent.refl v⟩
  | succ k ih =>
      obtain ⟨m₁, w₁, hints₁, hfirst, hdisk₁, hhinted₁, hspent₁⟩ :=
        devOpen_long hopt hdisk h hlong now key
      obtain ⟨m', w, hints', hrest, hdisk', hhinted', hspent⟩ := ih hdisk₁ hhinted₁
      refine ⟨m', w, hints', ?_, hdisk', hhinted', ?_⟩
      · have hstep : m.step fuel (.openDev now key name true) = .ok (.opened false, m₁) := by
          rw [Mount.step, hfirst]
          rfl
        rw [List.replicate_succ]
        exact run_cons (act_of_step hstep) hrest
      · rw [Nat.add_comm]
        exact hspent₁.trans hspent

end

section

variable {S : List UInt8 → Prop} {opt : Options} {magic : List UInt8} {fuel : Nat}
  {acts : List Act} {name : List UInt8}

/-- Inodes that are taken for names that are too long are lost: when there are none left no new
file can be made. -/
theorem life_long_names (h : Lived S opt magic fuel acts) (image : List UInt8)
    (hlong : (fable opt acts).2.opt.filenameLength.toNat < name.length) (now : UInt32)
    (key k : Nat) :
    ∃ (answers : List Answer) (m m' : Mount) (v w : Volume (fable opt acts).2.opt)
        (hints hints' : Hints),
      life fuel opt magic image acts = .ok (answers, m) ∧ m.disk = disk v hints ∧
        unused v = (ids (fable opt acts).2.opt).filter (fun id =>
          ((fable opt acts).2.store.files id).isNone) ∧
        run (act fuel) m (List.replicate k (.call (.openDev now key name true))) =
          .ok (List.replicate k (.opened false), m') ∧
        m'.disk = disk w hints' ∧ Spent v k w ∧
        ((unused v).length ≤ k → ∀ now',
          (inodeNextFree now' m'.disk true).map Prod.fst = .ok (.error .fsFull)) := by
  obtain ⟨m, hlife, hopt, v, hints, chains, hm⟩ := h.holds image
  obtain ⟨m', w, hints', hrun, hdisk, hhinted, hspent⟩ :=
    run_long hopt hm.disk hm.formed.hinted hlong fuel now key k
  refine ⟨_, m, m', v, w, hints, hints', hlife, hm.disk, unused_eq hm, hrun, hdisk, hspent, ?_⟩
  intro hfew now'
  have hnone : unused w = [] := hspent.unused.trans (List.drop_eq_nil_of_le hfew)
  obtain ⟨hints'', hnext, -⟩ := inodeNextFree_nil hopt hhinted hnone now'
  rw [hdisk, hnext]
  rfl

theorem life_long_names_small : ∃ (answers : List Answer) (m m' : Mount)
    (v w : Volume smallOptions) (hints hints' : Hints),
    life (2 ^ 32) smallOptions [0x21] [] opening = .ok (answers, m) ∧ m.disk = disk v hints ∧
      unused v = [4] ∧
      run (act (2 ^ 32)) m (List.replicate 1 (.call (.openDev 0 3 [0x41, 0x42] true))) =
        .ok (List.replicate 1 (.opened false), m') ∧
      m'.disk = disk w hints' ∧ Spent v 1 w ∧
      ((unused v).length ≤ 1 → ∀ now',
        (inodeNextFree now' m'.disk true).map Prod.fst = .ok (.error .fsFull)) :=
  life_long_names ⟨formattable_small, hashNames_small, rfl, le_rfl, plays_opening⟩ [] (by decide)
    0 3 1

end

end Iqiq.WhefsLongNames
