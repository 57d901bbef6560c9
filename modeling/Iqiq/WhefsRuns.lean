import Iqiq.WhefsSessions

namespace Iqiq.WhefsRuns

open Iqiq.BlockedFile
open Iqiq.FileStore
open Iqiq.Simulation
open Iqiq.Whefs
open Iqiq.WhefsAppend
open Iqiq.WhefsDirectory
open Iqiq.WhefsDisk
open Iqiq.WhefsFiles
open Iqiq.WhefsMkfs
open Iqiq.WhefsMount
open Iqiq.WhefsNaming
open Iqiq.WhefsOpened
open Iqiq.WhefsOpening
open Iqiq.WhefsSessions
open Iqiq.WhefsStore
open Iqiq.WhefsVolume

/-- A call, the end of a session and the start of the next one, or a volume that gets more
blocks. -/
inductive Act where
  | call (op : Op)
  | reopen
  | append (count : UInt32)

/-- Why an act does not come to its end: a call does not return, or opening fails. -/
abbrev Failure :=
  Stop ⊕ Rc

/-- The end of the file is where it was when the file was opened. -/
def append (m : Mount) (count : UInt32) : Code × Mount :=
  let (rc, disk) := appendBlocks m.disk (UInt32.ofNat m.disk.fs.image.length) count
  (rc, { m with disk })

def act (fuel : Nat) (m : Mount) : Act → Except Failure (Answer × Mount)
  | .call op => (m.step fuel op).mapError Sum.inl
  | .reopen => do
      let image ← (finalize fuel m).mapError Sum.inl
      match ← (openfs image).mapError Sum.inl with
      | .error rc => throw (Sum.inr rc)
      | .ok m => return (.code (.of .ok), m)
  | .append count => let (rc, m) := append m count; .ok (.code rc, m)

/-- Files, and the shape of the volume that they are in. -/
structure Archive where
  opt : Options
  store : Store

namespace Archive

def act (a : Archive) : Act → Answer × Archive
  | .call op => let (answer, store) := a.store.step a.opt op; (answer, { a with store })
  | .reopen => (.code (.of .ok), { a with store := reopened a.store })
  | .append count =>
      if count = 0 then (.code (.of .argError), a)
      else (.code (.of .ok), ⟨grownOptions a.opt count, withFree a.store count.toNat⟩)

/-- A volume may grow as long as its size fits 32 bits. -/
def Allowed (S : List UInt8 → Prop) (a : Archive) : Act → Prop
  | .call op => a.store.Allowed a.opt S op
  | .reopen => True
  | .append count => Growable a.opt count

end Archive

/-- The mounted volume `m` stands for the archive `a`. -/
def Holds (S : List UInt8 → Prop) (m : Mount) (a : Archive) : Prop :=
  Formattable a.opt ∧ Stands a.opt S m a.store

section

variable {opt : Options} {S : List UInt8 → Prop} {m : Mount} {s : Store} {a : Archive}
  {fuel : Nat} {acts : List Act}

theorem act_of_step {op : Op} {answer : Answer} {m' : Mount}
    (h : m.step fuel op = .ok (answer, m')) : act fuel m (.call op) = .ok (answer, m') := by
  rw [act, h]
  rfl

theorem act_reopen {image : List UInt8} {m' : Mount} (hfinal : finalize fuel m = .ok image)
    (hopen : openfs image = .ok (.ok m')) :
    act fuel m .reopen = .ok (.code (.of .ok), m') := by
  rw [act, hfinal]
  change ((openfs image).mapError Sum.inl >>= _) = _
  rw [hopen]
  rfl

/-- A call of the mounted volume does what the call of the store does. -/
theorem step_simulates (hopt : Formattable opt) (hS : HashNames S) (hfuel : 2 ^ 32 ≤ fuel) :
    Simulates (Stands opt S) (fun s => s.Allowed opt S) (Mount.step fuel) (Store.step opt) := by
  rintro m s op ⟨v, hints, chains, h⟩ hallowed
  cases op with
  | openDev now key name rw =>
      obtain ⟨hnew, hname, hlen, hmost⟩ := hallowed
      exact Tied.openDev hopt hS h now hnew hname hlen hmost rw
  | read key n => exact h.read hopt hfuel hallowed n
  | write now key src => exact h.write hopt hfuel hallowed.1 now hallowed.2
  | seek key pos whence => exact h.seek hallowed pos whence
  | flush key => exact h.flush hopt hallowed
  | trunc key len => exact h.trunc hopt hfuel hallowed.1 hallowed.2
  | close key => exact h.close hopt hallowed
  | nameSet key name => exact Tied.nameSet hopt hS h hallowed.1 hallowed.2
  | unlink name => exact Tied.unlink hopt hS h hfuel hallowed.1 hallowed.2

theorem append_stands (hg : Growable opt count) (hcount : count ≠ 0) (hm : Stands opt S m s) :
    ∃ m', append m count = (.of .ok, m') ∧
      Stands (grownOptions opt count) S m' (withFree s count.toNat) := by
  obtain ⟨v, hints, chains, h⟩ := hm
  have hgrown := @appendBlocks_disk opt hints count hg hcount v
  refine ⟨_, ?_, _, _, chains, Tied.appended hg h⟩
  rw [append, h.disk, disk_fs, fs_image, v.length_image, hgrown]
  rfl

theorem act_simulates (hS : HashNames S) (hfuel : 2 ^ 32 ≤ fuel) :
    Simulates (Holds S) (Archive.Allowed S) (act fuel) Archive.act := by
  rintro m a act ⟨hopt, hm⟩ hallowed
  cases act with
  | call op =>
      obtain ⟨m', hstep, hm'⟩ := step_simulates hopt hS hfuel m a.store op hm hallowed
      exact ⟨m', act_of_step hstep, hopt, hm'⟩
  | reopen =>
      obtain ⟨image, m', hfinal, hopen, -, hm'⟩ := finalize_openfs hopt hm fuel
      exact ⟨m', act_reopen hfinal hopen, hopt, hm'⟩
  | append count =>
      rcases eq_or_ne count 0 with rfl | hcount
      · exact ⟨m, rfl, hopt, hm⟩
      · obtain ⟨m', hgrown, hm'⟩ := append_stands hallowed hcount hm
        have habs : a.act (.append count) =
            (.code (.of .ok), ⟨grownOptions a.opt count, withFree a.store count.toNat⟩) :=
          if_neg hcount
        rw [act, hgrown, habs]
        exact ⟨m', rfl, hallowed.grown, hm'⟩

/-- A run of allowed acts. -/
def Plays (S : List UInt8 → Prop) (a : Archive) (acts : List Act) : Prop :=
  AllAllowed (Archive.Allowed S) Archive.act a acts

theorem run_simulates (hS : HashNames S) (hfuel : 2 ^ 32 ≤ fuel) (hm : Holds S m a)
    (hacts : Plays S a acts) :
    ∃ m', run (act fuel) m acts = .ok ((runAbs Archive.act a acts).1, m') ∧
      Holds S m' (runAbs Archive.act a acts).2 :=
  (act_simulates hS hfuel).run hm hacts

end

end Iqiq.WhefsRuns
