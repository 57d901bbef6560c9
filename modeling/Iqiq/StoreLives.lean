import Iqiq.StoreInvariants

namespace Iqiq.StoreLives

open Iqiq.BlockedFile
open Iqiq.FileStore
open Iqiq.FileStore.Store
open Iqiq.Simulation
open Iqiq.StoreEffects
open Iqiq.StoreInvariants
open Iqiq.Whefs
open Iqiq.WhefsAppend
open Iqiq.WhefsDirectory
open Iqiq.WhefsMount
open Iqiq.WhefsNaming
open Iqiq.WhefsOpened
open Iqiq.WhefsRuns
open Iqiq.WhefsSessions
open Iqiq.WhefsStore
open Iqiq.WhefsVolume

/-- The number of blocks that an act leaves to nobody. -/
def lostBy (a : Archive) : Act → Nat
  | .call op => lost a.opt a.store op
  | _ => 0

/-- The number of blocks that a run leaves to nobody. -/
def lostIn : Archive → List Act → Nat
  | _, [] => 0
  | a, x :: acts => lostBy a x + lostIn (a.act x).2 acts

/-- The number of blocks that an act adds. -/
def gainedBy : Act → Nat
  | .append count => count.toNat
  | _ => 0

def gainedIn (acts : List Act) : Nat :=
  (acts.map gainedBy).sum

/-- An act that does not say of a file that there are no blocks for its new size. -/
def GrantedAct (a : Archive) : Act → Prop
  | .call op => Granted a.opt a.store op
  | _ => True

/-- An act that leaves what the file `id` holds. -/
def Spares (id : UInt32) (a : Archive) : Act → Prop
  | .call op => ¬ Touches a.opt a.store id op
  | _ => True

/-- A mounted volume stands for the archive. -/
def Mounted (S : List UInt8 → Prop) (a : Archive) : Prop :=
  ∃ m, Holds S m a

section

variable {S : List UInt8 → Prop} {a : Archive} {x : Act} {acts : List Act} {id : UInt32}

theorem Mounted.next (hS : HashNames S) (h : Mounted S a) (hallowed : a.Allowed S x) :
    Mounted S (a.act x).2 := by
  obtain ⟨m, hm⟩ := h
  obtain ⟨m', -, hm'⟩ := act_simulates hS le_rfl m a x hm hallowed
  exact ⟨m', hm'⟩

theorem Mounted.shaped (h : Mounted S a) : Shaped a.opt a.store := by
  obtain ⟨m, -, hm⟩ := h
  exact Stands.shaped hm

theorem Mounted.formattable (h : Mounted S a) : Formattable a.opt := by
  obtain ⟨m, hopt, -⟩ := h
  exact hopt

/-- What each act keeps of an archive, a run of such acts keeps. -/
theorem run_keeps {P : Archive → Prop} {also : Archive → Act → Prop} (hS : HashNames S)
    (hact : ∀ a x, Mounted S a → a.Allowed S x → also a x → P a → P (a.act x).2)
    (ha : Mounted S a) (hP : P a) (hacts : Plays S a acts)
    (halso : AllAllowed also Archive.act a acts) : P (runAbs Archive.act a acts).2 := by
  have hstep : ∀ a x, Mounted S a ∧ P a → a.Allowed S x ∧ also a x →
      Mounted S (a.act x).2 ∧ P (a.act x).2 := by
    rintro a x ⟨ha, hP⟩ ⟨hallowed, halso⟩
    exact ⟨ha.next hS hallowed, hact a x ha hallowed halso hP⟩
  exact (runAbs_induction hstep ⟨ha, hP⟩ (AllAllowed.and hacts halso)).2

theorem allAllowed_true (a : Archive) (acts : List Act) :
    AllAllowed (fun _ _ => True) Archive.act a acts := by
  induction acts generalizing a with
  | nil => trivial
  | cons x acts ih => exact ⟨trivial, ih _⟩

theorem every_act {P : Content UInt8 → Prop}
    (hcall : ∀ op, x = .call op → Every a.opt (a.store.step a.opt op).2 P)
    (h : Every a.opt a.store P) : Every (a.act x).2.opt (a.act x).2.store P := by
  cases x with
  | call op => exact hcall op rfl
  | reopen =>
      intro id hid c hc
      rw [Archive.act, contents_reopened] at hc
      exact h id hid c hc
  | append count =>
      rw [Archive.act]
      split
      · exact h
      · exact h

theorem act_accounted (ha : Mounted S a) (hallowed : a.Allowed S x) :
    accounted (a.act x).2.opt (a.act x).2.store + lostBy a x =
      accounted a.opt a.store + gainedBy x := by
  cases x with
  | call op => exact step_accounted ha.formattable ha.shaped hallowed
  | reopen =>
      have hheld : heldIn a.opt (reopened a.store) = heldIn a.opt a.store :=
        funext fun id => by rw [heldIn, heldIn, contents_reopened]
      show accounted a.opt (reopened a.store) + 0 = accounted a.opt a.store + 0
      rw [accounted, accounted, hheld]
      rfl
  | append count =>
      rcases eq_or_ne count 0 with rfl | hcount
      · rfl
      · rw [Archive.act, if_neg hcount]
        show (a.store.free + count.toNat) + _ + 0 = a.store.free + _ + count.toNat
        rw [Nat.add_zero, Nat.add_right_comm]
        rfl

/-- The blocks that are free, those of the files and those that are lost are all there are. -/
theorem run_accounted (hS : HashNames S) (ha : Mounted S a) (hacts : Plays S a acts) :
    accounted (runAbs Archive.act a acts).2.opt (runAbs Archive.act a acts).2.store +
        lostIn a acts = accounted a.opt a.store + gainedIn acts := by
  induction acts generalizing a with
  | nil => rfl
  | cons x acts ih =>
      have hstep := act_accounted ha hacts.1
      have hrest := ih (Mounted.next hS ha hacts.1) hacts.2
      rw [runAbs_cons]
      simp only [lostIn, gainedIn, List.map_cons, List.sum_cons] at hrest ⊢
      omega

theorem clean_run (hS : HashNames S) (ha : Mounted S a)
    (hclean : Every a.opt a.store (Content.Clean 0)) (hacts : Plays S a acts) :
    Every (runAbs Archive.act a acts).2.opt (runAbs Archive.act a acts).2.store
      (Content.Clean 0) := by
  apply run_keeps (P := fun a => Every a.opt a.store (Content.Clean 0)) hS _ ha hclean hacts
    (allAllowed_true a acts)
  rintro a x ha hallowed - hP
  apply every_act _ hP
  rintro op rfl
  exact every_clean ha.formattable ha.shaped hallowed hP

theorem backed_run (hS : HashNames S) (ha : Mounted S a) (hbacked : Backed a.opt a.store)
    (hacts : Plays S a acts) (hgranted : AllAllowed GrantedAct Archive.act a acts) :
    Backed (runAbs Archive.act a acts).2.opt (runAbs Archive.act a acts).2.store := by
  apply run_keeps (P := fun a => Backed a.opt a.store) hS _ ha hbacked hacts hgranted
  intro a x ha hallowed hgranted hP
  apply every_act _ hP
  rintro op rfl
  exact backed_step ha.formattable ha.shaped hallowed hgranted hP

theorem contents_spared {c : Content UInt8} (hc : contents a.store id = some c)
    (hspares : AllAllowed (Spares id) Archive.act a acts) :
    contents (runAbs Archive.act a acts).2.store id = some c := by
  have hstep : ∀ a x, contents a.store id = some c → Spares id a x →
      contents (a.act x).2.store id = some c := by
    intro a x hc hspares
    cases x with
    | call op => exact contents_of_spared hc hspares
    | reopen => rw [Archive.act, contents_reopened, hc]
    | append count =>
        rw [Archive.act]
        split
        · exact hc
        · exact hc
  exact runAbs_induction (P := fun a => contents a.store id = some c) hstep hc hspares

end

end Iqiq.StoreLives
