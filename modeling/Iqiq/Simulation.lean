import Mathlib.Data.List.Basic

namespace Iqiq.Simulation

/-! A concrete machine whose calls may fail, against an abstract one whose calls do not. -/

variable {σ τ op ans ε : Type}

/-- A run of the concrete machine, up to the first call that fails. -/
def run (step : σ → op → Except ε (ans × σ)) : σ → List op → Except ε (List ans × σ)
  | s, [] => .ok ([], s)
  | s, o :: os => do
      let (a, s) ← step s o
      let (rest, s) ← run step s os
      return (a :: rest, s)

def runAbs (step : τ → op → ans × τ) : τ → List op → List ans × τ
  | t, [] => ([], t)
  | t, o :: os =>
      let (a, t) := step t o
      let (rest, t) := runAbs step t os
      (a :: rest, t)

/-- Each call of a run is one that is allowed when it is made. -/
def AllAllowed (allowed : τ → op → Prop) (step : τ → op → ans × τ) : τ → List op → Prop
  | _, [] => True
  | t, o :: os => allowed t o ∧ AllAllowed allowed step (step t o).2 os

/-- An allowed call does not fail, gives the same answer and ends in related states. -/
def Simulates (R : σ → τ → Prop) (allowed : τ → op → Prop)
    (cstep : σ → op → Except ε (ans × σ)) (astep : τ → op → ans × τ) : Prop :=
  ∀ s t o, R s t → allowed t o →
    ∃ s', cstep s o = .ok ((astep t o).1, s') ∧ R s' (astep t o).2

variable {R : σ → τ → Prop} {allowed : τ → op → Prop} {cstep : σ → op → Except ε (ans × σ)}
  {astep : τ → op → ans × τ}

theorem run_cons {s s' s'' : σ} {o : op} {os : List op} {a : ans} {as : List ans}
    (hstep : cstep s o = .ok (a, s')) (hrun : run cstep s' os = .ok (as, s'')) :
    run cstep s (o :: os) = .ok (a :: as, s'') := by
  rw [run, hstep]
  change (run cstep s' os >>= _) = _
  rw [hrun]
  rfl

theorem run_append {s s' s'' : σ} {os os' : List op} {as as' : List ans}
    (hrun : run cstep s os = .ok (as, s')) (hrun' : run cstep s' os' = .ok (as', s'')) :
    run cstep s (os ++ os') = .ok (as ++ as', s'') := by
  induction os generalizing s as with
  | nil =>
      cases hrun
      exact hrun'
  | cons o os ih =>
      rw [run] at hrun
      cases hstep : cstep s o with
      | error e =>
          rw [hstep] at hrun
          cases hrun
      | ok result =>
          rw [hstep] at hrun
          change (run cstep result.2 os >>= _) = _ at hrun
          cases hrest : run cstep result.2 os with
          | error e =>
              rw [hrest] at hrun
              cases hrun
          | ok rest =>
              rw [hrest] at hrun
              cases hrun
              exact run_cons hstep (ih hrest)

theorem Simulates.run (h : Simulates R allowed cstep astep) {s : σ} {t : τ} {os : List op}
    (hst : R s t) (hall : AllAllowed allowed astep t os) :
    ∃ s', run cstep s os = .ok ((runAbs astep t os).1, s') ∧ R s' (runAbs astep t os).2 := by
  induction os generalizing s t with
  | nil => exact ⟨s, rfl, hst⟩
  | cons o os ih =>
      obtain ⟨s₁, hstep, hst₁⟩ := h s t o hst hall.1
      obtain ⟨s₂, hrun, hst₂⟩ := ih hst₁ hall.2
      exact ⟨s₂, run_cons hstep hrun, hst₂⟩

/-- What each allowed call keeps, a run of such calls keeps. -/
theorem runAbs_induction {P : τ → Prop} (hstep : ∀ t o, P t → allowed t o → P (astep t o).2)
    {t : τ} {os : List op} (ht : P t) (hall : AllAllowed allowed astep t os) :
    P (runAbs astep t os).2 := by
  induction os generalizing t with
  | nil => exact ht
  | cons o os ih => exact ih (hstep t o ht hall.1) hall.2

theorem AllAllowed.and {also : τ → op → Prop} {t : τ} {os : List op}
    (hall : AllAllowed allowed astep t os) (halso : AllAllowed also astep t os) :
    AllAllowed (fun t o => allowed t o ∧ also t o) astep t os := by
  induction os generalizing t with
  | nil => trivial
  | cons o os ih => exact ⟨⟨hall.1, halso.1⟩, ih hall.2 halso.2⟩

theorem runAbs_cons (t : τ) (o : op) (os : List op) : runAbs astep t (o :: os) =
    ((astep t o).1 :: (runAbs astep (astep t o).2 os).1, (runAbs astep (astep t o).2 os).2) :=
  rfl

theorem runAbs_append (t : τ) (os os' : List op) :
    runAbs astep t (os ++ os') =
      ((runAbs astep t os).1 ++ (runAbs astep (runAbs astep t os).2 os').1,
        (runAbs astep (runAbs astep t os).2 os').2) := by
  induction os generalizing t with
  | nil => rfl
  | cons o os ih =>
      rw [List.cons_append, runAbs_cons, ih, runAbs_cons, List.cons_append]

theorem allAllowed_append {t : τ} {os os' : List op} :
    AllAllowed allowed astep t (os ++ os') ↔
      AllAllowed allowed astep t os ∧ AllAllowed allowed astep (runAbs astep t os).2 os' := by
  induction os generalizing t with
  | nil => exact (true_and _).symm ▸ Iff.rfl
  | cons o os ih => exact (and_congr_right fun _ => ih).trans and_assoc.symm

end Iqiq.Simulation
