import Iqiq.LzLoops

namespace Iqiq.LzRuns

open Iqiq.ByteMemory
open Iqiq.LzUncompress
open Iqiq.LzLoops

/-- The state in which `lzUncompress` enters its first loop. -/
def start (a : Args) (s : State) : State :=
  { s with inptr := a.input + 4, outptr := a.output }

theorem lzUncompress_eq (a : Args) (fuel : Nat) (s : State) :
    lzUncompress a fuel s =
      if (skipLength fuel (start a s)).2 = true then
        mainLoop a fuel (skipLength fuel (start a s)).1
      else ((skipLength fuel (start a s)).1, none) := rfl

theorem skipLength_add {fuel : Nat} {s : State} (h : (skipLength fuel s).2 = true)
    (extra : Nat) : skipLength (fuel + extra) s = skipLength fuel s := by
  induction fuel generalizing s with
  | zero => simp [skipLength] at h
  | succ fuel ih =>
      rw [Nat.add_right_comm, skipLength, skipLength]
      rw [skipLength] at h
      split
      · rename_i hgo
        rw [if_pos hgo] at h
        exact ih h
      · rfl

theorem mainLoop_add {a : Args} {fuel : Nat} {s : State} {ret : Int}
    (h : (mainLoop a fuel s).2 = some ret) (extra : Nat) :
    mainLoop a (fuel + extra) s = mainLoop a fuel s := by
  induction fuel generalizing s with
  | zero => simp [mainLoop] at h
  | succ fuel ih =>
      rw [Nat.add_right_comm, mainLoop, mainLoop]
      rw [mainLoop] at h
      split
      · rename_i hmore
        rw [if_pos hmore] at h
        rcases em ((token a s).2 = true) with hok | hok
        · simp only [hok, if_true] at h ⊢
          exact ih h
        · simp only [hok, if_false, Bool.false_eq_true]
      · rfl

theorem lzUncompress_add {a : Args} {fuel : Nat} {s : State} {ret : Int}
    (h : (lzUncompress a fuel s).2 = some ret) (extra : Nat) :
    lzUncompress a (fuel + extra) s = lzUncompress a fuel s := by
  rw [lzUncompress_eq] at h
  rw [lzUncompress_eq, lzUncompress_eq]
  rcases em ((skipLength fuel (start a s)).2 = true) with hskip | hskip
  · rw [if_pos hskip] at h
    rw [skipLength_add hskip, if_pos hskip, if_pos hskip]
    exact mainLoop_add h extra
  · rw [if_neg hskip] at h
    simp at h

theorem Returns.unique {a : Args} {s s' s'' : State} {ret ret' : Int}
    (h : Returns a s ret s') (h' : Returns a s ret' s'') : ret = ret' ∧ s' = s'' := by
  obtain ⟨fuel, hrun⟩ := h
  obtain ⟨fuel', hrun'⟩ := h'
  have h₁ := lzUncompress_add (by rw [hrun]) fuel'
  have h₂ := lzUncompress_add (by rw [hrun']) fuel
  rw [Nat.add_comm fuel' fuel, h₁, hrun, hrun'] at h₂
  simp only [Prod.mk.injEq, Option.some.injEq] at h₂
  exact ⟨h₂.2, h₂.1⟩

theorem tokenReads_pos (m : Mem) (p : Int) (r : Nat) : 1 ≤ tokenReads m p r := by
  unfold tokenReads
  omega

theorem mainLoop_moved (a : Args) (fuel : Nat) (s : State) :
    ∃ i k, Moved s (mainLoop a fuel s).1 i k ∧ k ≤ room a s.outptr := by
  induction fuel generalizing s with
  | zero => exact ⟨0, 0, Moved.refl s, Nat.zero_le _⟩
  | succ fuel ih =>
      rw [mainLoop]
      split
      · obtain ⟨hflag, hmoved, hout⟩ := token_shape a s
        rcases em ((token a s).2 = true) with hok | hok
        · obtain ⟨i, k, hrest, hk⟩ := ih (token a s).1
          rw [hok, eq_comm, decide_eq_true_eq] at hflag
          rw [Nat.min_eq_left hflag] at hmoved
          rw [hout hok, room_add] at hk
          simp only [hok, if_true]
          exact ⟨_, _, hmoved.trans (hout hok) hrest, by omega⟩
        · simp only [hok, if_false, Bool.false_eq_true]
          exact ⟨_, _, hmoved, Nat.min_le_right _ _⟩
      · exact ⟨0, 0, Moved.refl s, Nat.zero_le _⟩

/-- The main loop ends: every token takes at least its first byte. -/
theorem mainLoop_returns (a : Args) {fuel : Nat} {s : State}
    (hfuel : a.endptr - s.inptr ≤ fuel) :
    (mainLoop a (fuel + 1) s).2 = some 0 ∨ (mainLoop a (fuel + 1) s).2 = some 1 := by
  induction fuel generalizing s with
  | zero =>
      rw [mainLoop, if_neg (by omega)]
      exact Or.inl rfl
  | succ fuel ih =>
      rw [mainLoop]
      split
      · obtain ⟨_, hmoved, _⟩ := token_shape a s
        have hreads := tokenReads_pos s.mem s.inptr (room a s.outptr)
        have hin := hmoved.inptr
        rcases em ((token a s).2 = true) with hok | hok
        · simp only [hok, if_true]
          exact ih (by omega)
        · simp [hok]
      · exact Or.inl rfl

theorem lzUncompress_moved (a : Args) (fuel : Nat) (s : State) :
    ∃ i k, Moved (start a s) (lzUncompress a fuel s).1 i k ∧ k ≤ room a a.output := by
  obtain ⟨n, hskip, -, -⟩ := skipLength_moved fuel (start a s)
  rw [lzUncompress_eq]
  split
  · obtain ⟨i, k, hmain, hk⟩ := mainLoop_moved a fuel (skipLength fuel (start a s)).1
    have hout : (skipLength fuel (start a s)).1.outptr = a.output :=
      (skipLength_frame fuel (start a s)).2.1
    rw [hout] at hk
    refine ⟨_, _, hskip.trans ?_ hmain, by omega⟩
    rw [hout]
    simp [start]
  · exact ⟨n, 0, hskip, Nat.zero_le _⟩

theorem returns_of_terminated {a : Args} {s : State} {n : Nat}
    (h : ¬ s.mem (a.input + 4 + n) > 0x7f) :
    ∃ ret s', Returns a s ret s' ∧ (ret = 0 ∨ ret = 1) := by
  have hok : (skipLength (n + 1) (start a s)).2 = true := skipLength_ends h
  obtain ⟨k, hmoved, -⟩ := skipLength_moved (n + 1) (start a s)
  have hin := hmoved.inptr
  have hstart : (start a s).inptr = a.input + 4 := rfl
  have hfuel : a.endptr - (skipLength (n + 1) (start a s)).1.inptr ≤
      (n + a.len.toNat : Nat) := by
    rw [Args.endptr]
    omega
  have hrun : lzUncompress a (n + a.len.toNat + 1) s =
      mainLoop a (n + a.len.toNat + 1) (skipLength (n + 1) (start a s)).1 := by
    rw [lzUncompress_eq, Nat.add_right_comm, skipLength_add hok, if_pos hok]
  rcases mainLoop_returns a hfuel with hret | hret
  · exact ⟨0, _, ⟨_, hrun.trans (Prod.ext rfl hret)⟩, Or.inl rfl⟩
  · exact ⟨1, _, ⟨_, hrun.trans (Prod.ext rfl hret)⟩, Or.inr rfl⟩

theorem skipLength_loads_mono (fuel extra : Nat) (s : State) :
    (skipLength fuel s).1.loads <+: (skipLength (fuel + extra) s).1.loads := by
  induction fuel generalizing s with
  | zero =>
      obtain ⟨n, hmoved, -⟩ := skipLength_moved (0 + extra) s
      exact ⟨_, hmoved.loads.symm⟩
  | succ fuel ih =>
      rw [Nat.add_right_comm, skipLength, skipLength]
      split
      · exact ih s.advance
      · exact List.prefix_refl _

theorem mainLoop_loads_mono (a : Args) (fuel extra : Nat) (s : State) :
    (mainLoop a fuel s).1.loads <+: (mainLoop a (fuel + extra) s).1.loads := by
  induction fuel generalizing s with
  | zero =>
      obtain ⟨i, k, hmoved, -⟩ := mainLoop_moved a (0 + extra) s
      exact ⟨_, hmoved.loads.symm⟩
  | succ fuel ih =>
      rw [Nat.add_right_comm, mainLoop, mainLoop]
      split
      · rcases em ((token a s).2 = true) with hok | hok
        · simp only [hok, if_true]
          exact ih _
        · simp only [hok, if_false, Bool.false_eq_true]
          exact List.prefix_refl _
      · exact List.prefix_refl _

theorem skipLength_prefix_lzUncompress (a : Args) (fuel : Nat) (s : State) :
    (skipLength fuel (start a s)).1.loads <+: (lzUncompress a fuel s).1.loads := by
  rw [lzUncompress_eq]
  split
  · obtain ⟨i, k, hmoved, -⟩ := mainLoop_moved a fuel (skipLength fuel (start a s)).1
    exact ⟨_, hmoved.loads.symm⟩
  · exact List.prefix_refl _

theorem lzUncompress_loads_mono (a : Args) (fuel extra : Nat) (s : State) :
    (lzUncompress a fuel s).1.loads <+: (lzUncompress a (fuel + extra) s).1.loads := by
  rcases em ((skipLength fuel (start a s)).2 = true) with hskip | hskip
  · rw [lzUncompress_eq, lzUncompress_eq, skipLength_add hskip, if_pos hskip, if_pos hskip]
    exact mainLoop_loads_mono a fuel extra _
  · rw [lzUncompress_eq a fuel, if_neg hskip]
    exact (skipLength_loads_mono fuel extra (start a s)).trans
      (skipLength_prefix_lzUncompress a _ s)

end Iqiq.LzRuns
