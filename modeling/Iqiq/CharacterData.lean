import Mathlib.Algebra.Ring.Nat
import Iqiq.Dump

namespace Iqiq.CharacterData

open Iqiq.Dump

/-- The value of `new_line` after the characters. -/
def lineState (newLine : Bool) : List Char → Bool
  | [] => newLine
  | c :: rest => lineState (c = '\n') rest

theorem printChars_append (col : Int) (newLine : Bool) (xs ys : List Char) :
    printChars col newLine (xs ++ ys) =
      printChars col newLine xs ++ printChars col (lineState newLine xs) ys := by
  induction xs generalizing newLine with
  | nil => rfl
  | cons c xs ih => simp [printChars, lineState, ih]

/-- The text starts a line: with a character that is not a line break. -/
def StartsLine (text : List Char) : Prop :=
  ∃ c, text.head? = some c ∧ c ≠ '\n'

instance (text : List Char) : Decidable (StartsLine text) :=
  match text with
  | [] => isFalse fun h => nomatch h
  | c :: rest => decidable_of_iff (c ≠ '\n') ⟨fun h => ⟨c, rfl, h⟩, fun h => by
      obtain ⟨d, hd, hne⟩ := h
      obtain rfl : c = d := Option.some.inj hd
      exact hne⟩

theorem printChars_true_of_startsLine {col : Int} {text : List Char} (h : StartsLine text) :
    printChars col true text = indent col ++ printChars col false text := by
  obtain ⟨c, hc, hne⟩ := h
  cases text with
  | nil => exact nomatch hc
  | cons d rest =>
      obtain rfl : d = c := Option.some.inj hc
      simp [printChars, hne]

theorem printChars_true_of_not_startsLine {col : Int} {text : List Char} (h : ¬ StartsLine text) :
    printChars col true text = printChars col false text := by
  cases text with
  | nil => rfl
  | cons c rest =>
      have hc : c = '\n' := by_contra fun hne => h ⟨c, rfl, hne⟩
      simp [printChars, hc]

theorem lineState_eq_true_iff {text : List Char} :
    lineState false text = true ↔ text.getLast? = some '\n' := by
  have hlast (newLine : Bool) (c : Char) (rest : List Char) :
      lineState newLine (c :: rest) = true ↔ (c :: rest).getLast? = some '\n' := by
    induction rest generalizing newLine c with
    | nil => simp [lineState]
    | cons d rest ih =>
        rw [lineState, ih, List.getLast?_cons_cons]
  cases text with
  | nil => simp [lineState]
  | cons c rest => exact hlast false c rest

/-- Deletes the next `skip` characters, and `n` characters after each line break that it
keeps and that another character than a line break follows. It returns the characters that
it keeps and those that it deletes, if there are as many as it is to delete. -/
def unindent (n : Nat) : Nat → List Char → Option (List Char × List Char)
  | 0, [] => some ([], [])
  | _ + 1, [] => none
  | skip + 1, c :: rest => (unindent n skip rest).map fun r => (r.1, c :: r.2)
  | 0, c :: rest =>
      (unindent n (if c = '\n' ∧ StartsLine rest then n else 0) rest).map fun r => (c :: r.1, r.2)

/-- All that is to be deleted is there and is blank, and what is kept is the text. -/
def Restores (n : Nat) (skip : Nat) (out text : List Char) : Prop :=
  ∃ deleted, unindent n skip out = some (text, deleted) ∧ ∀ c ∈ deleted, c = ' '

theorem Restores.indent {n k : Nat} {out text : List Char} (h : Restores n 0 out text) :
    Restores n k (List.replicate k ' ' ++ out) text := by
  induction k with
  | zero => exact h
  | succ k ih =>
      obtain ⟨deleted, hrun, hblank⟩ := ih
      refine ⟨' ' :: deleted, ?_, List.forall_mem_cons.mpr ⟨rfl, hblank⟩⟩
      rw [List.replicate_succ, List.cons_append, unindent, hrun]
      rfl

theorem startsLine_replicate {n : Nat} {text : List Char} (h : StartsLine text) :
    StartsLine (List.replicate n ' ' ++ text) := by
  cases n with
  | zero => exact h
  | succ n => exact ⟨' ', rfl, by decide⟩

theorem startsLine_printChars {col : Int} {text : List Char} :
    StartsLine (printChars col false text) ↔ StartsLine text := by
  cases text with
  | nil => rfl
  | cons c rest => simp [StartsLine, printChars]

theorem restores_printChars (n : Nat) (text : List Char) :
    Restores n 0 (printChars n false text) text := by
  induction text with
  | nil => exact ⟨[], rfl, List.forall_mem_nil _⟩
  | cons c rest ih =>
      have hprint : printChars n false (c :: rest) = c :: printChars n (c = '\n') rest := by
        simp [printChars]
      have hnext : Restores n
          (if c = '\n' ∧ StartsLine (printChars n (c = '\n') rest) then n else 0)
          (printChars n (c = '\n') rest) rest := by
        rcases em (c = '\n') with rfl | hc
        · rcases em (StartsLine rest) with hstart | hstart
          · -- the next line is indented, and that is what is deleted
            rw [decide_eq_true rfl, printChars_true_of_startsLine hstart, Dump.indent,
              Int.toNat_natCast]
            rw [if_pos ⟨rfl, startsLine_replicate (startsLine_printChars.mpr hstart)⟩]
            exact ih.indent
          · rw [decide_eq_true rfl, printChars_true_of_not_startsLine hstart,
              if_neg fun h => hstart (startsLine_printChars.mp h.2)]
            exact ih
        · rw [if_neg fun h => hc h.1, decide_eq_false hc]
          exact ih
      obtain ⟨deleted, hrun, hblank⟩ := hnext
      refine ⟨deleted, ?_, hblank⟩
      rw [hprint, unindent, hrun]
      rfl

/-- What one callback prints gives the text back when its indentation is deleted. -/
theorem restores_cdata (n : Nat) (ch : List Char) (start length : Nat) :
    Restores n n (cdata ⟨n⟩ ch start length).1 ((ch.drop start).take length) := by
  have h := (restores_printChars n ((ch.drop start).take length)).indent (k := n)
  rwa [cdata, Dump.indent, Int.toNat_natCast]

/-- The callback for a piece of text. -/
def callback (s : Slice) : Callback :=
  .cdata s.ch s.start s.length

/-- The texts, one after the other, each as its own callback prints it. -/
def printPieces (col : Int) : List (List Char) → List Char
  | [] => []
  | text :: more => indent col ++ (printChars col false text ++ printPieces col more)

theorem deliver_callback (col : Int) (pieces : List Slice) :
    (deliver ⟨col⟩ (pieces.map callback)).1 = printPieces col (pieces.map Slice.text) := by
  induction pieces with
  | nil => rfl
  | cons s pieces ih =>
      simp only [List.map_cons, callback, deliver, Callback.call, cdata, printPieces,
        List.append_assoc]
      rw [← ih]
      rfl

/-- The cut between two texts lies at the start of a line that is not empty. -/
def CutAtLine (before after : List Char) : Prop :=
  before.getLast? = some '\n' ∧ StartsLine after

section

variable {col : Int}

theorem length_indent (h : 0 < col) : 0 < (indent col).length := by
  rw [Dump.indent, List.length_replicate]
  omega

theorem length_printChars_flatten_le (newLine : Bool) (texts : List (List Char)) :
    (printChars col newLine texts.flatten).length ≤ (printPieces col texts).length := by
  induction texts generalizing newLine with
  | nil => exact Nat.le_refl 0
  | cons text more ih =>
      have hfirst : (printChars col newLine text).length ≤
          (indent col).length + (printChars col false text).length := by
        cases newLine with
        | false => exact Nat.le_add_left _ _
        | true =>
            rcases em (StartsLine text) with h | h
            · rw [printChars_true_of_startsLine h, List.length_append]
            · rw [printChars_true_of_not_startsLine h]
              exact Nat.le_add_left _ _
      have hmore := ih (lineState newLine text)
      rw [List.flatten_cons, printChars_append, printPieces]
      simp only [List.length_append]
      omega

theorem lineState_of_startsLine {text : List Char} (h : StartsLine text) (newLine : Bool) :
    lineState newLine text = lineState false text := by
  obtain ⟨c, hc, -⟩ := h
  cases text with
  | nil => exact nomatch hc
  | cons d rest => rfl

theorem printPieces_cons_eq_iff (hcol : 0 < col) {newLine : Bool} {text : List Char}
    {more : List (List Char)} :
    printPieces col (text :: more) = printChars col newLine (text :: more).flatten ↔
      newLine = true ∧ StartsLine text ∧
        printPieces col more = printChars col (lineState false text) more.flatten := by
  rw [List.flatten_cons, printChars_append, printPieces]
  rcases em (newLine = true ∧ StartsLine text) with ⟨rfl, hstart⟩ | hsame
  · rw [printChars_true_of_startsLine hstart, lineState_of_startsLine hstart, List.append_assoc,
      List.append_cancel_left_eq, List.append_cancel_left_eq]
    simp [hstart]
  · refine iff_of_false (fun h => ?_) fun h => hsame ⟨h.1, h.2.1⟩
    have hfirst : printChars col newLine text = printChars col false text := by
      cases newLine with
      | false => rfl
      | true => exact printChars_true_of_not_startsLine fun hstart => hsame ⟨rfl, hstart⟩
    have hlen := congrArg List.length h
    have hle := @length_printChars_flatten_le col (lineState newLine text) more
    have hindent := length_indent hcol
    rw [hfirst] at hlen
    simp only [List.length_append] at hlen
    omega

/-- Behind a text, the others are printed as one exactly when each of them starts a line
where the one before it has ended. -/
theorem printPieces_eq_iff (hcol : 0 < col) {text : List Char} {more : List (List Char)} :
    printPieces col more = printChars col (lineState false text) more.flatten ↔
      List.IsChain CutAtLine (text :: more) := by
  induction more generalizing text with
  | nil => simp [printPieces, printChars]
  | cons next more ih =>
      rw [printPieces_cons_eq_iff hcol, ih, List.isChain_cons_cons, lineState_eq_true_iff,
        CutAtLine, and_assoc]

theorem printChars_of_le (hcol : col ≤ 0) (newLine : Bool) (text : List Char) :
    printChars col newLine text = text := by
  have hnil : indent col = [] := by
    rw [Dump.indent, Int.toNat_of_nonpos hcol, List.replicate_zero]
  induction text generalizing newLine with
  | nil => rfl
  | cons c rest ih => simp [printChars, hnil, ih]

theorem printPieces_of_le (hcol : col ≤ 0) (texts : List (List Char)) :
    printPieces col texts = texts.flatten := by
  have hnil : indent col = [] := by
    rw [Dump.indent, Int.toNat_of_nonpos hcol, List.replicate_zero]
  induction texts with
  | nil => rfl
  | cons text more ih =>
      rw [printPieces, hnil, printChars_of_le hcol, ih]
      rfl

end

/-- Callbacks for the pieces print what one callback for the whole text prints. -/
def PrintsAsOne (col : Int) (pieces : List Slice) : Prop :=
  ∀ whole : Slice, whole.text = (pieces.map Slice.text).flatten →
    (deliver ⟨col⟩ (pieces.map callback)).1 = (deliver ⟨col⟩ [callback whole]).1

theorem deliver_whole (col : Int) (whole : Slice) :
    (deliver ⟨col⟩ [callback whole]).1 = indent col ++ printChars col false whole.text := by
  have h := deliver_callback col [whole]
  rw [List.map_singleton, List.map_singleton] at h
  rw [h, printPieces, printPieces, List.append_nil]

theorem exists_whole (text : List Char) : ∃ whole : Slice, whole.text = text :=
  ⟨⟨text, 0, text.length, by omega⟩, by simp [Slice.text]⟩

/-- The printed text does not depend on the cuts exactly when nothing is indented, or each
cut lies at the start of a line that is not empty. -/
theorem printsAsOne_iff (col : Int) (piece : Slice) (pieces : List Slice) :
    PrintsAsOne col (piece :: pieces) ↔
      col ≤ 0 ∨ List.IsChain CutAtLine ((piece :: pieces).map Slice.text) := by
  have hpieces (whole : Slice) (htext : whole.text = ((piece :: pieces).map Slice.text).flatten) :
      (deliver ⟨col⟩ ((piece :: pieces).map callback)).1 = (deliver ⟨col⟩ [callback whole]).1 ↔
        printPieces col (pieces.map Slice.text) =
          printChars col (lineState false piece.text) (pieces.map Slice.text).flatten := by
    rw [deliver_callback, deliver_whole, htext, List.map_cons, printPieces, List.flatten_cons,
      printChars_append, List.append_cancel_left_eq, List.append_cancel_left_eq]
  rcases Int.lt_or_le 0 col with hcol | hcol
  · rw [or_iff_right (by omega), List.map_cons, ← printPieces_eq_iff hcol]
    constructor
    · intro h
      obtain ⟨whole, htext⟩ := exists_whole ((piece :: pieces).map Slice.text).flatten
      exact (hpieces whole htext).mp (h whole htext)
    · intro h whole htext
      exact (hpieces whole htext).mpr h
  · refine iff_of_true (fun whole htext => (hpieces whole htext).mpr ?_) (Or.inl hcol)
    rw [printPieces_of_le hcol, printChars_of_le hcol]

theorem not_printsAsOne_twoLetters :
    ¬ PrintsAsOne 4 [⟨['a'], 0, 1, by decide⟩, ⟨['b'], 0, 1, by decide⟩] := by
  intro h
  exact absurd (h ⟨['a', 'b'], 0, 2, by decide⟩ rfl) (by decide)

end Iqiq.CharacterData
