import Iqiq.CharacterData

namespace Iqiq.DumpLayout

open Iqiq.CharacterData
open Iqiq.Dump

-- bounded quantifiers are decided along the list, not over all strings
local instance (priority := 2000) decidableForallMemTags {α : Type} {p : α → Prop}
    [DecidablePred p] {l : List α} : Decidable (∀ a ∈ l, p a) :=
  List.decidableBAll p l

/-- Each element is closed with the name and the `empty` flag that it was opened with. -/
inductive WellNested : List Callback → Prop
  | nil : WellNested []
  | cdata (ch : List Char) (start length : Nat) {rest : List Callback} :
      WellNested rest → WellNested (.cdata ch start length :: rest)
  | element (n : TagName) (attrs : List Attribute) (empty : Bool) {inner rest : List Callback} :
      WellNested inner → WellNested rest →
        WellNested (.startElement n attrs empty :: (inner ++ .endElement n empty :: rest))

/-- What a callback adds to the number of the open elements whose `empty` flag is not
set. -/
def opens : Callback → Int
  | .startElement _ _ false => 1
  | .endElement _ false => -1
  | _ => 0

def openElements : List Callback → Int
  | [] => 0
  | callback :: more => opens callback + openElements more

theorem openElements_append (xs ys : List Callback) :
    openElements (xs ++ ys) = openElements xs + openElements ys := by
  induction xs with
  | nil => simp [openElements]
  | cons callback xs ih =>
      rw [List.cons_append, openElements, openElements, ih, Int.add_assoc]

theorem openElements_concat (xs : List Callback) (callback : Callback) :
    openElements (xs ++ [callback]) = openElements xs + opens callback := by
  rw [openElements_append, openElements, openElements, Int.add_zero]

/-- No element is closed that was not opened, and all are closed in the end. -/
structure Balanced (cs : List Callback) : Prop where
  nonneg : ∀ pre, pre <+: cs → 0 ≤ openElements pre
  zero : openElements cs = 0

theorem Balanced.append {xs ys : List Callback} (hx : Balanced xs) (hy : Balanced ys) :
    Balanced (xs ++ ys) := by
  constructor
  · intro pre hpre
    rcases List.prefix_or_prefix_of_prefix hpre (List.prefix_append xs ys) with h | h
    · exact hx.nonneg pre h
    · obtain ⟨more, rfl⟩ := h
      have hmore := hy.nonneg more ((List.prefix_append_right_inj xs).mp hpre)
      rw [openElements_append, hx.zero]
      omega
  · rw [openElements_append, hx.zero, hy.zero, Int.add_zero]

theorem Balanced.element {xs : List Callback} (h : Balanced xs) (n : TagName)
    (attrs : List Attribute) (empty : Bool) :
    Balanced (.startElement n attrs empty :: (xs ++ [.endElement n empty])) := by
  have hopens : 0 ≤ opens (.startElement n attrs empty) ∧
      opens (.startElement n attrs empty) + opens (.endElement n empty) = 0 := by
    cases empty
    · simp [opens]
    · simp [opens]
  have hzero : openElements (.startElement n attrs empty :: (xs ++ [.endElement n empty])) = 0 := by
    rw [openElements, openElements_concat, h.zero]
    omega
  refine ⟨fun pre hpre => ?_, hzero⟩
  rcases List.prefix_cons_iff.mp hpre with rfl | ⟨inner, rfl, hinner⟩
  · exact Int.le_refl 0
  · rcases List.prefix_concat_iff.mp hinner with rfl | hinner
    · exact Int.le_of_eq hzero.symm
    · have hnonneg := h.nonneg inner hinner
      rw [openElements]
      omega

theorem WellNested.balanced {cs : List Callback} (h : WellNested cs) : Balanced cs := by
  induction h with
  | nil =>
      refine ⟨fun pre hpre => ?_, rfl⟩
      rw [List.prefix_nil.mp hpre]
      exact Int.le_refl 0
  | cdata ch start length _ ih =>
      have hone : Balanced [.cdata ch start length] := by
        refine ⟨fun pre hpre => ?_, rfl⟩
        rcases List.prefix_cons_iff.mp hpre with rfl | ⟨rest, rfl, hrest⟩
        · exact Int.le_refl 0
        · rw [List.prefix_nil.mp hrest]
          exact Int.le_refl 0
      exact hone.append ih
  | element n attrs empty _ _ ihInner ih =>
      have h := (ihInner.element n attrs empty).append ih
      rwa [List.cons_append, List.append_assoc, List.singleton_append] at h

theorem call_indent (ctx : ParseContext) (callback : Callback) :
    (callback.call ctx).2.indent = ctx.indent + tabWidth * opens callback := by
  cases callback with
  | startElement n attrs empty =>
      cases empty
      · simp [Callback.call, startElement, opens]
      · simp [Callback.call, startElement, opens]
  | endElement n empty =>
      cases empty
      · simp only [Callback.call, endElement, opens]
        simp
        omega
      · simp [Callback.call, endElement, opens]
  | cdata ch start length => simp [Callback.call, Dump.cdata, opens]

theorem deliver_append (ctx : ParseContext) (xs ys : List Callback) :
    deliver ctx (xs ++ ys) =
      ((deliver ctx xs).1 ++ (deliver (deliver ctx xs).2 ys).1,
        (deliver (deliver ctx xs).2 ys).2) := by
  induction xs generalizing ctx with
  | nil => rfl
  | cons callback xs ih => simp [deliver, ih]

theorem deliver_indent (ctx : ParseContext) (cs : List Callback) :
    (deliver ctx cs).2.indent = ctx.indent + tabWidth * openElements cs := by
  induction cs generalizing ctx with
  | nil => simp [deliver, openElements]
  | cons callback cs ih =>
      have hcall := call_indent ctx callback
      rw [deliver, openElements]
      simp only [ih, hcall]
      rw [Int.mul_add, Int.add_assoc]

theorem deliver_context (cs : List Callback) :
    (deliver ⟨0⟩ cs).2 = ⟨tabWidth * openElements cs⟩ := by
  have h := deliver_indent ⟨0⟩ cs
  rw [Int.zero_add] at h
  rw [← h]

/-- What is on the current line after more text has been printed behind `line`. -/
def lineAfter (line : List Char) : List Char → List Char
  | [] => line
  | c :: text => lineAfter (if c = '\n' then [] else line ++ [c]) text

theorem lineAfter_append (line xs ys : List Char) :
    lineAfter line (xs ++ ys) = lineAfter (lineAfter line xs) ys := by
  induction xs generalizing line with
  | nil => rfl
  | cons c xs ih => exact ih _

theorem lineAfter_of_notMem {line text : List Char} (h : '\n' ∉ text) :
    lineAfter line text = line ++ text := by
  induction text generalizing line with
  | nil => rw [lineAfter, List.append_nil]
  | cons c text ih =>
      rw [List.mem_cons, not_or] at h
      rw [lineAfter, if_neg (Ne.symm h.1), ih h.2, List.append_assoc, List.singleton_append]

theorem lineAfter_concat_eq_nil_iff {line text : List Char} {c : Char} :
    lineAfter line (text ++ [c]) = [] ↔ c = '\n' := by
  rw [lineAfter_append, lineAfter, lineAfter]
  split
  · rename_i hc
    simp [hc]
  · rename_i hc
    simp [hc]

theorem notMem_indent (col : Int) : '\n' ∉ indent col := by
  intro h
  exact absurd (List.eq_of_mem_replicate h) (by decide)

theorem lineAfter_indent (line : List Char) (col : Int) :
    lineAfter line (indent col) = line ++ indent col :=
  lineAfter_of_notMem (notMem_indent col)

theorem tag_notMem (n : TagName) : '\n' ∉ n.xmlName.toList := by
  have h : ∀ s ∈ tagTable, '\n' ∉ s.toList := by decide +kernel
  exact h n.xmlName n.mem

/-- The callbacks leave the output at the start of a line. `before` are those that came
before, the last one first. -/
def AtLineStart : List Callback → Prop
  | [] => True
  | .startElement _ _ _ :: _ => True
  | .endElement _ empty :: before => empty = true → AtLineStart before
  | .cdata ch start length :: before =>
      -- an empty text is printed as its indentation
      let text := (ch.drop start).take length
      text.getLast? = some '\n' ∨
        text = [] ∧ openElements before.reverse ≤ 0 ∧ AtLineStart before

/-- The current line after the callbacks. -/
def lineOf (cs : List Callback) : List Char :=
  lineAfter [] (deliver ⟨0⟩ cs).1

theorem lineOf_concat (cs : List Callback) (callback : Callback) :
    lineOf (cs ++ [callback]) =
      lineAfter (lineOf cs) (callback.call ⟨tabWidth * openElements cs⟩).1 := by
  rw [lineOf, deliver_append, lineAfter_append, deliver_context, lineOf]
  simp [deliver]

theorem lineAfter_startElement (line : List Char) (ctx : ParseContext) (n : TagName)
    (attrs : List Attribute) (empty : Bool) :
    lineAfter line (startElement ctx n attrs empty).1 = [] := by
  rw [startElement]
  cases empty
  · simp only [Bool.false_eq_true, if_false, lineAfter_append]
    rfl
  · simp only [if_true, lineAfter_append]
    rfl

theorem lineAfter_endElement (line : List Char) (ctx : ParseContext) (n : TagName) :
    lineAfter line (endElement ctx n false).1 = [] := by
  rw [endElement]
  have h (text : List Char) : '<' :: '/' :: (text ++ ['>', '\n']) =
      ('<' :: '/' :: text) ++ ['>', '\n'] := rfl
  simp only [Bool.false_eq_true, if_false, h, lineAfter_append]
  rfl

theorem lineAfter_cdata_eq_nil_iff {line : List Char} {col : Int} {ch : List Char}
    {start length : Nat} :
    lineAfter line (Dump.cdata ⟨col⟩ ch start length).1 = [] ↔
      ((ch.drop start).take length).getLast? = some '\n' ∨
        (ch.drop start).take length = [] ∧ col ≤ 0 ∧ line = [] := by
  rw [Dump.cdata]
  generalize (ch.drop start).take length = text
  rcases List.eq_nil_or_concat text with rfl | ⟨front, c, rfl⟩
  · rw [printChars, List.append_nil, lineAfter_indent, List.append_eq_nil_iff]
    have hindent : indent col = [] ↔ col ≤ 0 := by
      rw [Dump.indent, List.replicate_eq_nil_iff]
      omega
    rw [hindent]
    simp [and_comm]
  · have hprint (b : Bool) : ∃ blank, printChars col b [c] = blank ++ [c] := ⟨_, rfl⟩
    obtain ⟨blank, hblank⟩ := hprint (lineState false front)
    rw [List.concat_eq_append]
    simp only
    rw [printChars_append, hblank, ← List.append_assoc, ← List.append_assoc,
      lineAfter_concat_eq_nil_iff]
    simp

theorem lineOf_eq_nil_iff (before : List Callback) :
    lineOf before.reverse = [] ↔ AtLineStart before := by
  induction before with
  | nil => exact iff_of_true rfl trivial
  | cons callback before ih =>
      rw [List.reverse_cons, lineOf_concat]
      cases callback with
      | startElement n attrs empty =>
          exact iff_of_true (lineAfter_startElement _ _ _ _ _) trivial
      | endElement n empty =>
          cases empty
          · refine iff_of_true (lineAfter_endElement _ _ _) ?_
            intro h
            exact nomatch h
          · simp only [Callback.call, endElement, if_true, lineAfter, AtLineStart, true_implies]
            exact ih
      | cdata ch start length =>
          rw [Callback.call, lineAfter_cdata_eq_nil_iff, AtLineStart, ih]
          have hcol : tabWidth * openElements before.reverse ≤ 0 ↔
              openElements before.reverse ≤ 0 := by
            simp only [tabWidth]
            omega
          rw [hcol]

def PrintsTag : Callback → Prop
  | .startElement _ _ _ => True
  | .endElement _ empty => empty = false
  | .cdata _ _ _ => False

/-- The number of open elements around the one that the tag belongs to, after the callbacks
`before`. -/
def tagDepth (before : List Callback) : Callback → Int
  | .endElement _ _ => openElements before - 1
  | _ => openElements before

def tagText : Callback → List Char
  | .startElement n _ _ => '<' :: n.xmlName.toList
  | .endElement n _ => '<' :: '/' :: (n.xmlName.toList ++ ['>'])
  | .cdata _ _ _ => []

/-- In what is printed behind `line`, the tag is the first text of its line that is not
blank, and it starts in column `col`. -/
def TagAt (col : Nat) (line printed tag : List Char) : Prop :=
  ∃ blank after, printed = blank ++ (tag ++ after) ∧ (∀ c ∈ blank, c = ' ') ∧
    lineAfter line blank = List.replicate col ' '

theorem call_of_printsTag {callback : Callback} (h : PrintsTag callback) (cs : List Callback) :
    (∃ rest, tagText callback = '<' :: rest) ∧
      ∃ after, (callback.call ⟨tabWidth * openElements cs⟩).1 =
        indent (tabWidth * tagDepth cs callback) ++ (tagText callback ++ after) := by
  cases callback with
  | startElement n attrs empty =>
      refine ⟨⟨_, rfl⟩, ?_⟩
      simp only [Callback.call, startElement, tagDepth, tagText]
      cases empty
      · refine ⟨printAttributes (tabWidth * openElements cs + n.xmlName.length + 2) 0 attrs ++
          ['>', '\n'], ?_⟩
        simp
      · refine ⟨printAttributes (tabWidth * openElements cs + n.xmlName.length + 2) 0 attrs ++
          [' ', '/', '>', '\n'], ?_⟩
        simp
  | endElement n empty =>
      refine ⟨⟨_, rfl⟩, ['\n'], ?_⟩
      have hempty : empty = false := h
      have hcol : tabWidth * openElements cs - tabWidth = tabWidth * (openElements cs - 1) := by
        simp only [tabWidth]
        omega
      simp only [Callback.call, endElement, tagDepth, tagText, hempty, Bool.false_eq_true, if_false,
        hcol]
      simp
  | cdata ch start length => exact absurd h id

theorem blanks_unique {xs ys as bs : List Char} (hx : ∀ c ∈ xs, c = ' ') (hy : ∀ c ∈ ys, c = ' ')
    (h : xs ++ '<' :: as = ys ++ '<' :: bs) : xs = ys := by
  induction xs generalizing ys with
  | nil =>
      cases ys with
      | nil => rfl
      | cons y ys =>
          obtain rfl : y = ' ' := hy y List.mem_cons_self
          exact absurd (List.cons.inj h).1 (by decide)
  | cons x xs ih =>
      cases ys with
      | nil =>
          obtain rfl : x = ' ' := hx x List.mem_cons_self
          exact absurd (List.cons.inj h).1 (by decide)
      | cons y ys =>
          obtain ⟨rfl, htail⟩ := List.cons.inj h
          rw [ih (fun c hc => hx c (List.mem_cons_of_mem x hc))
            (fun c hc => hy c (List.mem_cons_of_mem x hc)) htail]

theorem tagAt_iff {line rest after : List Char} {col : Int} :
    TagAt col.toNat line (indent col ++ ('<' :: rest ++ after)) ('<' :: rest) ↔ line = [] := by
  have hindent : ∀ c ∈ indent col, c = ' ' := fun c hc => List.eq_of_mem_replicate hc
  constructor
  · rintro ⟨blank, after', heq, hblank, hline⟩
    rw [← blanks_unique hindent hblank heq, lineAfter_indent] at hline
    exact List.append_left_eq_self.mp hline
  · rintro rfl
    exact ⟨indent col, after, rfl, hindent, lineAfter_indent [] col⟩

/-- What `start_element` has printed when it comes to the name of the attribute `i`. -/
def attributeFront (ctx : ParseContext) (n : TagName) (attrs : List Attribute) (i : Nat) :
    List Char :=
  let startCol := ctx.indent + n.xmlName.length + 2
  indent ctx.indent ++ '<' :: (n.xmlName.toList ++ (printAttributes startCol 0 (attrs.take i) ++
    if i = 0 then indent 1 else '\n' :: indent startCol))

theorem printAttributes_append (startCol : Int) (i : Nat) (xs ys : List Attribute) :
    printAttributes startCol i (xs ++ ys) =
      printAttributes startCol i xs ++ printAttributes startCol (i + xs.length) ys := by
  induction xs generalizing i with
  | nil => rfl
  | cons attr xs ih =>
      rw [List.cons_append, printAttributes, ih, printAttributes, List.length_cons,
        Nat.add_right_comm, Nat.add_assoc]
      simp only [List.append_assoc, List.cons_append]

/-- What is printed goes on behind `front` with the attribute. -/
def AttributeBehind (attr : Attribute) (front printed : List Char) : Prop :=
  ∃ after, printed =
    front ++ (attr.name.xmlName.toList ++ '=' :: '"' :: (attr.xmlValue ++ '"' :: after))

theorem startElement_attribute (ctx : ParseContext) (n : TagName) {attrs : List Attribute}
    (empty : Bool) {i : Nat} (hi : i < attrs.length) :
    AttributeBehind attrs[i] (attributeFront ctx n attrs i)
      (startElement ctx n attrs empty).1 := by
  have hattrs : attrs = attrs.take i ++ attrs[i] :: attrs.drop (i + 1) := by
    rw [← List.drop_eq_getElem_cons hi, List.take_append_drop]
  have hlen : 0 + (attrs.take i).length = i := by
    rw [List.length_take, Nat.zero_add, Nat.min_eq_left (Nat.le_of_lt hi)]
  have hprint : printAttributes (ctx.indent + n.xmlName.length + 2) 0 attrs =
      printAttributes (ctx.indent + n.xmlName.length + 2) 0 (attrs.take i) ++
        printAttributes (ctx.indent + n.xmlName.length + 2) i
          (attrs[i] :: attrs.drop (i + 1)) := by
    conv => lhs; rw [hattrs, printAttributes_append, hlen]
  rw [startElement, hprint, printAttributes]
  cases empty
  · refine ⟨printAttributes (ctx.indent + n.xmlName.length + 2) (i + 1) (attrs.drop (i + 1)) ++
      ['>', '\n'], ?_⟩
    simp [attributeFront]
  · refine ⟨printAttributes (ctx.indent + n.xmlName.length + 2) (i + 1) (attrs.drop (i + 1)) ++
      [' ', '/', '>', '\n'], ?_⟩
    simp [attributeFront]

theorem length_lineAfter_attributeFront {ctx : ParseContext} (hctx : 0 ≤ ctx.indent) (n : TagName)
    (attrs : List Attribute) (i : Nat) :
    (lineAfter [] (attributeFront ctx n attrs i)).length =
      (ctx.indent + n.xmlName.length + 2).toNat := by
  rw [attributeFront]
  split
  · rename_i hi
    have hline : '\n' ∉ indent ctx.indent ++ '<' :: (n.xmlName.toList ++
        (printAttributes (ctx.indent + n.xmlName.length + 2) 0 (attrs.take i) ++ indent 1)) := by
      rw [hi, List.take_zero, printAttributes, List.nil_append]
      simp [notMem_indent, tag_notMem]
    rw [lineAfter_of_notMem hline, hi, List.take_zero, printAttributes]
    simp [Dump.indent, String.length_toList]
    omega
  · -- the line that the attribute is on begins with `start_col` blanks
    have hsplit (front : List Char) (col : Int) :
        lineAfter [] (front ++ '\n' :: indent col) = indent col := by
      rw [lineAfter_append, lineAfter, if_pos rfl, lineAfter_indent, List.nil_append]
    rw [List.append_cons, ← List.append_assoc, ← List.append_assoc, hsplit, Dump.indent,
      List.length_replicate]

/-! ### The whole dump -/

/-- The dump is laid out as a tree: the indentation follows the open elements, each tag
starts its line in the column of its element, and so do the two tags of one element, and
the attributes of one element start in one column. -/
structure LaidOut (cs : List Callback) : Prop where
  indent : ∀ pre post, cs = pre ++ post →
    (deliver ⟨0⟩ pre).2.indent = tabWidth * openElements pre ∧ 0 ≤ (deliver ⟨0⟩ pre).2.indent
  closed : (deliver ⟨0⟩ cs).2.indent = 0
  tags : ∀ pre callback post, cs = pre ++ callback :: post → PrintsTag callback →
    TagAt (tabWidth * tagDepth pre callback).toNat (lineOf pre)
      (callback.call (deliver ⟨0⟩ pre).2).1 (tagText callback)
  matching : ∀ pre n attrs inner post,
    cs = pre ++ .startElement n attrs false :: (inner ++ .endElement n false :: post) →
      WellNested inner →
        tagDepth (pre ++ .startElement n attrs false :: inner) (.endElement n false) =
          tagDepth pre (.startElement n attrs false)
  attributes : ∀ pre n attrs empty post, cs = pre ++ .startElement n attrs empty :: post →
    ∃ col, ∀ i (hi : i < attrs.length),
      AttributeBehind attrs[i] (attributeFront (deliver ⟨0⟩ pre).2 n attrs i)
          (startElement (deliver ⟨0⟩ pre).2 n attrs empty).1 ∧
        (lineAfter (lineOf pre) (attributeFront (deliver ⟨0⟩ pre).2 n attrs i)).length = col

/-- Each tag is printed at the start of a line. -/
def TagsStartLines (cs : List Callback) : Prop :=
  ∀ pre callback post, cs = pre ++ callback :: post → PrintsTag callback →
    AtLineStart pre.reverse

theorem tagAt_iff_atLineStart {pre : List Callback} {callback : Callback}
    (h : PrintsTag callback) :
    TagAt (tabWidth * tagDepth pre callback).toNat (lineOf pre)
        (callback.call (deliver ⟨0⟩ pre).2).1 (tagText callback) ↔
      AtLineStart pre.reverse := by
  obtain ⟨⟨rest, htag⟩, after, hprint⟩ := call_of_printsTag h pre
  rw [deliver_context, hprint, htag, tagAt_iff, ← lineOf_eq_nil_iff, List.reverse_reverse]

theorem LaidOut.tagsStartLines {cs : List Callback} (h : LaidOut cs) : TagsStartLines cs :=
  fun pre callback post heq htag =>
    (tagAt_iff_atLineStart htag).mp (h.tags pre callback post heq htag)

/-- A well-nested sequence of callbacks is laid out as a tree exactly when no tag follows
text that does not end its line. -/
theorem laidOut_iff {cs : List Callback} (h : WellNested cs) :
    LaidOut cs ↔ TagsStartLines cs := by
  constructor
  · exact LaidOut.tagsStartLines
  · intro hlines
    have hbalanced := h.balanced
    have hnonneg : ∀ pre post, cs = pre ++ post → 0 ≤ (deliver ⟨0⟩ pre).2.indent := by
      intro pre post heq
      have hpre := hbalanced.nonneg pre ⟨post, heq.symm⟩
      rw [deliver_context]
      simp only [tabWidth]
      omega
    constructor
    · intro pre post heq
      exact ⟨by rw [deliver_context], hnonneg pre post heq⟩
    · rw [deliver_context, hbalanced.zero, Int.mul_zero]
    · intro pre callback post heq htag
      exact (tagAt_iff_atLineStart htag).mpr (hlines pre callback post heq htag)
    · intro pre n attrs inner post _ hinner
      simp only [tagDepth, openElements_append, openElements, opens, hinner.balanced.zero]
      omega
    · intro pre n attrs empty post heq
      have hline : lineOf pre = [] := by
        rw [← List.reverse_reverse pre, lineOf_eq_nil_iff]
        exact hlines pre _ post heq trivial
      refine ⟨((deliver ⟨0⟩ pre).2.indent + n.xmlName.length + 2).toNat, fun i hi => ?_⟩
      refine ⟨startElement_attribute _ n empty hi, ?_⟩
      rw [hline]
      exact length_lineAfter_attributeFront (hnonneg pre _ heq) n attrs i

theorem param_mem : "Param" ∈ tagTable := by decide +kernel

/-- An element with the text `x`. -/
def elementWithText : List Callback :=
  [.startElement ⟨"Param", param_mem⟩ [] false, .cdata ['x'] 0 1,
    .endElement ⟨"Param", param_mem⟩ false]

theorem elementWithText_wellNested : WellNested elementWithText :=
  .element _ [] false (.cdata ['x'] 0 1 .nil) .nil

theorem elementWithText_not_laidOut : WellNested elementWithText ∧ ¬ LaidOut elementWithText := by
  refine ⟨elementWithText_wellNested, fun h => ?_⟩
  have hline := h.tagsStartLines [.startElement ⟨"Param", param_mem⟩ [] false, .cdata ['x'] 0 1]
    (.endElement ⟨"Param", param_mem⟩ false) [] rfl rfl
  simp [AtLineStart] at hline

theorem laidOut_iff_elementWithText : LaidOut elementWithText ↔ TagsStartLines elementWithText :=
  laidOut_iff elementWithText_wellNested

end Iqiq.DumpLayout
