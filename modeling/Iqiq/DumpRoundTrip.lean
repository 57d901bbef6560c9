import Iqiq.Dump
import Iqiq.XmlReading

namespace Iqiq.DumpRoundTrip

open Iqiq.Dump
open Iqiq.XmlGrammar
open Iqiq.XmlReading

-- bounded quantifiers are decided along the list, not over all characters
local instance (priority := 2000) decidableForallMem {α : Type} {p : α → Prop}
    [DecidablePred p] {l : List α} : Decidable (∀ a ∈ l, p a) :=
  List.decidableBAll p l

/-- An attribute as the grammar has it. -/
def pair (a : Attribute) : List Char × List Char :=
  (a.name.xmlName.toList, a.xmlValue)

def tag (n : TagName) (attrs : List Attribute) : Tag :=
  ⟨n.xmlName.toList, attrs.map pair⟩

/-- The forest as content of a document. -/
def contentOf : Forest → Content
  | .nil => .nil
  | .text s rest => s.text.foldr .char (contentOf rest)
  | .empty n attrs rest => .element (tag n attrs) .nil (contentOf rest)
  | .element n attrs inner rest => .element (tag n attrs) (contentOf inner) (contentOf rest)

def elementOf (root : Root) : Element :=
  ⟨tag root.localName root.attrs, (root.inner.map contentOf).getD .nil⟩

/-- The dump is a document, and reads back as the tree up to white space in text. -/
def Faithful (root : Root) : Prop :=
  ∃ e, document (dump root) = some e ∧ e.strip = (elementOf root).strip

/-- Conditions on each attribute list and on each text of a forest. -/
def Everywhere (onAttributes : List Attribute → Prop) (onText : List Char → Prop) :
    Forest → Prop
  | .nil => True
  | .text s rest => onText s.text ∧ Everywhere onAttributes onText rest
  | .empty _ attrs rest => onAttributes attrs ∧ Everywhere onAttributes onText rest
  | .element _ attrs inner rest =>
      onAttributes attrs ∧ Everywhere onAttributes onText inner ∧
        Everywhere onAttributes onText rest

instance Everywhere.decidable {onAttributes : List Attribute → Prop}
    {onText : List Char → Prop} [DecidablePred onAttributes] [DecidablePred onText] :
    DecidablePred (Everywhere onAttributes onText)
  | .nil => isTrue trivial
  | .text _ rest => @instDecidableAnd _ _ _ (Everywhere.decidable rest)
  | .empty _ _ rest => @instDecidableAnd _ _ _ (Everywhere.decidable rest)
  | .element _ _ inner rest =>
      @instDecidableAnd _ _ _
        (@instDecidableAnd _ _ (Everywhere.decidable inner) (Everywhere.decidable rest))

/-- All strings consist of legal characters. -/
abbrev Legal : Forest → Prop :=
  Everywhere (fun attrs => ∀ a ∈ attrs, ∀ c ∈ a.xmlValue, isLegal c)
    (fun text => ∀ c ∈ text, isLegal c)

/-- No name is repeated, and no value needs escaping. -/
abbrev PlainAttributes (attrs : List Attribute) : Prop :=
  (attrs.map Attribute.name).Pairwise (fun m n => m.xmlName ≠ n.xmlName) ∧
    ∀ a ∈ attrs, PlainValue a.xmlValue

/-- No string holds anything that would have to be escaped, and no element repeats an
attribute. -/
abbrev Plain : Forest → Prop :=
  Everywhere PlainAttributes PlainText

theorem isName_tag (n : TagName) : IsName n.xmlName.toList := by
  have h : ∀ s ∈ tagTable, IsName s.toList := by decide +kernel
  exact h n.xmlName n.mem

theorem isName_attribute (n : AttributeName) : IsName n.xmlName.toList := by
  have h : ∀ s ∈ attrTable, IsName s.toList := by decide +kernel
  exact h n.xmlName n.mem

theorem isSpace_of_mem_indent {n : Int} {c : Char} (h : c ∈ indent n) : isSpace c := by
  rw [List.eq_of_mem_replicate h]
  rfl

theorem separator_ne_nil {i : Nat} {col : Int} :
    (if i = 0 then indent 1 else '\n' :: indent col) ≠ [] := by
  split
  · decide
  · simp

theorem isSpace_of_mem_separator {i : Nat} {col : Int} {c : Char}
    (h : c ∈ if i = 0 then indent 1 else '\n' :: indent col) : isSpace c := by
  split at h
  · exact isSpace_of_mem_indent h
  · rcases List.mem_cons.mp h with rfl | h
    · rfl
    · exact isSpace_of_mem_indent h

theorem readsAttributes_printAttributes {attrs : List Attribute} {col : Int} {i : Nat}
    {ws rest : List Char} {d : Char} (hws : ∀ c ∈ ws, isSpace c) (hd : d = '>' ∨ d = '/')
    (hplain : ∀ a ∈ attrs, PlainValue a.xmlValue) :
    ReadsAttributes (printAttributes col i attrs ++ (ws ++ d :: rest)) (attrs.map pair)
      (d :: rest) := by
  induction attrs generalizing i with
  | nil => exact readsAttributes_nil hws hd
  | cons a attrs ih =>
      have hmore := @ih (i + 1) fun b hb => hplain b (List.mem_cons_of_mem a hb)
      have hcons := readsAttributes_cons (fun c => @isSpace_of_mem_separator i col c)
        separator_ne_nil (isName_attribute a.name) (hplain a List.mem_cons_self) hmore
      simpa [printAttributes, pair] using hcons

theorem exists_head_printAttributes (attrs : List Attribute) (col : Int) {d : Char}
    (hd : isNameChar d = false) (rest : List Char) :
    ∃ e input, printAttributes col 0 attrs ++ d :: rest = e :: input ∧
      isNameChar e = false := by
  cases attrs with
  | nil => exact ⟨d, rest, rfl, hd⟩
  | cons a attrs => exact ⟨' ', _, rfl, by decide⟩

theorem PlainAttributes.nodup {attrs : List Attribute} (h : PlainAttributes attrs) :
    ((attrs.map pair).map Prod.fst).Nodup := by
  rw [List.map_map, List.nodup_iff_pairwise_ne, List.pairwise_map]
  refine (List.pairwise_map.mp h.1).imp ?_
  intro a b hne heq
  exact hne (String.toList_inj.mp heq)

section Tags

variable {n : TagName} {attrs : List Attribute} {col : Int} {rest : List Char}

theorem readsElement_empty (hplain : PlainAttributes attrs) :
    ReadsElement (n.xmlName.toList ++ (printAttributes col 0 attrs ++ ' ' :: '/' :: '>' :: rest))
      ⟨tag n attrs, .nil⟩ rest := by
  have has := @readsAttributes_printAttributes attrs col 0 [' '] ('>' :: rest) '/'
    (by decide) (Or.inr rfl) hplain.2
  obtain ⟨e, input, hhead, he⟩ := exists_head_printAttributes attrs col
    (by decide : isNameChar ' ' = false) ('/' :: '>' :: rest)
  rw [List.cons_append, List.nil_append, hhead] at has
  rw [hhead]
  exact readsElement_closed (readsTag_closed (isName_tag n) he has hplain.nodup)

theorem readsElement_element {body : List Char} {xs : Content} (hplain : PlainAttributes attrs)
    (hbody : Reads body xs ('<' :: '/' :: (n.xmlName.toList ++ '>' :: rest))) :
    ReadsElement (n.xmlName.toList ++ (printAttributes col 0 attrs ++ '>' :: body))
      ⟨tag n attrs, xs⟩ rest := by
  have has := @readsAttributes_printAttributes attrs col 0 [] body '>'
    (by simp) (Or.inl rfl) hplain.2
  obtain ⟨e, input, hhead, he⟩ := exists_head_printAttributes attrs col
    (by decide : isNameChar '>' = false) body
  have hlen := congrArg List.length hhead
  rw [List.nil_append, hhead] at has
  rw [hhead]
  refine readsElement_open (readsTag_open (isName_tag n) he has hplain.nodup) ?_ hbody
    (endTag_append (isName_tag n))
  simp only [List.length_append, List.length_cons] at hlen ⊢
  omega

end Tags

theorem mem_printChars {col : Int} {newLine : Bool} {text : List Char} {c : Char}
    (h : c ∈ printChars col newLine text) : c = ' ' ∨ c ∈ text := by
  induction text generalizing newLine with
  | nil => exact Or.inr h
  | cons d text ih =>
      rw [printChars, List.mem_append, List.mem_cons] at h
      rcases h with h | rfl | h
      · split at h
        · exact Or.inl (List.eq_of_mem_replicate h)
        · exact absurd h (by simp)
      · exact Or.inr List.mem_cons_self
      · exact (ih h).imp id (List.mem_cons_of_mem d)

theorem infix_of_infix_indent {mark text : List Char} {n : Int} {m : Char}
    (hm : m ≠ ' ') (h : m :: mark <:+: indent n ++ text) : m :: mark <:+: text := by
  rw [indent] at h
  generalize n.toNat = k at h
  induction k with
  | zero => simpa using h
  | succ k ih =>
      rw [List.replicate_succ, List.cons_append, List.infix_cons_iff] at h
      rcases h with h | h
      · exact absurd (List.cons_prefix_cons.mp h).1 hm
      · exact ih h

theorem prefix_of_prefix_printChars {col : Int} {mark text : List Char} (hmark : '\n' ∉ mark)
    (h : mark <+: printChars col false text) : mark <+: text := by
  induction text generalizing mark with
  | nil => exact h
  | cons c text ih =>
      cases mark with
      | nil => exact List.nil_prefix
      | cons m mark =>
          simp only [printChars, Bool.false_eq_true, false_and, if_false, List.nil_append,
            List.cons_prefix_cons] at h
          obtain ⟨rfl, h⟩ := h
          rw [List.mem_cons, not_or] at hmark
          rw [decide_eq_false (Ne.symm hmark.1)] at h
          exact List.cons_prefix_cons.mpr ⟨rfl, ih hmark.2 h⟩

theorem not_infix_printChars {col : Int} {newLine : Bool} {text : List Char}
    (h : ¬ [']', ']', '>'] <:+: text) : ¬ [']', ']', '>'] <:+: printChars col newLine text := by
  induction text generalizing newLine with
  | nil => simp [printChars]
  | cons c text ih =>
      intro hmark
      have hrest := fun b => @ih b fun hm => h (hm.trans (List.suffix_cons c text).isInfix)
      rw [printChars] at hmark
      have hmark : [']', ']', '>'] <:+: c :: printChars col (c = '\n') text := by
        split at hmark
        · exact infix_of_infix_indent (by decide) hmark
        · exact hmark
      rcases List.infix_cons_iff.mp hmark with hpre | hinf
      · have hpre : [']', ']', '>'] <+: printChars col false (c :: text) := by
          simpa [printChars] using hpre
        exact h (prefix_of_prefix_printChars (by decide) hpre).isInfix
      · exact hrest _ hinf

theorem plainText_printChars {col : Int} {newLine : Bool} {text : List Char}
    (h : PlainText text) : PlainText (printChars col newLine text) := by
  refine ⟨fun c hc => ?_, not_infix_printChars h.2⟩
  rcases mem_printChars hc with rfl | hc
  · decide
  · exact h.1 c hc

theorem strip_indent (n : Int) (xs : Content) : ((indent n).foldr .char xs).strip = xs.strip := by
  rw [indent]
  induction n.toNat with
  | zero => rfl
  | succ k ih => rw [List.replicate_succ, List.foldr_cons, strip_char_of_isSpace (by decide), ih]

theorem strip_foldr_congr (text : List Char) {xs ys : Content} (h : xs.strip = ys.strip) :
    (text.foldr .char xs).strip = (text.foldr .char ys).strip := by
  induction text with
  | nil => exact h
  | cons c text ih => rw [List.foldr_cons, List.foldr_cons, Content.strip, Content.strip, ih]

theorem strip_printChars (col : Int) (newLine : Bool) (text : List Char) (xs : Content) :
    ((printChars col newLine text).foldr .char xs).strip = (text.foldr .char xs).strip := by
  induction text generalizing newLine with
  | nil => rfl
  | cons c text ih =>
      rw [printChars, List.foldr_append]
      have hc : ((c :: printChars col (c = '\n') text).foldr .char xs).strip =
          ((c :: text).foldr .char xs).strip :=
        strip_foldr_congr [c] (ih _)
      split
      · rw [strip_indent, hc]
      · exact hc

theorem exists_reads_indent {n : Int} {input rest : List Char} {xs : Content}
    (h : Reads input xs rest) :
    ∃ ys, Reads (indent n ++ input) ys rest ∧ ys.strip = xs.strip := by
  rw [indent]
  induction n.toNat with
  | zero => exact ⟨xs, h, rfl⟩
  | succ k ih =>
      obtain ⟨ys, hys, hstrip⟩ := ih
      refine ⟨.char ' ' ys, reads_char rfl hys, ?_⟩
      rw [strip_char_of_isSpace (by decide), hstrip]

theorem reads_lineFeed {input rest : List Char} {xs : Content} (h : Reads input xs rest) :
    Reads ('\n' :: input) (.char '\n' xs) rest :=
  reads_char rfl h

theorem exists_head_printed {f : Forest} {col : Int} {d : Char} {input : List Char}
    (hcol : 0 < col) (hd : d = ' ' ∨ d = '<') :
    ∃ e more, printed col f ++ d :: input = e :: more ∧ e ≠ ']' ∧ e ≠ '>' := by
  obtain ⟨k, hk⟩ : ∃ k, col.toNat = k + 1 := ⟨col.toNat - 1, by omega⟩
  have hspace (cs : List Char) : indent col ++ cs = ' ' :: (List.replicate k ' ' ++ cs) := by
    rw [indent, hk, List.replicate_succ, List.cons_append]
  cases f with
  | nil => exact ⟨d, input, rfl, by rcases hd with rfl | rfl <;> decide⟩
  | text s rest => exact ⟨' ', _, by rw [printed, List.append_assoc, hspace], by decide⟩
  | empty n attrs rest => exact ⟨' ', _, by rw [printed, List.append_assoc, hspace], by decide⟩
  | element n attrs inner rest =>
      exact ⟨' ', _, by rw [printed, List.append_assoc, hspace], by decide⟩

/-- What is printed for the forest at indentation `col` reads back as the forest, in
front of white space and a tag. -/
def ReadsBack (col : Int) (f : Forest) : Prop :=
  ∀ {d : Char} {input rest : List Char} {xs : Content}, d = ' ' ∨ d = '<' →
    Reads (d :: input) xs rest → xs.strip = .nil →
      ∃ ys, Reads (printed col f ++ d :: input) ys rest ∧ ys.strip = (contentOf f).strip

theorem ReadsBack.exists_readsElement {col col' : Int} {n : TagName} {attrs : List Attribute}
    {inner : Forest} {rest : List Char} (hattrs : PlainAttributes attrs)
    (hinner : ReadsBack (col + tabWidth) inner) :
    ∃ xs, ReadsElement (n.xmlName.toList ++ (printAttributes col' 0 attrs ++
        '>' :: '\n' :: (printed (col + tabWidth) inner ++ (indent col ++
          '<' :: '/' :: (n.xmlName.toList ++ '>' :: rest)))))
      ⟨tag n attrs, xs⟩ rest ∧ xs.strip = (contentOf inner).strip := by
  obtain ⟨zs, hzs, hzstrip⟩ := @exists_reads_indent col _ _ _
    (@reads_endTag (n.xmlName.toList ++ '>' :: rest))
  obtain ⟨d, input, hhead, hd⟩ : ∃ d input, indent col ++
      '<' :: '/' :: (n.xmlName.toList ++ '>' :: rest) = d :: input ∧ (d = ' ' ∨ d = '<') := by
    rw [indent]
    cases col.toNat with
    | zero => exact ⟨'<', _, rfl, Or.inr rfl⟩
    | succ k => exact ⟨' ', _, rfl, Or.inl rfl⟩
  rw [hhead] at hzs ⊢
  obtain ⟨ys, hys, hystrip⟩ := hinner hd hzs hzstrip
  refine ⟨.char '\n' ys, readsElement_element hattrs (reads_lineFeed hys), ?_⟩
  rw [strip_char_of_isSpace (by decide), hystrip]

/-- What stands between the tags of an element is read first, then what follows the
element. -/
theorem readsBack_of_plain {f : Forest} {col : Int} (hcol : 0 < col) (hplain : Plain f) :
    ReadsBack col f := by
  induction f generalizing col with
  | nil => exact fun _ hmore hxs => ⟨_, hmore, hxs⟩
  | text s f ih =>
      intro d input rest xs hd hmore hxs
      obtain ⟨hs, hf⟩ := hplain
      obtain ⟨ys, hys, hstrip⟩ := ih hcol hf hd hmore hxs
      obtain ⟨e, more, hhead, he⟩ := @exists_head_printed f col d input hcol hd
      rw [hhead] at hys
      obtain ⟨zs, hzs, hzstrip⟩ :=
        exists_reads_text (@plainText_printChars col false _ hs) he hys
      obtain ⟨ws, hws, hwstrip⟩ := @exists_reads_indent col _ _ _ hzs
      refine ⟨ws, ?_, ?_⟩
      · simpa only [printed, List.append_assoc, hhead] using hws
      · rw [hwstrip, hzstrip, strip_printChars, contentOf]
        exact strip_foldr_congr _ hstrip
  | empty n attrs f ih =>
      intro d input rest xs hd hmore hxs
      obtain ⟨hattrs, hf⟩ := hplain
      obtain ⟨ys, hys, hstrip⟩ := ih hcol hf hd hmore hxs
      have helement := @readsElement_empty n attrs (col + n.xmlName.length + 2)
        ('\n' :: (printed col f ++ d :: input)) hattrs
      obtain ⟨ws, hws, hwstrip⟩ := @exists_reads_indent col _ _ _
        (reads_element (item_startTag (isName_tag n)) helement
          (by simp only [List.length_append, List.length_cons]; omega) (reads_lineFeed hys))
      refine ⟨ws, by simpa [printed] using hws, ?_⟩
      rw [hwstrip, contentOf]
      simp only [Content.strip, hstrip]
      rfl
  | element n attrs inner f ihInner ih =>
      intro d input rest xs hd hmore hxs
      obtain ⟨hattrs, hinner, hf⟩ := hplain
      obtain ⟨ys, hys, hstrip⟩ := ih hcol hf hd hmore hxs
      obtain ⟨zs, helement, hzstrip⟩ := @ReadsBack.exists_readsElement col
        (col + n.xmlName.length + 2) n attrs inner ('\n' :: (printed col f ++ d :: input)) hattrs
        (ihInner (by simp only [tabWidth]; omega) hinner)
      obtain ⟨ws, hws, hwstrip⟩ := @exists_reads_indent col _ _ _
        (reads_element (item_startTag (isName_tag n)) helement
          (by simp only [List.length_append, List.length_cons]; omega) (reads_lineFeed hys))
      refine ⟨ws, by simpa [printed] using hws, ?_⟩
      rw [hwstrip, contentOf]
      simp only [Content.strip, hstrip, hzstrip]
      rfl

theorem isLegal_of_isSpace {c : Char} (h : isSpace c) : isLegal c := by
  simp [isLegal, h]

theorem isLegal_indent {n : Int} : ∀ c ∈ indent n, isLegal c :=
  fun _ hc => isLegal_of_isSpace (isSpace_of_mem_indent hc)

theorem isLegal_printAttributes {attrs : List Attribute} {col : Int} {i : Nat}
    (h : ∀ a ∈ attrs, ∀ c ∈ a.xmlValue, isLegal c) :
    ∀ c ∈ printAttributes col i attrs, isLegal c := by
  induction attrs generalizing i with
  | nil => simp [printAttributes]
  | cons a attrs ih =>
      intro c hc
      simp only [printAttributes, List.mem_append, List.mem_cons] at hc
      rcases hc with hc | hc | rfl | rfl | hc | rfl | hc
      · exact isLegal_of_isSpace (isSpace_of_mem_separator hc)
      · exact (isName_attribute a.name).isLegal c hc
      · decide
      · decide
      · exact h a List.mem_cons_self c hc
      · decide
      · exact ih (fun b hb => h b (List.mem_cons_of_mem a hb)) c hc

theorem isLegal_printed {f : Forest} {col : Int} (h : Legal f) :
    ∀ c ∈ printed col f, isLegal c := by
  induction f generalizing col with
  | nil => simp [printed]
  | text s f ih =>
      intro c hc
      simp only [printed, List.mem_append] at hc
      rcases hc with hc | hc | hc
      · exact isLegal_indent c hc
      · rcases mem_printChars hc with rfl | hc
        · decide
        · exact h.1 c hc
      · exact ih h.2 c hc
  | empty n attrs f ih =>
      intro c hc
      simp only [printed, List.mem_append, List.mem_cons] at hc
      rcases hc with hc | rfl | hc | hc | rfl | rfl | rfl | rfl | hc
      · exact isLegal_indent c hc
      · decide
      · exact (isName_tag n).isLegal c hc
      · exact isLegal_printAttributes h.1 c hc
      · decide
      · decide
      · decide
      · decide
      · exact ih h.2 c hc
  | element n attrs inner f ihInner ih =>
      intro c hc
      simp only [printed, List.mem_append, List.mem_cons] at hc
      rcases hc with hc | rfl | hc | hc | rfl | rfl | hc | hc | rfl | rfl | hc | rfl | rfl | hc
      · exact isLegal_indent c hc
      · decide
      · exact (isName_tag n).isLegal c hc
      · exact isLegal_printAttributes h.1 c hc
      · decide
      · decide
      · exact ihInner h.2.1 c hc
      · exact isLegal_indent c hc
      · decide
      · decide
      · exact (isName_tag n).isLegal c hc
      · decide
      · decide
      · exact ih h.2.2 c hc

theorem document_of_readsElement {n input : List Char} {e : Element} (hn : IsName n)
    (he : ReadsElement (n ++ input) e ['\n']) (hlegal : ∀ c ∈ '<' :: (n ++ input), isLegal c) :
    document ('<' :: (n ++ input)) = some e := by
  have hfront (fuel : Nat) :
      misc (fuel + 1) ('<' :: (n ++ input)) = some ('<' :: (n ++ input)) := by
    rw [misc, item_startTag hn]
  have hback (fuel : Nat) : misc (fuel + 2) ['\n'] = some [] := rfl
  have hread := he (('<' :: (n ++ input)).length + 1) (by simp only [List.length_cons]; omega)
  rw [document]
  simp only [hfront, Option.bind_some, Option.bind_eq_bind, hread]
  rw [List.length_cons, hback]
  simp [List.all_eq_true.mpr hlegal]

theorem faithful {root : Root} (hlegal : Legal root.forest) (hplain : Plain root.forest) :
    Faithful root := by
  have hchars := @isLegal_printed _ 0 hlegal
  obtain ⟨n, attrs, inner⟩ := root
  rw [Faithful, dump_eq_printed]
  cases inner with
  | none =>
      have helement := @readsElement_empty n attrs (0 + n.xmlName.length + 2) ['\n'] hplain.1
      exact ⟨_, document_of_readsElement (isName_tag n) helement hchars, rfl⟩
  | some inner =>
      obtain ⟨xs, helement, hstrip⟩ := @ReadsBack.exists_readsElement 0
        (0 + n.xmlName.length + 2) n attrs inner ['\n'] hplain.1
        (readsBack_of_plain (by decide) hplain.2.1)
      refine ⟨_, document_of_readsElement (isName_tag n) helement hchars, ?_⟩
      rw [Element.strip, hstrip]
      rfl

/-- A dump without anything to escape is faithful, and so different documents have
different dumps. -/
theorem dump_faithful (root : Root) (hlegal : Legal root.forest) (hplain : Plain root.forest) :
    Faithful root ∧
      ∀ root' : Root, Legal root'.forest → Plain root'.forest → dump root = dump root' →
        (elementOf root).strip = (elementOf root').strip := by
  refine ⟨faithful hlegal hplain, fun root' hlegal' hplain' heq => ?_⟩
  obtain ⟨e, hdoc, hstrip⟩ := faithful hlegal hplain
  obtain ⟨e', hdoc', hstrip'⟩ := faithful hlegal' hplain'
  rw [heq, hdoc', Option.some.injEq] at hdoc
  rw [← hstrip, ← hstrip', hdoc]

def connection : TagName := ⟨"Connection", by decide⟩

/-- A connection with `text` as its program, as in the profiles. -/
def connectionRoot (text : List Char) : Root where
  localName := connection
  attrs := [⟨⟨"Proxy", by decide⟩, []⟩]
  inner := some (.text ⟨text, 0, text.length, by simp⟩ .nil)

theorem dump_faithful_connection :
    Faithful (connectionRoot ['1', ' ', '=', '\n', ';']) ∧
      ∀ root' : Root, Legal root'.forest → Plain root'.forest →
        dump (connectionRoot ['1', ' ', '=', '\n', ';']) = dump root' →
          (elementOf (connectionRoot ['1', ' ', '=', '\n', ';'])).strip =
            (elementOf root').strip :=
  dump_faithful _ (by decide +kernel) (by decide +kernel)

theorem not_faithful_connection :
    ¬ ∀ root : Root, Legal root.forest → Faithful root := by
  intro h
  obtain ⟨e, hdoc, -⟩ := h (connectionRoot ['0', '<', '>']) (by decide)
  have hnone : document (dump (connectionRoot ['0', '<', '>'])) = none := by decide +kernel
  rw [hnone] at hdoc
  exact nomatch hdoc

end Iqiq.DumpRoundTrip
