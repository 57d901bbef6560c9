import Mathlib.Data.List.Infix
import Iqiq.XmlGrammar

namespace Iqiq.XmlReading

open Iqiq.XmlGrammar

/-- A name of the grammar. -/
def IsName : List Char → Prop
  | [] => False
  | c :: rest => isNameStart c ∧ ∀ d ∈ rest, isNameChar d

instance : DecidablePred IsName
  | [] => inferInstanceAs (Decidable False)
  -- along the list, not over all characters
  | c :: rest => @instDecidableAnd (isNameStart c) _ _ (List.decidableBAll _ rest)

theorem takeWhile_append_stop {p : Char → Bool} {cs rest : List Char} {d : Char}
    (hcs : ∀ c ∈ cs, p c) (hd : p d = false) : (cs ++ d :: rest).takeWhile p = cs := by
  rw [List.takeWhile_append_of_pos hcs, List.takeWhile_cons, hd]
  simp

theorem dropWhile_append_stop {p : Char → Bool} {cs rest : List Char} {d : Char}
    (hcs : ∀ c ∈ cs, p c) (hd : p d = false) : (cs ++ d :: rest).dropWhile p = d :: rest := by
  rw [List.dropWhile_append_of_pos hcs, List.dropWhile_cons, hd]
  simp

theorem name_append {n rest : List Char} {d : Char} (hn : IsName n)
    (hd : isNameChar d = false) : name (n ++ d :: rest) = some (n, d :: rest) := by
  cases n with
  | nil => exact hn.elim
  | cons c cs =>
      rw [List.cons_append, name, if_pos hn.1, takeWhile_append_stop hn.2 hd,
        dropWhile_append_stop hn.2 hd]

theorem IsName.head {n : List Char} (hn : IsName n) : ∃ c rest, n = c :: rest ∧
    isSpace c = false ∧ c ≠ '>' ∧ c ≠ '/' ∧ c ≠ '?' ∧ c ≠ '!' := by
  cases n with
  | nil => exact hn.elim
  | cons c cs =>
      have hne (d : Char) (hd : isNameStart d = false) : c ≠ d := by
        rintro rfl
        rw [hn.1] at hd
        exact Bool.noConfusion hd
      refine ⟨c, cs, rfl, ?_, hne _ (by decide), hne _ (by decide), hne _ (by decide),
        hne _ (by decide)⟩
      simp only [isSpace, decide_eq_false_iff_not, not_or]
      exact ⟨hne _ (by decide), hne _ (by decide), hne _ (by decide), hne _ (by decide)⟩

theorem isLegal_of_inRanges {ranges : List (Nat × Nat)} {c : Char}
    (hranges : ∀ r ∈ ranges, 0x20 ≤ r.1 ∧ (r.2 < 0xfffe ∨ 0xffff < r.1))
    (h : inRanges ranges c) : isLegal c := by
  obtain ⟨r, hr, hc⟩ := List.any_eq_true.mp h
  simp only [Bool.and_eq_true, decide_eq_true_eq] at hc
  have := hranges r hr
  simp only [isLegal, decide_eq_true_eq]
  exact Or.inr (by omega)

theorem IsName.isLegal {n : List Char} (hn : IsName n) : ∀ c ∈ n, isLegal c := by
  have hstart {c : Char} (h : isNameStart c) : XmlGrammar.isLegal c :=
    isLegal_of_inRanges (by decide) h
  cases n with
  | nil => exact hn.elim
  | cons c cs =>
      intro d hd
      rcases List.mem_cons.mp hd with rfl | hd
      · exact hstart hn.1
      · rcases Bool.or_eq_true_iff.mp (hn.2 d hd) with h | h
        · exact hstart h
        · exact isLegal_of_inRanges (by decide) h

/-- A value that stands for itself between double quotes. -/
abbrev PlainValue (value : List Char) : Prop :=
  ∀ c ∈ value, c ≠ '"' ∧ c ≠ '<' ∧ c ≠ '&' ∧ c ≠ '\t' ∧ c ≠ '\n' ∧ c ≠ '\r'

theorem attributeValue_append {value rest : List Char} {fuel : Nat} (hv : PlainValue value)
    (hfuel : (value ++ '"' :: rest).length < fuel) :
    attributeValue '"' fuel (value ++ '"' :: rest) = some (value, rest) := by
  induction value generalizing fuel with
  | nil =>
      obtain ⟨fuel, rfl⟩ := Nat.exists_eq_succ_of_ne_zero (by omega : fuel ≠ 0)
      simp [attributeValue]
  | cons c value ih =>
      obtain ⟨fuel, rfl⟩ := Nat.exists_eq_succ_of_ne_zero (by omega : fuel ≠ 0)
      obtain ⟨hquote, hlt, hamp, htab, hlf, hcr⟩ := hv c List.mem_cons_self
      have hmore := @ih fuel (fun d hd => hv d (List.mem_cons_of_mem c hd))
        (by simp only [List.cons_append, List.length_cons] at hfuel; omega)
      have hc : (if isSpace c then ' ' else c) = c := by
        rcases Classical.em (c = ' ') with rfl | hspace
        · rfl
        · simp [isSpace, hspace, htab, hlf, hcr]
      simp [attributeValue, hquote, hlt, hamp, hcr, hmore, hc]

theorem attr_append {n value rest : List Char} {fuel : Nat} (hn : IsName n)
    (hv : PlainValue value) (hfuel : (value ++ '"' :: rest).length < fuel) :
    attr fuel (n ++ '=' :: '"' :: (value ++ '"' :: rest)) = some ((n, value), rest) := by
  have hdrop (d : Char) (cs : List Char) (hd : isSpace d = false) :
      (d :: cs).dropWhile isSpace = d :: cs := by
    rw [List.dropWhile_cons, hd]
    simp
  simp [attr, name_append hn (by decide : isNameChar '=' = false),
    hdrop '=' _ (by decide), hdrop '"' _ (by decide), attributeValue_append hv hfuel]

/-- The list of attributes `input` starts with, up to `rest`. -/
def ReadsAttributes (input : List Char) (as : List (List Char × List Char))
    (rest : List Char) : Prop :=
  ∀ fuel, input.length < fuel → attributes fuel input = some (as, rest)

theorem readsAttributes_nil {ws rest : List Char} {d : Char} (hws : ∀ c ∈ ws, isSpace c)
    (hd : d = '>' ∨ d = '/') : ReadsAttributes (ws ++ d :: rest) [] (d :: rest) := by
  intro fuel hfuel
  obtain ⟨fuel, rfl⟩ := Nat.exists_eq_succ_of_ne_zero (by omega : fuel ≠ 0)
  have hspace : isSpace d = false := by rcases hd with rfl | rfl <;> decide
  simp [attributes, dropWhile_append_stop hws hspace, hd]

theorem readsAttributes_cons {ws n value input rest : List Char}
    {as : List (List Char × List Char)} (hws : ∀ c ∈ ws, isSpace c) (hne : ws ≠ [])
    (hn : IsName n) (hv : PlainValue value) (hmore : ReadsAttributes input as rest) :
    ReadsAttributes (ws ++ (n ++ '=' :: '"' :: (value ++ '"' :: input))) ((n, value) :: as)
      rest := by
  intro fuel hfuel
  obtain ⟨fuel, rfl⟩ := Nat.exists_eq_succ_of_ne_zero (by omega : fuel ≠ 0)
  obtain ⟨w, ws', rfl⟩ := List.exists_cons_of_ne_nil hne
  obtain ⟨c, n', rfl, hspace, hgt, hslash, -, -⟩ := hn.head
  simp only [List.length_append, List.length_cons] at hfuel
  have hattr := @attr_append (c :: n') value input fuel hn hv
    (by simp only [List.length_append, List.length_cons]; omega)
  have hrest := hmore fuel (by omega)
  have hwc : w ≠ c := by
    rintro rfl
    rw [hws w List.mem_cons_self] at hspace
    exact Bool.noConfusion hspace
  have hdrop := @dropWhile_append_stop isSpace (w :: ws')
    (n' ++ '=' :: '"' :: (value ++ '"' :: input)) c hws hspace
  simp only [List.cons_append] at hattr hdrop ⊢
  rw [attributes, hdrop]
  simp [hgt, hslash, hwc, hattr, hrest]

/-- The tag `input` starts with, behind its `<`. -/
def ReadsTag (input : List Char) (tag : Tag) (closed : Bool) (rest : List Char) : Prop :=
  ∀ fuel, input.length ≤ fuel → startTag fuel input = some (tag, closed, rest)

section StartTag

variable {n input rest : List Char} {as : List (List Char × List Char)} {d : Char}

theorem readsTag_open (hn : IsName n) (hd : isNameChar d = false)
    (has : ReadsAttributes (d :: input) as ('>' :: rest)) (hnodup : (as.map Prod.fst).Nodup) :
    ReadsTag (n ++ d :: input) ⟨n, as⟩ false rest := by
  intro fuel hfuel
  obtain ⟨c, n', hcn, -⟩ := hn.head
  have hlist := has fuel (by simp [hcn] at hfuel ⊢; omega)
  simp [startTag, name_append hn hd, hlist, hnodup]

theorem readsTag_closed (hn : IsName n) (hd : isNameChar d = false)
    (has : ReadsAttributes (d :: input) as ('/' :: '>' :: rest))
    (hnodup : (as.map Prod.fst).Nodup) : ReadsTag (n ++ d :: input) ⟨n, as⟩ true rest := by
  intro fuel hfuel
  obtain ⟨c, n', hcn, -⟩ := hn.head
  have hlist := has fuel (by simp [hcn] at hfuel ⊢; omega)
  simp [startTag, name_append hn hd, hlist, hnodup]

theorem endTag_append (hn : IsName n) :
    endTag n ('<' :: '/' :: (n ++ '>' :: rest)) = some rest := by
  simp [endTag, name_append hn (by decide : isNameChar '>' = false),
    (by decide : isSpace '>' = false)]

end StartTag

/-- The content that `input` starts with, up to `rest`. -/
def Reads (input : List Char) (xs : Content) (rest : List Char) : Prop :=
  ∀ fuel, input.length < fuel → content fuel input = some (xs, rest)

def ReadsElement (input : List Char) (e : Element) (rest : List Char) : Prop :=
  ∀ fuel, input.length < fuel → element fuel input = some (e, rest)

theorem reads_endTag {input : List Char} :
    Reads ('<' :: '/' :: input) .nil ('<' :: '/' :: input) := by
  intro fuel hfuel
  obtain ⟨fuel, rfl⟩ := Nat.exists_eq_succ_of_ne_zero (by omega : fuel ≠ 0)
  simp [content, item, markup]

theorem reads_char {c d : Char} {input rest : List Char} {xs : Content}
    (hitem : item (c :: input) = .char d input) (hmore : Reads input xs rest) :
    Reads (c :: input) (.char d xs) rest := by
  intro fuel hfuel
  obtain ⟨fuel, rfl⟩ := Nat.exists_eq_succ_of_ne_zero (by omega : fuel ≠ 0)
  rw [List.length_cons] at hfuel
  simp [content, hitem, hmore fuel (by omega)]

theorem reads_lineEnd {c : Char} {input rest : List Char} {xs : Content}
    (hitem : item (c :: input) = .lineEnd input) (hmore : Reads input xs rest) :
    Reads (c :: input) xs rest := by
  intro fuel hfuel
  obtain ⟨fuel, rfl⟩ := Nat.exists_eq_succ_of_ne_zero (by omega : fuel ≠ 0)
  rw [List.length_cons] at hfuel
  simp [content, hitem, hmore fuel (by omega)]

theorem reads_element {e : Element} {input middle rest : List Char} {xs : Content}
    (hitem : item ('<' :: input) = .startTag input) (he : ReadsElement input e middle)
    (hlen : middle.length ≤ input.length) (hmore : Reads middle xs rest) :
    Reads ('<' :: input) (.element e.tag e.inner xs) rest := by
  intro fuel hfuel
  obtain ⟨fuel, rfl⟩ := Nat.exists_eq_succ_of_ne_zero (by omega : fuel ≠ 0)
  rw [List.length_cons] at hfuel
  simp [content, hitem, he fuel (by omega), hmore fuel (by omega)]

theorem item_startTag {n rest : List Char} (hn : IsName n) :
    item ('<' :: (n ++ rest)) = .startTag (n ++ rest) := by
  obtain ⟨c, n', rfl, -, -, hslash, hquestion, hbang⟩ := hn.head
  simp only [item, if_true, List.cons_append]
  unfold markup
  split
  · rename_i heq
    exact absurd (List.cons.inj heq).1 hslash
  · rename_i heq
    exact absurd (List.cons.inj heq).1 hquestion
  · rename_i heq
    exact absurd (List.cons.inj heq).1 hbang
  · rfl

theorem readsElement_closed {input rest : List Char} {tag : Tag}
    (htag : ReadsTag input tag true rest) : ReadsElement input ⟨tag, .nil⟩ rest := by
  intro fuel hfuel
  obtain ⟨fuel, rfl⟩ := Nat.exists_eq_succ_of_ne_zero (by omega : fuel ≠ 0)
  simp [element, htag fuel (by omega)]

theorem readsElement_open {input body middle rest : List Char} {tag : Tag} {xs : Content}
    (htag : ReadsTag input tag false body) (hlen : body.length < input.length)
    (hbody : Reads body xs middle) (hend : endTag tag.name middle = some rest) :
    ReadsElement input ⟨tag, xs⟩ rest := by
  intro fuel hfuel
  obtain ⟨fuel, rfl⟩ := Nat.exists_eq_succ_of_ne_zero (by omega : fuel ≠ 0)
  simp [element, htag fuel (by omega), hbody fuel (by omega), hend]

/-- Text that stands for itself. -/
abbrev PlainText (text : List Char) : Prop :=
  (∀ c ∈ text, c ≠ '<' ∧ c ≠ '&') ∧ ¬ [']', ']', '>'] <:+: text

theorem PlainText.not_close {text input : List Char} {c d : Char} (h : PlainText (c :: text))
    (hd : d ≠ ']' ∧ d ≠ '>') :
    ¬ (c = ']' ∧ [']', '>'].isPrefixOf (text ++ d :: input) = true) := by
  rintro ⟨rfl, hmark⟩
  match text with
  | [] =>
      simp only [List.nil_append, List.isPrefixOf, Bool.and_eq_true, beq_iff_eq] at hmark
      exact hd.1 hmark.1.symm
  | [a] =>
      simp only [List.cons_append, List.nil_append, List.isPrefixOf, Bool.and_eq_true,
        beq_iff_eq] at hmark
      exact hd.2 hmark.2.1.symm
  | a :: b :: more =>
      simp only [List.cons_append, List.isPrefixOf, Bool.and_eq_true, beq_iff_eq] at hmark
      obtain ⟨rfl, rfl, -⟩ := hmark
      exact h.2 ⟨[], more, rfl⟩

theorem PlainText.tail {text : List Char} {c : Char} (h : PlainText (c :: text)) :
    PlainText text :=
  ⟨fun d hd => h.1 d (List.mem_cons_of_mem c hd),
    fun hmark => h.2 (hmark.trans (List.suffix_cons c text).isInfix)⟩

theorem strip_char_of_isSpace {c : Char} (hc : isSpace c) (xs : Content) :
    (Content.char c xs).strip = xs.strip := by
  rw [Content.strip, if_pos hc]

/-- Plain text is read as itself up to white space, in front of something that cannot
complete the end of a section. -/
theorem exists_reads_text {text input rest : List Char} {d : Char} {xs : Content}
    (htext : PlainText text) (hd : d ≠ ']' ∧ d ≠ '>') (hmore : Reads (d :: input) xs rest) :
    ∃ ys, Reads (text ++ d :: input) ys rest ∧ ys.strip = (text.foldr .char xs).strip := by
  induction text with
  | nil => exact ⟨xs, hmore, rfl⟩
  | cons c text ih =>
      have hclose := @PlainText.not_close text input c d htext hd
      obtain ⟨ys, hys, hstrip⟩ := ih htext.tail
      obtain ⟨hlt, hamp⟩ := htext.1 c List.mem_cons_self
      simp only [List.foldr_cons, List.cons_append]
      rcases Classical.em (c = '\r') with rfl | hcr
      · rw [strip_char_of_isSpace (by decide), ← hstrip]
        -- the carriage return becomes a line feed, or vanishes in front of one
        rcases Classical.em ((text ++ d :: input).head? = some '\n') with hlf | hlf
        · refine ⟨ys, reads_lineEnd ?_ hys, rfl⟩
          rw [item, if_neg hlt, if_neg hamp, if_neg hclose, if_pos rfl, if_pos hlf]
        · refine ⟨_, @reads_char '\r' '\n' _ _ _ ?_ hys, strip_char_of_isSpace (by decide) ys⟩
          rw [item, if_neg hlt, if_neg hamp, if_neg hclose, if_pos rfl, if_neg hlf]
      · refine ⟨.char c ys, reads_char ?_ hys, ?_⟩
        · rw [item, if_neg hlt, if_neg hamp, if_neg hclose, if_neg hcr]
        · rw [Content.strip, Content.strip, hstrip]

end Iqiq.XmlReading
