import Mathlib.Data.List.Basic

namespace Iqiq.XmlGrammar

/-- White space. -/
def isSpace (c : Char) : Bool :=
  c = ' ' ∨ c = '\t' ∨ c = '\n' ∨ c = '\r'

/-- A character that may stand in a document. -/
def isLegal (c : Char) : Bool :=
  isSpace c ∨ 0x20 ≤ c.toNat ∧ c.toNat ≠ 0xfffe ∧ c.toNat ≠ 0xffff

def nameStartRanges : List (Nat × Nat) :=
  [(0x3a, 0x3a), (0x41, 0x5a), (0x5f, 0x5f), (0x61, 0x7a), (0xc0, 0xd6), (0xd8, 0xf6),
    (0xf8, 0x2ff), (0x370, 0x37d), (0x37f, 0x1fff), (0x200c, 0x200d), (0x2070, 0x218f),
    (0x2c00, 0x2fef), (0x3001, 0xd7ff), (0xf900, 0xfdcf), (0xfdf0, 0xfffd),
    (0x10000, 0xeffff)]

def nameRanges : List (Nat × Nat) :=
  [(0x2d, 0x2e), (0x30, 0x39), (0xb7, 0xb7), (0x300, 0x36f), (0x203f, 0x2040)]

def inRanges (ranges : List (Nat × Nat)) (c : Char) : Bool :=
  ranges.any fun r => r.1 ≤ c.toNat && c.toNat ≤ r.2

def isNameStart (c : Char) : Bool :=
  inRanges nameStartRanges c

def isNameChar (c : Char) : Bool :=
  isNameStart c || inRanges nameRanges c

/-- A name, and what follows it. -/
def name : List Char → Option (List Char × List Char)
  | [] => none
  | c :: rest =>
      if isNameStart c then
        some (c :: rest.takeWhile isNameChar, rest.dropWhile isNameChar)
      else none

/-- The text before the first `mark`, and what follows the mark. -/
def breakOn (mark : List Char) : List Char → Option (List Char × List Char)
  | [] => none
  | c :: rest =>
      if mark.isPrefixOf (c :: rest) then some ([], (c :: rest).drop mark.length)
      else (breakOn mark rest).map fun p => (c :: p.1, p.2)

def digitValue (base : Nat) (c : Char) : Option Nat :=
  let value :=
    if '0' ≤ c ∧ c ≤ '9' then c.toNat - '0'.toNat
    else if 'a' ≤ c ∧ c ≤ 'f' then c.toNat - 'a'.toNat + 10
    else if 'A' ≤ c ∧ c ≤ 'F' then c.toNat - 'A'.toNat + 10
    else base
  if value < base then some value else none

/-- A character reference, without its mark and its base. -/
def charReference (base : Nat) (digits : List Char) : Option Char := do
  let n ← digits.foldlM (fun n d => (digitValue base d).map (base * n + ·)) 0
  if digits ≠ [] ∧ n.isValidChar ∧ isLegal (Char.ofNat n) then some (Char.ofNat n) else none

/-- What stands between `&` and `;`. Only the predefined entities are declared. -/
def referent : List Char → Option Char
  | ['l', 't'] => some '<'
  | ['g', 't'] => some '>'
  | ['a', 'm', 'p'] => some '&'
  | ['a', 'p', 'o', 's'] => some '\''
  | ['q', 'u', 'o', 't'] => some '"'
  | '#' :: 'x' :: digits => charReference 16 digits
  | '#' :: digits => charReference 10 digits
  | _ => none

/-- A reference behind its `&`. -/
def reference (input : List Char) : Option (Char × List Char) := do
  let (body, rest) ← breakOn [';'] input
  let c ← referent body
  some (c, rest)

structure Tag where
  name : List Char
  attributes : List (List Char × List Char)
  deriving DecidableEq, Repr

/-- An attribute value behind its opening `quote`, normalized. -/
def attributeValue (quote : Char) : Nat → List Char → Option (List Char × List Char)
  | 0, _ => none
  | _ + 1, [] => none
  | fuel + 1, c :: rest =>
      if c = quote then some ([], rest)
      else if c = '<' then none
      else if c = '&' then do
        let (d, rest) ← reference rest
        let (value, rest) ← attributeValue quote fuel rest
        some (d :: value, rest)
      else if c = '\r' ∧ rest.head? = some '\n' then attributeValue quote fuel rest
      else do
        let (value, rest) ← attributeValue quote fuel rest
        some ((if isSpace c then ' ' else c) :: value, rest)

/-- One attribute: a name, an equals sign and a value in quotes. -/
def attr (fuel : Nat) (input : List Char) :
    Option ((List Char × List Char) × List Char) := do
  let (n, rest) ← name input
  match rest.dropWhile isSpace with
  | '=' :: rest =>
      match rest.dropWhile isSpace with
      | [] => none
      | quote :: rest =>
          if quote = '"' ∨ quote = '\'' then do
            let (value, rest) ← attributeValue quote fuel rest
            some ((n, value), rest)
          else none
  | _ => none

/-- The attributes up to the `>` or `/` that ends the list; white space stands before
each of them. -/
def attributes : Nat → List Char → Option (List (List Char × List Char) × List Char)
  | 0, _ => none
  | fuel + 1, input =>
      match input.dropWhile isSpace with
      | [] => none
      | c :: rest =>
          if c = '>' ∨ c = '/' then some ([], c :: rest)
          else if input.head? = some c then none
          else do
            let (a, rest) ← attr fuel (c :: rest)
            let (more, rest) ← attributes fuel rest
            some (a :: more, rest)

/-- A start tag or an empty-element tag behind its `<`; no attribute name is repeated.
The flag says which of the two it was. -/
def startTag (fuel : Nat) (input : List Char) : Option (Tag × Bool × List Char) := do
  let (n, rest) ← name input
  let (as, rest) ← attributes fuel rest
  if (as.map Prod.fst).Nodup then
    match rest with
    | '>' :: rest => some (⟨n, as⟩, false, rest)
    | '/' :: '>' :: rest => some (⟨n, as⟩, true, rest)
    | _ => none
  else none

/-- The end tag of the element `n`. -/
def endTag (n : List Char) : List Char → Option (List Char)
  | '<' :: '/' :: input => do
      let (m, rest) ← name input
      match rest.dropWhile isSpace with
      | '>' :: rest => if m = n then some rest else none
      | _ => none
  | _ => none

/-- The text of a comment, behind its opening. -/
def comment (input : List Char) : Option (List Char) := do
  let (_, rest) ← breakOn ['-', '-'] input
  match rest with
  | '>' :: rest => some rest
  | _ => none

/-- A processing instruction behind its opening; its target is not `xml`. -/
def instruction (input : List Char) : Option (List Char) := do
  let (target, rest) ← name input
  if target.map Char.toLower = ['x', 'm', 'l'] then none
  else
    match rest with
    | '?' :: '>' :: rest => some rest
    | c :: rest => if isSpace c then (breakOn ['?', '>'] rest).map Prod.snd else none
    | [] => none

/-- What stands at some place of the content. -/
inductive Item where
  | done
  | endTag
  | startTag (rest : List Char)
  | comment (rest : List Char)
  | verbatim (rest : List Char)
  | instruction (rest : List Char)
  | reference (rest : List Char)
  | lineEnd (rest : List Char)
  | char (c : Char) (rest : List Char)
  | wrong

/-- The item that starts with `<`. -/
def markup (rest : List Char) : Item :=
  match rest with
  | '/' :: _ => .endTag
  | '?' :: rest => .instruction rest
  | '!' :: rest =>
      if ['-', '-'].isPrefixOf rest then .comment (rest.drop 2)
      else if ['[', 'C', 'D', 'A', 'T', 'A', '['].isPrefixOf rest then .verbatim (rest.drop 7)
      else .wrong
  | _ => .startTag rest

/-- The item at the head of the input. A carriage return is a line end, together with
the line feed behind it if there is one. -/
def item : List Char → Item
  | [] => .done
  | c :: rest =>
      if c = '<' then markup rest
      else if c = '&' then .reference rest
      else if c = ']' ∧ [']', '>'].isPrefixOf rest then .wrong
      else if c = '\r' then
        if rest.head? = some '\n' then .lineEnd rest else .char '\n' rest
      else .char c rest

/-- The content of an element: characters and elements in their order. -/
inductive Content where
  | nil
  | char (c : Char) (rest : Content)
  | element (tag : Tag) (inner rest : Content)
  deriving DecidableEq, Repr

/-- An element. -/
structure Element where
  tag : Tag
  inner : Content
  deriving DecidableEq, Repr

/-- The characters of a `CDATA` section, in front of `more`. -/
def Content.verbatim : List Char → Content → Content
  | [], more => more
  | c :: rest, more =>
      if c = '\r' then
        if rest.head? = some '\n' then verbatim rest more else .char '\n' (verbatim rest more)
      else .char c (verbatim rest more)

mutual

/-- An element behind its `<`. -/
def element : Nat → List Char → Option (Element × List Char)
  | 0, _ => none
  | fuel + 1, input => do
      let (tag, closed, rest) ← startTag fuel input
      if closed then some (⟨tag, .nil⟩, rest)
      else do
        let (inner, rest) ← content fuel rest
        let rest ← endTag tag.name rest
        some (⟨tag, inner⟩, rest)

/-- Content up to an end tag or the end of the input. -/
def content : Nat → List Char → Option (Content × List Char)
  | 0, _ => none
  | fuel + 1, input =>
      match item input with
      | .done | .endTag => some (.nil, input)
      | .startTag rest => do
          let (e, rest) ← element fuel rest
          let (more, rest) ← content fuel rest
          some (.element e.tag e.inner more, rest)
      | .comment rest => do
          let rest ← comment rest
          content fuel rest
      | .verbatim rest => do
          let (text, rest) ← breakOn [']', ']', '>'] rest
          let (more, rest) ← content fuel rest
          some (.verbatim text more, rest)
      | .instruction rest => do
          let rest ← instruction rest
          content fuel rest
      | .reference rest => do
          let (c, rest) ← reference rest
          let (more, rest) ← content fuel rest
          some (.char c more, rest)
      | .lineEnd rest => content fuel rest
      | .char c rest => do
          let (more, rest) ← content fuel rest
          some (.char c more, rest)
      | .wrong => none

end

/-- White space, comments and processing instructions. -/
def misc : Nat → List Char → Option (List Char)
  | 0, _ => none
  | fuel + 1, input =>
      match item input with
      | .comment rest => do
          let rest ← comment rest
          misc fuel rest
      | .instruction rest => do
          let rest ← instruction rest
          misc fuel rest
      | .lineEnd rest => misc fuel rest
      | .char c rest => if isSpace c then misc fuel rest else some input
      | _ => some input

/-- A document without a declaration and without a document type: one element among
white space, comments and processing instructions. -/
def document (input : List Char) : Option Element := do
  let fuel := input.length + 1
  let rest ← misc fuel input
  match rest with
  | '<' :: rest => do
      let (e, rest) ← element fuel rest
      let rest ← misc fuel rest
      if rest = [] ∧ input.all isLegal then some e else none
  | _ => none

/-- The content without its white space. -/
def Content.strip : Content → Content
  | .nil => .nil
  | .char c rest => if isSpace c then rest.strip else .char c rest.strip
  | .element tag inner rest => .element tag inner.strip rest.strip

def Element.strip (e : Element) : Element :=
  { e with inner := e.inner.strip }

end Iqiq.XmlGrammar
