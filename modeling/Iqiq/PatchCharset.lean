import Iqiq.Wbxml

namespace Iqiq.PatchCharset

open Iqiq.SevenBitGroups
open Iqiq.Wbxml

/-- `HEADER_LENGTH`. -/
def headerLength : Nat := 6

/-- `WBXML_CHARSET_US_ASCII`. -/
def usAscii : UInt8 := 3

/-- The moving pointer `data`, as an index into the buffer, and the moving `size`;
`reads` records the indices read so far. -/
structure Cursor where
  pos : Nat
  size : Int
  reads : List Nat

/-- `data += n, size -= n`. -/
def Cursor.skip (c : Cursor) (n : Nat) : Cursor :=
  { c with pos := c.pos + n, size := c.size - n }

/-- `while (size > 0 && *data & 0x80) data++, size--;`, with at most `fuel`
iterations; `size` of them are enough. -/
def skipContinuation (data : List UInt8) : Nat → Cursor → Cursor
  | 0, c => c
  | fuel + 1, c =>
      if c.size > 0 then
        let c := { c with reads := c.reads ++ [c.pos] }
        if data.getD c.pos 0 &&& 0x80 ≠ 0 then skipContinuation data fuel (c.skip 1) else c
      else c

/-- Where `patch_charset` ends up, just before its last test. -/
def charsetCursor (data : List UInt8) (size : Int) : Cursor :=
  -- the header, then the version byte, then the public identifier
  let c := (Cursor.mk 0 size []).skip headerLength
  let c := c.skip 1
  let c := skipContinuation data c.size.toNat c
  c.skip 1

/-- `patch_charset`: the buffer afterwards. -/
def patchCharset (data : List UInt8) (size : Int) : List UInt8 :=
  let c := charsetCursor data size
  if c.size > 0 then data.set c.pos usAscii else data

theorem skipContinuation_of_multiByte {before rest : List UInt8} {n : MultiByte} {fuel : Nat}
    {c : Cursor} (hpos : c.pos = before.length) (hsize : n.bytes.length ≤ c.size)
    (hfuel : n.bytes.length ≤ fuel) :
    let c' := skipContinuation (before ++ (n.bytes ++ rest)) fuel c
    c'.pos = c.pos + (n.bytes.length - 1) ∧ c'.size = c.size - (n.bytes.length - 1 : Nat) := by
  obtain ⟨hi, last, hhi, hlast⟩ := n
  simp only [MultiByte.bytes, List.length_append, List.length_singleton] at *
  induction hi generalizing before fuel c with
  | nil =>
      obtain ⟨fuel, rfl⟩ := Nat.exists_eq_succ_of_ne_zero (by omega : fuel ≠ 0)
      have hbyte : (before ++ ([] ++ [last] ++ rest)).getD c.pos 0 = last := by
        simp [hpos, List.getD_eq_getElem?_getD]
      have hstop : ¬ (last &&& 0x80 ≠ 0) := by rwa [and_80_ne_zero_iff]
      simp only [List.length_nil] at hsize
      rw [skipContinuation, if_pos (by omega)]
      simp only [hbyte, if_neg hstop]
      exact ⟨rfl, by simp⟩
  | cons b hi ih =>
      obtain ⟨fuel, rfl⟩ := Nat.exists_eq_succ_of_ne_zero (by omega : fuel ≠ 0)
      have hbyte : (before ++ (b :: hi ++ [last] ++ rest)).getD c.pos 0 = b := by
        simp [hpos, List.getD_eq_getElem?_getD]
      have hgo : b &&& 0x80 ≠ 0 := by
        rw [and_80_ne_zero_iff]
        exact hhi b List.mem_cons_self
      simp only [List.length_cons] at hsize hfuel
      rw [skipContinuation, if_pos (by omega)]
      simp only [hbyte, if_pos hgo]
      have hmove : before ++ (b :: hi ++ [last] ++ rest) =
          (before ++ [b]) ++ (hi ++ [last] ++ rest) := by simp
      rw [hmove]
      obtain ⟨hp, hs⟩ := @ih (before ++ [b]) fuel
        (Cursor.skip { c with reads := c.reads ++ [c.pos] } 1) (by simp [Cursor.skip, hpos])
        (fun x hx => hhi x (List.mem_cons_of_mem b hx)) (by simp only [Cursor.skip]; omega)
        (by omega)
      simp only [Cursor.skip] at hp hs
      refine ⟨hp.trans ?_, hs.trans ?_⟩
      · simp only [List.length_cons]
        omega
      · simp only [List.length_cons]
        omega

/-- The patch goes to the first byte behind the multi-byte integer that follows the
version byte. -/
theorem patchCharset_of_multiByte {wrapper rest : List UInt8} {version c : UInt8}
    {n : MultiByte} (hwrapper : wrapper.length = 6) :
    let data := wrapper ++ version :: (n.bytes ++ c :: rest)
    patchCharset data data.length = wrapper ++ version :: (n.bytes ++ usAscii :: rest) := by
  intro data
  have hdata : data = (wrapper ++ [version]) ++ (n.bytes ++ c :: rest) := by simp [data]
  have hlen : data.length = 7 + n.bytes.length + 1 + rest.length := by
    rw [hdata]
    simp [hwrapper]
    omega
  have hpos : 0 < n.bytes.length := by simp [MultiByte.bytes]
  obtain ⟨hp, hs⟩ := @skipContinuation_of_multiByte (wrapper ++ [version]) (c :: rest) n
    (((Cursor.mk 0 data.length []).skip headerLength).skip 1).size.toNat
    (((Cursor.mk 0 data.length []).skip headerLength).skip 1)
    (by simp [Cursor.skip, headerLength, hwrapper])
    (by simp only [Cursor.skip, headerLength]; omega)
    (by simp only [Cursor.skip, headerLength]; omega)
  rw [← hdata] at hp hs
  have hcursor : (charsetCursor data data.length).pos = 7 + n.bytes.length ∧
      (charsetCursor data data.length).size > 0 := by
    simp only [charsetCursor]
    simp only [Cursor.skip, headerLength] at hp hs ⊢
    omega
  rw [patchCharset]
  rw [if_pos hcursor.2, hcursor.1, hdata, List.set_append_right _ _ (by simp [hwrapper]),
    List.set_append_right _ _ (by simp [hwrapper])]
  simp [hwrapper]

/-- The patched buffer holds a document that differs from `doc` in its character set
only, which is US-ASCII. -/
def OnlyCharsetChanged (wrapper : List UInt8) (doc : Document) : Prop :=
  ∃ doc' : Document,
    patchCharset (wrapper ++ doc.bytes) (wrapper ++ doc.bytes).length = wrapper ++ doc'.bytes ∧
      doc'.version = doc.version ∧ doc'.publicId.denotes = doc.publicId.denotes ∧
      doc'.strtbl = doc.strtbl ∧ doc'.body = doc.body ∧ doc'.charset.value = usAscii.toNat

theorem two_integers_ne_one {x y z : MultiByte} {bs : List UInt8}
    (h : x.bytes ++ (y.bytes ++ bs) = z.bytes ++ bs) : False :=
  y.bytes_append_ne bs (MultiByte.append_cancel h).2

theorem zero_fits : ¬ (0 : UInt8) > 0x7f := by decide

theorem one_fits : ¬ (1 : UInt8) > 0x7f := by decide

theorem usAscii_le : ¬ usAscii > 0x7f := by decide

theorem single_usAscii (rest : List UInt8) :
    usAscii :: rest = (MultiByte.single usAscii usAscii_le).bytes ++ rest :=
  rfl

theorem onlyCharsetChanged_number {wrapper : List UInt8} {doc : Document} {n : MultiByte}
    {hn : n.value ≠ 0} (hwrapper : wrapper.length = 6) (hid : doc.publicId = .number n hn) :
    OnlyCharsetChanged wrapper doc ↔ doc.charset.hi = [] := by
  obtain ⟨version, publicId, charset, strtblLength, strtbl, hstrtbl, body⟩ := doc
  obtain rfl : publicId = .number n hn := hid
  have hpatch (c : UInt8) (rest : List UInt8) :=
    @patchCharset_of_multiByte wrapper rest version c n hwrapper
  simp only at hpatch
  rcases charset.cases_bytes with ⟨h, hone⟩ | ⟨b, tail, hb, htail⟩
  · refine iff_of_true ⟨⟨version, .number n hn, .single usAscii usAscii_le, strtblLength, strtbl,
      hstrtbl, body⟩, ?_, rfl, rfl, rfl, rfl, MultiByte.value_single _ _⟩ (by rw [hone]; rfl)
    have hbytes : charset.bytes = [charset.last] := congrArg MultiByte.bytes hone
    simp only [Document.bytes, PublicId.bytes, hbytes, List.cons_append, List.nil_append, hpatch]
    rfl
  · refine iff_of_false ?_ ?_
    · rintro ⟨doc', hdoc', hv, hpub, htbl, hbody, hcs⟩
      simp only [Document.bytes, PublicId.bytes, htail, List.cons_append, hpatch,
        List.append_cancel_left_eq, List.cons.injEq] at hdoc'
      rw [htbl, hbody, single_usAscii] at hdoc'
      obtain ⟨-, hrest⟩ :=
        @PublicId.append_cancel (.number n hn) doc'.publicId _ _ hdoc'.2
      exact two_integers_ne_one (MultiByte.append_cancel hrest).2
    · intro hnil
      rw [MultiByte.bytes, hnil, List.nil_append, List.cons.injEq] at htail
      exact charset.last_le (htail.1 ▸ hb)

theorem onlyCharsetChanged_index {wrapper : List UInt8} {doc : Document} {i : MultiByte}
    (hwrapper : wrapper.length = 6) (hid : doc.publicId = .index i) :
    OnlyCharsetChanged wrapper doc ↔
      i.bytes = [usAscii] ∧ doc.charset.value = usAscii.toNat := by
  obtain ⟨version, publicId, charset, strtblLength, strtbl, hstrtbl, body⟩ := doc
  obtain rfl : publicId = .index i := hid
  have hpatch (c : UInt8) (rest : List UInt8) :=
    @patchCharset_of_multiByte wrapper rest version c (.single 0 zero_fits) hwrapper
  have hzero : (MultiByte.single 0 zero_fits).bytes = [0] := rfl
  simp only [hzero, List.cons_append, List.nil_append] at hpatch
  rcases i.cases_bytes with ⟨h, hone⟩ | ⟨b, tail, hb, htail⟩
  · have hbytes : i.bytes = [i.last] := congrArg MultiByte.bytes hone
    constructor
    · rintro ⟨doc', hdoc', hv, hpub, htbl, hbody, hcs⟩
      simp only [Document.bytes, PublicId.bytes, hbytes, List.cons_append, List.nil_append,
        hpatch, List.append_cancel_left_eq, List.cons.injEq] at hdoc'
      rw [htbl, hbody, single_usAscii] at hdoc'
      obtain ⟨hid, hrest⟩ :=
        @PublicId.append_cancel (.index (.single usAscii usAscii_le)) doc'.publicId _ _ hdoc'.2
      rw [hpub] at hid
      have hvalue := Sum.inr.inj hid
      rw [MultiByte.value_single, hone, MultiByte.value_single] at hvalue
      rw [hbytes, ← UInt8.toNat_inj.mp hvalue,
        MultiByte.value_congr (MultiByte.append_cancel hrest).1]
      exact ⟨rfl, hcs⟩
    · rintro ⟨hi, hcs⟩
      rw [hbytes, List.cons.injEq] at hi
      refine ⟨⟨version, .index i, charset, strtblLength, strtbl, hstrtbl, body⟩,
        ?_, rfl, rfl, rfl, rfl, hcs⟩
      simp only [Document.bytes, PublicId.bytes, hbytes, hi.1, List.cons_append, List.nil_append,
        hpatch]
  · refine iff_of_false ?_ ?_
    · rintro ⟨doc', hdoc', hv, hpub, htbl, hbody, hcs⟩
      simp only [Document.bytes, PublicId.bytes, htail, List.cons_append, hpatch,
        List.append_cancel_left_eq, List.cons.injEq] at hdoc'
      rw [htbl, hbody, single_usAscii] at hdoc'
      obtain ⟨-, hrest⟩ :=
        @PublicId.append_cancel (.index (.single usAscii usAscii_le)) doc'.publicId _ _ hdoc'.2
      obtain ⟨-, hrest⟩ := MultiByte.append_cancel hrest
      exact two_integers_ne_one hrest
    · rintro ⟨hi, -⟩
      rw [htail, List.cons.injEq] at hi
      exact usAscii_le (hi.1 ▸ hb)

/-- `patch_charset` changes the character set and nothing else exactly for a number as
the identifier with a one-byte character set, and where there was nothing to change. -/
theorem onlyCharsetChanged_iff {wrapper : List UInt8} {doc : Document}
    (hwrapper : wrapper.length = 6) :
    OnlyCharsetChanged wrapper doc ↔
      ((∃ n h, doc.publicId = .number n h) ∧ doc.charset.hi = []) ∨
      ((∃ i, doc.publicId = .index i ∧ i.bytes = [usAscii]) ∧
        doc.charset.value = usAscii.toNat) := by
  cases hid : doc.publicId with
  | number n hn =>
      rw [onlyCharsetChanged_number hwrapper hid]
      simp [hn]
  | index i =>
      rw [onlyCharsetChanged_index hwrapper hid]
      simp

/-- Number `1`, character set UTF-8, no string table and one byte of body. -/
def numberSample : Document where
  version := 3
  publicId := .number (.single 1 one_fits) Nat.one_ne_zero
  charset := .single 106 (by decide)
  strtblLength := .single 0 zero_fits
  strtbl := []
  strtbl_length := rfl
  body := [5]

theorem onlyCharsetChanged_numberSample :
    OnlyCharsetChanged [0, 0, 0, 0, 0, 0] numberSample :=
  (onlyCharsetChanged_iff rfl).mpr (Or.inl ⟨⟨_, _, rfl⟩, rfl⟩)

/-- The same document, identified by the string at index `0`. -/
def indexSample : Document :=
  { numberSample with
    publicId := .index (.single 0 zero_fits)
    strtblLength := .single 2 (by decide)
    strtbl := [65, 0]
    strtbl_length := rfl }

theorem not_onlyCharsetChanged_indexSample :
    ¬ OnlyCharsetChanged [0, 0, 0, 0, 0, 0] indexSample := by
  rw [onlyCharsetChanged_index rfl rfl]
  decide

end Iqiq.PatchCharset
