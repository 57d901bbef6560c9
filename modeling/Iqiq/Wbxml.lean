import Iqiq.SevenBitGroups

namespace Iqiq.Wbxml

open Iqiq.SevenBitGroups

/-- The public identifier of a document: a number other than zero, or a zero byte
and an index into the string table. -/
inductive PublicId where
  | number (n : MultiByte) (h : n.value ≠ 0)
  | index (i : MultiByte)

def PublicId.bytes : PublicId → List UInt8
  | .number n _ => n.bytes
  | .index i => 0 :: i.bytes

/-- What the identifier denotes, without its encoding. -/
def PublicId.denotes : PublicId → Nat ⊕ Nat
  | .number n _ => .inl n.value
  | .index i => .inr i.value

/-- A document, split by the header grammar. -/
structure Document where
  version : UInt8
  publicId : PublicId
  charset : MultiByte
  strtblLength : MultiByte
  strtbl : List UInt8
  strtbl_length : strtblLength.value = strtbl.length
  body : List UInt8

def Document.bytes (d : Document) : List UInt8 :=
  d.version :: (d.publicId.bytes ++ (d.charset.bytes ++
    (d.strtblLength.bytes ++ (d.strtbl ++ d.body))))

theorem head_ne_zero {n : MultiByte} (h : n.value ≠ 0) {bs cs : List UInt8}
    (heq : n.bytes ++ bs = 0 :: cs) : False := by
  rcases n.cases_bytes with ⟨hlast, hn⟩ | ⟨b, rest, hb, hn⟩
  · rw [hn, MultiByte.value_single] at h
    rw [hn] at heq
    simp only [MultiByte.bytes, MultiByte.single, List.nil_append, List.cons_append,
      List.cons.injEq] at heq
    rw [heq.1] at h
    exact h rfl
  · rw [hn, List.cons_append, List.cons.injEq] at heq
    rw [heq.1] at hb
    exact absurd hb (by decide)

theorem PublicId.append_cancel {x y : PublicId} {as bs : List UInt8}
    (h : x.bytes ++ as = y.bytes ++ bs) : x.denotes = y.denotes ∧ as = bs := by
  cases x with
  | number n hn =>
      cases y with
      | number n' hn' =>
          obtain ⟨hbytes, hrest⟩ := MultiByte.append_cancel h
          exact ⟨congrArg Sum.inl (MultiByte.value_congr hbytes), hrest⟩
      | index i' => exact (head_ne_zero hn h).elim
  | index i =>
      cases y with
      | number n' hn' => exact (head_ne_zero hn' h.symm).elim
      | index i' =>
          simp only [PublicId.bytes, List.cons_append, List.cons.injEq, true_and] at h
          obtain ⟨hbytes, hrest⟩ := MultiByte.append_cancel h
          exact ⟨congrArg Sum.inr (MultiByte.value_congr hbytes), hrest⟩

end Iqiq.Wbxml
