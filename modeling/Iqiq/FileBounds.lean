import Iqiq.PatchCharset

namespace Iqiq.FileBounds

open Iqiq.PatchCharset

/-- `(WB_ULONG)(size - HEADER_LENGTH)`, the number of bytes that `parse` has the parser
read from `data + HEADER_LENGTH` on. -/
def parseLength (size : Int) : UInt32 :=
  UInt32.ofInt (size - headerLength)

/-- What the loop makes of the cursor: the position and the size move against each other,
and it reads from the first position to the last, while there is something left. -/
structure Skipped (c c' : Cursor) : Prop where
  le : c.pos ≤ c'.pos
  balance : c'.pos + c'.size = c.pos + c.size
  reads : ∀ i ∈ c'.reads, i ∈ c.reads ∨ i ≤ c'.pos ∧ (i : Int) < c.pos + c.size

theorem Skipped.refl (c : Cursor) : Skipped c c :=
  ⟨le_rfl, rfl, fun _ hi => Or.inl hi⟩

theorem skipContinuation_skipped (data : List UInt8) (fuel : Nat) (c : Cursor) :
    Skipped c (skipContinuation data fuel c) := by
  induction fuel generalizing c with
  | zero => exact Skipped.refl c
  | succ fuel ih =>
      rw [skipContinuation]
      split
      · rename_i hsize
        have hread : ∀ i ∈ c.reads ++ [c.pos], i ∈ c.reads ∨ i = c.pos := by
          intro i hi
          rwa [List.mem_append, List.mem_singleton] at hi
        simp only
        split
        · obtain ⟨hle, hbalance, hreads⟩ := ih (Cursor.skip ⟨c.pos, c.size, c.reads ++ [c.pos]⟩ 1)
          simp only [Cursor.skip] at hle hbalance hreads
          refine ⟨by simp only [Cursor.skip]; omega, by simp only [Cursor.skip]; omega, ?_⟩
          intro i hi
          rcases hreads i hi with hold | ⟨hpos, hlt⟩
          · rcases hread i hold with hmem | rfl
            · exact Or.inl hmem
            · exact Or.inr ⟨by simp only [Cursor.skip]; omega, by omega⟩
          · exact Or.inr ⟨hpos, by omega⟩
        · refine ⟨le_rfl, rfl, fun i hi => ?_⟩
          rcases hread i hi with hmem | rfl
          · exact Or.inl hmem
          · exact Or.inr ⟨le_rfl, by omega⟩
      · exact Skipped.refl c

theorem skipContinuation_congr {data data' : List UInt8} {fuel : Nat} {c : Cursor}
    (h : ∀ i ≤ (skipContinuation data fuel c).pos, data'.getD i 0 = data.getD i 0) :
    skipContinuation data' fuel c = skipContinuation data fuel c := by
  induction fuel generalizing c with
  | zero => rfl
  | succ fuel ih =>
      have hle := (skipContinuation_skipped data (fuel + 1) c).le
      have hbyte := h c.pos hle
      rw [skipContinuation] at h ⊢
      rw [skipContinuation]
      split
      · rename_i hsize
        rw [if_pos hsize] at h
        simp only [hbyte] at h ⊢
        split
        · rename_i hgo
          rw [if_pos hgo] at h
          exact ih h
        · rfl
      · rfl

/-- The cursor in front of the last test of `patch_charset`. -/
structure Placed (data : List UInt8) (c : Cursor) : Prop where
  balance : c.pos + c.size = data.length
  reads : ∀ i ∈ c.reads, i < c.pos ∧ i < data.length

theorem charsetCursor_placed (data : List UInt8) :
    Placed data (charsetCursor data data.length) := by
  obtain ⟨-, hbalance, hreads⟩ := skipContinuation_skipped data
    (((Cursor.mk 0 data.length []).skip headerLength).skip 1).size.toNat
    (((Cursor.mk 0 data.length []).skip headerLength).skip 1)
  simp only [Cursor.skip, headerLength] at hbalance hreads
  constructor
  · simp only [charsetCursor, Cursor.skip, headerLength]
    omega
  · intro i hi
    simp only [charsetCursor, Cursor.skip, headerLength] at hi ⊢
    rcases hreads i hi with hnil | ⟨hpos, hlt⟩
    · exact absurd hnil List.not_mem_nil
    · omega

theorem getD_set_of_lt {data : List UInt8} {i w : Nat} {b : UInt8} (h : i < w) :
    (data.set w b).getD i 0 = data.getD i 0 := by
  rw [List.getD_eq_getElem?_getD, List.getElem?_set_ne (by omega), List.getD_eq_getElem?_getD]

theorem charsetCursor_patchCharset (data : List UInt8) :
    charsetCursor (patchCharset data data.length) data.length =
      charsetCursor data data.length := by
  rw [patchCharset]
  split
  · simp only [charsetCursor]
    rw [skipContinuation_congr]
    intro i hi
    apply getD_set_of_lt
    simp only [Cursor.skip] at hi ⊢
    omega
  · rfl

theorem length_patchCharset (data : List UInt8) (size : Int) :
    (patchCharset data size).length = data.length := by
  rw [patchCharset]
  split
  · exact List.length_set
  · rfl

theorem patchCharset_idem (data : List UInt8) :
    patchCharset (patchCharset data data.length) data.length = patchCharset data data.length := by
  rw [patchCharset.eq_def (patchCharset data data.length), charsetCursor_patchCharset]
  rw [patchCharset]
  split
  · rename_i hsize
    rw [if_pos hsize, List.set_set]
  · rename_i hsize
    rw [if_neg hsize]

theorem patchCharset_changes (data : List UInt8) (size : Int) :
    ∃ i : Nat, ∀ j : Nat, j ≠ i → (patchCharset data size)[j]? = data[j]? := by
  refine ⟨(charsetCursor data size).pos, fun j hj => ?_⟩
  rw [patchCharset]
  split
  · exact List.getElem?_set_ne (Ne.symm hj)
  · rfl

/-- What is done with the file that `slurp` has read stays inside it. -/
structure StaysInside (data : List UInt8) : Prop where
  reads : ∀ i ∈ (charsetCursor data data.length).reads, i < data.length
  writes : (charsetCursor data data.length).size > 0 →
    (charsetCursor data data.length).pos < data.length
  keepsLength : (patchCharset data data.length).length = data.length
  changes : ∃ i : Nat, ∀ j : Nat, j ≠ i → (patchCharset data data.length)[j]? = data[j]?
  idem : patchCharset (patchCharset data data.length) data.length = patchCharset data data.length
  parses : headerLength + (parseLength data.length).toNat ≤ data.length

theorem toNat_parseLength_of_le {n : Nat} (h : headerLength ≤ n) :
    (parseLength n).toNat = (n - headerLength) % 2 ^ 32 := by
  have hint : ((n : Int) - headerLength) = ((n - headerLength : Nat) : Int) := by omega
  have hmod : (((n - headerLength : Nat) : Int) % 2 ^ 32).toNat = (n - headerLength) % 2 ^ 32 := by
    omega
  rw [parseLength, UInt32.ofInt, hint, hmod, UInt32.toNat_ofNat']
  omega

theorem toNat_parseLength_of_lt {n : Nat} (h : n < headerLength) :
    (parseLength n).toNat = 2 ^ 32 + n - headerLength := by
  have hmod : (((n : Int) - headerLength) % 2 ^ 32).toNat = 2 ^ 32 + n - headerLength := by
    simp only [headerLength] at h ⊢
    omega
  rw [parseLength, UInt32.ofInt, hmod, UInt32.toNat_ofNat']
  simp only [headerLength] at h ⊢
  omega

theorem headerLength_le_of_staysInside {data : List UInt8} (h : StaysInside data) :
    headerLength ≤ data.length := by
  by_contra hshort
  have hparses := h.parses
  rw [toNat_parseLength_of_lt (Nat.lt_of_not_le hshort)] at hparses
  omega

/-- Everything stays inside the file exactly when the file has the six bytes of the
wrapper. -/
theorem staysInside_iff (data : List UInt8) : StaysInside data ↔ headerLength ≤ data.length := by
  constructor
  · exact headerLength_le_of_staysInside
  · intro h
    have hplaced := charsetCursor_placed data
    constructor
    · intro i hi
      exact (hplaced.reads i hi).2
    · intro hsize
      have hbalance := hplaced.balance
      omega
    · exact length_patchCharset data data.length
    · exact patchCharset_changes data data.length
    · exact patchCharset_idem data
    · rw [toNat_parseLength_of_le h]
      omega

theorem not_staysInside_oneByte : ¬ StaysInside [0x82] := by
  intro h
  exact absurd (headerLength_le_of_staysInside h) (by decide)

end Iqiq.FileBounds
