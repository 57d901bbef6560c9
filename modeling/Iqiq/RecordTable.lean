import Mathlib.Data.List.Basic
import Mathlib.Logic.Function.Basic

namespace Iqiq.RecordTable

variable {α : Type}

/-- `xs` with `ys` over what is at `pos`. -/
def overwrite (xs : List α) (pos : Nat) (ys : List α) : List α :=
  xs.take pos ++ (ys ++ xs.drop (pos + ys.length))

/-- The `n` elements at `pos`. -/
def window (xs : List α) (pos n : Nat) : List α :=
  (xs.drop pos).take n

/-- The records `f 0`, ..., `f (n - 1)`, one after the other. -/
def table (f : Nat → List α) (n : Nat) : List α :=
  (List.range n).flatMap f

section Overwriting

variable {xs ys zs : List α} {pos n : Nat}

@[simp] theorem overwrite_nil (xs : List α) (pos : Nat) : overwrite xs pos [] = xs := by
  simp [overwrite]

theorem length_overwrite (h : pos + ys.length ≤ xs.length) :
    (overwrite xs pos ys).length = xs.length := by
  simp only [overwrite, List.length_append, List.length_take, List.length_drop]
  omega

theorem overwrite_left (h : pos + ys.length ≤ xs.length) :
    overwrite (xs ++ zs) pos ys = overwrite xs pos ys ++ zs := by
  have htake : (xs ++ zs).take pos = xs.take pos := List.take_append_of_le_length (by omega)
  have hdrop : (xs ++ zs).drop (pos + ys.length) = xs.drop (pos + ys.length) ++ zs :=
    List.drop_append_of_le_length h
  simp only [overwrite, htake, hdrop, List.append_assoc]

theorem overwrite_right (xs zs : List α) (pos : Nat) (ys : List α) :
    overwrite (xs ++ zs) (xs.length + pos) ys = xs ++ overwrite zs pos ys := by
  have htake : (xs ++ zs).take (xs.length + pos) = xs ++ zs.take pos := by
    rw [List.take_append, List.take_of_length_le (by omega), Nat.add_sub_cancel_left]
  have hdrop : (xs ++ zs).drop (xs.length + pos + ys.length) = zs.drop (pos + ys.length) := by
    rw [Nat.add_assoc, ← List.drop_drop, List.drop_left]
  simp only [overwrite, htake, hdrop, List.append_assoc]

theorem overwrite_next (xs ys zs : List α) :
    overwrite (xs ++ zs) xs.length ys = xs ++ ys ++ zs.drop ys.length := by
  have h := overwrite_right xs zs 0 ys
  rw [Nat.add_zero] at h
  rw [h, overwrite]
  simp

theorem overwrite_middle (xs zs : List α) {mid : List α} (h : pos + ys.length ≤ mid.length) :
    overwrite (xs ++ (mid ++ zs)) (xs.length + pos) ys = xs ++ (overwrite mid pos ys ++ zs) := by
  rw [overwrite_right, overwrite_left h]

theorem overwrite_all (h : ys.length = xs.length) : overwrite xs 0 ys = ys := by
  simp [overwrite, h]

theorem getElem?_overwrite (h : pos ≤ xs.length) (i : Nat) :
    (overwrite xs pos ys)[i]? =
      if i < pos then xs[i]? else if i < pos + ys.length then ys[i - pos]? else xs[i]? := by
  have hlen : (xs.take pos).length = pos := List.length_take_of_le h
  rw [overwrite, List.getElem?_append, hlen]
  split
  · rename_i hi
    rw [List.getElem?_take_of_lt hi]
  · rename_i hi
    rw [List.getElem?_append]
    split
    · rename_i hi'
      rw [if_pos (by omega)]
    · rename_i hi'
      rw [if_neg (by omega), List.getElem?_drop]
      congr 1
      omega

theorem overwrite_overwrite (h : pos + ys.length ≤ xs.length) :
    overwrite (overwrite xs pos ys) (pos + ys.length) zs = overwrite xs pos (ys ++ zs) := by
  have hlen : (xs.take pos ++ ys).length = pos + ys.length := by
    rw [List.length_append, List.length_take]
    omega
  have hsplit : overwrite xs pos ys = (xs.take pos ++ ys) ++ xs.drop (pos + ys.length) := by
    rw [overwrite, List.append_assoc]
  rw [hsplit, ← hlen, overwrite_next, hlen, overwrite]
  simp [List.drop_drop, Nat.add_assoc]

end Overwriting

section Windows

variable {xs ys zs : List α} {pos n : Nat}

theorem length_window (h : pos + n ≤ xs.length) : (window xs pos n).length = n := by
  simp only [window, List.length_take, List.length_drop]
  omega

theorem window_left (h : pos + n ≤ xs.length) : window (xs ++ zs) pos n = window xs pos n := by
  rw [window, List.drop_append_of_le_length (by omega),
    List.take_append_of_le_length (by rw [List.length_drop]; omega), window]

theorem window_right (xs zs : List α) (pos n : Nat) :
    window (xs ++ zs) (xs.length + pos) n = window zs pos n := by
  rw [window, ← List.drop_drop, List.drop_left, window]

theorem window_middle (xs zs : List α) {mid : List α} (h : pos + n ≤ mid.length) :
    window (xs ++ (mid ++ zs)) (xs.length + pos) n = window mid pos n := by
  rw [window_right, window_left h]

theorem window_all (h : xs.length = n) : window xs 0 n = xs := by
  simp [window, ← h]

end Windows

section Tables

variable {f g : Nat → List α} {w n k j m : Nat} {ys : List α}

@[simp] theorem table_zero (f : Nat → List α) : table f 0 = [] :=
  rfl

theorem table_succ (f : Nat → List α) (n : Nat) : table f (n + 1) = table f n ++ f n := by
  simp [table, List.range_succ]

theorem table_congr (h : ∀ i < n, f i = g i) : table f n = table g n := by
  induction n with
  | zero => rfl
  | succ n ih =>
      rw [table_succ, table_succ, h n (Nat.lt_succ_self n), ih fun i hi => h i (by omega)]

theorem length_table (h : ∀ i < n, (f i).length = w) : (table f n).length = n * w := by
  induction n with
  | zero => simp
  | succ n ih =>
      rw [table_succ, List.length_append, ih fun i hi => h i (by omega),
        h n (Nat.lt_succ_self n), Nat.succ_mul]

theorem table_add (f : Nat → List α) (n m : Nat) :
    table f (n + m) = table f n ++ table (fun i => f (n + i)) m := by
  induction m with
  | zero => simp
  | succ m ih => rw [← Nat.add_assoc, table_succ, ih, table_succ, List.append_assoc]

theorem table_split (f : Nat → List α) (hk : k < n) :
    table f n = table f k ++ (f k ++ table (fun i => f (k + 1 + i)) (n - (k + 1))) := by
  obtain ⟨m, rfl⟩ := Nat.exists_eq_add_of_lt hk
  rw [show k + m + 1 = k + 1 + m by omega, table_add f (k + 1) m, table_succ,
    show k + 1 + m - (k + 1) = m by omega, List.append_assoc]

theorem window_table (hw : ∀ i < n, (f i).length = w) (hk : k < n) (hj : j + m ≤ w) :
    window (table f n) (k * w + j) m = window (f k) j m := by
  have hlen : (table f k).length = k * w := length_table fun i hi => hw i (by omega)
  rw [table_split f hk, ← hlen, window_right, window_left (by rwa [hw k hk])]

/-- Writing into one record changes that record. -/
theorem overwrite_table (hw : ∀ i < n, (f i).length = w) (hk : k < n) (hj : j + ys.length ≤ w) :
    overwrite (table f n) (k * w + j) ys =
      table (Function.update f k (overwrite (f k) j ys)) n := by
  have hlen : (table f k).length = k * w := length_table fun i hi => hw i (by omega)
  have hbefore : table (Function.update f k (overwrite (f k) j ys)) k = table f k :=
    table_congr fun i hi => Function.update_of_ne (by omega) _ _
  have hbehind : table (fun i => Function.update f k (overwrite (f k) j ys) (k + 1 + i))
      (n - (k + 1)) = table (fun i => f (k + 1 + i)) (n - (k + 1)) :=
    table_congr fun i _ => Function.update_of_ne (by omega) _ _
  rw [table_split f hk, table_split _ hk, hbefore, hbehind, Function.update_self, ← hlen,
    overwrite_right, overwrite_left (by rwa [hw k hk])]

end Tables

section Keyed

variable {ι : Type} {g : ι → List α} {w q j m : Nat} {is : List ι} {i : ι} {ys : List α}

theorem length_flatMap_of_width (hw : ∀ i, (g i).length = w) (is : List ι) :
    (is.flatMap g).length = is.length * w := by
  induction is with
  | nil => simp
  | cons i is ih =>
      rw [List.flatMap_cons, List.length_append, ih, hw, List.length_cons, Nat.succ_mul,
        Nat.add_comm]

theorem window_flatMap (hw : ∀ i, (g i).length = w) (hi : is[q]? = some i) (hj : j + m ≤ w) :
    window (is.flatMap g) (q * w + j) m = window (g i) j m := by
  induction is generalizing q with
  | nil => simp at hi
  | cons a is ih =>
      rw [List.flatMap_cons]
      cases q with
      | zero =>
          obtain rfl : a = i := by simpa using hi
          rw [Nat.zero_mul, Nat.zero_add, window_left (by rwa [hw])]
      | succ q =>
          have hplace : (q + 1) * w + j = (g a).length + (q * w + j) := by
            rw [hw, Nat.succ_mul]
            omega
          rw [hplace, window_right]
          exact ih (by simpa using hi)

theorem overwrite_flatMap [DecidableEq ι] (hw : ∀ i, (g i).length = w) (hnodup : is.Nodup)
    (hi : is[q]? = some i) (hj : j + ys.length ≤ w) :
    overwrite (is.flatMap g) (q * w + j) ys =
      is.flatMap (Function.update g i (overwrite (g i) j ys)) := by
  induction is generalizing q with
  | nil => simp at hi
  | cons a is ih =>
      obtain ⟨hnotMem, hnodup⟩ := List.nodup_cons.mp hnodup
      rw [List.flatMap_cons, List.flatMap_cons]
      cases q with
      | zero =>
          obtain rfl : a = i := by simpa using hi
          have hrest : is.flatMap (Function.update g a (overwrite (g a) j ys)) = is.flatMap g := by
            refine List.flatMap_congr fun b hb => Function.update_of_ne ?_ _ _
            rintro rfl
            exact hnotMem hb
          rw [Nat.zero_mul, Nat.zero_add, overwrite_left (by rwa [hw]), Function.update_self, hrest]
      | succ q =>
          have hmem : i ∈ is := List.mem_of_getElem? (by simpa using hi)
          have hne : a ≠ i := by
            rintro rfl
            exact hnotMem hmem
          have hplace : (q + 1) * w + j = (g a).length + (q * w + j) := by
            rw [hw, Nat.succ_mul]
            omega
          rw [hplace, overwrite_right, Function.update_of_ne hne]
          exact congrArg _ (ih hnodup (by simpa using hi))

end Keyed

end Iqiq.RecordTable
