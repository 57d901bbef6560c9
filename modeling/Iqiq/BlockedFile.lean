import Mathlib.Algebra.Order.Group.Nat
import Iqiq.RecordTable

namespace Iqiq.BlockedFile

open Iqiq.RecordTable

variable {α : Type}

/-- A file in blocks: `room` is what its blocks hold, and the first `size` of it are its own. -/
structure Content (α : Type) where
  size : Nat
  room : List α

namespace Content

/-- What a read of `n` elements at `pos` delivers. -/
def get (c : Content α) (pos n : Nat) : List α :=
  window (c.room.take c.size) pos n

/-- The elements behind those of the file are blank. -/
def Clean (z : α) (c : Content α) : Prop :=
  ∀ i, c.size ≤ i → i < c.room.length → c.room[i]? = some z

/-- What is in the blocks when there are `reach` of them in place of `held`. -/
def grow (bs : Nat) (z : α) (c : Content α) (held reach : Nat) : List α :=
  c.room ++ List.replicate ((reach - held) * bs) z

end Content

section

variable (bs total : Nat) (z : α)

/-- The number of blocks for the elements before `stop`. -/
def blocksFor (stop : Nat) : Nat :=
  (stop + bs - 1) / bs

/-- What a write changes, and the number of elements that it takes. -/
structure Written (α : Type) where
  count : Nat
  content : Content α
  free : Nat

/-- A write of `xs` at `pos`, where no file has more than `total` blocks. As many of the
free blocks as there are become the file's. -/
def put (free : Nat) (c : Content α) (pos : Nat) (xs : List α) : Written α :=
  if xs = [] ∨ total ≤ pos / bs then ⟨0, c, free⟩
  else
    let held := c.room.length / bs
    let count := min xs.length ((held + free) * bs - pos)
    let reach := max held (min (held + free) (blocksFor bs (pos + xs.length)))
    { count
      content :=
        { size := if count = 0 then c.size else max c.size (pos + count)
          room := overwrite (c.grow bs z held reach) pos (xs.take count) }
      free := free - (reach - held) }

/-- A file of the size `n` for which as many blocks are taken as it needs, or as there are,
and the number of those that are left. -/
def enlarge (free : Nat) (c : Content α) (n : Nat) : Content α × Nat :=
  if total ≤ (n - 1) / bs then ({ c with size := n }, free)
  else
    let held := c.room.length / bs
    let reach := max held (min (held + free) (blocksFor bs n))
    (⟨n, c.grow bs z held reach⟩, free - (reach - held))

/-- A file of the size `n` in its first `keep` blocks, which are blank from `stop` on. -/
def cut (c : Content α) (n keep stop : Nat) : Content α :=
  ⟨n, c.room.take stop ++ List.replicate (keep * bs - stop) z⟩

end

section

variable {bs total held free pos : Nat} {z : α} {c : Content α} {xs ys : List α}

theorem blocksFor_le_iff (hbs : 0 < bs) {stop n : Nat} : blocksFor bs stop ≤ n ↔ stop ≤ n * bs := by
  rw [blocksFor, Nat.div_le_iff_le_mul hbs]
  omega

theorem lt_blocksFor_iff (hbs : 0 < bs) {stop n : Nat} : n < blocksFor bs stop ↔ n * bs < stop := by
  rw [← Nat.not_le, blocksFor_le_iff hbs, Nat.not_le]

theorem blocksFor_eq (hbs : 0 < bs) {stop n : Nat} (h : n * bs < stop) (h' : stop ≤ (n + 1) * bs) :
    blocksFor bs stop = n + 1 :=
  Nat.le_antisymm ((blocksFor_le_iff hbs).mpr h') ((lt_blocksFor_iff hbs).mpr h)

theorem blocksFor_of_pos (hbs : 0 < bs) {stop : Nat} (h : 0 < stop) :
    blocksFor bs stop = (stop - 1) / bs + 1 := by
  rw [blocksFor, ← Nat.add_div_right _ hbs]
  congr 1
  omega

theorem length_grow (hroom : c.room.length = held * bs) {reach : Nat} (hreach : held ≤ reach) :
    (c.grow bs z held reach).length = reach * bs := by
  obtain ⟨more, rfl⟩ := Nat.exists_eq_add_of_le hreach
  rw [Content.grow, List.length_append, List.length_replicate, hroom, Nat.add_sub_cancel_left,
    ← Nat.add_mul]

theorem put_nil (free : Nat) (c : Content α) (pos : Nat) :
    put bs total z free c pos [] = ⟨0, c, free⟩ := by
  rw [put, if_pos (Or.inl rfl)]

theorem put_outside (h : total ≤ pos / bs) (free : Nat) (c : Content α) (xs : List α) :
    put bs total z free c pos xs = ⟨0, c, free⟩ := by
  rw [put, if_pos (Or.inr h)]

theorem put_of_lt (hbs : 0 < bs) (hroom : c.room.length = held * bs) (hne : xs ≠ [])
    (hpos : pos / bs < total) :
    put bs total z free c pos xs =
      let count := min xs.length ((held + free) * bs - pos)
      let reach := max held (min (held + free) (blocksFor bs (pos + xs.length)))
      { count
        content :=
          { size := if count = 0 then c.size else max c.size (pos + count)
            room := overwrite (c.grow bs z held reach) pos (xs.take count) }
        free := free - (reach - held) } := by
  have hheld : c.room.length / bs = held := by
    rw [hroom, Nat.mul_div_cancel _ hbs]
  rw [put, if_neg, hheld]
  rw [not_or]
  exact ⟨hne, Nat.not_le.mpr hpos⟩

theorem stop_le_reach (hbs : 0 < bs) {n : Nat} (h : min n ((held + free) * bs - pos) ≠ 0) :
    pos + min n ((held + free) * bs - pos) ≤
      max held (min (held + free) (blocksFor bs (pos + n))) * bs := by
  rcases Nat.le_total (blocksFor bs (pos + n)) (held + free) with hle | hle
  · have hstop : pos + n ≤ blocksFor bs (pos + n) * bs := (blocksFor_le_iff hbs).mp le_rfl
    have hreach : blocksFor bs (pos + n) * bs ≤ max held (blocksFor bs (pos + n)) * bs :=
      Nat.mul_le_mul_right _ (le_max_right _ _)
    rw [Nat.min_eq_right hle]
    omega
  · have hreach : (held + free) * bs ≤ max held (held + free) * bs :=
      Nat.mul_le_mul_right _ (le_max_right _ _)
    rw [Nat.min_eq_left hle]
    omega

theorem length_overwrite_grow (hbs : 0 < bs) (hroom : c.room.length = held * bs) :
    (overwrite (c.grow bs z held (max held (min (held + free) (blocksFor bs (pos + xs.length)))))
      pos (xs.take (min xs.length ((held + free) * bs - pos)))).length =
        max held (min (held + free) (blocksFor bs (pos + xs.length))) * bs := by
  have hgrow := @length_grow _ bs held z c hroom
    (max held (min (held + free) (blocksFor bs (pos + xs.length)))) (le_max_left _ _)
  rcases eq_or_ne (min xs.length ((held + free) * bs - pos)) 0 with hzero | hne
  · rw [hzero, List.take_zero, overwrite_nil, hgrow]
  · rw [length_overwrite, hgrow]
    rw [hgrow, List.length_take_of_le (Nat.min_le_left _ _)]
    exact stop_le_reach hbs hne

theorem put_room (hbs : 0 < bs) (hroom : c.room.length = held * bs) :
    ∃ reach, held ≤ reach ∧ reach ≤ held + free ∧
      (put bs total z free c pos xs).content.room.length = reach * bs ∧
        (put bs total z free c pos xs).free = held + free - reach := by
  rcases eq_or_ne xs [] with rfl | hne
  · refine ⟨held, le_rfl, Nat.le_add_right _ _, ?_, ?_⟩
    · rwa [put_nil]
    · rw [put_nil, Nat.add_sub_cancel_left]
  rcases Nat.lt_or_ge (pos / bs) total with hpos | hpos
  · rw [put_of_lt hbs hroom hne hpos]
    refine ⟨max held (min (held + free) (blocksFor bs (pos + xs.length))), ?_, ?_, ?_, ?_⟩
    · exact le_max_left _ _
    · exact max_le (Nat.le_add_right _ _) (Nat.min_le_left _ _)
    · exact length_overwrite_grow hbs hroom
    · simp only
      omega
  · refine ⟨held, le_rfl, Nat.le_add_right _ _, ?_, ?_⟩
    · rwa [put_outside hpos]
    · rw [put_outside hpos, Nat.add_sub_cancel_left]

theorem grow_grow (bs : Nat) (z : α) (c : Content α) {held mid reach : Nat} (h : held ≤ mid)
    (h' : mid ≤ reach) : c.grow bs z held mid ++ List.replicate ((reach - mid) * bs) z =
      c.grow bs z held reach := by
  rw [Content.grow, Content.grow, List.append_assoc, List.replicate_append_replicate,
    ← Nat.add_mul]
  congr 3
  omega

/-- A write that takes everything. -/
theorem put_all (hbs : 0 < bs) (hroom : c.room.length = held * bs) (hfree : held + free ≤ total)
    (hne : xs ≠ []) (hstop : pos + xs.length ≤ (held + free) * bs) :
    put bs total z free c pos xs =
      let reach := max held (blocksFor bs (pos + xs.length))
      { count := xs.length
        content :=
          { size := max c.size (pos + xs.length)
            room := overwrite (c.grow bs z held reach) pos xs }
        free := free - (reach - held) } := by
  have hlen : 0 < xs.length := List.length_pos_iff.mpr hne
  have hpos : pos / bs < total := by
    rw [Nat.div_lt_iff_lt_mul hbs]
    have := Nat.mul_le_mul_right bs hfree
    omega
  have hneed : blocksFor bs (pos + xs.length) ≤ held + free := (blocksFor_le_iff hbs).mpr hstop
  have hcount : min xs.length ((held + free) * bs - pos) = xs.length := by omega
  rw [put_of_lt hbs hroom hne hpos, hcount, Nat.min_eq_right hneed]
  simp only [if_neg hlen.ne', List.take_length]

/-- A write in two pieces. -/
theorem put_append (hbs : 0 < bs) (hroom : c.room.length = held * bs)
    (hfree : held + free ≤ total) (hne : xs ≠ [])
    (hstop : pos + xs.length ≤ (held + free) * bs) :
    put bs total z free c pos (xs ++ ys) =
      let first := put bs total z free c pos xs
      let second := put bs total z first.free first.content (pos + xs.length) ys
      ⟨xs.length + second.count, second.content, second.free⟩ := by
  rcases eq_or_ne ys [] with rfl | hys
  · rw [List.append_nil]
    simp only [put_nil, Nat.add_zero]
    rw [put_all hbs hroom hfree hne hstop]
  have hlen : 0 < xs.length := List.length_pos_iff.mpr hne
  have hpos : pos / bs < total := by
    rw [Nat.div_lt_iff_lt_mul hbs]
    have := Nat.mul_le_mul_right bs hfree
    omega
  have hneed : blocksFor bs (pos + xs.length) ≤ held + free := (blocksFor_le_iff hbs).mpr hstop
  have hneed' : blocksFor bs (pos + xs.length) ≤ blocksFor bs (pos + (xs ++ ys).length) := by
    refine Nat.div_le_div_right ?_
    rw [List.length_append]
    omega
  have hroom' := @length_overwrite_grow _ bs held free pos z c xs hbs hroom
  have hcount : min xs.length ((held + free) * bs - pos) = xs.length := by omega
  rw [hcount, List.take_length, Nat.min_eq_right hneed] at hroom'
  rw [put_of_lt hbs hroom (by simp [hne]) hpos, put_all hbs hroom hfree hne hstop]
  -- what the file has after the first piece
  generalize hmid : max held (blocksFor bs (pos + xs.length)) = mid at hroom' ⊢
  have hheld : held ≤ mid := hmid ▸ le_max_left _ _
  have hmid' : mid ≤ held + free := hmid ▸ max_le (Nat.le_add_right _ _) hneed
  have hsum : mid + (free - (mid - held)) = held + free := by omega
  have hend : pos + xs.length ≤ mid * bs := by
    have h := Nat.mul_le_mul_right bs (hmid ▸ le_max_right held _ :
      blocksFor bs (pos + xs.length) ≤ mid)
    have h' : pos + xs.length ≤ blocksFor bs (pos + xs.length) * bs :=
      (blocksFor_le_iff hbs).mp le_rfl
    omega
  have hgrow := @length_grow _ bs held z c hroom mid hheld
  have hzero : (xs ++ ys).length ≠ 0 := by
    rw [List.length_append]
    omega
  rcases Nat.lt_or_ge ((pos + xs.length) / bs) total with hpos' | hpos'
  · simp only
    rw [put_of_lt hbs hroom' hys hpos', hsum]
    have hreach : max held (min (held + free) (blocksFor bs (pos + (xs ++ ys).length))) =
        max mid (min (held + free) (blocksFor bs (pos + xs.length + ys.length))) := by
      rw [List.length_append, ← Nat.add_assoc] at hneed' ⊢
      omega
    rw [hreach]
    generalize hreach' : max mid (min (held + free)
      (blocksFor bs (pos + xs.length + ys.length))) = reach
    have hcount' : min (xs ++ ys).length ((held + free) * bs - pos) =
        xs.length + min ys.length ((held + free) * bs - (pos + xs.length)) := by
      rw [List.length_append]
      omega
    have hle : mid ≤ reach := hreach' ▸ le_max_left _ _
    have hbytes : overwrite (Content.grow bs z ⟨max c.size (pos + xs.length),
          overwrite (c.grow bs z held mid) pos xs⟩ mid reach) (pos + xs.length)
          (ys.take (min ys.length ((held + free) * bs - (pos + xs.length)))) =
        overwrite (c.grow bs z held reach) pos
          ((xs ++ ys).take
            (xs.length + min ys.length ((held + free) * bs - (pos + xs.length)))) := by
      rw [← grow_grow bs z c hheld hle, List.take_length_add_append, ← overwrite_overwrite,
        overwrite_left (by rwa [hgrow])]
      · rfl
      · rw [List.length_append, hgrow]
        omega
    simp only [hcount']
    generalize min ys.length ((held + free) * bs - (pos + xs.length)) = more at hbytes ⊢
    have hsize : (if xs.length + more = 0 then c.size else max c.size (pos + (xs.length + more))) =
        if more = 0 then max c.size (pos + xs.length)
        else max (max c.size (pos + xs.length)) (pos + xs.length + more) := by
      rw [if_neg (by omega)]
      split <;> omega
    have hfree' : free - (reach - held) = free - (mid - held) - (reach - mid) := by omega
    rw [hbytes, hsize, hfree']
  · -- the first piece ends with the last block that there can be
    have htotal := (Nat.le_div_iff_mul_le hbs).mp hpos'
    have hmost := Nat.mul_le_mul_right bs hfree
    have hlast : mid = held + free := by
      have hle : (held + free) * bs ≤ mid * bs := by omega
      exact Nat.le_antisymm hmid' (Nat.le_of_mul_le_mul_right hle hbs)
    have hcount' : min (xs ++ ys).length ((held + free) * bs - pos) = xs.length := by
      rw [List.length_append]
      omega
    have hreach : max held (min (held + free) (blocksFor bs (pos + (xs ++ ys).length))) = mid := by
      omega
    simp only [put_outside hpos', hcount', hreach, List.take_left, if_neg hlen.ne', Nat.add_zero]

theorem Content.get_add (c : Content α) (pos n m : Nat) :
    c.get pos (n + m) = c.get pos n ++ c.get (pos + n) m := by
  simp only [Content.get, window, List.take_add, List.drop_drop]

theorem Content.get_eq_nil (h : c.size ≤ pos ∨ c.room.length ≤ pos) (n : Nat) :
    c.get pos n = [] := by
  rw [Content.get, window, List.drop_eq_nil_of_le, List.take_nil]
  rw [List.length_take]
  omega

theorem Content.get_next (c : Content α) (pos n m : Nat) :
    c.get pos n ++ c.get (pos + (c.get pos n).length) m = c.get pos (n + m) := by
  rw [Content.get_add]
  rcases Nat.lt_or_ge (c.get pos n).length n with hshort | hall
  · have hend : c.size ≤ pos + (c.get pos n).length ∨
        c.room.length ≤ pos + (c.get pos n).length := by
      rw [Content.get, window, List.length_take, List.length_drop, List.length_take] at hshort ⊢
      omega
    have hend' : c.size ≤ pos + n ∨ c.room.length ≤ pos + n := by omega
    rw [c.get_eq_nil hend, c.get_eq_nil hend']
  · have hlen : (c.get pos n).length = n := by
      apply Nat.le_antisymm _ hall
      rw [Content.get, window]
      exact List.length_take_le _ _
    rw [hlen]

theorem Content.get_of_le {n : Nat} (h : pos + n ≤ c.size) : c.get pos n = window c.room pos n := by
  rw [Content.get, window, window, List.drop_take, List.take_take, Nat.min_eq_left (by omega)]

theorem getElem?_grow (bs : Nat) (z : α) (c : Content α) (held reach : Nat) {i : Nat}
    (hi : i < (c.grow bs z held reach).length) :
    (c.grow bs z held reach)[i]? = some ((c.room[i]?).getD z) := by
  rw [Content.grow] at hi ⊢
  rw [List.getElem?_append]
  split
  · rename_i hlt
    rw [List.getElem?_eq_getElem hlt]
    rfl
  · rename_i hge
    rw [List.length_append, List.length_replicate] at hi
    rw [List.getElem?_replicate_of_lt (by omega), List.getElem?_eq_none (by omega)]
    rfl

/-- An element after a write: one of what was written, or what was there before it, where
a gap behind the end holds blank elements. -/
theorem getElem?_put (hbs : 0 < bs) (hroom : c.room.length = held * bs) {i : Nat}
    (hi : i < (put bs total z free c pos xs).content.room.length) :
    (put bs total z free c pos xs).content.room[i]? =
      if pos ≤ i ∧ i < pos + (put bs total z free c pos xs).count then xs[i - pos]?
      else some ((c.room[i]?).getD z) := by
  have hsame : ∀ i < c.room.length, c.room[i]? = some ((c.room[i]?).getD z) := by
    intro i hi
    rw [List.getElem?_eq_getElem hi]
    rfl
  rcases eq_or_ne xs [] with rfl | hne
  · rw [put_nil] at hi ⊢
    rw [if_neg (by simp only; omega)]
    exact hsame i hi
  rcases Nat.lt_or_ge (pos / bs) total with hpos | hpos
  · have hput := @put_of_lt _ bs total held free pos z c xs hbs hroom hne hpos
    have hlen := @length_overwrite_grow _ bs held free pos z c xs hbs hroom
    have hgrow := @length_grow _ bs held z c hroom
      (max held (min (held + free) (blocksFor bs (pos + xs.length)))) (le_max_left _ _)
    rw [hput] at hi ⊢
    simp only at hi ⊢
    rw [hlen, ← hgrow] at hi
    generalize hcount : min xs.length ((held + free) * bs - pos) = count at hi ⊢
    have htake : (xs.take count).length = count := by
      rw [List.length_take]
      omega
    rcases eq_or_ne count 0 with rfl | hcount0
    · rw [List.take_zero, overwrite_nil, if_neg (by omega)]
      exact getElem?_grow _ _ _ _ _ hi
    · have hstop := @stop_le_reach bs held free pos hbs xs.length (by rwa [hcount])
      rw [getElem?_overwrite (by omega), htake]
      split
      · rw [if_neg (by omega)]
        exact getElem?_grow _ _ _ _ _ hi
      · split
        · rw [if_pos (by omega), List.getElem?_take_of_lt (by omega)]
        · rw [if_neg (by omega)]
          exact getElem?_grow _ _ _ _ _ hi
  · rw [put_outside hpos] at hi ⊢
    rw [if_neg (by simp only; omega)]
    exact hsame i hi

theorem size_put (hbs : 0 < bs) (hroom : c.room.length = held * bs) :
    (put bs total z free c pos xs).content.size =
      if (put bs total z free c pos xs).count = 0 then c.size
      else max c.size (pos + (put bs total z free c pos xs).count) := by
  rcases eq_or_ne xs [] with rfl | hne
  · rw [put_nil, if_pos rfl]
  rcases Nat.lt_or_ge (pos / bs) total with hpos | hpos
  · rw [put_of_lt hbs hroom hne hpos]
  · rw [put_outside hpos, if_pos rfl]

theorem stop_le_length (hbs : 0 < bs) (hroom : c.room.length = held * bs)
    (hcount : (put bs total z free c pos xs).count ≠ 0) :
    pos + (put bs total z free c pos xs).count ≤
      (put bs total z free c pos xs).content.room.length := by
  rcases eq_or_ne xs [] with rfl | hne
  · rw [put_nil] at hcount
    exact absurd rfl hcount
  rcases Nat.lt_or_ge (pos / bs) total with hpos | hpos
  · rw [put_of_lt hbs hroom hne hpos] at hcount ⊢
    simp only at hcount ⊢
    rw [length_overwrite_grow hbs hroom]
    exact stop_le_reach hbs hcount
  · rw [put_outside hpos] at hcount
    exact absurd rfl hcount

theorem count_put_le (hbs : 0 < bs) (hroom : c.room.length = held * bs) :
    (put bs total z free c pos xs).count ≤ xs.length := by
  rcases eq_or_ne xs [] with rfl | hne
  · rw [put_nil]
    exact Nat.zero_le _
  rcases Nat.lt_or_ge (pos / bs) total with hpos | hpos
  · rw [put_of_lt hbs hroom hne hpos]
    exact Nat.min_le_left _ _
  · rw [put_outside hpos]
    exact Nat.zero_le _

theorem stop_le_of_count (hbs : 0 < bs) (hroom : c.room.length = held * bs) (hne : xs ≠ [])
    (hcount : (put bs total z free c pos xs).count = xs.length) :
    pos + xs.length ≤ (held + free) * bs := by
  have hlen : 0 < xs.length := List.length_pos_iff.mpr hne
  rcases Nat.lt_or_ge (pos / bs) total with hpos | hpos
  · rw [put_of_lt hbs hroom hne hpos] at hcount
    simp only at hcount
    omega
  · rw [put_outside hpos] at hcount
    exact absurd hcount hlen.ne

/-- What has been written is read. -/
theorem get_put (hbs : 0 < bs) (hroom : c.room.length = held * bs) {n : Nat}
    (hn : n ≤ (put bs total z free c pos xs).count) :
    (put bs total z free c pos xs).content.get pos n = xs.take n := by
  rcases Nat.eq_zero_or_pos n with rfl | hpos
  · rw [Content.get, window, List.take_zero, List.take_zero]
  have hcount : (put bs total z free c pos xs).count ≠ 0 := by omega
  have hstop := stop_le_length hbs hroom hcount
  have hle := @count_put_le _ bs total held free pos z c xs hbs hroom
  have hsize := @size_put _ bs total held free pos z c xs hbs hroom
  rw [if_neg hcount] at hsize
  rw [Content.get_of_le (by omega)]
  apply List.ext_getElem?
  intro i
  rcases Nat.lt_or_ge i n with hi | hi
  · rw [window, List.getElem?_take_of_lt hi, List.getElem?_drop, getElem?_put hbs hroom (by omega),
      if_pos (by omega), List.getElem?_take_of_lt hi, Nat.add_sub_cancel_left]
  · rw [List.getElem?_eq_none, List.getElem?_eq_none]
    · rw [List.length_take]
      omega
    · rw [window, List.length_take]
      omega

/-- A write that does not take everything has taken all blocks, or begins behind the last one
that there can be. -/
theorem short_put (hbs : 0 < bs) (hroom : c.room.length = held * bs) (hfree : held + free ≤ total)
    (hshort : (put bs total z free c pos xs).count < xs.length) :
    (put bs total z free c pos xs).content.room.length ≤
        pos + (put bs total z free c pos xs).count ∧
      ((put bs total z free c pos xs).free = 0 ∨ total * bs ≤ pos) := by
  have hne : xs ≠ [] := by
    rintro rfl
    exact absurd hshort (Nat.not_lt_zero _)
  rcases Nat.lt_or_ge (pos / bs) total with hpos | hpos
  · have hlen := @length_overwrite_grow _ bs held free pos z c xs hbs hroom
    have hput := @put_of_lt _ bs total held free pos z c xs hbs hroom hne hpos
    rw [hput] at hshort ⊢
    simp only at hshort ⊢
    rw [hlen]
    have hreach : held + free ≤ blocksFor bs (pos + xs.length) := by
      by_contra hlt
      have hstop := (blocksFor_le_iff hbs).mp (Nat.le_of_lt (Nat.not_le.mp hlt))
      omega
    rw [Nat.min_eq_left hreach, Nat.max_eq_right (Nat.le_add_right held free)]
    exact ⟨by omega, Or.inl (by omega)⟩
  · rw [put_outside hpos] at hshort ⊢
    have hbehind : total * bs ≤ pos := (Nat.le_div_iff_mul_le hbs).mp hpos
    have hmul := Nat.mul_le_mul_right bs (Nat.le_trans (Nat.le_add_right held free) hfree)
    exact ⟨by simp only; omega, Or.inr hbehind⟩

theorem Content.Clean.getD_eq (h : c.Clean z) {i : Nat} (hi : c.size ≤ i) :
    (c.room[i]?).getD z = z := by
  rcases Nat.lt_or_ge i c.room.length with hlt | hge
  · rw [h i hi hlt]
    rfl
  · rw [List.getElem?_eq_none hge]
    rfl

theorem Content.Clean.put (hbs : 0 < bs) (hroom : c.room.length = held * bs) (h : c.Clean z) :
    (put bs total z free c pos xs).content.Clean z := by
  intro i hsize hi
  rw [size_put hbs hroom] at hsize
  rw [getElem?_put hbs hroom hi]
  split at hsize
  · rename_i hcount
    rw [if_neg (by omega), h.getD_eq hsize]
  · rw [if_neg (by omega), h.getD_eq (by omega)]

theorem Content.Clean.getElem?_padded (h : c.Clean z) (hsize : c.size ≤ c.room.length) {i : Nat}
    (hi : i < c.size ∨ i < pos) :
    (c.room.take c.size ++ List.replicate (pos - c.size) z)[i]? = some ((c.room[i]?).getD z) := by
  have hlen : (c.room.take c.size).length = c.size := List.length_take_of_le hsize
  rw [List.getElem?_append, hlen]
  split
  · rename_i hlt
    rw [List.getElem?_take_of_lt hlt, List.getElem?_eq_getElem (by omega)]
    rfl
  · rw [List.getElem?_replicate_of_lt (by omega), h.getD_eq (by omega)]

/-- What is in a file after a write, where a gap behind the end has been filled with blank
elements. -/
theorem take_put (hbs : 0 < bs) (hroom : c.room.length = held * bs) (h : c.Clean z)
    (hsize : c.size ≤ c.room.length) (hcount : (put bs total z free c pos xs).count ≠ 0) :
    (put bs total z free c pos xs).content.room.take
        (put bs total z free c pos xs).content.size =
      overwrite (c.room.take c.size ++ List.replicate (pos - c.size) z) pos
        (xs.take (put bs total z free c pos xs).count) := by
  have hstop := stop_le_length hbs hroom hcount
  have hsize' := @size_put _ bs total held free pos z c xs hbs hroom
  rw [if_neg hcount] at hsize'
  have hle : c.room.length ≤ (put bs total z free c pos xs).content.room.length := by
    obtain ⟨reach, hheld, -, hlen, -⟩ := @put_room _ bs total held free pos z c xs hbs hroom
    rw [hlen, hroom]
    exact Nat.mul_le_mul_right _ hheld
  have htake : (xs.take (put bs total z free c pos xs).count).length =
      (put bs total z free c pos xs).count := List.length_take_of_le (count_put_le hbs hroom)
  have hpadded : (c.room.take c.size ++ List.replicate (pos - c.size) z).length =
      max c.size pos := by
    rw [List.length_append, List.length_take_of_le hsize, List.length_replicate]
    omega
  refine List.ext_getElem? fun i => ?_
  rw [getElem?_overwrite (by omega), htake]
  rcases Nat.lt_or_ge i (put bs total z free c pos xs).content.size with hi | hi
  · rw [List.getElem?_take_of_lt hi, getElem?_put hbs hroom (by omega)]
    split
    · rw [if_neg (by omega), if_pos (by omega), List.getElem?_take_of_lt (by omega)]
    · split
      · rw [h.getElem?_padded hsize (by omega)]
      · rw [if_neg (by omega), h.getElem?_padded hsize (by omega)]
  · rw [List.getElem?_eq_none (by rw [List.length_take]; omega), if_neg (by omega),
      if_neg (by omega), List.getElem?_eq_none (by omega)]

theorem enlarge_outside {n : Nat} (h : total ≤ (n - 1) / bs) (free : Nat) (c : Content α) :
    enlarge bs total z free c n = ({ c with size := n }, free) := by
  rw [enlarge, if_pos h]

theorem enlarge_of_lt (hbs : 0 < bs) (hroom : c.room.length = held * bs) {n : Nat} (hn : 0 < n)
    (h : (n - 1) / bs < total) :
    enlarge bs total z free c n =
      let reach := max held (min (held + free) ((n - 1) / bs + 1))
      (⟨n, c.grow bs z held reach⟩, free - (reach - held)) := by
  have hheld : c.room.length / bs = held := by
    rw [hroom, Nat.mul_div_cancel _ hbs]
  rw [enlarge, if_neg (Nat.not_le.mpr h), hheld, blocksFor_of_pos hbs hn]

theorem length_cut {n keep stop : Nat} (hstop : stop ≤ c.room.length) (hkeep : stop ≤ keep * bs) :
    (cut bs z c n keep stop).room.length = keep * bs := by
  rw [cut, List.length_append, List.length_take_of_le hstop, List.length_replicate,
    Nat.add_sub_cancel' hkeep]

theorem getElem?_cut {n keep stop i : Nat} (hstop : stop ≤ c.room.length) (hi : i < keep * bs) :
    (cut bs z c n keep stop).room[i]? = if i < stop then c.room[i]? else some z := by
  have hlen : (c.room.take stop).length = stop := List.length_take_of_le hstop
  rw [cut, List.getElem?_append, hlen]
  split
  · rename_i hlt
    rw [List.getElem?_take_of_lt hlt]
  · rw [List.getElem?_replicate_of_lt (by omega)]

theorem Content.Clean.enlarge (hbs : 0 < bs) (hroom : c.room.length = held * bs) (h : c.Clean z)
    {n : Nat} (hn : c.size < n) : (enlarge bs total z free c n).1.Clean z := by
  rcases Nat.lt_or_ge ((n - 1) / bs) total with hlt | hge
  · rw [enlarge_of_lt hbs hroom (by omega) hlt]
    intro i hsize hi
    apply (getElem?_grow bs z c held _ hi).trans
    rw [h.getD_eq (Nat.le_trans (Nat.le_of_lt hn) hsize)]
  · rw [enlarge_outside hge]
    intro i hsize hi
    exact h i (Nat.le_trans (Nat.le_of_lt hn) hsize) hi

theorem Content.clean_cut {n keep stop : Nat} (hstop : stop ≤ c.room.length)
    (hkeep : stop ≤ keep * bs) (hn : stop ≤ n) : (cut bs z c n keep stop).Clean z := by
  intro i hsize hi
  rw [length_cut hstop hkeep] at hi
  have hend : ¬ i < stop := Nat.not_lt.mpr (Nat.le_trans hn hsize)
  rw [getElem?_cut hstop hi, if_neg hend]

theorem Content.clean_nil (z : α) : Content.Clean z ⟨0, []⟩ := by
  intro i _ hi
  exact absurd hi (Nat.not_lt_zero i)

/-- A file that has grown ends with blanks. -/
theorem take_enlarge (hbs : 0 < bs) (hroom : c.room.length = held * bs) (h : c.Clean z)
    (hsize : c.size ≤ c.room.length) {n : Nat} (hn : c.size < n) (htotal : (n - 1) / bs < total)
    (hback : n ≤ (enlarge bs total z free c n).1.room.length) :
    (enlarge bs total z free c n).1.room.take n =
      c.room.take c.size ++ List.replicate (n - c.size) z := by
  have hlen : (c.room.take c.size ++ List.replicate (n - c.size) z).length = n := by
    rw [List.length_append, List.length_take_of_le hsize, List.length_replicate]
    omega
  rw [enlarge_of_lt hbs hroom (by omega) htotal] at hback ⊢
  apply List.ext_getElem?
  intro i
  rcases Nat.lt_or_ge i n with hi | hi
  · rw [List.getElem?_take_of_lt hi]
    apply (getElem?_grow bs z c held _ (Nat.lt_of_lt_of_le hi hback)).trans
    exact (h.getElem?_padded hsize (Or.inr hi)).symm
  · have hend : ∀ xs : List α, (xs.take n).length ≤ i := fun xs =>
      (List.length_take_le n xs).trans hi
    rw [List.getElem?_eq_none (hend _), List.getElem?_eq_none (hlen.trans_le hi)]

theorem take_cut {n keep stop : Nat} (hstop : stop ≤ n) (hn : n ≤ keep * bs) (hsize : n ≤ c.size)
    (hroom : stop ≤ c.room.length) :
    (cut bs z c n keep stop).room.take n =
      (c.room.take c.size).take stop ++ List.replicate (n - stop) z := by
  have hlen : (c.room.take stop).length = stop := List.length_take_of_le hroom
  rw [cut, List.take_append, hlen, List.take_take, List.take_take, List.take_replicate,
    Nat.min_eq_right hstop, Nat.min_eq_left (hstop.trans hsize),
    Nat.min_eq_left (Nat.sub_le_sub_right hn stop)]

end

end Iqiq.BlockedFile
