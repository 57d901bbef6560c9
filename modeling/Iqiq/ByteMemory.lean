import Mathlib.Algebra.Ring.Int.Defs
import Mathlib.Algebra.Ring.Nat
import Mathlib.Data.List.Basic
import Mathlib.Logic.Function.Basic
import Mathlib.Tactic.Common

namespace Iqiq.ByteMemory

/-- A flat byte-addressed memory.  Every address has a byte, so a load outside
an allocated buffer is a load of whatever happens to lie there. -/
abbrev Mem := Int → UInt8

/-- The memory after storing `b` at address `a`. -/
def store (m : Mem) (a : Int) (b : UInt8) : Mem :=
  Function.update m a b

@[simp] theorem store_same (m : Mem) (a : Int) (b : UInt8) : store m a b a = b := by
  simp [store]

theorem store_of_ne (m : Mem) {a p : Int} (b : UInt8) (h : p ≠ a) :
    store m a b p = m p := by
  simp [store, h]

/-- The bytes `xs` lie in memory from address `a` on. -/
def Holds (m : Mem) (a : Int) (xs : List UInt8) : Prop :=
  ∀ i (h : i < xs.length), m (a + i) = xs[i]

@[simp] theorem holds_nil (m : Mem) (a : Int) : Holds m a [] := by
  intro i h
  simp at h

theorem holds_cons {m : Mem} {a : Int} {x : UInt8} {xs : List UInt8} :
    Holds m a (x :: xs) ↔ m a = x ∧ Holds m (a + 1) xs := by
  have hshift : ∀ i : Nat, a + ((i + 1 : Nat) : Int) = a + 1 + i := by
    intro i
    omega
  constructor
  · intro h
    refine ⟨?_, fun i hi => ?_⟩
    · have := h 0 (by simp)
      rwa [List.getElem_cons_zero, Int.natCast_zero, Int.add_zero] at this
    · have := h (i + 1) (by simpa using hi)
      rwa [hshift, List.getElem_cons_succ] at this
  · rintro ⟨hx, hxs⟩ i hi
    cases i with
    | zero => rwa [List.getElem_cons_zero, Int.natCast_zero, Int.add_zero]
    | succ i =>
        rw [hshift, List.getElem_cons_succ]
        exact hxs i (by simpa using hi)

theorem holds_append {m : Mem} {a : Int} {xs ys : List UInt8} :
    Holds m a (xs ++ ys) ↔ Holds m a xs ∧ Holds m (a + xs.length) ys := by
  induction xs generalizing a with
  | nil => simp
  | cons x xs ih =>
      have hshift : a + 1 + (xs.length : Int) = a + ((xs.length + 1 : Nat) : Int) := by
        omega
      simp only [List.cons_append, holds_cons, ih, List.length_cons, and_assoc, hshift]

theorem Holds.of_agree {m m' : Mem} {a : Int} {xs : List UInt8}
    (h : Holds m a xs)
    (hagree : ∀ p, a ≤ p → p < a + xs.length → m' p = m p) : Holds m' a xs := by
  intro i hi
  rw [hagree (a + i) (by omega) (by omega)]
  exact h i hi

theorem Holds.store_of_outside {m : Mem} {a p : Int} {xs : List UInt8} (h : Holds m a xs)
    (hp : p < a ∨ a + xs.length ≤ p) (b : UInt8) : Holds (store m p b) a xs :=
  h.of_agree fun _ _ _ => store_of_ne _ _ (by omega)

theorem Holds.store_concat {m : Mem} {a p : Int} {xs : List UInt8} (h : Holds m a xs)
    (hp : p = a + xs.length) (b : UInt8) : Holds (store m p b) a (xs ++ [b]) := by
  subst hp
  rw [holds_append, holds_cons]
  exact ⟨h.store_of_outside (Or.inr (Int.le_refl _)) b, store_same _ _ _, holds_nil _ _⟩

theorem Holds.eq_of_length {m : Mem} {a : Int} {xs ys : List UInt8}
    (hx : Holds m a xs) (hy : Holds m a ys) (hlen : xs.length = ys.length) :
    xs = ys := by
  apply List.ext_getElem hlen
  intro i h₁ h₂
  rw [← hx i h₁, ← hy i h₂]

theorem Holds.take {m : Mem} {a : Int} {xs : List UInt8} (h : Holds m a xs) (n : Nat) :
    Holds m a (xs.take n) := by
  rw [← List.take_append_drop n xs, holds_append] at h
  exact h.1

theorem Holds.isPrefix_of_length_le {m : Mem} {a : Int} {xs ys : List UInt8}
    (hx : Holds m a xs) (hy : Holds m a ys) (hlen : xs.length ≤ ys.length) : xs <+: ys := by
  have heq := hx.eq_of_length (hy.take xs.length) (by rw [List.length_take]; omega)
  rw [heq]
  exact List.take_prefix _ _

/-- The `n` bytes of memory from address `a` on. -/
def slice (m : Mem) (a : Int) (n : Nat) : List UInt8 :=
  (List.range n).map fun i => m (a + (i : Nat))

@[simp] theorem length_slice (m : Mem) (a : Int) (n : Nat) :
    (slice m a n).length = n := by
  simp [slice]

theorem getElem?_slice (m : Mem) (a : Int) {n k : Nat} (h : k < n) :
    (slice m a n)[k]? = some (m (a + k)) := by
  simp [slice, h]

theorem holds_slice (m : Mem) (a : Int) (n : Nat) : Holds m a (slice m a n) := by
  intro i hi
  simp [slice]

theorem Holds.slice_eq {m : Mem} {a : Int} {xs : List UInt8} (h : Holds m a xs) :
    slice m a xs.length = xs :=
  (holds_slice m a xs.length).eq_of_length h (by simp)

theorem Holds.slice_of_length {m : Mem} {p : Int} {xs : List UInt8} {n : Nat}
    (h : Holds m p xs) (hn : xs.length = n) : slice m p n = xs := by
  rw [← hn]
  exact h.slice_eq

/-- The memory with `xs` written from address `a` on. -/
def write (m : Mem) (a : Int) (xs : List UInt8) : Mem :=
  fun p => if a ≤ p ∧ p < a + xs.length then xs.getD (p - a).toNat 0 else m p

theorem holds_write (m : Mem) (a : Int) (xs : List UInt8) :
    Holds (write m a xs) a xs := by
  intro i hi
  have hin : a ≤ a + (i : Int) ∧ a + (i : Int) < a + xs.length := by omega
  have hidx : (a + (i : Int) - a).toNat = i := by omega
  simp only [write, hin, and_self, ite_true, hidx]
  rw [List.getD_eq_getElem?_getD, List.getElem?_eq_getElem hi, Option.getD_some]

theorem write_of_outside (m : Mem) {a p : Int} {xs : List UInt8}
    (h : p < a ∨ a + xs.length ≤ p) : write m a xs p = m p := by
  have hout : ¬ (a ≤ p ∧ p < a + xs.length) := by omega
  simp [write, hout]

/-- The `n` bytes from `a` on and the `k` bytes from `b` on do not overlap. -/
def Apart (a : Int) (n : Nat) (b : Int) (k : Nat) : Prop :=
  a + n ≤ b ∨ b + k ≤ a

instance (a : Int) (n : Nat) (b : Int) (k : Nat) : Decidable (Apart a n b k) := by
  unfold Apart
  infer_instance

theorem Apart.left {p q : Int} {i m n : Nat} (h : Apart p (i + m) q n) :
    Apart p i q n := by
  unfold Apart at h ⊢
  omega

theorem Apart.rest {p q : Int} {i k m n : Nat} (h : Apart p (i + m) q n) (hk : k ≤ n) :
    Apart (p + i) m (q + k) (n - k) := by
  unfold Apart at h ⊢
  omega

/-- The `n` consecutive addresses from `p` on. -/
def addrs (p : Int) (n : Nat) : List Int :=
  (List.range n).map fun i => p + (i : Nat)

@[simp] theorem length_addrs (p : Int) (n : Nat) : (addrs p n).length = n := by
  simp [addrs]

@[simp] theorem addrs_zero (p : Int) : addrs p 0 = [] := rfl

theorem addrs_one (p : Int) : addrs p 1 = [p] := by
  simp [addrs]

theorem getElem_addrs (p : Int) (n k : Nat) (h : k < (addrs p n).length) :
    (addrs p n)[k] = p + k := by
  simp [addrs]

theorem mem_addrs {p q : Int} {n : Nat} : q ∈ addrs p n ↔ p ≤ q ∧ q < p + n := by
  simp only [addrs, List.mem_map, List.mem_range]
  constructor
  · rintro ⟨i, hi, rfl⟩
    omega
  · rintro ⟨hlo, hhi⟩
    exact ⟨(q - p).toNat, by omega, by omega⟩

theorem addrs_append (p : Int) (m n : Nat) :
    addrs p m ++ addrs (p + m) n = addrs p (m + n) := by
  apply List.ext_getElem
  · simp
  · intro k h₁ h₂
    rw [getElem_addrs]
    rcases Nat.lt_or_ge k m with hk | hk
    · rw [List.getElem_append_left (by simpa using hk), getElem_addrs]
    · rw [List.getElem_append_right (by simpa using hk), getElem_addrs, length_addrs]
      omega

end Iqiq.ByteMemory
