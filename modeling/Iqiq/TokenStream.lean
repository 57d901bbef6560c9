import Iqiq.BackReference
import Iqiq.SevenBitGroups

namespace Iqiq.TokenStream

open Iqiq.BackReference
open Iqiq.SevenBitGroups

/-- A complete distance code: a further byte follows a byte above `0x7f`, but
there are never more than three. -/
inductive OffsetCode where
  | one (b₀ : UInt8) (h₀ : ¬ b₀ > 0x7f)
  | two (b₀ b₁ : UInt8) (h₀ : b₀ > 0x7f) (h₁ : ¬ b₁ > 0x7f)
  | three (b₀ b₁ b₂ : UInt8) (h₀ : b₀ > 0x7f) (h₁ : b₁ > 0x7f)

def OffsetCode.bytes : OffsetCode → List UInt8
  | .one b₀ _ => [b₀]
  | .two b₀ b₁ _ _ => [b₀, b₁]
  | .three b₀ b₁ b₂ _ _ => [b₀, b₁, b₂]

def OffsetCode.value : OffsetCode → Nat
  | .one b₀ _ => low7 b₀
  | .two b₀ b₁ _ _ => low7 b₀ + 128 * low7 b₁
  | .three b₀ b₁ b₂ _ _ => low7 b₀ + 128 * low7 b₁ + 32768 * low7 b₂

/-- How far back a match with this code starts. -/
def OffsetCode.distance (code : OffsetCode) : Nat :=
  code.value + 1

theorem OffsetCode.distance_pos (code : OffsetCode) : 1 ≤ code.distance :=
  Nat.succ_pos _

inductive Token where
  | literal (raw : List UInt8) (h : raw.length < 128)
  | copy (c : UInt8) (h : c > 0x7f) (code : OffsetCode)

namespace Token

def bytes : Token → List UInt8
  | .literal raw _ => UInt8.ofNat raw.length :: raw
  | .copy c _ code => c :: code.bytes

/-- The number of bytes the token stands for. -/
def size : Token → Nat
  | .literal raw _ => raw.length
  | .copy c _ _ => low7 c + 2

/-- The number of bytes that must have been produced before the token. -/
def reach : Token → Nat
  | .literal _ _ => 0
  | .copy _ _ code => code.distance

end Token

/-- The bytes behind the masked bytes `raw` that start at position `p` of the
input. -/
def unmask (p : Nat) (raw : List UInt8) : List UInt8 :=
  raw.mapIdx fun k b => b ^^^ UInt8.ofNat (0x55 + (p + k))

@[simp] theorem length_unmask (p : Nat) (raw : List UInt8) :
    (unmask p raw).length = raw.length := by
  simp [unmask]

@[simp] theorem unmask_nil (p : Nat) : unmask p [] = [] := rfl

theorem unmask_cons (p : Nat) (b : UInt8) (raw : List UInt8) :
    unmask p (b :: raw) = (b ^^^ UInt8.ofNat (0x55 + p)) :: unmask (p + 1) raw := by
  simp only [unmask, List.mapIdx_cons, Nat.add_zero, List.cons.injEq, true_and]
  congr 1
  funext k b
  rw [Nat.add_right_comm p 1 k, Nat.add_assoc p k 1]

/-- The output after a token that starts at position `p` of the input, when
`out` has been produced before. -/
def Token.expand (p : Nat) (out : List UInt8) : Token → List UInt8
  | .literal raw _ => out ++ unmask (p + 1) raw
  | .copy c _ code => copyBack code.distance (low7 c + 2) out

/-- The list-based decoder: the output after a sequence of tokens. -/
def expand (p : Nat) (out : List UInt8) : List Token → List UInt8
  | [] => out
  | t :: ts => expand (p + t.bytes.length) (t.expand p out) ts

def encode (ts : List Token) : List UInt8 :=
  ts.flatMap Token.bytes

def totalSize (ts : List Token) : Nat :=
  (ts.map Token.size).sum

/-- Every match finds its source among the `n` bytes that were there before and
the bytes produced since. -/
def Reaches (n : Nat) : List Token → Prop
  | [] => True
  | t :: ts => t.reach ≤ n ∧ Reaches (n + t.size) ts

@[simp] theorem encode_nil : encode [] = [] := rfl

@[simp] theorem encode_cons (t : Token) (ts : List Token) :
    encode (t :: ts) = t.bytes ++ encode ts := rfl

@[simp] theorem encode_append (ts us : List Token) :
    encode (ts ++ us) = encode ts ++ encode us := by
  simp [encode]

@[simp] theorem totalSize_nil : totalSize [] = 0 := rfl

@[simp] theorem totalSize_cons (t : Token) (ts : List Token) :
    totalSize (t :: ts) = t.size + totalSize ts := by
  simp [totalSize]

@[simp] theorem totalSize_append (ts us : List Token) :
    totalSize (ts ++ us) = totalSize ts + totalSize us := by
  simp [totalSize]

instance decidableReaches : (n : Nat) → (ts : List Token) → Decidable (Reaches n ts)
  | _, [] => isTrue trivial
  | n, t :: ts =>
      have := decidableReaches (n + t.size) ts
      inferInstanceAs (Decidable (t.reach ≤ n ∧ Reaches (n + t.size) ts))

theorem reaches_append {n : Nat} {ts us : List Token} :
    Reaches n (ts ++ us) ↔ Reaches n ts ∧ Reaches (n + totalSize ts) us := by
  induction ts generalizing n with
  | nil => simp [Reaches]
  | cons t ts ih => simp only [List.cons_append, Reaches, ih, totalSize_cons, and_assoc,
      Nat.add_assoc]

theorem Reaches.mono {n m : Nat} {ts : List Token} (h : Reaches n ts) (hnm : n ≤ m) :
    Reaches m ts := by
  induction ts generalizing n m with
  | nil => trivial
  | cons t ts ih => exact ⟨by have := h.1; omega, ih h.2 (by omega)⟩

theorem expand_append (p : Nat) (out : List UInt8) (ts us : List Token) :
    expand p out (ts ++ us) = expand (p + (encode ts).length) (expand p out ts) us := by
  induction ts generalizing p out with
  | nil => simp [expand]
  | cons t ts ih =>
      simp only [List.cons_append, expand, ih, encode_cons, List.length_append, Nat.add_assoc]

namespace Token

theorem bytes_pos (t : Token) : 0 < t.bytes.length := by
  cases t <;> simp [bytes]

theorem length_expand {p : Nat} {out : List UInt8} {t : Token} (h : t.reach ≤ out.length) :
    (t.expand p out).length = out.length + t.size := by
  cases t with
  | literal raw hraw => simp [expand, size]
  | copy c hc code => exact length_copyBack _ code.distance_pos h

theorem prefix_expand (p : Nat) (out : List UInt8) (t : Token) : out <+: t.expand p out := by
  cases t with
  | literal raw hraw => exact List.prefix_append _ _
  | copy c hc code => exact prefix_copyBack _ _ _

end Token

theorem length_expand {p : Nat} {out : List UInt8} {ts : List Token}
    (h : Reaches out.length ts) : (expand p out ts).length = out.length + totalSize ts := by
  induction ts generalizing p out with
  | nil => simp [expand]
  | cons t ts ih =>
      obtain ⟨hreach, hrest⟩ := h
      have hlen := Token.length_expand (p := p) hreach
      rw [expand, ih (by rwa [hlen]), hlen, totalSize_cons, Nat.add_assoc]

theorem prefix_expand (p : Nat) (out : List UInt8) (ts : List Token) :
    out <+: expand p out ts := by
  induction ts generalizing p out with
  | nil => exact List.prefix_refl out
  | cons t ts ih => exact (t.prefix_expand p out).trans (ih _ _)

theorem unmask_injective {p : Nat} {raw raw' : List UInt8}
    (h : unmask p raw = unmask p raw') : raw = raw' := by
  induction raw generalizing p raw' with
  | nil =>
      have hlen := congrArg List.length h
      simp only [length_unmask, List.length_nil] at hlen
      exact (List.eq_nil_of_length_eq_zero hlen.symm).symm
  | cons b raw ih =>
      cases raw' with
      | nil =>
          have hlen := congrArg List.length h
          simp at hlen
      | cons b' raw' =>
          rw [unmask_cons, unmask_cons, List.cons.injEq] at h
          rw [ih h.2, (UInt8.xor_left_inj _).mp h.1]

theorem expand_append_left {p : Nat} {before out : List UInt8} {ts : List Token}
    (h : Reaches out.length ts) :
    expand p (before ++ out) ts = before ++ expand p out ts := by
  induction ts generalizing p out with
  | nil => rfl
  | cons t ts ih =>
      obtain ⟨hreach, hrest⟩ := h
      have hstep : t.expand p (before ++ out) = before ++ t.expand p out := by
        cases t with
        | literal raw hraw => exact List.append_assoc _ _ _
        | copy c hc code => exact copyBack_append_left hreach
      rw [expand, hstep, ih (by rwa [Token.length_expand hreach])]
      rfl

theorem exists_stale {N n p : Nat} {ts : List Token} {w : UInt8 → List UInt8}
    (hbefore : ∀ x, List.replicate N x <+: w x) (hlen : ∀ x, (w x).length = N + n)
    (hreach : Reaches (N + n) ts) (hnot : ¬ Reaches n ts) :
    ∃ j, N + n ≤ j ∧ ∀ x, (expand p (w x) ts)[j]? = some x := by
  induction ts generalizing n p w with
  | nil => exact absurd trivial hnot
  | cons t ts ih =>
      obtain ⟨hstep, hrest⟩ := hreach
      rcases em (t.reach ≤ n) with hin | hin
      · have hnot' : ¬ Reaches (n + t.size) ts := fun h => hnot ⟨hin, h⟩
        have hlen' : ∀ x, (t.expand p (w x)).length = N + (n + t.size) := by
          intro x
          rw [Token.length_expand (by rwa [hlen x]), hlen x, Nat.add_assoc]
        obtain ⟨j, hj, hall⟩ := ih (fun x => (hbefore x).trans (t.prefix_expand p _)) hlen'
          (by rwa [← Nat.add_assoc]) hnot'
        exact ⟨j, by omega, hall⟩
      · cases t with
        | literal raw hraw => exact absurd (Nat.zero_le n) hin
        | copy c hc code =>
            refine ⟨N + n, Nat.le_refl _, fun x => ?_⟩
            simp only [Token.reach] at hin hstep
            have hdist : code.distance ≤ (w x).length := by rwa [hlen x]
            obtain ⟨rest, hsplit⟩ := prefix_expand (p + (Token.copy c hc code).bytes.length)
              ((Token.copy c hc code).expand p (w x)) ts
            have hpos := code.distance_pos
            have hcopied := length_copyBack (low7 c + 2) hpos hdist
            rw [expand, ← hsplit, List.getElem?_append_left
              (by simp only [Token.expand]; rw [hcopied, hlen x]; omega)]
            have hback := getElem?_copyBack_back hpos hdist (show 0 < low7 c + 2 by omega)
            simp only [hlen x, Nat.add_zero] at hback
            obtain ⟨tail, htail⟩ := hbefore x
            rw [Token.expand, hback, getElem?_copyBack_lt (by rw [hlen x]; omega), ← htail,
              List.getElem?_append_left (by rw [List.length_replicate]; omega),
              List.getElem?_replicate, if_pos (by omega)]

abbrev LengthField := MultiByte

/-- The size that up to three groups at shifts 0, 7 and 15 stand for. -/
def groupsValue : List UInt8 → Nat
  | [] => 0
  | [b₀] => low7 b₀
  | [b₀, b₁] => low7 b₀ + 128 * low7 b₁
  | b₀ :: b₁ :: b₂ :: _ => low7 b₀ + 128 * low7 b₁ + 32768 * low7 b₂

/-- What may stand after the last complete token: nothing, or a token that
breaks off in its literal bytes or in its distance code. -/
inductive Tail where
  | done
  | cutLiteral (c : UInt8) (h : ¬ c > 0x7f) (avail : List UInt8) (hcut : avail.length < c.toNat)
  | cutCopy (c : UInt8) (h : c > 0x7f) (known : List UInt8) (hknown : ∀ b ∈ known, b > 0x7f)
      (hcut : known.length < 3)

def Tail.bytes : Tail → List UInt8
  | .done => []
  | .cutLiteral c _ avail _ => c :: avail
  | .cutCopy c _ known _ _ => c :: known

def Tail.size : Tail → Nat
  | .done => 0
  | .cutLiteral c _ _ _ => c.toNat
  | .cutCopy c _ _ _ _ => low7 c + 2

/-- Any byte string, read as complete tokens and what is left over. -/
structure Stream where
  tokens : List Token
  tail : Tail

def Stream.bytes (s : Stream) : List UInt8 :=
  encode s.tokens ++ s.tail.bytes

def Stream.size (s : Stream) : Nat :=
  totalSize s.tokens + s.tail.size

/-- With room for `r` bytes of output, what is left over fills the output before
a byte is needed that is not there. -/
def Tail.ReadsInside (r : Nat) : Tail → Prop
  | .done => True
  | .cutLiteral _ _ avail _ => r ≤ avail.length
  | .cutCopy _ _ _ _ _ => False

def Stream.ReadsInside (r : Nat) (s : Stream) : Prop :=
  r < totalSize s.tokens ∨ s.tail.ReadsInside (r - totalSize s.tokens)

/-- The complete tokens of a stream, with a token that breaks off completed in
some way. -/
def Stream.Completes (s : Stream) (us : List Token) : Prop :=
  (s.tail = .done ∧ us = s.tokens) ∨
    (s.tail ≠ .done ∧ ∃ t : Token, s.tail.bytes <+: t.bytes ∧ us = s.tokens ++ [t])

theorem Tail.size_of_isPrefix {tail : Tail} {t : Token} (htail : tail ≠ .done)
    (h : tail.bytes <+: t.bytes) : t.size = tail.size := by
  cases tail with
  | done => exact absurd rfl htail
  | cutLiteral c hc avail hcut =>
      cases t with
      | literal raw hraw =>
          obtain ⟨rfl, -⟩ := List.cons_prefix_cons.mp h
          simp only [Token.size, Tail.size, UInt8.toNat_ofNat']
          omega
      | copy c' hc' code =>
          obtain ⟨rfl, -⟩ := List.cons_prefix_cons.mp h
          exact absurd hc' hc
  | cutCopy c hc known hknown hcut =>
      cases t with
      | literal raw hraw =>
          obtain ⟨rfl, -⟩ := List.cons_prefix_cons.mp h
          rw [gt_7f_iff, UInt8.toNat_ofNat'] at hc
          omega
      | copy c' hc' code =>
          obtain ⟨rfl, -⟩ := List.cons_prefix_cons.mp h
          rfl

theorem exists_code_of_known {known : List UInt8} (hknown : ∀ b ∈ known, b > 0x7f)
    (hcut : known.length < 3) : ∃ code : OffsetCode, known <+: code.bytes := by
  rcases known with _ | ⟨b₀, _ | ⟨b₁, _ | ⟨b₂, known⟩⟩⟩
  · exact ⟨.one 0 (by decide), List.nil_prefix⟩
  · exact ⟨.two b₀ 0 (hknown b₀ (by simp)) (by decide), List.prefix_append [b₀] [0]⟩
  · exact ⟨.three b₀ b₁ 0 (hknown b₀ (by simp)) (hknown b₁ (by simp)),
      List.prefix_append [b₀, b₁] [0]⟩
  · simp only [List.length_cons] at hcut
    omega

/-- A literal token that breaks off, filled up with `x`. -/
def fillLiteral (c : UInt8) (hc : ¬ c > 0x7f) (avail : List UInt8)
    (hcut : avail.length < c.toNat) (x : UInt8) : Token :=
  .literal (avail ++ List.replicate (c.toNat - avail.length) x) (by
    rw [gt_7f_iff] at hc
    rw [List.length_append, List.length_replicate]
    omega)

theorem isPrefix_fillLiteral (c : UInt8) (hc : ¬ c > 0x7f) (avail : List UInt8)
    (hcut : avail.length < c.toNat) (x : UInt8) :
    (Tail.cutLiteral c hc avail hcut).bytes <+: (fillLiteral c hc avail hcut x).bytes := by
  have hlen : (avail ++ List.replicate (c.toNat - avail.length) x).length = c.toNat := by
    rw [List.length_append, List.length_replicate]
    omega
  simp only [Tail.bytes, fillLiteral, Token.bytes, hlen, UInt8.ofNat_toNat]
  exact List.cons_prefix_cons.mpr ⟨rfl, List.prefix_append _ _⟩

theorem Stream.exists_completes (s : Stream) : ∃ us, s.Completes (s.tokens ++ us) := by
  obtain ⟨ts, tail⟩ := s
  cases tail with
  | done => exact ⟨[], Or.inl ⟨rfl, List.append_nil ts⟩⟩
  | cutLiteral c hc avail hcut =>
      exact ⟨_, Or.inr ⟨by simp, _, isPrefix_fillLiteral c hc avail hcut 0, rfl⟩⟩
  | cutCopy c hc known hknown hcut =>
      obtain ⟨code, hcode⟩ := exists_code_of_known hknown hcut
      refine ⟨_, Or.inr ⟨by simp, .copy c hc code, ?_, rfl⟩⟩
      exact List.cons_prefix_cons.mpr ⟨rfl, hcode⟩

theorem Stream.Completes.totalSize {s : Stream} {us : List Token} (h : s.Completes us) :
    totalSize us = s.size := by
  rcases h with ⟨hdone, rfl⟩ | ⟨hcut, t, ht, rfl⟩
  · simp [Stream.size, hdone, Tail.size]
  · simp [Stream.size, Tail.size_of_isPrefix hcut ht]

theorem OffsetCode.value_lt (code : OffsetCode) : code.value < 2 ^ 23 := by
  cases code with
  | one b₀ h₀ =>
      have := low7_lt b₀
      simp only [OffsetCode.value]
      omega
  | two b₀ b₁ h₀ h₁ =>
      have := low7_lt b₀
      have := low7_lt b₁
      simp only [OffsetCode.value]
      omega
  | three b₀ b₁ b₂ h₀ h₁ =>
      have := low7_lt b₀
      have := low7_lt b₁
      have := low7_lt b₂
      simp only [OffsetCode.value]
      omega

theorem reaches_of_large {n : Nat} (hn : 2 ^ 23 ≤ n) (ts : List Token) : Reaches n ts := by
  induction ts generalizing n with
  | nil => trivial
  | cons t ts ih =>
      refine ⟨?_, ih (by omega)⟩
      cases t with
      | literal raw hraw => exact Nat.zero_le n
      | copy c hc code => exact Nat.le_trans (Nat.succ_le_of_lt code.value_lt) hn

theorem exists_offsetCode (bs : List UInt8) :
    (∃ (code : OffsetCode) (rest : List UInt8), bs = code.bytes ++ rest) ∨
      (∀ b ∈ bs, b > 0x7f) ∧ bs.length < 3 := by
  rcases bs with _ | ⟨b₀, _ | ⟨b₁, _ | ⟨b₂, rest⟩⟩⟩
  · exact Or.inr (by simp)
  · rcases em (b₀ > 0x7f) with h₀ | h₀
    · exact Or.inr (by simpa using h₀)
    · exact Or.inl ⟨.one b₀ h₀, [], rfl⟩
  · rcases em (b₀ > 0x7f) with h₀ | h₀
    · rcases em (b₁ > 0x7f) with h₁ | h₁
      · exact Or.inr (by simpa using ⟨h₀, h₁⟩)
      · exact Or.inl ⟨.two b₀ b₁ h₀ h₁, [], rfl⟩
    · exact Or.inl ⟨.one b₀ h₀, [b₁], rfl⟩
  · rcases em (b₀ > 0x7f) with h₀ | h₀
    · rcases em (b₁ > 0x7f) with h₁ | h₁
      · exact Or.inl ⟨.three b₀ b₁ b₂ h₀ h₁, rest, rfl⟩
      · exact Or.inl ⟨.two b₀ b₁ h₀ h₁, b₂ :: rest, rfl⟩
    · exact Or.inl ⟨.one b₀ h₀, b₁ :: b₂ :: rest, rfl⟩

/-- A nonempty byte string starts with a complete token or is a token that
breaks off. -/
theorem exists_token (c : UInt8) (bs : List UInt8) :
    (∃ (t : Token) (rest : List UInt8), c :: bs = t.bytes ++ rest) ∨
      ∃ tail : Tail, c :: bs = tail.bytes := by
  rcases em (c > 0x7f) with hc | hc
  · rcases exists_offsetCode bs with ⟨code, rest, rfl⟩ | ⟨hknown, hcut⟩
    · exact Or.inl ⟨.copy c hc code, rest, rfl⟩
    · exact Or.inr ⟨.cutCopy c hc bs hknown hcut, rfl⟩
  · rcases Nat.lt_or_ge bs.length c.toNat with hcut | hcut
    · exact Or.inr ⟨.cutLiteral c hc bs hcut, rfl⟩
    · have hlen : (bs.take c.toNat).length = c.toNat := by
        rw [List.length_take]
        omega
      have hsmall : c.toNat < 128 := by
        rw [gt_7f_iff] at hc
        omega
      refine Or.inl ⟨.literal (bs.take c.toNat) (by omega), bs.drop c.toNat, ?_⟩
      simp only [Token.bytes, hlen, UInt8.ofNat_toNat, List.cons_append, List.take_append_drop]

theorem exists_stream (bs : List UInt8) : ∃ s : Stream, s.bytes = bs := by
  induction hn : bs.length using Nat.strongRecOn generalizing bs with
  | ind n ih =>
      cases bs with
      | nil => exact ⟨⟨[], .done⟩, rfl⟩
      | cons c bs =>
          rcases exists_token c bs with ⟨t, rest, hsplit⟩ | ⟨tail, htail⟩
          · have hlen := congrArg List.length hsplit
            have hpos := t.bytes_pos
            rw [List.length_append] at hlen
            obtain ⟨s, hs⟩ := ih rest.length (by omega) rest rfl
            refine ⟨⟨t :: s.tokens, s.tail⟩, ?_⟩
            rw [hsplit, ← hs]
            simp [Stream.bytes]
          · exact ⟨⟨[], tail⟩, by simp [Stream.bytes, htail]⟩

end Iqiq.TokenStream
