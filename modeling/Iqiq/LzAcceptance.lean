import Iqiq.LzStreams

namespace Iqiq.LzAcceptance

open Iqiq.ByteMemory
open Iqiq.SevenBitGroups
open Iqiq.TokenStream
open Iqiq.LzUncompress
open Iqiq.LzRuns
open Iqiq.LzStreams

/-- Four bytes, a length field and complete tokens that stand for exactly
`outlen` bytes, with every match inside the output. -/
def WellFormed (outlen : Int) (bytes : List UInt8) : Prop :=
  ∃ (magic : List UInt8) (f : LengthField) (ts : List Token),
    bytes = magic ++ f.bytes ++ encode ts ∧ magic.length = 4 ∧ Reaches 0 ts ∧
      totalSize ts = outlen

/-- The call returns 0 on the well-formed buffers and 1 on all others. -/
def AcceptsExactly (a : Args) (s : State) (bytes : List UInt8) : Prop :=
  ((∃ s', Returns a s 0 s') ↔ WellFormed a.outlen bytes) ∧
    (¬ WellFormed a.outlen bytes → ∃ s', Returns a s 1 s')

/-- The length field ends inside the buffer, and what follows stands for more
bytes than there is room for. -/
def Overflows (outlen : Int) (bytes : List UInt8) : Prop :=
  ∃ (magic : List UInt8) (f : LengthField) (st : Stream),
    bytes = magic ++ f.bytes ++ st.bytes ∧ magic.length = 4 ∧ outlen < st.size

theorem not_wellFormed_of_unterminated {outlen : Int} {bytes : List UInt8}
    (hall : ∀ b ∈ bytes.drop 4, b > 0x7f) : ¬ WellFormed outlen bytes := by
  rintro ⟨magic, f, ts, rfl, hmagic, -, -⟩
  apply f.last_le
  apply hall
  rw [List.append_assoc, List.drop_left' hmagic]
  simp [MultiByte.bytes]

theorem returns_zero_of_wellFormed {a : Args} {s : State} {bytes : List UInt8}
    (hcall : Call a s bytes) (h : WellFormed a.outlen bytes) : ∃ s', Returns a s 0 s' := by
  obtain ⟨magic, f, ts, rfl, hmagic, -, hsize⟩ := h
  have hcall' : Call a s (magic ++ f.bytes ++ (Stream.mk ts .done).bytes) := by
    simpa [Stream.bytes, Tail.bytes] using hcall
  obtain ⟨s', -, hret, -⟩ := lzUncompress_stream hmagic hcall'
  rw [if_pos (by simp only [Stream.size, Tail.size]; omega)] at hret
  exact ⟨s', hret⟩

theorem returns_one_of_overflows {a : Args} {s : State} {bytes : List UInt8}
    (hcall : Call a s bytes) (h : Overflows a.outlen bytes) : ∃ s', Returns a s 1 s' := by
  obtain ⟨magic, f, st, rfl, hmagic, hsize⟩ := h
  obtain ⟨s', -, hret, -⟩ := lzUncompress_stream hmagic hcall
  have houtlen := hcall.outlen
  rw [if_neg (by omega)] at hret
  exact ⟨s', hret⟩

theorem exists_split {bytes : List UInt8} (hmagic : 4 ≤ bytes.length) :
    (∀ b ∈ bytes.drop 4, b > 0x7f) ∨
      ∃ (magic : List UInt8) (f : LengthField) (st : Stream),
        bytes = magic ++ f.bytes ++ st.bytes ∧ magic.length = 4 := by
  rcases MultiByte.exists_split (bytes.drop 4) with ⟨f, rest, hsplit⟩ | hall
  · obtain ⟨st, rfl⟩ := exists_stream rest
    refine Or.inr ⟨bytes.take 4, f, st, ?_, by simp [hmagic]⟩
    rw [List.append_assoc, ← hsplit, List.take_append_drop]
  · exact Or.inl hall

/-- Whatever the output length, in particular for the one that `lzParseSize`
returns: the well-formed buffers and those that overflow the output are told
apart, and of all the others none is refused. -/
theorem acceptsExactly_iff {a : Args} {s : State} {bytes : List UInt8}
    (hcall : Call a s bytes) (hmagic : 4 ≤ bytes.length) :
    AcceptsExactly a s bytes ↔ WellFormed a.outlen bytes ∨ Overflows a.outlen bytes := by
  constructor
  · rintro ⟨hzero, hone⟩
    rcases exists_split hmagic with hall | ⟨magic, f, st, rfl, hmagic'⟩
    · obtain ⟨s', hret⟩ := hone (not_wellFormed_of_unterminated hall)
      have := (lzUncompress_unterminated hcall.holds (Int.le_of_eq hcall.len) hall hret).1
      omega
    · rcases em ((st.size : Int) ≤ a.outlen) with hfit | hfit
      · obtain ⟨s', -, hret, -⟩ := lzUncompress_stream hmagic' hcall
        rw [if_pos (by omega)] at hret
        exact Or.inl (hzero.mp ⟨s', hret⟩)
      · exact Or.inr ⟨magic, f, st, rfl, hmagic', by omega⟩
  · rintro (hwf | hover)
    · exact ⟨iff_of_true (returns_zero_of_wellFormed hcall hwf) hwf, fun h => absurd hwf h⟩
    · obtain ⟨s', hone⟩ := returns_one_of_overflows hcall hover
      have hzero : ¬ ∃ s', Returns a s 0 s' := by
        rintro ⟨s'', hzero⟩
        have := (Returns.unique hone hzero).1
        omega
      exact ⟨iff_of_false hzero fun hwf => hzero (returns_zero_of_wellFormed hcall hwf),
        fun _ => ⟨s', hone⟩⟩

/-- A profile of declared size 5 without any token. -/
def truncatedBytes : List UInt8 :=
  [0x5a, 0x4c, 0x51, 0x49, 5]

def truncatedState : State :=
  ⟨write (fun _ => 0xff) 0 truncatedBytes, 0, 0, [], []⟩

theorem truncatedCall : Call ⟨0, 100, 5, 5⟩ truncatedState truncatedBytes :=
  ⟨holds_write _ _ _, rfl, by decide, Or.inl (by decide)⟩

theorem truncated_not_wellFormed : ¬ WellFormed 5 truncatedBytes := by
  rintro ⟨magic, f, ts, hbytes, hmagic, -, hsize⟩
  have hlen := congrArg List.length hbytes
  simp only [List.length_append, hmagic, MultiByte.bytes, truncatedBytes, List.length_cons,
    List.length_nil] at hlen
  cases ts with
  | nil => simp at hsize
  | cons t ts =>
      have := t.bytes_pos
      rw [encode_cons, List.length_append] at hlen
      omega

theorem lzUncompress_accepts_truncated :
    ((lzParseSize truncatedState.mem (0 + 4)).1 : Int) = 5 ∧
      (∃ s', Returns ⟨0, 100, 5, 5⟩ truncatedState 0 s') ∧
      ¬ WellFormed 5 truncatedBytes ∧ ¬ AcceptsExactly ⟨0, 100, 5, 5⟩ truncatedState
        truncatedBytes := by
  have hret : ∃ s', Returns ⟨0, 100, 5, 5⟩ truncatedState 0 s' := ⟨_, 2, rfl⟩
  refine ⟨by decide, hret, truncated_not_wellFormed, fun h => ?_⟩
  exact truncated_not_wellFormed (h.1.mp hret)

theorem acceptsExactly_iff_truncated :
    AcceptsExactly ⟨0, 100, 5, 5⟩ truncatedState truncatedBytes ↔
      WellFormed 5 truncatedBytes ∨ Overflows 5 truncatedBytes :=
  acceptsExactly_iff truncatedCall (by decide)

end Iqiq.LzAcceptance
