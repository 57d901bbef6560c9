import Iqiq.LzStreams

namespace Iqiq.LzRefinement

open Iqiq.ByteMemory
open Iqiq.TokenStream
open Iqiq.LzUncompress
open Iqiq.LzStreams

/-- On complete tokens whose matches stay inside the output, `lzUncompress` is
the list-based decoder, cut off at the output capacity. -/
theorem lzUncompress_refines_expand {a : Args} {s : State} {magic : List UInt8}
    {f : LengthField} {ts : List Token} (hmagic : magic.length = 4)
    (hcall : Call a s (magic ++ f.bytes ++ encode ts)) (hreach : Reaches 0 ts) :
    let e := expand (4 + f.bytes.length) [] ts
    (e.length ≤ a.outlen → ∃ s', Returns a s 0 s' ∧ Holds s'.mem a.output e) ∧
      (a.outlen < e.length →
        ∃ s', Returns a s 1 s' ∧ Holds s'.mem a.output (e.take a.outlen.toNat)) := by
  have hlen := @length_expand (4 + f.bytes.length) [] ts hreach
  rw [List.length_nil, Nat.zero_add] at hlen
  have houtlen := hcall.outlen
  obtain ⟨s', hret, hholds⟩ := @lzUncompress_tokens a s magic [] f ts a.output hmagic hcall
    (by simp) (holds_nil _ _) hreach
  rw [List.length_nil, Nat.zero_add] at hholds
  constructor
  · intro hfit
    rw [if_pos (by omega)] at hret
    rw [List.take_of_length_le (by omega)] at hholds
    exact ⟨s', hret, hholds⟩
  · intro hfull
    rw [if_neg (by omega)] at hret
    exact ⟨s', hret, hholds⟩

def sampleField : LengthField :=
  .single 7 (by decide)

/-- A literal byte that is then repeated six times. -/
def sampleTokens : List Token :=
  [.literal [0x3b] (by decide), .copy 0x84 (by decide) (.one 0 (by decide))]

def sampleBytes : List UInt8 :=
  [0x5a, 0x4c, 0x51, 0x49] ++ sampleField.bytes ++ encode sampleTokens

/-- The sample at address 0, with room for `outlen` bytes of output at 100. -/
def sampleArgs (outlen : Int) : Args :=
  ⟨0, 100, sampleBytes.length, outlen⟩

def sampleState : State :=
  ⟨write (fun _ => 0xff) 0 sampleBytes, 0, 0, [], []⟩

theorem sampleCall {outlen : Int} (h : 0 ≤ outlen) :
    Call (sampleArgs outlen) sampleState sampleBytes :=
  ⟨holds_write _ _ _, rfl, h, Or.inl (show (0 : Int) + sampleBytes.length ≤ 100 by decide)⟩

theorem lzUncompress_refines_expand_sample :
    (∃ s', Returns (sampleArgs 7) sampleState 0 s' ∧
      Holds s'.mem 100 (List.replicate 7 0x60)) ∧
    ∃ s', Returns (sampleArgs 3) sampleState 1 s' ∧
      Holds s'.mem 100 (List.replicate 3 0x60) :=
  ⟨(lzUncompress_refines_expand rfl (sampleCall (by decide)) (by decide)).1 (by decide),
    (lzUncompress_refines_expand rfl (sampleCall (by decide)) (by decide)).2 (by decide)⟩

end Iqiq.LzRefinement
