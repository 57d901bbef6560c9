import Iqiq.ProfileUnpack

namespace Iqiq.Determinism

open Iqiq.ByteMemory
open Iqiq.SevenBitGroups
open Iqiq.BackReference
open Iqiq.TokenStream
open Iqiq.LzUncompress
open Iqiq.LzLoops
open Iqiq.LzRuns
open Iqiq.LzDecoding
open Iqiq.LzStreams
open Iqiq.HandleProfile
open Iqiq.ProfileUnpack

/-- Runs of `handleProfile` on the content `F` that start from any two memories
return the same status and, if that is 0, leave the same outfile. -/
def Determined (F : List UInt8) : Prop :=
  ∀ (c : Calls) (outfile : String) (disk : Option (List UInt8)) (m₁ m₂ : Mem),
    c.fread = F → BuffersApart c m₁ → BuffersApart c m₂ →
      ∀ r₁, Handles c outfile m₁ disk r₁ →
        ∃ r₂, Handles c outfile m₂ disk r₂ ∧ r₂.status = r₁.status ∧
          (r₁.status = 0 → r₂.disk = r₁.disk)

/-- After the output `w`, what is left over stands for the same bytes however it
goes on. -/
def TailDetermined (w : List UInt8) : Tail → Prop
  | .done => True
  | .cutLiteral _ _ _ _ => False
  | .cutCopy c _ known _ _ => ∃ e, ∀ code : OffsetCode, known <+: code.bytes →
      code.distance ≤ w.length ∧ copyBack code.distance (low7 c + 2) w = e

/-- The tokens overflow the declared size, or fill it exactly with bytes that are
copied from the header, the input and the output alone. -/
def FillsItself (size p : Nat) (st : Stream) : Prop :=
  size < st.size ∨
    st.size = size ∧ Reaches 4 st.tokens ∧ TailDetermined (expand p header st.tokens) st.tail

/-- The length field ends inside the profile and what follows fills the declared
size by itself; nothing follows where the profile is too long for `int`. -/
def SelfContained (F : List UInt8) : Prop :=
  ∃ p : Split F, if F.length - 4 < 2 ^ 31 then
      ∃ st : Stream, st.bytes = p.rest ∧ FillsItself p.size (4 + p.field.bytes.length) st
    else p.size = 0

theorem holds_header (m : Mem) (output : Int) :
    Holds (unpackState m output).mem output header :=
  holds_write m output header

theorem unpack_of_fills {F : List UInt8} (p : Split F) (hint : F.length - 4 < 2 ^ 31)
    {st : Stream} (hst : st.bytes = p.rest) (hsize : st.size = p.size)
    (hreach : Reaches 4 st.tokens)
    (htail : TailDetermined (expand (4 + p.field.bytes.length) header st.tokens) st.tail) :
    ∃ D, ∀ m input output bytes, Loaded m input output bytes F →
      ∃ fuel s', unpack fuel m input output bytes = (s', some 0) ∧
        slice s'.mem output (p.size + 4) = D := by
  have hlen := @TokenStream.length_expand (4 + p.field.bytes.length) header st.tokens hreach
  have hfour : header.length = 4 := rfl
  obtain ⟨ts, tail⟩ := st
  simp only [Stream.size, Stream.bytes] at *
  cases tail with
  | done =>
      simp only [Tail.bytes, List.append_nil, Tail.size, Nat.add_zero] at hst hsize
      refine ⟨expand (4 + p.field.bytes.length) header ts,
        fun m input output bytes hloaded => ?_⟩
      obtain ⟨fuel, s', hrun, hholds⟩ := @unpack_of_tokens m input output output bytes F header
        hloaded p hint ts hst rfl (holds_header m output) hreach (Nat.le_of_eq hsize)
      exact ⟨fuel, s', hrun, hholds.slice_of_length (by omega)⟩
  | cutLiteral c hc avail hcut => exact htail.elim
  | cutCopy c hc known hknown hcut =>
      obtain ⟨e, he⟩ := htail
      refine ⟨e, fun m input output bytes hloaded => ?_⟩
      have hcutSize : (Tail.cutCopy c hc known hknown hcut).size = low7 c + 2 := rfl
      obtain ⟨fuel, s₂, hrun, hb, hheld, hroom, -⟩ := @unpack_of_cut m input output output
        bytes F header hloaded p hint ts _ hst (by simp) rfl (holds_header m output) hreach
        (Nat.le_of_eq hsize)
      obtain ⟨hm, hcode⟩ := holds_cons.mp hheld
      obtain ⟨hdist, hcopy⟩ := he _ (isPrefix_codeAt hcode hknown hcut)
      have hholds := @token_copy_holds (profileArgs input output bytes (profileLen m input))
        output s₂ c _ _ hc hm (holds_codeAt _ _) hb.outptr hb.window hdist
      have hlen' := length_copyBack (low7 c + 2) (OffsetCode.distance_pos _) hdist
      rw [hroom, Nat.min_eq_left (by omega), List.take_of_length_le (by omega), hcopy]
        at hholds
      exact ⟨fuel, _, hrun, hholds.slice_of_length (by rw [← hcopy]; omega)⟩

theorem SelfContained.unpack {F : List UInt8} (h : SelfContained F) :
    ∃ ret D, ∀ m input output bytes, Loaded m input output bytes F →
      ∃ fuel s', unpack fuel m input output bytes = (s', some ret) ∧
        (ret = 0 → slice s'.mem output (profileLen m input + 4) = D) := by
  obtain ⟨p, h⟩ := h
  split at h
  · rename_i hint
    obtain ⟨st, hst, hfull | ⟨hsize, hreach, htail⟩⟩ := h
    · refine ⟨1, [], fun m input output bytes hloaded => ?_⟩
      obtain ⟨fuel, s', i, hrun, -⟩ := unpack_of_stream hloaded p hint hst
      rw [if_neg (by omega)] at hrun
      exact ⟨fuel, s', hrun, by simp⟩
    · obtain ⟨D, hD⟩ := unpack_of_fills p hint hst hsize hreach htail
      refine ⟨0, D, fun m input output bytes hloaded => ?_⟩
      obtain ⟨fuel, s', hrun, hslice⟩ := hD m input output bytes hloaded
      exact ⟨fuel, s', hrun, fun _ => by rwa [hloaded.profileLen p]⟩
  · rename_i hint
    refine ⟨0, header, fun m input output bytes hloaded => ?_⟩
    obtain ⟨fuel, s', hrun, hmem, -⟩ := unpack_of_long hloaded p (by omega)
    refine ⟨fuel, s', hrun, fun _ => ?_⟩
    rw [hloaded.profileLen p, h, hmem]
    exact (holds_header m output).slice_eq

theorem afterUnpack_status (c : Calls) (outfile : String) (output : Int) (len : Nat)
    (printed : List String) (disk : Option (List UInt8)) (m m' : Mem) (ret : Int) :
    (afterUnpack c outfile output len printed disk m ret).status =
      (afterUnpack c outfile output len printed disk m' ret).status := by
  unfold afterUnpack
  split
  · rfl
  · split
    · rfl
    · split
      · rfl
      · simp only
        split <;> rfl

theorem afterUnpack_disk (c : Calls) (outfile : String) (output : Int) (len : Nat)
    (printed : List String) (disk : Option (List UInt8)) {m m' : Mem} {ret : Int}
    (h : ret = 0 → slice m output (len + 4) = slice m' output (len + 4)) :
    (afterUnpack c outfile output len printed disk m ret).disk =
      (afterUnpack c outfile output len printed disk m' ret).disk := by
  unfold afterUnpack
  split
  · rfl
  · rename_i hret
    rw [h (by simpa using hret)]
    split
    · rfl
    · split
      · rfl
      · simp only
        split <;> rfl

theorem SelfContained.determined {F : List UInt8} (h : SelfContained F)
    (hlong : 8 ≤ F.length) : Determined F := by
  intro c outfile disk m₁ m₂ hfread hapart₁ hapart₂ r₁ hr₁
  subst hfread
  rcases ready_or_fails c with ⟨bytes, input, output, hready⟩ | hfails
  · obtain ⟨ret, D, hall⟩ := h.unpack
    have hloaded₁ := loaded_of_ready hready hlong hapart₁
    have hloaded₂ := loaded_of_ready hready hlong hapart₂
    obtain ⟨fuel₁, s₁, hrun₁, hD₁⟩ := hall _ _ _ _ hloaded₁
    obtain ⟨fuel₂, s₂, hrun₂, hD₂⟩ := hall _ _ _ _ hloaded₂
    obtain ⟨fuel, s, ret', hrun, hafter⟩ := hready.handles_iff.mp hr₁
    obtain ⟨rfl, rfl⟩ := unpack_unique hrun hrun₁
    obtain ⟨p, -⟩ := h
    refine ⟨_, hready.handles_iff.mpr ⟨fuel₂, s₂, ret', hrun₂, rfl⟩, ?_, fun _ => ?_⟩
    · rw [← hafter, hloaded₁.profileLen p, hloaded₂.profileLen p]
      exact afterUnpack_status _ _ _ _ _ _ _ _ _
    · rw [hloaded₁.profileLen p] at hD₁ hafter
      rw [hloaded₂.profileLen p] at hD₂ ⊢
      rw [← hafter]
      exact afterUnpack_disk _ _ _ _ _ _ fun hret => (hD₂ hret).trans (hD₁ hret).symm
  · obtain ⟨fuel, hrun⟩ := hr₁
    obtain ⟨r, hr, hstatus, -⟩ := hfails outfile fuel m₁ disk
    obtain ⟨r', hr', hstatus', -⟩ := hfails outfile fuel m₂ disk
    have hsame : r₁ = r := by
      rw [hrun] at hr
      exact Option.some.inj hr
    refine ⟨r', ⟨fuel, hr'⟩, by rw [hsame, hstatus, hstatus'], fun hzero => ?_⟩
    rw [hsame, hstatus] at hzero
    omega

end Iqiq.Determinism
