import Iqiq.Determinism

namespace Iqiq.StaleBytes

open Iqiq.ByteMemory
open Iqiq.SevenBitGroups
open Iqiq.BackReference
open Iqiq.TokenStream
open Iqiq.LzUncompress
open Iqiq.LzLoops
open Iqiq.LzRuns
open Iqiq.LzDecoding
open Iqiq.LzStreams
open Iqiq.HandleProfile
open Iqiq.ProfileUnpack
open Iqiq.Determinism

/-- The state of memory, behind the input, before `handleProfile` on `F` runs:
`ext` directly behind the profile and `x` everywhere else. -/
def staleMemory (F ext : List UInt8) (x : UInt8) : Mem :=
  write (write (fun _ => x) F.length ext) 0 F

theorem staleMemory_after {F ext : List UInt8} {x : UInt8} {q : Int}
    (h : (F.length : Int) + ext.length ≤ q) : staleMemory F ext x q = x := by
  rw [staleMemory, write_of_outside _ (by omega), write_of_outside _ (by omega)]

theorem holds_staleMemory (F ext : List UInt8) (x : UInt8) :
    Holds (staleMemory F ext x) 0 (F ++ ext) := by
  rw [holds_append]
  refine ⟨holds_write _ _ _, ?_⟩
  rw [Int.zero_add]
  exact (holds_write _ _ _).of_agree fun q hlo _ => write_of_outside _ (by omega)

theorem loaded_staleMemory {F ext : List UInt8} {x : UInt8} {output : Int}
    (hlong : 8 ≤ F.length) (hlt : F.length < 2 ^ 32) (hout : (F.length : Int) ≤ output) :
    Loaded (staleMemory F ext x) 0 output (UInt32.ofNat F.length) F :=
  ⟨holds_write _ _ _, by rw [UInt32.toNat_ofNat', Nat.mod_eq_of_lt hlt], hlong,
    Or.inl (by omega)⟩

theorem slice_eq_of_determined {F ext ext' : List UInt8} {x x' : UInt8} (h : Determined F)
    (p : Split F) (hlt : F.length < 2 ^ 32) {output : Int} (hout : (F.length : Int) ≤ output)
    {fuel fuel' : Nat} {s s' : State}
    (hrun : unpack fuel (staleMemory F ext x) 0 output (UInt32.ofNat F.length) = (s, some 0))
    (hrun' : unpack fuel' (staleMemory F ext' x') 0 output (UInt32.ofNat F.length) =
      (s', some 0)) :
    slice s.mem output (p.size + 4) = slice s'.mem output (p.size + 4) := by
  have hlong : 8 ≤ F.length := by
    rw [p.length_eq]
    omega
  have hloaded := @loaded_staleMemory F ext x output hlong hlt hout
  have hloaded' := @loaded_staleMemory F ext' x' output hlong hlt hout
  obtain ⟨r, hr, hzero⟩ := goodCalls_handles hlt (hloaded.profileLen p) hrun "" none
  obtain ⟨r', hr', hstatus, hdisk⟩ := h _ "" none _ _ rfl (goodCalls_apart hloaded.apart)
    (goodCalls_apart hloaded'.apart) r hr
  have hwritten := goodCalls_written hlt hrun hr hzero
  have hwritten' := goodCalls_written hlt hrun' hr' (hstatus.trans hzero)
  rw [← staleMemory, hloaded.profileLen p] at hwritten
  rw [← staleMemory, hloaded'.profileLen p] at hwritten'
  rw [hdisk hzero, hwritten] at hwritten'
  simpa [writeFront, openCreate] using hwritten'

theorem unpack_never {m : Mem} {input output : Int}
    (hall : ∀ q, input + 8 ≤ q → (unpackState m output).mem q > 0x7f) (fuel : Nat)
    (bytes : UInt32) : (unpack fuel m input output bytes).2 = none := by
  let a := profileArgs input output bytes (profileLen m input)
  have hskip : (skipLength fuel (start a (unpackState m output))).2 = false := by
    apply skipLength_of_unterminated
    intro i _
    apply hall
    change input + 8 ≤ input + 4 + 4 + (i : Int)
    omega
  change (lzUncompress a fuel (unpackState m output)).2 = none
  rw [lzUncompress_eq, if_neg (by simp [hskip])]

theorem terminated_of_determined {F : List UInt8} (h : Determined F) (hlong : 8 ≤ F.length)
    (hlt : F.length < 2 ^ 32) : Nonempty (Split F) := by
  rcases exists_splitField hlong with hall | hsplit
  · exfalso
    -- the output lies far below the input, so that nothing but `x` lies behind it
    let output : Int := -2 ^ 24
    have happart : ∀ m : Mem, Apart 0 F.length output (profileLen m 0 + 4) := by
      intro m
      have := profileLen_lt m 0
      exact Or.inr (by omega)
    have hready := goodCalls_ready hlt 0 output 0
    have hbehind : ∀ (x : UInt8) (q : Int), F.length ≤ q →
        (unpackState (write (fun _ => x) 0 F) output).mem q = x := by
      intro x q hq
      rw [unpackState_mem _ (by omega), write_of_outside _ (by omega)]
    have hend : ¬ (unpackState (write (fun _ => 0) 0 F) output).mem
        ((0 : Int) + 4 + 4 + (F.length - 8 : Nat)) > 0x7f := by
      rw [hbehind 0 _ (by omega)]
      decide
    obtain ⟨ret, s, ⟨fuel, hrun⟩, -⟩ := @returns_of_terminated
      (profileArgs 0 output (UInt32.ofNat F.length) (profileLen (write (fun _ => 0) 0 F) 0))
      _ _ hend
    obtain ⟨r, hr, -⟩ := h (goodCalls F 0 output 0) "" none (fun _ => 0) (fun _ => 0xff) rfl
      (goodCalls_apart (happart _)) (goodCalls_apart (happart _)) _
      (hready.handles_iff.mpr ⟨fuel, s, ret, hrun, rfl⟩)
    obtain ⟨fuel', s', ret', hrun', -⟩ := hready.handles_iff.mp hr
    have hnever := @unpack_never (write (fun _ => 0xff) 0 F) 0 output (fun q hq => ?_) fuel'
      (UInt32.ofNat F.length)
    · change unpack fuel' (write (fun _ => 0xff) 0 F) 0 output _ = _ at hrun'
      rw [hrun'] at hnever
      simp at hnever
    · rcases Int.lt_or_le q F.length with hin | hout
      · rw [unpackState_mem _ (by omega)]
        obtain ⟨k, rfl⟩ : ∃ k : Nat, q = (0 : Int) + (8 + k : Nat) := ⟨(q - 8).toNat, by omega⟩
        rw [holds_write _ _ _ (8 + k) (by omega)]
        apply hall
        rw [List.drop_drop, List.mem_drop_iff_getElem]
        exact ⟨k, by omega, by simp⟩
      · rw [hbehind _ _ hout]
        decide
  · exact hsplit

theorem no_stale_of_determined {F : List UInt8} (h : Determined F) (p : Split F)
    (hlt : F.length < 2 ^ 32) {k : Nat} (hk : k < p.size)
    (hrun : ∀ x, ∃ fuel s,
      unpack fuel (staleMemory F [] x) 0 F.length (UInt32.ofNat F.length) = (s, some 0) ∧
      s.mem ((F.length : Int) + 4 + k) =
        (unpackState (staleMemory F [] x) F.length).mem ((F.length : Int) + 4 + k)) :
    False := by
  have hstale : ∀ x : UInt8, ∃ fuel s,
      unpack fuel (staleMemory F [] x) 0 F.length (UInt32.ofNat F.length) = (s, some 0) ∧
      (slice s.mem F.length (p.size + 4))[4 + k]? = some x := by
    intro x
    obtain ⟨fuel, s, hunpack, hmem⟩ := hrun x
    refine ⟨fuel, s, hunpack, ?_⟩
    rw [getElem?_slice _ _ (by omega),
      show (F.length : Int) + ((4 + k : Nat) : Int) = F.length + 4 + k by omega, hmem,
      unpackState_mem _ (by omega), staleMemory_after (by simp; omega)]
  obtain ⟨fuel, s, hunpack, hzero⟩ := hstale 0
  obtain ⟨fuel', s', hunpack', hone⟩ := hstale 1
  rw [slice_eq_of_determined h p hlt (Int.le_refl _) hunpack hunpack', hone] at hzero
  simp at hzero

theorem size_of_long {F : List UInt8} (h : Determined F) (p : Split F)
    (hlt : F.length < 2 ^ 32) (hint : 2 ^ 31 ≤ F.length - 4) : p.size = 0 := by
  by_contra hsize
  refine no_stale_of_determined h p hlt (Nat.pos_of_ne_zero hsize) fun x => ?_
  have hloaded := @loaded_staleMemory F [] x F.length (by omega) hlt (Int.le_refl _)
  obtain ⟨fuel, s, hrun, hmem, -⟩ := unpack_of_long hloaded p hint
  exact ⟨fuel, s, hrun, by rw [hmem]⟩

theorem size_le_of_determined {F : List UInt8} (h : Determined F) (p : Split F)
    (hlong : 8 ≤ F.length) (hint : F.length - 4 < 2 ^ 31) {st : Stream}
    (hst : st.bytes = p.rest) : p.size ≤ st.size := by
  by_contra hshort
  refine no_stale_of_determined h p (by omega) (show st.size < p.size by omega) fun x => ?_
  have hloaded := @loaded_staleMemory F [] x F.length hlong (by omega) (Int.le_refl _)
  obtain ⟨fuel, s, i, hrun, -, hframe, -⟩ := unpack_of_stream hloaded p hint hst
  rw [if_pos (by omega)] at hrun
  exact ⟨fuel, s, hrun, hframe _ (Or.inr (by omega))⟩

/-- The number of stale bytes in front of the output; no match reaches past
them. -/
def staleLength : Nat := 2 ^ 23

/-- An output buffer that lies behind the profile, 200 further bytes and the
stale bytes. -/
def farOutput (F : List UInt8) : Int :=
  F.length + 200 + staleLength

theorem holds_stale {F ext : List UInt8} (hext : ext.length ≤ 200) (x : UInt8) :
    Holds (unpackState (staleMemory F ext x) (farOutput F)).mem (F.length + 200)
      (List.replicate staleLength x ++ header) := by
  rw [holds_append]
  constructor
  · intro i hi
    rw [List.length_replicate] at hi
    rw [unpackState_mem _ (by simp only [farOutput]; omega), staleMemory_after (by omega),
      List.getElem_replicate]
  · rw [List.length_replicate]
    exact holds_header _ _

theorem length_tokenBytes_le (t : Token) : t.bytes.length ≤ 128 := by
  cases t with
  | literal raw hraw =>
      simp only [Token.bytes, List.length_cons]
      omega
  | copy c hc code => cases code <;> simp [Token.bytes, OffsetCode.bytes]

theorem length_stale (x : UInt8) :
    (List.replicate staleLength x ++ header).length = staleLength + 4 := by
  rw [List.length_append, List.length_replicate]
  rfl

theorem reaches_stale (x : UInt8) (ts : List Token) :
    Reaches (List.replicate staleLength x ++ header).length ts :=
  reaches_of_large (by rw [length_stale, staleLength]; omega) ts

theorem farOutput_add_four (F : List UInt8) (x : UInt8) :
    farOutput F + 4 = (F.length : Int) + 200 +
      (List.replicate staleLength x ++ header).length := by
  rw [length_stale]
  simp only [farOutput]
  omega

theorem length_le_farOutput (F : List UInt8) : (F.length : Int) ≤ farOutput F := by
  simp only [farOutput]
  omega

section

variable {F : List UInt8} (p : Split F) (hlong : 8 ≤ F.length)
  (hint : F.length - 4 < 2 ^ 31) {st : Stream}

include hlong hint

theorem unpack_of_done (hst : st.bytes = p.rest) (hsize : st.size = p.size)
    (hdone : st.tail = .done) (x : UInt8) :
    ∃ fuel s, unpack fuel (staleMemory F [] x) 0 (farOutput F)
        (UInt32.ofNat F.length) = (s, some 0) ∧
      Holds s.mem (F.length + 200) (expand (4 + p.field.bytes.length)
        (List.replicate staleLength x ++ header) st.tokens) := by
  have hrest : encode st.tokens = p.rest := by
    rw [← hst, Stream.bytes, hdone]
    simp [Tail.bytes]
  have htotal : totalSize st.tokens ≤ p.size := by
    rw [← hsize, Stream.size]
    omega
  have hloaded := @loaded_staleMemory F [] x _ hlong (by omega) (length_le_farOutput F)
  exact unpack_of_tokens hloaded p hint hrest (farOutput_add_four F x)
    (holds_stale (by simp) x) (reaches_stale x _) htotal

/-- The bytes `ext` behind the profile complete its last token to `t`. -/
theorem unpack_of_completed (hst : st.bytes = p.rest) (hsize : st.size = p.size)
    (hcut : st.tail ≠ .done) {t : Token} {ext : List UInt8}
    (hext : st.tail.bytes ++ ext = t.bytes) (x : UInt8) :
    ∃ fuel s, unpack fuel (staleMemory F ext x) 0 (farOutput F)
        (UInt32.ofNat F.length) = (s, some 0) ∧
      Holds s.mem (F.length + 200) (expand (4 + p.field.bytes.length)
        (List.replicate staleLength x ++ header) (st.tokens ++ [t])) := by
  have hextlen : ext.length ≤ 200 := by
    have := length_tokenBytes_le t
    rw [← hext, List.length_append] at this
    omega
  have htsize := Tail.size_of_isPrefix hcut ⟨ext, hext⟩
  have hfar := length_le_farOutput F
  have hloaded := @loaded_staleMemory F ext x _ hlong (by omega) hfar
  obtain ⟨fuel, s₂, hrun, hb, -, hroom, hframe⟩ := unpack_of_cut hloaded p hint hst hcut
    (farOutput_add_four F x) (holds_stale hextlen x) (reaches_stale x _) (Nat.le_of_eq hsize)
  have hbytes : F ++ ext = p.front ++ p.field.bytes ++ encode st.tokens ++ t.bytes := by
    conv_lhs => rw [p.bytes_eq]
    rw [← hst, ← hext, Stream.bytes]
    simp only [List.append_assoc]
  have hplace := holds_staleMemory F ext x
  have hend := congrArg List.length hbytes
  rw [hbytes, holds_append] at hplace
  simp only [List.length_append, p.front_length] at hplace hend
  have hin := hb.inptr
  have ht : Holds s₂.mem s₂.inptr t.bytes := by
    have haddr : s₂.inptr = 0 + ((8 + p.field.bytes.length +
        (encode st.tokens).length : Nat) : Int) := by
      rw [hin]
      simp only [profileArgs]
      omega
    rw [haddr]
    refine hplace.2.of_agree fun q _ hq => ?_
    have hbelow : q < farOutput F := by
      simp only [farOutput]
      omega
    rw [hframe q (Or.inl (by omega)), unpackState_mem _ (Or.inl hbelow)]
  have hout := hb.outptr
  have hlen := @TokenStream.length_expand (4 + p.field.bytes.length)
    (List.replicate staleLength x ++ header) st.tokens (reaches_stale x _)
  have hreach := (reaches_append.mp (reaches_stale x (st.tokens ++ [t]))).2.1
  rw [← hlen] at hreach
  have hapart : s₂.inptr + t.bytes.length ≤ s₂.outptr := by
    rw [length_stale] at hlen
    rw [hin, hout]
    simp only [profileArgs]
    omega
  have hholds := token_holds ht hin hout hb.window hreach (Or.inl hapart)
  have hroomt : room (profileArgs 0 (farOutput F) (UInt32.ofNat F.length)
      (profileLen (staleMemory F ext x) 0)) s₂.outptr = t.size := by
    rw [hroom, htsize, ← hsize, Stream.size]
    omega
  rw [hroomt, Nat.min_self, List.take_of_length_le
    (Nat.le_of_eq (Token.length_expand hreach))] at hholds
  rw [expand_append]
  exact ⟨fuel, _, hrun, hholds⟩

theorem unpack_of_completes (hst : st.bytes = p.rest) (hsize : st.size = p.size)
    {us : List Token} (hus : st.Completes us) (x : UInt8) :
    ∃ ext fuel s, unpack fuel (staleMemory F ext x) 0 (farOutput F)
        (UInt32.ofNat F.length) = (s, some 0) ∧
      Holds s.mem (F.length + 200) (expand (4 + p.field.bytes.length)
        (List.replicate staleLength x ++ header) us) := by
  rcases hus with ⟨hdone, rfl⟩ | ⟨hcut, t, ⟨ext, hext⟩, rfl⟩
  · exact ⟨[], unpack_of_done p hlong hint hst hsize hdone x⟩
  · exact ⟨ext, unpack_of_completed p hlong hint hst hsize hcut hext x⟩

end

theorem expansion_unique {F : List UInt8} (h : Determined F) (p : Split F)
    (hlong : 8 ≤ F.length) (hint : F.length - 4 < 2 ^ 31) {st : Stream}
    (hst : st.bytes = p.rest) (hsize : st.size = p.size) {us us' : List Token}
    (hus : st.Completes us) (hus' : st.Completes us') (x x' : UInt8) :
    (expand (4 + p.field.bytes.length) (List.replicate staleLength x ++ header) us).drop
        staleLength =
      (expand (4 + p.field.bytes.length) (List.replicate staleLength x' ++ header) us').drop
        staleLength := by
  have hslice : ∀ {y : UInt8} {vs : List Token} {s : State}, st.Completes vs →
      Holds s.mem (F.length + 200) (expand (4 + p.field.bytes.length)
        (List.replicate staleLength y ++ header) vs) →
      slice s.mem (farOutput F) (p.size + 4) = (expand (4 + p.field.bytes.length)
        (List.replicate staleLength y ++ header) vs).drop staleLength := by
    intro y vs s hvs hholds
    have hall := @TokenStream.length_expand (4 + p.field.bytes.length)
      (List.replicate staleLength y ++ header) vs (reaches_stale y vs)
    rw [length_stale, hvs.totalSize, hsize] at hall
    apply Holds.slice_of_length
    · rw [← List.take_append_drop staleLength (expand _ _ vs), holds_append,
        List.length_take, Nat.min_eq_left (by omega)] at hholds
      exact hholds.2
    · rw [List.length_drop, hall]
      omega
  obtain ⟨ext, fuel, s, hrun, hholds⟩ := unpack_of_completes p hlong hint hst hsize hus x
  obtain ⟨ext', fuel', s', hrun', hholds'⟩ :=
    unpack_of_completes p hlong hint hst hsize hus' x'
  rw [← hslice hus hholds, ← hslice hus' hholds']
  exact slice_eq_of_determined h p (by omega) (by simp only [farOutput]; omega) hrun hrun'

/-- On a determined profile no match of any completion leaves the header and the
output. -/
theorem reaches_of_determined {F : List UInt8} (h : Determined F) (p : Split F)
    (hlong : 8 ≤ F.length) (hint : F.length - 4 < 2 ^ 31) {st : Stream}
    (hst : st.bytes = p.rest) (hsize : st.size = p.size) {us : List Token}
    (hus : st.Completes us) : Reaches 4 us := by
  by_contra hnot
  obtain ⟨j, hj, hall⟩ := @exists_stale staleLength 4 (4 + p.field.bytes.length) us
    (fun x => List.replicate staleLength x ++ header) (fun x => List.prefix_append _ _) length_stale
    (reaches_of_large (by rw [staleLength]; omega) us) hnot
  have hsame := congrArg (fun l => l[j - staleLength]?)
    (expansion_unique h p hlong hint hst hsize hus hus 0 1)
  simp only [List.getElem?_drop] at hsame
  rw [Nat.add_sub_cancel' (by omega), hall 0, hall 1] at hsame
  simp at hsame

theorem expand_header_unique {F : List UInt8} (h : Determined F) (p : Split F)
    (hlong : 8 ≤ F.length) (hint : F.length - 4 < 2 ^ 31) {st : Stream}
    (hst : st.bytes = p.rest) (hsize : st.size = p.size) {us us' : List Token}
    (hus : st.Completes us) (hus' : st.Completes us') :
    expand (4 + p.field.bytes.length) header us =
      expand (4 + p.field.bytes.length) header us' := by
  have hsame := expansion_unique h p hlong hint hst hsize hus hus' 0 0
  have hcut : ∀ {vs : List Token}, st.Completes vs →
      (expand (4 + p.field.bytes.length) (List.replicate staleLength 0 ++ header) vs).drop
        staleLength = expand (4 + p.field.bytes.length) header vs := by
    intro vs hvs
    have hreach : Reaches header.length vs :=
      reaches_of_determined h p hlong hint hst hsize hvs
    rw [expand_append_left hreach, List.drop_left' List.length_replicate]
  rwa [hcut hus, hcut hus'] at hsame

theorem tailDetermined_of_determined {F : List UInt8} (h : Determined F) (p : Split F)
    (hlong : 8 ≤ F.length) (hint : F.length - 4 < 2 ^ 31) {st : Stream}
    (hst : st.bytes = p.rest) (hsize : st.size = p.size) :
    TailDetermined (expand (4 + p.field.bytes.length) header st.tokens) st.tail := by
  have hreach := @reaches_of_determined F h p hlong hint st hst hsize
  have hunique := @expand_header_unique F h p hlong hint st hst hsize
  obtain ⟨ts, tail⟩ := st
  cases tail with
  | done => trivial
  | cutLiteral c hc avail hcut =>
      -- the first missing byte may be anything
      have hcomp : ∀ x : UInt8, (Stream.mk ts (.cutLiteral c hc avail hcut)).Completes
          (ts ++ [fillLiteral c hc avail hcut x]) := fun x =>
        Or.inr ⟨by simp, _, isPrefix_fillLiteral c hc avail hcut x, rfl⟩
      have hsame := hunique (hcomp 0) (hcomp 1)
      rw [expand_append, expand_append] at hsame
      have hraw := unmask_injective (List.append_cancel_left hsame)
      have hfirst := congrArg (fun l => l[avail.length]?) hraw
      simp only [List.getElem?_append_right (Nat.le_refl _), Nat.sub_self,
        List.getElem?_replicate] at hfirst
      rw [if_pos (by omega), if_pos (by omega)] at hfirst
      simp at hfirst
  | cutCopy c hc known hknown hcut =>
      have hcomp : ∀ code : OffsetCode, known <+: code.bytes →
          (Stream.mk ts (.cutCopy c hc known hknown hcut)).Completes
            (ts ++ [.copy c hc code]) := by
        intro code hcode
        refine Or.inr ⟨by simp, _, ?_, rfl⟩
        exact List.cons_prefix_cons.mpr ⟨rfl, hcode⟩
      obtain ⟨first, hfirst⟩ := exists_code_of_known hknown hcut
      have hts := (reaches_append.mp (hreach (hcomp first hfirst))).1
      have hlen := @TokenStream.length_expand (4 + p.field.bytes.length) header ts hts
      refine ⟨copyBack first.distance (low7 c + 2)
        (expand (4 + p.field.bytes.length) header ts), fun code hcode => ⟨?_, ?_⟩⟩
      · have hlast := (reaches_append.mp (hreach (hcomp code hcode))).2.1
        rw [hlen]
        exact hlast
      · have hsame := hunique (hcomp code hcode) (hcomp first hfirst)
        rw [expand_append, expand_append] at hsame
        exact hsame

/-- The extracted file depends on the profile alone exactly for the profiles that
are self-contained. -/
theorem determined_iff {F : List UInt8} (hlong : 8 ≤ F.length) (hlt : F.length < 2 ^ 32) :
    Determined F ↔ SelfContained F := by
  refine ⟨fun h => ?_, fun h => h.determined hlong⟩
  obtain ⟨p⟩ := terminated_of_determined h hlong hlt
  refine ⟨p, ?_⟩
  split
  · rename_i hint
    obtain ⟨st, hst⟩ := exists_stream p.rest
    refine ⟨st, hst, ?_⟩
    have hle := size_le_of_determined h p hlong hint hst
    rcases Nat.lt_or_ge p.size st.size with hfull | hge
    · exact Or.inl hfull
    · have hsize : st.size = p.size := by omega
      obtain ⟨us, hus⟩ := st.exists_completes
      have hreach := reaches_of_determined h p hlong hint hst hsize hus
      exact Or.inr ⟨hsize, (reaches_append.mp hreach).1,
        tailDetermined_of_determined h p hlong hint hst hsize⟩
  · exact size_of_long h p hlt (by omega)

/-- A profile of declared size 5 without any token. -/
def emptyProfile : List UInt8 :=
  [0x82, 0x29, 0x09, 0x00, 0x5a, 0x4c, 0x51, 0x49, 5]

def emptySplit : Split emptyProfile :=
  ⟨emptyProfile.take 8, .single 5 (by decide), [], rfl, rfl⟩

theorem emptyProfile_not_determined : ¬ Determined emptyProfile := by
  intro h
  have hle := @size_le_of_determined _ h emptySplit (by decide) (by decide) ⟨[], .done⟩ rfl
  have hsize : emptySplit.size = 5 := by decide
  have hnone : (Stream.mk [] .done).size = 0 := rfl
  omega

theorem determined_iff_emptyProfile :
    Determined emptyProfile ↔ SelfContained emptyProfile :=
  determined_iff (by decide) (by decide)

end Iqiq.StaleBytes
