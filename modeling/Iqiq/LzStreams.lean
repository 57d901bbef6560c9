import Iqiq.LzRuns
import Iqiq.LzDecoding

namespace Iqiq.LzStreams

open Iqiq.ByteMemory
open Iqiq.SevenBitGroups
open Iqiq.TokenStream
open Iqiq.LzUncompress
open Iqiq.LzLoops
open Iqiq.LzRuns
open Iqiq.LzDecoding

theorem mainLoop_end {a : Args} {s : State} (h : a.endptr ≤ s.inptr) (fuel : Nat) :
    mainLoop a (fuel + 1) s = (s, some 0) := by
  rw [mainLoop, if_neg (by omega)]

theorem mainLoop_fits {a : Args} {s : State} (hmore : s.inptr < a.endptr)
    (h : tokenSize (s.mem s.inptr) ≤ room a s.outptr) (fuel : Nat) :
    mainLoop a (fuel + 1) s = mainLoop a fuel (token a s).1 := by
  have hok : (token a s).2 = true := by
    rw [(token_shape a s).1]
    exact decide_eq_true h
  rw [mainLoop, if_pos hmore]
  simp only [hok, if_true]

theorem mainLoop_full {a : Args} {s : State} (hmore : s.inptr < a.endptr)
    (h : room a s.outptr < tokenSize (s.mem s.inptr)) (fuel : Nat) :
    mainLoop a (fuel + 1) s = ((token a s).1, some 1) := by
  have hfail : (token a s).2 = false := by
    rw [(token_shape a s).1]
    exact decide_eq_false (by omega)
  rw [mainLoop, if_pos hmore]
  simp [hfail]

/-- Before a token that starts at position `p` of the input, the bytes of
memory from `base` up to the output pointer are `w`. -/
structure Boundary (a : Args) (base : Int) (p : Nat) (w : List UInt8) (s : State) :
    Prop where
  inptr : s.inptr = a.input + p
  outptr : s.outptr = base + w.length
  window : Holds s.mem base w

theorem Boundary.token {a : Args} {base : Int} {p : Nat} {w : List UInt8} {s : State}
    (hb : Boundary a base p w s) {t : Token} (ht : Holds s.mem s.inptr t.bytes)
    (hreach : t.reach ≤ w.length)
    (hapart : Apart s.inptr t.bytes.length s.outptr (room a s.outptr))
    (hfit : t.size ≤ room a s.outptr) :
    Boundary a base (p + t.bytes.length) (t.expand p w) (token a s).1 := by
  obtain ⟨hflag, hmoved, hout⟩ := token_shape a s
  rw [tokenSize_of_holds ht] at hflag hout
  rw [tokenReads_of_holds ht hfit] at hmoved
  have hlen := Token.length_expand (p := p) hreach
  constructor
  · rw [hmoved.inptr, hb.inptr]
    omega
  · rw [hout (by rw [hflag]; exact decide_eq_true hfit), hb.outptr, hlen]
    omega
  · have := token_holds ht hb.inptr hb.outptr hb.window hreach hapart
    rwa [Nat.min_eq_left hfit, ← hlen, List.take_length] at this

/-- One iteration takes the token `t` from the front of the input and leaves `rest`. -/
structure Takes (a : Args) (t : Token) (rest : List UInt8) (s s' : State) : Prop where
  run : ∀ fuel, mainLoop a (fuel + 1) s = mainLoop a fuel s'
  moved : Moved s s' t.bytes.length t.size
  outptr : s'.outptr = s.outptr + t.size
  roomLeft : room a s'.outptr = room a s.outptr - t.size
  behind : Holds s'.mem s'.inptr rest
  apart : Apart s'.inptr rest.length s'.outptr (room a s'.outptr)
  boundary : ∀ base p w, Boundary a base p w s → t.reach ≤ w.length →
    Boundary a base (p + t.bytes.length) (t.expand p w) s'

theorem mainLoop_token {a : Args} {t : Token} {rest : List UInt8} {s : State}
    (hts : Holds s.mem s.inptr (t.bytes ++ rest))
    (hapart : Apart s.inptr (t.bytes ++ rest).length s.outptr (room a s.outptr))
    (hend : s.inptr + t.bytes.length ≤ a.endptr) (hfits : t.size ≤ room a s.outptr) :
    Takes a t rest s (token a s).1 := by
  have hpos := t.bytes_pos
  obtain ⟨ht, -⟩ := holds_append.mp hts
  have hsize := tokenSize_of_holds ht
  obtain ⟨hflag, hmoved, hout⟩ := token_shape a s
  rw [hsize] at hflag hmoved hout
  rw [tokenReads_of_holds ht hfits, Nat.min_eq_left hfits] at hmoved
  have hout' := hout (by rw [hflag]; exact decide_eq_true hfits)
  have hroom : room a (token a s).1.outptr = room a s.outptr - t.size := by
    rw [hout', room_add]
  rw [List.length_append] at hapart
  constructor
  · exact mainLoop_fits (by omega) (by omega)
  · exact hmoved
  · exact hout'
  · exact hroom
  · exact hmoved.holds hts rfl hapart hfits
  · rw [hroom, hmoved.inptr, hout']
    exact hapart.rest hfits
  · intro base p w hb hreach
    exact hb.token ht hreach hapart.left hfits

theorem mainLoop_tokens {a : Args} (ts : List Token) {rest : List UInt8} {s : State}
    (hts : Holds s.mem s.inptr (encode ts ++ rest))
    (hapart : Apart s.inptr (encode ts ++ rest).length s.outptr (room a s.outptr))
    (hend : s.inptr + (encode ts).length ≤ a.endptr)
    (hfit : totalSize ts ≤ room a s.outptr) (fuel : Nat) :
    ∃ s', mainLoop a (ts.length + fuel) s = mainLoop a fuel s' ∧
      Moved s s' (encode ts).length (totalSize ts) ∧
      s'.outptr = s.outptr + totalSize ts ∧
      ∀ base p w, Boundary a base p w s → Reaches w.length ts →
        Boundary a base (p + (encode ts).length) (expand p w ts) s' := by
  induction ts generalizing s with
  | nil =>
      refine ⟨s, by simp, Moved.refl s, by simp, ?_⟩
      intro base p w hb _
      simpa [expand] using hb
  | cons t ts ih =>
      rw [encode_cons, List.append_assoc] at hts hapart
      rw [encode_cons, List.length_append] at hend
      rw [totalSize_cons] at hfit
      have htakes := mainLoop_token hts hapart (by omega) (by omega)
      have hin := htakes.moved.inptr
      have hroom := htakes.roomLeft
      obtain ⟨s', hrun, hmoved, hout, hbound⟩ :=
        ih htakes.behind htakes.apart (by omega) (by omega)
      refine ⟨s', ?_, ?_, ?_, ?_⟩
      · rw [List.length_cons, Nat.add_right_comm, htakes.run, hrun]
      · rw [encode_cons, List.length_append, totalSize_cons]
        exact htakes.moved.trans htakes.outptr hmoved
      · rw [hout, htakes.outptr, totalSize_cons]
        omega
      · rintro base p w hb ⟨hreach, hrest⟩
        have hlen := Token.length_expand (p := p) hreach
        rw [encode_cons, List.length_append, ← Nat.add_assoc]
        exact hbound base _ _ (htakes.boundary base p w hb hreach) (by rwa [hlen])

theorem take_expand {p n : Nat} {w : List UInt8} {t : Token} {ts : List Token}
    (hn : n ≤ (t.expand p w).length) :
    (expand p w (t :: ts)).take n = (t.expand p w).take n := by
  obtain ⟨rest, hrest⟩ := prefix_expand (p + t.bytes.length) (t.expand p w) ts
  rw [expand, ← hrest, List.take_append_of_le_length hn]

theorem mainLoop_tokens_full {a : Args} (ts : List Token) {s : State}
    (hts : Holds s.mem s.inptr (encode ts))
    (hapart : Apart s.inptr (encode ts).length s.outptr (room a s.outptr))
    (hend : s.inptr + (encode ts).length ≤ a.endptr)
    (hfull : room a s.outptr < totalSize ts) (fuel : Nat) :
    ∃ s' i, mainLoop a (ts.length + fuel) s = (s', some 1) ∧
      Moved s s' i (room a s.outptr) ∧ i ≤ (encode ts).length ∧
      ∀ base p w, Boundary a base p w s → Reaches w.length ts →
        Holds s'.mem base ((expand p w ts).take (w.length + room a s.outptr)) := by
  induction ts generalizing s with
  | nil => simp at hfull
  | cons t ts ih =>
      rw [encode_cons] at hts hapart
      rw [encode_cons, List.length_append] at hend
      rw [totalSize_cons] at hfull
      rw [List.length_cons, Nat.add_right_comm]
      rcases em (t.size ≤ room a s.outptr) with hfits | hfits
      · have htakes := mainLoop_token hts hapart (by omega) hfits
        have hin := htakes.moved.inptr
        have hroom := htakes.roomLeft
        obtain ⟨s', i, hrun, hmoved, hi, hholds⟩ :=
          ih htakes.behind htakes.apart (by omega) (by omega)
        refine ⟨s', t.bytes.length + i, ?_, ?_, ?_, ?_⟩
        · rw [htakes.run, hrun]
        · have := htakes.moved.trans htakes.outptr hmoved
          rwa [hroom, Nat.add_sub_cancel' hfits] at this
        · rw [encode_cons, List.length_append]
          omega
        · rintro base p w hb ⟨hreach, hrest⟩
          have hlen := Token.length_expand (p := p) hreach
          have := hholds base _ _ (htakes.boundary base p w hb hreach) (by rwa [hlen])
          rwa [hroom, hlen, Nat.add_assoc, Nat.add_sub_cancel' hfits] at this
      · have hpos := t.bytes_pos
        obtain ⟨ht, -⟩ := holds_append.mp hts
        have hsize := tokenSize_of_holds ht
        have hmoved := (token_shape a s).2.1
        rw [hsize, Nat.min_eq_right (by omega)] at hmoved
        refine ⟨_, _, mainLoop_full (by omega) (by omega) _, hmoved, ?_, ?_⟩
        · have := tokenReads_le_of_holds ht (room a s.outptr)
          rw [encode_cons, List.length_append]
          omega
        · rintro base p w hb ⟨hreach, -⟩
          have hlen := Token.length_expand (p := p) hreach
          rw [List.length_append] at hapart
          have := token_holds ht hb.inptr hb.outptr hb.window hreach hapart.left
          rw [Nat.min_eq_right (by omega)] at this
          rwa [take_expand (by omega)]

theorem lt_offsetLength {m : Mem} {p : Int} {known : List UInt8} (h : Holds m p known)
    (hknown : ∀ b ∈ known, b > 0x7f) (hcut : known.length < 3) :
    known.length < offsetLength m p := by
  rcases known with _ | ⟨b₀, _ | ⟨b₁, _ | ⟨b₂, known⟩⟩⟩
  · unfold offsetLength
    split
    · split <;> simp
    · simp
  · obtain ⟨hb₀, -⟩ := holds_cons.mp h
    rw [offsetLength, hb₀, if_pos (hknown b₀ (by simp))]
    split <;> simp
  · obtain ⟨hb₀, htail⟩ := holds_cons.mp h
    obtain ⟨hb₁, -⟩ := holds_cons.mp htail
    rw [offsetLength, hb₀, hb₁, if_pos (hknown b₀ (by simp)), if_pos (hknown b₁ (by simp))]
    simp
  · simp only [List.length_cons] at hcut
    omega

/-- The distance code that stands at `p`, whatever the memory holds there. -/
def codeAt (m : Mem) (p : Int) : OffsetCode :=
  if h₀ : m p > 0x7f then
    if h₁ : m (p + 1) > 0x7f then .three (m p) (m (p + 1)) (m (p + 2)) h₀ h₁
    else .two (m p) (m (p + 1)) h₀ h₁
  else .one (m p) h₀

theorem holds_codeAt (m : Mem) (p : Int) : Holds m p (codeAt m p).bytes := by
  unfold codeAt
  split
  · split
    · simp [OffsetCode.bytes, holds_cons, show p + 1 + 1 = p + 2 by omega]
    · simp [OffsetCode.bytes, holds_cons]
  · simp [OffsetCode.bytes, holds_cons]

theorem isPrefix_codeAt {m : Mem} {p : Int} {known : List UInt8} (h : Holds m p known)
    (hknown : ∀ b ∈ known, b > 0x7f) (hcut : known.length < 3) :
    known <+: (codeAt m p).bytes := by
  have hlt := lt_offsetLength h hknown hcut
  rw [offsetLength_of_holds (holds_codeAt m p)] at hlt
  exact h.isPrefix_of_length_le (holds_codeAt m p) (Nat.le_of_lt hlt)

theorem tail_cases {m : Mem} {p : Int} {tail : Tail} (h : Holds m p tail.bytes) :
    tail = .done ∨ tokenSize (m p) = tail.size ∧ 0 < tail.bytes.length ∧
      ∀ r, tail.bytes.length ≤ tokenReads m p (max r tail.size) ∧
        (tokenReads m p r ≤ tail.bytes.length ↔ tail.ReadsInside r) := by
  cases tail with
  | done => exact Or.inl rfl
  | cutLiteral c hc avail hcut =>
      obtain ⟨hm, -⟩ := holds_cons.mp h
      refine Or.inr ⟨?_, by simp [Tail.bytes], fun r => ?_⟩
      · rw [tokenSize, hm, if_neg hc]
        rfl
      · simp only [tokenReads, hm, if_neg hc, Tail.bytes, List.length_cons, Tail.size,
          Tail.ReadsInside]
        omega
  | cutCopy c hc known hknown hcut =>
      obtain ⟨hm, hrest⟩ := holds_cons.mp h
      have hlen := lt_offsetLength hrest hknown hcut
      refine Or.inr ⟨?_, by simp [Tail.bytes], fun r => ?_⟩
      · rw [tokenSize, hm, if_pos hc]
        rfl
      · simp only [tokenReads, hm, if_pos hc, Tail.bytes, List.length_cons,
          Tail.ReadsInside]
        exact ⟨by omega, iff_of_false (by omega) id⟩

theorem mainLoop_tail {a : Args} {tail : Tail} {s : State}
    (htail : Holds s.mem s.inptr tail.bytes)
    (hend : a.endptr = s.inptr + tail.bytes.length) (fuel : Nat) :
    ∃ s' i, mainLoop a (fuel + 2) s =
        (s', some (if tail.size ≤ room a s.outptr then 0 else 1)) ∧
      Moved s s' i (min tail.size (room a s.outptr)) ∧
      (i ≤ tail.bytes.length ↔ tail.ReadsInside (room a s.outptr)) := by
  rcases tail_cases htail with rfl | ⟨hsize, hpos, hreads⟩
  · refine ⟨s, 0, ?_, by simpa [Tail.size] using Moved.refl s, by simp [Tail.ReadsInside]⟩
    rw [mainLoop_end (by simp [hend, Tail.bytes])]
    simp [Tail.size]
  · obtain ⟨hflag, hmoved, hout⟩ := token_shape a s
    rw [hsize] at hmoved
    rcases em (tail.size ≤ room a s.outptr) with hfits | hfits
    · have hin := hmoved.inptr
      have hpast := (hreads (room a s.outptr)).1
      rw [Nat.max_eq_left hfits] at hpast
      refine ⟨_, _, ?_, hmoved, (hreads _).2⟩
      rw [mainLoop_fits (by omega) (by omega), mainLoop_end (by omega), if_pos hfits]
    · refine ⟨_, _, ?_, hmoved, (hreads _).2⟩
      rw [mainLoop_full (by omega) (by omega), if_neg hfits]

theorem mainLoop_stream {a : Args} {st : Stream} {s : State}
    (hst : Holds s.mem s.inptr st.bytes)
    (hapart : Apart s.inptr st.bytes.length s.outptr (room a s.outptr))
    (hend : a.endptr = s.inptr + st.bytes.length) (fuel : Nat) :
    ∃ s' i, mainLoop a (st.tokens.length + (fuel + 2)) s =
        (s', some (if st.size ≤ room a s.outptr then 0 else 1)) ∧
      Moved s s' i (min st.size (room a s.outptr)) ∧
      (i ≤ st.bytes.length ↔ st.ReadsInside (room a s.outptr)) := by
  have hsize : st.size = totalSize st.tokens + st.tail.size := rfl
  have hlen : st.bytes.length = (encode st.tokens).length + st.tail.bytes.length :=
    List.length_append
  rw [hlen] at hapart hend
  rcases em (totalSize st.tokens ≤ room a s.outptr) with hfit | hfit
  · obtain ⟨s₁, hrun, hmoved, hout, -⟩ := mainLoop_tokens st.tokens hst
      (by rwa [List.length_append]) (by omega) hfit (fuel + 2)
    have htail := hmoved.holds hst rfl hapart hfit
    have hin := hmoved.inptr
    have hroom : room a s₁.outptr = room a s.outptr - totalSize st.tokens := by
      rw [hout, room_add]
    obtain ⟨s', i, hrun', hmoved', hi⟩ := @mainLoop_tail a st.tail s₁ htail (by omega) fuel
    rw [hroom] at hrun' hmoved' hi
    have hall := hmoved.trans hout hmoved'
    rw [show totalSize st.tokens + min st.tail.size (room a s.outptr - totalSize st.tokens) =
      min st.size (room a s.outptr) by omega] at hall
    refine ⟨s', _, ?_, hall, ?_⟩
    · rw [hrun, hrun']
      rcases em (st.size ≤ room a s.outptr) with h | h
      · rw [if_pos h, if_pos (by omega)]
      · rw [if_neg h, if_neg (by omega)]
    · rw [Stream.ReadsInside, ← hi]
      omega
  · obtain ⟨s', i, hrun, hmoved, hi, -⟩ := mainLoop_tokens_full st.tokens
      (holds_append.mp hst).1 hapart.left (by omega) (by omega) (fuel + 2)
    refine ⟨s', i, ?_, ?_, ?_⟩
    · rw [hrun, if_neg (by omega)]
    · rwa [Nat.min_eq_right (by omega)]
    · exact iff_of_true (by omega) (Or.inl (by omega))

/-- A call on a buffer that holds `bytes`, with an output buffer of `outlen`
bytes elsewhere. -/
structure Call (a : Args) (s : State) (bytes : List UInt8) : Prop where
  holds : Holds s.mem a.input bytes
  len : a.len = bytes.length
  outlen : 0 ≤ a.outlen
  apart : Apart a.input bytes.length a.output a.outlen.toNat

theorem room_output (a : Args) : room a a.output = a.outlen.toNat := by
  simp only [room, Args.last]
  omega

theorem Call.endptr {a : Args} {s : State} {bytes : List UInt8} (h : Call a s bytes) :
    a.endptr = a.input + bytes.length := by
  rw [Args.endptr, h.len]

/-- The state of `lzUncompress` behind a length field that ends at offset `n` of
the input. -/
structure Entered (a : Args) (s s₁ : State) (n : Nat) : Prop where
  mem : s₁.mem = s.mem
  inptr : s₁.inptr = a.input + n
  outptr : s₁.outptr = a.output
  loads : s₁.loads = s.loads ++ addrs (a.input + 4) (n - 4)
  stores : s₁.stores = s.stores

theorem lzUncompress_of_field {a : Args} {s : State} {f : LengthField}
    (hf : Holds s.mem (a.input + 4) f.bytes) :
    ∃ s₁, Entered a s s₁ (4 + f.bytes.length) ∧
      ∀ fuel, f.bytes.length ≤ fuel → lzUncompress a fuel s = mainLoop a fuel s₁ := by
  have hlen : f.bytes.length = f.hi.length + 1 := by simp [MultiByte.bytes]
  obtain ⟨hhi, hlast⟩ := holds_append.mp hf
  have hstart : (start a s).inptr = a.input + 4 := rfl
  have hall : ∀ i < f.hi.length, (start a s).mem ((start a s).inptr + (i : Nat)) > 0x7f := by
    intro i hi
    rw [hstart]
    change s.mem _ > 0x7f
    rw [hhi i hi]
    exact f.hi_gt _ (List.getElem_mem hi)
  have hend : ¬ (start a s).mem ((start a s).inptr + (f.hi.length : Nat)) > 0x7f := by
    rw [hstart]
    change ¬ s.mem _ > 0x7f
    rw [(holds_cons.mp hlast).1]
    exact f.last_le
  have hskip := @skipLength_of_terminated _ _ hall hend
  obtain ⟨-, hmoved⟩ := hskip (Nat.lt_succ_self _)
  obtain ⟨hmem, hout, hstores⟩ := skipLength_frame (f.hi.length + 1) (start a s)
  refine ⟨(skipLength (f.hi.length + 1) (start a s)).1, ?_, ?_⟩
  · refine ⟨hmem, ?_, hout, ?_, hstores⟩
    · rw [hmoved.inptr, hstart]
      omega
    · rw [hmoved.loads, hstart, hlen, Nat.add_sub_cancel_left]
      rfl
  · intro fuel hfuel
    obtain ⟨extra, rfl⟩ := Nat.exists_eq_add_of_le hfuel
    have hok := (hskip (Nat.lt_succ_self _)).1
    rw [hlen, lzUncompress_eq, skipLength_add hok, if_pos hok]

theorem Call.field {a : Args} {s : State} {magic bytes : List UInt8} {f : LengthField}
    (h : Call a s (magic ++ f.bytes ++ bytes)) (hmagic : magic.length = 4) :
    Holds s.mem (a.input + 4) f.bytes := by
  have := (holds_append.mp (holds_append.mp h.holds).1).2
  rwa [hmagic] at this

theorem Call.rest {a : Args} {s s₁ : State} {magic bytes : List UInt8} {f : LengthField}
    (h : Call a s (magic ++ f.bytes ++ bytes)) (hmagic : magic.length = 4)
    (hs₁ : Entered a s s₁ (4 + f.bytes.length)) :
    Holds s₁.mem s₁.inptr bytes ∧ a.endptr = s₁.inptr + bytes.length ∧
      Apart s₁.inptr bytes.length s₁.outptr (room a s₁.outptr) := by
  have hlen : (magic ++ f.bytes ++ bytes).length =
      4 + f.bytes.length + bytes.length := by
    simp [hmagic]
    omega
  refine ⟨?_, ?_, ?_⟩
  · have := (holds_append.mp h.holds).2
    rw [List.length_append, hmagic] at this
    rwa [hs₁.mem, hs₁.inptr]
  · rw [h.endptr, hlen, hs₁.inptr]
    omega
  · have := h.apart
    rw [hlen] at this
    rw [hs₁.outptr, hs₁.inptr, room_output]
    unfold Apart at this ⊢
    omega

/-- The result of a call on a buffer with a terminated length field, and what it
reads and stores. -/
theorem lzUncompress_stream {a : Args} {s : State} {magic : List UInt8} {f : LengthField}
    {st : Stream} (hmagic : magic.length = 4)
    (hcall : Call a s (magic ++ f.bytes ++ st.bytes)) :
    ∃ s' i, Returns a s (if st.size ≤ a.outlen.toNat then 0 else 1) s' ∧
      s'.loads = s.loads ++ addrs (a.input + 4) (f.bytes.length + i) ∧
      s'.stores = s.stores ++ addrs a.output (min st.size a.outlen.toNat) ∧
      (∀ q, q < a.output ∨ a.output + min st.size a.outlen.toNat ≤ q →
        s'.mem q = s.mem q) ∧
      (i ≤ st.bytes.length ↔ st.ReadsInside a.outlen.toNat) := by
  obtain ⟨s₁, hs₁, hrun⟩ := lzUncompress_of_field (hcall.field hmagic)
  obtain ⟨hholds, hend, hapart⟩ := hcall.rest hmagic hs₁
  obtain ⟨s', i, hmain, hmoved, hreads⟩ :=
    mainLoop_stream hholds hapart hend f.bytes.length
  rw [hs₁.outptr, room_output] at hmain hmoved hreads
  refine ⟨s', i, ⟨_, (hrun _ ?_).trans hmain⟩, ?_, ?_, ?_, hreads⟩
  · omega
  · rw [hmoved.loads, hs₁.loads, hs₁.inptr, List.append_assoc, Nat.add_sub_cancel_left,
      ← addrs_append]
    congr 3
    omega
  · rw [hmoved.stores, hs₁.stores, hs₁.outptr]
  · intro q hq
    rw [hmoved.frame q (by rwa [hs₁.outptr]), hs₁.mem]

/-- The bytes a call on complete tokens leaves in memory, when the bytes `pre`
lie directly before the output buffer. -/
theorem lzUncompress_tokens {a : Args} {s : State} {magic pre : List UInt8}
    {f : LengthField} {ts : List Token} {base : Int} (hmagic : magic.length = 4)
    (hcall : Call a s (magic ++ f.bytes ++ encode ts)) (hbase : a.output = base + pre.length)
    (hpre : Holds s.mem base pre) (hreach : Reaches pre.length ts) :
    ∃ s', Returns a s (if totalSize ts ≤ a.outlen.toNat then 0 else 1) s' ∧
      Holds s'.mem base
        ((expand (4 + f.bytes.length) pre ts).take (pre.length + a.outlen.toNat)) := by
  obtain ⟨s₁, hs₁, hrun⟩ := lzUncompress_of_field (hcall.field hmagic)
  obtain ⟨hholds, hend, hapart⟩ := hcall.rest hmagic hs₁
  have hroom : room a s₁.outptr = a.outlen.toNat := by rw [hs₁.outptr, room_output]
  have hb : Boundary a base (4 + f.bytes.length) pre s₁ :=
    ⟨hs₁.inptr, by rw [hs₁.outptr, hbase], by rwa [hs₁.mem]⟩
  rcases em (totalSize ts ≤ a.outlen.toNat) with hfit | hfit
  · obtain ⟨s', hmain, hmoved, -, hbound⟩ := @mainLoop_tokens a ts [] s₁
      (by rwa [List.append_nil]) (by rwa [List.append_nil]) (by omega) (by omega)
      (f.bytes.length + 1)
    have hb' := hbound _ _ _ hb hreach
    refine ⟨s', ⟨_, (hrun _ ?_).trans (hmain.trans ?_)⟩, ?_⟩
    · omega
    · rw [mainLoop_end (by rw [hmoved.inptr]; omega), if_pos hfit]
    · have hlen := length_expand (p := 4 + f.bytes.length) hreach
      rw [List.take_of_length_le (by omega)]
      exact hb'.window
  · obtain ⟨s', i, hmain, -, -, hbound⟩ := mainLoop_tokens_full ts hholds hapart
      (by omega) (by omega) f.bytes.length
    refine ⟨s', ⟨_, (hrun _ ?_).trans hmain |>.trans ?_⟩, ?_⟩
    · omega
    · rw [if_neg hfit]
    · rw [← hroom]
      exact hbound _ _ _ hb hreach

/-- A call whose last token breaks off: when its full size fits, it is taken as
it happens to go on in memory, and the call returns 0. -/
theorem lzUncompress_cut {a : Args} {s : State} {magic pre : List UInt8}
    {f : LengthField} {ts : List Token} {tail : Tail} {base : Int}
    (hmagic : magic.length = 4)
    (hcall : Call a s (magic ++ f.bytes ++ (encode ts ++ tail.bytes)))
    (htail : tail ≠ .done) (hbase : a.output = base + pre.length)
    (hpre : Holds s.mem base pre) (hreach : Reaches pre.length ts)
    (hfit : totalSize ts + tail.size ≤ a.outlen.toNat) :
    ∃ s₂, Returns a s 0 (token a s₂).1 ∧
      Boundary a base (4 + f.bytes.length + (encode ts).length)
        (expand (4 + f.bytes.length) pre ts) s₂ ∧
      Holds s₂.mem s₂.inptr tail.bytes ∧
      room a s₂.outptr = a.outlen.toNat - totalSize ts ∧
      ∀ q, q < a.output ∨ a.output + totalSize ts ≤ q → s₂.mem q = s.mem q := by
  obtain ⟨s₁, hs₁, hrun⟩ := lzUncompress_of_field (hcall.field hmagic)
  obtain ⟨hholds, hend, hapart⟩ := hcall.rest hmagic hs₁
  have hroom : room a s₁.outptr = a.outlen.toNat := by rw [hs₁.outptr, room_output]
  have hb : Boundary a base (4 + f.bytes.length) pre s₁ :=
    ⟨hs₁.inptr, by rw [hs₁.outptr, hbase], by rwa [hs₁.mem]⟩
  obtain ⟨s₂, hmain, hmoved, hout, hbound⟩ := mainLoop_tokens ts hholds hapart
    (by rw [hend, List.length_append]; omega) (by omega) (f.bytes.length + 2)
  rw [List.length_append] at hapart hend
  have hin := hmoved.inptr
  have hroom' : room a s₂.outptr = a.outlen.toNat - totalSize ts := by
    rw [hout, room_add, hroom]
  have hrest := hmoved.holds hholds rfl hapart (by omega)
  rcases tail_cases hrest with hdone | ⟨hsize, hpos, hreads⟩
  · exact absurd hdone htail
  · obtain ⟨-, hstep, -⟩ := token_shape a s₂
    have hpast := (hreads (room a s₂.outptr)).1
    rw [Nat.max_eq_left (by omega)] at hpast
    have hin' := hstep.inptr
    refine ⟨s₂, ⟨_, (hrun _ ?_).trans (hmain.trans ?_)⟩, hbound _ _ _ hb hreach, hrest,
      hroom', fun q hq => ?_⟩
    · omega
    · rw [mainLoop_fits (by omega) (by omega), mainLoop_end (by omega)]
    · rw [hmoved.frame q (by rwa [hs₁.outptr]), hs₁.mem]

theorem skipLength_leaves {a : Args} {s : State} {bytes : List UInt8}
    (hholds : Holds s.mem a.input bytes) (hall : ∀ b ∈ bytes.drop 4, b > 0x7f) {fuel : Nat}
    (hfuel : bytes.length < fuel + 4) :
    ∃ n, Moved (start a s) (skipLength fuel (start a s)).1 n 0 ∧ bytes.length < n + 4 := by
  obtain ⟨n, hmoved, hrunning, hended⟩ := skipLength_moved fuel (start a s)
  refine ⟨n, hmoved, ?_⟩
  rcases em ((skipLength fuel (start a s)).2 = true) with hflag | hflag
  · obtain ⟨k, rfl, hk⟩ := hended hflag
    by_contra hinside
    apply hk
    have hlt : 4 + k < bytes.length := by omega
    have haddr : (start a s).inptr + (k : Int) = a.input + ((4 + k : Nat) : Int) := by
      change a.input + 4 + (k : Int) = _
      omega
    rw [haddr]
    change s.mem _ > 0x7f
    rw [hholds _ hlt]
    apply hall
    rw [List.mem_drop_iff_getElem]
    exact ⟨k, by omega, by simp⟩
  · have := hrunning (by simpa using hflag)
    omega

theorem lzUncompress_unterminated {a : Args} {s s' : State} {bytes : List UInt8} {ret : Int}
    (hholds : Holds s.mem a.input bytes) (hlen : a.len ≤ bytes.length)
    (hall : ∀ b ∈ bytes.drop 4, b > 0x7f) (hret : Returns a s ret s') :
    ret = 0 ∧ s'.mem = s.mem := by
  obtain ⟨fuel, hrun⟩ := hret
  have hrun' := lzUncompress_add (by rw [hrun]) (bytes.length + 1)
  rw [← Nat.add_assoc] at hrun'
  obtain ⟨n, hmoved, hn⟩ := @skipLength_leaves _ _ _ hholds hall
    (fuel + bytes.length + 1) (by omega)
  have hin := hmoved.inptr
  have hstart : (start a s).inptr = a.input + 4 := rfl
  rw [hrun, lzUncompress_eq] at hrun'
  split at hrun'
  · rw [mainLoop_end (by rw [Args.endptr]; omega)] at hrun'
    simp only [Prod.mk.injEq, Option.some.injEq] at hrun'
    exact ⟨hrun'.2.symm, by rw [← hrun'.1]; exact (skipLength_frame _ _).1⟩
  · simp at hrun'

end Iqiq.LzStreams
