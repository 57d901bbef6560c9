import Iqiq.ProfileUnpack

namespace Iqiq.OutFile

open Iqiq.ByteMemory
open Iqiq.TokenStream
open Iqiq.LzUncompress
open Iqiq.LzStreams
open Iqiq.HandleProfile
open Iqiq.ProfileUnpack

/-- A well-formed profile: eight bytes, a length field and complete tokens that
stay inside the output and fill the declared size. -/
structure Profile where
  content : List UInt8
  split : Split content
  tokens : List Token
  encodes : encode tokens = split.rest
  reaches : Reaches 0 tokens
  fills : totalSize tokens = split.size
  length_lt : content.length < 2 ^ 32

/-- The bytes that the profile stands for. -/
def Profile.expansion (p : Profile) : List UInt8 :=
  expand (4 + p.split.field.bytes.length) [] p.tokens

theorem Profile.length_expansion (p : Profile) : p.expansion.length = p.split.size := by
  have hlen := @TokenStream.length_expand (4 + p.split.field.bytes.length) [] p.tokens p.reaches
  rw [Profile.expansion, hlen, List.length_nil, Nat.zero_add, p.fills]

/-- `handleProfile` decodes the profile: its length fits into `int`, or there is
nothing to decode. -/
def Profile.Decoded (p : Profile) : Prop :=
  p.content.length - 4 < 2 ^ 31 ∨ p.split.size = 0

/-- A sequence of calls of `handleProfile` with the same outfile, each of which
returns 0; between two calls anything may happen to memory. -/
inductive Run (outfile : String) :
    Option (List UInt8) → List (Calls × Mem) → Option (List UInt8) → Prop
  | nil (disk : Option (List UInt8)) : Run outfile disk [] disk
  | cons {c : Calls} {m : Mem} {disk disk' : Option (List UInt8)} {r : Result}
      {rest : List (Calls × Mem)} (hr : Handles c outfile m disk r) (hzero : r.status = 0)
      (hapart : BuffersApart c m) (hrest : Run outfile r.disk rest disk') :
      Run outfile disk ((c, m) :: rest) disk'

theorem run_append {outfile : String} {disk disk' : Option (List UInt8)}
    {xs ys : List (Calls × Mem)} :
    Run outfile disk (xs ++ ys) disk' ↔
      ∃ mid, Run outfile disk xs mid ∧ Run outfile mid ys disk' := by
  induction xs generalizing disk with
  | nil =>
      constructor
      · intro h
        exact ⟨disk, .nil disk, h⟩
      · rintro ⟨mid, hnil, h⟩
        cases hnil
        exact h
  | cons x xs ih =>
      constructor
      · intro h
        cases h with
        | cons hr hzero hapart hrest =>
            obtain ⟨mid, hxs, hys⟩ := ih.mp hrest
            exact ⟨mid, .cons hr hzero hapart hxs, hys⟩
      · rintro ⟨mid, hxs, hys⟩
        cases hxs with
        | cons hr hzero hapart hrest =>
            exact .cons hr hzero hapart (ih.mpr ⟨mid, hrest, hys⟩)

theorem length_writeFront (file data : List UInt8) :
    (writeFront file data).length = max data.length file.length := by
  rw [writeFront, List.length_append, List.length_drop]
  omega

theorem Profile.written (p : Profile) {c : Calls} {m : Mem} {outfile : String}
    {disk : Option (List UInt8)} {r : Result} (hfread : c.fread = p.content)
    (hapart : BuffersApart c m) (hr : Handles c outfile m disk r) (hzero : r.status = 0) :
    ∃ data, r.disk = some (writeFront (openCreate disk) data) ∧
      data.length = p.split.size + 4 ∧ (p.Decoded → data = header ++ p.expansion) := by
  obtain ⟨bytes, input, output, fuel, s, hready, hrun, hdisk⟩ := handles_zero hr hzero
  have hlong : 8 ≤ p.content.length := by
    rw [p.split.length_eq]
    omega
  have hloaded := loaded_of_ready hready (by rwa [hfread]) hapart
  rw [hfread] at hloaded hrun hdisk
  rw [hloaded.profileLen p.split] at hdisk
  refine ⟨_, hdisk, length_slice _ _ _, fun hdecoded => ?_⟩
  have hlen : (header ++ p.expansion).length = p.split.size + 4 := by
    rw [List.length_append, p.length_expansion]
    simp only [header, List.length_cons, List.length_nil]
    omega
  rcases Nat.lt_or_ge (p.content.length - 4) (2 ^ 31) with hint | hint
  · obtain ⟨fuel', s', hrun', hholds⟩ := unpack_of_tokens hloaded p.split hint p.encodes
      (rfl : output + 4 = output + (header.length : Int)) (holds_write _ _ _)
      (p.reaches.mono (Nat.zero_le _)) (Nat.le_of_eq p.fills)
    obtain ⟨-, rfl⟩ := unpack_unique hrun hrun'
    have hexpand := @expand_append_left (4 + p.split.field.bytes.length) header []
      p.tokens p.reaches
    rw [List.append_nil] at hexpand
    rw [hexpand] at hholds
    exact hholds.slice_of_length hlen
  · have hsize : p.split.size = 0 := by
      rcases hdecoded with hsmall | hsize
      · omega
      · exact hsize
    obtain ⟨fuel', s', hrun', hmem, -⟩ := unpack_of_long hloaded p.split hint
    obtain ⟨-, rfl⟩ := unpack_unique hrun hrun'
    have hnil : p.expansion = [] := by
      apply List.eq_nil_of_length_eq_zero
      rw [p.length_expansion, hsize]
    rw [hmem, hnil, List.append_nil, hsize]
    exact (holds_write _ _ _).slice_of_length rfl

/-- The whole outfile is the last profile, whatever run hands the profiles over. -/
def HoldsLast (disk : Option (List UInt8)) (ps : List Profile) (last : Profile) : Prop :=
  ∀ outfile calls disk', calls.map (fun x => x.1.fread) = (ps ++ [last]).map Profile.content →
    Run outfile disk calls disk' → disk' = some (header ++ last.expansion)

/-- The last profile is decoded, and neither the old file nor an earlier profile
is longer. -/
def CoveredByLast (disk : Option (List UInt8)) (ps : List Profile) (last : Profile) : Prop :=
  last.Decoded ∧ (openCreate disk).length ≤ last.split.size + 4 ∧
    ∀ p ∈ ps, p.split.size ≤ last.split.size

theorem Run.length_le {outfile : String} {ps : List Profile} {disk disk' : Option (List UInt8)}
    {calls : List (Calls × Mem)} {n : Nat}
    (hcalls : calls.map (fun x => x.1.fread) = ps.map Profile.content)
    (hrun : Run outfile disk calls disk') (hdisk : (openCreate disk).length ≤ n)
    (hps : ∀ p ∈ ps, p.split.size + 4 ≤ n) : (openCreate disk').length ≤ n := by
  induction hrun generalizing ps with
  | nil disk => exact hdisk
  | cons hr hzero hapart hrest ih =>
      cases ps with
      | nil => simp at hcalls
      | cons p ps =>
          simp only [List.map_cons, List.cons.injEq] at hcalls
          obtain ⟨data, hdata, hlen, -⟩ := p.written hcalls.1 hapart hr hzero
          refine ih hcalls.2 ?_ fun q hq => hps q (List.mem_cons_of_mem p hq)
          have := hps p List.mem_cons_self
          rw [hdata, openCreate_some, length_writeFront]
          omega

theorem CoveredByLast.holdsLast {disk : Option (List UInt8)} {ps : List Profile}
    {last : Profile} (h : CoveredByLast disk ps last) : HoldsLast disk ps last := by
  obtain ⟨hdecoded, hdisk, hps⟩ := h
  intro outfile calls disk' hcalls hrun
  rw [List.map_append] at hcalls
  obtain ⟨xs, ys, rfl, hxs, hys⟩ := List.map_eq_append_iff.mp hcalls
  obtain ⟨x, rfl, hx⟩ := List.map_eq_singleton_iff.mp hys
  obtain ⟨mid, hmid, hlast⟩ := run_append.mp hrun
  have hlen := hmid.length_le hxs hdisk fun p hp => Nat.add_le_add_right (hps p hp) 4
  cases hlast with
  | cons hr hzero hapart hrest =>
      cases hrest
      obtain ⟨data, hdata, hdatalen, hall⟩ := last.written hx hapart hr hzero
      rw [hdata, writeFront, List.drop_of_length_le (by omega), List.append_nil,
        hall hdecoded]

theorem Profile.loaded (p : Profile) (x : UInt8) :
    Loaded (write (fun _ => x) 0 p.content) 0 p.content.length
      (UInt32.ofNat p.content.length) p.content := by
  have hlong : 8 ≤ p.content.length := by
    rw [p.split.length_eq]
    omega
  exact ⟨holds_write _ _ _, by rw [UInt32.toNat_ofNat', Nat.mod_eq_of_lt p.length_lt], hlong,
    Or.inl (by omega)⟩

/-- From a memory full of `x` a profile that is not decoded lets `x` through. -/
theorem Profile.exists_unpack (p : Profile) (x : UInt8) :
    ∃ fuel s, unpack fuel (write (fun _ => x) 0 p.content) 0 p.content.length
        (UInt32.ofNat p.content.length) = (s, some 0) ∧
      (¬ p.Decoded → s.mem ((p.content.length : Int) + (4 : Nat)) = x) := by
  rcases Nat.lt_or_ge (p.content.length - 4) (2 ^ 31) with hint | hint
  · have hst : (Stream.mk p.tokens .done).bytes = p.split.rest := by
      rw [← p.encodes]
      exact List.append_nil _
    have hsize : (Stream.mk p.tokens .done).size = p.split.size := p.fills
    obtain ⟨fuel, s, i, hrun, -⟩ := unpack_of_stream (p.loaded x) p.split hint hst
    rw [hsize, if_pos (Nat.le_refl _)] at hrun
    exact ⟨fuel, s, hrun, fun hnot => absurd (Or.inl hint) hnot⟩
  · obtain ⟨fuel, s, hrun, hmem, -⟩ := unpack_of_long (p.loaded x) p.split hint
    refine ⟨fuel, s, hrun, fun _ => ?_⟩
    rw [hmem, unpackState_mem _ (by omega), write_of_outside _ (by omega)]

theorem Profile.exists_call (p : Profile) (outfile : String) (x : UInt8)
    (disk : Option (List UInt8)) :
    ∃ c r, c.fread = p.content ∧ BuffersApart c (fun _ => x) ∧
      Handles c outfile (fun _ => x) disk r ∧ r.status = 0 ∧
      (¬ p.Decoded → (openCreate r.disk)[4]? = some x) := by
  obtain ⟨fuel, s, hrun, hstale⟩ := p.exists_unpack x
  have hlen := (p.loaded x).profileLen p.split
  obtain ⟨r, hr, hzero⟩ := goodCalls_handles p.length_lt hlen hrun outfile disk
  refine ⟨_, r, rfl, goodCalls_apart (p.loaded x).apart, hr, hzero, fun hnot => ?_⟩
  have hsize : p.split.size ≠ 0 := fun hsize => hnot (Or.inr hsize)
  rw [goodCalls_written p.length_lt hrun hr hzero, hlen, openCreate_some,
    writeFront, List.getElem?_append_left (by rw [length_slice]; omega),
    getElem?_slice _ _ (by omega), hstale hnot]

theorem exists_run (outfile : String) (x : UInt8) (ps : List Profile)
    (disk : Option (List UInt8)) :
    ∃ calls disk', calls.map (fun y => y.1.fread) = ps.map Profile.content ∧
      Run outfile disk calls disk' ∧ (openCreate disk).length ≤ (openCreate disk').length ∧
      ∀ p ∈ ps, p.split.size + 4 ≤ (openCreate disk').length := by
  induction ps generalizing disk with
  | nil => exact ⟨[], disk, rfl, .nil disk, Nat.le_refl _, by simp⟩
  | cons p ps ih =>
      obtain ⟨c, r, hfread, hapart, hr, hzero, -⟩ := p.exists_call outfile x disk
      obtain ⟨data, hdata, hlen, -⟩ := p.written hfread hapart hr hzero
      obtain ⟨calls, disk', hcalls, hrun, hdisk, hps⟩ := ih r.disk
      have hfile : (openCreate r.disk).length = max data.length (openCreate disk).length := by
        rw [hdata, openCreate_some, length_writeFront]
      refine ⟨(c, fun _ => x) :: calls, disk', by simp [hfread, hcalls],
        .cons hr hzero hapart hrun, by omega, fun q hq => ?_⟩
      rcases List.mem_cons.mp hq with rfl | hq
      · omega
      · exact hps q hq

theorem HoldsLast.covered {disk : Option (List UInt8)} {ps : List Profile} {last : Profile}
    (h : HoldsLast disk ps last) : CoveredByLast disk ps last := by
  have hfinal : (header ++ last.expansion).length = last.split.size + 4 := by
    rw [List.length_append, last.length_expansion]
    simp only [header, List.length_cons, List.length_nil]
    omega
  have hstale : ¬ last.Decoded → ∀ x, (header ++ last.expansion)[4]? = some x := by
    intro hnot x
    obtain ⟨calls, mid, hcalls, hrun, -⟩ := exists_run "" x ps disk
    obtain ⟨c, r, hfread, hapart, hr, hzero, hx⟩ := last.exists_call "" x mid
    have hdisk := h "" (calls ++ [(c, fun _ => x)]) r.disk (by simp [hcalls, hfread])
      (run_append.mpr ⟨mid, hrun, .cons hr hzero hapart (.nil _)⟩)
    have := hx hnot
    rwa [hdisk] at this
  obtain ⟨calls, disk', hcalls, hrun, hdisk, hps⟩ := exists_run "" 0 (ps ++ [last]) disk
  rw [h "" calls disk' hcalls hrun, openCreate_some, hfinal] at hdisk hps
  refine ⟨?_, hdisk, fun p hp => ?_⟩
  · by_contra hnot
    have hzero := hstale hnot 0
    rw [hstale hnot 1] at hzero
    simp at hzero
  · have := hps p (List.mem_append_left _ hp)
    omega

/-- The outfile ends up as exactly the last profile when neither the old file nor
an earlier profile was longer, and in no other case: nothing truncates it. -/
theorem holdsLast_iff (disk : Option (List UInt8)) (ps : List Profile) (last : Profile) :
    HoldsLast disk ps last ↔ CoveredByLast disk ps last :=
  ⟨HoldsLast.covered, CoveredByLast.holdsLast⟩

/-- A profile that stands for the single byte `A`. -/
def shortProfile : Profile where
  content := [0x82, 0x29, 0x09, 0x00, 0x5a, 0x4c, 0x51, 0x49, 1, 1, 0x1a]
  split := ⟨[0x82, 0x29, 0x09, 0x00, 0x5a, 0x4c, 0x51, 0x49], .single 1 (by decide),
    [1, 0x1a], rfl, rfl⟩
  tokens := [.literal [0x1a] (by decide)]
  encodes := by decide
  reaches := by decide
  fills := by decide
  length_lt := by decide

theorem shortProfile_not_holdsLast : ¬ HoldsLast (some [1, 2, 3, 4, 5, 6]) [] shortProfile := by
  intro h
  have := h.covered.2.1
  contradiction

end Iqiq.OutFile
