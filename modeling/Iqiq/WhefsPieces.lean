import Iqiq.WhefsLives

namespace Iqiq.WhefsPieces

open Iqiq.BlockedFile
open Iqiq.FileStore
open Iqiq.FileStore.Store
open Iqiq.Simulation
open Iqiq.StoreEffects
open Iqiq.StoreInvariants
open Iqiq.StoreLives
open Iqiq.Whefs
open Iqiq.WhefsCensus
open Iqiq.WhefsChains
open Iqiq.WhefsDisk
open Iqiq.WhefsEncode
open Iqiq.WhefsFree
open Iqiq.WhefsLives
open Iqiq.WhefsMount
open Iqiq.WhefsOpened
open Iqiq.WhefsRuns
open Iqiq.WhefsSessions
open Iqiq.WhefsStore
open Iqiq.WhefsVolume
open Iqiq.WhefsWriting

def reads (key : Nat) (ns : List UInt32) : List Act :=
  ns.map fun n => .call (.read key n)

def writes (now : UInt32) (key : Nat) (srcs : List (List UInt8)) : List Act :=
  srcs.map fun src => .call (.write now key src)

section

variable {S : List UInt8 → Prop} {a : Archive} {s : Store} {key : Nat} {x : Handle}
  {f : FileState}

theorem key_of_handle (hx : s.handle key = some x) : x.key = key := by
  simpa using List.find?_some hx

theorem step_read (opt : Options) (hx : s.handle key = some x) (hf : s.files x.file = some f)
    (n : UInt32) : s.step opt (.read key n) =
      (.bytes (f.content.get x.pos n.toNat),
        s.setPos key (x.pos + (f.content.get x.pos n.toNat).length)) := by
  rw [step, withHandle_eq hx hf, Store.read, key_of_handle hx]

/-- Each read begins where the one before has come to. -/
theorem runAbs_reads (hx : a.store.handle key = some x) (hf : a.store.files x.file = some f)
    (ns : List UInt32) :
    Plays S a (reads key ns) ∧ ∃ pieces : List (List UInt8),
      (runAbs Archive.act a (reads key ns)).1 = pieces.map .bytes ∧
        pieces.flatten = f.content.get x.pos (ns.map UInt32.toNat).sum := by
  induction ns generalizing a x with
  | nil =>
      refine ⟨trivial, [], rfl, ?_⟩
      rw [Content.get, RecordTable.window]
      exact List.take_zero.symm
  | cons n ns ih =>
      have hstep := step_read a.opt hx hf n
      have hact : a.act (.call (.read key n)) = (.bytes (f.content.get x.pos n.toNat),
          { a with store :=
              a.store.setPos key (x.pos + (f.content.get x.pos n.toNat).length) }) := by
        rw [Archive.act, hstep]
      have hhandle := handle_setPos hx (x.pos + (f.content.get x.pos n.toNat).length)
      obtain ⟨hplays, pieces, hanswers, hflatten⟩ := @ih
        { a with store := a.store.setPos key (x.pos + (f.content.get x.pos n.toNat).length) }
        _ hhandle hf
      refine ⟨⟨?_, ?_⟩, f.content.get x.pos n.toNat :: pieces, ?_, ?_⟩
      · show (a.store.handle key).isSome = true
        rw [hx, Option.isSome_some]
      · rw [hact]
        exact hplays
      · show (runAbs Archive.act a (.call (.read key n) :: reads key ns)).1 = _
        rw [runAbs_cons, hact, List.map_cons, hanswers]
      · rw [List.flatten_cons, hflatten, List.map_cons, List.sum_cons]
        exact f.content.get_next x.pos n.toNat _

/-- What a write leaves, where it has taken `count` bytes. -/
def afterWrite (s : Store) (x : Handle) (f : FileState) (out : Written UInt8) : Store :=
  { (s.setFile x.file (some { f with content := out.content })).setPos x.key
      (x.pos + out.count) with
    free := out.free }

theorem step_write_eq (opt : Options) (hx : s.handle key = some x) (hf : s.files x.file = some f)
    (hrw : x.rw = true) (now : UInt32) (src : List UInt8) :
    s.step opt (.write now key src) =
      (.count (put opt.blockSize.toNat opt.blockCount.toNat 0 s.free f.content x.pos src).count,
        afterWrite s x f
          (put opt.blockSize.toNat opt.blockCount.toNat 0 s.free f.content x.pos src)) := by
  rw [step, withHandle_eq hx hf, Store.write, if_neg (not_not_intro hrw)]
  rfl

theorem handle_afterWrite (hx : s.handle key = some x) (out : Written UInt8) :
    (afterWrite s x f out).handle key = some { x with pos := x.pos + out.count } := by
  have hkey := key_of_handle hx
  subst hkey
  exact handle_setPos hx _

theorem files_afterWrite (s : Store) (x : Handle) (f : FileState) (out : Written UInt8) :
    (afterWrite s x f out).files x.file = some { f with content := out.content } :=
  Function.update_self ..

theorem afterWrite_afterWrite (s : Store) (x : Handle) (f : FileState) (out out' : Written UInt8) :
    afterWrite (afterWrite s x f out) { x with pos := x.pos + out.count }
        { f with content := out.content } out' =
      afterWrite s x f ⟨out.count + out'.count, out'.content, out'.free⟩ := by
  have hhandles : ∀ hs : List Handle,
      (hs.map fun h => if h.key = x.key then { h with pos := x.pos + out.count } else h).map
          (fun h => if h.key = x.key then { h with pos := x.pos + out.count + out'.count } else h) =
        hs.map fun h => if h.key = x.key then { h with pos := x.pos + (out.count + out'.count) }
          else h := by
    intro hs
    rw [List.map_map, ← Nat.add_assoc]
    apply List.map_congr_left
    intro h _
    rw [Function.comp_apply]
    by_cases hkey : h.key = x.key
    · rw [if_pos hkey, if_pos hkey, if_pos hkey]
    · rw [if_neg hkey, if_neg hkey]
  simp only [afterWrite, setFile, setPos, Function.update_idem, hhandles]

/-- There is room for `n` bytes at the position of a handle. -/
structure Fits (opt : Options) (s : Store) (x : Handle) (f : FileState) (held n : Nat) : Prop where
  room : f.content.room.length = held * opt.blockSize.toNat
  most : held + s.free ≤ opt.blockCount.toNat
  stop : x.pos + n ≤ (held + s.free) * opt.blockSize.toNat

/-- What a write leaves that takes all its bytes. -/
def written (opt : Options) (s : Store) (x : Handle) (f : FileState) (src : List UInt8) :
    Written UInt8 :=
  put opt.blockSize.toNat opt.blockCount.toNat 0 s.free f.content x.pos src

theorem Fits.count {opt : Options} {held : Nat} {src : List UInt8} (hopt : Formattable opt)
    (h : Fits opt s x f held src.length) : (written opt s x f src).count = src.length := by
  rcases eq_or_ne src [] with rfl | hne
  · rw [written, put_nil, List.length_nil]
  · rw [written, put_all (blockSize_ne_zero hopt) h.room h.most hne h.stop]

theorem Fits.rest {opt : Options} {held n : Nat} {src : List UInt8} (hopt : Formattable opt)
    (h : Fits opt s x f held (src.length + n)) : ∃ held',
      Fits opt (afterWrite s x f (written opt s x f src)) { x with pos := x.pos + src.length }
        { f with content := (written opt s x f src).content } held' n := by
  have hstop := h.stop
  obtain ⟨reach, hle, hmost, hlen, hfree⟩ := @put_room _ opt.blockSize.toNat opt.blockCount.toNat
    held s.free x.pos 0 f.content src (blockSize_ne_zero hopt) h.room
  have hsum : reach + (written opt s x f src).free = held + s.free := by
    rw [written, hfree]
    omega
  refine ⟨reach, hlen, ?_, ?_⟩
  · show reach + (written opt s x f src).free ≤ _
    rw [hsum]
    exact h.most
  · show x.pos + src.length + n ≤ (reach + (written opt s x f src).free) * _
    rw [hsum]
    omega

theorem afterWrite_append {opt : Options} {held : Nat} {src rest : List UInt8}
    (hopt : Formattable opt) (h : Fits opt s x f held (src.length + rest.length)) :
    afterWrite (afterWrite s x f (written opt s x f src))
        { x with pos := x.pos + src.length } { f with content := (written opt s x f src).content }
        (written opt (afterWrite s x f (written opt s x f src))
          { x with pos := x.pos + src.length }
          { f with content := (written opt s x f src).content } rest) =
      afterWrite s x f (written opt s x f (src ++ rest)) := by
  have hstop := h.stop
  have hfirst : Fits opt s x f held src.length := ⟨h.room, h.most, by omega⟩
  have hcount := hfirst.count hopt
  have htwice := afterWrite_afterWrite s x f (written opt s x f src)
    (written opt (afterWrite s x f (written opt s x f src)) { x with pos := x.pos + src.length }
      { f with content := (written opt s x f src).content } rest)
  rw [hcount] at htwice
  rw [htwice]
  congr 1
  rcases eq_or_ne src [] with rfl | hne
  · have hnil : written opt s x f [] = ⟨0, f.content, s.free⟩ := put_nil ..
    rw [hnil, List.length_nil, Nat.zero_add, List.nil_append]
    rfl
  · have happend := @put_append _ opt.blockSize.toNat opt.blockCount.toNat held s.free x.pos 0
      f.content src rest (blockSize_ne_zero hopt) h.room h.most hne (by omega)
    exact happend.symm

theorem length_flatten_cons (src : List UInt8) (srcs : List (List UInt8)) :
    (src :: srcs).flatten.length = src.length + srcs.flatten.length := by
  rw [List.flatten_cons, List.length_append]

/-- Pieces that are written one after the other leave what a write of all of them leaves. -/
theorem runAbs_writes {held : Nat} {srcs : List (List UInt8)} (hopt : Formattable a.opt)
    (hx : a.store.handle key = some x) (hf : a.store.files x.file = some f) (hrw : x.rw = true)
    (now : UInt32) (hsrcs : srcs ≠ []) (hlen : srcs.flatten.length < 2 ^ 32)
    (h : Fits a.opt a.store x f held srcs.flatten.length) :
    Plays S a (writes now key srcs) ∧ runAbs Archive.act a (writes now key srcs) =
      (srcs.map fun src => .count src.length,
        { a with store := afterWrite a.store x f (written a.opt a.store x f srcs.flatten) }) := by
  induction srcs generalizing a x f held with
  | nil => exact absurd rfl hsrcs
  | cons src srcs ih =>
      rw [length_flatten_cons] at hlen h
      have hstop := h.stop
      have hfirst : Fits a.opt a.store x f held src.length := ⟨h.room, h.most, by omega⟩
      have hact : a.act (.call (.write now key src)) = (.count src.length,
          { a with store := afterWrite a.store x f (written a.opt a.store x f src) }) := by
        rw [Archive.act, step_write_eq a.opt hx hf hrw]
        show (Answer.count (written a.opt a.store x f src).count, _) = _
        rw [hfirst.count hopt]
        rfl
      have hallowed : a.Allowed S (.call (.write now key src)) := by
        refine ⟨?_, by omega⟩
        rw [hx, Option.isSome_some]
      rcases eq_or_ne srcs [] with rfl | hne
      · refine ⟨⟨hallowed, trivial⟩, ?_⟩
        show runAbs Archive.act a [.call (.write now key src)] = _
        rw [runAbs_cons, hact, List.flatten_cons, List.flatten_nil, List.append_nil]
        rfl
      · obtain ⟨held', hrest⟩ := h.rest hopt
        have hhandle := @handle_afterWrite a.store key x f hx (written a.opt a.store x f src)
        rw [hfirst.count hopt] at hhandle
        obtain ⟨hplays, hrun⟩ := @ih
          { a with store := afterWrite a.store x f (written a.opt a.store x f src) } _ _ held'
          hopt hhandle (files_afterWrite ..) hrw hne (by omega) hrest
        refine ⟨⟨hallowed, ?_⟩, ?_⟩
        · rw [hact]
          exact hplays
        · show runAbs Archive.act a (.call (.write now key src) :: writes now key srcs) = _
          rw [runAbs_cons, hact]
          simp only
          rw [hrun, afterWrite_append hopt h]
          rfl

end

section

variable {S : List UInt8 → Prop} {opt : Options} {magic : List UInt8} {fuel : Nat}
  {acts : List Act} {key : Nat} {x : Handle}

theorem Lived.append {acts' : List Act} (h : Lived S opt magic fuel acts)
    (hplays : Plays S (fable opt acts).2 acts') : Lived S opt magic fuel (acts ++ acts') :=
  ⟨h.formattable, h.names, h.magic, h.fuel, allAllowed_append.mpr ⟨h.plays, hplays⟩⟩

/-- Reads, one after the other, deliver the pieces of what one read delivers that asks for as
many bytes. -/
theorem reads_in_pieces (h : Lived S opt magic fuel acts) (image : List UInt8)
    (hx : (fable opt acts).2.store.handle key = some x) {ns : List UInt32} {n : UInt32}
    (hn : n.toNat = (ns.map UInt32.toNat).sum) :
    ∃ (pieces : List (List UInt8)) (m m' : Mount),
      life fuel opt magic image (acts ++ reads key ns) =
          .ok ((fable opt acts).1 ++ pieces.map .bytes, m) ∧
        life fuel opt magic image (acts ++ [.call (.read key n)]) =
          .ok ((fable opt acts).1 ++ [.bytes pieces.flatten], m') := by
  obtain ⟨m₀, -, hopt, hm₀⟩ := h.holds image
  obtain ⟨⟨f, hf⟩, -⟩ := Stands.handle hm₀ hx
  obtain ⟨hplays, pieces, hanswers, hflatten⟩ := @runAbs_reads S _ _ _ _ hx hf ns
  obtain ⟨hplays', pieces', hanswers', hflatten'⟩ := @runAbs_reads S _ _ _ _ hx hf [n]
  obtain ⟨m, hlife, -⟩ := (Lived.append h hplays).holds image
  obtain ⟨m', hlife', -⟩ := (Lived.append h hplays').holds image
  have hone : pieces' = [pieces.flatten] := by
    have hlen := congrArg List.length hanswers'
    rw [List.length_map] at hlen
    obtain ⟨piece, rfl⟩ := List.length_eq_one_iff.mp hlen.symm
    rw [List.flatten_cons, List.flatten_nil, List.append_nil] at hflatten'
    have hsum : ([n].map UInt32.toNat).sum = n.toNat := Nat.add_zero _
    rw [hflatten', hflatten, hsum, hn]
  refine ⟨pieces, m, m', ?_, ?_⟩
  · rw [hlife, fable_append, hanswers]
  · show life fuel opt magic image (acts ++ reads key [n]) = _
    rw [hlife', fable_append, hanswers', hone]
    rfl

theorem reads_in_pieces_small : ∃ (pieces : List (List UInt8)) (m m' : Mount),
    life (2 ^ 32) smallOptions [0x21] [] ((opening ++ [writing]) ++ reads 1 [1, 2]) =
        .ok ((fable smallOptions (opening ++ [writing])).1 ++ pieces.map .bytes, m) ∧
      life (2 ^ 32) smallOptions [0x21] [] ((opening ++ [writing]) ++ [.call (.read 1 3)]) =
        .ok ((fable smallOptions (opening ++ [writing])).1 ++ [.bytes pieces.flatten], m') :=
  reads_in_pieces (x := ⟨1, 2, 3, true⟩) (lived_opening plays_writing) [] rfl rfl

/-- Bytes that a write takes as a whole can be written in pieces: what there is in the end is
the same. -/
theorem writes_in_pieces (h : Lived S opt magic fuel acts) (image : List UInt8)
    (hx : (fable opt acts).2.store.handle key = some x) (hrw : x.rw = true) {now : UInt32}
    {srcs : List (List UInt8)} (hne : srcs.flatten ≠ []) (hlen : srcs.flatten.length < 2 ^ 32)
    (hall : ((fable opt acts).2.act (.call (.write now key srcs.flatten))).1 =
      .count srcs.flatten.length) :
    ∃ (m m' : Mount) (s : Store),
      life fuel opt magic image (acts ++ writes now key srcs) =
          .ok ((fable opt acts).1 ++ srcs.map fun src => .count src.length, m) ∧
        life fuel opt magic image (acts ++ [.call (.write now key srcs.flatten)]) =
          .ok ((fable opt acts).1 ++ [.count srcs.flatten.length], m') ∧
        Stands (fable opt acts).2.opt S m s ∧ Stands (fable opt acts).2.opt S m' s := by
  obtain ⟨m₀, -, hopt, hm₀⟩ := h.holds image
  obtain ⟨⟨f, hf⟩, -⟩ := Stands.handle hm₀ hx
  have hid := (Stands.shaped hm₀).isFileId hx
  have hroom := (Stands.shaped hm₀).room hopt hid (contents_of_file hf)
  obtain ⟨v, hints, chains, htied⟩ := hm₀
  have hmost := held_add_free_le hopt htied hid (contents_of_file hf)
  rw [Archive.act, step_write_eq _ hx hf hrw] at hall
  have hstop := stop_le_of_count (blockSize_ne_zero hopt) hroom hne (Answer.count.inj hall)
  have hfits : Fits (fable opt acts).2.opt (fable opt acts).2.store x f _ srcs.flatten.length :=
    ⟨hroom, hmost, hstop⟩
  have hsrcs : srcs ≠ [] := by
    rintro rfl
    exact hne rfl
  have hone : [srcs.flatten].flatten = srcs.flatten := by
    rw [List.flatten_cons, List.flatten_nil, List.append_nil]
  obtain ⟨hplays, hrun⟩ := @runAbs_writes S _ _ _ _ _ _ hopt hx hf hrw now hsrcs hlen hfits
  obtain ⟨hplays', hrun'⟩ := @runAbs_writes S _ _ _ _ _ [srcs.flatten] hopt hx hf hrw now
    (List.cons_ne_nil _ _) (by rwa [hone]) (by rwa [hone])
  obtain ⟨m, hlife, -, hm⟩ := (Lived.append h hplays).holds image
  obtain ⟨m', hlife', -, hm'⟩ := (Lived.append h hplays').holds image
  rw [fable_append, hrun] at hlife hm
  rw [fable_append, hrun', hone] at hlife' hm'
  exact ⟨m, m', _, hlife, hlife', hm, hm'⟩

theorem writes_in_pieces_small : ∃ (m m' : Mount) (s : Store),
    life (2 ^ 32) smallOptions [0x21] [] (opening ++ writes 0 1 [[7], [], [8, 9]]) =
        .ok ([.opened true, .opened true, .count 11, .count 1, .count 0, .count 2], m) ∧
      life (2 ^ 32) smallOptions [0x21] [] (opening ++ [.call (.write 0 1 [7, 8, 9])]) =
        .ok ([.opened true, .opened true, .count 11, .count 3], m') ∧
      Stands smallOptions smallName m s ∧ Stands smallOptions smallName m' s := by
  have hne : [[7], [], [8, 9]].flatten ≠ ([] : List UInt8) := by decide
  exact writes_in_pieces (x := ⟨1, 2, 0, true⟩)
    ⟨formattable_small, hashNames_small, rfl, le_rfl, plays_opening⟩ [] rfl rfl hne (by decide) rfl

/-- A write that does not take all its bytes has come to the end of the file's blocks, and
there is no block left for it, or it begins behind all blocks that there can be. -/
theorem short_write {now : UInt32} {src : List UInt8} {k : Nat}
    (h : Lived S opt magic fuel (acts ++ [.call (.write now key src)])) (image : List UInt8)
    (hx : (fable opt acts).2.store.handle key = some x) (hrw : x.rw = true)
    (hcount : ((fable opt acts).2.act (.call (.write now key src))).1 = .count k)
    (hshort : k < src.length) :
    ∃ (answers : List Answer) (m : Mount) (v : Volume (fable opt acts).2.opt) (hints : Hints)
        (chains : UInt32 → List UInt32),
      life fuel opt magic image (acts ++ [.call (.write now key src)]) =
          .ok (answers ++ [.count k], m) ∧
        m.disk = disk v hints ∧ Chained v chains ∧
        (chains x.file).length * (fable opt acts).2.opt.blockSize.toNat ≤ x.pos + k ∧
        (freeIds v = [] ∨ (fable opt acts).2.opt.blockCount.toNat *
          (fable opt acts).2.opt.blockSize.toNat ≤ x.pos) := by
  obtain ⟨hbefore, m₀, hopt, hm₀⟩ := h.part
  obtain ⟨⟨f, hf⟩, -⟩ := Stands.handle hm₀ hx
  have hid := (Stands.shaped hm₀).isFileId hx
  have hroom := (Stands.shaped hm₀).room hopt hid (contents_of_file hf)
  obtain ⟨v₀, hints₀, chains₀, htied₀⟩ := hm₀
  have hmost := held_add_free_le hopt htied₀ hid (contents_of_file hf)
  have hbs := blockSize_ne_zero hopt
  have hstep := step_write_eq (fable opt acts).2.opt hx hf hrw now src
  rw [Archive.act, hstep] at hcount
  obtain rfl := Answer.count.inj hcount
  obtain ⟨hend, hfull⟩ := short_put hbs hroom hmost hshort
  have hrun : runAbs Archive.act (fable opt acts).2 [.call (.write now key src)] =
      ([.count (written (fable opt acts).2.opt (fable opt acts).2.store x f src).count],
        ⟨(fable opt acts).2.opt, afterWrite (fable opt acts).2.store x f
          (written (fable opt acts).2.opt (fable opt acts).2.store x f src)⟩) := by
    rw [runAbs_cons, Archive.act, hstep]
    rfl
  obtain ⟨m, hlife, -, hm⟩ := h.holds image
  rw [fable_append, hrun] at hlife hm
  obtain ⟨v, hints, chains, htied⟩ := hm
  have hafter := contents_of_file
    (files_afterWrite (fable opt acts).2.store x f
      (written (fable opt acts).2.opt (fable opt acts).2.store x f src))
  have hlength : (chains x.file).length * (fable opt acts).2.opt.blockSize.toNat =
      (written (fable opt acts).2.opt (fable opt acts).2.store x f src).content.room.length := by
    have hheld := heldIn_eq hopt htied hid
    rw [heldIn, hafter, Option.elim_some] at hheld
    obtain ⟨n, hn⟩ := (Stands.shaped ⟨v, hints, chains, htied⟩).whole x.file hid _ hafter
    rw [held_of_room hopt hn] at hheld
    rw [← hheld]
    exact hn.symm
  refine ⟨_, m, v, hints, chains, hlife, htied.disk, htied.formed.chained, ?_, ?_⟩
  · rw [hlength]
    exact hend
  · apply hfull.imp_left
    intro hfree
    exact List.length_eq_zero_iff.mp (htied.free.symm.trans hfree)

theorem short_write_small : ∃ (answers : List Answer) (m : Mount) (v : Volume smallOptions)
    (hints : Hints) (chains : UInt32 → List UInt32),
    life (2 ^ 32) smallOptions [0x21] []
        (opening ++ [.call (.write 0 1 (List.replicate 100 5))]) =
      .ok (answers ++ [.count 96], m) ∧
      m.disk = disk v hints ∧ Chained v chains ∧ (chains 2).length * 32 ≤ 0 + 96 ∧
      (freeIds v = [] ∨ 4 * 32 ≤ 0) := by
  have hplays : Plays smallName (fable smallOptions opening).2
      [.call (.write 0 1 (List.replicate 100 5))] :=
    ⟨⟨rfl, by decide⟩, trivial⟩
  exact short_write (x := ⟨1, 2, 0, true⟩) (lived_opening hplays) [] rfl rfl rfl (by decide)

end

end Iqiq.WhefsPieces
