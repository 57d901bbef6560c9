import Iqiq.WhefsPieces

namespace Iqiq.WhefsContents

open Iqiq.BlockedFile
open Iqiq.FileStore
open Iqiq.FileStore.Store
open Iqiq.RecordTable
open Iqiq.ScannedStore
open Iqiq.Simulation
open Iqiq.StoreEffects
open Iqiq.StoreInvariants
open Iqiq.StoreLives
open Iqiq.Whefs
open Iqiq.WhefsCensus
open Iqiq.WhefsLives
open Iqiq.WhefsMount
open Iqiq.WhefsOpened
open Iqiq.WhefsPieces
open Iqiq.WhefsRuns
open Iqiq.WhefsSessions
open Iqiq.WhefsStore
open Iqiq.WhefsTruncate
open Iqiq.WhefsVolume

/-- What `whio_dev_inode_trunc` to `n` bytes leaves of a file of `bytes`. The block of the last
byte that stays is wiped from `n % bs` on, which is all of it where `n` is a multiple of `bs`. -/
def truncated (bs : Nat) (bytes : List UInt8) (n : Nat) : List UInt8 :=
  if bytes.length < n then bytes ++ List.replicate (n - bytes.length) 0
  else if n < bytes.length then
    bytes.take ((n - 1) / bs * bs + n % bs) ++
      List.replicate (n - ((n - 1) / bs * bs + n % bs)) 0
  else bytes

section

variable {bs n : Nat} {bytes : List UInt8}

theorem stop_of_mod_ne (hbs : 0 < bs) (h : n % bs ≠ 0) : (n - 1) / bs * bs + n % bs = n := by
  have hdiv := Nat.div_add_mod' n bs
  have hlt := Nat.mod_lt n hbs
  have hsame : (n - 1) / bs = n / bs := by
    apply Nat.div_eq_of_lt_le
    · omega
    · rw [Nat.add_mul]
      omega
  rw [hsame, hdiv]

theorem stop_of_mod_eq (hbs : 0 < bs) (hn : 0 < n) (h : n % bs = 0) :
    (n - 1) / bs * bs + n % bs = n - bs := by
  have hdiv := Nat.div_add_mod' n bs
  have hle : bs ≤ n := Nat.le_of_dvd hn (Nat.dvd_of_mod_eq_zero h)
  have hsame : (n - 1) / bs = n / bs - 1 := by
    apply Nat.div_eq_of_lt_le
    · rw [Nat.sub_mul]
      omega
    · rw [Nat.sub_add_cancel (Nat.div_pos hle hbs)]
      omega
  rw [hsame, Nat.sub_mul, h]
  omega

theorem truncated_eq_take_iff (hbs : 0 < bs) (hn : n < bytes.length) :
    truncated bs bytes n = bytes.take n ↔
      n % bs ≠ 0 ∨ (bytes.take n).drop (n - bs) = List.replicate (min n bs) 0 := by
  rw [truncated, if_neg (Nat.not_lt.mpr hn.le), if_pos hn]
  by_cases hmod : n % bs = 0
  · have hstop : (n - 1) / bs * bs + n % bs = n - bs := by
      rcases Nat.eq_zero_or_pos n with rfl | hpos
      · rw [Nat.zero_mod, Nat.zero_sub, Nat.zero_sub, Nat.zero_div, Nat.zero_mul]
      · exact stop_of_mod_eq hbs hpos hmod
    have hmin : n - (n - bs) = min n bs := by omega
    rw [or_iff_right (not_not_intro hmod)]
    simp only [hstop, hmin]
    constructor
    · intro h
      rw [← h]
      exact List.drop_left' (List.length_take_of_le (by omega))
    · intro h
      have hfirst : bytes.take (n - bs) = (bytes.take n).take (n - bs) := by
        rw [List.take_take, Nat.min_eq_left (Nat.sub_le n bs)]
      rw [← h, hfirst]
      exact List.take_append_drop ..
  · apply iff_of_true _ (Or.inl hmod)
    simp only [stop_of_mod_ne hbs hmod, Nat.sub_self, List.replicate_zero, List.append_nil]

end

/-- What a write of `src` at `pos` leaves of a file of `bytes`. -/
def overwritten (bytes : List UInt8) (pos : Nat) (src : List UInt8) : List UInt8 :=
  if src = [] then bytes else overwrite (bytes ++ List.replicate (pos - bytes.length) 0) pos src

section

variable {opt : Options} {S : List UInt8 → Prop} {s : Store} {x : Handle} {f : FileState}
  {key : Nat} {len : Int}

theorem length_bytesOf {c : Content UInt8} (hback : c.size ≤ c.room.length) :
    (bytesOf c).length = c.size :=
  List.length_take_of_le hback

theorem bytesOf_put_none {bs total held free pos : Nat} {c : Content UInt8} {src : List UInt8}
    (hbs : 0 < bs) (hroom : c.room.length = held * bs) (hback : c.size ≤ c.room.length)
    (hnone : (put bs total 0 free c pos src).count = 0) :
    bytesOf (put bs total 0 free c pos src).content = bytesOf c := by
  obtain ⟨reach, hheld, -, hlen, -⟩ := @put_room _ bs total held free pos 0 c src hbs hroom
  have hle : c.room.length ≤ (put bs total 0 free c pos src).content.room.length := by
    rw [hlen, hroom]
    exact Nat.mul_le_mul_right _ hheld
  rw [bytesOf, bytesOf, size_put hbs hroom, if_pos hnone]
  apply List.ext_getElem?
  intro i
  rcases Nat.lt_or_ge i c.size with hi | hi
  · rw [List.getElem?_take_of_lt hi, List.getElem?_take_of_lt hi,
      getElem?_put hbs hroom (by omega), if_neg (by omega),
      List.getElem?_eq_getElem (by omega : i < c.room.length), Option.getD_some]
  · have hend : ∀ xs : List UInt8, (xs.take c.size).length ≤ i := fun xs =>
      (List.length_take_le c.size xs).trans hi
    rw [List.getElem?_eq_none (hend _), List.getElem?_eq_none (hend _)]

theorem bytesOf_put {bs total held free pos : Nat} {c : Content UInt8} {src : List UInt8}
    (hbs : 0 < bs) (hroom : c.room.length = held * bs) (hclean : c.Clean 0)
    (hback : c.size ≤ c.room.length) :
    bytesOf (put bs total 0 free c pos src).content =
      overwritten (bytesOf c) pos (src.take (put bs total 0 free c pos src).count) := by
  have hle := @count_put_le _ bs total held free pos 0 c src hbs hroom
  rcases Nat.eq_zero_or_pos (put bs total 0 free c pos src).count with hnone | hsome
  · rw [bytesOf_put_none hbs hroom hback hnone, hnone, List.take_zero, overwritten, if_pos rfl]
  · have hne : ¬ src.take (put bs total 0 free c pos src).count = [] := by
      intro hnil
      have hlen := congrArg List.length hnil
      rw [List.length_take_of_le hle, List.length_nil] at hlen
      omega
    rw [overwritten, if_neg hne, length_bytesOf hback]
    exact take_put hbs hroom hclean hback hsome.ne'

theorem trunc_same (hrw : x.rw = true) (hoff : (UInt32.ofNat len.toNat).toNat = len.toNat)
    (hlen : 0 ≤ len) (h : len.toNat = f.content.size) :
    s.trunc opt x f len = (.code (.of .ok), s) := by
  rw [Store.trunc, if_neg (by omega), if_neg (not_not_intro hrw), hoff, if_pos h]

theorem trunc_nothing (hrw : x.rw = true) (h : 0 < f.content.size) :
    s.trunc opt x f 0 = (.code (.of .ok),
      s.setFile x.file (some { f with stored := 0, content := ⟨0, []⟩ })) := by
  have hne : ¬ (UInt32.ofNat (0 : Int).toNat).toNat = f.content.size := h.ne
  rw [Store.trunc, if_neg (by omega), if_neg (not_not_intro hrw), if_neg hne, if_pos rfl]

theorem trunc_more (hrw : x.rw = true) (hoff : (UInt32.ofNat len.toNat).toNat = len.toNat)
    (h : f.content.size < len.toNat) :
    s.trunc opt x f len =
      (.code (growCode opt (held opt f.content + s.free) (UInt32.ofNat len.toNat)),
        { s.setFile x.file (some { f with
            stored := len.toNat
            content := (enlarge opt.blockSize.toNat opt.blockCount.toNat 0 s.free f.content
              len.toNat).1 }) with
          free := (enlarge opt.blockSize.toNat opt.blockCount.toNat 0 s.free f.content
            len.toNat).2 }) := by
  rw [Store.trunc, if_neg (by omega), if_neg (not_not_intro hrw), hoff, if_neg (by omega),
    if_neg (by omega), if_pos h]

theorem trunc_less (hrw : x.rw = true) (hoff : (UInt32.ofNat len.toNat).toNat = len.toNat)
    (hpos : 0 < len) (h : len.toNat < f.content.size) :
    s.trunc opt x f len = (.code (.of .ok),
      { s.setFile x.file (some { f with
          stored := len.toNat
          content := cut opt.blockSize.toNat 0 f.content len.toNat
            ((len.toNat - 1) / opt.blockSize.toNat + 1)
            ((len.toNat - 1) / opt.blockSize.toNat * opt.blockSize.toNat +
              len.toNat % opt.blockSize.toNat) }) with
        free := s.free + (held opt f.content - ((len.toNat - 1) / opt.blockSize.toNat + 1)) }) := by
  rw [Store.trunc, if_neg (by omega), if_neg (not_not_intro hrw), hoff, if_neg (by omega),
    if_neg (by omega), if_neg (by omega)]

theorem truncated_zero (bs : Nat) {bytes : List UInt8} (h : 0 < bytes.length) :
    truncated bs bytes 0 = [] := by
  rw [truncated, if_neg (Nat.not_lt_zero _), if_pos h, Nat.zero_mod, Nat.zero_sub, Nat.zero_div,
    Nat.zero_mul]
  rfl

/-- A truncation that there is room for leaves what `truncated` says. -/
theorem step_trunc (hopt : Formattable opt) (hs : Shaped opt s) (hx : s.handle key = some x)
    (hf : s.files x.file = some f) (hrw : x.rw = true) (hclean : f.content.Clean 0)
    (hback : f.content.size ≤ f.content.room.length) (hallowed : s.Allowed opt S (.trunc key len))
    (hgranted : Granted opt s (.trunc key len)) (hlen : 0 ≤ len) :
    ∃ c, (s.step opt (.trunc key len)).1 = .code (.of .ok) ∧
      contents (s.step opt (.trunc key len)).2 x.file = some c ∧
      (s.step opt (.trunc key len)).2.handles = s.handles ∧
      bytesOf c = truncated opt.blockSize.toNat (bytesOf f.content) len.toNat := by
  have hbs := blockSize_ne_zero hopt
  have hroom := hs.room hopt (hs.isFileId hx) (contents_of_file hf)
  have hlong := length_bytesOf hback
  have hsize : sizeTo len = len.toNat := by
    obtain ⟨hbound, -⟩ := hallowed.2 x f hx hf
    apply UInt32.toNat_ofNat_of_lt'
    change _ < 2 ^ 32
    omega
  have hcall : s.step opt (.trunc key len) = s.trunc opt x f len := by
    rw [step, withHandle_eq hx hf]
  rcases lt_trichotomy f.content.size len.toNat with hgrow | hsame | hshrink
  · obtain ⟨htotal, havail⟩ := granted_enlarged hgranted hx (contents_of_file hf) hrw (by omega)
      (by omega)
    rw [hsize] at htotal havail
    have hcode : growCode opt (held opt f.content + s.free) (UInt32.ofNat len.toNat) =
        .of .ok := by
      have hoff : (UInt32.ofNat len.toNat).toNat = len.toNat := hsize
      rw [growCode, hoff, if_neg (by omega), if_neg (by omega)]
    have hback' := @backed_enlarge _ _ _ s.free len.toNat f.content hbs hroom (by omega) htotal
      havail
    have hsize' : (enlarge opt.blockSize.toNat opt.blockCount.toNat 0 s.free f.content
        len.toNat).1.size = len.toNat := by
      rw [enlarge]
      split <;> rfl
    rw [hcall, trunc_more hrw hsize hgrow, hcode]
    refine ⟨_, rfl, contents_of_file (Function.update_self ..), rfl, ?_⟩
    rw [bytesOf, hsize', take_enlarge hbs hroom hclean hback hgrow htotal hback', truncated, hlong,
      if_pos hgrow, bytesOf]
  · rw [hcall, trunc_same hrw hsize hlen hsame.symm]
    refine ⟨_, rfl, contents_of_file hf, rfl, ?_⟩
    rw [truncated, hlong, if_neg (by omega), if_neg (by omega)]
  · rcases hlen.eq_or_lt with rfl | hpos
    · have hsome : 0 < f.content.size := hshrink
      rw [hcall, trunc_nothing hrw hsome]
      refine ⟨_, rfl, contents_of_file (Function.update_self ..), rfl, ?_⟩
      exact (truncated_zero _ (by omega)).symm
    · have hkeep := keep_le_held hallowed hx (contents_of_file hf) hpos (by omega)
      have hstop := stop_le_size opt.blockSize.toNat len.toNat
      rw [hcall, trunc_less hrw hsize hpos hshrink]
      refine ⟨_, rfl, contents_of_file (Function.update_self ..), rfl, ?_⟩
      have htake := @take_cut _ opt.blockSize.toNat 0 f.content len.toNat
        ((len.toNat - 1) / opt.blockSize.toNat + 1) _ hstop (le_last_block hbs _) hshrink.le
        (by omega)
      rw [truncated, hlong, if_neg (by omega), if_pos hshrink]
      exact htake

end

/-- A read from the start of a file. -/
def look (key : Nat) (n : UInt32) : List Act :=
  [.call (.seek key 0 .seekSet), .call (.read key n)]

section

variable {S : List UInt8 → Prop} {opt : Options} {magic : List UInt8} {fuel : Nat}
  {acts : List Act} {a : Archive} {c : Content UInt8} {key : Nat} {x : Handle} {len : Int}

theorem runAbs_look (hx : a.store.handle key = some x) (hc : contents a.store x.file = some c)
    (n : UInt32) : Plays S a (look key n) ∧ (runAbs Archive.act a (look key n)).1 =
      [.position (some 0), .bytes ((bytesOf c).take n.toNat)] := by
  obtain ⟨f, hf, -⟩ := exists_file hc
  obtain ⟨hseek, hread⟩ := @seek_read a.opt _ _ _ _ hx hc 0 (by decide) n
  have hthere := handle_setPos hx 0
  have hmoved := @step_seek a.opt _ _ _ _ hx hf 0 (by decide)
  refine ⟨⟨?_, ?_, trivial⟩, ?_⟩
  · show (a.store.handle key).isSome = true
    rw [hx, Option.isSome_some]
  · show ((a.store.step a.opt (.seek key 0 .seekSet)).2.handle key).isSome = true
    rw [show (0 : Int) = ((0 : Nat) : Int) from rfl, hmoved, hthere, Option.isSome_some]
  · rw [look, runAbs_cons, runAbs_cons, runAbs]
    exact congrArg₂ (fun p b => [p, b]) hseek hread

theorem length_bytesOf_lt {m : Mount} {s : Store} {id : UInt32} (hopt : Formattable opt)
    (hm : Stands opt S m s) (hid : IsFileId opt id) (hc : contents s id = some c) :
    (bytesOf c).length < 2 ^ 32 - 1 := by
  have hroom := (Stands.shaped hm).room hopt hid hc
  obtain ⟨v, hints, chains, htied⟩ := hm
  have hmost := held_add_free_le hopt htied hid hc
  have hle : c.room.length ≤ opt.blockCount.toNat * blockWidth opt := by
    rw [hroom]
    apply Nat.mul_le_mul
    · omega
    · exact Nat.le_add_left _ _
  have hfits := hopt.fits
  have htake := List.length_take_le' c.size c.room
  rw [totalSize, blocksStart, inodesStart, headerSize] at hfits
  rw [bytesOf]
  omega

/-- What a file holds before a call, and after it. -/
theorem look_after {op : Op} {answer : Answer} {x' : Handle} {c' : Content UInt8}
    (h : Lived S opt magic fuel (acts ++ [.call op])) (image : List UInt8)
    (hx : (fable opt acts).2.store.handle key = some x)
    (hc : contents (fable opt acts).2.store x.file = some c)
    (hanswer : ((fable opt acts).2.store.step (fable opt acts).2.opt op).1 = answer)
    (hx' : ((fable opt acts).2.store.step (fable opt acts).2.opt op).2.handle key = some x')
    (hfile : x'.file = x.file)
    (hc' : contents ((fable opt acts).2.store.step (fable opt acts).2.opt op).2 x.file = some c')
    (n : UInt32) :
    ∃ m m', life fuel opt magic image (acts ++ look key 0xffffffff) =
          .ok ((fable opt acts).1 ++ [.position (some 0), .bytes (bytesOf c)], m) ∧
        life fuel opt magic image ((acts ++ [.call op]) ++ look key n) =
          .ok ((fable opt acts).1 ++ [answer, .position (some 0),
            .bytes ((bytesOf c').take n.toNat)], m') := by
  obtain ⟨hbefore, m₀, hopt, hm₀⟩ := h.part
  have hid := (Stands.shaped hm₀).isFileId hx
  have hcall : fable opt (acts ++ [.call op]) = ((fable opt acts).1 ++ [answer],
      ⟨(fable opt acts).2.opt, ((fable opt acts).2.store.step (fable opt acts).2.opt op).2⟩) := by
    rw [fable_append, runAbs_cons, Archive.act, hanswer]
    rfl
  have hthere : (fable opt (acts ++ [.call op])).2.store.handle key = some x' := by
    rw [hcall]
    exact hx'
  have hholds : contents (fable opt (acts ++ [.call op])).2.store x'.file = some c' := by
    rw [hcall, hfile]
    exact hc'
  obtain ⟨hplays, hlooks⟩ := runAbs_look (S := S) hx hc 0xffffffff
  obtain ⟨hplays', hlooks'⟩ := runAbs_look (S := S) hthere hholds n
  obtain ⟨m, hlife, -⟩ := (Lived.append hbefore hplays).holds image
  obtain ⟨m', hlife', -⟩ := (Lived.append h hplays').holds image
  have hwhole : (bytesOf c).take (0xffffffff : UInt32).toNat = bytesOf c :=
    List.take_of_length_le (length_bytesOf_lt hopt hm₀ hid hc).le
  refine ⟨m, m', ?_, ?_⟩
  · rw [hlife, fable_append, hlooks, hwhole]
  · rw [hlife', fable_append, hlooks', hcall, List.append_assoc]
    rfl

/-- What is read after a truncation that there has been room for. A file that shrinks keeps its
first bytes unless its new end is the end of a block that is not blank. -/
theorem trunc_look (h : Lived S opt magic fuel (acts ++ [.call (.trunc key len)]))
    (image : List UInt8) (hx : (fable opt acts).2.store.handle key = some x) (hrw : x.rw = true)
    (hlen : 0 ≤ len)
    (hgranted : AllAllowed GrantedAct Archive.act ⟨opt, emptyStore opt⟩
      (acts ++ [.call (.trunc key len)])) (n : UInt32) :
    ∃ (whole kept : List UInt8) (m m' : Mount),
      life fuel opt magic image (acts ++ look key 0xffffffff) =
          .ok ((fable opt acts).1 ++ [.position (some 0), .bytes whole], m) ∧
        life fuel opt magic image ((acts ++ [.call (.trunc key len)]) ++ look key n) =
          .ok ((fable opt acts).1 ++ [.code (.of .ok), .position (some 0),
            .bytes (kept.take n.toNat)], m') ∧
        kept = truncated (fable opt acts).2.opt.blockSize.toNat whole len.toNat ∧
        (len.toNat < whole.length → (kept = whole.take len.toNat ↔
          len.toNat % (fable opt acts).2.opt.blockSize.toNat ≠ 0 ∨
            (whole.take len.toNat).drop (len.toNat - (fable opt acts).2.opt.blockSize.toNat) =
              List.replicate (min len.toNat (fable opt acts).2.opt.blockSize.toNat) 0)) := by
  obtain ⟨hbefore, m₀, hopt, hm₀⟩ := h.part
  obtain ⟨⟨f, hf⟩, -⟩ := Stands.handle hm₀ hx
  have hs := Stands.shaped hm₀
  have hid := hs.isFileId hx
  have hc := contents_of_file hf
  obtain ⟨hgranted', hlast⟩ := allAllowed_append.mp hgranted
  have hclean := clean_run h.names h.mounted (every_emptyStore opt _) hbefore.plays x.file hid _ hc
  have hback := backed_run h.names h.mounted (every_emptyStore opt _) hbefore.plays hgranted'
    x.file hid _ hc
  have hallowed : (fable opt acts).2.store.Allowed (fable opt acts).2.opt S (.trunc key len) :=
    (allAllowed_append.mp h.plays).2.1
  obtain ⟨c, hanswer, hcontents, hhandles, hbytes⟩ :=
    step_trunc hopt hs hx hf hrw hclean hback hallowed hlast.1 hlen
  have hx' : ((fable opt acts).2.store.step (fable opt acts).2.opt (.trunc key len)).2.handle key =
      some x := by
    rw [handle, hhandles]
    exact hx
  obtain ⟨m, m', hlife, hlife'⟩ := look_after h image hx hc hanswer hx' rfl hcontents n
  refine ⟨bytesOf f.content, bytesOf c, m, m', hlife, hlife', hbytes, ?_⟩
  rw [hbytes]
  exact truncated_eq_take_iff (blockSize_ne_zero hopt)

/-- Forty bytes in blocks of 32. -/
def filling : Act :=
  .call (.write 0 1 (List.replicate 40 5))

theorem trunc_look_small : ∃ (whole kept : List UInt8) (m m' : Mount),
    life (2 ^ 32) smallOptions [0x21] [] ((opening ++ [filling]) ++ look 1 0xffffffff) =
        .ok ([.opened true, .opened true, .count 11, .count 40, .position (some 0), .bytes whole],
          m) ∧
      life (2 ^ 32) smallOptions [0x21] []
          (((opening ++ [filling]) ++ [.call (.trunc 1 32)]) ++ look 1 2) =
        .ok ([.opened true, .opened true, .count 11, .count 40, .code (.of .ok), .position (some 0),
          .bytes (kept.take 2)], m') ∧
      kept = truncated 32 whole 32 ∧
      (32 < whole.length → (kept = whole.take 32 ↔
        32 % 32 ≠ 0 ∨ (whole.take 32).drop (32 - 32) = List.replicate 32 0)) := by
  have hplays : Plays smallName (fable smallOptions opening).2
      ([filling] ++ [.call (.trunc 1 32)]) := by
    refine ⟨⟨rfl, by decide⟩, ⟨rfl, ?_⟩, trivial⟩
    rintro h f ⟨⟩ ⟨⟩
    exact ⟨by decide, fun _ _ => Or.inl (by decide)⟩
  have hgranted : AllAllowed GrantedAct Archive.act ⟨smallOptions, emptyStore smallOptions⟩
      (opening ++ ([filling] ++ [.call (.trunc 1 32)])) := by
    refine allAllowed_append.mpr ⟨granted_opening, ?_, ?_, trivial⟩
    · rintro key len ⟨⟩
    · rintro key len ⟨⟩
      exact ⟨by decide, by decide⟩
  have hlived := lived_opening hplays
  rw [← List.append_assoc] at hlived hgranted
  exact trunc_look (x := ⟨1, 2, 40, true⟩) hlived [] rfl rfl (by decide) hgranted 2

/-- What is read after a write: the bytes that it has taken stand over what there was, or behind
it, and a gap before them is filled with zeros. -/
theorem write_look {now : UInt32} {src : List UInt8} {k : Nat}
    (h : Lived S opt magic fuel (acts ++ [.call (.write now key src)])) (image : List UInt8)
    (hx : (fable opt acts).2.store.handle key = some x) (hrw : x.rw = true)
    (hcount : ((fable opt acts).2.act (.call (.write now key src))).1 = .count k)
    (hgranted : AllAllowed GrantedAct Archive.act ⟨opt, emptyStore opt⟩ acts) (n : UInt32) :
    ∃ (whole : List UInt8) (m m' : Mount),
      life fuel opt magic image (acts ++ look key 0xffffffff) =
          .ok ((fable opt acts).1 ++ [.position (some 0), .bytes whole], m) ∧
        life fuel opt magic image ((acts ++ [.call (.write now key src)]) ++ look key n) =
          .ok ((fable opt acts).1 ++ [.count k, .position (some 0),
            .bytes ((overwritten whole x.pos (src.take k)).take n.toNat)], m') := by
  obtain ⟨hbefore, m₀, hopt, hm₀⟩ := h.part
  obtain ⟨⟨f, hf⟩, -⟩ := Stands.handle hm₀ hx
  have hid := (Stands.shaped hm₀).isFileId hx
  have hc := contents_of_file hf
  have hroom := (Stands.shaped hm₀).room hopt hid hc
  have hclean := clean_run h.names h.mounted (every_emptyStore opt _) hbefore.plays x.file hid _ hc
  have hback := backed_run h.names h.mounted (every_emptyStore opt _) hbefore.plays hgranted
    x.file hid _ hc
  have hstep := step_write_eq (fable opt acts).2.opt hx hf hrw now src
  have hanswer : ((fable opt acts).2.store.step (fable opt acts).2.opt (.write now key src)).1 =
      .count k := hcount
  have hx' : ((fable opt acts).2.store.step (fable opt acts).2.opt (.write now key src)).2.handle
      key = some { x with pos := x.pos + k } := by
    rw [hstep] at hanswer ⊢
    rw [← Answer.count.inj hanswer]
    exact handle_afterWrite hx _
  have hc' : contents ((fable opt acts).2.store.step (fable opt acts).2.opt
      (.write now key src)).2 x.file =
        some (written (fable opt acts).2.opt (fable opt acts).2.store x f src).content := by
    rw [hstep]
    exact contents_of_file (files_afterWrite ..)
  have hbytes := @bytesOf_put _ (fable opt acts).2.opt.blockCount.toNat _
    (fable opt acts).2.store.free x.pos _ src (blockSize_ne_zero hopt) hroom hclean hback
  obtain ⟨m, m', hlife, hlife'⟩ := look_after h image hx hc hanswer hx' rfl hc' n
  rw [hstep] at hanswer
  rw [Answer.count.inj hanswer] at hbytes
  refine ⟨bytesOf f.content, m, m', hlife, ?_⟩
  rw [hlife', written, hbytes]

theorem write_look_small : ∃ (whole : List UInt8) (m m' : Mount),
    life (2 ^ 32) smallOptions [0x21] []
        ((opening ++ [writing, .call (.seek 1 5 .seekSet)]) ++ look 1 0xffffffff) =
        .ok ([.opened true, .opened true, .count 11, .count 3, .position (some 5),
          .position (some 0), .bytes whole], m) ∧
      life (2 ^ 32) smallOptions [0x21] []
          (((opening ++ [writing, .call (.seek 1 5 .seekSet)]) ++ [.call (.write 0 1 [4])]) ++
            look 1 9) =
        .ok ([.opened true, .opened true, .count 11, .count 3, .position (some 5), .count 1,
          .position (some 0), .bytes ((overwritten whole 5 [4]).take 9)], m') := by
  have hplays : Plays smallName (fable smallOptions opening).2
      ([writing, .call (.seek 1 5 .seekSet)] ++ [.call (.write 0 1 [4])]) :=
    ⟨⟨rfl, by decide⟩, rfl, ⟨rfl, by decide⟩, trivial⟩
  have hgranted : AllAllowed GrantedAct Archive.act ⟨smallOptions, emptyStore smallOptions⟩
      (opening ++ [writing, .call (.seek 1 5 .seekSet)]) := by
    refine allAllowed_append.mpr ⟨granted_opening, ?_, ?_, trivial⟩
    · rintro key len ⟨⟩
    · rintro key len ⟨⟩
  have hlived := lived_opening hplays
  rw [← List.append_assoc] at hlived
  exact write_look (x := ⟨1, 2, 5, true⟩) hlived [] rfl rfl rfl hgranted 9

end

end Iqiq.WhefsContents
