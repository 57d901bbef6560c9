import Iqiq.StoreEffects
import Iqiq.WhefsRuns

namespace Iqiq.StoreInvariants

open Iqiq.BlockedFile
open Iqiq.FileStore
open Iqiq.FileStore.Store
open Iqiq.RecordTable
open Iqiq.Simulation
open Iqiq.StoreEffects
open Iqiq.Whefs
open Iqiq.WhefsAppend
open Iqiq.WhefsDirectory
open Iqiq.WhefsMount
open Iqiq.WhefsOpened
open Iqiq.WhefsRuns
open Iqiq.WhefsSessions
open Iqiq.WhefsStore
open Iqiq.WhefsTruncate
open Iqiq.WhefsVolume
open Iqiq.WhefsWriting

section

variable {opt : Options} {S : List UInt8 → Prop} {m : Mount} {s s' : Store} {id : UInt32}
  {op : Op} {key : Nat} {len : Int}

/-- The files are in whole blocks, and handles are of files that there can be. -/
structure Shaped (opt : Options) (s : Store) : Prop where
  whole : ∀ id, IsFileId opt id → ∀ c, contents s id = some c →
    ∃ held, c.room.length = held * opt.blockSize.toNat
  housed : ∀ h ∈ s.handles, IsFileId opt h.file

theorem Stands.shaped (h : Stands opt S m s) : Shaped opt s := by
  obtain ⟨v, hints, chains, h⟩ := h
  constructor
  · intro id hid c hc
    rw [contents, h.files id hid, fileAt] at hc
    split at hc
    · obtain rfl := Option.some.inj hc
      exact ⟨(chains id).length, length_room v (chains id)⟩
    · exact absurd hc (by simp)
  · intro x hx
    rw [h.handles] at hx
    obtain ⟨d, hd, rfl⟩ := List.mem_map.mp hx
    obtain ⟨node, hnode, heq⟩ := h.wired.live d hd
    change IsFileId opt d.node
    rw [← heq]
    exact (h.wired.node node hnode).isFile

theorem Shaped.isFileId (h : Shaped opt s) {key : Nat} {x : Handle} (hx : s.handle key = some x) :
    IsFileId opt x.file :=
  h.housed x (List.mem_of_find?_eq_some hx)

theorem Effect.isFileId (h : Shaped opt s) {before after : Option (Content UInt8)} {free : Nat}
    (heffect : Effect opt s op id before after free) : IsFileId opt id := by
  cases heffect with
  | created hfresh => exact mem_ids.mp (List.mem_of_find?_eq_some hfresh)
  | removed hname _ => exact mem_ids.mp (List.mem_of_find?_eq_some hname)
  | written hh _ => exact h.isFileId hh
  | emptied hh _ _ => exact h.isFileId hh
  | enlarged hh _ _ _ => exact h.isFileId hh
  | shortened hh _ _ _ => exact h.isFileId hh

def heldIn (opt : Options) (s : Store) (id : UInt32) : Nat :=
  (contents s id).elim 0 (held opt)

/-- The blocks that are free and those of the files. -/
def accounted (opt : Options) (s : Store) : Nat :=
  s.free + ((ids opt).map (heldIn opt s)).sum

theorem sum_map_of_change {α : Type} {f g : α → Nat} {l : List α} (hl : l.Nodup) {a : α}
    (ha : a ∈ l) (h : ∀ b, b ≠ a → g b = f b) : (l.map g).sum + f a = (l.map f).sum + g a := by
  induction l with
  | nil => exact absurd ha List.not_mem_nil
  | cons b l ih =>
      obtain ⟨hb, hl⟩ := List.nodup_cons.mp hl
      rw [List.map_cons, List.map_cons, List.sum_cons, List.sum_cons]
      rcases List.mem_cons.mp ha with rfl | ha
      · have hrest : l.map g = l.map f :=
          List.map_congr_left fun x hx => h x fun heq => hb (heq ▸ hx)
        rw [hrest]
        omega
      · have hrest := ih hl ha
        rw [h b fun heq => hb (heq ▸ ha)]
        omega

theorem nodup_ids (opt : Options) : (ids opt).Nodup :=
  (pairwise_ids opt).imp fun h => UInt32.ne_of_lt h

theorem Changes.accounted (hid : IsFileId opt id) {before after : Option (Content UInt8)}
    {free : Nat} (h : Changes s id before after free s') :
    accounted opt s' + s.free + before.elim 0 (held opt) =
      accounted opt s + free + after.elim 0 (held opt) := by
  have hsum := sum_map_of_change (f := heldIn opt s) (g := heldIn opt s') (nodup_ids opt)
    (mem_ids.mpr hid) fun j hne => by rw [heldIn, heldIn, h.others j hne]
  rw [heldIn, heldIn, h.before, h.after] at hsum
  rw [StoreInvariants.accounted, StoreInvariants.accounted, h.free]
  omega

theorem held_of_room (hopt : Formattable opt) {c : Content UInt8} {n : Nat}
    (hroom : c.room.length = n * opt.blockSize.toNat) : held opt c = n := by
  have := hopt.blockSize
  rw [held, hroom, Nat.mul_div_cancel _ (by omega)]

theorem Shaped.room (hopt : Formattable opt) (h : Shaped opt s) (hid : IsFileId opt id)
    {c : Content UInt8} (hc : contents s id = some c) :
    c.room.length = held opt c * opt.blockSize.toNat := by
  obtain ⟨n, hn⟩ := h.whole id hid c hc
  rw [held_of_room hopt hn, hn]

theorem held_nil (opt : Options) : held opt ⟨0, []⟩ = 0 :=
  Nat.zero_div _

theorem exists_file {c : Content UInt8} (h : contents s id = some c) :
    ∃ f, s.files id = some f ∧ f.content = c :=
  Option.map_eq_some_iff.mp h

theorem keep_le_held (hallowed : s.Allowed opt S (.trunc key len)) {h : Handle}
    (hh : s.handle key = some h) {c : Content UInt8} (hc : contents s h.file = some c)
    (hpos : 0 < len) (hlt : sizeTo len < c.size) :
    (sizeTo len - 1) / opt.blockSize.toNat + 1 ≤ held opt c := by
  obtain ⟨f, hf, rfl⟩ := exists_file hc
  obtain ⟨hbound, hkeep⟩ := hallowed.2 h f hh hf
  have hfits : len.toNat < UInt32.size := by
    have hword : UInt32.size = 2 ^ 32 := rfl
    omega
  have hsize : sizeTo len = len.toNat := UInt32.toNat_ofNat_of_lt' hfits
  rw [hsize] at hlt ⊢
  rcases hkeep hpos hlt with hmore | ⟨hone, hone'⟩
  · exact Nat.le_of_lt hmore
  · rw [hone, hone']

theorem stop_le_keep (hopt : Formattable opt) (n : Nat) :
    (n - 1) / opt.blockSize.toNat * opt.blockSize.toNat + n % opt.blockSize.toNat ≤
      ((n - 1) / opt.blockSize.toNat + 1) * opt.blockSize.toNat := by
  have := hopt.blockSize
  have hmod : n % opt.blockSize.toNat < opt.blockSize.toNat := Nat.mod_lt _ (by omega)
  rw [Nat.add_mul, Nat.one_mul]
  omega

theorem Effect.balance (hopt : Formattable opt) (hs : Shaped opt s)
    (hallowed : s.Allowed opt S op) {before after : Option (Content UInt8)} {free : Nat}
    (h : Effect opt s op id before after free) (hbefore : contents s id = before) :
    free + after.elim 0 (held opt) + lost opt s op = s.free + before.elim 0 (held opt) := by
  have hbs : 0 < opt.blockSize.toNat := by
    have := hopt.blockSize
    omega
  have hid := Effect.isFileId hs h
  cases h with
  | created _ =>
      show s.free + held opt ⟨0, []⟩ + 0 = s.free + 0
      rw [held_nil]
  | @removed name _ c _ _ =>
      show s.free + held opt c + 0 + 0 = s.free + held opt c
      rfl
  | @written now key src h c hh _ =>
      have hroom := hs.room hopt hid hbefore
      obtain ⟨reach, hle, hmost, hlen, hfree⟩ := @put_room _ opt.blockSize.toNat
        opt.blockCount.toNat (held opt c) s.free h.pos 0 c src hbs hroom
      show _ +
        held opt (put opt.blockSize.toNat opt.blockCount.toNat 0 s.free c h.pos src).content + 0 =
          s.free + held opt c
      rw [held_of_room hopt hlen, hfree]
      omega
  | emptied hh hrw hsize =>
      rw [lost, hh, Option.elim_some, Option.elim_some, Option.elim_some, hbefore,
        Option.elim_some, if_pos ⟨rfl, hrw, hsize⟩, held_nil]
      omega
  | @enlarged key len h c hh _ hpos _ =>
      have hroom := hs.room hopt hid hbefore
      have hlost : lost opt s (.trunc key len) = 0 := by
        rw [lost, hh, Option.elim_some, hbefore, Option.elim_some,
          if_neg fun hzero => absurd hzero.1 (by omega)]
      rw [hlost, Option.elim_some, Option.elim_some]
      rcases Nat.lt_or_ge ((sizeTo len - 1) / opt.blockSize.toNat) opt.blockCount.toNat with
        hlt | hge
      · rw [enlarge_of_lt hbs hroom (by omega) hlt]
        have hreach := le_max_left (held opt c)
          (min (held opt c + s.free) ((sizeTo len - 1) / opt.blockSize.toNat + 1))
        have hmost : max (held opt c) (min (held opt c + s.free)
            ((sizeTo len - 1) / opt.blockSize.toNat + 1)) ≤ held opt c + s.free :=
          max_le (Nat.le_add_right _ _) (Nat.min_le_left _ _)
        have hgrown : held opt ⟨sizeTo len, c.grow opt.blockSize.toNat 0 (held opt c)
            (max (held opt c) (min (held opt c + s.free)
              ((sizeTo len - 1) / opt.blockSize.toNat + 1)))⟩ = _ :=
          held_of_room hopt (length_grow hroom hreach)
        simp only
        rw [hgrown]
        omega
      · rw [enlarge_outside hge]
        rfl
  | @shortened key len h c hh hrw hpos hlt =>
      have hroom := hs.room hopt hid hbefore
      have hkeep := keep_le_held hallowed hh hbefore hpos hlt
      have hlost : lost opt s (.trunc key len) = 0 := by
        rw [lost, hh, Option.elim_some, hbefore, Option.elim_some,
          if_neg fun hzero => absurd hzero.1 (by omega)]
      have hstop := stop_le_keep hopt (sizeTo len)
      have hmul := Nat.mul_le_mul_right opt.blockSize.toNat hkeep
      rw [hlost, Option.elim_some, Option.elim_some,
        held_of_room hopt (length_cut (by omega) hstop)]
      omega

/-- A call takes no block from the files and from those that are free but the ones it loses. -/
theorem step_accounted (hopt : Formattable opt) (hs : Shaped opt s)
    (hallowed : s.Allowed opt S op) :
    accounted opt (s.step opt op).2 + lost opt s op = accounted opt s := by
  rcases step_acts opt s op with ⟨hsame, hlost⟩ | ⟨id, before, after, free, heffect, hchanges⟩
  · have hheld : heldIn opt (s.step opt op).2 = heldIn opt s :=
      funext fun j => by rw [heldIn, heldIn, hsame.contents]
    rw [hlost, accounted, accounted, hsame.free, hheld]
    rfl
  · have hbalance := Effect.balance hopt hs hallowed heffect hchanges.before
    have hsum := Changes.accounted (Effect.isFileId hs heffect) hchanges
    omega

/-! ### What holds of the content of each file -/

def Every (opt : Options) (s : Store) (P : Content UInt8 → Prop) : Prop :=
  ∀ id, IsFileId opt id → ∀ c, contents s id = some c → P c

/-- A call keeps what holds of each file if it holds of what becomes of one. -/
theorem every_step {P : Content UInt8 → Prop} (h : Every opt s P)
    (hafter : ∀ id before c free, Effect opt s op id before (some c) free →
      contents s id = before → P c) : Every opt (s.step opt op).2 P := by
  rcases step_acts opt s op with ⟨hsame, -⟩ | ⟨n, before, after, free, heffect, hchanges⟩
  · intro id hid c hc
    rw [hsame.contents] at hc
    exact h id hid c hc
  · intro id hid c hc
    rcases eq_or_ne id n with rfl | hne
    · obtain rfl := hchanges.after.symm.trans hc
      exact hafter id before c free heffect hchanges.before
    · rw [hchanges.others id hne] at hc
      exact h id hid c hc

theorem stop_le_size (bs n : Nat) : (n - 1) / bs * bs + n % bs ≤ n := by
  have hquot : (n - 1) / bs * bs ≤ n / bs * bs :=
    Nat.mul_le_mul_right _ (Nat.div_le_div_right (Nat.sub_le n 1))
  have hsplit := Nat.div_add_mod n bs
  rw [Nat.mul_comm] at hsplit
  omega

theorem blockSize_ne_zero (hopt : Formattable opt) : 0 < opt.blockSize.toNat := by
  have := hopt.blockSize
  omega

theorem every_clean (hopt : Formattable opt) (hs : Shaped opt s) (hallowed : s.Allowed opt S op)
    (h : Every opt s (Content.Clean 0)) : Every opt (s.step opt op).2 (Content.Clean 0) := by
  apply every_step h
  intro id before c free heffect hbefore
  have hbs := blockSize_ne_zero hopt
  have hid := Effect.isFileId hs heffect
  cases heffect with
  | created _ => exact Content.clean_nil 0
  | written _ _ => exact (h _ hid _ hbefore).put hbs (hs.room hopt hid hbefore)
  | emptied _ _ _ => exact Content.clean_nil 0
  | enlarged _ _ _ hgrow => exact (h _ hid _ hbefore).enlarge hbs (hs.room hopt hid hbefore) hgrow
  | @shortened key len x c hh _ hpos hlt =>
      have hroom := hs.room hopt hid hbefore
      have hkeep := keep_le_held hallowed hh hbefore hpos hlt
      have hstop := stop_le_keep hopt (sizeTo len)
      have hmul := Nat.mul_le_mul_right opt.blockSize.toNat hkeep
      exact Content.clean_cut (by omega) hstop (stop_le_size _ _)

/-- No file is larger than its blocks, as one is that could not grow to its new size. -/
def Backed (opt : Options) (s : Store) : Prop :=
  Every opt s fun c => c.size ≤ c.room.length

/-- The call is not one that says of a file that there are no blocks for its new size. -/
def Granted (opt : Options) (s : Store) (op : Op) : Prop :=
  ∀ key len, op = .trunc key len → (s.step opt op).1 ≠ .code .fsFull ∧
    (s.step opt op).1 ≠ .code (.of .rangeError)

theorem le_last_block {bs : Nat} (hbs : 0 < bs) (n : Nat) : n ≤ ((n - 1) / bs + 1) * bs := by
  rcases Nat.eq_zero_or_pos n with rfl | hn
  · exact Nat.zero_le _
  · rw [← blocksFor_of_pos hbs hn]
    exact (blocksFor_le_iff hbs).mp le_rfl

theorem backed_put {bs total held free pos : Nat} {c : Content UInt8} {src : List UInt8}
    (hbs : 0 < bs) (hroom : c.room.length = held * bs) (h : c.size ≤ c.room.length) :
    (put bs total 0 free c pos src).content.size ≤
      (put bs total 0 free c pos src).content.room.length := by
  obtain ⟨reach, hle, -, hlen, -⟩ := @put_room _ bs total held free pos 0 c src hbs hroom
  have hmul := Nat.mul_le_mul_right bs hle
  rw [size_put hbs hroom]
  split
  · omega
  · rename_i hcount
    have hstop := stop_le_length hbs hroom hcount
    apply max_le _ hstop
    omega

theorem backed_enlarge {bs total held free n : Nat} {c : Content UInt8} (hbs : 0 < bs)
    (hroom : c.room.length = held * bs) (hn : 0 < n) (htotal : (n - 1) / bs < total)
    (havail : (n - 1) / bs < held + free) :
    n ≤ (enlarge bs total 0 free c n).1.room.length := by
  rw [enlarge_of_lt hbs hroom hn htotal]
  simp only
  rw [length_grow hroom (le_max_left _ _)]
  have hreach : (n - 1) / bs + 1 ≤ max held (min (held + free) ((n - 1) / bs + 1)) := by
    rw [Nat.min_eq_right havail]
    exact le_max_right _ _
  calc n ≤ ((n - 1) / bs + 1) * bs := le_last_block hbs n
    _ ≤ _ := Nat.mul_le_mul_right bs hreach

theorem answer_enlarged {h : Handle} (hh : s.handle key = some h) {c : Content UInt8}
    (hc : contents s h.file = some c) (hrw : h.rw = true) (hpos : 0 < len)
    (hgrow : c.size < sizeTo len) : (s.step opt (.trunc key len)).1 =
      .code (growCode opt (held opt c + s.free) (UInt32.ofNat len.toNat)) := by
  obtain ⟨f, hf, rfl⟩ := exists_file hc
  have hsize : (UInt32.ofNat len.toNat).toNat = sizeTo len := rfl
  rw [step, withHandle, hh]
  simp only
  rw [hf]
  simp only
  rw [trunc, if_neg (by omega), if_neg (not_not_intro hrw), hsize,
    if_neg (Nat.ne_of_gt hgrow), if_neg (by omega), if_pos hgrow]

theorem granted_enlarged (hgranted : Granted opt s (.trunc key len)) {h : Handle}
    (hh : s.handle key = some h) {c : Content UInt8} (hc : contents s h.file = some c)
    (hrw : h.rw = true) (hpos : 0 < len) (hgrow : c.size < sizeTo len) :
    (sizeTo len - 1) / opt.blockSize.toNat < opt.blockCount.toNat ∧
      (sizeTo len - 1) / opt.blockSize.toNat < held opt c + s.free := by
  obtain ⟨hfull, hrange⟩ := hgranted key len rfl
  rw [answer_enlarged hh hc hrw hpos hgrow, growCode] at hfull hrange
  have hsize : (UInt32.ofNat len.toNat).toNat = sizeTo len := rfl
  rw [hsize] at hfull hrange
  have htotal : (sizeTo len - 1) / opt.blockSize.toNat < opt.blockCount.toNat := by
    by_contra hge
    rw [if_pos (Nat.not_lt.mp hge)] at hrange
    exact hrange rfl
  refine ⟨htotal, ?_⟩
  by_contra hge
  rw [if_neg (Nat.not_le.mpr htotal), if_pos (Nat.not_lt.mp hge)] at hfull
  exact hfull rfl

theorem backed_step (hopt : Formattable opt) (hs : Shaped opt s) (hallowed : s.Allowed opt S op)
    (hgranted : Granted opt s op) (h : Backed opt s) : Backed opt (s.step opt op).2 := by
  apply every_step h
  intro id before c free heffect hbefore
  have hbs := blockSize_ne_zero hopt
  have hid := Effect.isFileId hs heffect
  cases heffect with
  | created _ => exact Nat.zero_le _
  | written _ _ => exact backed_put hbs (hs.room hopt hid hbefore) (h _ hid _ hbefore)
  | emptied _ _ _ => exact Nat.zero_le _
  | @enlarged key len x c hh hrw hpos hgrow =>
      obtain ⟨htotal, havail⟩ := granted_enlarged hgranted hh hbefore hrw hpos hgrow
      have hn : 0 < sizeTo len := by omega
      have hback := @backed_enlarge _ _ _ s.free _ c hbs (hs.room hopt hid hbefore) hn htotal havail
      have hsize' : (enlarge opt.blockSize.toNat opt.blockCount.toNat 0 s.free c
          (sizeTo len)).1.size = sizeTo len := by
        rw [enlarge]
        split <;> rfl
      rw [hsize']
      exact hback
  | @shortened key len x c hh _ hpos hlt =>
      have hroom := hs.room hopt hid hbefore
      have hkeep := keep_le_held hallowed hh hbefore hpos hlt
      have hstop := stop_le_keep hopt (sizeTo len)
      have hmul := Nat.mul_le_mul_right opt.blockSize.toNat hkeep
      rw [length_cut (by omega) hstop]
      exact le_last_block hbs _

/-- The call may change what the file `id` holds. -/
def Touches (opt : Options) (s : Store) (id : UInt32) : Op → Prop
  | .write _ key _ => ∃ h, s.handle key = some h ∧ h.file = id
  | .trunc key _ => ∃ h, s.handle key = some h ∧ h.file = id
  | .unlink name => s.byName opt name = some id
  | _ => False

theorem contents_of_spared {c : Content UInt8} (hc : contents s id = some c)
    (hspared : ¬ Touches opt s id op) : contents (s.step opt op).2 id = some c := by
  rcases step_acts opt s op with ⟨hsame, -⟩ | ⟨n, before, after, free, heffect, hchanges⟩
  · rw [hsame.contents, hc]
  · rcases eq_or_ne id n with rfl | hne
    · exfalso
      cases heffect with
      | created _ => exact absurd (hchanges.before.symm.trans hc) (by simp)
      | removed hname _ => exact hspared hname
      | written hh _ => exact hspared ⟨_, hh, rfl⟩
      | emptied hh _ _ => exact hspared ⟨_, hh, rfl⟩
      | enlarged hh _ _ _ => exact hspared ⟨_, hh, rfl⟩
      | shortened hh _ _ _ => exact hspared ⟨_, hh, rfl⟩
    · rw [hchanges.others id hne, hc]

theorem Stands.handle (h : Stands opt S m s) {x : Handle} (hx : s.handle key = some x) :
    (∃ f, s.files x.file = some f) ∧ x.pos < 2 ^ 32 := by
  obtain ⟨v, hints, chains, h⟩ := h
  have hlive : (s.handle key).isSome = true := by
    rw [hx, Option.isSome_some]
  obtain ⟨dev, node, hat⟩ := h.live hlive
  obtain rfl := Option.some.inj (hx.symm.trans hat.handle)
  exact ⟨⟨_, hat.file⟩, dev.posabs.toNat_lt⟩

theorem withHandle_eq {x : Handle} {f : FileState} (hx : s.handle key = some x)
    (hf : s.files x.file = some f) (call : Handle → FileState → Answer × Store) :
    s.withHandle key call = call x f := by
  rw [withHandle, hx]
  simp only
  rw [hf]

theorem step_write (hopt : Formattable opt) (hs : Shaped opt s) {x : Handle} {f : FileState}
    (hx : s.handle key = some x) (hf : s.files x.file = some f) (now : UInt32)
    {src : List UInt8} {k : Nat} (hcount : (s.step opt (.write now key src)).1 = .count k) :
    ∃ c, contents (s.step opt (.write now key src)).2 x.file = some c ∧
      ∀ n ≤ k, c.get x.pos n = src.take n := by
  have hid := hs.isFileId hx
  have hroom := hs.room hopt hid (contents_of_file hf)
  rw [step, withHandle_eq hx hf, write] at hcount ⊢
  split at hcount
  · rename_i hro
    obtain rfl : 0 = k := Answer.count.inj hcount
    rw [if_pos hro]
    refine ⟨f.content, contents_of_file hf, fun n hn => ?_⟩
    obtain rfl := Nat.le_zero.mp hn
    rw [Content.get, window, List.take_zero, List.take_zero]
  · rename_i hro
    obtain rfl := Answer.count.inj hcount
    rw [if_neg hro]
    refine ⟨(put opt.blockSize.toNat opt.blockCount.toNat 0 s.free f.content x.pos src).content,
      ?_, fun n hn => get_put (blockSize_ne_zero hopt) hroom hn⟩
    show (Function.update s.files x.file _ x.file).map FileState.content = _
    rw [Function.update_self, Option.map_some]

theorem handle_setPos {x : Handle} (hx : s.handle key = some x) (pos : Nat) :
    (s.setPos key pos).handle key = some { x with pos } := by
  have hkey : x.key = key := by simpa using List.find?_some hx
  have hsame : (fun h : Handle => decide (h.key = key)) ∘
      (fun h => if h.key = key then { h with pos } else h) = fun h => decide (h.key = key) := by
    funext h
    rw [Function.comp_apply]
    split <;> rfl
  rw [Store.handle, setPos, List.find?_map, hsame]
  rw [Store.handle] at hx
  rw [hx, Option.map_some, if_pos hkey]

theorem step_seek {x : Handle} {f : FileState} (hx : s.handle key = some x)
    (hf : s.files x.file = some f) {pos : Nat} (hpos : pos < 2 ^ 32) :
    s.step opt (.seek key pos .seekSet) = (.position (some pos), s.setPos key pos) := by
  have hkey : x.key = key := by simpa using List.find?_some hx
  have hmod : ((pos : Int) % 2 ^ 32).toNat = pos := by omega
  rw [step, withHandle_eq hx hf, seek.eq_def]
  simp only
  rw [if_neg (by omega), hmod, hkey]

theorem seek_read {x : Handle} {c : Content UInt8} (hx : s.handle key = some x)
    (hc : contents s x.file = some c) {pos : Nat} (hpos : pos < 2 ^ 32) (n : UInt32) :
    (s.step opt (.seek key pos .seekSet)).1 = .position (some pos) ∧
      ((s.step opt (.seek key pos .seekSet)).2.step opt (.read key n)).1 =
        .bytes (c.get pos n.toNat) := by
  obtain ⟨f, hf, rfl⟩ := exists_file hc
  rw [step_seek hx hf hpos]
  refine ⟨rfl, ?_⟩
  rw [step, withHandle_eq (handle_setPos hx pos) hf]
  rfl

theorem contents_reopened (s : Store) : contents (reopened s) = contents s := by
  funext id
  exact Option.map_map ..

end

end Iqiq.StoreInvariants
