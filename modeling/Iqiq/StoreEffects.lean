import Iqiq.FileStore

namespace Iqiq.StoreEffects

open Iqiq.BlockedFile
open Iqiq.FileStore
open Iqiq.FileStore.Store
open Iqiq.Whefs
open Iqiq.WhefsMount

def contents (s : Store) (id : UInt32) : Option (Content UInt8) :=
  (s.files id).map FileState.content

/-- The size that a file is given, in 32 bits. -/
def sizeTo (len : Int) : Nat :=
  (UInt32.ofNat len.toNat).toNat

/-- The content of one file and the number of free blocks that a call ends with. -/
inductive Effect (opt : Options) (s : Store) :
    Op → UInt32 → Option (Content UInt8) → Option (Content UInt8) → Nat → Prop
  | created {now : UInt32} {key : Nat} {name : List UInt8} {id : UInt32} :
      s.fresh opt = some id →
        Effect opt s (.openDev now key name true) id none (some ⟨0, []⟩) s.free
  | removed {name : List UInt8} {id : UInt32} {c : Content UInt8} :
      s.byName opt name = some id → s.isOpen id = false →
      Effect opt s (.unlink name) id (some c) none (s.free + held opt c)
  | written {now : UInt32} {key : Nat} {src : List UInt8} {h : Handle} {c : Content UInt8} :
      s.handle key = some h → h.rw = true →
      Effect opt s (.write now key src) h.file (some c)
        (some (put opt.blockSize.toNat opt.blockCount.toNat 0 s.free c h.pos src).content)
        (put opt.blockSize.toNat opt.blockCount.toNat 0 s.free c h.pos src).free
  | emptied {key : Nat} {h : Handle} {c : Content UInt8} :
      s.handle key = some h → h.rw = true → c.size ≠ 0 →
      Effect opt s (.trunc key 0) h.file (some c) (some ⟨0, []⟩) s.free
  | enlarged {key : Nat} {len : Int} {h : Handle} {c : Content UInt8} :
      s.handle key = some h → h.rw = true → 0 < len → c.size < sizeTo len →
      Effect opt s (.trunc key len) h.file (some c)
        (some (enlarge opt.blockSize.toNat opt.blockCount.toNat 0 s.free c (sizeTo len)).1)
        (enlarge opt.blockSize.toNat opt.blockCount.toNat 0 s.free c (sizeTo len)).2
  | shortened {key : Nat} {len : Int} {h : Handle} {c : Content UInt8} :
      s.handle key = some h → h.rw = true → 0 < len → sizeTo len < c.size →
      Effect opt s (.trunc key len) h.file (some c)
        (some (cut opt.blockSize.toNat 0 c (sizeTo len) ((sizeTo len - 1) / opt.blockSize.toNat + 1)
          ((sizeTo len - 1) / opt.blockSize.toNat * opt.blockSize.toNat +
            sizeTo len % opt.blockSize.toNat)))
        (s.free + (held opt c - ((sizeTo len - 1) / opt.blockSize.toNat + 1)))

/-- The number of blocks that a call leaves to nobody: those of a file that it truncates to
nothing, which stay in use. -/
def lost (opt : Options) (s : Store) : Op → Nat
  | .trunc key len =>
      (s.handle key).elim 0 fun h => (contents s h.file).elim 0 fun c =>
        if len = 0 ∧ h.rw ∧ c.size ≠ 0 then held opt c else 0
  | _ => 0

structure SameContents (s s' : Store) : Prop where
  contents : contents s' = contents s
  free : s'.free = s.free

/-- The file `id` has changed, and the number of free blocks. -/
structure Changes (s : Store) (id : UInt32) (before after : Option (Content UInt8)) (free : Nat)
    (s' : Store) : Prop where
  before : contents s id = before
  after : contents s' id = after
  others : ∀ j, j ≠ id → contents s' j = contents s j
  free : s'.free = free

section

variable {opt : Options} {s s' : Store} {id : UInt32} {f f' : FileState} {h : Handle} {key : Nat}

theorem sameContents_setFile (hf : s.files id = some f)
    (hfiles : s'.files = Function.update s.files id (some f')) (hsame : f'.content = f.content)
    (hfree : s'.free = s.free) : SameContents s s' := by
  refine ⟨funext fun j => ?_, hfree⟩
  rcases eq_or_ne j id with rfl | hne
  · rw [contents, contents, hfiles, Function.update_self, hf, Option.map_some, Option.map_some,
      hsame]
  · rw [contents, contents, hfiles, Function.update_of_ne hne]

theorem sameContents_of_files (hfiles : s'.files = s.files) (hfree : s'.free = s.free) :
    SameContents s s' :=
  ⟨funext fun j => by rw [contents, contents, hfiles], hfree⟩

theorem withHandle_cases (s : Store) (key : Nat) (call : Handle → FileState → Answer × Store) :
    (∃ h f, s.handle key = some h ∧ s.files h.file = some f ∧ s.withHandle key call = call h f) ∨
      (s.withHandle key call).2 = s ∧ ∀ h, s.handle key = some h → s.files h.file = none := by
  rw [withHandle]
  cases hhandle : s.handle key with
  | none =>
      refine Or.inr ⟨rfl, ?_⟩
      rintro h ⟨⟩
  | some h =>
      simp only
      cases hf : s.files h.file with
      | none =>
          refine Or.inr ⟨rfl, ?_⟩
          rintro h' ⟨⟩
          exact hf
      | some f => exact Or.inl ⟨h, f, rfl, hf, rfl⟩

theorem openId_files (s : Store) (key : Nat) (id : UInt32) (rw : Bool) :
    (s.openId key id rw).2.files = s.files ∧ (s.openId key id rw).2.free = s.free := by
  rw [openId]
  split <;> exact ⟨rfl, rfl⟩

theorem fresh_none (h : s.fresh opt = some id) : s.files id = none :=
  Option.isNone_iff_eq_none.mp (List.find?_eq_some_iff_append.mp h).1

theorem byName_some {name : List UInt8} (h : s.byName opt name = some id) :
    ∃ f, s.files id = some f ∧ f.name = name := by
  have hany := (List.find?_eq_some_iff_append.mp h).1
  cases hf : s.files id with
  | none =>
      rw [hf] at hany
      exact absurd hany Bool.false_ne_true
  | some f =>
      rw [hf] at hany
      exact ⟨f, rfl, by simpa using hany⟩

/-- Either all files keep what they hold, or one of them changes in one of six ways. -/
def Acts (opt : Options) (s : Store) (op : Op) (s' : Store) : Prop :=
  SameContents s s' ∧ lost opt s op = 0 ∨ ∃ id before after free,
    Effect opt s op id before after free ∧ Changes s id before after free s'

theorem acts_of_effect {op : Op} {before after : Option (Content UInt8)} {free : Nat}
    (heffect : Effect opt s op id before after free) (hbefore : contents s id = before)
    {f' : Option FileState} (hfiles : s'.files = Function.update s.files id f')
    (hafter : f'.map FileState.content = after) (hfree : s'.free = free) : Acts opt s op s' := by
  refine Or.inr ⟨id, before, after, free, heffect, hbefore, ?_, fun j hne => ?_, hfree⟩
  · rw [contents, hfiles, Function.update_self, hafter]
  · rw [contents, hfiles, Function.update_of_ne hne, contents]

theorem contents_of_file (hf : s.files id = some f) : contents s id = some f.content := by
  rw [contents, hf, Option.map_some]

theorem acts_openDev (opt : Options) (s : Store) (now : UInt32) (key : Nat) (name : List UInt8)
    (rw : Bool) : Acts opt s (.openDev now key name rw) (s.openName opt key name rw).2 := by
  rw [openName]
  cases hname : s.byName opt name with
  | some id =>
      obtain ⟨hfiles, hfree⟩ := openId_files s key id rw
      exact Or.inl ⟨sameContents_of_files hfiles hfree, rfl⟩
  | none =>
      cases rw with
      | false => exact Or.inl ⟨⟨rfl, rfl⟩, rfl⟩
      | true =>
          cases hfresh : s.fresh opt with
          | none => exact Or.inl ⟨⟨rfl, rfl⟩, rfl⟩
          | some id =>
              obtain ⟨hfiles, hfree⟩ :=
                openId_files (s.setFile id (some ⟨name, 0, ⟨0, []⟩⟩)) key id true
              refine acts_of_effect (.created hfresh) ?_ hfiles rfl hfree
              rw [contents, fresh_none hfresh]
              rfl

theorem acts_write (hh : s.handle key = some h) (hf : s.files h.file = some f) (now : UInt32)
    (src : List UInt8) : Acts opt s (.write now key src) (s.write opt h f src).2 := by
  rw [Store.write]
  split
  · exact Or.inl ⟨⟨rfl, rfl⟩, rfl⟩
  · rename_i hrw
    exact acts_of_effect (.written hh (not_not.mp hrw)) (contents_of_file hf) rfl rfl rfl

theorem acts_trunc (hh : s.handle key = some h) (hf : s.files h.file = some f) (len : Int) :
    Acts opt s (.trunc key len) (s.trunc opt h f len).2 := by
  have hnone (hnot : ¬ (len = 0 ∧ h.rw ∧ f.content.size ≠ 0)) :
      lost opt s (.trunc key len) = 0 := by
    rw [lost, hh, Option.elim_some, contents_of_file hf, Option.elim_some, if_neg hnot]
  rw [Store.trunc]
  split
  · rename_i hneg
    exact Or.inl ⟨⟨rfl, rfl⟩, hnone fun hlen => by omega⟩
  · split
    · rename_i hrw
      exact Or.inl ⟨⟨rfl, rfl⟩, hnone fun hlen => hrw hlen.2.1⟩
    · rename_i hrw
      have hrw' := not_not.mp hrw
      split
      · rename_i hsize
        refine Or.inl ⟨⟨rfl, rfl⟩, hnone fun hlen => hlen.2.2 ?_⟩
        rw [← hsize, hlen.1]
        rfl
      · rename_i hneg hne
        split
        · rename_i hzero
          subst hzero
          have hsize : f.content.size ≠ 0 := fun heq => hne heq.symm
          exact acts_of_effect (.emptied hh hrw' hsize) (contents_of_file hf) rfl rfl rfl
        · rename_i hzero
          have hpos : 0 < len := by omega
          split
          · rename_i hgrow
            exact acts_of_effect (.enlarged hh hrw' hpos hgrow) (contents_of_file hf) rfl rfl rfl
          · rename_i hgrow
            have hlt : sizeTo len < f.content.size :=
              Nat.lt_of_le_of_ne (Nat.not_lt.mp hgrow) hne
            exact acts_of_effect (.shortened hh hrw' hpos hlt) (contents_of_file hf) rfl rfl rfl

theorem acts_unlink (opt : Options) (s : Store) (name : List UInt8) :
    Acts opt s (.unlink name) (s.unlink opt name).2 := by
  rw [Store.unlink]
  cases hname : s.byName opt name with
  | none => exact Or.inl ⟨⟨rfl, rfl⟩, rfl⟩
  | some id =>
      simp only
      split
      · exact Or.inl ⟨⟨rfl, rfl⟩, rfl⟩
      · rename_i hopen
        obtain ⟨f, hf, -⟩ := byName_some hname
        refine acts_of_effect (.removed hname (by simpa using hopen)) (contents_of_file hf) rfl rfl
          ?_
        rw [hf]
        rfl

/-- What a call can do. -/
theorem step_acts (opt : Options) (s : Store) (op : Op) : Acts opt s op (s.step opt op).2 := by
  have hcall : ∀ key (call : Handle → FileState → Answer × Store),
      ((∀ h, s.handle key = some h → s.files h.file = none) → lost opt s op = 0) →
      (∀ h f, s.handle key = some h → s.files h.file = some f → Acts opt s op (call h f).2) →
        Acts opt s op (s.withHandle key call).2 := by
    intro key call hquiet hall
    rcases withHandle_cases s key call with ⟨h, f, hh, hf, heq⟩ | ⟨heq, hnone⟩
    · rw [heq]
      exact hall h f hh hf
    · rw [heq]
      exact Or.inl ⟨⟨rfl, rfl⟩, hquiet hnone⟩
  cases op with
  | openDev now key name rw => exact acts_openDev opt s now key name rw
  | read key n => exact hcall key _ (fun _ => rfl) fun h f _ _ => Or.inl ⟨⟨rfl, rfl⟩, rfl⟩
  | write now key src => exact hcall key _ (fun _ => rfl) fun h f hh hf => acts_write hh hf now src
  | seek key pos whence =>
      refine hcall key _ (fun _ => rfl) fun h f _ _ => Or.inl ⟨?_, rfl⟩
      rw [Store.seek.eq_def]
      split
      · split
        · exact ⟨rfl, rfl⟩
        · exact ⟨rfl, rfl⟩
      · exact ⟨rfl, rfl⟩
      · exact ⟨rfl, rfl⟩
  | flush key =>
      refine hcall key _ (fun _ => rfl) fun h f _ hf => Or.inl ⟨?_, rfl⟩
      rw [Store.flush]
      simp only
      split
      · exact sameContents_setFile hf rfl rfl rfl
      · exact ⟨rfl, rfl⟩
  | trunc key len =>
      refine hcall key _ (fun hnone => ?_) fun h f hh hf => acts_trunc hh hf len
      rw [lost]
      cases hh : s.handle key with
      | none => rfl
      | some h => rw [Option.elim_some, contents, hnone h hh, Option.map_none, Option.elim_none]
  | close key =>
      refine hcall key _ (fun _ => rfl) fun h f _ hf => Or.inl ⟨?_, rfl⟩
      rw [Store.close]
      split
      · exact sameContents_setFile hf rfl rfl rfl
      · exact ⟨rfl, rfl⟩
  | nameSet key name =>
      refine hcall key _ (fun _ => rfl) fun h f _ hf => Or.inl ⟨?_, rfl⟩
      rw [Store.nameSet]
      split
      · exact ⟨rfl, rfl⟩
      · split
        · exact ⟨rfl, rfl⟩
        · exact sameContents_setFile hf rfl rfl rfl
  | unlink name => exact acts_unlink opt s name

end

end Iqiq.StoreEffects
