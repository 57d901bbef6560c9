import Iqiq.WhefsContents

namespace Iqiq.WhefsLastBlock

open Iqiq.BlockedFile
open Iqiq.FileStore
open Iqiq.FileStore.Store
open Iqiq.KeyedList
open Iqiq.Simulation
open Iqiq.StoreEffects
open Iqiq.StoreInvariants
open Iqiq.Whefs
open Iqiq.WhefsContents
open Iqiq.WhefsDisk
open Iqiq.WhefsEncode
open Iqiq.WhefsFiles
open Iqiq.WhefsFree
open Iqiq.WhefsGrowth
open Iqiq.WhefsLives
open Iqiq.WhefsReading
open Iqiq.WhefsMount
open Iqiq.WhefsOpened
open Iqiq.WhefsPieces
open Iqiq.WhefsRuns
open Iqiq.WhefsSessions
open Iqiq.WhefsStore
open Iqiq.WhefsTruncate
open Iqiq.WhefsVolume
open Iqiq.WhefsWriting

/-- Nothing is read where a list of blocks in memory has ended, wherever the file ends. -/
theorem inodeRead_beyond {fs : Fs} {f : File} (hbs : 2 ≤ fs.options.blockSize.toNat)
    (hne : f.blocks ≠ []) (hpos : f.blocks.length * fs.options.blockSize.toNat ≤ f.posabs.toNat)
    (fuel rounds : Nat) (n : UInt32) : inodeRead fs fuel (rounds + 1) f n = .ok ([], f) := by
  have hbs' : fs.options.blockSize ≠ 0 := by
    intro hzero
    rw [hzero] at hbs
    exact absurd hbs (by decide)
  have hindex : f.blocks.length ≤ f.posabs.toNat / fs.options.blockSize.toNat :=
    (Nat.le_div_iff_mul_le (by omega)).mpr hpos
  have hhalf : f.posabs.toNat / fs.options.blockSize.toNat ≤ f.posabs.toNat / 2 :=
    Nat.div_le_div_left hbs (by decide)
  have hlt := f.posabs.toNat_lt
  have hbc : (1 + f.posabs / fs.options.blockSize).toNat =
      f.posabs.toNat / fs.options.blockSize.toNat + 1 := by
    rw [UInt32.toNat_add, UInt32.toNat_div]
    change (1 + f.posabs.toNat / fs.options.blockSize.toNat) % 2 ^ 32 = _
    omega
  have hblock : ∃ rc, blockForPos fs fuel f f.posabs = .ok (.error rc, f) := by
    rw [blockForPos]
    split
    · exact ⟨_, rfl⟩
    · rw [if_neg hbs']
      simp only
      split
      · exact ⟨_, rfl⟩
      · rw [loadedBlocks, if_neg hne]
        simp only [Run.ok_bind, hbc, Nat.add_sub_cancel, List.getElem?_eq_none hindex]
        exact ⟨_, rfl⟩
  obtain ⟨rc, hblock⟩ := hblock
  have himpl : inodeReadImpl fs fuel f n = .ok ([], false, f) := by
    rw [inodeReadImpl]
    split
    · rfl
    · split
      · rfl
      · rw [hblock]
        rfl
  rw [inodeRead, himpl]
  rfl

section

variable {opt : Options} {S : List UInt8 → Prop} {m : Mount} {s : Store} {v : Volume opt}
  {hints : Hints} {chains : UInt32 → List UInt32} {key fuel : Nat} {dev : Dev} {node : Node}
  {f : File} {ps : List (UInt32 × UInt32)}

theorem keys_setDev (devs : List Dev) (dev : Dev) :
    (setDev devs dev).map Dev.key = devs.map Dev.key :=
  map_key_replace Dev.key devs dev

theorem devAt_put (hkeys : (m.devs.map Dev.key).Nodup) (hsorted : Sorted m.nodes)
    (hat : m.devAt key = some (dev, node)) (hid : f.inode.id = node.inode.id) (d : Disk) :
    (m.put dev node f d).devAt key = some ({ dev with posabs := f.posabs },
      { node with inode := f.inode, blocks := f.blocks }) := by
  obtain ⟨hdev, hkey, hnode, hnid⟩ := (devAt_iff hkeys hsorted).mp hat
  have hkeys' : ((m.put dev node f d).devs.map Dev.key).Nodup := by
    rwa [Mount.put, keys_setDev]
  refine (devAt_iff hkeys' (sorted_setNode hsorted _)).mpr ⟨?_, hkey, ?_, hid.trans hnid⟩
  · have hthere : ∃ x ∈ m.devs, x.key = ({ dev with posabs := f.posabs } : Dev).key :=
      ⟨dev, hdev, rfl⟩
    exact (@mem_replace _ _ _ Dev.key _ _ _ hthere).mpr (Or.inl rfl)
  · have hsame : nodeId node = nodeId { node with inode := f.inode, blocks := f.blocks } :=
      hid.symm
    exact (mem_setNode hnode hsame).mpr (Or.inl rfl)

/-- The device at `key` is `dev`, and all that its inode has in memory is one block. -/
structure OneBlock (opt : Options) (m : Mount) (key : Nat) (dev : Dev) (node : Node) : Prop where
  options : m.disk.fs.options = opt
  keys : (m.devs.map Dev.key).Nodup
  sorted : Sorted m.nodes
  devAt : m.devAt key = some (dev, node)
  blocks : node.blocks.length = 1

theorem OneBlock.withDev {α : Type} (h : OneBlock opt m key dev node)
    (call : Dev → Node → Run α) : m.withDev key call = call dev node := by
  rw [Mount.withDev, h.devAt]

theorem OneBlock.move (h : OneBlock opt m key dev node) (posabs : UInt32) :
    OneBlock opt (m.put dev node { fileOf dev node with posabs } m.disk) key
      { dev with posabs } node := by
  refine ⟨h.options, ?_, sorted_setNode h.sorted _, devAt_put h.keys h.sorted h.devAt rfl _,
    h.blocks⟩
  rw [Mount.put, keys_setDev]
  exact h.keys

theorem OneBlock.put_eq (h : OneBlock opt m key dev node) (posabs : UInt32) :
    { m with devs := setDev m.devs { dev with posabs } } =
      m.put dev node { fileOf dev node with posabs } m.disk := by
  obtain ⟨-, -, hnode, -⟩ := (devAt_iff h.keys h.sorted).mp h.devAt
  have hnodes : setNode m.nodes node = m.nodes :=
    @replace_self _ _ _ nodeId _ _ h.sorted.nodup hnode
  rw [Mount.put]
  change _ = (⟨m.disk, m.cache, setNode m.nodes node, _⟩ : Mount)
  rw [hnodes]

theorem OneBlock.seekTo (h : OneBlock opt m key dev node) (target : Int) (pos : UInt32)
    (htarget : target = pos.toNat) :
    OneBlock opt { m with devs := setDev m.devs { dev with posabs := wrapped target } } key
        { dev with posabs := pos } node ∧ (wrapped target).toNat = pos.toNat := by
  have hlt := pos.toNat_lt
  have htoo : wrapped target = pos := by
    rw [← UInt32.toNat_inj, toNat_wrapped]
    omega
  rw [htoo, h.put_eq]
  exact ⟨h.move pos, rfl⟩

theorem OneBlock.step_seek (h : OneBlock opt m key dev node) (fuel : Nat) (pos : UInt32) :
    ∃ m', m.step fuel (.seek key pos.toNat .seekSet) = .ok (.position (some pos.toNat), m') ∧
      OneBlock opt m' key { dev with posabs := pos } node := by
  obtain ⟨hmove, htoo⟩ := h.seekTo pos.toNat pos rfl
  refine ⟨_, ?_, hmove⟩
  rw [Mount.step, devSeek, h.withDev]
  simp only
  rw [if_neg (by omega)]
  exact congrArg (fun too => Except.ok (Answer.position (some too), _)) htoo

theorem OneBlock.step_seekEnd (h : OneBlock opt m key dev node) (fuel : Nat) :
    ∃ m', m.step fuel (.seek key 0 .seekEnd) =
        .ok (.position (some node.inode.dataSize.toNat), m') ∧
      OneBlock opt m' key { dev with posabs := node.inode.dataSize } node := by
  obtain ⟨hmove, htoo⟩ := h.seekTo (node.inode.dataSize.toNat + 0) node.inode.dataSize
    (Int.add_zero _)
  refine ⟨_, ?_, hmove⟩
  rw [Mount.step, devSeek, h.withDev]
  exact congrArg (fun too => Except.ok (Answer.position (some too), _)) htoo

theorem OneBlock.step_read (hopt : Formattable opt) (h : OneBlock opt m key dev node)
    (hfuel : 0 < fuel) (hpos : opt.blockSize ≤ dev.posabs) (n : UInt32) :
    ∃ m', m.step fuel (.read key n) = .ok (.bytes [], m') ∧ OneBlock opt m' key dev node := by
  obtain ⟨rounds, rfl⟩ := Nat.exists_eq_succ_of_ne_zero hfuel.ne'
  have hbs := hopt.blockSize
  have hlong : (fileOf dev node).blocks.length = 1 := h.blocks
  have hne : (fileOf dev node).blocks ≠ [] := by
    rw [← List.length_pos_iff, hlong]
    exact Nat.one_pos
  have hread := @inodeRead_beyond m.disk.fs (fileOf dev node)
    (by rw [h.options]; omega) hne
    (by rw [h.options, hlong, Nat.one_mul]; exact UInt32.le_iff_toNat_le.mp hpos)
    (rounds + 1) rounds n
  refine ⟨_, ?_, h.move dev.posabs⟩
  rw [Mount.step, devRead, h.withDev, hread]
  rfl

theorem live_content (h : Tied S m s v hints chains) {x : Handle} {c : Content UInt8}
    (hx : s.handle key = some x) (hc : contents s x.file = some c) :
    ∃ dev node, Live m s v chains key dev node ∧ x = handleOf dev ∧
      c = contentOf v chains (fileOf dev node) := by
  obtain ⟨dev, node, hat⟩ := h.live (by rw [hx, Option.isSome_some])
  obtain rfl : x = handleOf dev := Option.some.inj (hx.symm.trans hat.handle)
  exact ⟨dev, node, hat, rfl, Option.some.inj (hc.symm.trans (contents_of_file hat.file))⟩

theorem step_trunc_put (hopt : Formattable opt) (h : Tied S m s v hints chains)
    (hat : Live m s v chains key dev node) (hrw : dev.rw = true)
    (hfuel : opt.blockCount.toNat ≤ fuel) {off : UInt32} (hoff : off ≠ 0)
    (hsize : off < node.inode.dataSize)
    (hkeep : (off.toNat - 1) / opt.blockSize.toNat + 1 = (chains dev.node).length) :
    ∃ (w : Volume opt) (hints' : Hints), m.step fuel (.trunc key off.toNat) = .ok (.code (.of .ok),
        m.put dev node
          { fileOf dev node with
            inode := resized (fileOf dev node) off
            blocks := ((chains dev.node).map w.block).take 1 } (disk w hints')) ∧
      Became v chains (fileOf dev node) (chains dev.node)
        (cut opt.blockSize.toNat 0 (contentOf v chains (fileOf dev node)) off.toNat
          ((off.toNat - 1) / opt.blockSize.toNat + 1)
          ((off.toNat - 1) / opt.blockSize.toNat * opt.blockSize.toNat +
            off.toNat % opt.blockSize.toNat))
        off.toNat (freeIds v).length w hints'
        { fileOf dev node with
          inode := resized (fileOf dev node) off
          blocks := (chains dev.node).map w.block } := by
  have hid : (fileOf dev node).inode.id = dev.node := hat.id_eq
  obtain ⟨w, hints', hrun, hb⟩ :=
    inodeTrunc_last hopt h.formed hat.opened hfuel hoff hsize (by rwa [hid])
  rw [← h.disk, hid] at hrun
  rw [hid] at hb
  refine ⟨w, hints', ?_, hb⟩
  rw [Mount.step, devTrunc, hat.withDev, if_neg (by omega), if_neg (not_not_intro hrw), hrun]
  rfl

theorem step_trunc_last (hopt : Formattable opt) (h : Tied S m s v hints chains)
    (hat : Live m s v chains key dev node) (hrw : dev.rw = true)
    (hfuel : opt.blockCount.toNat ≤ fuel) {off : UInt32} (hoff : off ≠ 0)
    (hsize : off < node.inode.dataSize)
    (hkeep : (off.toNat - 1) / opt.blockSize.toNat + 1 = (chains dev.node).length) :
    ∃ m' node', m.step fuel (.trunc key off.toNat) = .ok (.code (.of .ok), m') ∧
      OneBlock opt m' key dev node' ∧ node'.inode.dataSize = off := by
  obtain ⟨w, hints', hstep, -⟩ := step_trunc_put hopt h hat hrw hfuel hoff hsize hkeep
  have hat' := @devAt_put m key dev node
    { fileOf dev node with
      inode := resized (fileOf dev node) off
      blocks := ((chains dev.node).map w.block).take 1 }
    h.wired.keys h.wired.sorted hat.devAt rfl (disk w hints')
  refine ⟨_, _, hstep, ⟨?_, ?_, sorted_setNode h.wired.sorted _, hat', ?_⟩, rfl⟩
  · rw [Mount.put, disk_fs, fs_options]
  · rw [Mount.put, keys_setDev]
    exact h.wired.keys
  · rw [List.length_take, List.length_map, ← hkeep]
    exact min_eq_left (Nat.le_add_left 1 _)

theorem filter_setNode (nodes : List Node) (ent : Node) :
    (setNode nodes ent).filter (fun y => y.inode.id ≠ ent.inode.id) =
      nodes.filter fun y => y.inode.id ≠ ent.inode.id := by
  induction nodes with
  | nil => rfl
  | cons x rest ih =>
      rw [setNode] at ih ⊢
      rw [List.map_cons]
      rcases eq_or_ne x.inode.id ent.inode.id with heq | hne
      · rw [if_pos heq, List.filter_cons_of_neg (by simp), List.filter_cons_of_neg (by simp [heq]),
          ih]
      · rw [if_neg hne, List.filter_cons_of_pos (by simp [hne]),
          List.filter_cons_of_pos (by simp [hne]), ih]

theorem inodeClose_last {id : UInt32} {ent : Node} (hsorted : Sorted m.nodes)
    (hmem : node ∈ m.nodes) (hid : nodeId node = id) (hent : nodeId ent = id)
    (hcount : ent.openCount = 1) (d : Disk) (devs : List Dev) (writer : Option Nat) :
    inodeClose ⟨d, m.cache, setNode m.nodes ent, devs⟩ id writer = (.of .ok,
      ⟨if ent.writer ≠ none ∧ ent.writer = writer then (inodeFlush d ent.inode).2 else d, m.cache,
        m.nodes.filter fun y => y.inode.id ≠ id, devs⟩) := by
  have hthere : searchOpened (setNode m.nodes ent) id = some ent :=
    (searchOpened_eq_some_iff (sorted_setNode hsorted ent)).mpr
      ⟨(mem_setNode hmem (hid.trans hent.symm)).mpr (Or.inl rfl), hent⟩
  have hfilter := filter_setNode m.nodes ent
  rw [show ent.inode.id = id from hent] at hfilter
  rw [inodeClose, hthere]
  simp only [hcount, hfilter, decide_eq_true_eq]
  rfl

theorem step_close_put (hkeys : (m.devs.map Dev.key).Nodup) (hsorted : Sorted m.nodes)
    (hat : m.devAt key = some (dev, node)) (hid : f.inode.id = node.inode.id)
    (honly : node.openCount = 1) (blocks : List Block) (d : Disk) (fuel : Nat) :
    (m.put dev node { f with blocks } d).step fuel (.close key) =
      (m.put dev node f d).step fuel (.close key) := by
  obtain ⟨-, -, hmem, hnid⟩ := (devAt_iff hkeys hsorted).mp hat
  have hclose := fun (blocks : List Block) =>
    @inodeClose_last m node dev.node { node with inode := f.inode, blocks } hsorted hmem hnid
      (hid.trans hnid) honly
  rw [Mount.step, Mount.step, devClose, devClose, Mount.withDev, Mount.withDev,
    devAt_put hkeys hsorted hat hid d, devAt_put (f := { f with blocks }) hkeys hsorted hat hid d]
  simp only [Mount.put, hclose]

/-- A shrink within the last block does to the volume what it should, and the close after it lets
go of the list. -/
theorem step_trunc_close (hopt : Formattable opt) (h : Tied S m s v hints chains)
    (hat : Live m s v chains key dev node) (hrw : dev.rw = true)
    (hfuel : opt.blockCount.toNat ≤ fuel) {off : UInt32} (hoff : off ≠ 0)
    (hsize : off < node.inode.dataSize)
    (hkeep : (off.toNat - 1) / opt.blockSize.toNat + 1 = (chains dev.node).length)
    (honly : node.openCount = 1) :
    ∃ (s₁ : Store) (m₁ m₂ : Mount), s.step opt (.trunc key off.toNat) = (.code (.of .ok), s₁) ∧
      m.step fuel (.trunc key off.toNat) = .ok (.code (.of .ok), m₁) ∧
      m₁.step fuel (.close key) = .ok ((s₁.step opt (.close key)).1, m₂) ∧
      Stands opt S m₂ (s₁.step opt (.close key)).2 := by
  have hid : (fileOf dev node).inode.id = dev.node := hat.id_eq
  have hpos := toNat_pos hoff
  have hcast : (UInt32.ofNat (off.toNat : Int).toNat).toNat = (off.toNat : Int).toNat := by
    rw [Int.toNat_natCast, UInt32.ofNat_toNat]
  obtain ⟨w, hints', hstep, hb⟩ := step_trunc_put hopt h hat hrw hfuel hoff hsize hkeep
  have hwriter := h.wired.writer_of_rw hat.dev_mem hat.node_mem hat.id_eq hrw
  have htied := h.putFile hat hb rfl (by simp [hwriter])
  have hcall : s.step opt (.trunc key off.toNat) = s.trunc opt (handleOf dev) ⟨v.name dev.node,
      (v.inode dev.node).dataSize.toNat, contentOf v chains (fileOf dev node)⟩ off.toNat := by
    rw [Store.step, hat.withHandle]
  have hstore := hcall.trans (trunc_less hrw hcast (by omega) (UInt32.lt_iff_toNat_lt.mp hsize))
  simp only [held_contentOf hopt, hid, Int.toNat_natCast, hkeep, Nat.sub_self, Nat.add_zero,
    h.free] at hstore
  rw [hkeep] at htied
  have hlive : Option.isSome (Store.handle { s.setFile dev.node (some ⟨v.name dev.node, off.toNat,
      cut opt.blockSize.toNat 0 (contentOf v chains (fileOf dev node)) off.toNat
        (chains dev.node).length ((off.toNat - 1) / opt.blockSize.toNat * opt.blockSize.toNat +
          off.toNat % opt.blockSize.toNat)⟩) with free := (freeIds v).length } key) := by
    show (s.handle key).isSome
    rw [hat.handle, Option.isSome_some]
  obtain ⟨m₂, hclose, hm₂⟩ : ∃ m₂, Mount.step fuel _ (.close key) = .ok (_, m₂) ∧ _ :=
    htied.close hopt hlive
  refine ⟨_, _, m₂, hstore, hstep, ?_, hm₂⟩
  have hsame := step_close_put h.wired.keys h.wired.sorted hat.devAt (f := { fileOf dev node with
      inode := resized (fileOf dev node) off
      blocks := (chains dev.node).map w.block }) rfl honly
    (((chains dev.node).map w.block).take 1) (disk w hints') fuel
  exact hsame.trans hclose

/-- A read of `p.2` bytes from `p.1` on. -/
def probe (key : Nat) (p : UInt32 × UInt32) : List Act :=
  [.call (.seek key p.1.toNat .seekSet), .call (.read key p.2)]

/-- The answers to one from a file with the content `c`. -/
def found (c : Content UInt8) (p : UInt32 × UInt32) : List Answer :=
  [.position (some p.1.toNat), .bytes (c.get p.1.toNat p.2.toNat)]

/-- The answers to one that finds nothing. -/
def missed (p : UInt32 × UInt32) : List Answer :=
  [.position (some p.1.toNat), .bytes []]

/-- No read behind the first block finds anything, however many there are. -/
theorem OneBlock.run_probes (hopt : Formattable opt) (h : OneBlock opt m key dev node)
    (hfuel : 0 < fuel) (hps : ∀ p ∈ ps, opt.blockSize ≤ p.1) :
    ∃ m', run (act fuel) m (ps.flatMap (probe key)) = .ok (ps.flatMap missed, m') := by
  induction ps generalizing m dev with
  | nil => exact ⟨m, rfl⟩
  | cons p ps ih =>
      obtain ⟨hp, hrest⟩ := List.forall_mem_cons.mp hps
      obtain ⟨m₁, hseek, h₁⟩ := h.step_seek fuel p.1
      obtain ⟨m₂, hread, h₂⟩ := h₁.step_read hopt hfuel hp p.2
      obtain ⟨m', hrun⟩ := ih h₂ hrest
      exact ⟨m', run_cons (act_of_step hseek) (run_cons (act_of_step hread) hrun)⟩

end

section

variable {S : List UInt8 → Prop} {opt : Options} {magic : List UInt8} {fuel : Nat}
  {acts : List Act} {key : Nat} {x : Handle} {c : Content UInt8} {len : UInt32}
  {ps : List (UInt32 × UInt32)} {a : Archive} {f : FileState}

theorem runAbs_probes (hx : a.store.handle key = some x) (hf : a.store.files x.file = some f)
    (ps : List (UInt32 × UInt32)) : Plays S a (ps.flatMap (probe key)) ∧
      (runAbs Archive.act a (ps.flatMap (probe key))).1 = ps.flatMap (found f.content) := by
  induction ps generalizing a x with
  | nil => exact ⟨trivial, rfl⟩
  | cons p ps ih =>
      have hseek := @step_seek a.opt _ _ _ _ hx hf p.1.toNat p.1.toNat_lt
      have hthere := handle_setPos hx p.1.toNat
      have hread := step_read a.opt hthere hf p.2
      have hmoved := handle_setPos hthere
        (p.1.toNat + (f.content.get p.1.toNat p.2.toNat).length)
      simp only at hread
      generalize p.1.toNat + (f.content.get p.1.toNat p.2.toNat).length = stop at hread hmoved
      have hact : a.act (.call (.seek key p.1.toNat .seekSet)) =
          (.position (some p.1.toNat), { a with store := a.store.setPos key p.1.toNat }) := by
        rw [Archive.act, hseek]
      have hact' : Archive.act { a with store := a.store.setPos key p.1.toNat }
          (.call (.read key p.2)) = (.bytes (f.content.get p.1.toNat p.2.toNat),
            { a with store := (a.store.setPos key p.1.toNat).setPos key stop }) := by
        rw [Archive.act, hread]
      obtain ⟨hplays, hanswers⟩ :=
        @ih _ { a with store := (a.store.setPos key p.1.toNat).setPos key stop } hmoved hf
      refine ⟨⟨?_, ?_, ?_⟩, ?_⟩
      · show (a.store.handle key).isSome = true
        rw [hx, Option.isSome_some]
      · rw [hact]
        show ((a.store.setPos key p.1.toNat).handle key).isSome = true
        rw [hthere, Option.isSome_some]
      · rw [hact, hact']
        exact hplays
      · show (runAbs Archive.act a (.call (.seek key p.1.toNat .seekSet) ::
          .call (.read key p.2) :: ps.flatMap (probe key))).1 = _
        rw [runAbs_cons, hact, runAbs_cons, hact', hanswers]
        rfl

/-- When a file has been shrunk within the last of its blocks, its end is where it should be, but
of what is read behind its first block nothing is found any more. -/
theorem life_last_block (h : Lived S opt magic fuel acts) (image : List UInt8)
    (hx : (fable opt acts).2.store.handle key = some x) (hrw : x.rw = true)
    (hc : contents (fable opt acts).2.store x.file = some c) (hlen : len ≠ 0)
    (hsize : len.toNat < c.size)
    (hlast : (len.toNat - 1) / (fable opt acts).2.opt.blockSize.toNat + 1 =
      held (fable opt acts).2.opt c)
    (hps : ∀ p ∈ ps, (fable opt acts).2.opt.blockSize ≤ p.1) :
    ∃ m m₀ m', life fuel opt magic image acts = .ok ((fable opt acts).1, m) ∧
      run (act fuel) m (ps.flatMap (probe key)) = .ok (ps.flatMap (found c), m₀) ∧
      run (act fuel) m (.call (.trunc key len.toNat) :: .call (.seek key 0 .seekEnd) ::
          ps.flatMap (probe key)) =
        .ok (.code (.of .ok) :: .position (some len.toNat) :: ps.flatMap missed, m') := by
  obtain ⟨m, hlife, hopt, v, hints, chains, htied⟩ := h.holds image
  have hcount := blockCount_lt hopt
  have hfuel := h.fuel
  have hsome : 0 < fuel := by omega
  obtain ⟨dev, node, hat, rfl, rfl⟩ := live_content htied hx hc
  obtain ⟨hplays, hanswers⟩ := runAbs_probes (S := S) hx hat.file ps
  obtain ⟨m₀, hbefore, -⟩ := run_simulates h.names h.fuel ⟨hopt, v, hints, chains, htied⟩ hplays
  rw [hanswers] at hbefore
  have hid : (fileOf dev node).inode.id = dev.node := hat.id_eq
  rw [held_contentOf hopt, hid] at hlast
  obtain ⟨m₁, node', htrunc, h₁, hend⟩ := step_trunc_last hopt htied hat hrw
    (Nat.le_trans (by omega) hfuel) hlen (UInt32.lt_iff_toNat_lt.mpr hsize) hlast
  obtain ⟨m₂, hseek, h₂⟩ := h₁.step_seekEnd fuel
  obtain ⟨m', hrun⟩ := h₂.run_probes hopt hsome hps
  rw [hend] at hseek
  exact ⟨m, m₀, m', hlife, hbefore,
    run_cons (act_of_step htrunc) (run_cons (act_of_step hseek) hrun)⟩

theorem life_last_block_small : ∃ m m₀ m',
    life (2 ^ 32) smallOptions [0x21] [] (opening ++ [filling]) =
        .ok ([.opened true, .opened true, .count 11, .count 40], m) ∧
      run (act (2 ^ 32)) m (probe 1 (32, 3)) =
        .ok ([.position (some 32), .bytes [5, 5, 5]], m₀) ∧
      run (act (2 ^ 32)) m
          (.call (.trunc 1 36) :: .call (.seek 1 0 .seekEnd) :: probe 1 (32, 3)) =
        .ok ([.code (.of .ok), .position (some 36), .position (some 32), .bytes []], m') := by
  have hplays : Plays smallName (fable smallOptions opening).2 [filling] :=
    ⟨⟨rfl, by decide⟩, trivial⟩
  have hps : ∀ p ∈ [((32, 3) : UInt32 × UInt32)], (32 : UInt32) ≤ p.1 :=
    List.forall_mem_singleton.mpr (UInt32.le_refl 32)
  exact @life_last_block _ _ _ _ _ 1 ⟨1, 2, 40, true⟩ ⟨40, List.replicate 40 5 ++
    List.replicate 24 0⟩ 36 [(32, 3)] (lived_opening hplays) [] rfl rfl rfl (by decide) (by decide)
    rfl hps

/-- A truncation within the last block of a file, and the close of the handle. -/
def shrinking (key : Nat) (len : UInt32) : List Act :=
  [.call (.trunc key len.toNat), .call (.close key)]

/-- Once the only handle of the file is closed, all is as it should be, whatever is done next. -/
theorem life_last_block_closed (h : Lived S opt magic fuel acts) (image : List UInt8)
    (hx : (fable opt acts).2.store.handle key = some x) (hrw : x.rw = true)
    (hc : contents (fable opt acts).2.store x.file = some c) (hlen : len ≠ 0)
    (hsize : len.toNat < c.size)
    (hlast : (len.toNat - 1) / (fable opt acts).2.opt.blockSize.toNat + 1 =
      held (fable opt acts).2.opt c)
    (honly : ((fable opt acts).2.store.handles.countP fun y => y.file = x.file) = 1)
    {acts' : List Act} (hplays : Plays S (fable opt (acts ++ shrinking key len)).2 acts') :
    ∃ m, life fuel opt magic image ((acts ++ shrinking key len) ++ acts') =
        .ok ((fable opt ((acts ++ shrinking key len) ++ acts')).1, m) ∧
      Holds S m (fable opt ((acts ++ shrinking key len) ++ acts')).2 := by
  obtain ⟨m, hrun, hopt, v, hints, chains, htied⟩ := h.runs
  have hcount := blockCount_lt hopt
  have hfuel := h.fuel
  obtain ⟨dev, node, hat, rfl, rfl⟩ := live_content htied hx hc
  have hid : (fileOf dev node).inode.id = dev.node := hat.id_eq
  rw [held_contentOf hopt, hid] at hlast
  have hone : node.openCount = 1 := by
    have hdevs := (htied.wired.node node hat.node_mem).count
    rw [htied.handles, List.countP_map] at honly
    rw [hat.id_eq] at hdevs
    exact UInt16.toNat_inj.mp (hdevs.trans honly)
  obtain ⟨s₁, m₁, m₂, hstore, htrunc, hclose, hm₂⟩ := step_trunc_close hopt htied hat hrw
    (Nat.le_trans (by omega) hfuel) hlen (UInt32.lt_iff_toNat_lt.mpr hsize) hlast hone
  have hact : Archive.act (fable opt acts).2 (.call (.trunc key len.toNat)) =
      (.code (.of .ok), ⟨(fable opt acts).2.opt, s₁⟩) := by
    rw [Archive.act, hstore]
  have hshrunk : fable opt (acts ++ shrinking key len) =
      ((fable opt acts).1 ++ [.code (.of .ok), (s₁.step (fable opt acts).2.opt (.close key)).1],
        ⟨(fable opt acts).2.opt, (s₁.step (fable opt acts).2.opt (.close key)).2⟩) := by
    rw [fable_append, shrinking, runAbs_cons, hact]
    rfl
  have hholds : Holds S m₂ (fable opt (acts ++ shrinking key len)).2 := by
    rw [hshrunk]
    exact ⟨hopt, hm₂⟩
  obtain ⟨m', hrest, hm'⟩ := run_simulates h.names h.fuel hholds hplays
  have hpair : run (act fuel) m (shrinking key len) =
      .ok ([.code (.of .ok), (s₁.step (fable opt acts).2.opt (.close key)).1], m₂) :=
    run_cons (act_of_step htrunc) (run_cons (act_of_step hclose) rfl)
  have hwhole := run_append (run_append hrun hpair) hrest
  refine ⟨m', life_of_run h.formattable h.magic ?_ image, ?_⟩
  · rw [hwhole, fable_append opt (acts ++ shrinking key len), hshrunk]
  · rw [fable_append]
    exact hm'

theorem life_last_block_closed_small : ∃ m,
    life (2 ^ 32) smallOptions [0x21] [] (((opening ++ [filling]) ++ shrinking 1 36) ++
        .call (.openDev 0 3 [0x41] false) :: probe 3 (32, 64)) =
      .ok ([.opened true, .opened true, .count 11, .count 40, .code (.of .ok), .code (.of .ok),
        .opened true, .position (some 32), .bytes [5, 5, 5, 5]], m) := by
  have hplays : Plays smallName (fable smallOptions opening).2 [filling] :=
    ⟨⟨rfl, by decide⟩, trivial⟩
  have hplays' : Plays smallName (fable smallOptions ((opening ++ [filling]) ++ shrinking 1 36)).2
      (.call (.openDev 0 3 [0x41] false) :: probe 3 (32, 64)) :=
    ⟨⟨rfl, Or.inl rfl, by decide, by decide⟩, rfl, rfl, trivial⟩
  obtain ⟨m, hlife, -⟩ := @life_last_block_closed _ _ _ _ _ 1 ⟨1, 2, 40, true⟩ ⟨40,
    List.replicate 40 5 ++ List.replicate 24 0⟩ 36 (lived_opening hplays) [] rfl rfl rfl
    (by decide) (by decide) rfl rfl _ hplays'
  exact ⟨m, hlife⟩

end

end Iqiq.WhefsLastBlock
