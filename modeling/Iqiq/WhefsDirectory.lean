import Iqiq.WhefsStore

namespace Iqiq.WhefsDirectory

open Iqiq.BlockedFile
open Iqiq.FileStore
open Iqiq.KeyedList hiding lookup
open Iqiq.NameCache
open Iqiq.Whefs
open Iqiq.WhefsAllocation
open Iqiq.WhefsChains
open Iqiq.WhefsDisk
open Iqiq.WhefsEncode
open Iqiq.WhefsFiles
open Iqiq.WhefsFree
open Iqiq.WhefsGrowth
open Iqiq.WhefsInodes
open Iqiq.WhefsMount
open Iqiq.WhefsNames
open Iqiq.WhefsNaming
open Iqiq.WhefsOpened
open Iqiq.WhefsStore
open Iqiq.WhefsTruncate
open Iqiq.WhefsVolume
open Iqiq.WhefsWriting

section

variable {opt : Options} {S : List UInt8 → Prop} {m m' : Mount} {s s' : Store} {v w : Volume opt}
  {hints hints' : Hints} {chains : UInt32 → List UInt32} {nodes : List Node} {devs : List Dev}
  {x node : Node} {dev : Dev} {id n : UInt32} {key : Nat} {name : List UInt8} {rw : Bool}
  {cache : Cache}

theorem mem_ids : id ∈ Store.ids opt ↔ IsFileId opt id := by
  rw [Store.ids, List.mem_map]
  constructor
  · rintro ⟨k, hk, rfl⟩
    rw [List.mem_range'_1] at hk
    have := opt.inodeCount.toNat_lt
    rw [IsFileId, UInt32.toNat_ofNat_of_lt' (by change k < 2 ^ 32; omega)]
    omega
  · rintro ⟨htwo, hle⟩
    exact ⟨id.toNat, List.mem_range'_1.mpr (by omega), UInt32.ofNat_toNat⟩

theorem pairwise_ids (opt : Options) : (Store.ids opt).Pairwise (· < ·) := by
  rw [Store.ids, List.pairwise_map]
  refine (List.pairwise_lt_range' 1).imp_of_mem ?_
  intro a b ha hb hab
  have := opt.inodeCount.toNat_lt
  rw [List.mem_range'_1] at ha hb
  rw [UInt32.lt_iff_toNat_lt, UInt32.toNat_ofNat_of_lt' (by change a < 2 ^ 32; omega),
    UInt32.toNat_ofNat_of_lt' (by change b < 2 ^ 32; omega)]
  exact hab

theorem used_of_name (h : Tied S m s v hints chains) (hid : IsFileId opt id)
    (hname : v.name id ≠ []) : InodeUsed v id := by
  by_contra hunused
  exact hname ((h.recorded id hid).blank hunused).name

theorem hasName_iff (h : Tied S m s v hints chains) (hname : name ≠ []) (hid : IsFileId opt id) :
    ((s.files id).any fun f => f.name = name) = true ↔ v.name id = name := by
  rw [h.files id hid]
  by_cases hused : InodeUsed v id
  · rw [fileAt_of_used hused, Option.any_some, decide_eq_true_eq]
  · rw [fileAt_of_unused hused, ((h.recorded id hid).blank hused).name]
    exact iff_of_false (by simp) (Ne.symm hname)

theorem byName_eq_none_iff (h : Tied S m s v hints chains) (hname : name ≠ []) :
    s.byName opt name = none ↔ ∀ id, IsFileId opt id → v.name id ≠ name := by
  rw [Store.byName, List.find?_eq_none]
  constructor
  · intro hall id hid heq
    exact hall id (mem_ids.mpr hid) ((hasName_iff h hname hid).mpr heq)
  · intro hall id hmem heq
    have hid := mem_ids.mp hmem
    exact hall id hid ((hasName_iff h hname hid).mp heq)

theorem byName_spec (h : Tied S m s v hints chains) (hname : name ≠ [])
    (hfound : s.byName opt name = some id) : IsFileId opt id ∧ v.name id = name := by
  have hid := mem_ids.mp (List.mem_of_find?_eq_some hfound)
  exact ⟨hid, (hasName_iff h hname hid).mp (List.find?_eq_some_iff_append.mp hfound).1⟩

theorem fresh_eq_none (h : Tied S m s v hints chains) (hnone : s.fresh opt = none) :
    ∀ id, IsFileId opt id → InodeUsed v id := by
  intro id hid
  by_contra hunused
  have hall := List.find?_eq_none.mp hnone id (mem_ids.mpr hid)
  rw [h.files id hid, fileAt_of_unused hunused] at hall
  exact hall rfl

theorem fresh_spec (h : Tied S m s v hints chains) (hfound : s.fresh opt = some id) :
    IsFileId opt id ∧ ¬ InodeUsed v id ∧ ∀ j, IsFileId opt j → j < id → InodeUsed v j := by
  obtain ⟨hp, before, behind, hsplit, hbefore⟩ := List.find?_eq_some_iff_append.mp hfound
  have hid : IsFileId opt id := mem_ids.mp (by rw [hsplit]; simp)
  rw [h.files id hid] at hp
  refine ⟨hid, fun hused => ?_, fun j hj hlt => ?_⟩
  · rw [fileAt_of_used hused] at hp
    exact absurd hp (by simp)
  · by_contra hunused
    have hmem : j ∈ before ++ id :: behind := hsplit ▸ mem_ids.mpr hj
    have hsorted := pairwise_ids opt
    rw [hsplit] at hsorted
    rcases List.mem_append.mp hmem with hmem | hmem
    · have hnot := hbefore j hmem
      rw [h.files j hj, fileAt_of_unused hunused] at hnot
      exact absurd hnot (by simp)
    · rcases List.mem_cons.mp hmem with rfl | hmem
      · exact UInt32.lt_irrefl j hlt
      · have hpairs := (List.pairwise_append.mp hsorted).2.1
        exact UInt32.lt_asymm hlt ((List.pairwise_cons.mp hpairs).1 j hmem)

theorem isOpen_iff (h : Tied S m s v hints chains) (id : UInt32) :
    s.isOpen id = true ↔ ∃ x ∈ m.nodes, nodeId x = id := by
  rw [Store.isOpen, h.handles, List.any_map, List.any_eq_true]
  constructor
  · rintro ⟨d, hd, heq⟩
    obtain ⟨x, hx, hid⟩ := h.wired.live d hd
    exact ⟨x, hx, hid.trans (of_decide_eq_true heq)⟩
  · rintro ⟨x, hx, rfl⟩
    have hold := h.wired.node x hx
    have hpos := hold.count_pos
    rw [hold.count, List.countP_pos_iff] at hpos
    obtain ⟨d, hd, heq⟩ := hpos
    exact ⟨d, hd, heq⟩

theorem isWritten_iff (h : Tied S m s v hints chains) (hx : x ∈ m.nodes) (hid : nodeId x = id) :
    s.isWritten id = true ↔ x.writer ≠ none := by
  have hold := h.wired.node x hx
  rw [Store.isWritten, h.handles, List.any_map, List.any_eq_true]
  constructor
  · rintro ⟨d, hd, heq⟩
    have hdev : d.node = id ∧ d.rw = true := of_decide_eq_true heq
    rw [h.wired.writer_of_rw hd hx (hid.trans hdev.1.symm) hdev.2]
    simp
  · intro hne
    obtain ⟨k, hk⟩ := Option.ne_none_iff_exists'.mp hne
    obtain ⟨d, hd, -, hdn, hrw⟩ := (hold.writer k).mp hk
    exact ⟨d, hd, decide_eq_true ⟨hdn.trans hid, hrw⟩⟩

theorem isWritten_of_closed (h : Tied S m s v hints chains)
    (hclosed : ∀ x ∈ m.nodes, nodeId x ≠ id) : s.isWritten id = false := by
  have hopen : ¬ s.isOpen id = true := fun hopen => by
    obtain ⟨x, hx, heq⟩ := (isOpen_iff h id).mp hopen
    exact hclosed x hx heq
  rw [Store.isWritten, List.any_eq_false]
  intro hd hmem hp
  have heq : hd.file = id ∧ hd.rw = true := of_decide_eq_true hp
  exact hopen (List.any_eq_true.mpr ⟨hd, hmem, decide_eq_true heq.1⟩)

theorem inodeByNameHints_found (hopt : Formattable opt) (hS : HashNames S)
    (h : Tied S m s v hints chains) (hid : IsFileId opt id) (hname : v.name id ≠ []) :
    ∃ cache, inodeByNameHints m (v.name id) = .ok (.ok, v.inode id, { m with cache }) ∧
      Tied S { m with cache } s v hints chains := by
  obtain ⟨cache, hrun, hnamed, -⟩ := inodeByName_found hopt hS h.named hid hname
  have hused : isUsed (v.inode id).flags = true := used_of_name h hid hname
  have hhints := @inodeUpdateUsed_disk opt v hints (v.inode id)
    (by rw [v.inode_id]; exact hid.isInode)
  rw [lowerInode_of_used hints hused] at hhints
  refine ⟨cache, ?_, h.withCache hnamed⟩
  rw [inodeByNameHints, h.disk, disk_fs, hrun]
  simp only [Run.ok_bind, if_true, hhints]
  rfl

theorem inodeByNameHints_missing (hopt : Formattable opt) (hS : HashNames S)
    (h : Tied S m s v hints chains) (hname : S name)
    (hlen : name.length ≤ opt.filenameLength.toNat) (hnone : s.byName opt name = none) :
    ∃ cache, inodeByNameHints m name = .ok (s.notFound opt, inodeEmpty, { m with cache }) ∧
      Tied S { m with cache } s v hints chains := by
  have hmissing := (byName_eq_none_iff h (hS.ne_nil name hname)).mp hnone
  obtain ⟨cache, hrun, hnamed⟩ := inodeByName_missing hopt hS h.named hname hlen hmissing
  have hlast : IsFileId opt opt.inodeCount := ⟨hopt.inodeCount, le_rfl⟩
  have hcode : (if v.name opt.inodeCount = [] then Rc.rangeError else .mismatch) =
      s.notFound opt := by
    rw [Store.notFound, h.files _ hlast]
    by_cases hused : InodeUsed v opt.inodeCount
    · rw [fileAt_of_used hused, if_neg ((h.recorded _ hlast).named hused)]
      rfl
    · rw [fileAt_of_unused hused, if_pos ((h.recorded _ hlast).blank hused).name]
      rfl
  have hne : s.notFound opt ≠ .ok := by
    rw [Store.notFound]
    split <;> decide
  refine ⟨cache, ?_, h.withCache hnamed⟩
  rw [inodeByNameHints, h.disk, disk_fs, hrun, hcode]
  simp only [Run.ok_bind, if_neg hne]
  rfl

/-- What `whefs_inode_open` makes of an opened inode, for one more device. -/
def joined (x : Node) (key : Nat) (rw : Bool) : Node :=
  { x with
    writer := if rw then some key else x.writer
    openCount := x.openCount + 1 }

theorem inodeOpen_opened (h : Tied S m s v hints chains) (hid : IsFileId opt id)
    (hx : x ∈ m.nodes) (hxid : nodeId x = id) (hnew : ∀ d ∈ m.devs, d.key ≠ key) :
    inodeOpen m id (if rw then some key else none) =
      if rw = true ∧ x.writer ≠ none then (.accessError, m)
      else (.of .ok, { m with nodes := setNode m.nodes (joined x key rw) }) := by
  have hvalid : inodeIdIsValid m.disk.fs id := by
    rw [h.disk]
    exact Volume.inodeIdIsValid_fs.mpr hid.isInode
  have hsearch : searchOpened m.nodes id = some x :=
    (searchOpened_eq_some_iff h.wired.sorted).mpr ⟨hx, hxid⟩
  have hother : x.writer ≠ some key := by
    intro hkey
    obtain ⟨d, hd, heq, -⟩ := ((h.wired.node x hx).writer key).mp hkey
    exact hnew d hd heq
  rw [inodeOpen, if_neg (not_not_intro hvalid), hsearch]
  simp only
  cases rw with
  | false =>
      have hnone : (if x.writer = none then none else x.writer) = x.writer := by
        split
        · rename_i hnil
          exact hnil.symm
        · rfl
      simp [hnone, joined]
  | true => cases hwriter : x.writer <;> simp_all [joined]

theorem inodeOpen_closed (hopt : Formattable opt) (h : Tied S m s v hints chains)
    (hid : IsFileId opt id) (hused : InodeUsed v id) (hclosed : ∀ x ∈ m.nodes, nodeId x ≠ id)
    (writer : Option Nat) :
    inodeOpen m id writer =
      (.of .ok, { m with nodes := insertNode ⟨v.inode id, [], writer, 1⟩ m.nodes }) := by
  have hvalid : inodeIdIsValid m.disk.fs id := by
    rw [h.disk]
    exact Volume.inodeIdIsValid_fs.mpr hid.isInode
  have hused' : isUsed (v.inode id).flags = true := hused
  rw [inodeOpen, if_neg (not_not_intro hvalid),
    (searchOpened_eq_none_iff h.wired.sorted).mpr hclosed]
  simp only
  rw [h.disk, inodeIdReadHints_disk hopt hid.isInode, lowerInode_of_used hints hused']
  simp only
  rw [if_neg (not_not_intro rfl)]

theorem devForInode_tied (hopt : Formattable opt) (h : Tied S m s v hints chains)
    (hid : IsFileId opt id) (hused : InodeUsed v id) (hnew : ∀ d ∈ m.devs, d.key ≠ key)
    (hmost : s.handles.length < 65535) (rw : Bool) :
    ∃ there m', WhefsMount.devForInode m key id rw = (there, m') ∧
      Answer.opened there = (s.openId key id rw).1 ∧
      Tied S m' (s.openId key id rw).2 v hints chains := by
  have hvalid : inodeIdIsValid m.disk.fs id := by
    rw [h.disk]
    exact Volume.inodeIdIsValid_fs.mpr hid.isInode
  have hhandles : s.handles ++ [(⟨key, id, 0, rw⟩ : Handle)] =
      (m.devs ++ [(⟨key, id, 0, rw⟩ : Dev)]).map handleOf := by
    rw [List.map_append, h.handles]
    rfl
  rw [WhefsMount.devForInode, if_neg (not_not_intro hvalid), Store.openId]
  by_cases hopen : ∃ x ∈ m.nodes, nodeId x = id
  · obtain ⟨x, hx, hxid⟩ := hopen
    have hwritten := isWritten_iff h hx hxid
    rw [inodeOpen_opened h hid hx hxid hnew]
    by_cases hclash : rw = true ∧ x.writer ≠ none
    · have hclash' : rw = true ∧ s.isWritten id = true := ⟨hclash.1, hwritten.mpr hclash.2⟩
      rw [if_pos hclash, if_pos hclash']
      exact ⟨false, m, rfl, rfl, h⟩
    · have hclash' : ¬ (rw = true ∧ s.isWritten id = true) := fun hboth =>
        hclash ⟨hboth.1, hwritten.mp hboth.2⟩
      rw [if_neg hclash, if_neg hclash']
      refine ⟨true, _, rfl, rfl, ?_⟩
      have hcount : x.openCount.toNat < 65535 := by
        have hle := List.countP_le_length (p := fun d : Dev => d.node = nodeId x) (l := m.devs)
        rw [(h.wired.node x hx).count]
        rw [h.handles, List.length_map] at hmost
        omega
      have hnone : rw = true → x.writer = none := fun hrw => by
        by_contra hne
        exact hclash ⟨hrw, hne⟩
      have hwired := @Wired.reopen _ v chains m.nodes m.devs _ x ⟨key, id, 0, rw⟩ h.wired hx hxid
        hnew hcount hnone rfl
      refine h.rewire rfl hwired rfl (fun i hi => ?_) rfl rfl hhandles
      have hmem : ∀ y, y ∈ setNode m.nodes (joined x key rw) ↔
          y = joined x key rw ∨ y ∈ m.nodes ∧ nodeId y ≠ nodeId x := fun y =>
        @mem_setNode m.nodes (joined x key rw) x hx rfl y
      rcases eq_or_ne i (nodeId x) with rfl | hne
      · rw [sizeAt_of_mem h.wired.sorted hx rfl]
        exact @sizeAt_of_mem _ v _ (joined x key rw) _ hwired.sorted ((hmem _).mpr (Or.inl rfl)) rfl
      · refine sizeAt_congr h.wired.sorted hwired.sorted (fun y hy => ?_) rfl
        refine (hmem y).trans ?_
        rw [and_iff_left (hy ▸ hne), or_iff_right]
        rintro rfl
        exact hne hy.symm
  · have hclosed : ∀ x ∈ m.nodes, nodeId x ≠ id := fun x hx heq => hopen ⟨x, hx, heq⟩
    have hwritten : ¬ (rw = true ∧ s.isWritten id = true) := fun hboth => by
      rw [isWritten_of_closed h hclosed] at hboth
      exact absurd hboth.2 (by decide)
    rw [inodeOpen_closed hopt h hid hused hclosed, if_neg hwritten]
    refine ⟨true, _, rfl, rfl, ?_⟩
    have hwired := @Wired.openNew _ v chains m.nodes m.devs _ ⟨key, id, 0, rw⟩ h.wired hid hused
      hclosed hnew rfl
    refine h.rewire rfl hwired rfl (fun i hi => ?_) rfl rfl hhandles
    rcases eq_or_ne i id with rfl | hne
    · rw [sizeAt_of_closed h.wired.sorted hclosed]
      exact sizeAt_of_mem hwired.sorted (mem_insertNode.mpr (Or.inl rfl)) (v.inode_id i)
    · refine sizeAt_congr h.wired.sorted hwired.sorted (fun y hy => ?_) rfl
      refine mem_insertNode.trans (or_iff_right ?_)
      rintro rfl
      exact hne (hy.symm.trans (v.inode_id id))

theorem chains_of_unused (h : Tied S m s v hints chains) (hid : IsFileId opt id)
    (hfree : ¬ InodeUsed v id) : chains id = [] := by
  have hchain := h.formed.chained.chain id hid.isInode
  rw [((h.recorded id hid).blank hfree).inode] at hchain
  exact hchain.eq (chain_nil_iff.mpr rfl)

/-- The volume with a new file. -/
def created (v : Volume opt) (now id : UInt32) (name : List UInt8)
    (hlen : name.length ≤ opt.filenameLength.toNat) (hzero : 0 ∉ name) : Volume opt :=
  (v.setInode (marked now (v.inode id))).setName id name hlen hzero

theorem created_inode {now : UInt32} {hlen : name.length ≤ opt.filenameLength.toNat}
    {hzero : 0 ∉ name} : (created v now id name hlen hzero).inode =
      Function.update v.inode id (marked now (v.inode id)) := by
  change Function.update v.inode (marked now (v.inode id)).id _ = _
  rw [show (marked now (v.inode id)).id = id from v.inode_id id]

theorem apart_created {now : UInt32} {hlen : name.length ≤ opt.filenameLength.toNat}
    {hzero : 0 ∉ name} : Apart v chains id (created v now id name hlen hzero) :=
  ⟨fun _ _ _ _ _ => rfl, fun _ _ _ _ _ => rfl, fun _ hne => Function.update_of_ne hne _ _,
    fun m hne => by rw [created_inode, Function.update_of_ne hne]⟩

theorem closed_of_unused (h : Tied S m s v hints chains) (hfree : ¬ InodeUsed v id) :
    ∀ x ∈ m.nodes, nodeId x ≠ id := by
  rintro x hx rfl
  exact hfree (h.wired.node x hx).used

theorem tied_created (h : Tied S m s v hints chains) (hid : IsFileId opt id)
    (hfree : ¬ InodeUsed v id) (hname : name ≠ []) {now : UInt32}
    {hlen : name.length ≤ opt.filenameLength.toNat} {hzero : 0 ∉ name}
    (hhinted : Hinted (v.setInode (marked now (v.inode id))) hints')
    (hnamed : Named S (created v now id name hlen hzero) cache) :
    Tied S { m with disk := disk (created v now id name hlen hzero) hints', cache }
      (s.setFile id (some ⟨name, 0, ⟨0, []⟩⟩)) (created v now id name hlen hzero) hints'
      chains := by
  have hnil := chains_of_unused h hid hfree
  have hclosed := closed_of_unused h hfree
  have hblank := (h.recorded id hid).blank hfree
  have hsame : chains = Function.update chains id (chains id) :=
    (Function.update_eq_self ..).symm
  have hself : (marked now (v.inode id)).id = id := v.inode_id id
  have hused : InodeUsed (created v now id name hlen hzero) id := by
    rw [InodeUsed, created_inode, Function.update_self]
    exact isUsed_or _
  have hformed : Formed (created v now id name hlen hzero) hints' chains :=
    Formed.setName ⟨h.formed.chained.setInode (by rw [hself]; rfl), hhinted⟩
  have hwired := h.wired.closed apart_created hclosed hsame
    (w := created v now id name hlen hzero)
  rw [hsame]
  refine h.change apart_created hid.ne_one rfl ?_ ?_ hnamed
    (fun _ => ⟨fun _ => ?_, fun hn => absurd hused hn⟩) (fun _ _ => Iff.rfl)
    (fun _ => ?_) (fun i hne => Function.update_of_ne hne _ _) ?_ h.handles
  · rwa [← hsame]
  · rwa [← hsame]
  · change Function.update v.name id name id ≠ []
    rwa [Function.update_self]
  · have hsize := @sizeAt_of_closed _ (created v now id name hlen hzero) _ id h.wired.sorted hclosed
    have hname' : (created v now id name hlen hzero).name id = name := Function.update_self ..
    rw [← hsame, fileAt_of_used hused]
    change Function.update s.files id _ id = _
    rw [Function.update_self, hsize, hname', created_inode, Function.update_self, hnil]
    change _ = some (⟨name, (v.inode id).dataSize.toNat, ⟨(v.inode id).dataSize.toNat, []⟩⟩ :
      FileState)
    rw [hblank.inode]
    rfl
  · exact h.free

/-- A new file for a name that there is not yet. -/
theorem create_tied (hopt : Formattable opt) (hS : HashNames S) (h : Tied S m s v hints chains)
    (hid : IsFileId opt id) (hfree : ¬ InodeUsed v id)
    (hbelow : ∀ j, IsFileId opt j → j < id → InodeUsed v j) (hname : S name)
    (hlen : name.length ≤ opt.filenameLength.toNat)
    (hmissing : ∀ i, IsFileId opt i → v.name i ≠ name) (now : UInt32) :
    ∃ (ino : Inode) (d : Disk) (m' : Mount) (w : Volume opt) (hints' : Hints),
      inodeNextFree now m.disk true = .ok (.ok ino, d) ∧ ino.id = id ∧
      inodeNameSet { m with disk := d } id name = .ok (.of .ok, m') ∧
      (inodeFlush m'.disk ino).2 = m'.disk ∧ m'.devs = m.devs ∧ InodeUsed w id ∧
      Tied S m' (s.setFile id (some ⟨name, 0, ⟨0, []⟩⟩)) w hints' chains := by
  obtain ⟨hints', hrun, hhinted⟩ :=
    inodeNextFree_found hopt h.formed.hinted hid hfree hbelow now
  have hzero := hS.zero_notMem name hname
  have hself : (marked now (v.inode id)).id = id := v.inode_id id
  have hnamed : Named S (v.setInode (marked now (v.inode id))) m.cache := h.named.congr rfl
  obtain ⟨cache, hset, hnamed'⟩ := @inodeNameSet_fs opt S (v.setInode (marked now (v.inode id)))
    hints' id name hlen hzero hopt hS { m with disk := disk _ hints' } rfl hnamed hid
    (Or.inr hname) fun _ i hi _ => hmissing i hi
  have hflush := @inodeFlush_disk opt (created v now id name hlen hzero) hints' hopt
    (marked now (v.inode id)) (by rw [hself]; exact hid.isInode)
  have hused : isUsed (marked now (v.inode id)).flags = true := isUsed_or _
  have hagain : (created v now id name hlen hzero).setInode (marked now (v.inode id)) =
      created v now id name hlen hzero := by
    rw [created, Volume.setName, Volume.setInode]
    simp only [Volume.setInode, Function.update_idem]
  rw [hagain, lowerInode_of_used _ hused] at hflush
  refine ⟨_, _, _, created v now id name hlen hzero, hints', ?_, hself, hset, ?_, rfl, ?_,
    tied_created h hid hfree (hS.ne_nil name hname) hhinted hnamed'⟩
  · rw [h.disk, hrun]
  · exact congrArg Prod.snd hflush
  · rw [InodeUsed, created_inode, Function.update_self]
    exact hused

theorem Tied.openDev (hopt : Formattable opt) (hS : HashNames S) (h : Tied S m s v hints chains)
    {fuel : Nat} (now : UInt32) (hnew : (s.handle key).isNone) (hname : S name)
    (hlen : name.length ≤ opt.filenameLength.toNat) (hmost : s.handles.length < 65535)
    (rw : Bool) :
    ∃ m', m.step fuel (.openDev now key name rw) =
        .ok ((s.step opt (.openDev now key name rw)).1, m') ∧
      Stands opt S m' (s.step opt (.openDev now key name rw)).2 := by
  have hne := hS.ne_nil name hname
  have hkey : ∀ d ∈ m.devs, d.key ≠ key := by
    have hnone := Option.isNone_iff_eq_none.mp hnew
    rw [handle_eq h, Option.map_eq_none_iff] at hnone
    exact lookup_eq_none_iff.mp hnone
  rw [Mount.step, devOpen, Store.step, Store.openName]
  cases hfound : s.byName opt name with
  | some id =>
      obtain ⟨hid, rfl⟩ := byName_spec h hne hfound
      obtain ⟨cache, hrun, htied⟩ := inodeByNameHints_found hopt hS h hid hne
      obtain ⟨there, m', hdev, hanswer, htied'⟩ :=
        devForInode_tied hopt htied hid (used_of_name h hid hne) hkey hmost rw
      rw [hrun]
      simp only [Run.ok_bind, if_true, v.inode_id, hdev, ← hanswer]
      exact ⟨m', rfl, _, _, _, htied'⟩
  | none =>
      obtain ⟨cache, hrun, htied⟩ := inodeByNameHints_missing hopt hS h hname hlen hfound
      have hcode : s.notFound opt ≠ .ok := by
        rw [Store.notFound]
        split <;> decide
      have hmissing := (byName_eq_none_iff h hne).mp hfound
      rw [hrun]
      simp only [Run.ok_bind, if_neg hcode]
      cases rw with
      | false => exact ⟨_, rfl, _, _, _, htied⟩
      | true =>
          simp only [not_true_eq_false, if_false]
          cases hfresh : s.fresh opt with
          | none =>
              obtain ⟨hints', hfull, hhinted⟩ := inodeNextFree_full hopt htied.formed.hinted
                (fresh_eq_none htied hfresh) now
              have hdisk : ({ m with cache } : Mount).disk = disk v hints := h.disk
              simp only at hdisk
              rw [hdisk, hfull]
              refine ⟨_, rfl, v, hints', chains, ⟨rfl, ⟨htied.formed.chained, hhinted⟩, htied.wired,
                htied.named, htied.root, htied.recorded, htied.files, htied.free, htied.handles⟩⟩
          | some id =>
              obtain ⟨hid, hfree, hbelow⟩ := fresh_spec htied hfresh
              obtain ⟨ino, d, m', w, hints', hrun', hself, hset, hflush, hdevs, hused, htied'⟩ :=
                create_tied hopt hS htied hid hfree hbelow hname hlen hmissing now
              obtain ⟨there, m'', hdev, hanswer, htied''⟩ :=
                devForInode_tied hopt htied' hid hused (hdevs ▸ hkey) hmost true
              have hsame : { m' with disk := (inodeFlush m'.disk ino).2 } = m' := by rw [hflush]
              simp only at hrun' hset
              simp only [hrun', Run.ok_bind, hself, hset, hsame, hdev, ← hanswer]
              exact ⟨m'', rfl, _, _, _, htied''⟩

theorem Wired.setName (h : Wired v chains nodes devs)
    {hlen : name.length ≤ opt.filenameLength.toNat} {hzero : 0 ∉ name} :
    Wired (v.setName id name hlen hzero) chains nodes devs := by
  refine ⟨h.sorted, h.keys, fun x hx => ?_, h.live⟩
  have hold := h.node x hx
  have hopened := hold.opened
  exact ⟨hold.isFile, hold.used, ⟨hopened.isInode, hopened.firstBlock, hopened.flags,
    hopened.dataSize, hopened.blocks⟩, hold.count, hold.count_pos, hold.writer, hold.stored⟩

theorem tied_setName (h : Tied S m s v hints chains) (hid : IsFileId opt id)
    (hused : InodeUsed v id) (hname : name ≠ [])
    {hlen : name.length ≤ opt.filenameLength.toNat} {hzero : 0 ∉ name}
    (hnamed : Named S (v.setName id name hlen hzero) cache) {f : FileState}
    (hf : s.files id = some f) :
    Tied S { m with cache, disk := disk (v.setName id name hlen hzero) hints }
      (s.setFile id (some { f with name })) (v.setName id name hlen hzero) hints chains := by
  have hsame : chains = Function.update chains id (chains id) :=
    (Function.update_eq_self ..).symm
  have happart : Apart v chains id (v.setName id name hlen hzero) :=
    ⟨fun _ _ _ _ _ => rfl, fun _ _ _ _ _ => rfl, fun _ hne => Function.update_of_ne hne _ _,
      fun _ _ => rfl⟩
  have hself : (v.setName id name hlen hzero).name id = name := Function.update_self ..
  have hfile := h.files id hid
  rw [hf, fileAt_of_used hused] at hfile
  obtain rfl := Option.some.inj hfile
  rw [hsame]
  refine h.change happart hid.ne_one rfl ?_ ?_ hnamed
    (fun _ => ⟨fun _ => ?_, fun hn => absurd hused hn⟩) (fun _ _ => Iff.rfl)
    (fun _ => ?_) (fun i hne => Function.update_of_ne hne _ _) h.free h.handles
  · rw [← hsame]
    exact h.formed.setName
  · rw [← hsame]
    exact Wired.setName h.wired
  · rwa [hself]
  · have hused' : InodeUsed (v.setName id name hlen hzero) id := hused
    rw [← hsame, fileAt_of_used hused', hself]
    change Function.update s.files id _ id = _
    rw [Function.update_self]
    rfl

theorem Tied.nameSet (hopt : Formattable opt) (hS : HashNames S) (h : Tied S m s v hints chains)
    {fuel : Nat} (hlive : (s.handle key).isSome)
    (hallowed : name ≠ [] → S name ∧ name.length ≤ opt.filenameLength.toNat ∧
      ∀ h, s.handle key = some h → ∀ id f, s.files id = some f → f.name = name → id = h.file) :
    ∃ m', m.step fuel (.nameSet key name) = .ok ((s.step opt (.nameSet key name)).1, m') ∧
      Stands opt S m' (s.step opt (.nameSet key name)).2 := by
  obtain ⟨dev, node, hat⟩ := h.live hlive
  rw [Mount.step, fileNameSet, hat.withDev, Store.step, hat.withHandle, Store.nameSet]
  rcases eq_or_ne name [] with hnil | hname
  · rw [if_pos hnil, if_pos hnil]
    exact ⟨m, rfl, v, hints, chains, h⟩
  rw [if_neg hname, if_neg hname]
  change ∃ m', (if ¬ dev.rw = true then _ else _) >>= _ = Except.ok (Prod.fst (if ¬ dev.rw = true
    then _ else _), m') ∧ Stands opt S m' (Prod.snd (if ¬ dev.rw = true then _ else _))
  cases hrw : dev.rw with
  | false => exact ⟨m, rfl, v, hints, chains, h⟩
  | true =>
      rw [if_neg (not_not_intro rfl), if_neg (not_not_intro rfl)]
      obtain ⟨hmem, hlen, hfree⟩ := hallowed hname
      have hzero := hS.zero_notMem name hmem
      have hid : node.inode.id = dev.node := hat.id_eq
      have hnode := h.wired.node node hat.node_mem
      have hfile : IsFileId opt dev.node := hat.id_eq ▸ hnode.isFile
      have hused : InodeUsed v dev.node := by
        rw [InodeUsed, ← hat.id_eq]
        exact hnode.used
      have hother : ∀ i, IsFileId opt i → i ≠ dev.node → v.name i ≠ name := by
        intro i hi hne heq
        have hused' := used_of_name h hi (by rwa [heq])
        have hstate := h.files i hi
        rw [fileAt_of_used hused'] at hstate
        exact hne (hfree _ hat.handle i _ hstate heq)
      obtain ⟨cache, hrun, hnamed⟩ := @inodeNameSet_fs opt S v hints dev.node name hlen hzero hopt
        hS m h.disk h.named hfile (Or.inr hmem) fun _ => hother
      rw [hid, hrun]
      exact ⟨_, rfl, _, _, _, tied_setName h hfile hused hname hnamed hat.file⟩

theorem inodeUnlinkBlocks_disk (hopt : Formattable opt) (h : Formed v hints chains)
    (hid : IsInode opt id) {fuel : Nat} (hfuel : opt.blockCount.toNat ≤ fuel) :
    ∃ freed, inodeUnlinkBlocks fuel (disk v hints) (v.inode id) =
        .ok (.of .ok, disk (freeBlocks v freed) (lowerBlocks hints freed)) ∧
      freed.Perm (chains id) := by
  have hchain := h.chained.chain id hid
  have hle := hchain.length_le
  cases hids : chains id with
  | nil =>
      rw [hids] at hchain
      exact ⟨[], if_pos (chain_nil_iff.mp hchain), List.Perm.refl _⟩
  | cons first rest =>
      rw [hids] at hchain hle
      have hne : ¬ (v.inode id).firstBlock = 0 := by
        obtain ⟨heq, hblock, -⟩ := chain_cons_iff.mp hchain
        rw [← heq]
        rintro rfl
        exact absurd hblock.1 (by decide)
      obtain ⟨rfl, hblock, hrest⟩ := chain_cons_iff.mp hchain
      have hself : (v.block (v.inode id).firstBlock).id = (v.inode id).firstBlock := v.block_id _
      rw [List.length_cons] at hle
      have hwipe := @blockWipe_disk opt v hints rest hopt (v.block (v.inode id).firstBlock) fuel
        (by rwa [hself]) hrest (by omega)
      rw [hself] at hwipe
      refine ⟨rest ++ [(v.inode id).firstBlock], ?_, List.perm_append_singleton _ _⟩
      rw [inodeUnlinkBlocks, if_neg hne, disk_fs, v.blockRead_eq hopt hblock]
      exact hwipe

/-- The volume without a file. -/
def unlinked (v : Volume opt) (id : UInt32) (freed : List UInt32) : Volume opt :=
  ((freeBlocks v freed).setName id [] (Nat.zero_le _) List.not_mem_nil).setInode
    { inodeEmpty with id }

theorem unlinked_inode (v : Volume opt) (id : UInt32) (freed : List UInt32) :
    (unlinked v id freed).inode = Function.update v.inode id { inodeEmpty with id } := by
  change Function.update (freeBlocks v freed).inode id _ = _
  rw [freeBlocks_inode]

theorem unlinked_name (v : Volume opt) (id : UInt32) (freed : List UInt32) :
    (unlinked v id freed).name = Function.update v.name id [] := by
  change Function.update (freeBlocks v freed).name id _ = _
  rw [freeBlocks_name]

theorem apart_unlinked (h : Chained v chains) (hid : IsInode opt id) {freed : List UInt32}
    (hfreed : freed.Perm (chains id)) : Apart v chains id (unlinked v id freed) := by
  have hother : ∀ n, IsInode opt n → n ≠ id → ∀ i ∈ chains n, i ∉ freed :=
    fun n hn hne i hi hmem => h.disjoint n id hn hid hne hi (hfreed.mem_iff.mp hmem)
  refine ⟨fun n hn hne i hi => ?_, fun n hn hne i hi => ?_, fun n hne => ?_, fun n hne => ?_⟩
  · change (freeBlocks v freed).block i = _
    rw [freeBlocks_block, if_neg (hother n hn hne i hi)]
  · change (freeBlocks v freed).data i = _
    rw [freeBlocks_data, if_neg (hother n hn hne i hi)]
  · rw [unlinked_name, Function.update_of_ne hne]
  · rw [unlinked_inode, Function.update_of_ne hne]

theorem tied_unlinked (h : Tied S m s v hints chains) (hid : IsFileId opt id)
    (hclosed : ∀ x ∈ m.nodes, nodeId x ≠ id) {freed : List UInt32}
    (hfreed : freed.Perm (chains id)) (hnamed : Named S (unlinked v id freed) cache) :
    Tied S { m with
        cache
        disk := disk (unlinked v id freed)
          (lowerInode (lowerBlocks hints freed) { inodeEmpty with id }) }
      { s.setFile id none with free := s.free + (chains id).length } (unlinked v id freed)
      (lowerInode (lowerBlocks hints freed) { inodeEmpty with id })
      (Function.update chains id []) := by
  have hin := hid.isInode
  have hchained := h.formed.chained
  have happart := apart_unlinked hchained hin hfreed
  have hchain := hchained.chain id hin
  have hself : (unlinked v id freed).inode id = { inodeEmpty with id } := by
    rw [unlinked_inode, Function.update_self]
  have hunused : ¬ InodeUsed (unlinked v id freed) id := by
    rw [InodeUsed, hself]
    exact (by decide : ¬ isUsed (0 : UInt8) = true)
  have hblocks : ∀ i ∈ freed, IsBlock opt i := fun i hi => hchain.isBlock i (hfreed.mem_iff.mp hi)
  have hrelease := hchained.release hin (fun _ => hfreed.mem_iff)
    (show ({ inodeEmpty with id } : Inode).id = id from rfl) rfl
  have hhinted := (Hinted.freeBlocks h.formed.hinted hblocks).setInode { inodeEmpty with id }
  refine h.change happart hid.ne_one rfl (@Formed.setName opt _ _ _ id ⟨hrelease, hhinted⟩ []
    (Nat.zero_le _) List.not_mem_nil) ?_ hnamed
    (fun _ => ⟨fun hused => absurd hused hunused, fun _ => ?_⟩)
    (fun _ _ => Iff.rfl) (fun _ => ?_) (fun i hne => Function.update_of_ne hne _ _) ?_ h.handles
  · exact h.wired.closed happart hclosed rfl
  · refine ⟨?_, hself⟩
    rw [unlinked_name, Function.update_self]
  · rw [fileAt_of_unused hunused]
    exact Function.update_self ..
  · have hlen := @length_freeIds_freeBlocks _ v freed (hfreed.nodup_iff.mpr hchain.nodup)
      fun i hi => ⟨hblocks i hi, hchained.used id hin i (hfreed.mem_iff.mp hi)⟩
    rw [hfreed.length_eq, ← h.free] at hlen
    exact hlen.symm

/-- `whefs_inode_unlink`, for a file that is not open. -/
theorem inodeUnlink_closed (hopt : Formattable opt) (hS : HashNames S)
    (h : Tied S m s v hints chains) {fuel : Nat} (hfuel : 2 ^ 32 ≤ fuel) (hid : IsFileId opt id)
    (hne : v.name id ≠ []) (hclosed : ∀ x ∈ m.nodes, nodeId x ≠ id) :
    ∃ freed cache, inodeUnlink fuel m (v.inode id) = .ok (.of .ok, { m with
        cache
        disk := disk (unlinked v id freed)
          (lowerInode (lowerBlocks hints freed) { inodeEmpty with id }) }) ∧
      freed.Perm (chains id) ∧ Named S (unlinked v id freed) cache := by
  have hvalid : inodeIdIsValid m.disk.fs (v.inode id).id := by
    rw [h.disk, v.inode_id]
    exact Volume.inodeIdIsValid_fs.mpr hid.isInode
  have hsearch : ¬ (searchOpened m.nodes id).isSome = true := by
    rw [(searchOpened_eq_none_iff h.wired.sorted).mpr hclosed]
    decide
  have hcount := blockCount_lt hopt
  have hblocks : opt.blockCount.toNat ≤ fuel := Nat.le_trans (by omega) hfuel
  obtain ⟨freed, hwipe, hfreed⟩ := inodeUnlinkBlocks_disk hopt h.formed hid.isInode hblocks
  have hnamed : Named S (freeBlocks v freed) ({ m with
      disk := disk (freeBlocks v freed) (lowerBlocks hints freed) } : Mount).cache :=
    h.named.congr (freeBlocks_name v freed)
  have hold : (freeBlocks v freed).name id ≠ [] := by rwa [freeBlocks_name]
  obtain ⟨cache, hset, hnamed'⟩ := @inodeNameSet_fs opt S (freeBlocks v freed)
    (lowerBlocks hints freed) id [] (Nat.zero_le _) List.not_mem_nil hopt hS
    { m with disk := disk (freeBlocks v freed) (lowerBlocks hints freed) } rfl hnamed hid
    (Or.inl ⟨rfl, hold⟩) fun hnil => absurd rfl hnil
  have hflush := @inodeFlush_disk opt ((freeBlocks v freed).setName id []
    (Nat.zero_le _) List.not_mem_nil) (lowerBlocks hints freed) hopt { inodeEmpty with id }
    hid.isInode
  refine ⟨freed, cache, ?_, hfreed, hnamed'.congr rfl⟩
  rw [inodeUnlink, if_neg (not_not_intro hvalid), v.inode_id, if_neg hsearch, h.disk, hwipe]
  simp only [Run.ok_bind, ne_eq, not_true_eq_false, if_false, hset, hflush]
  rfl

theorem unlinkFilename_closed (hopt : Formattable opt) (hS : HashNames S)
    (h : Tied S m s v hints chains) {fuel : Nat} (hfuel : 2 ^ 32 ≤ fuel) (hid : IsFileId opt id)
    (hne : v.name id ≠ []) (hclosed : ∀ x ∈ m.nodes, nodeId x ≠ id) :
    ∃ freed cache, unlinkFilename fuel m (v.name id) = .ok (.of .ok, { m with
        cache
        disk := disk (unlinked v id freed)
          (lowerInode (lowerBlocks hints freed) { inodeEmpty with id }) }) ∧
      freed.Perm (chains id) ∧ Named S (unlinked v id freed) cache := by
  obtain ⟨cache, hrun, htied⟩ := inodeByNameHints_found hopt hS h hid hne
  obtain ⟨freed, cache', hunlink, hfreed, hnamed⟩ :=
    inodeUnlink_closed hopt hS htied hfuel hid hne hclosed
  refine ⟨freed, cache', ?_, hfreed, hnamed⟩
  rw [unlinkFilename, hrun]
  simp only [Run.ok_bind, ne_eq, not_true_eq_false, if_false]
  exact hunlink

theorem Tied.unlink (hopt : Formattable opt) (hS : HashNames S) (h : Tied S m s v hints chains)
    {fuel : Nat} (hfuel : 2 ^ 32 ≤ fuel) (hname : S name)
    (hlen : name.length ≤ opt.filenameLength.toNat) :
    ∃ m', m.step fuel (.unlink name) = .ok ((s.step opt (.unlink name)).1, m') ∧
      Stands opt S m' (s.step opt (.unlink name)).2 := by
  have hne := hS.ne_nil name hname
  rw [Mount.step, Store.step, Store.unlink]
  cases hfound : s.byName opt name with
  | none =>
      obtain ⟨cache, hrun, htied⟩ := inodeByNameHints_missing hopt hS h hname hlen hfound
      have hcode : s.notFound opt ≠ .ok := by
        rw [Store.notFound]
        split <;> decide
      rw [unlinkFilename, hrun]
      simp only [Run.ok_bind, hcode, ne_eq, not_false_eq_true, if_true]
      exact ⟨_, rfl, _, _, _, htied⟩
  | some id =>
      obtain ⟨hid, rfl⟩ := byName_spec h hne hfound
      simp only
      by_cases hopen : s.isOpen id = true
      · obtain ⟨cache, hrun, htied⟩ := inodeByNameHints_found hopt hS h hid hne
        have hvalid : inodeIdIsValid m.disk.fs (v.inode id).id := by
          rw [h.disk, v.inode_id]
          exact Volume.inodeIdIsValid_fs.mpr hid.isInode
        obtain ⟨x, hx, hxid⟩ := (isOpen_iff h id).mp hopen
        have hsearch : (searchOpened m.nodes id).isSome = true := by
          rw [(searchOpened_eq_some_iff h.wired.sorted).mpr ⟨hx, hxid⟩]
          rfl
        rw [unlinkFilename, hrun]
        simp only [Run.ok_bind, ne_eq, not_true_eq_false, if_false]
        rw [inodeUnlink, if_neg (not_not_intro hvalid), v.inode_id, if_pos hsearch, if_pos hopen]
        exact ⟨_, rfl, _, _, _, htied⟩
      · have hclosed : ∀ x ∈ m.nodes, nodeId x ≠ id := fun x hx heq =>
          hopen ((isOpen_iff h id).mpr ⟨x, hx, heq⟩)
        obtain ⟨freed, cache, hrun, hfreed, hnamed⟩ :=
          unlinkFilename_closed hopt hS h hfuel hid hne hclosed
        have hfile := h.files id hid
        rw [fileAt_of_used (used_of_name h hid hne)] at hfile
        have hheld : Store.held opt ⟨sizeAt v m.nodes id, room v (chains id)⟩ =
            (chains id).length := by
          rw [Store.held, length_room, Nat.mul_div_cancel _ (blockSize_pos hopt)]
        have htied := tied_unlinked h hid hclosed hfreed hnamed
        rw [← hheld] at htied
        rw [hrun, if_neg hopen, hfile]
        exact ⟨_, rfl, _, _, _, htied⟩

end

end Iqiq.WhefsDirectory
