import Iqiq.KeyedList
import Iqiq.FileStore

namespace Iqiq.WhefsOpened

open Iqiq.BlockedFile
open Iqiq.FileStore
open Iqiq.KeyedList
open Iqiq.Whefs
open Iqiq.WhefsAllocation
open Iqiq.WhefsChains
open Iqiq.WhefsDisk
open Iqiq.WhefsEncode
open Iqiq.WhefsFiles
open Iqiq.WhefsFree
open Iqiq.WhefsGrowth
open Iqiq.WhefsMount
open Iqiq.WhefsTruncate
open Iqiq.WhefsVolume
open Iqiq.WhefsWriting

def nodeId (x : Node) : UInt32 :=
  x.inode.id

section

variable {nodes : List Node} {ent x : Node} {id : UInt32}

def Sorted (nodes : List Node) : Prop :=
  (nodes.map nodeId).Pairwise (· < ·)

theorem Sorted.nodup (h : Sorted nodes) : (nodes.map nodeId).Nodup :=
  h.imp fun hlt => UInt32.ne_of_lt hlt

theorem searchOpened_eq (h : Sorted nodes) (id : UInt32) :
    searchOpened nodes id = lookup nodeId nodes id := by
  induction nodes with
  | nil => rfl
  | cons x rest ih =>
      rw [Sorted, List.map_cons, List.pairwise_cons] at h
      rw [searchOpened, lookup, List.find?_cons]
      rcases Nat.lt_trichotomy x.inode.id.toNat id.toNat with hlt | heq | hgt
      · rw [← UInt32.lt_iff_toNat_lt] at hlt
        rw [if_pos hlt, ih h.2, lookup]
        simp [nodeId, UInt32.ne_of_lt hlt]
      · rw [UInt32.toNat_inj] at heq
        rw [heq, if_neg (UInt32.lt_irrefl id), if_neg (UInt32.lt_irrefl id)]
        simp [nodeId, heq]
      · rw [← UInt32.lt_iff_toNat_lt] at hgt
        rw [if_neg (UInt32.lt_asymm hgt), if_pos hgt]
        have hnone : lookup nodeId rest id = none := by
          refine lookup_eq_none_iff.mpr fun y hy => ?_
          have hlt := h.1 (nodeId y) (List.mem_map_of_mem hy)
          exact (UInt32.ne_of_lt (UInt32.lt_trans hgt hlt)).symm
        have hne : nodeId x ≠ id := (UInt32.ne_of_lt hgt).symm
        rw [lookup] at hnone
        rw [decide_eq_false hne, hnone]

theorem searchOpened_eq_some_iff (h : Sorted nodes) :
    searchOpened nodes id = some x ↔ x ∈ nodes ∧ nodeId x = id := by
  rw [searchOpened_eq h, lookup_eq_some_iff h.nodup]

theorem searchOpened_eq_none_iff (h : Sorted nodes) :
    searchOpened nodes id = none ↔ ∀ x ∈ nodes, nodeId x ≠ id := by
  rw [searchOpened_eq h, lookup_eq_none_iff]

theorem mem_insertNode : x ∈ insertNode ent nodes ↔ x = ent ∨ x ∈ nodes := by
  induction nodes with
  | nil => simp [insertNode]
  | cons y rest ih =>
      rw [insertNode]
      split
      · rw [List.mem_cons, ih, List.mem_cons]
        exact or_left_comm
      · rw [List.mem_cons]

theorem sorted_insertNode (h : Sorted nodes) (hnew : ∀ x ∈ nodes, nodeId x ≠ nodeId ent) :
    Sorted (insertNode ent nodes) := by
  induction nodes with
  | nil => exact List.pairwise_singleton _ _
  | cons y rest ih =>
      rw [Sorted, List.map_cons, List.pairwise_cons] at h
      rw [insertNode]
      split
      · rename_i hlt
        rw [Sorted, List.map_cons, List.pairwise_cons]
        refine ⟨fun i hi => ?_, ih h.2 fun x hx => hnew x (List.mem_cons_of_mem y hx)⟩
        obtain ⟨x, hx, rfl⟩ := List.mem_map.mp hi
        rcases mem_insertNode.mp hx with rfl | hx
        · exact hlt
        · exact h.1 _ (List.mem_map_of_mem hx)
      · rename_i hge
        have hgt : nodeId ent < nodeId y := by
          have hne := hnew y List.mem_cons_self
          have hge' : ¬ nodeId y < nodeId ent := hge
          rw [UInt32.lt_iff_toNat_lt] at hge' ⊢
          have := UInt32.toNat_inj.ne.mpr hne
          omega
        rw [Sorted, List.map_cons, List.pairwise_cons, List.map_cons, List.pairwise_cons]
        refine ⟨fun i hi => ?_, h⟩
        rcases List.mem_cons.mp hi with rfl | hi
        · exact hgt
        · exact UInt32.lt_trans hgt (h.1 i hi)

theorem sorted_setNode (h : Sorted nodes) (node : Node) : Sorted (setNode nodes node) := by
  have hkeys := map_key_replace nodeId nodes node
  rw [Sorted]
  change ((replace nodeId nodes node).map nodeId).Pairwise _
  rwa [hkeys]

theorem mem_setNode (hx : x ∈ nodes) (hid : nodeId x = nodeId ent) {y : Node} :
    y ∈ setNode nodes ent ↔ y = ent ∨ y ∈ nodes ∧ nodeId y ≠ nodeId ent :=
  mem_replace ⟨x, hx, hid⟩

end

/-! ### Opened inodes and their devices -/

section

variable {opt : Options}

/-- The inode 1 is that of the root. -/
def IsFileId (opt : Options) (id : UInt32) : Prop :=
  2 ≤ id.toNat ∧ id.toNat ≤ opt.inodeCount.toNat

theorem IsFileId.isInode {id : UInt32} (h : IsFileId opt id) : IsInode opt id :=
  ⟨Nat.le_of_succ_le h.1, h.2⟩

theorem IsFileId.ne_zero {id : UInt32} (h : IsFileId opt id) : id ≠ 0 := by
  rintro rfl
  exact absurd h.1 (by decide)

theorem IsFileId.ne_one {id : UInt32} (h : IsFileId opt id) : id ≠ 1 := by
  rintro rfl
  exact absurd h.1 (by decide)

def nodeFile (x : Node) : File :=
  ⟨x.inode, 0, x.blocks⟩

/-- An opened inode counts its devices, of which one at most can write, and without one that
can, its size is the one in the record. -/
structure NodeWired (v : Volume opt) (chains : UInt32 → List UInt32) (devs : List Dev)
    (x : Node) : Prop where
  isFile : IsFileId opt (nodeId x)
  used : isUsed (v.inode (nodeId x)).flags = true
  opened : Opened v chains (nodeFile x)
  count : x.openCount.toNat = devs.countP fun d => d.node = nodeId x
  count_pos : 0 < x.openCount.toNat
  writer : ∀ key, x.writer = some key ↔ ∃ d ∈ devs, d.key = key ∧ d.node = nodeId x ∧ d.rw = true
  stored : x.writer = none → x.inode.dataSize = (v.inode (nodeId x)).dataSize

structure Wired (v : Volume opt) (chains : UInt32 → List UInt32) (nodes : List Node)
    (devs : List Dev) : Prop where
  sorted : Sorted nodes
  keys : (devs.map Dev.key).Nodup
  node : ∀ x ∈ nodes, NodeWired v chains devs x
  live : ∀ d ∈ devs, ∃ x ∈ nodes, nodeId x = d.node

/-- Nothing has changed but what belongs to the inode `n`. -/
structure Apart (v : Volume opt) (chains : UInt32 → List UInt32) (n : UInt32) (w : Volume opt) :
    Prop where
  block : ∀ m, IsInode opt m → m ≠ n → ∀ id ∈ chains m, w.block id = v.block id
  data : ∀ m, IsInode opt m → m ≠ n → ∀ id ∈ chains m, w.data id = v.data id
  name : ∀ m, m ≠ n → w.name m = v.name m
  inode : ∀ m, m ≠ n → w.inode m = v.inode m

variable {v w : Volume opt} {hints hints' : Hints} {chains : UInt32 → List UInt32}
  {nodes nodes' : List Node} {devs devs' : List Dev} {x node : Node} {dev : Dev}
  {ids : List UInt32} {c : Content UInt8} {stored free key : Nat} {f' : File} {id n : UInt32}

theorem Kept.apart (h : Kept v chains n w) : Apart v chains n w :=
  ⟨h.block, h.data, fun m _ => congrFun h.name m, h.inode⟩

theorem Opened.move {f : File} (h : Opened v chains f) (posabs : UInt32) :
    Opened v chains { f with posabs } :=
  ⟨h.isInode, h.firstBlock, h.flags, h.dataSize, h.blocks⟩

theorem Opened.other {f : File} (h : Opened v chains f) (hne : f.inode.id ≠ n)
    (happart : Apart v chains n w) : Opened w (Function.update chains n ids) f := by
  have hinode := happart.inode f.inode.id hne
  have hsame : Function.update chains n ids f.inode.id = chains f.inode.id :=
    Function.update_of_ne hne _ _
  refine ⟨h.isInode, ?_, ?_, ?_, ?_⟩
  · rw [hinode, h.firstBlock]
  · rw [hinode, h.flags]
  · rw [hinode, hsame]
    exact h.dataSize
  · rw [hsame]
    refine h.blocks.imp_right fun hblocks => ?_
    rw [hblocks]
    exact (List.map_congr_left fun i hi => happart.block _ h.isInode hne i hi).symm

theorem countP_other (hkeys : (devs.map Dev.key).Nodup) (hkeys' : (devs'.map Dev.key).Nodup)
    (hdevs : ∀ d : Dev, d.node ≠ n → (d ∈ devs' ↔ d ∈ devs)) (hne : id ≠ n) :
    devs'.countP (fun d => d.node = id) = devs.countP fun d => d.node = id := by
  rw [List.countP_eq_length_filter, List.countP_eq_length_filter]
  refine List.Perm.length_eq ((List.perm_ext_iff_of_nodup ?_ ?_).mpr fun d => ?_)
  · exact hkeys'.of_map.filter _
  · exact hkeys.of_map.filter _
  · rw [List.mem_filter, List.mem_filter, decide_eq_true_eq]
    refine and_congr_left ?_
    rintro rfl
    exact hdevs d hne

theorem Wired.change (h : Wired v chains nodes devs) (happart : Apart v chains n w)
    (hsorted : Sorted nodes') (hkeys : (devs'.map Dev.key).Nodup)
    (hnodes : ∀ x, nodeId x ≠ n → (x ∈ nodes' ↔ x ∈ nodes))
    (hdevs : ∀ d : Dev, d.node ≠ n → (d ∈ devs' ↔ d ∈ devs))
    (hlive : ∀ d ∈ devs', d.node = n → ∃ x ∈ nodes', nodeId x = n)
    (hnode : ∀ x ∈ nodes', nodeId x = n →
      NodeWired w (Function.update chains n ids) devs' x) :
    Wired w (Function.update chains n ids) nodes' devs' := by
  refine ⟨hsorted, hkeys, fun x hx => ?_, fun d hd => ?_⟩
  · rcases eq_or_ne (nodeId x) n with heq | hne
    · exact hnode x hx heq
    · have hold := h.node x ((hnodes x hne).mp hx)
      constructor
      · exact hold.isFile
      · rw [happart.inode _ hne]
        exact hold.used
      · exact Opened.other hold.opened hne happart
      · rw [countP_other h.keys hkeys hdevs hne]
        exact hold.count
      · exact hold.count_pos
      · intro key
        rw [hold.writer key]
        refine exists_congr fun d => and_congr_left ?_
        rintro ⟨-, hd, -⟩
        exact (hdevs d (hd ▸ hne)).symm
      · rw [happart.inode _ hne]
        exact hold.stored
  · rcases eq_or_ne d.node n with heq | hne
    · rw [heq]
      exact hlive d hd heq
    · obtain ⟨x, hx, hid⟩ := h.live d ((hdevs d hne).mp hd)
      exact ⟨x, (hnodes x (hid ▸ hne)).mpr hx, hid⟩

theorem devAt_iff {m : Mount} (hkeys : (m.devs.map Dev.key).Nodup) (hsorted : Sorted m.nodes) :
    m.devAt key = some (dev, node) ↔
      dev ∈ m.devs ∧ dev.key = key ∧ node ∈ m.nodes ∧ nodeId node = dev.node := by
  rw [Mount.devAt]
  constructor
  · intro hat
    obtain ⟨d, hd, hat⟩ := Option.bind_eq_some_iff.mp hat
    obtain ⟨x, hx, hat⟩ := Option.bind_eq_some_iff.mp hat
    obtain ⟨rfl, rfl⟩ := Prod.mk.inj (Option.some.inj hat)
    obtain ⟨hmem, hkey⟩ := (lookup_eq_some_iff hkeys).mp hd
    exact ⟨hmem, hkey, (searchOpened_eq_some_iff hsorted).mp hx⟩
  · rintro ⟨hmem, hkey, hnode⟩
    have hd := (lookup_eq_some_iff hkeys).mpr ⟨hmem, hkey⟩
    rw [lookup] at hd
    rw [hd, Option.bind_eq_bind, Option.bind_some,
      (searchOpened_eq_some_iff hsorted).mpr hnode]
    rfl

theorem devAt_eq_some_iff {m : Mount} (h : Wired v chains m.nodes m.devs) :
    m.devAt key = some (dev, node) ↔
      dev ∈ m.devs ∧ dev.key = key ∧ node ∈ m.nodes ∧ nodeId node = dev.node :=
  devAt_iff h.keys h.sorted

theorem exists_devAt {m : Mount} (h : Wired v chains m.nodes m.devs) (hmem : dev ∈ m.devs) :
    ∃ node, m.devAt dev.key = some (dev, node) := by
  obtain ⟨x, hx, hid⟩ := h.live dev hmem
  exact ⟨x, (devAt_eq_some_iff h).mpr ⟨hmem, rfl, hx, hid⟩⟩

theorem Wired.writer_of_rw (h : Wired v chains nodes devs) (hdev : dev ∈ devs)
    (hnode : node ∈ nodes) (hid : nodeId node = dev.node) (hrw : dev.rw = true) :
    node.writer = some dev.key :=
  ((h.node node hnode).writer dev.key).mpr ⟨dev, hdev, rfl, hid.symm, hrw⟩

theorem Wired.rw_of_writer (h : Wired v chains nodes devs) (hdev : dev ∈ devs)
    (hnode : node ∈ nodes) (hwriter : node.writer = some dev.key) : dev.rw = true := by
  obtain ⟨d, hd, hkey, -, hrw⟩ := ((h.node node hnode).writer dev.key).mp hwriter
  rwa [List.inj_on_of_nodup_map h.keys hd hdev hkey] at hrw

/-- What a device has done to its file. -/
theorem Wired.put (h : Wired v chains nodes devs) (hdev : dev ∈ devs) (hnode : node ∈ nodes)
    (hid : nodeId node = dev.node)
    (hb : Became v chains (fileOf dev node) ids c stored free w hints f')
    (hsync : node.writer = none → c.size = stored) :
    Wired w (Function.update chains dev.node ids)
      (setNode nodes { node with inode := f'.inode, blocks := f'.blocks })
      (setDev devs { dev with posabs := f'.posabs }) := by
  have hfile : (fileOf dev node).inode.id = dev.node := hid
  have hnew : nodeId { node with inode := f'.inode, blocks := f'.blocks } = dev.node :=
    hb.id_eq.trans hfile
  have hopened := hb.opened
  have hkept := hb.kept
  have hcontent := congrArg Content.size hb.content
  have hstored := hb.dataSize
  have hold := h.node node hnode
  rw [hfile] at hopened hkept hstored
  have hkeys : (setDev devs { dev with posabs := f'.posabs }).map Dev.key = devs.map Dev.key :=
    map_key_replace Dev.key devs { dev with posabs := f'.posabs }
  have hdevs : ∀ d, d ∈ setDev devs { dev with posabs := f'.posabs } ↔
      d = { dev with posabs := f'.posabs } ∨ d ∈ devs ∧ d.key ≠ dev.key :=
    fun d => mem_replace ⟨dev, hdev, rfl⟩
  have hnodes : ∀ y, y ∈ setNode nodes { node with inode := f'.inode, blocks := f'.blocks } ↔
      y = { node with inode := f'.inode, blocks := f'.blocks } ∨
        y ∈ nodes ∧ nodeId y ≠ dev.node := by
    intro y
    rw [mem_setNode hnode (hid.trans hnew.symm), hnew]
  refine h.change (Kept.apart hkept) (sorted_setNode h.sorted _) (hkeys.symm ▸ h.keys) ?_ ?_ ?_ ?_
  · intro y hne
    rw [hnodes, and_iff_left hne, or_iff_right]
    rintro rfl
    exact hne hnew
  · intro d hne
    rw [hdevs]
    constructor
    · rintro (rfl | ⟨hd, -⟩)
      · exact absurd rfl hne
      · exact hd
    · refine fun hd => Or.inr ⟨hd, fun hkey => hne ?_⟩
      rw [List.inj_on_of_nodup_map h.keys hd hdev hkey]
  · exact fun _ _ _ => ⟨_, (hnodes _).mpr (Or.inl rfl), hnew⟩
  · intro y hy heq
    obtain rfl := ((hnodes y).mp hy).resolve_right fun hrest => hrest.2 heq
    have hcount := @countP_replace _ _ _ Dev.key devs dev { dev with posabs := f'.posabs } h.keys
      hdev rfl (fun d => d.node = dev.node) rfl
    constructor
    · rw [hnew, ← hid]
      exact hold.isFile
    · rw [hnew, hkept.flags, ← hid]
      exact hold.used
    · exact Opened.move hopened 0
    · rw [hnew, ← hid, hold.count, hid]
      exact hcount.symm
    · exact hold.count_pos
    · intro key
      refine (hold.writer key).trans ?_
      rw [hnew, hid]
      constructor
      · rintro ⟨d, hd, hp⟩
        rcases eq_or_ne d.key dev.key with hkey | hne
        · obtain rfl := List.inj_on_of_nodup_map h.keys hd hdev hkey
          exact ⟨_, (hdevs _).mpr (Or.inl rfl), hp⟩
        · exact ⟨d, (hdevs d).mpr (Or.inr ⟨hd, hne⟩), hp⟩
      · rintro ⟨d, hd, hp⟩
        rcases (hdevs d).mp hd with rfl | ⟨hd, -⟩
        · exact ⟨dev, hdev, hp⟩
        · exact ⟨d, hd, hp⟩
    · intro hnone
      rw [hnew, ← UInt32.toNat_inj, hstored, ← hsync hnone]
      exact hcontent

theorem Apart.refl (v : Volume opt) (chains : UInt32 → List UInt32) (n : UInt32) :
    Apart v chains n v :=
  ⟨fun _ _ _ _ _ => rfl, fun _ _ _ _ _ => rfl, fun _ _ => rfl, fun _ _ => rfl⟩

theorem Wired.rewire (h : Wired v chains nodes devs) (n : UInt32) (hsorted : Sorted nodes')
    (hkeys : (devs'.map Dev.key).Nodup)
    (hnodes : ∀ x, nodeId x ≠ n → (x ∈ nodes' ↔ x ∈ nodes))
    (hdevs : ∀ d : Dev, d.node ≠ n → (d ∈ devs' ↔ d ∈ devs))
    (hlive : ∀ d ∈ devs', d.node = n → ∃ x ∈ nodes', nodeId x = n)
    (hnode : ∀ x ∈ nodes', nodeId x = n → NodeWired v chains devs' x) :
    Wired v chains nodes' devs' := by
  have hsame : Function.update chains n (chains n) = chains := Function.update_eq_self ..
  have hchange := @Wired.change opt v v chains nodes nodes' devs devs' (chains n) n h
    (Apart.refl v chains n) hsorted hkeys hnodes hdevs hlive (by rwa [hsame])
  rwa [hsame] at hchange

theorem Wired.closed {chains' : UInt32 → List UInt32} {ids : List UInt32}
    (h : Wired v chains nodes devs) (happart : Apart v chains n w)
    (hclosed : ∀ x ∈ nodes, nodeId x ≠ n) (hchains : chains' = Function.update chains n ids) :
    Wired w chains' nodes devs := by
  rw [hchains]
  refine h.change happart h.sorted h.keys (fun _ _ => Iff.rfl) (fun _ _ => Iff.rfl) ?_ ?_
  · rintro d hd rfl
    obtain ⟨x, hx, hid⟩ := h.live d hd
    exact absurd hid (hclosed x hx)
  · exact fun x hx hid => absurd hid (hclosed x hx)

/-- A device is gone, and with the last one of an inode its entry. -/
theorem Wired.close (h : Wired v chains nodes devs) (hdev : dev ∈ devs) (hnode : node ∈ nodes)
    (hid : nodeId node = dev.node)
    (hsync : dev.rw = true → node.inode.dataSize = (v.inode dev.node).dataSize)
    (hx : x = { node with
      writer := if dev.rw then none else node.writer
      openCount := node.openCount - 1 }) :
    Wired v chains (if x.openCount = 0 then nodes.filter fun y => y.inode.id ≠ dev.node
      else setNode nodes x) (devs.filter fun d => d.key ≠ dev.key) := by
  have hold := h.node node hnode
  have hpos := hold.count_pos
  have hxid : nodeId x = dev.node := by rw [hx]; exact hid
  have hcountP := @countP_remove _ _ _ Dev.key devs dev h.keys hdev fun d => d.node = dev.node
  have hx1 : x.openCount.toNat = node.openCount.toNat - 1 := by
    rw [hx]
    exact UInt16.toNat_sub_of_le _ _ (UInt16.le_iff_toNat_le.mpr hpos)
  have hleft : x.openCount.toNat =
      (devs.filter fun d => d.key ≠ dev.key).countP fun d => d.node = dev.node := by
    have hcount := hold.count
    rw [hid] at hcount
    rw [remove] at hcountP
    simp only [decide_true, if_true] at hcountP
    omega
  have hmem : ∀ d : Dev, (d ∈ devs.filter fun d => d.key ≠ dev.key) ↔ d ∈ devs ∧ d.key ≠ dev.key :=
    fun d => mem_remove
  have hkeys : ((devs.filter fun d => d.key ≠ dev.key).map Dev.key).Nodup :=
    h.keys.sublist (List.filter_sublist.map _)
  have hdevs : ∀ d : Dev, d.node ≠ dev.node →
      ((d ∈ devs.filter fun d => d.key ≠ dev.key) ↔ d ∈ devs) := by
    intro d hne
    rw [hmem]
    refine and_iff_left_of_imp fun hd hkey => hne ?_
    rw [List.inj_on_of_nodup_map h.keys hd hdev hkey]
  split
  · rename_i hzero
    have hnone : ∀ d ∈ devs.filter fun d => d.key ≠ dev.key, d.node ≠ dev.node := by
      have hcount : (devs.filter fun d => d.key ≠ dev.key).countP (fun d => d.node = dev.node) =
          0 := by
        rw [← hleft, hzero]
        rfl
      intro d hd hdn
      have := List.countP_eq_zero.mp hcount d hd
      simp [hdn] at this
    have hnodes : ∀ y : Node, (y ∈ nodes.filter fun y => y.inode.id ≠ dev.node) ↔
        y ∈ nodes ∧ nodeId y ≠ dev.node := by
      intro y
      rw [List.mem_filter, decide_eq_true_eq]
      rfl
    refine h.rewire dev.node (List.Pairwise.sublist (List.filter_sublist.map _) h.sorted) hkeys
      ?_ hdevs ?_ ?_
    · exact fun y hne => (hnodes y).trans (and_iff_left hne)
    · exact fun d hd hdn => absurd hdn (hnone d hd)
    · exact fun y hy hyn => absurd hyn ((hnodes y).mp hy).2
  · rename_i hne0
    have hnodes : ∀ y, y ∈ setNode nodes x ↔ y = x ∨ y ∈ nodes ∧ nodeId y ≠ dev.node := by
      intro y
      rw [mem_setNode hnode (hid.trans hxid.symm), hxid]
    refine h.rewire dev.node (sorted_setNode h.sorted x) hkeys ?_ hdevs ?_ ?_
    · intro y hne
      rw [hnodes, and_iff_left hne, or_iff_right]
      rintro rfl
      exact hne hxid
    · exact fun _ _ _ => ⟨x, (hnodes x).mpr (Or.inl rfl), hxid⟩
    · intro y hy hyn
      obtain rfl := ((hnodes y).mp hy).resolve_right fun hrest => hrest.2 hyn
      have hwriter : ∀ key, y.writer = some key ↔ node.writer = some key ∧ key ≠ dev.key := by
        intro key
        rw [hx]
        cases hrw : dev.rw with
        | false =>
            simp only [Bool.false_eq_true, if_false]
            refine (and_iff_left_of_imp ?_).symm
            rintro hkey rfl
            rw [h.rw_of_writer hdev hnode hkey] at hrw
            exact absurd hrw (by decide)
        | true =>
            have hmine := h.writer_of_rw hdev hnode hid hrw
            simp only [if_true]
            refine iff_of_false (by simp) fun hother => hother.2 ?_
            rw [hmine] at hother
            exact (Option.some.inj hother.1).symm
      constructor
      · rw [hxid, ← hid]
        exact hold.isFile
      · rw [hxid, ← hid]
        exact hold.used
      · have hopened := hold.opened
        rw [nodeFile, hx]
        exact hopened
      · rw [hxid]
        exact hleft
      · refine Nat.pos_of_ne_zero fun hzero => hne0 (UInt16.toNat_inj.mp hzero)
      · intro key
        rw [hwriter, hold.writer, hid, hxid]
        constructor
        · rintro ⟨⟨d, hd, rfl, hp⟩, hne⟩
          exact ⟨d, (hmem d).mpr ⟨hd, hne⟩, rfl, hp⟩
        · rintro ⟨d, hd, rfl, hp⟩
          exact ⟨⟨d, ((hmem d).mp hd).1, rfl, hp⟩, ((hmem d).mp hd).2⟩
      · intro hnone
        rw [hxid, hx]
        cases hrw : dev.rw with
        | true => exact hsync hrw
        | false =>
            rw [← hid]
            refine hold.stored ?_
            rw [hx, hrw] at hnone
            exact hnone

theorem Wired.reopen (h : Wired v chains nodes devs) (hnode : node ∈ nodes)
    (hid : nodeId node = dev.node) (hnew : ∀ d ∈ devs, d.key ≠ dev.key)
    (hmost : node.openCount.toNat < 65535) (hwriter : dev.rw = true → node.writer = none)
    (hx : x = { node with
      writer := if dev.rw then some dev.key else node.writer
      openCount := node.openCount + 1 }) :
    Wired v chains (setNode nodes x) (devs ++ [dev]) := by
  have hold := h.node node hnode
  have hxid : nodeId x = dev.node := by rw [hx]; exact hid
  have hnodes : ∀ y, y ∈ setNode nodes x ↔ y = x ∨ y ∈ nodes ∧ nodeId y ≠ dev.node := by
    intro y
    rw [mem_setNode hnode (hid.trans hxid.symm), hxid]
  have hkeys : ((devs ++ [dev]).map Dev.key).Nodup := by
    rw [List.map_append, List.map_singleton, List.nodup_append']
    refine ⟨h.keys, List.nodup_singleton _, fun key hkey hmem => ?_⟩
    obtain ⟨d, hd, rfl⟩ := List.mem_map.mp hkey
    exact hnew d hd (List.mem_singleton.mp hmem)
  refine h.rewire dev.node (sorted_setNode h.sorted x) hkeys ?_ ?_ ?_ ?_
  · intro y hne
    rw [hnodes, and_iff_left hne, or_iff_right]
    rintro rfl
    exact hne hxid
  · intro d hne
    rw [List.mem_append, List.mem_singleton, or_iff_left]
    rintro rfl
    exact hne rfl
  · exact fun _ _ _ => ⟨x, (hnodes x).mpr (Or.inl rfl), hxid⟩
  · intro y hy hyn
    obtain rfl := ((hnodes y).mp hy).resolve_right fun hrest => hrest.2 hyn
    have hcount : y.openCount.toNat = node.openCount.toNat + 1 := by
      rw [hx]
      simp only [UInt16.toNat_add]
      change (_ + 1) % 2 ^ 16 = _
      omega
    constructor
    · rw [hxid, ← hid]
      exact hold.isFile
    · rw [hxid, ← hid]
      exact hold.used
    · have hopened := hold.opened
      rw [nodeFile, hx]
      exact hopened
    · rw [hcount, hxid, List.countP_append, hold.count, hid]
      simp
    · omega
    · intro key
      have hstep :
          y.writer = some key ↔ node.writer = some key ∨ dev.rw = true ∧ dev.key = key := by
        rw [hx]
        cases hrw : dev.rw with
        | false => simp
        | true => simp [hwriter hrw]
      rw [hstep, hold.writer, hid, hxid]
      constructor
      · rintro (⟨d, hd, hp⟩ | ⟨hrw, hkey⟩)
        · exact ⟨d, List.mem_append_left _ hd, hp⟩
        · exact ⟨dev, List.mem_append_right _ List.mem_cons_self, hkey, rfl, hrw⟩
      · rintro ⟨d, hd, hp⟩
        rcases List.mem_append.mp hd with hd | hd
        · exact Or.inl ⟨d, hd, hp⟩
        · obtain rfl := List.mem_singleton.mp hd
          exact Or.inr ⟨hp.2.2, hp.1⟩
    · intro hnone
      have hnone' : node.writer = none := by
        rw [hx] at hnone
        cases hrw : dev.rw with
        | false => rwa [hrw] at hnone
        | true => exact hwriter hrw
      have hstored := hold.stored hnone'
      rw [hid] at hstored
      rw [hxid, hx]
      exact hstored

/-- The first device for an inode. -/
theorem Wired.openNew (h : Wired v chains nodes devs) (hfile : IsFileId opt dev.node)
    (hused : isUsed (v.inode dev.node).flags = true)
    (hclosed : ∀ y ∈ nodes, nodeId y ≠ dev.node) (hnew : ∀ d ∈ devs, d.key ≠ dev.key)
    (hx : x = ⟨v.inode dev.node, [], if dev.rw then some dev.key else none, 1⟩) :
    Wired v chains (insertNode x nodes) (devs ++ [dev]) := by
  have hxid : nodeId x = dev.node := by
    rw [hx]
    exact v.inode_id dev.node
  have hnone : ∀ d ∈ devs, d.node ≠ dev.node := by
    intro d hd heq
    obtain ⟨y, hy, hyd⟩ := h.live d hd
    exact hclosed y hy (hyd.trans heq)
  have hkeys : ((devs ++ [dev]).map Dev.key).Nodup := by
    rw [List.map_append, List.map_singleton, List.nodup_append']
    refine ⟨h.keys, List.nodup_singleton _, fun key hkey hmem => ?_⟩
    obtain ⟨d, hd, rfl⟩ := List.mem_map.mp hkey
    exact hnew d hd (List.mem_singleton.mp hmem)
  refine h.rewire dev.node
    (sorted_insertNode h.sorted fun y hy => by rw [hxid]; exact hclosed y hy) hkeys ?_ ?_ ?_ ?_
  · intro y hne
    rw [mem_insertNode, or_iff_right]
    rintro rfl
    exact hne hxid
  · intro d hne
    rw [List.mem_append, List.mem_singleton, or_iff_left]
    rintro rfl
    exact hne rfl
  · exact fun _ _ _ => ⟨x, mem_insertNode.mpr (Or.inl rfl), hxid⟩
  · intro y hy hyn
    obtain rfl := (mem_insertNode.mp hy).resolve_right fun hmem => hclosed y hmem hyn
    constructor
    · rwa [hxid]
    · rwa [hxid]
    · have hself : (nodeFile y).inode = v.inode dev.node := by rw [nodeFile, hx]
      refine ⟨?_, ?_, ?_, ?_, Or.inl ?_⟩
      · rw [hself, v.inode_id]
        exact hfile.isInode
      · rw [hself, v.inode_id]
      · rw [hself, v.inode_id]
      · rw [hself, v.inode_id]
        exact fun _ => rfl
      · rw [nodeFile, hx]
    · have hzero : devs.countP (fun d => d.node = dev.node) = 0 :=
        List.countP_eq_zero.mpr fun d hd => by simpa using hnone d hd
      rw [hxid, List.countP_append, hzero, hx]
      simp
    · rw [hx]
      exact (by decide : 0 < (1 : UInt16).toNat)
    · intro key
      rw [hxid, hx]
      constructor
      · intro hsome
        cases hrw : dev.rw with
        | false => simp [hrw] at hsome
        | true =>
            refine ⟨dev, List.mem_append_right _ List.mem_cons_self, ?_, rfl, hrw⟩
            simpa [hrw] using hsome
      · rintro ⟨d, hd, rfl, hdn, hrw⟩
        rcases List.mem_append.mp hd with hd | hd
        · exact absurd hdn (hnone d hd)
        · obtain rfl := List.mem_singleton.mp hd
          simp [hrw]
    · rw [hxid, hx]
      exact fun _ => rfl

end

end Iqiq.WhefsOpened
