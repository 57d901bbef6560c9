import Iqiq.SortedSearch
import Iqiq.Whefs

namespace Iqiq.NameCache

open Iqiq.SortedSearch
open Iqiq.Whefs

/-- `whefs_hash_cstring`, of the bytes before the terminating zero; `char` is signed. -/
def hashCstring (name : List UInt8) : UInt32 :=
  name.foldl (fun hash c => (hash <<< 5) + hash + c.toInt8.toInt32.toUInt32) 5381

/-- `whefs_hashid`, without its counter of hits. -/
structure Hashid where
  hash : UInt32
  id : UInt32
  deriving DecidableEq

/-- `whefs_hashid_list`; `list` holds the `count` entries in use. -/
structure HashidList where
  alloced : Nat
  maxAlloc : Nat
  list : List Hashid
  isSorted : Bool

/-- What `whefs_hashid_cmp` compares. -/
def Hashid.key (e : Hashid) : Nat :=
  e.hash.toNat

/-- `fs->cache.hashes`. -/
abbrev Cache :=
  Option HashidList

/-- `whefs_hashid_list_sort`. -/
def HashidList.sort (li : HashidList) : HashidList :=
  if li.list.length < 2 then { li with isSorted := true }
  else
    let list := li.list.insertionSort fun a b => a.key ≤ b.key
    -- shave off zeroed items
    let off := (list.takeWhile fun e => e.id = 0).length
    { li with
      isSorted := true
      list := if off ≠ 0 ∧ off < list.length then list.drop off else list }

/-- `whefs_hashid_list_index_of`, for a list that is there. -/
def HashidList.indexOf (li : HashidList) (val : UInt32) : Option Nat :=
  if li.list.length = 0 then none
  else if ¬ li.isSorted then li.list.findIdx? fun e => e.hash = val
  else (bsearch Hashid.key val.toNat li.list).map (leftmost Hashid.key val.toNat li.list)

/-- `whefs_hashid_list_alloc`, for a list that is there and `toAlloc` other than zero. -/
def HashidList.alloc (li : HashidList) (toAlloc : Nat) : Rc × HashidList :=
  if li.alloced ≥ toAlloc then (.ok, li)
  else if li.maxAlloc ≠ 0 ∧ toAlloc > li.maxAlloc then (.allocError, li)
  else (.ok, { li with alloced := toAlloc, isSorted := false })

/-- `whefs_hashid_list_add`; the new size is computed in 32 bits. -/
def HashidList.add (li : HashidList) (val : Hashid) : Rc × HashidList :=
  let li := { li with isSorted := false }
  if li.list.length ≥ li.alloced then
    let sz := (li.list.length + 1) * 2 % 2 ^ 32
    let sz := if li.maxAlloc ≠ 0 ∧ sz > li.maxAlloc then li.maxAlloc else sz
    if sz ≤ li.list.length then (.rangeError, li)
    else
      match li.alloc sz with
      | (.ok, li) => (.ok, { li with list := li.list ++ [val] })
      | (rc, li) => (rc, li)
  else (.ok, { li with list := li.list ++ [val] })

/-- The list that `whefs_inode_hash_cache` allocates when there is none; a
`whefs_hashid` takes 12 bytes. -/
def newList (inodeCount : UInt32) : HashidList where
  alloced := min (100 / 12) inodeCount.toNat
  maxAlloc := inodeCount.toNat
  list := []
  isSorted := false

def inodeHashCache (opt : Options) (cache : Cache) (id : UInt32) (name : List UInt8) :
    Rc × Cache :=
  if name = [] then (.argError, cache)
  else
    let hashes := cache.getD (newList opt.inodeCount)
    let h := hashCstring name
    match hashes.indexOf h with
    | some ndx =>
        (if hashes.list[ndx]?.map Hashid.id = some id then .ok else .internalError, some hashes)
    | none => (.ok, some (hashes.add ⟨h, id⟩).2)

def inodeHashCacheSort (cache : Cache) : Cache :=
  cache.map fun li => if li.isSorted then li else li.sort

/-- `whefs_inode_hash_cache`, and the sorting that `whefs_inode_name_get` does next. -/
def cacheName (opt : Options) (cache : Cache) (id : UInt32) (name : List UInt8) : Cache :=
  inodeHashCacheSort (inodeHashCache opt cache id name).2

/-- The entry that `whefs_inode_by_name` finds for a name. -/
def lookup (cache : Cache) (name : List UInt8) : Option Hashid :=
  cache.bind fun li =>
    (li.indexOf (hashCstring name)).bind fun ndx => li.list[ndx]?

def entries (cache : Cache) : List Hashid :=
  (cache.map HashidList.list).getD []

/-- The state in which every call of `whefs_inode_name_get` leaves the cache. -/
structure Tidy (opt : Options) (cache : Cache) : Prop where
  isSorted : ∀ li, cache = some li → li.isSorted = true
  sorted : Sorted Hashid.key (entries cache)
  maxAlloc : ∀ li, cache = some li → li.maxAlloc = opt.inodeCount.toNat
  id_ne : ∀ e ∈ entries cache, e.id ≠ 0

theorem Tidy.none (opt : Options) : Tidy opt none where
  isSorted := by simp
  sorted := List.Pairwise.nil
  maxAlloc := by simp
  id_ne := by simp [entries]

theorem Tidy.sort_eq {opt : Options} {cache : Cache} (h : Tidy opt cache) :
    inodeHashCacheSort cache = cache := by
  cases cache with
  | none => rfl
  | some li => simp [inodeHashCacheSort, h.isSorted li rfl]

theorem key_eq_iff {e : Hashid} {val : UInt32} : e.key = val.toNat ↔ e.hash = val :=
  UInt32.toNat_inj

theorem indexOf_sound {li : HashidList} {val : UInt32} {i : Nat}
    (h : li.indexOf val = some i) : ∃ e, li.list[i]? = some e ∧ e.hash = val := by
  rw [HashidList.indexOf] at h
  split at h
  · exact nomatch h
  · split at h
    · obtain ⟨hi, heq, -⟩ := List.findIdx?_eq_some_iff_getElem.mp h
      exact ⟨_, List.getElem?_eq_getElem hi, by simpa using heq⟩
    · obtain ⟨j, hj, rfl⟩ := Option.map_eq_some_iff.mp h
      obtain ⟨e, he, hkey⟩ := hits_leftmost (search_sound hj)
      exact ⟨e, he, key_eq_iff.mp hkey⟩

theorem indexOf_eq_none_iff {li : HashidList} {val : UInt32} (hsorted : li.isSorted = true)
    (h : Sorted Hashid.key li.list) :
    li.indexOf val = none ↔ ∀ e ∈ li.list, e.hash ≠ val := by
  rw [HashidList.indexOf]
  split
  · rename_i hnil
    simp [List.length_eq_zero_iff.mp hnil]
  · rw [Option.map_eq_none_iff, bsearch_eq_none_iff h]
    simp only [ne_eq, key_eq_iff]

theorem lookup_eq_none_iff {opt : Options} {cache : Cache} (h : Tidy opt cache)
    (name : List UInt8) :
    lookup cache name = none ↔ ∀ e ∈ entries cache, e.hash ≠ hashCstring name := by
  rw [lookup]
  cases cache with
  | none => simp [entries]
  | some li =>
      rw [show entries (some li) = li.list from rfl,
        ← indexOf_eq_none_iff (h.isSorted li rfl) h.sorted]
      simp only [Option.bind_some, Option.bind_eq_none_iff]
      constructor
      · intro hall
        cases hi : li.indexOf (hashCstring name) with
        | none => rfl
        | some i =>
            obtain ⟨e, he, -⟩ := indexOf_sound hi
            rw [hall i hi] at he
            exact nomatch he
      · intro hnone i hi
        rw [hnone] at hi
        exact nomatch hi

theorem lookup_sound {cache : Cache} {name : List UInt8} {e : Hashid}
    (he : lookup cache name = some e) : e ∈ entries cache ∧ e.hash = hashCstring name := by
  cases cache with
  | none => exact nomatch he
  | some li =>
      rw [lookup, Option.bind_some] at he
      obtain ⟨i, hi, he⟩ := Option.bind_eq_some_iff.mp he
      obtain ⟨e', he', hhash⟩ := indexOf_sound hi
      obtain rfl : e' = e := Option.some.inj (he'.symm.trans he)
      exact ⟨List.mem_of_getElem? he', hhash⟩

@[simp] theorem sort_isSorted (li : HashidList) : li.sort.isSorted = true := by
  rw [HashidList.sort]
  split <;> rfl

@[simp] theorem sort_maxAlloc (li : HashidList) : li.sort.maxAlloc = li.maxAlloc := by
  rw [HashidList.sort]
  split <;> rfl

theorem sort_perm {li : HashidList} (hid : ∀ e ∈ li.list, e.id ≠ 0) :
    li.sort.list.Perm li.list := by
  rw [HashidList.sort]
  split
  · exact List.Perm.refl _
  · have hoff : ((li.list.insertionSort fun a b => a.key ≤ b.key).takeWhile
        fun e => e.id = 0) = [] := by
      cases hlist : li.list.insertionSort fun a b => a.key ≤ b.key with
      | nil => rfl
      | cons e rest =>
          have he : e ∈ li.list.insertionSort fun a b => a.key ≤ b.key := by simp [hlist]
          simp [hid e ((List.mem_insertionSort _).mp he)]
    simp only [hoff]
    exact List.perm_insertionSort _ _

theorem sort_sorted (li : HashidList) : Sorted Hashid.key li.sort.list := by
  rw [HashidList.sort]
  split
  · rename_i hlen
    match hlist : li.list with
    | [] => exact List.Pairwise.nil
    | [e] => exact List.pairwise_singleton _ e
    | _ :: _ :: _ =>
        simp only [hlist, List.length_cons] at hlen
        omega
  · have hsorted : Sorted Hashid.key (li.list.insertionSort fun a b => a.key ≤ b.key) :=
      List.pairwise_insertionSort _ _
    simp only
    split
    · exact List.Pairwise.drop hsorted
    · exact hsorted

theorem add_eq {li : HashidList} {val : Hashid} (hlen : li.list.length < li.maxAlloc)
    (hmax : li.maxAlloc < 2 ^ 31) :
    ∃ alloced, (li.add val).2 = ⟨alloced, li.maxAlloc, li.list ++ [val], false⟩ := by
  have hsz : (li.list.length + 1) * 2 % 2 ^ 32 = (li.list.length + 1) * 2 := by omega
  rw [HashidList.add]
  simp only [hsz]
  split
  · have hmax0 : li.maxAlloc ≠ 0 := by omega
    generalize hcap : (if li.maxAlloc ≠ 0 ∧ (li.list.length + 1) * 2 > li.maxAlloc then
      li.maxAlloc else (li.list.length + 1) * 2) = sz
    have hbounds : li.list.length < sz ∧ sz ≤ li.maxAlloc := by
      rw [← hcap]
      split <;> omega
    rw [if_neg (by omega)]
    simp only [HashidList.alloc, if_neg (by omega : ¬ li.alloced ≥ sz),
      if_neg (by omega : ¬ (li.maxAlloc ≠ 0 ∧ sz > li.maxAlloc))]
    exact ⟨_, rfl⟩
  · exact ⟨_, rfl⟩

theorem indexOf_getD {opt : Options} {cache : Cache} (h : Tidy opt cache) (val : UInt32) :
    (cache.getD (newList opt.inodeCount)).indexOf val = none ↔
      ∀ e ∈ entries cache, e.hash ≠ val := by
  cases cache with
  | none => simp [HashidList.indexOf, newList, entries]
  | some li => exact indexOf_eq_none_iff (h.isSorted li rfl) h.sorted

theorem cacheName_of_mem {opt : Options} {cache : Cache} {name : List UInt8}
    (h : Tidy opt cache) (hname : name ≠ [])
    (hmem : ∃ e ∈ entries cache, e.hash = hashCstring name) (id : UInt32) :
    cacheName opt cache id name = cache := by
  obtain ⟨e, he, hhash⟩ := hmem
  obtain ⟨li, rfl⟩ : ∃ li, cache = some li := by
    cases cache with
    | none => simp [entries] at he
    | some li => exact ⟨li, rfl⟩
  cases hidx : li.indexOf (hashCstring name) with
  | none => exact absurd hhash ((indexOf_eq_none_iff (h.isSorted li rfl) h.sorted).mp hidx e he)
  | some ndx =>
      rw [cacheName, inodeHashCache, if_neg hname]
      simp only [Option.getD_some, hidx]
      exact h.sort_eq

theorem cacheName_of_new {opt : Options} {cache : Cache} {id : UInt32} {name : List UInt8}
    (h : Tidy opt cache) (hname : name ≠ []) (hid : id ≠ 0)
    (hlen : (entries cache).length < opt.inodeCount.toNat) (hmax : opt.inodeCount.toNat < 2 ^ 31)
    (hnew : ∀ e ∈ entries cache, e.hash ≠ hashCstring name) :
    Tidy opt (cacheName opt cache id name) ∧
      (entries (cacheName opt cache id name)).Perm (⟨hashCstring name, id⟩ :: entries cache) := by
  have hmaxAlloc : (cache.getD (newList opt.inodeCount)).maxAlloc = opt.inodeCount.toNat := by
    cases cache with
    | none => rfl
    | some li => exact h.maxAlloc li rfl
  have hlist : (cache.getD (newList opt.inodeCount)).list = entries cache := by
    cases cache <;> rfl
  have hidx := (indexOf_getD h _).mpr hnew
  obtain ⟨alloced, hadd⟩ := @add_eq (cache.getD (newList opt.inodeCount))
    ⟨hashCstring name, id⟩ (by rw [hlist, hmaxAlloc]; exact hlen) (by rw [hmaxAlloc]; exact hmax)
  rw [hlist, hmaxAlloc] at hadd
  have hcache : cacheName opt cache id name = some (HashidList.sort
      ⟨alloced, opt.inodeCount.toNat, entries cache ++ [⟨hashCstring name, id⟩], false⟩) := by
    rw [cacheName, inodeHashCache, if_neg hname]
    simp only [hidx, hadd]
    rfl
  have hids : ∀ e ∈ entries cache ++ [⟨hashCstring name, id⟩], e.id ≠ 0 := by
    intro e he
    rcases List.mem_append.mp he with he | he
    · exact h.id_ne e he
    · rwa [List.mem_singleton.mp he]
  have hperm := @sort_perm ⟨alloced, opt.inodeCount.toNat,
    entries cache ++ [⟨hashCstring name, id⟩], false⟩ hids
  rw [hcache]
  refine ⟨⟨?_, sort_sorted _, ?_, fun e he => hids e (hperm.mem_iff.mp he)⟩, ?_⟩
  · intro li hli
    rw [← Option.some.inj hli, sort_isSorted]
  · intro li hli
    rw [← Option.some.inj hli, sort_maxAlloc]
  · exact hperm.trans (List.perm_append_singleton _ _)

end Iqiq.NameCache
