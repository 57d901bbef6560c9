import Iqiq.WhefsOpened

namespace Iqiq.WhefsNaming

open Iqiq.KeyedList hiding lookup
open Iqiq.NameCache
open Iqiq.SortedSearch
open Iqiq.Whefs
open Iqiq.WhefsAllocation
open Iqiq.WhefsDisk
open Iqiq.WhefsEncode
open Iqiq.WhefsFiles
open Iqiq.WhefsMount
open Iqiq.WhefsNames
open Iqiq.WhefsOpened
open Iqiq.WhefsVolume

/-- There is an entry for the name. -/
def Cached (cache : Cache) (name : List UInt8) : Prop :=
  ∃ e ∈ entries cache, e.hash = hashCstring name

section Entries

variable {opt : Options} {cache : Cache} {li : HashidList} {val e : Hashid} {id : UInt32}
  {name : List UInt8}

/-- Only names that are not empty have entries of their own: the other ones are those of
files that are gone. -/
def Unique (entries : List Hashid) : Prop :=
  entries.Pairwise fun a b => a.hash = b.hash → a.hash = hashCstring []

theorem Unique.perm {es es' : List Hashid} (h : Unique es) (hperm : es.Perm es') : Unique es' := by
  refine (hperm.pairwise_iff fun {a b} hab heq => ?_).mp h
  rw [heq]
  exact hab heq.symm

theorem alloc_cases (li : HashidList) (sz : Nat) (hunsorted : li.isSorted = false) :
    (∃ alloced, li.alloc sz = (.ok, { li with alloced })) ∨
      li.alloc sz = (.allocError, li) := by
  rw [HashidList.alloc]
  split
  · exact Or.inl ⟨li.alloced, rfl⟩
  · split
    · exact Or.inr rfl
    · refine Or.inl ⟨sz, ?_⟩
      rw [← hunsorted]

theorem add_cases (li : HashidList) (val : Hashid) :
    (li.add val).2 = { li with isSorted := false } ∨
      ∃ alloced, (li.add val).2 = ⟨alloced, li.maxAlloc, li.list ++ [val], false⟩ := by
  rw [HashidList.add]
  simp only
  split
  · generalize (if li.maxAlloc ≠ 0 ∧ (li.list.length + 1) * 2 % 2 ^ 32 > li.maxAlloc then
      li.maxAlloc else (li.list.length + 1) * 2 % 2 ^ 32) = sz
    split
    · exact Or.inl rfl
    · rcases alloc_cases { li with isSorted := false } sz rfl with ⟨alloced, halloc⟩ | halloc
      · rw [halloc]
        exact Or.inr ⟨alloced, rfl⟩
      · rw [halloc]
        exact Or.inl rfl
  · exact Or.inr ⟨li.alloced, rfl⟩

theorem sort_tidy (hmax : li.maxAlloc = opt.inodeCount.toNat) (hid : ∀ e ∈ li.list, e.id ≠ 0) :
    Tidy opt (some li.sort) := by
  refine ⟨?_, sort_sorted li, ?_, fun e he => hid e ((sort_perm hid).mem_iff.mp he)⟩
  · rintro li' ⟨⟩
    exact sort_isSorted li
  · rintro li' ⟨⟩
    rw [sort_maxAlloc, hmax]

theorem cacheName_cases (h : Tidy opt cache) (hname : name ≠ []) (hid : id ≠ 0) :
    Tidy opt (cacheName opt cache id name) ∧
      ((entries (cacheName opt cache id name)).Perm (entries cache) ∨
        (∀ e ∈ entries cache, e.hash ≠ hashCstring name) ∧
          (entries (cacheName opt cache id name)).Perm
            (⟨hashCstring name, id⟩ :: entries cache)) := by
  by_cases hmem : ∃ e ∈ entries cache, e.hash = hashCstring name
  · rw [cacheName_of_mem h hname hmem]
    exact ⟨h, Or.inl (List.Perm.refl _)⟩
  · have hnew : ∀ e ∈ entries cache, e.hash ≠ hashCstring name :=
      fun e he heq => hmem ⟨e, he, heq⟩
    have hmaxAlloc : (cache.getD (newList opt.inodeCount)).maxAlloc = opt.inodeCount.toNat := by
      cases cache with
      | none => rfl
      | some li => exact h.maxAlloc li rfl
    have hlist : (cache.getD (newList opt.inodeCount)).list = entries cache := by
      cases cache <;> rfl
    have hidx := (indexOf_getD h (hashCstring name)).mpr hnew
    have hcache : cacheName opt cache id name = inodeHashCacheSort
        (some ((cache.getD (newList opt.inodeCount)).add ⟨hashCstring name, id⟩).2) := by
      rw [cacheName, inodeHashCache, if_neg hname]
      simp only [hidx]
    rw [hcache]
    generalize cache.getD (newList opt.inodeCount) = li at hmaxAlloc hlist
    rcases add_cases li ⟨hashCstring name, id⟩ with hadd | ⟨alloced, hadd⟩
    · have hids : ∀ e ∈ li.list, e.id ≠ 0 := hlist ▸ h.id_ne
      rw [hadd]
      refine ⟨@sort_tidy opt { li with isSorted := false } hmaxAlloc hids, Or.inl ?_⟩
      rw [← hlist]
      exact @sort_perm { li with isSorted := false } hids
    · have hids : ∀ e ∈ li.list ++ [⟨hashCstring name, id⟩], e.id ≠ 0 := by
        intro e he
        rcases List.mem_append.mp he with he | he
        · exact h.id_ne e (hlist ▸ he)
        · rwa [List.mem_singleton.mp he]
      have htidy := @sort_tidy opt
        (⟨alloced, li.maxAlloc, li.list ++ [⟨hashCstring name, id⟩], false⟩ : HashidList)
        hmaxAlloc hids
      have hperm := @sort_perm
        (⟨alloced, li.maxAlloc, li.list ++ [⟨hashCstring name, id⟩], false⟩ : HashidList) hids
      rw [hadd, ← hlist]
      exact ⟨htidy, Or.inr ⟨hlist ▸ hnew, hperm.trans (List.perm_append_singleton _ _)⟩⟩

theorem length_cacheName_le (h : Tidy opt cache) (hname : name ≠ []) (hid : id ≠ 0) :
    (entries (cacheName opt cache id name)).length ≤ (entries cache).length + 1 := by
  rcases (cacheName_cases h hname hid).2 with hperm | ⟨-, hperm⟩
  · rw [hperm.length_eq]
    exact Nat.le_succ _
  · exact hperm.length_eq.le

theorem cached_cacheName (h : Tidy opt cache) (hname : name ≠ []) (hid : id ≠ 0)
    (hroom : (entries cache).length < opt.inodeCount.toNat) (hmax : opt.inodeCount.toNat < 2 ^ 31) :
    Cached (cacheName opt cache id name) name := by
  by_cases hmem : Cached cache name
  · rw [cacheName_of_mem h hname hmem]
    exact hmem
  · have hnew : ∀ e ∈ entries cache, e.hash ≠ hashCstring name :=
      fun e he hhash => hmem ⟨e, he, hhash⟩
    have hperm := (cacheName_of_new h hname hid hroom hmax hnew).2
    exact ⟨_, hperm.mem_iff.mpr (List.mem_cons_self ..), rfl⟩

end Entries

section

variable {opt : Options}

/-- Names that can be told apart by their hash values. -/
structure HashNames (S : List UInt8 → Prop) : Prop where
  ne_nil : ∀ a, S a → a ≠ []
  zero_notMem : ∀ a, S a → 0 ∉ a
  hash_ne : ∀ a, S a → hashCstring a ≠ hashCstring []
  inj : ∀ a b, S a → S b → hashCstring a = hashCstring b → a = b

theorem hashNames_pair {x y : List UInt8}
    (hx : x ≠ [] ∧ 0 ∉ x ∧ hashCstring x ≠ hashCstring [])
    (hy : y ≠ [] ∧ 0 ∉ y ∧ hashCstring y ≠ hashCstring [])
    (hxy : hashCstring x ≠ hashCstring y) : HashNames fun name => name = x ∨ name = y := by
  constructor
  · rintro a (rfl | rfl)
    · exact hx.1
    · exact hy.1
  · rintro a (rfl | rfl)
    · exact hx.2.1
    · exact hy.2.1
  · rintro a (rfl | rfl)
    · exact hx.2.2
    · exact hy.2.2
  · rintro a b (rfl | rfl) (rfl | rfl) hhash
    · rfl
    · exact absurd hhash hxy
    · exact absurd hhash.symm hxy
    · rfl

/-- The files have different names, of `S`, and the cache has no other names than theirs. -/
structure Named (S : List UInt8 → Prop) (v : Volume opt) (cache : Cache) : Prop where
  tidy : Tidy opt cache
  cached : ∀ e ∈ entries cache, IsFileId opt e.id ∧
    (e.hash = hashCstring (v.name e.id) ∨ e.hash = hashCstring [])
  unique : Unique (entries cache)
  mem : ∀ id, IsFileId opt id → v.name id ≠ [] → S (v.name id)
  distinct : ∀ id id', IsFileId opt id → IsFileId opt id' → v.name id ≠ [] →
    v.name id = v.name id' → id = id'

variable {S : List UInt8 → Prop} {v : Volume opt} {hints : Hints} {cache : Cache} {id : UInt32}
  {name : List UInt8}

theorem Named.congr {w : Volume opt} (h : Named S v cache) (hname : w.name = v.name) :
    Named S w cache :=
  ⟨h.tidy, hname ▸ h.cached, h.unique, hname ▸ h.mem, hname ▸ h.distinct⟩

theorem Named.cacheName (h : Named S v cache) (hid : IsFileId opt id) (hname : v.name id ≠ []) :
    Named S v (cacheName opt cache id (v.name id)) := by
  obtain ⟨htidy, hperm | ⟨hnew, hperm⟩⟩ := cacheName_cases h.tidy hname hid.ne_zero
  · exact ⟨htidy, fun e he => h.cached e (hperm.mem_iff.mp he), h.unique.perm hperm.symm, h.mem,
      h.distinct⟩
  · refine ⟨htidy, fun e he => ?_, Unique.perm ?_ hperm.symm, h.mem, h.distinct⟩
    · rcases List.mem_cons.mp (hperm.mem_iff.mp he) with rfl | he
      · exact ⟨hid, Or.inl rfl⟩
      · exact h.cached e he
    · exact List.pairwise_cons.mpr ⟨fun e he heq => absurd heq.symm (hnew e he), h.unique⟩

theorem Named.eq_of_hash (hS : HashNames S) (h : Named S v cache) (hname : S name) {e : Hashid}
    (he : e ∈ entries cache) (hhash : e.hash = hashCstring name) :
    IsFileId opt e.id ∧ v.name e.id = name := by
  obtain ⟨hid, hcase⟩ := h.cached e he
  rcases hcase with heq | hnil
  · rw [hhash] at heq
    rcases eq_or_ne (v.name e.id) [] with hempty | hne
    · rw [hempty] at heq
      exact absurd heq (hS.hash_ne name hname)
    · exact ⟨hid, (hS.inj _ _ hname (h.mem e.id hid hne) heq).symm⟩
  · exact absurd (hhash.symm.trans hnil) (hS.hash_ne name hname)

theorem takeWhile_name (h : 0 ∉ name) (k : Nat) :
    (name ++ List.replicate k 0).takeWhile (· ≠ 0) = name := by
  rw [List.takeWhile_append_of_pos]
  · cases k <;> simp [List.replicate_succ]
  · intro c hc
    rw [decide_eq_true_eq]
    rintro rfl
    exact h hc

theorem recordName_fs (hopt : Formattable opt) (v : Volume opt) (hid : IsInode opt id) :
    recordName v.fs id = v.name id := by
  have hdrop : (v.nameRecord id).drop 9 = v.name id ++
      List.replicate ((sizeofName opt).toNat - (9 + (v.name id).length)) 0 := by
    rw [Volume.nameRecord, nameEncode]
    simp only [List.length_cons, List.length_append, length_encodeUint32, length_encodeUint16]
    rw [show 5 + (3 + (v.name id).length) + 1 = 9 + (v.name id).length by omega]
    rfl
  rw [recordName, v.nameRecord_eq hopt hid, hdrop, takeWhile_name (v.name_ne id)]

theorem nameIntact_fs (hopt : Formattable opt) (v : Volume opt) (hid : IsInode opt id) :
    NameIntact v.fs id := by
  have hrecord := v.nameRecord_eq hopt hid
  constructor
  · rw [hrecord, v.length_nameRecord, fs_options, sizeofName_toNat, nameWidth]
  · rw [hrecord]
    rfl
  · rw [hrecord]
    exact ⟨_, decodeUint16_encodeUint16 (UInt16.ofNat (v.name id).length) _⟩

theorem inodeNameGet_fs (hopt : Formattable opt) (v : Volume opt) (hid : IsInode opt id)
    (cache : Cache) :
    inodeNameGet v.fs cache id [] = .ok (.ok, v.name id,
      if v.name id = [] then cache else NameCache.cacheName opt cache id (v.name id)) := by
  rw [inodeNameGet_of_intact (Volume.inodeIdIsValid_fs.mpr hid) hopt.filenameLength_le
    (nameIntact_fs hopt v hid), recordName_fs hopt v hid]
  rfl

theorem Named.read (h : Named S v cache) (hid : IsFileId opt id) :
    Named S v (if v.name id = [] then cache else NameCache.cacheName opt cache id (v.name id)) := by
  split
  · exact h
  · exact h.cacheName hid ‹_›

theorem inodeCount_lt (hopt : Formattable opt) : opt.inodeCount.toNat < 2 ^ 31 :=
  (Nat.lt_of_le_of_lt hopt.blockCount (WhefsGrowth.blockCount_lt hopt)).trans (by decide)

/-- The search from `i` on comes to the file with the name. A search through the inodes from the
first one on that begins with no cache leaves that name in it, as each of them takes one entry at
most. -/
theorem byNameLoop_found (hopt : Formattable opt) (h : Named S v cache) (hid : IsFileId opt id)
    (hname : v.name id ≠ []) {i : UInt32} {left : Nat} (hi : 2 ≤ i.toNat)
    (hle : i.toNat ≤ id.toNat) (hleft : i.toNat + left = opt.inodeCount.toNat + 1) (rc : Rc) :
    ∃ cache', byNameLoop v.fs (v.name id) false left i rc cache = .ok (.ok id, cache') ∧
      Named S v cache' ∧
      ((entries cache).length + 2 ≤ i.toNat → Cached cache' (v.name id)) := by
  have hcount := hid.2
  induction left generalizing i rc cache with
  | zero => omega
  | succ left ih =>
      have hfile : IsFileId opt i := ⟨hi, by omega⟩
      have hread := h.read hfile
      have hnonzero : i ≠ 0 := by
        rintro rfl
        exact absurd hi (by decide)
      rw [byNameLoop, inodeNameGet_fs hopt v hfile.isInode]
      simp only [Run.ok_bind]
      rw [if_neg (not_not_intro rfl)]
      rcases eq_or_ne i id with rfl | hne
      · rw [if_neg hname] at hread ⊢
        rw [if_neg hname, if_pos rfl]
        refine ⟨_, rfl, hread, fun hroom => ?_⟩
        exact cached_cacheName h.tidy hname hnonzero (by omega) (inodeCount_lt hopt)
      · have hlt : i.toNat < id.toNat := Nat.lt_of_le_of_ne hle (UInt32.toNat_inj.ne.mpr hne)
        have hsucc : (i + 1).toNat = i.toNat + 1 := @toNat_succ i opt.inodeCount (by omega)
        have hother : v.name i ≠ v.name id := fun heq =>
          hne (h.distinct id i hid hfile hname heq.symm).symm
        rw [if_neg hother]
        rcases eq_or_ne (v.name i) [] with hnil | hnamed
        · rw [if_pos hnil, if_pos hnil]
          obtain ⟨cache', hrun, hkeeps, hcached⟩ :=
            ih (i := i + 1) h (by omega) (by omega) (by omega) .ok
          exact ⟨cache', hrun, hkeeps, fun hroom => hcached (by omega)⟩
        · have hlen := length_cacheName_le h.tidy hnamed hnonzero
          rw [if_neg hnamed, if_neg hnamed]
          obtain ⟨cache', hrun, hkeeps, hcached⟩ :=
            ih (i := i + 1) (h.cacheName hfile hnamed) (by omega) (by omega) (by omega) .mismatch
          exact ⟨cache', hrun, hkeeps, fun hroom => hcached (by omega)⟩

/-- The search comes to the end: its code is that of the last name that it has looked at. -/
theorem byNameLoop_missing (hopt : Formattable opt) (h : Named S v cache)
    (hmissing : ∀ id, IsFileId opt id → v.name id ≠ name) {i : UInt32} {left : Nat}
    (hi : 2 ≤ i.toNat) (hleft : i.toNat + left = opt.inodeCount.toNat + 1) {rc : Rc}
    (hrc : left = 0 → rc = if v.name opt.inodeCount = [] then .ok else .mismatch) :
    ∃ cache', byNameLoop v.fs name false left i rc cache =
        .ok (.error (if v.name opt.inodeCount = [] then .rangeError else .mismatch), cache') ∧
      Named S v cache' := by
  induction left generalizing i rc cache with
  | zero =>
      refine ⟨cache, ?_, h⟩
      rw [byNameLoop, hrc rfl]
      split <;> rfl
  | succ left ih =>
      have hfile : IsFileId opt i := ⟨hi, by omega⟩
      have hread := h.read hfile
      have hlast : left = 0 → i = opt.inodeCount := fun hzero =>
        UInt32.toNat_inj.mp (by omega)
      rw [byNameLoop, inodeNameGet_fs hopt v hfile.isInode]
      simp only [Run.ok_bind]
      rw [if_neg (not_not_intro rfl), if_neg (hmissing i hfile)]
      rcases Nat.eq_zero_or_pos left with hzero | hpos
      · -- the loop ends behind the last inode, whose number may be the greatest one
        subst hzero
        rw [byNameLoop, byNameLoop, hlast rfl]
        exact ⟨_, by split <;> rfl, hlast rfl ▸ hread⟩
      · have hsucc : (i + 1).toNat = i.toNat + 1 := @toNat_succ i opt.inodeCount (by omega)
        rcases eq_or_ne (v.name i) [] with hnil | hnamed
        · rw [if_pos hnil, if_pos hnil]
          exact ih h (by omega) (by omega) fun hzero => absurd hzero hpos.ne'
        · rw [if_neg hnamed, if_neg hnamed]
          exact ih (h.cacheName hfile hnamed) (by omega) (by omega)
            fun hzero => absurd hzero hpos.ne'

theorem inodeByName_found (hopt : Formattable opt) (hS : HashNames S) (h : Named S v cache)
    (hid : IsFileId opt id) (hname : v.name id ≠ []) :
    ∃ cache', inodeByName v.fs cache (v.name id) = .ok (.ok, v.inode id, cache') ∧
      Named S v cache' ∧ (cache = none → Cached cache' (v.name id)) := by
  have hread := v.inodeIdRead_eq hopt hid.isInode inodeEmpty
  have hmem := h.mem id hid hname
  cases hlookup : lookup cache (v.name id) with
  | some e =>
      obtain ⟨he, hhash⟩ := lookup_sound hlookup
      obtain ⟨hfile, heq⟩ := h.eq_of_hash hS hmem he hhash
      obtain hsame := h.distinct id e.id hid hfile hname heq.symm
      have hrun := @inodeByName_of_lookup v.fs cache (v.name id) e h.tidy hlookup
        hopt.filenameLength_le (Volume.inodeIdIsValid_fs.mpr hfile.isInode)
        (nameIntact_fs hopt v hfile.isInode) (by rwa [recordName_fs hopt v hfile.isInode, heq])
        hname (v.name_length id)
      rw [recordName_fs hopt v hfile.isInode, if_pos heq, ← hsame, hread] at hrun
      refine ⟨_, hrun, h.cacheName hid hname, ?_⟩
      rintro rfl
      exact absurd he List.not_mem_nil
  | none =>
      have hfits : ¬ (v.name id).length > v.fs.options.filenameLength.toNat :=
        Nat.not_lt.mpr (v.name_length id)
      have hcount : ¬ v.fs.options.inodeCount = 0 := by
        intro hzero
        have := hopt.inodeCount
        rw [fs_options] at hzero
        rw [hzero] at this
        exact absurd this (by decide)
      have hle := hid.1.trans hid.2
      obtain ⟨cache', hloop, hnamed, hcached⟩ := @byNameLoop_found opt S v cache id hopt h hid
        hname 2 (opt.inodeCount.toNat + 1 - 2) le_rfl hid.1 (by change 2 + _ = _; omega) .rangeError
      rw [inodeByName, if_neg hname, if_neg hcount, if_neg hfits]
      simp only [h.tidy.sort_eq, hlookup]
      refine ⟨cache', ?_, hnamed, ?_⟩
      · change (byNameLoop v.fs (v.name id) false (opt.inodeCount.toNat + 1 - 2) 2 .rangeError cache
          >>= _) = _
        rw [hloop]
        simp only [Run.ok_bind, hread]
        rfl
      · rintro rfl
        exact hcached le_rfl

theorem inodeByName_missing (hopt : Formattable opt) (hS : HashNames S) (h : Named S v cache)
    (hname : S name) (hlen : name.length ≤ opt.filenameLength.toNat)
    (hmissing : ∀ id, IsFileId opt id → v.name id ≠ name) :
    ∃ cache', inodeByName v.fs cache name =
        .ok (if v.name opt.inodeCount = [] then .rangeError else .mismatch, inodeEmpty, cache') ∧
      Named S v cache' := by
  have hlookup : lookup cache name = none := by
    rw [lookup_eq_none_iff h.tidy]
    intro e he hhash
    obtain ⟨hfile, heq⟩ := h.eq_of_hash hS hname he hhash
    exact hmissing e.id hfile heq
  have htwo := hopt.inodeCount
  have hfits : ¬ name.length > v.fs.options.filenameLength.toNat := Nat.not_lt.mpr hlen
  have hcount : ¬ v.fs.options.inodeCount = 0 := by
    intro hzero
    rw [fs_options] at hzero
    rw [hzero] at htwo
    exact absurd htwo (by decide)
  obtain ⟨cache', hloop, hnamed⟩ := @byNameLoop_missing opt S v cache name hopt h hmissing 2
    (opt.inodeCount.toNat + 1 - 2) le_rfl (by change 2 + _ = _; omega) .rangeError
    (fun hzero => by omega)
  rw [inodeByName, if_neg (hS.ne_nil name hname), if_neg hcount, if_neg hfits]
  simp only [h.tidy.sort_eq, hlookup]
  refine ⟨cache', ?_, hnamed⟩
  change (byNameLoop v.fs name false (opt.inodeCount.toNat + 1 - 2) 2 .rangeError cache >>= _) = _
  rw [hloop]
  rfl

variable {es rest : List Hashid} {hlen : name.length ≤ opt.filenameLength.toNat}
  {hzero : 0 ∉ name}

theorem setName_self (v : Volume opt) (hlen : (v.name id).length ≤ opt.filenameLength.toNat)
    (hzero : 0 ∉ v.name id) : v.setName id (v.name id) hlen hzero = v := by
  rw [Volume.setName]
  simp

theorem Named.keep (h : Named S v cache) {e : Hashid} (he : e ∈ entries cache)
    (hold : e.hash = hashCstring (v.name id) → v.name id = []) :
    IsFileId opt e.id ∧ (e.hash = hashCstring ((v.setName id name hlen hzero).name e.id) ∨
      e.hash = hashCstring []) := by
  obtain ⟨hfile, hcase⟩ := h.cached e he
  refine ⟨hfile, hcase.elim (fun heq => ?_) Or.inr⟩
  rw [Volume.setName_name]
  rcases eq_or_ne e.id id with hid | hne
  · rw [hid] at heq
    rw [hold heq] at heq
    exact Or.inr heq
  · rw [Function.update_of_ne hne]
    exact Or.inl heq

theorem Named.setName (hS : HashNames S) (h : Named S v cache) (hid : IsFileId opt id)
    (hname : name = [] ∨ S name)
    (hfree : name ≠ [] → ∀ i, IsFileId opt i → i ≠ id → v.name i ≠ name) {cache' : Cache}
    (htidy : Tidy opt cache')
    (hrest : ∀ e ∈ rest, e ∈ entries cache ∧ (e.hash = hashCstring (v.name id) → v.name id = []))
    (hunique : Unique rest) (hes : es = [] ∨ es = [⟨hashCstring name, id⟩] ∧ v.name id ≠ [])
    (hperm : (entries cache').Perm (es ++ rest)) :
    Named S (v.setName id name hlen hzero) cache' := by
  have hself : (v.setName id name hlen hzero).name id = name := Function.update_self ..
  have hother : ∀ i, i ≠ id → (v.setName id name hlen hzero).name i = v.name i :=
    fun i hne => Function.update_of_ne hne _ _
  refine ⟨htidy, fun e he => ?_, ?_, fun i hi hne => ?_, fun i j hi hj hne heq => ?_⟩
  · rcases List.mem_append.mp (hperm.mem_iff.mp he) with he | he
    · rcases hes with rfl | ⟨rfl, -⟩
      · exact absurd he List.not_mem_nil
      · rw [List.mem_singleton.mp he]
        exact ⟨hid, Or.inl (congrArg hashCstring hself.symm)⟩
    · exact h.keep (hrest e he).1 (hrest e he).2
  · refine Unique.perm ?_ hperm.symm
    rcases hes with rfl | ⟨rfl, hold⟩
    · exact hunique
    refine List.pairwise_cons.mpr ⟨fun e he heq => ?_, hunique⟩
    rcases hname with rfl | hmem
    · rfl
    · -- an entry for the new name would be one for the old name
      obtain ⟨hfile, hsame⟩ := h.eq_of_hash hS hmem (hrest e he).1 heq.symm
      have heid : e.id = id := by
        by_contra hne
        exact hfree (hS.ne_nil name hmem) e.id hfile hne hsame
      rw [heid] at hsame
      exact absurd ((hrest e he).2 (heq.symm.trans (congrArg hashCstring hsame.symm))) hold
  · rcases eq_or_ne i id with rfl | hni
    · rw [hself] at hne ⊢
      exact hname.resolve_left hne
    · rw [hother i hni] at hne ⊢
      exact h.mem i hi hne
  · rcases eq_or_ne i id with rfl | hni
    · by_contra hij
      rw [hself, hother j (Ne.symm hij)] at heq
      rw [hself] at hne
      exact hfree hne j hj (Ne.symm hij) heq.symm
    · rcases eq_or_ne j id with rfl | hnj
      · rw [hself, hother i hni] at heq
        rw [hother i hni, heq] at hne
        exact absurd heq (hfree hne i hi hni)
      · rw [hother i hni, hother j hnj] at heq
        rw [hother i hni] at hne
        exact h.distinct i j hi hj hne heq

theorem hashSearchNdx_cases (h : Tidy opt cache) (name : List UInt8) :
    (hashSearchNdx cache name = none ∧ ∀ e ∈ entries cache, e.hash ≠ hashCstring name) ∨
      ∃ li i e, cache = some li ∧ hashSearchNdx cache name = some i ∧ li.list[i]? = some e ∧
        e.hash = hashCstring name := by
  cases cache with
  | none => exact Or.inl ⟨rfl, fun e he => absurd he List.not_mem_nil⟩
  | some li =>
      rw [hashSearchNdx, Option.bind_some]
      cases hidx : li.indexOf (hashCstring name) with
      | none => exact Or.inl ⟨rfl, (indexOf_eq_none_iff (h.isSorted li rfl) h.sorted).mp hidx⟩
      | some i =>
          obtain ⟨e, he, hhash⟩ := indexOf_sound hidx
          exact Or.inr ⟨li, i, e, rfl, rfl, he, hhash⟩

/-- The cache after the entry at `i` has got another name. -/
theorem Named.rehash (hS : HashNames S) {li : HashidList} (h : Named S v (some li))
    (hid : IsFileId opt id) (hname : name = [] ∨ S name)
    (hfree : name ≠ [] → ∀ i, IsFileId opt i → i ≠ id → v.name i ≠ name) (hold : v.name id ≠ [])
    {i : Nat} {e : Hashid} (he : li.list[i]? = some e) (heid : e.id = id)
    (hhash : e.hash = hashCstring (v.name id)) :
    Named S (v.setName id name hlen hzero) (some (WhefsMount.rehash li i name)) := by
  obtain ⟨rest, hperm, hmodify⟩ :=
    exists_perm_modify he fun e => { e with hash := hashCstring name }
  rw [heid] at hmodify
  have hunique := List.pairwise_cons.mp (h.unique.perm hperm)
  have hmem : ∀ e' ∈ rest, e' ∈ entries (some li) := fun e' he' =>
    hperm.mem_iff.mpr (List.mem_cons_of_mem e he')
  have hids : ∀ e' ∈ li.list.modify i fun e => { e with hash := hashCstring name }, e'.id ≠ 0 := by
    intro e' he'
    rcases List.mem_cons.mp (hmodify.mem_iff.mp he') with rfl | he'
    · exact hid.ne_zero
    · exact h.tidy.id_ne e' (hmem e' he')
  have htidy := @sort_tidy opt
    { li with list := li.list.modify i fun e => { e with hash := hashCstring name } }
    (h.tidy.maxAlloc li rfl) hids
  have hsort := @sort_perm
    { li with list := li.list.modify i fun e => { e with hash := hashCstring name } } hids
  refine h.setName hS hid hname hfree htidy (fun e' he' => ⟨hmem e' he', fun heq => ?_⟩)
    hunique.2 (Or.inr ⟨rfl, hold⟩) (hsort.trans hmodify)
  have hnil := hunique.1 e' he' (hhash.trans heq.symm)
  rw [hhash] at hnil
  exact absurd hnil (hS.hash_ne _ (h.mem id hid hold))

theorem inodeNameSet_fs (hopt : Formattable opt) (hS : HashNames S) {m : Mount}
    (hdisk : m.disk = disk v hints) (h : Named S v m.cache) (hid : IsFileId opt id)
    (hname : name = [] ∧ v.name id ≠ [] ∨ S name)
    (hfree : name ≠ [] → ∀ i, IsFileId opt i → i ≠ id → v.name i ≠ name) :
    ∃ cache', inodeNameSet m id name = .ok (.of .ok,
        { m with cache := cache', disk := disk (v.setName id name hlen hzero) hints }) ∧
      Named S (v.setName id name hlen hzero) cache' := by
  have hname' : name = [] ∨ S name := hname.imp_left And.left
  have hread := h.read hid
  have hvalid : inodeIdIsValid (disk v hints).fs id := Volume.inodeIdIsValid_fs.mpr hid.isInode
  rw [inodeNameSet, hdisk, if_neg (not_not_intro hvalid), disk_fs,
    inodeNameGet_fs hopt v hid.isInode]
  generalize (if v.name id = [] then m.cache
    else NameCache.cacheName opt m.cache id (v.name id)) = cache at hread
  simp only [Run.ok_bind]
  rw [if_neg (not_not_intro rfl)]
  by_cases hsame : v.name id ≠ [] ∧ v.name id = name
  · rw [if_pos hsame]
    obtain ⟨-, rfl⟩ := hsame
    rw [setName_self, ← hdisk]
    exact ⟨cache, rfl, hread⟩
  rw [if_neg hsame]
  have hcheck : S (if v.name id = [] then name else v.name id) := by
    split
    · rename_i hold
      exact hname.resolve_left fun hcase => hcase.2 hold
    · exact h.mem id hid ‹_›
  have hwrite := @nameWrite_disk opt v hints id hopt hid.isInode name hlen hzero
  rw [hread.tidy.sort_eq]
  rcases hashSearchNdx_cases hread.tidy (if v.name id = [] then name else v.name id) with
    ⟨hnone, hall⟩ | ⟨li, i, e, rfl, hsome, he, hhash⟩
  · refine ⟨cache, ?_, ?_⟩
    · simp only [hnone, hwrite]
      rfl
    · refine hread.setName hS hid hname' hfree hread.tidy (fun e he => ⟨he, fun heq => ?_⟩)
        hread.unique (Or.inl rfl) (List.Perm.refl _)
      by_contra hold
      rw [if_neg hold] at hall
      exact hall e he heq
  · obtain ⟨hfile, heq⟩ := hread.eq_of_hash hS hcheck (List.mem_of_getElem? he) hhash
    have hold : v.name id ≠ [] := by
      intro hnil
      rw [if_pos hnil] at heq hcheck
      have hne : e.id ≠ id := by
        rintro heid
        rw [heid, hnil] at heq
        exact hS.ne_nil name hcheck heq.symm
      exact hfree (hS.ne_nil name hcheck) e.id hfile hne heq
    rw [if_neg hold] at heq hhash hsome ⊢
    have heid : e.id = id := (h.distinct id e.id hid hfile hold heq.symm).symm
    refine ⟨some (WhefsMount.rehash li i name), ?_,
      hread.rehash hS hid hname' hfree hold he heid hhash⟩
    simp only [hsome, Option.any_some, Option.bind_some, he, heid, hwrite, ne_eq, not_true_eq_false,
      decide_false, Bool.false_eq_true, if_false]
    rfl

end

end Iqiq.WhefsNaming
