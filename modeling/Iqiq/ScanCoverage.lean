import Iqiq.UnpackScan

namespace Iqiq.ScanCoverage

open Iqiq.NameCache
open Iqiq.UnpackScan
open Iqiq.Whefs
open Iqiq.WhefsFiles
open Iqiq.WhefsNames

-- bounded quantifiers are decided along the list, not over all ids
local instance (priority := 2000) decidableForallMemIds {α : Type} {p : α → Prop}
    [DecidablePred p] {l : List α} : Decidable (∀ a ∈ l, p a) :=
  List.decidableBAll p l

/-- The inode has a name. -/
def Named (fs : Fs) (id : UInt32) : Prop :=
  inodeIdIsValid fs id ∧ recordName fs id ≠ []

instance (fs : Fs) (id : UInt32) : Decidable (Named fs id) :=
  inferInstanceAs (Decidable (_ ∧ _))

/-- A well-formed archive: it can be opened, its inode and name records are intact, its
names are distinct, and each file has a chain of blocks that holds its bytes. -/
structure Archive where
  image : List UInt8
  fs : Fs
  inode : UInt32 → Inode
  blocks : UInt32 → List Block
  bytes : UInt32 → List UInt8
  opened : openfsStage2 image = .ok (.ok fs)
  filenameLength_le : fs.options.filenameLength.toNat ≤ 128
  inode_intact : ∀ id, inodeIdIsValid fs id → InodeIntact fs id (inode id)
  name_intact : ∀ id, inodeIdIsValid fs id → NameIntact fs id
  names_distinct : ∀ j k, Named fs j → Named fs k → recordName fs j = recordName fs k → j = k
  stores : ∀ id, Named fs id → Stores fs (inode id) (blocks id) (bytes id)

namespace Archive

variable (a : Archive)

/-- The ids of the inodes in the order of the scan. -/
def ids : List UInt32 :=
  (List.range' 1 a.fs.options.inodeCount.toNat).map UInt32.ofNat

/-- The inode has a name, and its bytes 4 to 7 are those of a compressed profile. -/
def IsProfile (id : UInt32) : Prop :=
  Named a.fs id ∧ 8 ≤ (a.bytes id).length ∧ ((a.bytes id).take 8).drop 4 = zlqi

instance (id : UInt32) : Decidable (a.IsProfile id) :=
  inferInstanceAs (Decidable (_ ∧ _))

def profiles : List UInt32 :=
  a.ids.filter a.IsProfile

/-- An inode before `id` has a name with the same hash value. -/
def Twin (id : UInt32) : Prop :=
  ∃ j ∈ a.ids, j < id ∧ Named a.fs j ∧
    hashCstring (recordName a.fs j) = hashCstring (recordName a.fs id)

instance (id : UInt32) : Decidable (a.Twin id) :=
  List.decidableBEx _ a.ids

/-- The handle that `main` has of a file after it has read the first eight bytes. -/
def fileOf (id : UInt32) : File :=
  ⟨a.inode id, 8, a.blocks id⟩

theorem mem_ids {a : Archive} {id : UInt32} : id ∈ a.ids ↔ inodeIdIsValid a.fs id := by
  have hcount := a.fs.options.inodeCount.toNat_lt
  simp only [ids, List.mem_map, List.mem_range'_1, inodeIdIsValid_iff]
  constructor
  · rintro ⟨k, hk, rfl⟩
    rw [UInt32.toNat_ofNat_of_lt' (by rw [UInt32.size]; omega)]
    omega
  · intro h
    exact ⟨id.toNat, by omega, UInt32.ofNat_toNat⟩

theorem toNat_inodeIdPos {fs : Fs} {id : UInt32} (h : inodeIdIsValid fs id) :
    (inodeIdPos fs id).toNat =
      ((inodesOffset fs.options).toNat + (id.toNat - 1) * 23) % 2 ^ 32 := by
  have hle : 1 ≤ id := UInt32.le_iff_toNat_le.mpr (inodeIdIsValid_iff.mp h).1
  rw [inodeIdPos, if_pos h, UInt32.toNat_add, UInt32.toNat_mul, UInt32.toNat_sub_of_le _ _ hle,
    Nat.add_mod_mod]
  rfl

theorem inodeCount_lt (a : Archive) : a.fs.options.inodeCount.toNat < 2 ^ 31 := by
  refine Nat.lt_of_not_le fun hge => ?_
  have hvalid : inodeIdIsValid a.fs 1 :=
    inodeIdIsValid_iff.mpr ⟨by decide, le_trans (by decide) hge⟩
  have hvalid' : inodeIdIsValid a.fs 373475418 :=
    inodeIdIsValid_iff.mpr ⟨by decide, le_trans (by decide) hge⟩
  have hpos := toNat_inodeIdPos hvalid
  have hpos' := toNat_inodeIdPos hvalid'
  change _ = (_ + 0 * 23) % 2 ^ 32 at hpos
  change _ = (_ + 373475417 * 23) % 2 ^ 32 at hpos'
  have hne := (a.inode_intact _ hvalid).recordDecodes.pos_ne
  rw [ne_eq, ← UInt32.toNat_inj] at hne
  change ¬ _ = 0 at hne
  have heq : (inodeIdPos a.fs 373475418).toNat + 1 = (inodeIdPos a.fs 1).toNat := by
    omega
  -- the byte there would be the tag of an inode and that of an id
  have htag := (a.inode_intact _ hvalid').recordDecodes.tags.2
  rw [heq, (a.inode_intact _ hvalid).recordDecodes.tags.1] at htag
  exact absurd (Option.some.inj htag) (by decide)

/-- Before the inode `i` is scanned, the cache holds the names of the inodes before it. -/
structure CacheHolds (a : Archive) (i : Nat) (cache : Cache) : Prop where
  tidy : Tidy a.fs.options cache
  length_lt : (entries cache).length < i
  mem_iff : ∀ e, e ∈ entries cache ↔
    ∃ j, Named a.fs j ∧ j.toNat < i ∧ e = ⟨hashCstring (recordName a.fs j), j⟩

section

variable {a : Archive} {id : UInt32} {cache : Cache}

theorem CacheHolds.start (a : Archive) : CacheHolds a 1 none where
  tidy := Tidy.none _
  length_lt := Nat.one_pos
  mem_iff e := by
    simp only [entries, Option.map_none, Option.getD_none, List.not_mem_nil, false_iff]
    rintro ⟨j, ⟨hvalid, -⟩, hj, -⟩
    have := (inodeIdIsValid_iff.mp hvalid).1
    omega

theorem CacheHolds.unnamed (h : CacheHolds a id.toNat cache) (hid : ¬ Named a.fs id) :
    CacheHolds a (id.toNat + 1) cache where
  tidy := h.tidy
  length_lt := h.length_lt.trans (Nat.lt_succ_self _)
  mem_iff e := by
    rw [h.mem_iff]
    constructor
    · rintro ⟨j, hj, hlt, rfl⟩
      exact ⟨j, hj, by omega, rfl⟩
    · rintro ⟨j, hj, hlt, rfl⟩
      refine ⟨j, hj, Nat.lt_of_le_of_ne (by omega) fun heq => ?_, rfl⟩
      rw [UInt32.toNat_inj.mp heq] at hj
      exact hid hj

theorem CacheHolds.twin_iff (h : CacheHolds a id.toNat cache) :
    a.Twin id ↔ ∃ e ∈ entries cache, e.hash = hashCstring (recordName a.fs id) := by
  constructor
  · rintro ⟨j, -, hlt, hj, hhash⟩
    exact ⟨_, (h.mem_iff _).mpr ⟨j, hj, UInt32.lt_iff_toNat_lt.mp hlt, rfl⟩, hhash⟩
  · rintro ⟨e, he, hhash⟩
    obtain ⟨j, hj, hlt, rfl⟩ := (h.mem_iff e).mp he
    exact ⟨j, mem_ids.mpr hj.1, UInt32.lt_iff_toNat_lt.mpr hlt, hj, hhash⟩

theorem CacheHolds.named (h : CacheHolds a id.toNat cache) (hid : Named a.fs id)
    (htwin : ¬ a.Twin id) :
    CacheHolds a (id.toNat + 1) (cacheName a.fs.options cache id (recordName a.fs id)) := by
  have hvalid := inodeIdIsValid_iff.mp hid.1
  have hne : id ≠ 0 := by
    rintro rfl
    exact absurd hvalid.1 (by decide)
  have hnew : ∀ e ∈ entries cache, e.hash ≠ hashCstring (recordName a.fs id) := by
    intro e he heq
    exact htwin (h.twin_iff.mpr ⟨e, he, heq⟩)
  have hlen := h.length_lt
  obtain ⟨htidy, hperm⟩ :=
    cacheName_of_new h.tidy hid.2 hne (by omega) a.inodeCount_lt hnew
  refine ⟨htidy, by rw [hperm.length_eq, List.length_cons]; omega, fun e => ?_⟩
  rw [hperm.mem_iff, List.mem_cons, h.mem_iff]
  constructor
  · rintro (rfl | ⟨j, hj, hlt, rfl⟩)
    · exact ⟨id, hid, by omega, rfl⟩
    · exact ⟨j, hj, by omega, rfl⟩
  · rintro ⟨j, hj, hlt, rfl⟩
    rcases Nat.lt_or_eq_of_le (Nat.le_of_lt_succ hlt) with hlt | heq
    · exact Or.inr ⟨j, hj, hlt, rfl⟩
    · exact Or.inl (by rw [UInt32.toNat_inj.mp heq])

theorem CacheHolds.lookup {i : Nat} (h : CacheHolds a i cache)
    (hmem : ∃ e ∈ entries cache, e.hash = hashCstring (recordName a.fs id)) :
    ∃ j, Named a.fs j ∧ j.toNat < i ∧
      hashCstring (recordName a.fs j) = hashCstring (recordName a.fs id) ∧
      NameCache.lookup cache (recordName a.fs id) =
        some ⟨hashCstring (recordName a.fs j), j⟩ := by
  obtain ⟨e, he, hhash⟩ := hmem
  cases hlookup : NameCache.lookup cache (recordName a.fs id) with
  | none => exact absurd hhash ((lookup_eq_none_iff h.tidy _).mp hlookup e he)
  | some found =>
      obtain ⟨hfound, hsame⟩ := lookup_sound hlookup
      obtain ⟨j, hj, hlt, rfl⟩ := (h.mem_iff found).mp hfound
      exact ⟨j, hj, hlt, hsame, rfl⟩

/-- The name of an inode with a twin leads `whefs_fopen` to another inode first. -/
theorem CacheHolds.fopen_twin (h : CacheHolds a id.toNat cache) (hid : Named a.fs id)
    (htwin : a.Twin id) : fopen a.fs cache (recordName a.fs id) = .error .assertion := by
  obtain ⟨j, hj, hlt, -, hlookup⟩ := h.lookup (h.twin_iff.mp htwin)
  have hne : recordName a.fs j ≠ recordName a.fs id := by
    intro heq
    rw [a.names_distinct j id hj hid heq] at hlt
    exact absurd hlt (lt_irrefl _)
  rw [fopen, if_neg hid.2, inodeByName_of_lookup h.tidy hlookup a.filenameLength_le hj.1
    (a.name_intact j hj.1) hj.2 hid.2 (length_recordName_le _ _), if_neg hne]
  rfl

theorem CacheHolds.fopen (h : CacheHolds a id.toNat cache) (hid : Named a.fs id)
    (htwin : ¬ a.Twin id) :
    fopen a.fs (cacheName a.fs.options cache id (recordName a.fs id)) (recordName a.fs id) =
      .ok (some ⟨a.inode id, 0, []⟩,
        cacheName a.fs.options cache id (recordName a.fs id)) := by
  have h' := h.named hid htwin
  have hmem : ∃ e ∈ entries (cacheName a.fs.options cache id (recordName a.fs id)),
      e.hash = hashCstring (recordName a.fs id) :=
    ⟨_, (h'.mem_iff _).mpr ⟨id, hid, Nat.lt_succ_self _, rfl⟩, rfl⟩
  obtain ⟨j, hj, hlt, hhash, hlookup⟩ := h'.lookup hmem
  obtain rfl : j = id := by
    rcases Nat.lt_or_eq_of_le (Nat.le_of_lt_succ hlt) with hlt | heq
    · exact absurd ⟨j, mem_ids.mpr hj.1, UInt32.lt_iff_toNat_lt.mpr hlt, hj, hhash⟩ htwin
    · exact UInt32.toNat_inj.mp heq
  have hread := (a.inode_intact j hj.1).recordDecodes
  have hdev : devForInode a.fs (a.inode j).id = some ⟨a.inode j, 0, []⟩ := by
    rw [(a.inode_intact j hj.1).id_eq, hread.devForInode]
  rw [WhefsFiles.fopen, if_neg hid.2, inodeByName_of_lookup h'.tidy hlookup
    a.filenameLength_le hj.1 (a.name_intact j hj.1) hj.2 hid.2 (length_recordName_le _ _),
    if_pos rfl]
  simp only [Run.ok_bind, hread.inodeIdRead, if_true, hdev]
  rw [cacheName_of_mem h'.tidy hid.2 hmem]
  rfl

end

/-- The calls of `handleProfile` with their results. -/
def calls (trace : List Event) : List (File × Int) :=
  trace.filterMap fun
    | .handled file ret => some (file, ret)
    | .printed _ => none

theorem calls_append (trace trace' : List Event) :
    calls (trace ++ trace') = calls trace ++ calls trace' :=
  List.filterMap_append

/-- What the scan of some inodes comes to: the calls of `handleProfile`, and how `main`
ends. An inode with a twin ends it. -/
def expected {σ : Type} (a : Archive) (handle : σ → File → Int × σ) :
    σ → List UInt32 → List (File × Int) × Run Int
  | _, [] => ([], .ok 0)
  | world, id :: ids =>
      if Named a.fs id ∧ a.Twin id then ([], .error .assertion)
      else if a.IsProfile id then
        let (ret, world) := handle world (a.fileOf id)
        if ret ≠ 0 then ([(a.fileOf id, ret)], .ok 1)
        else
          let (rest, ending) := expected a handle world ids
          ((a.fileOf id, ret) :: rest, ending)
      else expected a handle world ids

section Refinement

variable {σ : Type} {handle : σ → File → Int × σ} {a : Archive} {fuel : Nat} {id : UInt32}
  {s : Scan σ}

theorem scanInode_zero : scanInode handle a.fs fuel 0 s = (s, none) := by
  rfl

theorem scanInode_unnamed (hvalid : inodeIdIsValid a.fs id) (hid : ¬ Named a.fs id) :
    scanInode handle a.fs fuel id s = ({ s with n := a.inode id }, none) := by
  have hname : recordName a.fs id = [] := by
    refine by_contra fun hne => hid ⟨hvalid, hne⟩
  rw [scanInode, (a.inode_intact id hvalid).recordDecodes.inodeIdRead]
  simp only [(a.inode_intact id hvalid).id_eq,
    inodeNameGet_of_intact hvalid a.filenameLength_le (a.name_intact id hvalid), hname]
  rfl

/-- The state after the name of the inode has been read. -/
def named (a : Archive) (id : UInt32) (s : Scan σ) : Scan σ :=
  { s with
    n := a.inode id
    cache := cacheName a.fs.options s.cache id (recordName a.fs id) }

theorem scanInode_named (hid : Named a.fs id) :
    scanInode handle a.fs fuel id s =
      scanFile handle a.fs fuel (recordName a.fs id) (a.named id s) := by
  rw [scanInode, (a.inode_intact id hid.1).recordDecodes.inodeIdRead]
  simp only [(a.inode_intact id hid.1).id_eq,
    inodeNameGet_of_intact hid.1 a.filenameLength_le (a.name_intact id hid.1), if_neg hid.2]
  rfl

theorem fread_header (hid : Named a.fs id) (hfuel : a.fs.options.blockCount.toNat < fuel) :
    ∃ f, fread a.fs fuel 8 ⟨a.inode id, 0, []⟩ = .ok ((a.bytes id).take 8, f) ∧
      (8 ≤ (a.bytes id).length → f = a.fileOf id) := by
  have hstores := a.stores id hid
  have hlen := length_le_of_sound hstores.chain.sound hstores.acyclic
  obtain ⟨f, hread, hf, hloaded⟩ := @Stores.fread _ _ _ _ fuel 0 ⟨a.inode id, 0, []⟩ hstores
    ⟨rfl, rfl, Or.inl rfl⟩ (Nat.zero_le _) (by omega) 8
  refine ⟨f, hread, fun h8 => ?_⟩
  have hpos := hf.posabs
  rw [Nat.zero_add, Nat.min_eq_left h8] at hpos
  have hblocks := hloaded (Or.inr ⟨by decide, by omega⟩)
  obtain ⟨ino, pos, blocks⟩ := f
  obtain rfl : ino = a.inode id := hf.inode
  obtain rfl : blocks = a.blocks id := hblocks
  obtain rfl : pos = 8 := UInt32.toNat_inj.mp hpos
  rfl

theorem handleFound_eq {name : List UInt8} {file : File} {ret : Int} {world : σ}
    (h : handle s.world file = (ret, world)) :
    handleFound handle name file (a.named id s) =
      if ret ≠ 0 then
        ({ a.named id s with
           world
           trace := s.trace ++ [foundProfile name, .handled file ret] ++ [parseFailed] },
          some (.ok 1))
      else
        ({ a.named id s with
           world
           trace := s.trace ++ [foundProfile name, .handled file ret] }, none) := by
  rw [handleFound]
  simp only [show (a.named id s).world = s.world from rfl, h]
  rfl

theorem scanInode_eq (hfuel : a.fs.options.blockCount.toNat < fuel)
    (hcache : CacheHolds a id.toNat s.cache) (hid : Named a.fs id) (htwin : ¬ a.Twin id) :
    scanInode handle a.fs fuel id s =
      if a.IsProfile id then
        handleFound handle (recordName a.fs id) (a.fileOf id) (a.named id s)
      else (a.named id s, none) := by
  obtain ⟨f, hread, hf⟩ := fread_header hid hfuel
  have hopen : fopen a.fs (a.named id s).cache (recordName a.fs id) =
      .ok (some ⟨a.inode id, 0, []⟩, (a.named id s).cache) := hcache.fopen hid htwin
  rw [scanInode_named hid, scanFile, hopen]
  simp only [hread, List.length_take]
  rcases Nat.lt_or_ge (a.bytes id).length 8 with hlt | hge
  · have hshort : ¬ a.IsProfile id := fun h => absurd h.2.1 (by omega)
    rw [if_pos (by omega), if_neg hshort]
  · rw [if_neg (by omega), hf hge]
    rcases em (((a.bytes id).take 8).drop 4 = zlqi) with hmagic | hmagic
    · rw [if_pos hmagic, if_pos ⟨hid, hge, hmagic⟩]
    · rw [if_neg hmagic, if_neg fun h => hmagic h.2.2]

theorem scanInode_twin (hcache : CacheHolds a id.toNat s.cache) (hid : Named a.fs id)
    (htwin : a.Twin id) :
    scanInode handle a.fs fuel id s = ({ s with n := a.inode id }, some (.error .assertion)) := by
  have hsame : a.named id s = { s with n := a.inode id } := by
    rw [named, cacheName_of_mem hcache.tidy hid.2 (hcache.twin_iff.mp htwin)]
  rw [scanInode_named hid, hsame, scanFile]
  simp only [hcache.fopen_twin hid htwin]

theorem scanLoop_eq_expected (hfuel : a.fs.options.blockCount.toNat < fuel) {left i : Nat}
    (hi : 1 ≤ i) (hleft : i + left = a.fs.options.inodeCount.toNat + 1)
    (hcache : CacheHolds a i s.cache) :
    ∃ s', scanLoop handle a.fs fuel left (UInt32.ofNat i) s =
        (s', (expected a handle s.world ((List.range' i left).map UInt32.ofNat)).2) ∧
      calls s'.trace = calls s.trace ++
        (expected a handle s.world ((List.range' i left).map UInt32.ofNat)).1 := by
  induction left generalizing i s with
  | zero => exact ⟨s, rfl, by simp [expected]⟩
  | succ left ih =>
      have hcount := a.inodeCount_lt
      have hnat : (UInt32.ofNat i).toNat = i :=
        UInt32.toNat_ofNat_of_lt' (by rw [UInt32.size]; omega)
      have hnext : UInt32.ofNat i + 1 = UInt32.ofNat (i + 1) := (UInt32.ofNat_add i 1).symm
      have hvalid : inodeIdIsValid a.fs (UInt32.ofNat i) :=
        inodeIdIsValid_iff.mpr ⟨by omega, by omega⟩
      rw [List.range'_succ, List.map_cons, scanLoop, hnext]
      generalize UInt32.ofNat i = id at hnat hvalid
      subst hnat
      rcases em (Named a.fs id) with hid | hid
      · rcases em (a.Twin id) with htwin | htwin
        · rw [scanInode_twin hcache hid htwin, expected, if_pos ⟨hid, htwin⟩]
          exact ⟨_, rfl, by simp⟩
        · have hcache' := hcache.named hid htwin
          rw [expected, if_neg (fun h => htwin h.2), scanInode_eq hfuel hcache hid htwin]
          rcases em (a.IsProfile id) with hprofile | hprofile
          · rw [if_pos hprofile, if_pos hprofile]
            rcases hhandle : handle s.world (a.fileOf id) with ⟨ret, world⟩
            rw [handleFound_eq hhandle]
            rcases eq_or_ne ret 0 with rfl | hret
            · obtain ⟨s', hrun, hcalls⟩ := @ih { a.named id s with
                world
                trace := s.trace ++ [foundProfile (recordName a.fs id), .handled (a.fileOf id) 0] }
                (id.toNat + 1) (by omega) (by omega) hcache'
              refine ⟨s', hrun, hcalls.trans ?_⟩
              rw [calls_append, List.append_assoc]
              rfl
            · simp only [if_pos hret]
              exact ⟨_, rfl, by rw [calls_append, calls_append, List.append_assoc]; rfl⟩
          · rw [if_neg hprofile, if_neg hprofile]
            exact ih (by omega) (by omega) hcache'
      · have hprofile : ¬ a.IsProfile id := fun h => hid h.1
        rw [scanInode_unnamed hvalid hid, expected, if_neg (fun h => hid h.1), if_neg hprofile]
        exact ih (by omega) (by omega) (hcache.unnamed hid)

end Refinement

/-- The calls pass on the inodes in the order of the list, all of them or up to the first
call that fails, and status 0 means that all were passed on and handled. -/
structure Covers (ids : List UInt32) (calls : List (File × Int)) (ending : Run Int) : Prop where
  inOrder : (calls.map fun c => c.1.inode.id) <+: ids
  stops : ∀ c ∈ calls.dropLast, c.2 = 0
  complete : (∀ c ∈ calls, c.2 = 0) → (calls.map fun c => c.1.inode.id) = ids
  exit : ending = .ok 0 → (calls.map fun c => c.1.inode.id) = ids ∧ ∀ c ∈ calls, c.2 = 0

theorem covers_stopped {ids : List UInt32} : Covers ids [] (.error .assertion) ↔ ids = [] := by
  constructor
  · intro h
    exact (h.complete (by simp)).symm
  · rintro rfl
    exact ⟨List.prefix_rfl, by simp, fun _ => rfl, by simp⟩

theorem covers_failed {id : UInt32} {ids : List UInt32} {f : File} {ret : Int}
    (hf : f.inode.id = id) (hret : ret ≠ 0) : Covers (id :: ids) [(f, ret)] (.ok 1) where
  inOrder := by simp [hf]
  stops := by simp
  complete h := absurd (h _ (List.mem_singleton_self _)) hret
  exit h := by simp at h

theorem covers_cons {id : UInt32} {ids : List UInt32} {f : File} {calls : List (File × Int)}
    {ending : Run Int} (hf : f.inode.id = id) :
    Covers (id :: ids) ((f, 0) :: calls) ending ↔ Covers ids calls ending := by
  have hstops : (∀ c ∈ ((f, (0 : Int)) :: calls).dropLast, c.2 = 0) ↔
      ∀ c ∈ calls.dropLast, c.2 = 0 := by
    cases calls with
    | nil => simp
    | cons c calls => simp
  constructor
  · intro h
    refine ⟨?_, hstops.mp h.stops, fun hall => ?_, fun hend => ?_⟩
    · simpa [hf] using h.inOrder
    · simpa [hf] using h.complete (by simpa using hall)
    · simpa [hf] using h.exit hend
  · intro h
    refine ⟨?_, hstops.mpr h.stops, fun hall => ?_, fun hend => ?_⟩
    · simpa [hf] using h.inOrder
    · simpa [hf] using h.complete (by simpa using hall)
    · simpa [hf] using h.exit hend

section Completeness

variable {σ : Type}

/-- The profiles that are passed on when `handleProfile` ends the scan by failing. -/
def reached (a : Archive) (handle : σ → File → Int × σ) : σ → List UInt32 → List UInt32
  | _, [] => []
  | world, p :: ps =>
      p :: if (handle world (a.fileOf p)).1 = 0 then
        reached a handle (handle world (a.fileOf p)).2 ps
      else []

theorem mem_of_mem_reached {a : Archive} {handle : σ → File → Int × σ} {world : σ}
    {ps : List UInt32} {p : UInt32} (h : p ∈ reached a handle world ps) : p ∈ ps := by
  induction ps generalizing world with
  | nil => exact h
  | cons q ps ih =>
      rw [reached, List.mem_cons] at h
      rcases h with rfl | h
      · exact List.mem_cons_self
      · split at h
        · exact List.mem_cons_of_mem _ (ih h)
        · exact nomatch h

theorem ids_sorted (a : Archive) : a.ids.Pairwise (· < ·) := by
  have hcount := a.fs.options.inodeCount.toNat_lt
  rw [ids, List.pairwise_map]
  refine List.Pairwise.imp_of_mem ?_ List.pairwise_lt_range'
  intro i j hi hj hlt
  rw [List.mem_range'_1] at hi hj
  rw [UInt32.lt_iff_toNat_lt, UInt32.toNat_ofNat_of_lt' (by rw [UInt32.size]; omega),
    UInt32.toNat_ofNat_of_lt' (by rw [UInt32.size]; omega)]
  exact hlt

/-- The scan is complete exactly when no inode that stops it comes before a profile. -/
theorem expected_covers_iff {a : Archive} {handle : σ → File → Int × σ} {world : σ}
    {ids : List UInt32} (hsorted : ids.Pairwise (· < ·))
    (hvalid : ∀ id ∈ ids, inodeIdIsValid a.fs id) :
    Covers (ids.filter a.IsProfile) (expected a handle world ids).1
        (expected a handle world ids).2 ↔
      ∀ p ∈ reached a handle world (ids.filter a.IsProfile), ∀ id ∈ ids, id ≤ p →
        ¬ (Named a.fs id ∧ a.Twin id) := by
  induction ids generalizing world with
  | nil =>
      refine ⟨fun _ p hp => (nomatch hp), fun _ => ?_⟩
      exact ⟨List.prefix_rfl, by simp [expected], fun _ => rfl, by simp [expected]⟩
  | cons id ids ih =>
      obtain ⟨hlt, hsorted⟩ := List.pairwise_cons.mp hsorted
      obtain ⟨hid, hvalid⟩ := List.forall_mem_cons.mp hvalid
      have hafter : ∀ p ∈ (id :: ids).filter a.IsProfile, id ≤ p := by
        intro p hp
        rcases List.mem_cons.mp (List.mem_of_mem_filter hp) with rfl | hp
        · exact UInt32.le_refl _
        · exact UInt32.le_of_lt (hlt p hp)
      rcases em (Named a.fs id ∧ a.Twin id) with hstuck | hgo
      · rw [expected, if_pos hstuck, covers_stopped]
        constructor
        · intro hnil p hp
          rw [hnil] at hp
          exact nomatch hp
        · intro h
          cases hprofiles : (id :: ids).filter a.IsProfile with
          | nil => rfl
          | cons p ps =>
              have hp : p ∈ reached a handle world ((id :: ids).filter a.IsProfile) := by
                rw [hprofiles]
                exact List.mem_cons_self
              exact absurd hstuck
                (h p hp id List.mem_cons_self (hafter p (mem_of_mem_reached hp)))
      · have hskip : ∀ ps : List UInt32, (∀ p ∈ ps, ∀ k ∈ id :: ids, k ≤ p →
            ¬ (Named a.fs k ∧ a.Twin k)) ↔
            ∀ p ∈ ps, ∀ k ∈ ids, k ≤ p → ¬ (Named a.fs k ∧ a.Twin k) := by
          intro ps
          refine forall₂_congr fun p _ => ?_
          rw [List.forall_mem_cons]
          exact and_iff_right fun _ => hgo
        rw [hskip, expected, if_neg hgo]
        rcases em (a.IsProfile id) with hprofile | hprofile
        · rw [List.filter_cons_of_pos (by simpa using hprofile), if_pos hprofile, reached,
            List.forall_mem_cons]
          have hself : ∀ k ∈ ids, k ≤ id → ¬ (Named a.fs k ∧ a.Twin k) := by
            intro k hk hle
            exact absurd hle (UInt32.not_le.mpr (hlt k hk))
          rw [and_iff_right hself]
          have hfile : (a.fileOf id).inode.id = id := (a.inode_intact id hid).id_eq
          rcases handle world (a.fileOf id) with ⟨ret, world⟩
          rcases eq_or_ne ret 0 with rfl | hret
          · simp only [ne_eq, not_true_eq_false, if_false, if_true]
            rw [covers_cons hfile, ih hsorted hvalid]
          · simp only [ne_eq, hret, not_false_eq_true, if_true, if_false]
            exact ⟨fun _ p hp => (nomatch hp), fun _ => covers_failed hfile hret⟩
        · rw [List.filter_cons_of_neg (by simpa using hprofile), if_neg hprofile,
            ih hsorted hvalid]

theorem expected_returns {a : Archive} {handle : σ → File → Int × σ} {world : σ}
    {ids : List UInt32} : (expected a handle world ids).2 ≠ .error .running := by
  induction ids generalizing world with
  | nil => simp [expected]
  | cons id ids ih =>
      rw [expected]
      split
      · simp
      · split
        · rcases handle world (a.fileOf id) with ⟨ret, world⟩
          simp only
          split
          · simp
          · exact ih
        · exact ih

theorem of_mem_expected {a : Archive} {handle : σ → File → Int × σ} {world : σ}
    {ids : List UInt32} {c : File × Int} (hc : c ∈ (expected a handle world ids).1) :
    ∃ p, Named a.fs p ∧ c.1 = a.fileOf p := by
  induction ids generalizing world with
  | nil => exact nomatch hc
  | cons id ids ih =>
      rw [expected] at hc
      split at hc
      · exact nomatch hc
      · split at hc
        · rename_i hprofile
          rcases hhandle : handle world (a.fileOf id) with ⟨ret, world'⟩
          simp only [hhandle] at hc
          split at hc
          · rw [List.mem_singleton.mp hc]
            exact ⟨id, hprofile.1, rfl⟩
          · rcases List.mem_cons.mp hc with rfl | hc
            · exact ⟨id, hprofile.1, rfl⟩
            · exact ih hc
        · exact ih hc

theorem main_eq_expected {a : Archive} {handle : σ → File → Int × σ} {fuel : Nat}
    (hfuel : a.fs.options.blockCount.toNat < fuel) (n : Inode) (world : σ) :
    ∃ s, main handle fuel 3 (some a.image) n world = (s, (expected a handle world a.ids).2) ∧
      calls s.trace = (expected a handle world a.ids).1 := by
  rw [main, if_neg (not_not_intro rfl)]
  simp only [a.opened]
  rw [scanLoop, scanInode_zero]
  exact scanLoop_eq_expected hfuel le_rfl (Nat.add_comm _ _) (CacheHolds.start a)

/-- Whoever reads the file from its start gets the bytes. -/
structure Delivers (fs : Fs) (fuel : Nat) (f : File) (ino : Inode) (bytes : List UInt8) :
    Prop where
  inode : f.inode = ino
  length : bytes.length = ino.dataSize.toNat
  read : ∀ count, ∃ f', fread fs fuel count (rewind f) = .ok (bytes.take count, f')

theorem fileOf_delivers {a : Archive} {fuel : Nat} {id : UInt32}
    (hfuel : a.fs.options.blockCount.toNat < fuel) (hid : Named a.fs id) :
    Delivers a.fs fuel (a.fileOf id) (a.inode id) (a.bytes id) where
  inode := rfl
  length := (a.stores id hid).length
  read count := by
    have hlen := length_le_of_sound (a.stores id hid).chain.sound (a.stores id hid).acyclic
    obtain ⟨f', hread, -⟩ := @Stores.fread _ _ _ _ fuel 0 (rewind (a.fileOf id)) (a.stores id hid)
      ⟨rfl, rfl, Or.inr rfl⟩ (Nat.zero_le _) (by omega) count
    exact ⟨f', hread⟩

/-- The run of `main` returns, passes on every profile up to the first failure, each with
a handle that delivers its bytes, and status 0 means that it has handled all of them. -/
structure MissesNone (a : Archive) (fuel : Nat) (outcome : Scan σ × Run Int) : Prop where
  returns : outcome.2 ≠ .error .running
  covers : Covers a.profiles (calls outcome.1.trace) outcome.2
  delivers : ∀ c ∈ calls outcome.1.trace,
    Delivers a.fs fuel c.1 (a.inode c.1.inode.id) (a.bytes c.1.inode.id)

/-- No two names up to a profile that the scan can reach have the same hash value. -/
def NoTwins (a : Archive) (handle : σ → File → Int × σ) (world : σ) : Prop :=
  ∀ p ∈ a.reached handle world a.profiles, ∀ j k,
    Named a.fs j → Named a.fs k → j < k → k ≤ p →
      hashCstring (recordName a.fs j) ≠ hashCstring (recordName a.fs k)

theorem noTwins_iff {a : Archive} {handle : σ → File → Int × σ} {world : σ} :
    a.NoTwins handle world ↔ ∀ p ∈ a.reached handle world a.profiles, ∀ id ∈ a.ids, id ≤ p →
      ¬ (Named a.fs id ∧ a.Twin id) := by
  refine forall₂_congr fun p _ => ?_
  constructor
  · rintro h id - hle ⟨hid, j, -, hlt, hj, hhash⟩
    exact h j id hj hid hlt hle hhash
  · intro h j k hj hk hlt hle hhash
    exact h k (mem_ids.mpr hk.1) hle ⟨hk, j, mem_ids.mpr hj.1, hlt, hj, hhash⟩

end Completeness

end Archive

theorem missesNone_iff_reached {σ : Type} {a : Archive} {handle : σ → File → Int × σ} {fuel : Nat}
    (hfuel : a.fs.options.blockCount.toNat < fuel) (n : Inode) (world : σ) :
    a.MissesNone fuel (main handle fuel 3 (some a.image) n world) ↔
      ∀ p ∈ a.reached handle world a.profiles, ∀ id ∈ a.ids, id ≤ p →
        ¬ (Named a.fs id ∧ a.Twin id) := by
  obtain ⟨s, hmain, hcalls⟩ := @Archive.main_eq_expected σ a handle fuel hfuel n world
  rw [hmain, Archive.profiles,
    ← Archive.expected_covers_iff a.ids_sorted fun id hid => Archive.mem_ids.mp hid]
  constructor
  · intro h
    have hcovers := h.covers
    rwa [hcalls] at hcovers
  · intro h
    refine ⟨Archive.expected_returns, by rwa [hcalls], fun c hc => ?_⟩
    rw [hcalls] at hc
    obtain ⟨p, hp, hfile⟩ := Archive.of_mem_expected hc
    have hid : c.1.inode.id = p := by
      rw [hfile]
      exact (a.inode_intact p hp.1).id_eq
    rw [hid, hfile]
    exact Archive.fileOf_delivers hfuel hp

/-- On a well-formed archive the scan misses no profile exactly when no two names up to
a profile that it can reach have the same hash value. -/
theorem missesNone_iff {σ : Type} (a : Archive) (handle : σ → File → Int × σ) (fuel : Nat)
    (hfuel : a.fs.options.blockCount.toNat < fuel) (n : Inode) (world : σ) :
    a.MissesNone fuel (main handle fuel 3 (some a.image) n world) ↔ a.NoTwins handle world := by
  rw [missesNone_iff_reached hfuel, Archive.noTwins_iff]

/-! ### Two names with one hash value -/

/-- The bytes of the profile that stands for `"A"`. -/
def sampleProfile : List UInt8 :=
  [0x82, 0x29, 0x09, 0x00, 0x5a, 0x4c, 0x51, 0x49, 0x01, 0x01, 0x1a]

def sampleUint32 (n : UInt8) : List UInt8 :=
  [0xa0, 0, 0, 0, n]

def sampleName (id : UInt8) (name : List UInt8) : List UInt8 :=
  0x22 :: sampleUint32 id ++ [0x90, 0, 2] ++ name

def sampleInode (id size first : UInt8) : List UInt8 :=
  0x49 :: sampleUint32 id ++ [0x88, 0] ++ sampleUint32 0 ++ sampleUint32 size ++
    sampleUint32 first

def sampleBlock (id : UInt8) : List UInt8 :=
  0x42 :: sampleUint32 id ++ [0x88, 0] ++ sampleUint32 0 ++ [0] ++ sampleProfile

/-- An archive of three inodes: the root, and two profiles that are named `Ez` and `FY`. -/
def sampleImage : List UInt8 :=
  [0xa0, 0, 0, 0x07, 0xd9] ++ sampleUint32 12 ++ sampleUint32 1 ++ sampleUint32 32 ++
    sampleUint32 209 ++ [0x90, 0, 0] ++
    sampleUint32 11 ++ sampleUint32 2 ++ sampleUint32 3 ++ [0x90, 0, 2] ++
    0x48 :: sampleUint32 0 ++ sampleUint32 0 ++
    sampleName 1 [0, 0] ++ sampleName 2 [0x45, 0x7a] ++ sampleName 3 [0x46, 0x59] ++
    sampleInode 1 0 0 ++ sampleInode 2 11 1 ++ sampleInode 3 11 2 ++
    sampleBlock 1 ++ sampleBlock 2

def sampleFs : Fs where
  image := sampleImage
  options :=
    { magicLength := 0, blockSize := 11, blockCount := 2, inodeCount := 3, filenameLength := 2 }

theorem openfsStage2_sample : openfsStage2 sampleImage = .ok (.ok sampleFs) := by
  decide +kernel

theorem sample_ids {id : UInt32} (h : inodeIdIsValid sampleFs id) : id = 1 ∨ id = 2 ∨ id = 3 := by
  have hid : 1 ≤ id.toNat ∧ id.toNat ≤ 3 := inodeIdIsValid_iff.mp h
  simp only [← UInt32.toNat_inj]
  change id.toNat = 1 ∨ id.toNat = 2 ∨ id.toNat = 3
  omega

theorem sample_named {id : UInt32} (h : Named sampleFs id) : id = 2 ∨ id = 3 := by
  rcases sample_ids h.1 with rfl | rfl | rfl
  · exact absurd h (by decide +kernel)
  · exact Or.inl rfl
  · exact Or.inr rfl

theorem sample_stores {id : UInt32} (hid : id = 2 ∨ id = 3) :
    Stores sampleFs (inodeIdRead sampleFs id inodeEmpty).2 [⟨id - 1, 0, 0⟩] sampleProfile := by
  have hbs : sampleFs.options.blockSize ≠ 0 := by decide
  rcases hid with rfl | rfl
  · refine ⟨by decide +kernel, ?_, by decide, hbs, by decide +kernel, by decide +kernel⟩
    exact ⟨by decide +kernel, by decide +kernel, by decide +kernel, rfl⟩
  · refine ⟨by decide +kernel, ?_, by decide, hbs, by decide +kernel, by decide +kernel⟩
    exact ⟨by decide +kernel, by decide +kernel, by decide +kernel, rfl⟩

def sampleArchive : Archive where
  image := sampleImage
  fs := sampleFs
  inode id := (inodeIdRead sampleFs id inodeEmpty).2
  blocks id := [⟨id - 1, 0, 0⟩]
  bytes _ := sampleProfile
  opened := openfsStage2_sample
  filenameLength_le := by decide
  inode_intact id hid := by
    rcases sample_ids hid with rfl | rfl | rfl <;>
      exact ⟨by decide +kernel, by decide +kernel⟩
  name_intact id hid := by
    rcases sample_ids hid with rfl | rfl | rfl <;>
      exact ⟨by decide +kernel, by decide +kernel, 2, by decide +kernel⟩
  names_distinct j k hj hk heq := by
    rcases sample_named hj with rfl | rfl <;> rcases sample_named hk with rfl | rfl
    · rfl
    · exact absurd heq (by decide +kernel)
    · exact absurd heq (by decide +kernel)
    · rfl
  stores id hid := sample_stores (sample_named hid)

theorem not_missesNone_sample :
    ¬ sampleArchive.MissesNone 3
      (main (fun (_ : Unit) _ => (0, ())) 3 3 (some sampleArchive.image) inodeEmpty ()) := by
  rw [missesNone_iff_reached (by decide)]
  decide +kernel

theorem missesNone_iff_sample :
    sampleArchive.MissesNone 3
      (main (fun (_ : Unit) _ => (1, ())) 3 3 (some sampleArchive.image) inodeEmpty ()) := by
  rw [missesNone_iff sampleArchive _ 3 (by decide), Archive.noTwins_iff]
  decide +kernel

end Iqiq.ScanCoverage
