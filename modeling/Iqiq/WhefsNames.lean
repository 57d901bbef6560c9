import Iqiq.NameCache

namespace Iqiq.WhefsNames

open Iqiq.NameCache
open Iqiq.Whefs

/-- `whefs_sizeof_encoded_inode_name`, the size of the buffer for a name record. -/
def sizeofInodeName : Nat := 139

/-- `WHEFS_MAX_FILENAME_LENGTH + 1`, the size of the buffers that names are copied to. -/
def nameBufSize : Nat := 129

/-- `whefs_string_copy_cstring`, into a buffer that is not on the heap. -/
def stringCopyCstring (alloced : Nat) (str : List UInt8) : Run (List UInt8) :=
  if str = [] then .ok []
  else if alloced > str.length then .ok str
  else .error .undefined

/-- The position of the name record of `id`. -/
def inodeNamePos (fs : Fs) (id : UInt32) : UInt32 :=
  inodeNamesOffset fs.options + sizeofName fs.options * (id - 1)

/-- What can be read of the name record of `id`. -/
def nameRecord (fs : Fs) (id : UInt32) : List UInt8 :=
  readAt fs.image (inodeNamePos fs id) (sizeofName fs.options).toNat

/-- The string behind the header of a name record. -/
def recordName (fs : Fs) (id : UInt32) : List UInt8 :=
  ((nameRecord fs id).drop 9).takeWhile (· ≠ 0)

/-- `whefs_inode_name_get`: its return code, the string in `tgt`, and the cache. -/
def inodeNameGet (fs : Fs) (cache : Cache) (id : UInt32) (tgt : List UInt8) :
    Run (Rc × List UInt8 × Cache) :=
  if ¬ inodeIdIsValid fs id then .ok (.argError, tgt, cache)
  else
    let toRead := (sizeofName fs.options).toNat
    if ¬ toRead ≤ sizeofInodeName then .error .assertion
    else
      let buf := nameRecord fs id
      if buf.length ≠ toRead then .ok (.ioError, tgt, cache)
      else if buf.getD 0 0 ≠ 0x22 then .ok (.consistencyError, tgt, cache)
      else
        match decodeUint16 (buf.drop 6) with
        | .error rc => .ok (rc, tgt, cache)
        | .ok _ => do
            let name ← stringCopyCstring nameBufSize (recordName fs id)
            return (.ok, name, if name = [] then cache else cacheName fs.options cache id name)

/-- The loop of `whefs_inode_by_name` over the `left` inodes from `i` on, with the last
return code. -/
def byNameLoop (fs : Fs) (name : List UInt8) (expectExact : Bool) :
    Nat → UInt32 → Rc → Cache → Run (Except Rc UInt32 × Cache)
  | 0, _, rc, cache => .ok (.error (if rc = .ok then .rangeError else rc), cache)
  | left + 1, i, _, cache => do
      let (rc, ns, cache) ← inodeNameGet fs cache i []
      if rc ≠ .ok then return (.error rc, cache)
      else if ns = [] then byNameLoop fs name expectExact left (i + 1) .ok cache
      else if ns = name then return (.ok i, cache)
      else if expectExact then throw .assertion
      else byNameLoop fs name expectExact left (i + 1) .mismatch cache

/-- `whefs_inode_by_name`, with the empty inode in `tgt`. A name whose hash value is in
the cache is looked for in that one inode only. -/
def inodeByName (fs : Fs) (cache : Cache) (name : List UInt8) : Run (Rc × Inode × Cache) :=
  if name = [] then .ok (.argError, inodeEmpty, cache)
  else if fs.options.inodeCount = 0 then .ok (.rangeError, inodeEmpty, cache)
  else if name.length > fs.options.filenameLength.toNat then .ok (.rangeError, inodeEmpty, cache)
  else do
    let cache := inodeHashCacheSort cache
    let (start, expectExact) :=
      match lookup cache name with
      | none => (2, false)
      | some e => (e.id, true)
    let (found, cache) ← byNameLoop fs name expectExact
      (fs.options.inodeCount.toNat + 1 - start.toNat) start .rangeError cache
    match found with
    | .error rc => return (rc, inodeEmpty, cache)
    | .ok i =>
        let (rc, n) := inodeIdRead fs i inodeEmpty
        return (rc, if rc = .ok then n else inodeEmpty, cache)

/-- The name record of `id` is complete, tagged, and its length can be decoded. -/
structure NameIntact (fs : Fs) (id : UInt32) : Prop where
  complete : (nameRecord fs id).length = (sizeofName fs.options).toNat
  tagged : (nameRecord fs id).getD 0 0 = 0x22
  decodes : ∃ sl, decodeUint16 ((nameRecord fs id).drop 6) = .ok sl

theorem sizeofName_toNat (opt : Options) :
    (sizeofName opt).toNat = 9 + opt.filenameLength.toNat := by
  have := opt.filenameLength.toNat_lt
  simp only [sizeofName, UInt32.toNat_add, UInt16.toNat_toUInt32]
  change (9 + opt.filenameLength.toNat) % 2 ^ 32 = _
  omega

theorem length_recordName_le (fs : Fs) (id : UInt32) :
    (recordName fs id).length ≤ fs.options.filenameLength.toNat := by
  refine (List.takeWhile_prefix _).length_le.trans ?_
  simp only [nameRecord, readAt, List.length_drop, List.length_take, sizeofName_toNat]
  omega

theorem inodeNameGet_of_intact {fs : Fs} {id : UInt32} (hvalid : inodeIdIsValid fs id)
    (hlen : fs.options.filenameLength.toNat ≤ 128) (h : NameIntact fs id) (cache : Cache)
    (tgt : List UInt8) :
    inodeNameGet fs cache id tgt = .ok (.ok, recordName fs id,
      if recordName fs id = [] then cache
      else cacheName fs.options cache id (recordName fs id)) := by
  obtain ⟨sl, hsl⟩ := h.decodes
  have hcopy : stringCopyCstring nameBufSize (recordName fs id) = .ok (recordName fs id) := by
    have := length_recordName_le fs id
    rw [stringCopyCstring]
    split
    · rename_i hnil
      rw [hnil]
    · rw [if_pos (by simp only [nameBufSize]; omega)]
  rw [inodeNameGet, if_neg (not_not_intro hvalid)]
  simp only [h.complete, h.tagged, hsl, hcopy]
  rw [if_neg (by simp only [sizeofName_toNat, sizeofInodeName]; omega),
    if_neg (not_not_intro rfl), if_neg (not_not_intro rfl)]
  rfl

/-- A hit in the cache sends `whefs_inode_by_name` to the inode of the entry; another
name there fails an assertion. -/
theorem inodeByName_of_lookup {fs : Fs} {cache : Cache} {name : List UInt8} {e : Hashid}
    (htidy : Tidy fs.options cache) (hlookup : lookup cache name = some e)
    (hlen : fs.options.filenameLength.toNat ≤ 128) (hvalid : inodeIdIsValid fs e.id)
    (hintact : NameIntact fs e.id) (hnamed : recordName fs e.id ≠ []) (hname : name ≠ [])
    (hfits : name.length ≤ fs.options.filenameLength.toNat) :
    inodeByName fs cache name =
      if recordName fs e.id = name then
        .ok ((inodeIdRead fs e.id inodeEmpty).1,
          if (inodeIdRead fs e.id inodeEmpty).1 = .ok then (inodeIdRead fs e.id inodeEmpty).2
          else inodeEmpty,
          cacheName fs.options cache e.id name)
      else .error .assertion := by
  have hle : e.id.toNat ≤ fs.options.inodeCount.toNat := by
    have hvalid' := hvalid
    simp only [inodeIdIsValid, decide_eq_true_eq] at hvalid'
    exact UInt32.le_iff_toNat_le.mp hvalid'.2
  have hcount : fs.options.inodeCount ≠ 0 := by
    have hvalid' := hvalid
    simp only [inodeIdIsValid, decide_eq_true_eq] at hvalid'
    rintro h0
    rw [h0] at hvalid'
    exact hvalid'.1 (UInt32.le_zero_iff.mp hvalid'.2)
  obtain ⟨left, hleft⟩ : ∃ left, fs.options.inodeCount.toNat + 1 - e.id.toNat = left + 1 :=
    ⟨fs.options.inodeCount.toNat - e.id.toNat, by omega⟩
  have hget := @inodeNameGet_of_intact fs e.id hvalid hlen hintact cache []
  rw [if_neg hnamed] at hget
  have hloop : byNameLoop fs name true (left + 1) e.id .rangeError cache =
      if recordName fs e.id = name then .ok (.ok e.id, cacheName fs.options cache e.id name)
      else .error .assertion := by
    rw [byNameLoop, hget]
    simp only [Run.ok_bind, ne_eq, not_true_eq_false, if_false, hnamed, if_true]
    rcases eq_or_ne (recordName fs e.id) name with heq | hne
    · rw [if_pos heq, if_pos heq, heq]
      rfl
    · rw [if_neg hne, if_neg hne]
      rfl
  rw [inodeByName, if_neg hname, if_neg hcount, if_neg (by omega)]
  simp only [htidy.sort_eq, hlookup, hleft, hloop]
  split
  · rfl
  · rfl

end Iqiq.WhefsNames
