import Hakutaku.CacheCodec

/-!
# The development cache reads back what was saved

And whatever else it is given, it reads safely.
-/

namespace Hakutaku
open Wire

namespace BuildCache

/-! ### What `save` writes -/

/-- The entries the cache is meant for. -/
structure Storable (entries : List (String × CachedEntry)) : Prop where
  distinct : (entries.map Prod.fst).Nodup
  canonical : ∀ x ∈ entries, Canonical x.1
  pathLen : ∀ x ∈ entries, (strBytes x.1).length ≤ 65535
  nanos : ∀ x ∈ entries, ∀ modified, x.2.stamp.modified = some modified → modified.2.toNat < 1000000000
  count : entries.length ≤ maxEntries
  chunks : (entries.map fun x => x.2.chunks.length).sum ≤ maxChunks

/-- The fields an entry is written with. -/
def wireFields (path : String) (entry : CachedEntry) : EntryFields where
  pathLen := UInt16.ofNat (strBytes path).length
  layout := entry.layout
  access := entry.access
  availability := entry.availability
  compression := entry.compression
  modifiedKnown := if entry.stamp.modified.isSome then 1 else 0
  fixedBlockLen := entry.fixedBlockLen
  len := entry.stamp.len
  modifiedSecs := (entry.stamp.modified.getD (0, 0)).1
  modifiedNanos := (entry.stamp.modified.getD (0, 0)).2
  device := entry.stamp.device
  inode := entry.stamp.inode
  chunkCount := UInt32.ofNat entry.chunks.length

def wire (x : String × CachedEntry) : WireEntry := ⟨x.1, wireFields x.1 x.2, x.2.chunks⟩

theorem wire_entry (x : String × CachedEntry) : (wire x).entry = x.2 := by
  obtain ⟨path, ⟨⟨len, modified, device, inode⟩, layout, blockLen, access, availability, compression, chunks⟩⟩ := x
  cases modified with
  | none => rfl
  | some modified => rfl

variable {entries : List (String × CachedEntry)} {x : String × CachedEntry}

theorem Storable.chunks_le (h : Storable entries) (hx : x ∈ entries) : x.2.chunks.length ≤ maxChunks :=
  (List.single_le_sum (fun _ _ => Nat.zero_le _) _ (List.mem_map_of_mem hx)).trans h.chunks

theorem Storable.valid (h : Storable entries) (hx : x ∈ entries) : (wire x).Valid where
  canonical := h.canonical x hx
  pathLen := UInt16.toNat_ofNat_of_lt' (Nat.lt_succ_of_le (h.pathLen x hx))
  chunkCount := UInt32.toNat_ofNat_of_lt' ((h.chunks_le hx).trans_lt (by decide))
  known := by
    show (if x.2.stamp.modified.isSome then (1 : UInt8) else 0) ≤ 1
    split <;> decide
  nanos := by
    show (x.2.stamp.modified.getD (0, 0)).2.toNat < 1000000000
    rcases hmodified : x.2.stamp.modified with _ | modified
    · decide
    · exact h.nanos x hx modified hmodified

theorem encodeEntry_eq_ok (hpath : (strBytes x.1).length ≤ 65535) (hchunks : x.2.chunks.length ≤ maxChunks) :
    encodeEntry x.1 x.2 = .ok (wire x).encode := by
  have hcount : x.2.chunks.length < u32Size := hchunks.trans_lt (by decide)
  have hlen : (strBytes x.1).length < 2 ^ 16 := Nat.lt_succ_of_le hpath
  unfold encodeEntry
  dsimp only
  rw [if_pos hlen, ok_bind, tryU32, if_pos hcount, ok_bind]
  simp only [WireEntry.encode, EntryFields.encode, wire, wireFields, List.flatten_cons, List.flatten_nil, List.append_nil,
    List.append_assoc, List.cons_append, List.nil_append, pure_eq_ok]

theorem encodeEntries_eq_ok (hpath : ∀ x ∈ entries, (strBytes x.1).length ≤ 65535)
    (hchunks : ∀ x ∈ entries, x.2.chunks.length ≤ maxChunks) :
    encodeEntries entries = .ok ((entries.map wire).flatMap WireEntry.encode) := by
  induction entries with
  | nil => rfl
  | cons x rest ih =>
    unfold encodeEntries
    rw [encodeEntry_eq_ok (hpath x List.mem_cons_self) (hchunks x List.mem_cons_self), ok_bind,
      ih (fun y hy => hpath y (List.mem_cons_of_mem x hy)) fun y hy => hchunks y (List.mem_cons_of_mem x hy)]
    rfl

section
variable [Crypto]

/-- The bytes in front of the checksum. -/
def payload (projectId : ProjectId) (releaseSequence : UInt64) (entries : List (String × CachedEntry)) : Bytes :=
  headerBytes projectId releaseSequence (UInt32.ofNat entries.length) ++ (entries.map wire).flatMap WireEntry.encode

/-- The file of some entries. -/
def file (projectId : ProjectId) (releaseSequence : UInt64) (entries : List (String × CachedEntry)) : Bytes :=
  payload projectId releaseSequence entries ++ (Crypto.hash (payload projectId releaseSequence entries)).toList

variable {projectId : ProjectId} {releaseSequence : UInt64}

theorem Storable.encode (h : Storable entries) :
    encode projectId releaseSequence entries = .ok (file projectId releaseSequence entries) := by
  have hcount : entries.length < u32Size := h.count.trans_lt (by decide)
  unfold BuildCache.encode
  rw [tryU32, if_pos hcount, ok_bind, encodeEntries_eq_ok h.pathLen fun _ hx => h.chunks_le hx, ok_bind]
  simp only [file, payload, headerBytes, List.flatten_cons, List.flatten_nil, List.append_nil, List.append_assoc, pure_eq_ok]

theorem length_file : (file projectId releaseSequence entries).length =
    (payload projectId releaseSequence entries).length + checksumSize := by
  rw [file, List.length_append, ByteArr.length_toList]
  rfl

theorem take_file : (file projectId releaseSequence entries).take
    ((file projectId releaseSequence entries).length - checksumSize) = payload projectId releaseSequence entries := by
  rw [length_file, Nat.add_sub_cancel, file, List.take_left]

omit [Crypto] in
theorem Storable.length_payload (h : Storable entries) :
    (payload projectId releaseSequence entries).length ≤ headerSize + maxEntries * 65586 + maxChunks * chunkSize := by
  have hbody : ((entries.map wire).flatMap WireEntry.encode).length ≤
      entries.length * 65586 + (entries.map fun x => x.2.chunks.length).sum * chunkSize := by
    have hpath := h.pathLen
    clear h
    induction entries with
    | nil => exact Nat.zero_le _
    | cons x rest ih =>
      have hx : (wire x).encode.length = entryHeaderSize + (strBytes x.1).length + x.2.chunks.length * chunkSize :=
        (wire x).length_encode
      have hle := hpath x List.mem_cons_self
      have hrest := ih fun y hy => hpath y (List.mem_cons_of_mem x hy)
      have hsize : entryHeaderSize = 51 := rfl
      rw [List.map_cons, List.flatMap_cons, List.length_append, List.map_cons, List.sum_cons, List.length_cons, hx,
        Nat.add_mul, Nat.add_mul, Nat.one_mul]
      omega
  have hcount := Nat.mul_le_mul_right 65586 h.count
  have hchunks := Nat.mul_le_mul_right chunkSize h.chunks
  rw [payload, List.length_append, length_headerBytes]
  omega

end

/-! ### What the map holds -/

theorem lookup_addEntries {xs : List WireEntry} {cache : BuildCache} (hdistinct : Distinct xs cache) {path : String}
    {entry : CachedEntry} :
    (addEntries xs cache).lookup path = some entry ↔
      cache.lookup path = some entry ∨ ∃ x ∈ xs, x.path = path ∧ x.entry = entry := by
  induction xs generalizing cache with
  | nil => simp [addEntries]
  | cons x xs ih =>
    obtain ⟨hfresh, hrest⟩ := distinct_cons.1 hdistinct
    show (addEntries xs (cache.insert x.path x.entry)).lookup path = some entry ↔ _
    rw [ih hrest]
    by_cases hpath : path = x.path
    · subst hpath
      rw [AList.lookup_insert, Option.not_isSome_iff_eq_none.1 (Bool.eq_false_iff.1 hfresh)]
      simp only [List.exists_mem_cons_iff, true_and, Option.some.injEq, reduceCtorEq, false_or]
    · rw [AList.lookup_insert_ne hpath]
      simp only [List.exists_mem_cons_iff, Ne.symm hpath, false_and, false_or]

theorem Storable.wires (h : Storable entries) : Distinct (entries.map wire) ∅ := by
  refine ⟨?_, fun _ _ => rfl⟩
  rw [List.map_map]
  exact h.distinct

theorem chunkTotal_wire : chunkTotal (entries.map wire) = (entries.map fun x => x.2.chunks.length).sum := by
  rw [chunkTotal, List.map_map]
  rfl

section
variable [Crypto] {projectId : ProjectId} {releaseSequence : UInt64}

omit [Crypto] in
theorem headerBytes_inj {projectId' : ProjectId} {releaseSequence' : UInt64} {count count' : UInt32}
    (h : headerBytes projectId' releaseSequence' count' = headerBytes projectId releaseSequence count) :
    projectId' = projectId ∧ releaseSequence' = releaseSequence := by
  have hfields := flatten_inj (by simp) h
  simp only [List.cons.injEq, u64Bytes_injective.eq_iff] at hfields
  obtain ⟨-, -, -, hproject, hsequence, -⟩ := hfields
  exact ⟨congrArg ProjectId.mk (ByteArr.ext hproject), hsequence⟩

variable [Target]

/-- A file that fits the address space leaves room for the offsets of the parser. -/
theorem Storable.fits (h : Storable entries)
    (hsmall : Target.usizeBits = 32 → (file projectId releaseSequence entries).length < 2 ^ 31) :
    (file projectId releaseSequence entries).length + 2 ^ 17 ≤ usizeSize := by
  rcases Target.supported with hbits | hbits
  · have hlt := hsmall hbits
    rw [usizeSize, hbits]
    omega
  · have hle := @Storable.length_payload _ projectId releaseSequence h
    have hmax : headerSize + maxEntries * 65586 + maxChunks * chunkSize + checksumSize + 2 ^ 17 ≤ 2 ^ 64 := by decide
    rw [length_file, usizeSize, hbits]
    omega

theorem Storable.parse (h : Storable entries)
    (hfit : (file projectId releaseSequence entries).length + 2 ^ 17 ≤ usizeSize) :
    parse (file projectId releaseSequence entries) projectId releaseSequence = .ok (addEntries (entries.map wire) ∅) := by
  refine (parse_eq_ok hfit).2 ⟨entries.map wire, ?_, h.wires, ?_, ?_, ?_, rfl⟩
  · intro x hx
    obtain ⟨y, hy, rfl⟩ := List.mem_map.1 hx
    exact h.valid hy
  · rw [List.length_map]
    exact h.count
  · rw [chunkTotal_wire]
    exact h.chunks
  · rw [take_file, List.length_map]
    rfl

theorem parse_other {projectId' : ProjectId} {releaseSequence' : UInt64}
    (hfit : (file projectId releaseSequence entries).length + 2 ^ 17 ≤ usizeSize)
    (hne : (projectId', releaseSequence') ≠ (projectId, releaseSequence)) :
    parse (file projectId releaseSequence entries) projectId' releaseSequence' = fail () := by
  rcases hresult : BuildCache.parse (file projectId releaseSequence entries) projectId' releaseSequence' with stop | cache
  · cases stop with
    | err e => rfl
    | panic what => exact absurd hresult (NoPanic.parse hfit what)
  · obtain ⟨xs, -, -, -, -, hbytes, -⟩ := (parse_eq_ok hfit).1 hresult
    unfold file payload at hbytes
    rw [List.append_assoc, List.append_assoc] at hbytes
    obtain ⟨hheader, -⟩ := List.append_inj hbytes (by rw [length_headerBytes, length_headerBytes])
    obtain ⟨rfl, rfl⟩ := headerBytes_inj hheader
    exact absurd rfl hne

end

end BuildCache

open BuildCache

/-- No slice is longer than half of `usizeSize`, which on 64 bits is no condition on what was saved. -/
theorem buildCache_codec [Target] [Crypto] :
    (∀ projectId releaseSequence entries, Storable entries → ∃ bytes,
      encode projectId releaseSequence entries = .ok bytes ∧ ((Target.usizeBits = 32 → bytes.length < 2 ^ 31) →
        (∃ cache, parse bytes projectId releaseSequence = .ok cache ∧
          ∀ path entry, cache.lookup path = some entry ↔ (path, entry) ∈ entries) ∧
        ∀ projectId' releaseSequence', (projectId', releaseSequence') ≠ (projectId, releaseSequence) →
          parse bytes projectId' releaseSequence' = fail ())) ∧
    ∀ bytes : Bytes, bytes.length < usizeSize / 2 → ∀ projectId releaseSequence,
      NoPanic (parse bytes projectId releaseSequence) ∧
      (∀ r ∈ reservations bytes projectId releaseSequence,
        r.start + r.count * r.encodedSize ≤ bytes.length - BuildCache.checksumSize) ∧
      ∀ cache, parse bytes projectId releaseSequence = .ok cache → ∃ xs : List WireEntry, (∀ x ∈ xs, x.Valid) ∧ Distinct xs ∅ ∧
        headerBytes projectId releaseSequence (UInt32.ofNat xs.length) ++ xs.flatMap WireEntry.encode ++
          (Crypto.hash (bytes.take (bytes.length - BuildCache.checksumSize))).toList = bytes ∧ cache = addEntries xs ∅ := by
  refine ⟨fun projectId releaseSequence entries h => ?_, fun bytes hlen projectId releaseSequence => ?_⟩
  · refine ⟨file projectId releaseSequence entries, h.encode, fun hsmall => ⟨⟨_, h.parse (h.fits hsmall), ?_⟩, ?_⟩⟩
    · intro path entry
      rw [lookup_addEntries h.wires]
      constructor
      · rintro (hempty | ⟨x, hx, rfl, rfl⟩)
        · cases hempty
        · obtain ⟨y, hy, rfl⟩ := List.mem_map.1 hx
          rw [wire_entry]
          exact hy
      · intro hmem
        exact .inr ⟨wire (path, entry), List.mem_map_of_mem hmem, rfl, wire_entry _⟩
    · intro projectId' releaseSequence' hne
      exact parse_other (h.fits hsmall) hne
  · have hfit : bytes.length + 2 ^ 17 ≤ usizeSize := by
      have hsize := le_usizeSize
      omega
    refine ⟨NoPanic.parse hfit, fun r hr => reservations_fit hfit hr, fun cache hcache => ?_⟩
    obtain ⟨xs, hvalid, hdistinct, -, -, hbytes, hresult⟩ := (parse_eq_ok hfit).1 hcache
    exact ⟨xs, hvalid, hdistinct, hbytes, hresult⟩

end Hakutaku
