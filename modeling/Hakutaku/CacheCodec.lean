import Hakutaku.BuildCache
import Hakutaku.RecordCodec

/-!
# The development cache as a format

`entryBytes`, `headerBytes`: what the writer produces. The parser accepts exactly such bytes, one entry behind the
other up to the checksum, and no step of it panics on bytes that fit a slice.
-/

namespace Hakutaku
open Wire

namespace BuildCache

/-! ### Enumerations -/

theorem parseLayout_eq_some {v : UInt8} {a : LayoutKind} : parseLayout v = some a ↔ v = a.toByte := by
  unfold parseLayout
  constructor
  · intro h
    split at h <;> [skip; split at h] <;> simp_all [LayoutKind.toByte] <;> subst h <;> rfl
  · rintro rfl
    cases a <;> rfl

theorem parseAccess_eq_some {v : UInt8} {a : AccessClass} : parseAccess v = some a ↔ v = a.toByte := by
  unfold parseAccess
  constructor
  · intro h
    split at h <;> [skip; split at h <;> [skip; split at h <;> [skip; split at h]]] <;>
      simp_all [AccessClass.toByte] <;> subst h <;> rfl
  · rintro rfl
    cases a <;> rfl

theorem parseAvailability_eq_some {v : UInt8} {a : Availability} : parseAvailability v = some a ↔ v = a.toByte := by
  unfold parseAvailability
  constructor
  · intro h
    split at h <;> [skip; split at h] <;> simp_all [Availability.toByte] <;> subst h <;> rfl
  · rintro rfl
    cases a <;> rfl

theorem parseCompression_eq_some {v : UInt8} {a : CompressionPolicy} : parseCompression v = some a ↔ v = a.toByte := by
  unfold parseCompression
  constructor
  · intro h
    split at h <;> [skip; split at h] <;> simp_all [CompressionPolicy.toByte] <;> subst h <;> rfl
  · rintro rfl
    cases a <;> rfl

/-! ### Byte access -/

section Access
variable [Target] {bytes : Bytes} {offset at' n : Nat}

theorem getRange_eq_ok (hfit : offset + n < usizeSize) {v : Bytes} :
    getRange bytes offset n = .ok v ↔ offset + n ≤ bytes.length ∧ slice bytes offset n = v := by
  unfold getRange
  rw [plainAdd_of_lt hfit, ok_bind, ite_else_fail_eq_ok, pure_eq_ok, Except.ok.injEq]

theorem NoPanic.getRange (hfit : offset + n < usizeSize) : NoPanic (getRange bytes offset n) :=
  .bind (.plainAdd hfit) fun _ _ => .ite (fun _ => .ok _) fun _ => .fail _

theorem getByte_eq_ok (hfit : offset + at' < usizeSize) {v : UInt8} :
    getByte bytes offset at' = .ok v ↔ offset + at' + 1 ≤ bytes.length ∧ slice bytes (offset + at') 1 = [v] := by
  rw [← byteAt_eq_ok]
  unfold getByte byteAt
  rw [plainAdd_of_lt hfit, ok_bind, okOr_eq_ok]
  rcases bytes[offset + at']? with _ | b
  · simp
  · simp

theorem NoPanic.getByte (hfit : offset + at' < usizeSize) : NoPanic (getByte bytes offset at') :=
  .bind (.plainAdd hfit) fun _ _ => .okOr _ _

theorem leNat_getRange_lt (hfit : offset + n < usizeSize) {b : Bytes} (hb : getRange bytes offset n = .ok b) :
    leNat b < 256 ^ n := by
  obtain ⟨hle, rfl⟩ := (getRange_eq_ok hfit).1 hb
  calc leNat (slice bytes offset n) < 256 ^ (slice bytes offset n).length := leNat_lt _
    _ = 256 ^ n := by rw [length_slice hle]

/-- A number read from a slice is the one its bytes stand for. -/
theorem getRange_number {v : Nat} (hfit : offset + n < usizeSize) (hv : v < 256 ^ n) :
    (∃ b, getRange bytes offset n = .ok b ∧ leNat b = v) ↔
      offset + n ≤ bytes.length ∧ slice bytes offset n = leBytes n v := by
  constructor
  · rintro ⟨b, hb, rfl⟩
    obtain ⟨hle, rfl⟩ := (getRange_eq_ok hfit).1 hb
    exact ⟨hle, (leBytes_leNat' (length_slice hle)).symm⟩
  · rintro ⟨hle, hb⟩
    exact ⟨_, (getRange_eq_ok hfit).2 ⟨hle, rfl⟩, by rw [hb, leNat_leBytes hv]⟩

theorem getU16_eq_ok (hfit : offset + at' + 2 < usizeSize) {v : UInt16} :
    getU16 bytes offset at' = .ok v ↔ offset + at' + 2 ≤ bytes.length ∧ slice bytes (offset + at') 2 = u16Bytes v := by
  unfold getU16 u16Bytes
  rw [plainAdd_of_lt (by omega), ok_bind, ← getRange_number hfit v.toNat_lt, bind_eq_ok]
  refine exists_congr fun b => and_congr_right fun hb => ?_
  rw [pure_eq_ok, Except.ok.injEq, ← UInt16.toNat_inj, UInt16.toNat_ofNat_of_lt' (leNat_getRange_lt hfit hb)]

theorem getU32_eq_ok (hfit : offset + at' + 4 < usizeSize) {v : UInt32} :
    getU32 bytes offset at' = .ok v ↔ offset + at' + 4 ≤ bytes.length ∧ slice bytes (offset + at') 4 = u32Bytes v := by
  unfold getU32 u32Bytes
  rw [plainAdd_of_lt (by omega), ok_bind, ← getRange_number hfit v.toNat_lt, bind_eq_ok]
  refine exists_congr fun b => and_congr_right fun hb => ?_
  rw [pure_eq_ok, Except.ok.injEq, ← UInt32.toNat_inj, UInt32.toNat_ofNat_of_lt' (leNat_getRange_lt hfit hb)]

theorem getU64_eq_ok (hfit : offset + at' + 8 < usizeSize) {v : UInt64} :
    getU64 bytes offset at' = .ok v ↔ offset + at' + 8 ≤ bytes.length ∧ slice bytes (offset + at') 8 = u64Bytes v := by
  unfold getU64 u64Bytes
  rw [plainAdd_of_lt (by omega), ok_bind, ← getRange_number hfit v.toNat_lt, bind_eq_ok]
  refine exists_congr fun b => and_congr_right fun hb => ?_
  rw [pure_eq_ok, Except.ok.injEq, ← UInt64.toNat_inj, UInt64.toNat_ofNat_of_lt' (leNat_getRange_lt hfit hb)]

theorem NoPanic.getU16 (hfit : offset + at' + 2 < usizeSize) : NoPanic (getU16 bytes offset at') :=
  .bind (.plainAdd (by omega)) fun b hb => by
    obtain ⟨-, rfl⟩ := plainAdd_eq_ok.1 hb
    exact .bind (NoPanic.getRange hfit) fun _ _ => .ok _

theorem NoPanic.getU32 (hfit : offset + at' + 4 < usizeSize) : NoPanic (getU32 bytes offset at') :=
  .bind (.plainAdd (by omega)) fun b hb => by
    obtain ⟨-, rfl⟩ := plainAdd_eq_ok.1 hb
    exact .bind (NoPanic.getRange hfit) fun _ _ => .ok _

theorem NoPanic.getU64 (hfit : offset + at' + 8 < usizeSize) : NoPanic (getU64 bytes offset at') :=
  .bind (.plainAdd (by omega)) fun b hb => by
    obtain ⟨-, rfl⟩ := plainAdd_eq_ok.1 hb
    exact .bind (NoPanic.getRange hfit) fun _ _ => .ok _

end Access

/-! ### Chunks -/

@[simp] theorem length_encodeChunk (chunk : CachedChunk) : (encodeChunk chunk).length = chunkSize := by
  simp [encodeChunk, chunkSize]

section
variable [Target] {bytes : Bytes} {payloadLen offset totalChunks : Nat}

/-- The reads of one chunk. -/
theorem slice_eq_encodeChunk (hfit : bytes.length < usizeSize) (hle : offset + chunkSize ≤ bytes.length)
    {chunk : CachedChunk} :
    slice bytes offset chunkSize = encodeChunk chunk ↔
      getU64 bytes offset 0 = .ok chunk.logicalOffset ∧ getU32 bytes offset 8 = .ok chunk.plainLen ∧
        getRange bytes (offset + 12) 32 = .ok chunk.chunkId.toList := by
  unfold chunkSize at hle
  have hid : (u64Bytes chunk.logicalOffset ++ u32Bytes chunk.plainLen).length + chunk.chunkId.toList.length = chunkSize := by
    simp [chunkSize]
  have hhead : (u64Bytes chunk.logicalOffset).length + (u32Bytes chunk.plainLen).length =
      (u64Bytes chunk.logicalOffset ++ u32Bytes chunk.plainLen).length := List.length_append.symm
  rw [getU64_eq_ok (by omega), getU32_eq_ok (by omega), getRange_eq_ok (by omega), encodeChunk, ← hid,
    slice_eq_append (by simp; omega), ← hhead, slice_eq_append (by simp; omega)]
  simp only [length_u64Bytes, length_u32Bytes, ByteArr.length_toList, Nat.add_zero, and_assoc]
  constructor
  · rintro ⟨hoffset, hlen, hid⟩
    exact ⟨by omega, hoffset, by omega, hlen, by omega, hid⟩
  · rintro ⟨-, hoffset, -, hlen, -, hid⟩
    exact ⟨hoffset, hlen, hid⟩

theorem parseChunks_succ (hfit : bytes.length < usizeSize) (hle : offset + chunkSize ≤ bytes.length) (n : Nat)
    {result : List CachedChunk × Nat} :
    parseChunks bytes (n + 1) offset = .ok result ↔
      ∃ chunk rest, slice bytes offset chunkSize = encodeChunk chunk ∧
        parseChunks bytes n (offset + chunkSize) = .ok rest ∧ result = (chunk :: rest.1, rest.2) := by
  have hlt : offset + chunkSize < usizeSize := by omega
  have hid : offset + 12 < usizeSize := by
    unfold chunkSize at hlt
    omega
  conv_lhs => unfold parseChunks
  rw [checkedAdd, if_pos hlt, okOr, ok_bind]
  constructor
  · intro h
    obtain ⟨logicalOffset, hoffset, h⟩ := bind_eq_ok.1 h
    obtain ⟨plainLen, hlen, h⟩ := bind_eq_ok.1 h
    rw [plainAdd_of_lt hid, ok_bind] at h
    obtain ⟨id, hrange, h⟩ := bind_eq_ok.1 h
    split at h
    · obtain ⟨rest, hrest, h⟩ := bind_eq_ok.1 h
      cases h
      exact ⟨⟨logicalOffset, plainLen, ⟨id, _⟩⟩, rest, (slice_eq_encodeChunk hfit hle).2 ⟨hoffset, hlen, hrange⟩, hrest, rfl⟩
    · cases h
  · rintro ⟨chunk, rest, hchunk, hrest, rfl⟩
    obtain ⟨hoffset, hlen, hrange⟩ := (slice_eq_encodeChunk hfit hle).1 hchunk
    rw [hoffset, ok_bind, hlen, ok_bind, plainAdd_of_lt hid, ok_bind, hrange, ok_bind, dif_pos chunk.chunkId.length_toList,
      hrest, ok_bind]
    rfl

/-- The loop over the chunks reads what the writer would have written for them. -/
theorem parseChunks_eq_ok {n : Nat} (hfit : bytes.length < usizeSize) (hle : offset + n * chunkSize ≤ bytes.length)
    {chunks : List CachedChunk} {stop : Nat} :
    parseChunks bytes n offset = .ok (chunks, stop) ↔
      chunks.length = n ∧ stop = offset + n * chunkSize ∧
        slice bytes offset (n * chunkSize) = chunks.flatMap encodeChunk := by
  induction n generalizing offset chunks with
  | zero =>
    unfold parseChunks
    rw [pure_eq_ok, Except.ok.injEq, Prod.mk.injEq, Nat.zero_mul, slice_zero_len, List.length_eq_zero_iff]
    constructor
    · rintro ⟨rfl, rfl⟩
      exact ⟨rfl, rfl, rfl⟩
    · rintro ⟨rfl, rfl, -⟩
      exact ⟨rfl, rfl⟩
  | succ n ih =>
    have hsize : (n + 1) * chunkSize = chunkSize + n * chunkSize := by rw [Nat.add_mul, Nat.one_mul, Nat.add_comm]
    rw [hsize] at hle ⊢
    have hrest {chunks : List CachedChunk} := @ih (offset + chunkSize) (by omega) chunks
    rw [parseChunks_succ hfit (by omega)]
    constructor
    · rintro ⟨chunk, ⟨rest, stop'⟩, hchunk, hok, heq⟩
      obtain ⟨rfl, rfl⟩ := Prod.mk.inj heq
      obtain ⟨rfl, rfl, hslice⟩ := hrest.1 hok
      refine ⟨rfl, Nat.add_assoc _ _ _, ?_⟩
      rw [slice_add, hchunk, hslice, List.flatMap_cons]
    · rintro ⟨hlen, rfl, hslice⟩
      obtain _ | ⟨chunk, chunks⟩ := chunks
      · cases hlen
      · rw [slice_add, List.flatMap_cons] at hslice
        obtain ⟨hchunk, hslice⟩ := List.append_inj hslice (by rw [length_slice (by omega), length_encodeChunk])
        exact ⟨chunk, (chunks, _), hchunk, hrest.2 ⟨Nat.succ.inj hlen, (Nat.add_assoc _ _ _).symm, hslice⟩, rfl⟩

theorem NoPanic.parseChunks {n : Nat} (hfit : bytes.length < usizeSize) (hle : offset + n * chunkSize ≤ bytes.length) :
    NoPanic (parseChunks bytes n offset) := by
  induction n generalizing offset with
  | zero => exact .ok _
  | succ n ih =>
    rw [Nat.add_mul, Nat.one_mul] at hle
    have hchunk : offset + chunkSize ≤ bytes.length := by omega
    unfold BuildCache.parseChunks
    refine .bind (.okOr _ _) fun stop hstop => ?_
    obtain ⟨-, rfl⟩ := checkedAdd_eq_some.1 (okOr_eq_ok.1 hstop)
    unfold chunkSize at hchunk
    refine .bind (NoPanic.getU64 (by omega)) fun _ _ => .bind (NoPanic.getU32 (by omega)) fun _ _ => ?_
    refine .bind (.plainAdd (by omega)) fun start hstart => ?_
    obtain ⟨-, rfl⟩ := plainAdd_eq_ok.1 hstart
    refine .bind (NoPanic.getRange (by omega)) fun id _ => ?_
    split
    · exact .bind (ih (by omega)) fun _ _ => .ok _
    · exact .fail _

/-! ### Entries -/

omit [Target] in
/-- The bytes of the fields. -/
def EntryFields.encode (fields : EntryFields) : Bytes :=
  [u16Bytes fields.pathLen, [fields.layout.toByte], [fields.access.toByte], [fields.availability.toByte],
    [fields.compression.toByte], [fields.modifiedKnown], u32Bytes fields.fixedBlockLen, u64Bytes fields.len,
    u64Bytes fields.modifiedSecs, u32Bytes fields.modifiedNanos, u64Bytes fields.device, u64Bytes fields.inode,
    u32Bytes fields.chunkCount].flatten

omit [Target] in
@[simp] theorem EntryFields.length_encode (fields : EntryFields) : fields.encode.length = entryHeaderSize := by
  simp [EntryFields.encode, entryHeaderSize]

/-- What the reads of the fields return. -/
def EntryFields.ReadAt (fields : EntryFields) (bytes : Bytes) (offset : Nat) : Prop :=
  getU16 bytes offset 0 = .ok fields.pathLen ∧ getByte bytes offset 2 = .ok fields.layout.toByte ∧
    getByte bytes offset 3 = .ok fields.access.toByte ∧ getByte bytes offset 4 = .ok fields.availability.toByte ∧
    getByte bytes offset 5 = .ok fields.compression.toByte ∧ getByte bytes offset 6 = .ok fields.modifiedKnown ∧
    getU32 bytes offset 7 = .ok fields.fixedBlockLen ∧ getU64 bytes offset 11 = .ok fields.len ∧
    getU64 bytes offset 19 = .ok fields.modifiedSecs ∧ getU32 bytes offset 27 = .ok fields.modifiedNanos ∧
    getU64 bytes offset 31 = .ok fields.device ∧ getU64 bytes offset 39 = .ok fields.inode ∧
    getU32 bytes offset 47 = .ok fields.chunkCount

variable {fields : EntryFields}

theorem EntryFields.ReadAt.le (h : fields.ReadAt bytes offset) (hfit : offset + entryHeaderSize < usizeSize) :
    offset + entryHeaderSize ≤ bytes.length := by
  unfold entryHeaderSize at hfit ⊢
  obtain ⟨-, -, -, -, -, -, -, -, -, -, -, -, hcount⟩ := h
  exact ((getU32_eq_ok (by omega)).1 hcount).1

theorem EntryFields.readAt_iff (hfit : bytes.length < usizeSize) (hle : offset + entryHeaderSize ≤ bytes.length) :
    fields.ReadAt bytes offset ↔ slice bytes offset entryHeaderSize = fields.encode := by
  have hlen := length_slice hle
  unfold entryHeaderSize at hle hlen ⊢
  rw [ReadAt, EntryFields.encode, eq_flatten_iff, getU16_eq_ok (by omega), getByte_eq_ok (by omega), getByte_eq_ok (by omega),
    getByte_eq_ok (by omega), getByte_eq_ok (by omega), getByte_eq_ok (by omega), getU32_eq_ok (by omega),
    getU64_eq_ok (by omega), getU64_eq_ok (by omega), getU32_eq_ok (by omega), getU64_eq_ok (by omega),
    getU64_eq_ok (by omega), getU32_eq_ok (by omega)]
  have hbound (n : Nat) (hn : n ≤ 51) : offset + n ≤ bytes.length := by omega
  simp only [Fields, hlen, length_u16Bytes, length_u32Bytes, length_u64Bytes, List.length_cons, List.length_nil,
    Nat.reduceAdd, Nat.reduceLeDiff, true_and, and_true]
  simp (disch := omega) only [slice_slice, Nat.add_assoc, Nat.reduceAdd, Nat.add_zero, hbound, true_and]

theorem parseFields_eq_ok :
    parseFields bytes offset = .ok fields ↔ fields.modifiedKnown ≤ 1 ∧ fields.ReadAt bytes offset := by
  constructor
  · intro h
    unfold parseFields at h
    obtain ⟨pathLen, hpathLen, h⟩ := bind_eq_ok.1 h
    obtain ⟨layoutByte, hlayout, h⟩ := bind_eq_ok.1 h
    obtain ⟨layout, hlayout', h⟩ := bind_eq_ok.1 h
    obtain ⟨accessByte, haccess, h⟩ := bind_eq_ok.1 h
    obtain ⟨access, haccess', h⟩ := bind_eq_ok.1 h
    obtain ⟨availabilityByte, havailability, h⟩ := bind_eq_ok.1 h
    obtain ⟨availability, havailability', h⟩ := bind_eq_ok.1 h
    obtain ⟨compressionByte, hcompression, h⟩ := bind_eq_ok.1 h
    obtain ⟨compression, hcompression', h⟩ := bind_eq_ok.1 h
    obtain ⟨known, hknown, h⟩ := bind_eq_ok.1 h
    obtain ⟨hle, h⟩ := ite_fail_bind_eq_ok.1 h
    obtain ⟨fixedBlockLen, hfixed, h⟩ := bind_eq_ok.1 h
    obtain ⟨len, hlen, h⟩ := bind_eq_ok.1 h
    obtain ⟨secs, hsecs, h⟩ := bind_eq_ok.1 h
    obtain ⟨nanos, hnanos, h⟩ := bind_eq_ok.1 h
    obtain ⟨device, hdevice, h⟩ := bind_eq_ok.1 h
    obtain ⟨inode, hinode, h⟩ := bind_eq_ok.1 h
    obtain ⟨chunkCount, hcount, h⟩ := bind_eq_ok.1 h
    cases h
    obtain rfl := parseLayout_eq_some.1 (okOr_eq_ok.1 hlayout')
    obtain rfl := parseAccess_eq_some.1 (okOr_eq_ok.1 haccess')
    obtain rfl := parseAvailability_eq_some.1 (okOr_eq_ok.1 havailability')
    obtain rfl := parseCompression_eq_some.1 (okOr_eq_ok.1 hcompression')
    exact ⟨UInt8.not_lt.1 hle, hpathLen, hlayout, haccess, havailability, hcompression, hknown, hfixed, hlen, hsecs, hnanos,
      hdevice, hinode, hcount⟩
  · rintro ⟨hle, hpathLen, hlayout, haccess, havailability, hcompression, hknown, hfixed, hlen, hsecs, hnanos, hdevice,
      hinode, hcount⟩
    unfold parseFields
    rw [hpathLen, ok_bind, hlayout, ok_bind, parseLayout_eq_some.2 rfl, okOr, ok_bind, haccess, ok_bind,
      parseAccess_eq_some.2 rfl, okOr, ok_bind, havailability, ok_bind, parseAvailability_eq_some.2 rfl, okOr, ok_bind,
      hcompression, ok_bind, parseCompression_eq_some.2 rfl, okOr, ok_bind, hknown, ok_bind]
    dsimp only
    rw [if_neg (UInt8.not_lt.2 hle), hfixed, ok_bind, hlen, ok_bind, hsecs, ok_bind, hnanos, ok_bind, hdevice, ok_bind,
      hinode, ok_bind, hcount, ok_bind]
    rfl

theorem NoPanic.parseFields (hfit : offset + entryHeaderSize < usizeSize) : NoPanic (parseFields bytes offset) := by
  unfold entryHeaderSize at hfit
  refine .bind (NoPanic.getU16 (by omega)) fun _ _ => .bind (NoPanic.getByte (by omega)) fun _ _ => .bind (.okOr _ _) fun _ _ => ?_
  refine .bind (NoPanic.getByte (by omega)) fun _ _ => .bind (.okOr _ _) fun _ _ => ?_
  refine .bind (NoPanic.getByte (by omega)) fun _ _ => .bind (.okOr _ _) fun _ _ => ?_
  refine .bind (NoPanic.getByte (by omega)) fun _ _ => .bind (.okOr _ _) fun _ _ => ?_
  refine .bind (NoPanic.getByte (by omega)) fun _ _ => .failIf fun _ => ?_
  refine .bind (NoPanic.getU32 (by omega)) fun _ _ => .bind (NoPanic.getU64 (by omega)) fun _ _ => ?_
  refine .bind (NoPanic.getU64 (by omega)) fun _ _ => .bind (NoPanic.getU32 (by omega)) fun _ _ => ?_
  refine .bind (NoPanic.getU64 (by omega)) fun _ _ => .bind (NoPanic.getU64 (by omega)) fun _ _ => ?_
  exact .bind (NoPanic.getU32 (by omega)) fun _ _ => .ok _

theorem NoPanic.parseEntryHead (hfit : bytes.length + 2 ^ 17 ≤ usizeSize) (hoffset : offset ≤ bytes.length) :
    NoPanic (parseEntryHead bytes payloadLen offset totalChunks) := by
  have hsize : entryHeaderSize = 51 := rfl
  refine .bind (NoPanic.parseFields (by omega)) fun _ _ => .bind (.okOr _ _) fun _ _ => .failIf fun _ => ?_
  refine .bind (.okOr _ _) fun _ _ => .bind (.okOr _ _) fun _ _ => .failIf fun _ => .bind (.okOr _ _) fun _ _ => ?_
  exact .failIf fun _ => .bind (.okOr _ _) fun _ _ => .bind (.okOr _ _) fun _ _ => .failIf fun _ => .ok _

/-- What the parser makes of an entry up to its chunks. -/
structure HeadAt (bytes : Bytes) (payloadLen offset totalChunks : Nat) (head : EntryHead) : Prop where
  canonical : Canonical head.path
  pathLen : head.fields.pathLen.toNat = (strBytes head.path).length
  known : head.fields.modifiedKnown ≤ 1
  nanos : head.fields.modifiedNanos.toNat < 1000000000
  header : slice bytes offset entryHeaderSize = head.fields.encode
  pathBytes : slice bytes (offset + entryHeaderSize) (strBytes head.path).length = strBytes head.path
  start : head.chunksStart = offset + entryHeaderSize + (strBytes head.path).length
  stop : head.chunksStart + head.fields.chunkCount.toNat * chunkSize ≤ payloadLen
  total : head.totalChunks = totalChunks + head.fields.chunkCount.toNat
  limit : head.totalChunks ≤ maxChunks

/-- The bytes fit a slice, so that the offsets of an entry that starts inside do not overflow. -/
theorem parseEntryHead_eq_ok (hfit : bytes.length + 2 ^ 17 ≤ usizeSize) (hoffset : offset ≤ bytes.length)
    (hpayload : payloadLen ≤ bytes.length) {head : EntryHead} :
    parseEntryHead bytes payloadLen offset totalChunks = .ok head ↔
      HeadAt bytes payloadLen offset totalChunks head := by
  have hsize : entryHeaderSize = 51 := rfl
  constructor
  · intro h
    unfold parseEntryHead at h
    obtain ⟨fields, hfields, h⟩ := bind_eq_ok.1 h
    obtain ⟨total, htotal, h⟩ := bind_eq_ok.1 h
    obtain ⟨hlimit, h⟩ := ite_fail_bind_eq_ok.1 h
    obtain ⟨start, hstart, h⟩ := bind_eq_ok.1 h
    obtain ⟨pathEnd, hend, h⟩ := bind_eq_ok.1 h
    obtain ⟨hbound, h⟩ := ite_fail_bind_eq_ok.1 h
    obtain ⟨path, hpath, h⟩ := bind_eq_ok.1 h
    obtain ⟨hcanonical, h⟩ := ite_fail_bind_eq_ok.1 h
    obtain ⟨chunksLen, hchunksLen, h⟩ := bind_eq_ok.1 h
    obtain ⟨chunksEnd, hchunksEnd, h⟩ := bind_eq_ok.1 h
    obtain ⟨hstop, h⟩ := ite_fail_bind_eq_ok.1 h
    cases h
    obtain ⟨hknown, hread⟩ := parseFields_eq_ok.1 hfields
    obtain ⟨-, rfl⟩ := checkedAdd_eq_some.1 (okOr_eq_ok.1 htotal)
    obtain ⟨-, rfl⟩ := checkedAdd_eq_some.1 (okOr_eq_ok.1 hstart)
    obtain ⟨-, rfl⟩ := checkedAdd_eq_some.1 (okOr_eq_ok.1 hend)
    obtain ⟨-, rfl⟩ := checkedMul_eq_some.1 (okOr_eq_ok.1 hchunksLen)
    obtain ⟨-, rfl⟩ := checkedAdd_eq_some.1 (okOr_eq_ok.1 hchunksEnd)
    have hpath' := fromUtf8_eq_some.1 (okOr_eq_ok.1 hpath)
    have hlen : (strBytes path).length = fields.pathLen.toNat := by
      rw [← hpath', length_slice (Nat.not_lt.1 hbound)]
    obtain ⟨hlimit', hnanos⟩ := not_or.1 hlimit
    exact {
      canonical := Bool.eq_false_iff.2 hcanonical
      pathLen := hlen.symm
      known := hknown
      nanos := Nat.not_le.1 hnanos
      header := (EntryFields.readAt_iff (by omega) (hread.le (by omega))).1 hread
      pathBytes := by rw [hlen, hpath']
      start := by rw [hlen]
      stop := Nat.not_lt.1 hstop
      total := rfl
      limit := Nat.not_lt.1 hlimit' }
  · rintro ⟨hcanonical, hpathLen, hknown, hnanos, hheader, hpathBytes, hstart, hstop, htotal, hlimit⟩
    obtain ⟨path, fields, start, total⟩ := head
    dsimp only at *
    subst hstart htotal
    have hread := (EntryFields.readAt_iff (by omega) (by omega)).2 hheader
    have hmax : maxChunks < usizeSize := lt_of_lt_of_le (by decide) le_usizeSize
    rw [← hpathLen] at hstop hpathBytes ⊢
    unfold parseEntryHead
    rw [parseFields_eq_ok.2 ⟨hknown, hread⟩, ok_bind, checkedAdd, if_pos (by omega), okOr, ok_bind]
    dsimp only
    rw [if_neg (not_or.2 ⟨Nat.not_lt.2 hlimit, Nat.not_le.2 hnanos⟩), checkedAdd, if_pos (by omega), okOr, ok_bind,
      checkedAdd, if_pos (by omega), okOr, ok_bind]
    rw [if_neg (by omega), hpathBytes, fromUtf8_strBytes, okOr, ok_bind, if_neg (Bool.eq_false_iff.1 hcanonical),
      checkedMul, if_pos (by omega), okOr, ok_bind, checkedAdd, if_pos (by omega), okOr, ok_bind, if_neg (by omega)]
    rfl

omit [Target] in
/-- An entry as it stands in the file. -/
structure WireEntry where
  path : String
  fields : EntryFields
  chunks : List CachedChunk

omit [Target] in
def WireEntry.encode (x : WireEntry) : Bytes := x.fields.encode ++ strBytes x.path ++ x.chunks.flatMap encodeChunk

omit [Target] in
/-- The entry it stands for. -/
def WireEntry.entry (x : WireEntry) : CachedEntry := { x.fields.entry with chunks := x.chunks }

/-- The lengths in its fields are those of its path and its chunk list, and its path and time are valid. -/
structure WireEntry.Valid (x : WireEntry) : Prop where
  canonical : Canonical x.path
  pathLen : x.fields.pathLen.toNat = (strBytes x.path).length
  chunkCount : x.fields.chunkCount.toNat = x.chunks.length
  known : x.fields.modifiedKnown ≤ 1
  nanos : x.fields.modifiedNanos.toNat < 1000000000

omit [Target] in
theorem WireEntry.length_encode (x : WireEntry) :
    x.encode.length = entryHeaderSize + (strBytes x.path).length + x.chunks.length * chunkSize := by
  rw [encode, List.length_append, List.length_append, EntryFields.length_encode, length_flatMap length_encodeChunk]

omit [Target] in
theorem WireEntry.slice_iff {x : WireEntry} (hle : offset + x.encode.length ≤ bytes.length) :
    slice bytes offset x.encode.length = x.encode ↔ slice bytes offset entryHeaderSize = x.fields.encode ∧
      slice bytes (offset + entryHeaderSize) (strBytes x.path).length = strBytes x.path ∧
        slice bytes (offset + entryHeaderSize + (strBytes x.path).length) (x.chunks.length * chunkSize) =
          x.chunks.flatMap encodeChunk := by
  have hhead : (x.fields.encode ++ strBytes x.path).length = entryHeaderSize + (strBytes x.path).length := by
    rw [List.length_append, EntryFields.length_encode]
  have hchunks : (x.chunks.flatMap encodeChunk).length = x.chunks.length * chunkSize := length_flatMap length_encodeChunk _
  rw [x.length_encode] at hle ⊢
  rw [encode, ← hchunks, ← hhead, slice_eq_append (by omega), List.length_append, slice_eq_append (by
    rw [EntryFields.length_encode]
    omega), EntryFields.length_encode, and_assoc, Nat.add_assoc offset]

theorem parseEntry_eq_ok (hfit : bytes.length + 2 ^ 17 ≤ usizeSize) (hoffset : offset ≤ bytes.length)
    (hpayload : payloadLen ≤ bytes.length) {result : String × CachedEntry × Nat × Nat} :
    parseEntry bytes payloadLen offset totalChunks = .ok result ↔
      ∃ x : WireEntry, x.Valid ∧ offset + x.encode.length ≤ payloadLen ∧
        slice bytes offset x.encode.length = x.encode ∧ totalChunks + x.chunks.length ≤ maxChunks ∧
        result = (x.path, x.entry, offset + x.encode.length, totalChunks + x.chunks.length) := by
  unfold parseEntry
  rw [bind_eq_ok]
  constructor
  · rintro ⟨⟨path, fields, start, total⟩, hhead, h⟩
    obtain ⟨hcanonical, hpathLen, hknown, hnanos, hheader, hpathBytes, hstart, hstop, htotal, hlimit⟩ :=
      (parseEntryHead_eq_ok hfit hoffset hpayload).1 hhead
    dsimp only at *
    subst hstart htotal
    obtain ⟨⟨chunks, stop⟩, hchunks, h⟩ := bind_eq_ok.1 h
    cases h
    obtain ⟨hcount, rfl, hslice⟩ := (parseChunks_eq_ok (by omega) (by omega)).1 hchunks
    rw [← hcount] at hstop hslice hlimit ⊢
    have hlen : (⟨path, fields, chunks⟩ : WireEntry).encode.length = _ := WireEntry.length_encode _
    dsimp only at hlen
    refine ⟨⟨path, fields, chunks⟩, ⟨hcanonical, hpathLen, hcount.symm, hknown, hnanos⟩, by omega, ?_, hlimit, ?_⟩
    · exact (WireEntry.slice_iff (by omega)).2 ⟨hheader, hpathBytes, hslice⟩
    · rw [hlen, ← Nat.add_assoc, ← Nat.add_assoc]
      rfl
  · rintro ⟨x, hvalid, hle, hslice, hlimit, rfl⟩
    have hlen := x.length_encode
    obtain ⟨hheader, hpathBytes, hchunks⟩ := (WireEntry.slice_iff (by omega)).1 hslice
    have hstop : offset + entryHeaderSize + (strBytes x.path).length + x.chunks.length * chunkSize ≤ payloadLen := by omega
    rw [← hvalid.chunkCount] at hlimit
    refine ⟨⟨x.path, x.fields, offset + entryHeaderSize + (strBytes x.path).length,
      totalChunks + x.fields.chunkCount.toNat⟩, (parseEntryHead_eq_ok hfit hoffset hpayload).2 ⟨hvalid.canonical,
        hvalid.pathLen, hvalid.known, hvalid.nanos, hheader, hpathBytes, rfl, hvalid.chunkCount ▸ hstop, rfl, hlimit⟩, ?_⟩
    dsimp only
    rw [hvalid.chunkCount, (parseChunks_eq_ok (by omega) (by omega)).2 ⟨rfl, rfl, hchunks⟩, ok_bind, hlen,
      ← Nat.add_assoc, ← Nat.add_assoc]
    rfl

theorem NoPanic.parseEntry (hfit : bytes.length + 2 ^ 17 ≤ usizeSize) (hoffset : offset ≤ bytes.length)
    (hpayload : payloadLen ≤ bytes.length) : NoPanic (parseEntry bytes payloadLen offset totalChunks) := by
  refine .bind (NoPanic.parseEntryHead hfit hoffset) fun head hhead => ?_
  have hstop := ((parseEntryHead_eq_ok hfit hoffset hpayload).1 hhead).stop
  exact .bind (NoPanic.parseChunks (by omega) (by omega)) fun _ _ => .ok _

/-! ### The whole file -/

/-- The entries that follow `cache`, each under a path of its own. -/
def addEntries (xs : List WireEntry) (cache : BuildCache) : BuildCache :=
  xs.foldl (fun cache x => cache.insert x.path x.entry) cache

/-- No path occurs twice, and none is in `cache`. -/
def Distinct (xs : List WireEntry) (cache : BuildCache) : Prop :=
  (xs.map WireEntry.path).Nodup ∧ ∀ x ∈ xs, (cache.lookup x.path).isSome = false

omit [Target] in
theorem distinct_cons {x : WireEntry} {xs : List WireEntry} {cache : BuildCache} :
    Distinct (x :: xs) cache ↔ (cache.lookup x.path).isSome = false ∧ Distinct xs (cache.insert x.path x.entry) := by
  unfold Distinct
  rw [List.map_cons, List.nodup_cons, List.forall_mem_cons]
  have hinsert (hx : x.path ∉ xs.map WireEntry.path) :
      ∀ y ∈ xs, (cache.insert x.path x.entry).lookup y.path = cache.lookup y.path := by
    intro y hy
    refine AList.lookup_insert_ne fun heq => hx ?_
    rw [← heq]
    exact List.mem_map_of_mem hy
  constructor
  · rintro ⟨⟨hx, hnodup⟩, hnone, hrest⟩
    refine ⟨hnone, hnodup, fun y hy => ?_⟩
    rw [hinsert hx y hy]
    exact hrest y hy
  · rintro ⟨hnone, hnodup, hrest⟩
    have hx : x.path ∉ xs.map WireEntry.path := by
      intro hmem
      obtain ⟨y, hy, heq⟩ := List.mem_map.1 hmem
      have hfalse := hrest y hy
      rw [heq, AList.lookup_insert] at hfalse
      cases hfalse
    refine ⟨⟨hx, hnodup⟩, hnone, fun y hy => ?_⟩
    rw [← hinsert hx y hy]
    exact hrest y hy

/-- The number of chunks of some entries. -/
def chunkTotal (xs : List WireEntry) : Nat := (xs.map fun x => x.chunks.length).sum

/-- The loop over the entries accepts what ends where the checksum starts. -/
theorem parseEntries_eq_ok (hfit : bytes.length + 2 ^ 17 ≤ usizeSize) (hpayload : payloadLen ≤ bytes.length) {left : Nat}
    (hoffset : offset ≤ payloadLen) (htotal : totalChunks ≤ maxChunks) {cache result : BuildCache} :
    parseEntries bytes payloadLen left offset totalChunks cache = .ok result ↔
      ∃ xs : List WireEntry, xs.length = left ∧ (∀ x ∈ xs, x.Valid) ∧ Distinct xs cache ∧
        totalChunks + chunkTotal xs ≤ maxChunks ∧
        slice bytes offset (payloadLen - offset) = xs.flatMap WireEntry.encode ∧ result = addEntries xs cache := by
  induction left generalizing offset totalChunks cache with
  | zero =>
    unfold parseEntries
    rw [ite_else_fail_eq_ok, pure_eq_ok, Except.ok.injEq]
    constructor
    · rintro ⟨rfl, rfl⟩
      refine ⟨[], rfl, fun _ h => absurd h List.not_mem_nil, ⟨List.nodup_nil, fun _ h => absurd h List.not_mem_nil⟩,
        htotal, ?_, rfl⟩
      rw [Nat.sub_self, slice_zero_len]
      rfl
    · rintro ⟨xs, hlen, -, -, -, hslice, rfl⟩
      obtain rfl := List.length_eq_zero_iff.1 hlen
      refine ⟨?_, rfl⟩
      have hnil : payloadLen - offset = 0 := by
        rw [← @length_slice _ bytes offset (payloadLen - offset) (by omega), hslice]
        rfl
      omega
  | succ left ih =>
    unfold parseEntries
    rw [bind_eq_ok]
    constructor
    · rintro ⟨_, hentry, h⟩
      obtain ⟨x, hvalid, hle, hslice, hlimit, rfl⟩ := (parseEntry_eq_ok hfit (by omega) hpayload).1 hentry
      obtain ⟨hfresh, h⟩ := ite_fail_bind_eq_ok.1 h
      obtain ⟨xs, rfl, hvalids, hdistinct, htotals, hrest, rfl⟩ := (ih hle hlimit).1 h
      refine ⟨x :: xs, rfl, List.forall_mem_cons.2 ⟨hvalid, hvalids⟩,
        distinct_cons.2 ⟨Bool.eq_false_iff.2 hfresh, hdistinct⟩, ?_, ?_, rfl⟩
      · rw [chunkTotal, List.map_cons, List.sum_cons, ← Nat.add_assoc]
        exact htotals
      · have hsplit : payloadLen - offset = x.encode.length + (payloadLen - (offset + x.encode.length)) := by omega
        rw [List.flatMap_cons, hsplit, slice_add, hslice, hrest]
    · rintro ⟨xs, hlen, hvalids, hdistinct, htotals, hslice, rfl⟩
      obtain _ | ⟨x, xs⟩ := xs
      · cases hlen
      obtain ⟨hvalid, hvalids⟩ := List.forall_mem_cons.1 hvalids
      obtain ⟨hfresh, hdistinct⟩ := distinct_cons.1 hdistinct
      rw [chunkTotal, List.map_cons, List.sum_cons, ← Nat.add_assoc] at htotals
      rw [List.flatMap_cons] at hslice
      have hle : offset + x.encode.length ≤ payloadLen := by
        have hlen := congrArg List.length hslice
        rw [length_slice (by omega), List.length_append] at hlen
        omega
      have hsplit : payloadLen - offset = x.encode.length + (payloadLen - (offset + x.encode.length)) := by omega
      rw [hsplit, slice_add] at hslice
      obtain ⟨hx, hrest⟩ := List.append_inj hslice (length_slice (by omega))
      have hlimit : totalChunks + x.chunks.length ≤ maxChunks := by omega
      refine ⟨_, (parseEntry_eq_ok hfit (by omega) hpayload).2 ⟨x, hvalid, hle, hx, hlimit, rfl⟩, ?_⟩
      dsimp only
      rw [if_neg (Bool.eq_false_iff.1 hfresh)]
      exact (ih hle hlimit).2 ⟨xs, Nat.succ.inj hlen, hvalids, hdistinct, htotals, hrest, rfl⟩

theorem NoPanic.parseEntries (hfit : bytes.length + 2 ^ 17 ≤ usizeSize) (hpayload : payloadLen ≤ bytes.length)
    {left : Nat} (hoffset : offset ≤ payloadLen) (cache : BuildCache) :
    NoPanic (parseEntries bytes payloadLen left offset totalChunks cache) := by
  induction left generalizing offset totalChunks cache with
  | zero => exact .ite (fun _ => .ok _) fun _ => .fail _
  | succ left ih =>
    refine .bind (NoPanic.parseEntry hfit (by omega) hpayload) fun _ hentry => ?_
    obtain ⟨x, -, hle, -, -, rfl⟩ := (parseEntry_eq_ok hfit (by omega) hpayload).1 hentry
    exact .failIf fun _ => ih hle _

/-- What is reserved for chunks fits in front of the checksum. -/
theorem chunkReservations_fit (hfit : bytes.length + 2 ^ 17 ≤ usizeSize) (hpayload : payloadLen ≤ bytes.length)
    {left : Nat} (hoffset : offset ≤ payloadLen) {r : Reservation}
    (hr : r ∈ chunkReservations bytes payloadLen left offset totalChunks) :
    r.start + r.count * r.encodedSize ≤ payloadLen := by
  induction left generalizing offset totalChunks with
  | zero => exact absurd hr List.not_mem_nil
  | succ left ih =>
    unfold chunkReservations at hr
    rcases hhead : BuildCache.parseEntryHead bytes payloadLen offset totalChunks with _ | head
    · rw [hhead] at hr
      exact absurd hr List.not_mem_nil
    · have hstop := ((parseEntryHead_eq_ok hfit (by omega) hpayload).1 hhead).stop
      rw [hhead] at hr
      rcases List.mem_cons.1 hr with rfl | hr
      · exact hstop
      · rcases hchunks : BuildCache.parseChunks bytes head.fields.chunkCount.toNat head.chunksStart with _ | ⟨chunks, stop⟩
        · rw [hchunks] at hr
          exact absurd hr List.not_mem_nil
        · obtain ⟨-, rfl, -⟩ := (parseChunks_eq_ok (by omega) (by omega)).1 hchunks
          rw [hchunks] at hr
          exact ih hstop hr

variable [Crypto] {projectId : ProjectId} {releaseSequence : UInt64}

omit [Target] [Crypto] in
/-- What stands in front of the entries. -/
def headerBytes (projectId : ProjectId) (releaseSequence : UInt64) (entryCount : UInt32) : Bytes :=
  [magic, u16Bytes 2, u16Bytes (UInt16.ofNat headerSize), projectId.bytes.toList, u64Bytes releaseSequence,
    u32Bytes entryCount, zeros 8].flatten

omit [Target] [Crypto] in
@[simp] theorem length_headerBytes (entryCount : UInt32) :
    (headerBytes projectId releaseSequence entryCount).length = headerSize := by
  have hmagic : magic.length = 8 := rfl
  simp [headerBytes, headerSize, hmagic]

omit [Crypto] in
/-- The reads of the header. -/
theorem slice_eq_headerBytes (hfit : bytes.length < usizeSize) (hle : headerSize ≤ bytes.length) {entryCount : UInt32} :
    slice bytes 0 headerSize = headerBytes projectId releaseSequence entryCount ↔
      getRange bytes 0 8 = .ok magic ∧ getU16 bytes 0 8 = .ok 2 ∧
        getU16 bytes 0 10 = .ok (UInt16.ofNat headerSize) ∧ getRange bytes 12 16 = .ok projectId.bytes.toList ∧
        getU64 bytes 0 28 = .ok releaseSequence ∧ getU32 bytes 0 36 = .ok entryCount ∧ getRange bytes 40 8 = .ok (zeros 8) := by
  have hmagic : magic.length = 8 := rfl
  have hlen := @length_slice _ bytes 0 headerSize (by omega)
  unfold headerSize at hle hlen ⊢
  have hbound (n : Nat) (hn : n ≤ 48) : n ≤ bytes.length := by omega
  rw [headerBytes, eq_flatten_iff, getRange_eq_ok (by omega), getU16_eq_ok (by omega), getU16_eq_ok (by omega),
    getRange_eq_ok (by omega), getU64_eq_ok (by omega), getU32_eq_ok (by omega), getRange_eq_ok (by omega)]
  simp only [Fields, hlen, hmagic, length_u16Bytes, length_u32Bytes, length_u64Bytes, ByteArr.length_toList,
    length_zeros, Nat.reduceAdd, Nat.reduceLeDiff, true_and, and_true]
  simp (disch := omega) only [slice_slice, Nat.zero_add, hbound, true_and, headerSize]

theorem parseHeader_eq_ok (hfit : bytes.length + 2 ^ 17 ≤ usizeSize) {entryCount : Nat} :
    parseHeader bytes projectId releaseSequence = .ok entryCount ↔
      headerSize + checksumSize ≤ bytes.length ∧
        slice bytes 0 headerSize = headerBytes projectId releaseSequence (UInt32.ofNat entryCount) ∧
        (Crypto.hash (bytes.take (bytes.length - checksumSize))).toList = bytes.drop (bytes.length - checksumSize) ∧
        entryCount ≤ maxEntries ∧ headerSize + entryCount * (entryHeaderSize + 1) ≤ bytes.length - checksumSize := by
  have hzeros {b : Bytes} (hb : getRange bytes 40 8 = .ok b) : b.any (· ≠ 0) = false ↔ b = zeros 8 := by
    obtain ⟨hle, rfl⟩ := (getRange_eq_ok (by have := le_usizeSize; omega)).1 hb
    rw [zeros, List.eq_replicate_iff, length_slice hle]
    simp
  have hdiv {n : Nat} : ¬ (bytes.length - checksumSize - headerSize) / (entryHeaderSize + 1) < n ↔
      n * (entryHeaderSize + 1) ≤ bytes.length - checksumSize - headerSize := by
    rw [Nat.not_lt, Nat.le_div_iff_mul_le (Nat.succ_pos _)]
  constructor
  · intro h
    unfold parseHeader at h
    obtain ⟨hlen, h⟩ := ite_fail_bind_eq_ok.1 h
    obtain ⟨b, hmagic, h⟩ := bind_eq_ok.1 h
    obtain ⟨hmagic', h⟩ := ite_fail_bind_eq_ok.1 h
    obtain ⟨version, hversion, h⟩ := bind_eq_ok.1 h
    obtain ⟨hversion', h⟩ := ite_fail_bind_eq_ok.1 h
    obtain ⟨size, hsize, h⟩ := bind_eq_ok.1 h
    obtain ⟨hsize', h⟩ := ite_fail_bind_eq_ok.1 h
    obtain ⟨project, hproject, h⟩ := bind_eq_ok.1 h
    obtain ⟨hproject', h⟩ := ite_fail_bind_eq_ok.1 h
    obtain ⟨sequence, hsequence, h⟩ := bind_eq_ok.1 h
    obtain ⟨hsequence', h⟩ := ite_fail_bind_eq_ok.1 h
    obtain ⟨reserved, hreserved, h⟩ := bind_eq_ok.1 h
    obtain ⟨hreserved', h⟩ := ite_fail_bind_eq_ok.1 h
    obtain ⟨hchecksum, h⟩ := ite_fail_bind_eq_ok.1 h
    obtain ⟨count, hcount, h⟩ := bind_eq_ok.1 h
    obtain ⟨hlimit, h⟩ := ite_fail_bind_eq_ok.1 h
    cases h
    rw [Nat.not_lt] at hlen
    obtain ⟨hlimit, hfits⟩ := not_or.1 hlimit
    rw [hdiv] at hfits
    obtain rfl := (hzeros hreserved).1 (Bool.eq_false_iff.2 hreserved')
    obtain rfl := not_not.1 hmagic'
    obtain rfl := not_not.1 hversion'
    obtain rfl := not_not.1 hproject'
    obtain rfl := not_not.1 hsequence'
    have hsize' : size = UInt16.ofNat headerSize := by
      rw [← UInt16.toNat_inj, not_not.1 hsize']
      rfl
    subst hsize'
    refine ⟨hlen, (slice_eq_headerBytes (by omega) (by omega)).2 ?_, not_not.1 hchecksum, Nat.not_lt.1 hlimit, by omega⟩
    rw [UInt32.ofNat_toNat]
    exact ⟨hmagic, hversion, hsize, hproject, hsequence, hcount, hreserved⟩
  · rintro ⟨hlen, hslice, hchecksum, hlimit, hfits⟩
    obtain ⟨hmagic, hversion, hsize, hproject, hsequence, hcount, hreserved⟩ :=
      (slice_eq_headerBytes (by omega) (by omega)).1 hslice
    have htoNat : (UInt32.ofNat entryCount).toNat = entryCount :=
      UInt32.toNat_ofNat_of_lt' (hlimit.trans_lt (by decide))
    have hsize' : (UInt16.ofNat headerSize).toNat = headerSize := rfl
    unfold parseHeader
    dsimp only
    rw [if_neg (Nat.not_lt.2 hlen), hmagic, ok_bind, if_neg (not_not.2 rfl), hversion, ok_bind, if_neg (not_not.2 rfl),
      hsize, ok_bind, if_neg (not_not.2 hsize'), hproject, ok_bind, if_neg (not_not.2 rfl), hsequence, ok_bind,
      if_neg (not_not.2 rfl), hreserved, ok_bind, if_neg (Bool.eq_false_iff.1 ((hzeros hreserved).2 rfl)),
      if_neg (not_not.2 hchecksum), hcount, ok_bind, htoNat,
      if_neg (not_or.2 ⟨Nat.not_lt.2 hlimit, hdiv.2 (by omega)⟩)]
    rfl

theorem NoPanic.parseHeader (hfit : bytes.length + 2 ^ 17 ≤ usizeSize) :
    NoPanic (parseHeader bytes projectId releaseSequence) := by
  refine .failIf fun _ => .bind (NoPanic.getRange (by omega)) fun _ _ => .failIf fun _ => ?_
  refine .bind (NoPanic.getU16 (by omega)) fun _ _ => .failIf fun _ => .bind (NoPanic.getU16 (by omega)) fun _ _ => .failIf fun _ => ?_
  refine .bind (NoPanic.getRange (by omega)) fun _ _ => .failIf fun _ => .bind (NoPanic.getU64 (by omega)) fun _ _ => .failIf fun _ => ?_
  refine .bind (NoPanic.getRange (by omega)) fun _ _ => .failIf fun _ => .failIf fun _ => ?_
  exact .bind (NoPanic.getU32 (by omega)) fun _ _ => .failIf fun _ => .ok _

omit [Target] [Crypto] in
/-- An entry is no shorter than the parser counts on. -/
theorem WireEntry.Valid.le_length {x : WireEntry} (h : x.Valid) : entryHeaderSize + 1 ≤ x.encode.length := by
  have hpath : 0 < (strBytes x.path).length := by
    refine List.length_pos_iff.2 fun hnil => ?_
    have hcanonical := h.canonical
    rw [strBytes_eq_nil.1 hnil] at hcanonical
    cases hcanonical
  rw [x.length_encode]
  omega

omit [Target] [Crypto] in
theorem length_flatMap_ge {xs : List WireEntry} (h : ∀ x ∈ xs, x.Valid) :
    xs.length * (entryHeaderSize + 1) ≤ (xs.flatMap WireEntry.encode).length := by
  induction xs with
  | nil => exact Nat.zero_le _
  | cons x xs ih =>
    obtain ⟨hx, hxs⟩ := List.forall_mem_cons.1 h
    have hle := hx.le_length
    have hrest := ih hxs
    rw [List.flatMap_cons, List.length_append, List.length_cons, Nat.add_mul, Nat.one_mul]
    omega

omit [Target] [Crypto] in
/-- The three parts of a file. -/
theorem append_slices {bytes : Bytes} (hlen : headerSize + checksumSize ≤ bytes.length) :
    slice bytes 0 headerSize ++ slice bytes headerSize (bytes.length - checksumSize - headerSize) ++
      bytes.drop (bytes.length - checksumSize) = bytes := by
  have hsplit : headerSize + (bytes.length - checksumSize - headerSize) = bytes.length - checksumSize := by omega
  have hslice := slice_add bytes 0 headerSize (bytes.length - checksumSize - headerSize)
  rw [hsplit, Nat.zero_add] at hslice
  rw [← hslice]
  exact List.take_append_drop _ bytes

/-- A file is accepted iff it is a header, valid entries under distinct paths, and their checksum. -/
theorem parse_eq_ok (hfit : bytes.length + 2 ^ 17 ≤ usizeSize) {cache : BuildCache} :
    parse bytes projectId releaseSequence = .ok cache ↔
      ∃ xs : List WireEntry, (∀ x ∈ xs, x.Valid) ∧ Distinct xs ∅ ∧ xs.length ≤ maxEntries ∧ chunkTotal xs ≤ maxChunks ∧
        headerBytes projectId releaseSequence (UInt32.ofNat xs.length) ++ xs.flatMap WireEntry.encode ++
          (Crypto.hash (bytes.take (bytes.length - checksumSize))).toList = bytes ∧ cache = addEntries xs ∅ := by
  unfold parse
  rw [bind_eq_ok]
  constructor
  · rintro ⟨entryCount, hheader, h⟩
    obtain ⟨hlen, hslice, hchecksum, hlimit, -⟩ := (parseHeader_eq_ok hfit).1 hheader
    obtain ⟨xs, rfl, hvalid, hdistinct, htotal, hbody, rfl⟩ :=
      (parseEntries_eq_ok hfit (Nat.sub_le _ _) (by omega) (Nat.zero_le _)).1 h
    rw [Nat.zero_add] at htotal
    refine ⟨xs, hvalid, hdistinct, hlimit, htotal, ?_, rfl⟩
    rw [← hslice, ← hbody, hchecksum]
    exact append_slices hlen
  · rintro ⟨xs, hvalid, hdistinct, hlimit, htotal, hbytes, rfl⟩
    have hlen : headerSize + (xs.flatMap WireEntry.encode).length + checksumSize = bytes.length := by
      rw [← congrArg List.length hbytes, List.length_append, List.length_append, length_headerBytes, ByteArr.length_toList]
      rfl
    have hfits := length_flatMap_ge hvalid
    obtain ⟨hfront, hchecksum⟩ := List.append_inj' (hbytes.trans (append_slices (by omega)).symm) (by
      rw [ByteArr.length_toList, List.length_drop, Nat.sub_sub_self (by omega)]
      rfl)
    obtain ⟨hheader, hbody⟩ := List.append_inj hfront (by rw [length_headerBytes, length_slice (by omega)])
    refine ⟨xs.length, (parseHeader_eq_ok hfit).2 ⟨by omega, hheader.symm, hchecksum, hlimit, by omega⟩, ?_⟩
    exact (parseEntries_eq_ok hfit (Nat.sub_le _ _) (by omega) (Nat.zero_le _)).2
      ⟨xs, rfl, hvalid, hdistinct, by rw [Nat.zero_add]; exact htotal, hbody.symm, rfl⟩

theorem NoPanic.parse (hfit : bytes.length + 2 ^ 17 ≤ usizeSize) : NoPanic (parse bytes projectId releaseSequence) := by
  refine .bind (NoPanic.parseHeader hfit) fun entryCount hheader => ?_
  obtain ⟨hlen, -, -, -, -⟩ := (parseHeader_eq_ok hfit).1 hheader
  exact NoPanic.parseEntries hfit (Nat.sub_le _ _) (by omega) _

theorem reservations_fit (hfit : bytes.length + 2 ^ 17 ≤ usizeSize) {r : Reservation}
    (hr : r ∈ reservations bytes projectId releaseSequence) :
    r.start + r.count * r.encodedSize ≤ bytes.length - checksumSize := by
  unfold reservations at hr
  rcases hheader : BuildCache.parseHeader bytes projectId releaseSequence with _ | entryCount
  · rw [hheader] at hr
    exact absurd hr List.not_mem_nil
  · obtain ⟨hlen, -, -, -, hcount⟩ := (parseHeader_eq_ok hfit).1 hheader
    rw [hheader] at hr
    rcases List.mem_cons.1 hr with rfl | hr
    · exact hcount
    · exact chunkReservations_fit hfit (Nat.sub_le _ _) (by omega) hr

end

end BuildCache

end Hakutaku
