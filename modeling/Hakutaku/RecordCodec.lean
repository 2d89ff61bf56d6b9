import Hakutaku.Records

/-!
# The record codecs are bijections

Each writer in normal form (`encode_eq`): the fields in offset order, reserved bytes zero. Each
reader accepts exactly the encodings of the values that satisfy the record's own rule
(`parse_eq_ok`), so reading and writing are inverse to each other, and no reader panics.
-/

namespace Hakutaku
open Wire

/-! ### Enumerations -/

theorem Codec.parse_eq_ok {v : UInt8} {a : Codec} : Codec.parse v = .ok a ↔ v = a.toByte := by
  unfold Codec.parse
  constructor
  · intro h; split at h <;> [skip; split at h] <;> simp_all [Codec.toByte] <;> subst h <;> rfl
  · rintro rfl; cases a <;> rfl

theorem Availability.parse_eq_ok {v : UInt8} {a : Availability} : Availability.parse v = .ok a ↔ v = a.toByte := by
  unfold Availability.parse
  constructor
  · intro h; split at h <;> [skip; split at h] <;> simp_all [Availability.toByte] <;> subst h <;> rfl
  · rintro rfl; cases a <;> rfl

theorem LayoutKind.parse_eq_ok {v : UInt8} {a : LayoutKind} : LayoutKind.parse v = .ok a ↔ v = a.toByte := by
  unfold LayoutKind.parse
  constructor
  · intro h; split at h <;> [skip; split at h] <;> simp_all [LayoutKind.toByte] <;> subst h <;> rfl
  · rintro rfl; cases a <;> rfl

theorem PageKind.parse_eq_ok {v : UInt8} {a : PageKind} : PageKind.parse v = .ok a ↔ v = a.toByte := by
  unfold PageKind.parse
  constructor
  · intro h; split at h <;> [skip; split at h] <;> simp_all [PageKind.toByte] <;> subst h <;> rfl
  · rintro rfl; cases a <;> rfl

theorem AccessClass.parse_eq_ok {v : UInt8} {a : AccessClass} : AccessClass.parse v = .ok a ↔ v = a.toByte := by
  unfold AccessClass.parse
  constructor
  · intro h
    split at h <;> [skip; split at h <;> [skip; split at h <;> [skip; split at h]]] <;>
      simp_all [AccessClass.toByte] <;> subst h <;> rfl
  · rintro rfl; cases a <;> rfl

theorem NoPanic.codecParse (v : UInt8) : NoPanic (Codec.parse v) :=
  .ite (fun _ => .ok _) fun _ => .ite (fun _ => .ok _) fun _ => .fail _

theorem NoPanic.availabilityParse (v : UInt8) : NoPanic (Availability.parse v) :=
  .ite (fun _ => .ok _) fun _ => .ite (fun _ => .ok _) fun _ => .fail _

theorem NoPanic.layoutParse (v : UInt8) : NoPanic (LayoutKind.parse v) :=
  .ite (fun _ => .ok _) fun _ => .ite (fun _ => .ok _) fun _ => .fail _

theorem NoPanic.pageKindParse (v : UInt8) : NoPanic (PageKind.parse v) :=
  .ite (fun _ => .ok _) fun _ => .ite (fun _ => .ok _) fun _ => .fail _

theorem NoPanic.accessParse (v : UInt8) : NoPanic (AccessClass.parse v) :=
  .ite (fun _ => .ok _) fun _ => .ite (fun _ => .ok _) fun _ => .ite (fun _ => .ok _) fun _ =>
    .ite (fun _ => .ok _) fun _ => .fail _

/-- The stored lengths that are canonical for a plaintext length. -/
def Codec.Fits (codec : Codec) (storedLen plainLen : Nat) : Prop :=
  match codec with
  | .raw => storedLen = plainLen + 16
  | .zstd => 16 ≤ storedLen ∧ storedLen < plainLen + 16

theorem Codec.Fits.le {codec : Codec} {storedLen plainLen : Nat} (h : codec.Fits storedLen plainLen) :
    16 ≤ storedLen ∧ storedLen ≤ plainLen + 16 := by
  cases codec <;> simp only [Codec.Fits] at h <;> omega

theorem validateEncodedLength_eq_ok {codec : Codec} {s p : UInt32} {name : String} {u : Unit} :
    validateEncodedLength codec s p name = .ok u ↔ p.toNat + 16 < u32Size ∧ codec.Fits s.toNat p.toNat := by
  simp only [validateEncodedLength, bind_eq_ok, okOr_eq_ok, checkedAdd_eq_some, and_assoc, exists_and_left,
    exists_eq_left]
  cases codec <;> simp only [Codec.Fits] <;> split <;> simp_all

theorem NoPanic.validateEncodedLength {codec : Codec} {s p : UInt32} {name : String} :
    NoPanic (validateEncodedLength codec s p name) :=
  .bind (.okOr _ _) fun _ _ => .ite (fun _ => .ok _) fun _ => .fail _

/-! ### Writers in normal form -/

theorem SnapshotHeader.encode_eq (h : SnapshotHeader) (zeroSignature : Bool) :
    h.encode zeroSignature = [snapshotMagic, u16Bytes formatMajor, u16Bytes formatMinor, u32Bytes 256,
      h.projectId.bytes.toList, u64Bytes h.releaseSequence, u64Bytes 256, u64Bytes h.catalogStoredLen,
      u64Bytes h.catalogPlainLen, u64Bytes h.pageRegionOffset, u32Bytes h.pageCount, zeros 4,
      h.snapshotSalt.toList, h.noncePrefix.toList, h.signingKeyId.toList, h.sourceFingerprint.toList,
      if zeroSignature then zeros 64 else h.signature.toList, zeros 40].flatten := by
  have hm : snapshotMagic.length = 8 := rfl
  have hz : zeros 64 ++ zeros 40 = zeros 104 := rfl
  cases zeroSignature with
  | true =>
    simp only [SnapshotHeader.encode, if_true]
    rw [putAt_zeros_nil (by simp [snapshotHeaderSize, hm])]
    simp (disch := simp [snapshotHeaderSize, hm, signatureOffset]) only [putAt_zeros]
    simp [snapshotHeaderSize, hm, hz]
  | false =>
    simp only [SnapshotHeader.encode, Bool.false_eq_true, if_false, signatureOffset]
    rw [putAt_zeros_nil (by simp [snapshotHeaderSize, hm])]
    simp (disch := simp [snapshotHeaderSize, hm]) only [putAt_zeros]
    simp [snapshotHeaderSize, hm]

theorem SegmentHeader.encode_eq (h : SegmentHeader) :
    h.encode = [segmentMagic, u16Bytes formatMajor, u16Bytes formatMinor, u32Bytes 128,
      h.projectId.bytes.toList, h.segmentUid.toList, h.salt.toList, h.noncePrefix.toList,
      u32Bytes h.blockCount, zeros 4, u64Bytes h.payloadLen, u64Bytes h.fileLen, zeros 32].flatten := by
  have hm : segmentMagic.length = 8 := rfl
  simp only [SegmentHeader.encode]
  rw [putAt_zeros_nil (by simp [segmentHeaderSize, hm])]
  simp (disch := simp [segmentHeaderSize, hm]) only [putAt_zeros]
  simp [segmentHeaderSize, hm]

theorem SegmentRecord.encode_eq (r : SegmentRecord) :
    r.encode = [r.id.bytes.toList, r.uid.toList, r.salt.toList, r.noncePrefix.toList, u64Bytes r.fileLen,
      u64Bytes r.payloadLen, u32Bytes r.blockCount, [r.availability.toByte], zeros 3].flatten := by
  simp only [SegmentRecord.encode]
  rw [putAt_zeros_nil (by simp [segmentRecordSize])]
  simp (disch := simp [segmentRecordSize]) only [putAt_zeros]
  simp [segmentRecordSize]

theorem FileRecord.encode_eq (r : FileRecord) :
    r.encode = [u32Bytes r.pathOffset, u16Bytes r.pathLen, [r.layout.toByte], [r.access.toByte],
      u64Bytes r.logicalLen, u32Bytes r.firstBlock, u32Bytes r.blockCount, u32Bytes r.fixedBlockLen,
      zeros 4].flatten := by
  simp only [FileRecord.encode]
  rw [putAt_zeros_nil (by simp [fileRecordSize])]
  simp (disch := simp [fileRecordSize]) only [putAt_zeros]
  simp [fileRecordSize]

theorem PathSlot.encode_eq (r : PathSlot) : r.encode = [u32Bytes r.hash, u32Bytes r.fileIndex].flatten := by
  simp only [PathSlot.encode]
  rw [putAt_zeros_nil (by simp [pathSlotSize])]
  simp (disch := simp [pathSlotSize]) only [putAt_zeros]
  simp [pathSlotSize]

theorem PageRecord.encode_eq (r : PageRecord) :
    r.encode = [[r.kind.toByte], [r.codec.toByte], zeros 2, u32Bytes r.nonceOrdinal, u64Bytes r.relativeOffset,
      u32Bytes r.storedLen, u32Bytes r.plainLen, r.digest.toList, zeros 8].flatten := by
  simp only [PageRecord.encode]
  rw [putAt_zeros_nil (by simp [pageRecordSize])]
  simp (disch := simp [pageRecordSize]) only [putAt_zeros]
  simp [pageRecordSize]

theorem BlockRef.encode_eq (r : BlockRef) :
    r.encode = [u64Bytes r.logicalOffset, u16Bytes r.segmentOrdinal, u32Bytes r.segmentBlockOrdinal,
      u64Bytes r.physicalOffset, u32Bytes r.storedLen, u32Bytes r.plainLen, [r.codec.toByte], [0],
      r.cipherDigest.toList].flatten := by
  simp only [BlockRef.encode]
  rw [putAt_zeros_nil (by simp [blockRefSize])]
  simp (disch := simp [blockRefSize]) only [putAt_zeros]
  simp [blockRefSize, zeros]

@[simp] theorem SnapshotHeader.length_encode (h : SnapshotHeader) (z : Bool) : (h.encode z).length = snapshotHeaderSize := by
  have hm : snapshotMagic.length = 8 := rfl
  cases z <;> simp [SnapshotHeader.encode_eq, snapshotHeaderSize, hm]

@[simp] theorem SegmentHeader.length_encode (h : SegmentHeader) : h.encode.length = segmentHeaderSize := by
  have hm : segmentMagic.length = 8 := rfl
  simp [SegmentHeader.encode_eq, segmentHeaderSize, hm]

@[simp] theorem SegmentRecord.length_encode (r : SegmentRecord) : r.encode.length = segmentRecordSize := by
  simp [SegmentRecord.encode_eq, segmentRecordSize]

@[simp] theorem FileRecord.length_encode (r : FileRecord) : r.encode.length = fileRecordSize := by
  simp [FileRecord.encode_eq, fileRecordSize]

@[simp] theorem PathSlot.length_encode (r : PathSlot) : r.encode.length = pathSlotSize := by
  simp [PathSlot.encode_eq, pathSlotSize]

@[simp] theorem PageRecord.length_encode (r : PageRecord) : r.encode.length = pageRecordSize := by
  simp [PageRecord.encode_eq, pageRecordSize]

@[simp] theorem BlockRef.length_encode (r : BlockRef) : r.encode.length = blockRefSize := by
  simp [BlockRef.encode_eq, blockRefSize]

/-! ### Writers are injective -/

theorem Codec.toByte_injective : Function.Injective Codec.toByte := by
  intro a b; cases a <;> cases b <;> simp [Codec.toByte]

theorem Availability.toByte_injective : Function.Injective Availability.toByte := by
  intro a b; cases a <;> cases b <;> simp [Availability.toByte]

theorem LayoutKind.toByte_injective : Function.Injective LayoutKind.toByte := by
  intro a b; cases a <;> cases b <;> simp [LayoutKind.toByte]

theorem AccessClass.toByte_injective : Function.Injective AccessClass.toByte := by
  intro a b; cases a <;> cases b <;> simp [AccessClass.toByte]

theorem PageKind.toByte_injective : Function.Injective PageKind.toByte := by
  intro a b; cases a <;> cases b <;> simp [PageKind.toByte]

theorem SegmentRecord.encode_injective : Function.Injective SegmentRecord.encode := by
  rintro ⟨⟨i⟩, u, s, n, f, p, b, a⟩ ⟨⟨i'⟩, u', s', n', f', p', b', a'⟩ h
  simp only [encode_eq] at h
  have h := flatten_inj (by simp) h
  simp only [List.cons.injEq, u64Bytes_injective.eq_iff, u32Bytes_injective.eq_iff,
    Availability.toByte_injective.eq_iff, ← ByteArr.ext_iff] at h
  simp_all

theorem FileRecord.encode_injective : Function.Injective FileRecord.encode := by
  rintro ⟨po, pl, la, ac, ll, fb, bc, fl⟩ ⟨po', pl', la', ac', ll', fb', bc', fl'⟩ h
  simp only [encode_eq] at h
  have h := flatten_inj (by simp) h
  simp only [List.cons.injEq, u64Bytes_injective.eq_iff, u32Bytes_injective.eq_iff, u16Bytes_injective.eq_iff,
    LayoutKind.toByte_injective.eq_iff, AccessClass.toByte_injective.eq_iff] at h
  simp_all

theorem PathSlot.encode_injective : Function.Injective PathSlot.encode := by
  rintro ⟨ha, fi⟩ ⟨ha', fi'⟩ h
  simp only [encode_eq] at h
  have h := flatten_inj (by simp) h
  simp only [List.cons.injEq, u32Bytes_injective.eq_iff] at h
  simp_all

theorem PageRecord.encode_injective : Function.Injective PageRecord.encode := by
  rintro ⟨k, c, no, ro, sl, pl, di⟩ ⟨k', c', no', ro', sl', pl', di'⟩ h
  simp only [encode_eq] at h
  have h := flatten_inj (by simp) h
  simp only [List.cons.injEq, u64Bytes_injective.eq_iff, u32Bytes_injective.eq_iff,
    PageKind.toByte_injective.eq_iff, Codec.toByte_injective.eq_iff, ← ByteArr.ext_iff] at h
  simp_all

theorem BlockRef.encode_injective : Function.Injective BlockRef.encode := by
  rintro ⟨lo, so, sb, po, sl, pl, c, di⟩ ⟨lo', so', sb', po', sl', pl', c', di'⟩ h
  simp only [encode_eq] at h
  have h := flatten_inj (by simp) h
  simp only [List.cons.injEq, u64Bytes_injective.eq_iff, u32Bytes_injective.eq_iff, u16Bytes_injective.eq_iff,
    Codec.toByte_injective.eq_iff, ← ByteArr.ext_iff] at h
  simp_all

/-- With a zeroed signature slot the header still determines every other field. -/
theorem SnapshotHeader.encode_true_inj {h h' : SnapshotHeader} (he : h.encode true = h'.encode true) :
    { h with signature := h'.signature } = h' := by
  obtain ⟨⟨p⟩, rs, cs, cp, po, pc, ss, np, sk, sf, sg⟩ := h
  obtain ⟨⟨p'⟩, rs', cs', cp', po', pc', ss', np', sk', sf', sg'⟩ := h'
  simp only [encode_eq] at he
  have he := flatten_inj (by simp) he
  simp only [List.cons.injEq, u64Bytes_injective.eq_iff, u32Bytes_injective.eq_iff, ← ByteArr.ext_iff] at he
  simp_all

/-! ### Readers accept exactly the valid encodings -/

section Parse
variable [Target] {bytes : Bytes} {offset : Nat}

/-- The rule `FileRecord::parse` checks: only nonempty fixed layouts need a block length, and
content-defined layouts have none. -/
def FileRecord.Valid (r : FileRecord) : Prop :=
  ¬ (r.layout = .fixed ∧ 0 < r.logicalLen.toNat ∧ r.fixedBlockLen.toNat = 0) ∧
    ¬ (r.layout = .contentDefined ∧ r.fixedBlockLen.toNat ≠ 0)

/-- The rule `PageRecord::parse` checks. -/
def PageRecord.Valid (r : PageRecord) : Prop :=
  r.plainLen.toNat ≠ 0 ∧ r.plainLen.toNat ≤ maxPagePlainLen ∧ r.codec.Fits r.storedLen.toNat r.plainLen.toNat

/-- The rule `BlockRef::parse` checks. -/
def BlockRef.Valid (r : BlockRef) : Prop :=
  r.plainLen.toNat ≠ 0 ∧ r.plainLen.toNat ≤ maxBlockPlainLen ∧ r.codec.Fits r.storedLen.toNat r.plainLen.toNat

/-- The rule `SegmentHeader::parse` checks. -/
def SegmentHeader.Valid (h : SegmentHeader) : Prop := h.fileLen.toNat = segmentHeaderSize + h.payloadLen.toNat

/-- The rule `SnapshotHeader::parse` checks. -/
structure SnapshotHeader.Valid (h : SnapshotHeader) : Prop where
  storedLen : 16 ≤ h.catalogStoredLen.toNat ∧ h.catalogStoredLen.toNat ≤ maxCatalogStoredLen
  plainLen : h.catalogPlainLen.toNat ≠ 0 ∧ h.catalogPlainLen.toNat ≤ maxCatalogPlainLen
  pageRegionOffset : h.pageRegionOffset.toNat = snapshotHeaderSize + h.catalogStoredLen.toNat
  pageCount : h.pageCount.toNat ≤ maxPages

theorem SegmentRecord.parse_eq_ok {r : SegmentRecord} :
    SegmentRecord.parse bytes offset = .ok r ↔
      offset + segmentRecordSize < usizeSize ∧ offset + segmentRecordSize ≤ bytes.length ∧
        slice bytes offset segmentRecordSize = r.encode := by
  have hu := le_usizeSize
  simp only [SegmentRecord.parse, bind_eq_ok, checkedSlice_eq_ok, readArray_eq_ok, readU64_eq_ok, readU32_eq_ok,
    byteAt_eq_ok, Availability.parse_eq_ok, requireZero_eq_ok (show 93 ≤ 96 by decide), pure_eq_ok,
    Except.ok.injEq, SegmentRecord.encode_eq, eq_flatten_iff]
  constructor
  · rintro ⟨record, ⟨h1, h2, rfl⟩, -, ⟨-, hz⟩, id, ⟨-, -, hid⟩, uid, ⟨-, -, huid⟩, salt, ⟨-, -, hsalt⟩,
      np, ⟨-, -, hnp⟩, fl, ⟨-, -, hfl⟩, pl, ⟨-, -, hpl⟩, bc, ⟨-, -, hbc⟩, _, ⟨-, hav⟩, av, rfl, rfl⟩
    have hlen := length_slice h2
    refine ⟨h1, h2, ?_⟩
    simp [Fields, segmentRecordSize, *] at *
  · rintro ⟨h1, h2, h⟩
    have hlen := length_slice h2
    simp only [Fields, hlen, ByteArr.length_toList, length_u64Bytes, length_u32Bytes, List.length_cons,
      List.length_nil, length_zeros, Nat.zero_add] at h
    obtain ⟨-, hid, -, huid, -, hsalt, -, hnp, -, hfl, -, hpl, -, hbc, -, hav, -, hz, -⟩ := h
    simp only [Nat.reduceAdd, segmentRecordSize] at *
    exact ⟨_, ⟨h1, h2, rfl⟩, (), ⟨hlen.ge, hz⟩, _, ⟨by omega, by omega, hid⟩, _, ⟨by omega, by omega, huid⟩,
      _, ⟨by omega, by omega, hsalt⟩, _, ⟨by omega, by omega, hnp⟩, _, ⟨by omega, by omega, hfl⟩,
      _, ⟨by omega, by omega, hpl⟩, _, ⟨by omega, by omega, hbc⟩, _, ⟨by omega, hav⟩, _, rfl, rfl⟩

theorem PathSlot.parse_eq_ok {r : PathSlot} :
    PathSlot.parse bytes offset = .ok r ↔
      offset + pathSlotSize < usizeSize ∧ offset + pathSlotSize ≤ bytes.length ∧
        slice bytes offset pathSlotSize = r.encode := by
  have hu := le_usizeSize
  simp only [PathSlot.parse, bind_eq_ok, checkedSlice_eq_ok, readU32_eq_ok, pure_eq_ok, Except.ok.injEq,
    PathSlot.encode_eq, eq_flatten_iff]
  constructor
  · rintro ⟨record, ⟨h1, h2, rfl⟩, hash, ⟨-, -, hh⟩, fi, ⟨-, -, hf⟩, rfl⟩
    have hlen := length_slice h2
    refine ⟨h1, h2, ?_⟩
    simp [Fields, pathSlotSize, *] at *
  · rintro ⟨h1, h2, h⟩
    have hlen := length_slice h2
    simp only [Fields, hlen, length_u32Bytes, Nat.zero_add] at h
    obtain ⟨-, hh, -, hf, -⟩ := h
    simp only [pathSlotSize] at *
    exact ⟨_, ⟨h1, h2, rfl⟩, _, ⟨by omega, by omega, hh⟩, _, ⟨by omega, by omega, hf⟩, rfl⟩

theorem FileRecord.parse_eq_ok {r : FileRecord} :
    FileRecord.parse bytes offset = .ok r ↔
      offset + fileRecordSize < usizeSize ∧ offset + fileRecordSize ≤ bytes.length ∧
        slice bytes offset fileRecordSize = r.encode ∧ r.Valid := by
  have hu := le_usizeSize
  simp only [FileRecord.parse, bind_eq_ok, checkedSlice_eq_ok, readU64_eq_ok, readU32_eq_ok, readU16_eq_ok,
    byteAt_eq_ok, LayoutKind.parse_eq_ok, AccessClass.parse_eq_ok, requireZero_eq_ok (show 28 ≤ 32 by decide),
    fail_bind, ite_fail_eq_ok, pure_eq_ok, Except.ok.injEq, FileRecord.encode_eq, eq_flatten_iff]
  constructor
  · rintro ⟨record, ⟨h1, h2, rfl⟩, -, ⟨-, hz⟩, po, ⟨-, -, hpo⟩, pl, ⟨-, -, hpl⟩, _, ⟨-, hlay⟩, lay, rfl, _, ⟨-, hacc⟩,
      acc, rfl, ll, ⟨-, -, hll⟩, fb, ⟨-, -, hfb⟩, bc, ⟨-, -, hbc⟩, fl, ⟨-, -, hfl⟩, hv1, hv2, rfl⟩
    have hlen := length_slice h2
    refine ⟨h1, h2, ?_, hv1, hv2⟩
    clear hv1 hv2
    simp [Fields, fileRecordSize, *] at *
  · rintro ⟨h1, h2, h, hv1, hv2⟩
    have hlen := length_slice h2
    simp only [Fields, hlen, length_u64Bytes, length_u32Bytes, length_u16Bytes, List.length_cons,
      List.length_nil, length_zeros, Nat.zero_add] at h
    obtain ⟨-, hpo, -, hpl, -, hlay, -, hacc, -, hll, -, hfb, -, hbc, -, hfl, -, hz, -⟩ := h
    simp only [Nat.reduceAdd, fileRecordSize] at *
    exact ⟨_, ⟨h1, h2, rfl⟩, (), ⟨hlen.ge, hz⟩, _, ⟨by omega, by omega, hpo⟩, _, ⟨by omega, by omega, hpl⟩,
      _, ⟨by omega, hlay⟩, _, rfl, _, ⟨by omega, hacc⟩, _, rfl, _, ⟨by omega, by omega, hll⟩,
      _, ⟨by omega, by omega, hfb⟩, _, ⟨by omega, by omega, hbc⟩, _, ⟨by omega, by omega, hfl⟩, hv1, hv2, rfl⟩

theorem PageRecord.parse_eq_ok {r : PageRecord} :
    PageRecord.parse bytes offset = .ok r ↔
      offset + pageRecordSize < usizeSize ∧ offset + pageRecordSize ≤ bytes.length ∧
        slice bytes offset pageRecordSize = r.encode ∧ r.Valid := by
  have hu := le_usizeSize
  simp only [PageRecord.parse, bind_eq_ok, checkedSlice_eq_ok, readArray_eq_ok, readU64_eq_ok, readU32_eq_ok,
    byteAt_eq_ok, Codec.parse_eq_ok, PageKind.parse_eq_ok, requireZero_eq_ok (show 2 ≤ 4 by decide),
    requireZero_eq_ok (show 56 ≤ 64 by decide), validateEncodedLength_eq_ok, fail_bind, ite_fail_eq_ok, pure_eq_ok,
    Except.ok.injEq, PageRecord.encode_eq, eq_flatten_iff]
  constructor
  · rintro ⟨record, ⟨h1, h2, rfl⟩, -, ⟨-, hz⟩, -, ⟨-, hz'⟩, _, ⟨-, hc⟩, co, rfl, sl, ⟨-, -, hsl⟩, pl, ⟨-, -, hpl⟩,
      hv1, hv2, -, ⟨hv3, hv4⟩, _, ⟨-, hk⟩, ki, rfl, no, ⟨-, -, hno⟩, ro, ⟨-, -, hro⟩, di, ⟨-, -, hdi⟩, rfl⟩
    have hlen := length_slice h2
    refine ⟨h1, h2, ?_, fun h => hv2 (.inl h), Nat.not_lt.1 fun h => hv2 (.inr h), hv4⟩
    clear hv1 hv2 hv3 hv4
    simp [Fields, pageRecordSize, *] at *
  · rintro ⟨h1, h2, h, hv1, hv2, hv3⟩
    have hlen := length_slice h2
    simp only [Fields, hlen, length_u64Bytes, length_u32Bytes, ByteArr.length_toList, List.length_cons,
      List.length_nil, length_zeros, Nat.zero_add] at h
    obtain ⟨-, hk, -, hc, -, hz, -, hno, -, hro, -, hsl, -, hpl, -, hdi, -, hz', -⟩ := h
    have hs := hv3.le
    simp only [Nat.reduceAdd, pageRecordSize, maxPagePlainLen, u32Size] at *
    exact ⟨_, ⟨h1, h2, rfl⟩, (), ⟨by omega, hz⟩, (), ⟨hlen.ge, hz'⟩, _, ⟨by omega, hc⟩, _, rfl,
      _, ⟨by omega, by omega, hsl⟩, _, ⟨by omega, by omega, hpl⟩, by omega, by omega, (), ⟨by omega, hv3⟩,
      _, ⟨by omega, hk⟩, _, rfl, _, ⟨by omega, by omega, hno⟩, _, ⟨by omega, by omega, hro⟩,
      _, ⟨by omega, by omega, hdi⟩, rfl⟩

theorem BlockRef.parse_eq_ok {r : BlockRef} :
    BlockRef.parse bytes offset = .ok r ↔
      offset + blockRefSize < usizeSize ∧ offset + blockRefSize ≤ bytes.length ∧
        slice bytes offset blockRefSize = r.encode ∧ r.Valid := by
  have hu := le_usizeSize
  simp only [BlockRef.parse, bind_eq_ok, checkedSlice_eq_ok, readArray_eq_ok, readU64_eq_ok, readU32_eq_ok,
    readU16_eq_ok, byteAt_eq_ok, Codec.parse_eq_ok, validateEncodedLength_eq_ok, fail_bind, ite_fail_eq_ok,
    pure_eq_ok, Except.ok.injEq, BlockRef.encode_eq, eq_flatten_iff]
  constructor
  · rintro ⟨record, ⟨h1, h2, rfl⟩, re, ⟨-, hre⟩, hre0, _, ⟨-, hc⟩, co, rfl, sl, ⟨-, -, hsl⟩, pl, ⟨-, -, hpl⟩,
      hv1, -, ⟨hv2, hv3⟩, lo, ⟨-, -, hlo⟩, so, ⟨-, -, hso⟩, sb, ⟨-, -, hsb⟩, po, ⟨-, -, hpo⟩, di, ⟨-, -, hdi⟩, rfl⟩
    have hlen := length_slice h2
    refine ⟨h1, h2, ?_, fun h => hv1 (.inl h), Nat.not_lt.1 fun h => hv1 (.inr h), hv3⟩
    rw [ne_eq, not_not] at hre0
    subst hre0
    clear hv1 hv2 hv3
    simp [Fields, blockRefSize, *] at *
  · rintro ⟨h1, h2, h, hv1, hv2, hv3⟩
    have hlen := length_slice h2
    simp only [Fields, hlen, length_u64Bytes, length_u32Bytes, length_u16Bytes, ByteArr.length_toList,
      List.length_cons, List.length_nil, Nat.zero_add] at h
    obtain ⟨-, hlo, -, hso, -, hsb, -, hpo, -, hsl, -, hpl, -, hc, -, hre, -, hdi, -⟩ := h
    simp only [Nat.reduceAdd, blockRefSize, maxBlockPlainLen, u32Size] at *
    exact ⟨_, ⟨h1, h2, rfl⟩, _, ⟨by omega, hre⟩, by simp, _, ⟨by omega, hc⟩, _, rfl, _, ⟨by omega, by omega, hsl⟩,
      _, ⟨by omega, by omega, hpl⟩, by omega, (), ⟨by omega, hv3⟩, _, ⟨by omega, by omega, hlo⟩,
      _, ⟨by omega, by omega, hso⟩, _, ⟨by omega, by omega, hsb⟩, _, ⟨by omega, by omega, hpo⟩,
      _, ⟨by omega, by omega, hdi⟩, rfl⟩

theorem SegmentHeader.parse_eq_ok {h : SegmentHeader} :
    SegmentHeader.parse bytes = .ok h ↔
      segmentHeaderSize ≤ bytes.length ∧ slice bytes 0 segmentHeaderSize = h.encode ∧ h.Valid := by
  have hu := le_usizeSize
  have hm : segmentMagic.length = 8 := rfl
  simp only [SegmentHeader.parse, bind_eq_ok, requireLen_eq_ok, requireMagic_eq_ok, readArray_eq_ok,
    readU64_eq_ok, readU32_eq_ok, readU16_eq_ok, requireZero_eq_ok (show 76 ≤ 80 by decide),
    requireZero_eq_ok (show 96 ≤ segmentHeaderSize by decide), okOr_eq_ok, checkedAdd_eq_some,
    fail_bind, ite_fail_eq_ok, pure_eq_ok, Except.ok.injEq, SegmentHeader.encode_eq, eq_flatten_iff]
  constructor
  · rintro ⟨-, hle, -, ⟨-, hmag⟩, ma, ⟨-, -, hma⟩, mi, ⟨-, -, hmi⟩, hver, hs, ⟨-, -, hhs⟩, hs', -, ⟨-, hz⟩, -, ⟨-, hz'⟩,
      pl, ⟨-, -, hpl⟩, fl, ⟨-, -, hfl⟩, e, ⟨-, he⟩, hfle, pid, ⟨-, -, hpid⟩, uid, ⟨-, -, huid⟩, salt, ⟨-, -, hsalt⟩,
      np, ⟨-, -, hnp⟩, bc, ⟨-, -, hbc⟩, rfl⟩
    have hlen := length_slice_zero hle
    obtain ⟨rfl, rfl⟩ : ma = formatMajor ∧ mi = formatMinor := by simpa only [not_or, not_not] using hver
    obtain rfl : hs = 128 := UInt32.toNat_inj.1 (not_not.1 hs')
    refine ⟨hle, ?_, (not_not.1 hfle).trans he⟩
    clear hs' hver hfle he
    simp [Fields, segmentHeaderSize, slice_slice, *] at *
  · rintro ⟨hle, h, hv⟩
    have hlen := length_slice_zero hle
    simp only [Fields, hlen, length_u64Bytes, length_u32Bytes, length_u16Bytes, ByteArr.length_toList, hm,
      length_zeros, Nat.zero_add] at h
    obtain ⟨-, hmag, -, hma, -, hmi, -, hhs, -, hpid, -, huid, -, hsalt, -, hnp, -, hbc, -, hz, -, hpl, -, hfl, -, hz', -⟩ := h
    simp (disch := simp) only [Nat.reduceAdd, Nat.reduceSub, segmentHeaderSize, slice_slice, Nat.zero_add, SegmentHeader.Valid, u64Size] at *
    have hfl' := h.fileLen.toNat_lt
    refine ⟨(), hle, (), ⟨by omega, hmag⟩, _, ⟨by omega, by omega, hma⟩, _, ⟨by omega, by omega, hmi⟩, by simp,
      _, ⟨by omega, by omega, hhs⟩, by simp, (), ⟨by omega, hz⟩, (), ⟨by omega, hz'⟩,
      _, ⟨by omega, by omega, hpl⟩, _, ⟨by omega, by omega, hfl⟩, _, ⟨by omega, rfl⟩, by omega,
      _, ⟨by omega, by omega, hpid⟩, _, ⟨by omega, by omega, huid⟩, _, ⟨by omega, by omega, hsalt⟩,
      _, ⟨by omega, by omega, hnp⟩, _, ⟨by omega, by omega, hbc⟩, rfl⟩

theorem SnapshotHeader.parse_eq_ok {h : SnapshotHeader} :
    SnapshotHeader.parse bytes = .ok h ↔
      snapshotHeaderSize ≤ bytes.length ∧ slice bytes 0 snapshotHeaderSize = h.encode false ∧ h.Valid := by
  have hu := le_usizeSize
  have hm : snapshotMagic.length = 8 := rfl
  simp only [SnapshotHeader.parse, bind_eq_ok, requireLen_eq_ok, requireMagic_eq_ok, readArray_eq_ok,
    readU64_eq_ok, readU32_eq_ok, readU16_eq_ok, requireZero_eq_ok (show 76 ≤ 80 by decide),
    requireZero_eq_ok (show signatureOffset + signatureLen ≤ snapshotHeaderSize by decide), okOr_eq_ok,
    checkedAdd_eq_some, fail_bind, ite_fail_eq_ok, pure_eq_ok, Except.ok.injEq, SnapshotHeader.encode_eq,
    eq_flatten_iff, Bool.false_eq_true, if_false]
  constructor
  · rintro ⟨-, hle, -, ⟨-, hmag⟩, ma, ⟨-, -, hma⟩, mi, ⟨-, -, hmi⟩, hver, hs, ⟨-, -, hhs⟩, hs', co, ⟨-, -, hco⟩, hco',
      sl, ⟨-, -, hsl⟩, pl, ⟨-, -, hpl⟩, hsl', hpl', e, ⟨-, he⟩, po, ⟨-, -, hpo⟩, hpo', pc, ⟨-, -, hpc⟩, hpc', -, ⟨-, hz⟩,
      -, ⟨-, hz'⟩, pid, ⟨-, -, hpid⟩, rs, ⟨-, -, hrs⟩, salt, ⟨-, -, hsalt⟩, np, ⟨-, -, hnp⟩, kid, ⟨-, -, hkid⟩,
      sf, ⟨-, -, hsf⟩, sig, ⟨-, -, hsig⟩, rfl⟩
    have hlen := length_slice_zero hle
    obtain ⟨rfl, rfl⟩ : ma = formatMajor ∧ mi = formatMinor := by simpa only [not_or, not_not] using hver
    obtain rfl : hs = 256 := UInt32.toNat_inj.1 (not_not.1 hs')
    obtain rfl : co = 256 := UInt64.toNat_inj.1 (not_not.1 hco')
    refine ⟨hle, ?_, ⟨not_not.1 hsl', ⟨fun h => hpl' (.inl h), Nat.not_lt.1 fun h => hpl' (.inr h)⟩,
      (not_not.1 hpo').trans he, Nat.not_lt.1 hpc'⟩⟩
    clear hs' hver hco' hsl' hpl' hpo' hpc' he
    simp [Fields, snapshotHeaderSize, signatureOffset, signatureLen, slice_slice, *] at *
  · rintro ⟨hle, h, hv⟩
    have hlen := length_slice_zero hle
    simp only [Fields, hlen, length_u64Bytes, length_u32Bytes, length_u16Bytes, ByteArr.length_toList, hm,
      length_zeros, Nat.zero_add] at h
    obtain ⟨-, hmag, -, hma, -, hmi, -, hhs, -, hpid, -, hrs, -, hco, -, hsl, -, hpl, -, hpo, -, hpc, -, hz, -, hsalt,
      -, hnp, -, hkid, -, hsf, -, hsig, -, hz', -⟩ := h
    obtain ⟨hv1, hv2, hv3, hv4⟩ := hv
    simp (disch := simp) only [Nat.reduceAdd, Nat.reduceSub, snapshotHeaderSize, slice_slice, Nat.zero_add,
      u64Size, signatureOffset, signatureLen] at *
    have hpo' := h.pageRegionOffset.toNat_lt
    refine ⟨(), hle, (), ⟨by omega, hmag⟩, _, ⟨by omega, by omega, hma⟩, _, ⟨by omega, by omega, hmi⟩, by simp,
      _, ⟨by omega, by omega, hhs⟩, by simp, _, ⟨by omega, by omega, hco⟩, by simp,
      _, ⟨by omega, by omega, hsl⟩, _, ⟨by omega, by omega, hpl⟩, by omega, by omega, _, ⟨by omega, rfl⟩,
      _, ⟨by omega, by omega, hpo⟩, by omega, _, ⟨by omega, by omega, hpc⟩, by omega,
      (), ⟨by omega, hz⟩, (), ⟨by omega, hz'⟩,
      _, ⟨by omega, by omega, hpid⟩, _, ⟨by omega, by omega, hrs⟩, _, ⟨by omega, by omega, hsalt⟩,
      _, ⟨by omega, by omega, hnp⟩, _, ⟨by omega, by omega, hkid⟩, _, ⟨by omega, by omega, hsf⟩,
      _, ⟨by omega, by omega, hsig⟩, rfl⟩

/-! ### Readers do not panic -/

theorem length_of_checkedSlice {n : Nat} {s : Bytes} (h : checkedSlice bytes offset n = .ok s) : s.length = n := by
  obtain ⟨-, h2, rfl⟩ := checkedSlice_eq_ok.1 h
  exact length_slice h2

theorem NoPanic.segmentRecordParse : NoPanic (SegmentRecord.parse bytes offset) := by
  refine .bind .checkedSlice fun record h => .bind .requireZero fun _ _ => ?_
  have hlen : 92 < record.length := by rw [length_of_checkedSlice h]; decide
  exact .bind .readArray fun _ _ => .bind .readArray fun _ _ => .bind .readArray fun _ _ =>
    .bind .readArray fun _ _ => .bind .readU64 fun _ _ => .bind .readU64 fun _ _ => .bind .readU32 fun _ _ =>
    .bind (.byteAt hlen) fun _ _ => .bind (.availabilityParse _) fun _ _ => .ok _

theorem NoPanic.pathSlotParse : NoPanic (PathSlot.parse bytes offset) :=
  .bind .checkedSlice fun _ _ => .bind .readU32 fun _ _ => .bind .readU32 fun _ _ => .ok _

theorem NoPanic.fileRecordParse : NoPanic (FileRecord.parse bytes offset) := by
  refine .bind .checkedSlice fun record h => .bind .requireZero fun _ _ => ?_
  have hlen : 28 < record.length := by rw [length_of_checkedSlice h]; decide
  exact .bind .readU32 fun _ _ => .bind .readU16 fun _ _ => .bind (.byteAt (by omega)) fun _ _ =>
    .bind (.layoutParse _) fun _ _ => .bind (.byteAt (by omega)) fun _ _ => .bind (.accessParse _) fun _ _ =>
    .bind .readU64 fun _ _ => .bind .readU32 fun _ _ => .bind .readU32 fun _ _ => .bind .readU32 fun _ _ =>
    .failIf fun _ => .failIf fun _ => .ok _

theorem NoPanic.pageRecordParse : NoPanic (PageRecord.parse bytes offset) := by
  refine .bind .checkedSlice fun record h => .bind .requireZero fun _ _ => .bind .requireZero fun _ _ => ?_
  have hlen : 28 < record.length := by rw [length_of_checkedSlice h]; decide
  exact .bind (.byteAt (by omega)) fun _ _ => .bind (.codecParse _) fun _ _ => .bind .readU32 fun _ _ =>
    .bind .readU32 fun _ _ => .failIf fun _ => .failIf fun _ => .bind .validateEncodedLength fun _ _ =>
    .bind (.byteAt (by omega)) fun _ _ => .bind (.pageKindParse _) fun _ _ => .bind .readU32 fun _ _ =>
    .bind .readU64 fun _ _ => .bind .readArray fun _ _ => .ok _

theorem NoPanic.blockRefParse : NoPanic (BlockRef.parse bytes offset) := by
  refine .bind .checkedSlice fun record h => ?_
  have hlen : 31 < record.length := by rw [length_of_checkedSlice h]; decide
  exact .bind (.byteAt (by omega)) fun _ _ => .failIf fun _ => .bind (.byteAt (by omega)) fun _ _ =>
    .bind (.codecParse _) fun _ _ => .bind .readU32 fun _ _ => .bind .readU32 fun _ _ => .failIf fun _ =>
    .bind .validateEncodedLength fun _ _ => .bind .readU64 fun _ _ => .bind .readU16 fun _ _ =>
    .bind .readU32 fun _ _ => .bind .readU64 fun _ _ => .bind .readArray fun _ _ => .ok _

end Parse

end Hakutaku
