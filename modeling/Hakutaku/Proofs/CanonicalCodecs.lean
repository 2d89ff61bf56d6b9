import Hakutaku.PageCodec
import Hakutaku.ReaderSpec

/-!
# Headers, references and pages are canonical

Reading what was written gives the value back, and writing what was read gives the bytes back. For the
snapshot header this is what makes the signature sound: the verifier hashes the re-encoded header, and no
byte of the file before the page region escapes it but the signature itself.
-/

namespace Hakutaku
open Wire

section
variable [Target] {snapshot snapshot' ciphertext ciphertext' : Bytes} {h h' : SnapshotHeader}

omit [Target] in
/-- The two encodings of a header differ in one field of 64 bytes at offset 152. -/
theorem SnapshotHeader.encode_split (h : SnapshotHeader) : ∃ pre post : Bytes, pre.length = signatureOffset ∧
    ∀ z : Bool, h.encode z = pre ++ ((if z then zeros 64 else h.signature.toList) ++ post) := by
  refine ⟨[snapshotMagic, u16Bytes formatMajor, u16Bytes formatMinor, u32Bytes 256, h.projectId.bytes.toList,
    u64Bytes h.releaseSequence, u64Bytes 256, u64Bytes h.catalogStoredLen, u64Bytes h.catalogPlainLen,
    u64Bytes h.pageRegionOffset, u32Bytes h.pageCount, zeros 4, h.snapshotSalt.toList, h.noncePrefix.toList,
    h.signingKeyId.toList, h.sourceFingerprint.toList].flatten, zeros 40, ?_, fun z => ?_⟩
  · have hm : snapshotMagic.length = 8 := rfl
    simp [hm, signatureOffset]
  · simp only [SnapshotHeader.encode_eq, List.flatten_cons, List.flatten_nil, List.append_nil, List.append_assoc]

omit [Target] in
/-- The zeroed signature only touches its own bytes. -/
theorem SnapshotHeader.getElem?_encode (h : SnapshotHeader) {i : Nat}
    (hi : i < signatureOffset ∨ signatureOffset + signatureLen ≤ i) : (h.encode false)[i]? = (h.encode true)[i]? := by
  obtain ⟨pre, post, hlen, hencode⟩ := h.encode_split
  rw [hencode, hencode]
  rcases hi with hi | hi
  · rw [List.getElem?_append_left (by omega), List.getElem?_append_left (by omega)]
  · have hfield : ∀ z : Bool, (pre ++ ((if z then zeros 64 else h.signature.toList) ++ post))[i]? =
        post[i - signatureOffset - signatureLen]? := by
      intro z
      have hlenField : (if z then zeros 64 else h.signature.toList).length = signatureLen := by
        cases z <;> simp [signatureLen]
      rw [List.getElem?_append_right (by omega), List.getElem?_append_right (by omega), hlen, hlenField]
    rw [hfield, hfield]

/-- Byte `i` of an accepted snapshot, up to the page region. -/
theorem getElem?_snapshot (hparse : SnapshotHeader.parse snapshot = .ok h)
    (hread : readExact snapshot snapshotHeaderSize h.catalogStoredLen.toNat = .ok ciphertext) {i : Nat}
    (hi : i < h.pageRegionOffset.toNat) : snapshot[i]? = (h.encode false ++ ciphertext)[i]? := by
  obtain ⟨hle, hbytes, hvalid⟩ := SnapshotHeader.parse_eq_ok.1 hparse
  obtain ⟨hend, rfl⟩ := readExact_eq_ok.1 hread
  have hjoin := slice_add snapshot 0 snapshotHeaderSize h.catalogStoredLen.toNat
  rw [Nat.zero_add] at hjoin
  rw [← hbytes, ← hjoin, getElem?_slice, ← hvalid.pageRegionOffset, if_pos hi, Nat.zero_add]

/-- The signed bytes of a snapshot determine everything before its page region but the signature. -/
theorem snapshot_determined (hparse : SnapshotHeader.parse snapshot = .ok h)
    (hread : readExact snapshot snapshotHeaderSize h.catalogStoredLen.toNat = .ok ciphertext)
    (hparse' : SnapshotHeader.parse snapshot' = .ok h')
    (hread' : readExact snapshot' snapshotHeaderSize h'.catalogStoredLen.toNat = .ok ciphertext')
    (hsigned : h.encode true ++ ciphertext = h'.encode true ++ ciphertext') :
    h'.pageRegionOffset = h.pageRegionOffset ∧ ciphertext' = ciphertext ∧
      ∀ i < h.pageRegionOffset.toNat, i < signatureOffset ∨ signatureOffset + signatureLen ≤ i →
        snapshot'[i]? = snapshot[i]? := by
  have hlen : (h.encode true).length = (h'.encode true).length := by
    rw [SnapshotHeader.length_encode, SnapshotHeader.length_encode]
  obtain ⟨hencode, rfl⟩ := List.append_inj hsigned hlen
  have hheader := SnapshotHeader.encode_true_inj hencode
  have hoffset : h'.pageRegionOffset = h.pageRegionOffset := by rw [← hheader]
  refine ⟨hoffset, rfl, fun i hi hout => ?_⟩
  rw [getElem?_snapshot hparse hread hi, getElem?_snapshot hparse' hread' (by rwa [hoffset])]
  rcases Nat.lt_or_ge i snapshotHeaderSize with hlt | hge
  · rw [List.getElem?_append_left (by rwa [SnapshotHeader.length_encode]),
      List.getElem?_append_left (by rwa [SnapshotHeader.length_encode]), h.getElem?_encode hout,
      h'.getElem?_encode hout, hencode]
  · rw [List.getElem?_append_right (by rwa [SnapshotHeader.length_encode]),
      List.getElem?_append_right (by rwa [SnapshotHeader.length_encode]), SnapshotHeader.length_encode,
      SnapshotHeader.length_encode]

end

/-- A codec of `size` bytes in which every valid value has one encoding and every accepted input is one. -/
structure CanonicalCodec {α : Type} (parse : Bytes → Result α) (encode : α → Bytes) (size : Nat) (valid : α → Prop) : Prop where
  parse_encode : ∀ x, valid x → ∀ tail, parse (encode x ++ tail) = .ok x
  encode_parse : ∀ bytes x, parse bytes = .ok x → valid x ∧ size ≤ bytes.length ∧ encode x = slice bytes 0 size

/-- The codec of a record that is accepted exactly when its first bytes are a valid encoding. -/
theorem CanonicalCodec.of_eq_ok {α : Type} {parse : Bytes → Result α} {encode : α → Bytes} {size : Nat} {valid : α → Prop}
    (hsize : ∀ x, (encode x).length = size)
    (h : ∀ bytes x, parse bytes = .ok x ↔ size ≤ bytes.length ∧ slice bytes 0 size = encode x ∧ valid x) :
    CanonicalCodec parse encode size valid where
  parse_encode x hx tail := by
    refine (h _ x).2 ⟨by rw [List.length_append, hsize]; omega, ?_, hx⟩
    rw [slice_append_left (by rw [hsize, Nat.zero_add]), ← hsize x, slice_full]
  encode_parse bytes x hparse := by
    obtain ⟨hle, hbytes, hx⟩ := (h bytes x).1 hparse
    exact ⟨hx, hle, hbytes.symm⟩

theorem canonical_codecs [Target] :
    CanonicalCodec SnapshotHeader.parse (fun h => h.encode false) snapshotHeaderSize SnapshotHeader.Valid ∧
      CanonicalCodec SegmentHeader.parse SegmentHeader.encode segmentHeaderSize SegmentHeader.Valid ∧
      (∀ (r : BlockRef) (out tail : Bytes), r.Valid → out.length + blockRefSize < usizeSize →
        BlockRef.parse (out ++ r.encode ++ tail) out.length = .ok r) ∧
      (∀ (bytes : Bytes) (offset : Nat) (r : BlockRef), BlockRef.parse bytes offset = .ok r →
        r.Valid ∧ offset + blockRefSize ≤ bytes.length ∧ r.encode = slice bytes offset blockRefSize) ∧
      (∀ (first : UInt32) (records : List BlockRef), 1 ≤ records.length → records.length ≤ blocksPerMapPage →
        (∀ r ∈ records, r.Valid) → ∃ page, encodeMapPage first records = .ok page ∧
          parseMapPage page first.toNat = .ok records ∧
          ∀ index r, mapPageRecord page index = .ok r ↔ records[index]? = some r) ∧
      (∀ (bytes : Bytes) (first : UInt32) (records : List BlockRef), parseMapPage bytes first.toNat = .ok records →
        (∀ index r, mapPageRecord bytes index = .ok r ↔ records[index]? = some r) ∧ (∀ r ∈ records, r.Valid) ∧
          (records.length ≤ blocksPerMapPage → encodeMapPage first records = .ok bytes)) ∧
      (∀ (first : UInt32) (ids : List (ByteArr 32)), 1 ≤ ids.length → ids.length ≤ reusePerPage →
        ∃ page, encodeReusePage first ids = .ok page ∧ parseReusePage page first.toNat = .ok ids) ∧
      (∀ (bytes : Bytes) (first : UInt32) (ids : List (ByteArr 32)), parseReusePage bytes first.toNat = .ok ids →
        ids.length ≤ reusePerPage → encodeReusePage first ids = .ok bytes) ∧
      ∀ (snapshot snapshot' ciphertext ciphertext' : Bytes) (h h' : SnapshotHeader),
        SnapshotHeader.parse snapshot = .ok h →
        readExact snapshot snapshotHeaderSize h.catalogStoredLen.toNat = .ok ciphertext →
        SnapshotHeader.parse snapshot' = .ok h' →
        readExact snapshot' snapshotHeaderSize h'.catalogStoredLen.toNat = .ok ciphertext' →
        h.encode true ++ ciphertext = h'.encode true ++ ciphertext' →
        h'.pageRegionOffset = h.pageRegionOffset ∧ ciphertext' = ciphertext ∧
          ∀ i < h.pageRegionOffset.toNat, i < signatureOffset ∨ signatureOffset + signatureLen ≤ i →
            snapshot'[i]? = snapshot[i]? := by
  have hu := le_usizeSize
  refine ⟨.of_eq_ok (fun h => h.length_encode false) fun _ _ => SnapshotHeader.parse_eq_ok,
    .of_eq_ok SegmentHeader.length_encode fun _ _ => SegmentHeader.parse_eq_ok, fun r out tail hvalid hbound => ?_,
    fun bytes offset r hparse => ?_, fun first records hone hmax hvalid => ?_, fun bytes first records hparse => ?_,
    fun first ids hone hmax => ?_, fun bytes first ids hparse hmax => ?_,
    fun _ _ _ _ _ _ hparse hread hparse' hread' hsigned => snapshot_determined hparse hread hparse' hread' hsigned⟩
  · have hlen := r.length_encode
    refine BlockRef.parse_eq_ok.2 ⟨hbound, ?_, ?_, hvalid⟩
    · rw [List.length_append, List.length_append]
      omega
    · rw [← hlen]
      exact slice_append_mid out r.encode tail
  · obtain ⟨-, hend, hbytes, hvalid⟩ := BlockRef.parse_eq_ok.1 hparse
    exact ⟨hvalid, hend, hbytes.symm⟩
  · have hne : records ≠ [] := List.ne_nil_of_length_pos hone
    have hcount : ¬ (records = [] ∨ blocksPerMapPage < records.length) := by
      rintro (h | h)
      · exact hne h
      · omega
    have hpage : encodeMapPage first records =
        .ok (pageHeader mapPageMagic 48 first ++ records.flatMap BlockRef.encode) := by
      rw [encodeMapPage, if_neg hcount]
      rfl
    have hsize : records.length * blockRefSize ≤ 341 * 48 := Nat.mul_le_mul_right _ hmax
    have hbound : (pageHeader mapPageMagic 48 first ++ records.flatMap BlockRef.encode).length < usizeSize := by
      rw [List.length_append, length_pageHeader rfl, length_flatMap BlockRef.length_encode]
      simp only [pageHeaderSize]
      omega
    have hparse : parseMapPage _ first.toNat = .ok records := parseMapPage_eq_ok.2 ⟨hne, hvalid, hbound, rfl⟩
    exact ⟨_, hpage, hparse, fun index r => mapPageRecord_eq_ok hparse⟩
  · obtain ⟨hne, hvalid, -, rfl⟩ := parseMapPage_eq_ok.1 hparse
    refine ⟨fun index r => mapPageRecord_eq_ok hparse, hvalid, fun hmax => ?_⟩
    rw [encodeMapPage, if_neg (not_or.2 ⟨hne, Nat.not_lt.2 hmax⟩)]
    rfl
  · have hne : ids ≠ [] := List.ne_nil_of_length_pos hone
    refine ⟨_, ?_, parseReusePage_eq_ok.2 ⟨hne, rfl⟩⟩
    rw [encodeReusePage, if_neg (not_or.2 ⟨hne, Nat.not_lt.2 hmax⟩)]
    rfl
  · obtain ⟨hne, rfl⟩ := parseReusePage_eq_ok.1 hparse
    rw [encodeReusePage, if_neg (not_or.2 ⟨hne, Nat.not_lt.2 hmax⟩)]
    rfl

end Hakutaku
