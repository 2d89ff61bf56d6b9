import Hakutaku.Base

/-!
# Wire records (`format.rs`)

The fixed-size records of the format with their readers and writers. A writer starts from a zeroed
buffer and overwrites the fields at the source's offsets; a reader takes the record's slice, checks
the reserved bytes and re-reads each field at its offset.
-/

namespace Hakutaku
open Wire

/-! ### Sizes and limits -/

def snapshotHeaderSize : Nat := 256
def segmentHeaderSize : Nat := 128
def catalogHeaderSize : Nat := 64
def segmentRecordSize : Nat := 96
def fileRecordSize : Nat := 32
def pathSlotSize : Nat := 8
def pageRecordSize : Nat := 64
def pageHeaderSize : Nat := 16
def blockRefSize : Nat := 48
def reuseRecordSize : Nat := 32
def blocksPerMapPage : Nat := (16 * 1024 - pageHeaderSize) / blockRefSize
def reusePerPage : Nat := (16 * 1024 - pageHeaderSize) / reuseRecordSize

def maxCatalogPlainLen : Nat := 64 * 1024 * 1024
def maxCatalogStoredLen : Nat := maxCatalogPlainLen + 1024 * 1024 + 16
def maxPagePlainLen : Nat := 1024 * 1024
def maxBlockPlainLen : Nat := 1024 * 1024
def maxSegments : Nat := 65535
def maxFiles : Nat := 1000000
def maxBlocks : Nat := 10000000
def maxPages : Nat := 100000
def maxPathPoolLen : Nat := 32 * 1024 * 1024
def emptyPathSlot : UInt32 := 0xffffffff

/-- An ASCII byte-string literal `b"…"`. -/
def ascii (s : List Char) : Bytes := s.map fun c => UInt8.ofNat c.toNat

def snapshotMagic : Bytes := ascii ['H', 'A', 'K', 'U', '0', '0', '0', '2']
def catalogMagic : Bytes := ascii ['H', 'A', 'K', 'C', 'A', 'T', '0', '2']
def segmentMagic : Bytes := ascii ['H', 'A', 'K', 'S', 'E', 'G', '0', '2']
def mapPageMagic : Bytes := ascii ['H', 'A', 'K', 'M', 'A', 'P', '0', '2']
def reusePageMagic : Bytes := ascii ['H', 'A', 'K', 'R', 'E', 'U', '0', '2']

def formatMajor : UInt16 := 2
def formatMinor : UInt16 := 0
def signatureOffset : Nat := 152
def signatureLen : Nat := 64

/-! ### Enumerations -/

/-- Canonical encoding used for a metadata page or content block. -/
inductive Codec
  | raw | zstd
deriving DecidableEq, Repr, Inhabited

def Codec.toByte : Codec → UInt8
  | raw => 0
  | zstd => 1

def Codec.parse (value : UInt8) : Result Codec :=
  if value = 0 then .ok .raw else if value = 1 then .ok .zstd else fail (.invalidFormat "unknown codec")

/-- Installation policy for an immutable segment. -/
inductive Availability
  | required | deferred
deriving DecidableEq, Repr

def Availability.toByte : Availability → UInt8
  | required => 0
  | deferred => 1

def Availability.parse (value : UInt8) : Result Availability :=
  if value = 0 then .ok .required else if value = 1 then .ok .deferred
  else fail (.invalidFormat "unknown segment availability")

/-- Block-boundary strategy used by an asset. -/
inductive LayoutKind
  | fixed | contentDefined
deriving DecidableEq, Repr

def LayoutKind.toByte : LayoutKind → UInt8
  | fixed => 0
  | contentDefined => 1

def LayoutKind.parse (value : UInt8) : Result LayoutKind :=
  if value = 0 then .ok .fixed else if value = 1 then .ok .contentDefined
  else fail (.invalidFormat "unknown file layout")

/-- Runtime caching and access hint attached to an asset. -/
inductive AccessClass
  | hot | normal | streaming | transient
deriving DecidableEq, Repr

def AccessClass.toByte : AccessClass → UInt8
  | hot => 0
  | normal => 1
  | streaming => 2
  | transient => 3

def AccessClass.parse (value : UInt8) : Result AccessClass :=
  if value = 0 then .ok .hot else if value = 1 then .ok .normal else if value = 2 then .ok .streaming
  else if value = 3 then .ok .transient else fail (.invalidFormat "unknown access class")

/-- Logical record type stored in an encrypted metadata page. -/
inductive PageKind
  | blockMap | reuse
deriving DecidableEq, Repr

def PageKind.toByte : PageKind → UInt8
  | blockMap => 1
  | reuse => 2

def PageKind.parse (value : UInt8) : Result PageKind :=
  if value = 1 then .ok .blockMap else if value = 2 then .ok .reuse
  else fail (.invalidFormat "unknown page kind")

/-- `validate_encoded_length`: RAW adds exactly the 16-byte tag, zstd must save something. -/
def validateEncodedLength (codec : Codec) (storedLen plainLen : UInt32) (name : String) : Result Unit := do
  let rawLen ← okOr (checkedAdd u32Size plainLen.toNat 16) (.invalidFormat name)
  let canonical := match codec with
    | .raw => decide (storedLen.toNat = rawLen)
    | .zstd => decide (16 ≤ storedLen.toNat ∧ storedLen.toNat < rawLen)
  if canonical then .ok () else fail (.invalidFormat name)

/-! ### Record types -/

/-- Fixed, signed metadata preceding a `game.haku` snapshot. -/
structure SnapshotHeader where
  projectId : ProjectId
  releaseSequence : UInt64
  catalogStoredLen : UInt64
  catalogPlainLen : UInt64
  pageRegionOffset : UInt64
  pageCount : UInt32
  snapshotSalt : ByteArr 16
  noncePrefix : ByteArr 8
  signingKeyId : ByteArr 16
  sourceFingerprint : ByteArr 32
  signature : ByteArr 64
deriving DecidableEq

/-- Fixed metadata preceding one immutable `.taku` segment. -/
structure SegmentHeader where
  projectId : ProjectId
  segmentUid : ByteArr 16
  salt : ByteArr 16
  noncePrefix : ByteArr 8
  blockCount : UInt32
  payloadLen : UInt64
  fileLen : UInt64
deriving DecidableEq

/-- Catalog inventory entry for one immutable segment. -/
structure SegmentRecord where
  id : SegmentId
  uid : ByteArr 16
  salt : ByteArr 16
  noncePrefix : ByteArr 8
  fileLen : UInt64
  payloadLen : UInt64
  blockCount : UInt32
  availability : Availability
deriving DecidableEq

/-- Catalog metadata for one canonical asset path. -/
structure FileRecord where
  pathOffset : UInt32
  pathLen : UInt16
  layout : LayoutKind
  access : AccessClass
  logicalLen : UInt64
  firstBlock : UInt32
  blockCount : UInt32
  fixedBlockLen : UInt32
deriving DecidableEq

/-- One open-addressed lookup slot in the keyed path index. -/
structure PathSlot where
  hash : UInt32
  fileIndex : UInt32
deriving DecidableEq

/-- Catalog descriptor for one encrypted metadata page. -/
structure PageRecord where
  kind : PageKind
  codec : Codec
  nonceOrdinal : UInt32
  relativeOffset : UInt64
  storedLen : UInt32
  plainLen : UInt32
  digest : ByteArr 32
deriving DecidableEq

/-- Random-access mapping from one asset range to an encrypted segment block. -/
structure BlockRef where
  logicalOffset : UInt64
  segmentOrdinal : UInt16
  segmentBlockOrdinal : UInt32
  physicalOffset : UInt64
  storedLen : UInt32
  plainLen : UInt32
  codec : Codec
  cipherDigest : ByteArr 16
deriving DecidableEq, Inhabited

/-! ### Writers -/

/-- `SnapshotHeader::encode`; `zeroSignature` leaves the signature slot zero for signing. -/
def SnapshotHeader.encode (h : SnapshotHeader) (zeroSignature : Bool) : Bytes :=
  let out := zeros snapshotHeaderSize
  let out := putAt out 0 snapshotMagic
  let out := putAt out 8 (u16Bytes formatMajor)
  let out := putAt out 10 (u16Bytes formatMinor)
  let out := putAt out 12 (u32Bytes 256)
  let out := putAt out 16 h.projectId.bytes.toList
  let out := putAt out 32 (u64Bytes h.releaseSequence)
  let out := putAt out 40 (u64Bytes 256)
  let out := putAt out 48 (u64Bytes h.catalogStoredLen)
  let out := putAt out 56 (u64Bytes h.catalogPlainLen)
  let out := putAt out 64 (u64Bytes h.pageRegionOffset)
  let out := putAt out 72 (u32Bytes h.pageCount)
  let out := putAt out 80 h.snapshotSalt.toList
  let out := putAt out 96 h.noncePrefix.toList
  let out := putAt out 104 h.signingKeyId.toList
  let out := putAt out 120 h.sourceFingerprint.toList
  if zeroSignature then out else putAt out signatureOffset h.signature.toList

def SegmentHeader.encode (h : SegmentHeader) : Bytes :=
  let out := zeros segmentHeaderSize
  let out := putAt out 0 segmentMagic
  let out := putAt out 8 (u16Bytes formatMajor)
  let out := putAt out 10 (u16Bytes formatMinor)
  let out := putAt out 12 (u32Bytes 128)
  let out := putAt out 16 h.projectId.bytes.toList
  let out := putAt out 32 h.segmentUid.toList
  let out := putAt out 48 h.salt.toList
  let out := putAt out 64 h.noncePrefix.toList
  let out := putAt out 72 (u32Bytes h.blockCount)
  let out := putAt out 80 (u64Bytes h.payloadLen)
  putAt out 88 (u64Bytes h.fileLen)

/-- The bytes `encode_into` appends. -/
def SegmentRecord.encode (r : SegmentRecord) : Bytes :=
  let record := zeros segmentRecordSize
  let record := putAt record 0 r.id.bytes.toList
  let record := putAt record 32 r.uid.toList
  let record := putAt record 48 r.salt.toList
  let record := putAt record 64 r.noncePrefix.toList
  let record := putAt record 72 (u64Bytes r.fileLen)
  let record := putAt record 80 (u64Bytes r.payloadLen)
  let record := putAt record 88 (u32Bytes r.blockCount)
  putAt record 92 [r.availability.toByte]

def FileRecord.encode (r : FileRecord) : Bytes :=
  let record := zeros fileRecordSize
  let record := putAt record 0 (u32Bytes r.pathOffset)
  let record := putAt record 4 (u16Bytes r.pathLen)
  let record := putAt record 6 [r.layout.toByte]
  let record := putAt record 7 [r.access.toByte]
  let record := putAt record 8 (u64Bytes r.logicalLen)
  let record := putAt record 16 (u32Bytes r.firstBlock)
  let record := putAt record 20 (u32Bytes r.blockCount)
  putAt record 24 (u32Bytes r.fixedBlockLen)

def PathSlot.encode (r : PathSlot) : Bytes :=
  let record := zeros pathSlotSize
  let record := putAt record 0 (u32Bytes r.hash)
  putAt record 4 (u32Bytes r.fileIndex)

def PageRecord.encode (r : PageRecord) : Bytes :=
  let record := zeros pageRecordSize
  let record := putAt record 0 [r.kind.toByte]
  let record := putAt record 1 [r.codec.toByte]
  let record := putAt record 4 (u32Bytes r.nonceOrdinal)
  let record := putAt record 8 (u64Bytes r.relativeOffset)
  let record := putAt record 16 (u32Bytes r.storedLen)
  let record := putAt record 20 (u32Bytes r.plainLen)
  putAt record 24 r.digest.toList

def BlockRef.encode (r : BlockRef) : Bytes :=
  let record := zeros blockRefSize
  let record := putAt record 0 (u64Bytes r.logicalOffset)
  let record := putAt record 8 (u16Bytes r.segmentOrdinal)
  let record := putAt record 10 (u32Bytes r.segmentBlockOrdinal)
  let record := putAt record 14 (u64Bytes r.physicalOffset)
  let record := putAt record 22 (u32Bytes r.storedLen)
  let record := putAt record 26 (u32Bytes r.plainLen)
  let record := putAt record 30 [r.codec.toByte]
  putAt record 32 r.cipherDigest.toList

/-! ### Readers -/

section Parse
variable [Target]

def SnapshotHeader.parse (bytes : Bytes) : Result SnapshotHeader := do
  requireLen bytes snapshotHeaderSize "snapshot header"
  requireMagic bytes snapshotMagic "snapshot magic"
  let major ← readU16 bytes 8
  let minor ← readU16 bytes 10
  if major ≠ formatMajor ∨ minor ≠ formatMinor then fail (.unsupportedVersion major minor)
  if (← readU32 bytes 12).toNat ≠ snapshotHeaderSize then fail (.invalidFormat "snapshot header size")
  if (← readU64 bytes 40).toNat ≠ snapshotHeaderSize then fail (.invalidFormat "catalog offset")
  let catalogStoredLen ← readU64 bytes 48
  let catalogPlainLen ← readU64 bytes 56
  if ¬ (16 ≤ catalogStoredLen.toNat ∧ catalogStoredLen.toNat ≤ maxCatalogStoredLen) then
    fail (.limitExceeded "catalog stored length")
  if catalogPlainLen.toNat = 0 ∨ maxCatalogPlainLen < catalogPlainLen.toNat then
    fail (.limitExceeded "catalog plaintext length")
  let expectedPageOffset ←
    okOr (checkedAdd u64Size snapshotHeaderSize catalogStoredLen.toNat) (.invalidFormat "snapshot length overflow")
  let pageRegionOffset ← readU64 bytes 64
  if pageRegionOffset.toNat ≠ expectedPageOffset then fail (.invalidFormat "page region offset")
  let pageCount ← readU32 bytes 72
  if maxPages < pageCount.toNat then fail (.limitExceeded "page count")
  requireZero bytes 76 80 "snapshot reserved fields"
  requireZero bytes (signatureOffset + signatureLen) snapshotHeaderSize "snapshot reserved tail"
  return {
    projectId := ⟨← readArray 16 bytes 16⟩
    releaseSequence := ← readU64 bytes 32
    catalogStoredLen
    catalogPlainLen
    pageRegionOffset
    pageCount
    snapshotSalt := ← readArray 16 bytes 80
    noncePrefix := ← readArray 8 bytes 96
    signingKeyId := ← readArray 16 bytes 104
    sourceFingerprint := ← readArray 32 bytes 120
    signature := ← readArray 64 bytes signatureOffset }

def SegmentHeader.parse (bytes : Bytes) : Result SegmentHeader := do
  requireLen bytes segmentHeaderSize "segment header"
  requireMagic bytes segmentMagic "segment magic"
  let major ← readU16 bytes 8
  let minor ← readU16 bytes 10
  if major ≠ formatMajor ∨ minor ≠ formatMinor then fail (.unsupportedVersion major minor)
  if (← readU32 bytes 12).toNat ≠ segmentHeaderSize then fail (.invalidFormat "segment header size")
  requireZero bytes 76 80 "segment reserved fields"
  requireZero bytes 96 segmentHeaderSize "segment reserved tail"
  let payloadLen ← readU64 bytes 80
  let fileLen ← readU64 bytes 88
  let expectedFileLen ←
    okOr (checkedAdd u64Size segmentHeaderSize payloadLen.toNat) (.invalidFormat "segment file length overflow")
  if fileLen.toNat ≠ expectedFileLen then fail (.invalidFormat "segment file length")
  return {
    projectId := ⟨← readArray 16 bytes 16⟩
    segmentUid := ← readArray 16 bytes 32
    salt := ← readArray 16 bytes 48
    noncePrefix := ← readArray 8 bytes 64
    blockCount := ← readU32 bytes 72
    payloadLen
    fileLen }

def SegmentRecord.parse (bytes : Bytes) (offset : Nat) : Result SegmentRecord := do
  let record ← checkedSlice bytes offset segmentRecordSize
  requireZero record 93 96 "segment record reserved fields"
  return {
    id := ⟨← readArray 32 record 0⟩
    uid := ← readArray 16 record 32
    salt := ← readArray 16 record 48
    noncePrefix := ← readArray 8 record 64
    fileLen := ← readU64 record 72
    payloadLen := ← readU64 record 80
    blockCount := ← readU32 record 88
    availability := ← Availability.parse (← byteAt record 92) }

def FileRecord.parse (bytes : Bytes) (offset : Nat) : Result FileRecord := do
  let record ← checkedSlice bytes offset fileRecordSize
  requireZero record 28 32 "file record reserved fields"
  let result : FileRecord := {
    pathOffset := ← readU32 record 0
    pathLen := ← readU16 record 4
    layout := ← LayoutKind.parse (← byteAt record 6)
    access := ← AccessClass.parse (← byteAt record 7)
    logicalLen := ← readU64 record 8
    firstBlock := ← readU32 record 16
    blockCount := ← readU32 record 20
    fixedBlockLen := ← readU32 record 24 }
  if result.layout = .fixed ∧ 0 < result.logicalLen.toNat ∧ result.fixedBlockLen.toNat = 0 then
    fail (.invalidFormat "fixed layout has zero block length")
  if result.layout = .contentDefined ∧ result.fixedBlockLen.toNat ≠ 0 then
    fail (.invalidFormat "content-defined layout has fixed length")
  return result

def PathSlot.parse (bytes : Bytes) (offset : Nat) : Result PathSlot := do
  let record ← checkedSlice bytes offset pathSlotSize
  return {
    hash := ← readU32 record 0
    fileIndex := ← readU32 record 4 }

def PageRecord.parse (bytes : Bytes) (offset : Nat) : Result PageRecord := do
  let record ← checkedSlice bytes offset pageRecordSize
  requireZero record 2 4 "page record reserved fields"
  requireZero record 56 64 "page record reserved tail"
  let codec ← Codec.parse (← byteAt record 1)
  let storedLen ← readU32 record 16
  let plainLen ← readU32 record 20
  if storedLen.toNat < 16 then fail (.invalidFormat "page is shorter than its tag")
  if plainLen.toNat = 0 ∨ maxPagePlainLen < plainLen.toNat then fail (.limitExceeded "page plaintext length")
  validateEncodedLength codec storedLen plainLen "page encoded length"
  return {
    kind := ← PageKind.parse (← byteAt record 0)
    codec
    nonceOrdinal := ← readU32 record 4
    relativeOffset := ← readU64 record 8
    storedLen
    plainLen
    digest := ← readArray 32 record 24 }

def BlockRef.parse (bytes : Bytes) (offset : Nat) : Result BlockRef := do
  let record ← checkedSlice bytes offset blockRefSize
  if (← byteAt record 31) ≠ 0 then fail (.invalidFormat "block reference reserved field")
  let codec ← Codec.parse (← byteAt record 30)
  let storedLen ← readU32 record 22
  let plainLen ← readU32 record 26
  if plainLen.toNat = 0 ∨ maxBlockPlainLen < plainLen.toNat then fail (.limitExceeded "block plaintext length")
  validateEncodedLength codec storedLen plainLen "block encoded length"
  return {
    logicalOffset := ← readU64 record 0
    segmentOrdinal := ← readU16 record 8
    segmentBlockOrdinal := ← readU32 record 10
    physicalOffset := ← readU64 record 14
    storedLen
    plainLen
    codec
    cipherDigest := ← readArray 16 record 32 }

end Parse

end Hakutaku
