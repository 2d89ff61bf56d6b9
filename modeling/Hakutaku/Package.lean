import Hakutaku.PathIndex
import Hakutaku.Pages

/-!
# Opened packages (`package.rs`, `io.rs`)

What an opened package holds for its whole life, and the parts of the reader that do not depend on
the runtime caches: `Package::open`, the miss paths of `load_page`, `open_segment` and
`load_block_buffered`, and the block lookup. They are generic in the backend they read through: the
runtime's backend can fail at any call, `ideal` never fails on its own.
-/

namespace Hakutaku
open Wire

/-- Explicit bounds for all rebuildable runtime state. -/
structure ResourceBudget where
  mapPageCacheBytes : Nat
  plaintextCacheBytes : Nat
  prefetchCacheBytes : Nat
  idleSegmentHandles : Nat
  normalProbationEntries : Nat

def ResourceBudget.memoryConstrained : ResourceBudget where
  mapPageCacheBytes := 512 * 1024
  plaintextCacheBytes := 16 * 1024 * 1024
  prefetchCacheBytes := 512 * 1024
  idleSegmentHandles := 4
  normalProbationEntries := 64

/-- Caller-owned release acceptance policy. -/
inductive OpenPolicy
  | trustFirstRelease
  | requireAtLeast (minimum : UInt64)

def OpenPolicy.requiring (minimum : UInt64) : OpenPolicy := .requireAtLeast minimum

/-- Segment files by identity. -/
abbrev SegmentSource := SegmentId → Option Bytes

/-- The state of a package that no call changes. -/
structure PackageInner where
  snapshot : Bytes
  source : SegmentSource
  header : SnapshotHeader
  catalog : Catalog
  keys : ProjectKeys
  snapshotKey : ByteArr 32
  pathKey : ByteArr 32
  budget : ResourceBudget

structure BlockKey where
  segmentOrdinal : UInt16
  blockOrdinal : UInt32
deriving DecidableEq

def BlockRef.key (r : BlockRef) : BlockKey := ⟨r.segmentOrdinal, r.segmentBlockOrdinal⟩

/-- The two references name the same stored block, in the same way. -/
def BlockRef.SameBlock (r r' : BlockRef) : Prop := { r with logicalOffset := 0 } = { r' with logicalOffset := 0 }

structure SegmentHandle where
  file : Bytes
  key : ByteArr 32
deriving DecidableEq

/-! ### Backends -/

/-- The calls into a `PositionedFile` or a `SegmentSource`. -/
structure Backend (m : Type → Type) where
  len : Bytes → m Nat
  readExactAt : Bytes → Nat → Nat → m Bytes
  openSource : SegmentSource → SegmentId → m Bytes

/-- `read_exact_at` of an immutable file. -/
def readExact (file : Bytes) (offset len : Nat) : Result Bytes :=
  if len = 0 ∨ offset + len ≤ file.length then .ok (slice file offset len) else fail (.io .unexpectedEof)

def openFrom (source : SegmentSource) (id : SegmentId) : Result Bytes :=
  okOr (source id) (.segmentUnavailable id)

/-- The backend without failures of its own. -/
def ideal : Backend Result where
  len file := .ok file.length
  readExactAt := readExact
  openSource := openFrom

/-! ### Validators -/

def validatePageCounts (map reuse expected : Nat) : Result Unit :=
  if checkedAdd u32Size map reuse = some expected then .ok ()
  else fail (.invalidFormat "snapshot and catalog page counts differ")

def checkedPageRegionLen (relativeOffset storedLen : Nat) : Result Nat :=
  okOr (checkedAdd u64Size relativeOffset storedLen) (.invalidFormat "page region length overflow")

def validateSnapshotLen (actual pageOffset pageBytes : Nat) : Result Unit := do
  let expected ← okOr (checkedAdd u64Size pageOffset pageBytes) (.invalidFormat "snapshot length overflow")
  if actual = expected then .ok () else fail (.invalidFormat "snapshot file length")

def checkedOffset (base relative : Nat) : Result Nat := okOr (checkedAdd u64Size base relative) .invalidRange

def validateCompleteRead (actual expected : Nat) : Result Unit :=
  if actual = expected then .ok () else fail (.invalidFormat "short complete asset read")

def validateBlockCoverage (within blockLen : Nat) : Result Unit :=
  if within < blockLen then .ok () else fail (.invalidFormat "block does not cover requested offset")

section
variable [Crypto]

def validateDigest (bytes : Bytes) (expected : ByteArr 32) (scope : String) : Result Unit :=
  if Crypto.hash bytes = expected then .ok () else fail (.authentication scope)

/-- `Aes256Key::open`. -/
def openAead (key : ByteArr 32) (nonce : ByteArr 12) (aad sealed : Bytes) (scope : String) : Result Bytes :=
  okOr (Crypto.aeadOpen key nonce aad sealed) (.authentication scope)

variable [Target] {m : Type → Type} [Monad m] [MonadLiftT Result m]

/-! ### Opening -/

/-- The bytes behind the last page, from the catalog. -/
def pageRegionBytes (catalog : Catalog) (pageCount : Nat) : Result Nat := do
  if pageCount = 0 then return 0
  let last ← catalog.page (pageCount - 1)
  checkedPageRegionLen last.relativeOffset.toNat last.storedLen.toNat

/-- What `Package::open` does with the header and the catalog ciphertext once they are read. -/
def authenticate (header : SnapshotHeader) (catalogCiphertext : Bytes) (rootKey verifyingKey : ByteArr 32)
    (policy : OpenPolicy) : Result Catalog := do
  verifySnapshotSignature header catalogCiphertext verifyingKey
  if let .requireAtLeast minimum := policy then
    if header.releaseSequence < minimum then fail (.releaseRollback minimum header.releaseSequence)
  let keys := ProjectKeys.new rootKey header.projectId
  let compressed ← openAead (keys.snapshotKey header.snapshotSalt) (nonce header.noncePrefix 0) (catalogAad header)
    catalogCiphertext "snapshot catalog"
  let catalogBytes ← decompressZstdExact compressed header.catalogPlainLen.toNat
  let catalog ← Catalog.parse catalogBytes
  validatePageCounts catalog.mapPageCount.toNat catalog.reusePageCount.toNat header.pageCount.toNat
  return catalog

/-- `Package::open`. -/
def PackageInner.open (io : Backend m) (snapshot : Bytes) (source : SegmentSource) (rootKey verifyingKey : ByteArr 32)
    (budget : ResourceBudget) (policy : OpenPolicy) : m PackageInner := do
  let headerBytes ← io.readExactAt snapshot 0 snapshotHeaderSize
  let header ← SnapshotHeader.parse headerBytes
  if usizeSize ≤ header.catalogStoredLen.toNat then
    (fail (.limitExceeded "catalog stored length") : Result Unit)
  let catalogCiphertext ← io.readExactAt snapshot snapshotHeaderSize header.catalogStoredLen.toNat
  let catalog ← authenticate header catalogCiphertext rootKey verifyingKey policy
  let pageBytes ← pageRegionBytes catalog header.pageCount.toNat
  let actual ← io.len snapshot
  validateSnapshotLen actual header.pageRegionOffset.toNat pageBytes
  let keys := ProjectKeys.new rootKey header.projectId
  return {
    snapshot, source, header, catalog, keys, budget
    snapshotKey := keys.snapshotKey header.snapshotSalt
    pathKey := keys.pathKey }

namespace PackageInner
variable (P : PackageInner)

/-! ### Pages -/

/-- Digest check, decryption and decoding of a stored page. -/
def decodePage (page : PageRecord) (ciphertext : Bytes) : Result Bytes := do
  validateDigest ciphertext page.digest "signed page digest"
  let aad := pageAad P.header.projectId P.header.releaseSequence page.kind page.codec page.nonceOrdinal page.storedLen
    page.plainLen
  let stored ← openAead P.snapshotKey (nonce P.header.noncePrefix page.nonceOrdinal) aad ciphertext "snapshot page"
  decodeOwned page.codec stored page.plainLen.toNat

/-- `load_page` after a cache miss. -/
def fetchPage (io : Backend m) (pageIndex : Nat) (expectedKind : PageKind) : m Bytes := do
  let page ← P.catalog.pageOfKind pageIndex expectedKind
  let offset ← checkedOffset P.header.pageRegionOffset.toNat page.relativeOffset.toNat
  let ciphertext ← io.readExactAt P.snapshot offset page.storedLen.toNat
  P.decodePage page ciphertext

/-! ### Segments and blocks -/

def segmentHeaderMatches (header : SegmentHeader) (record : SegmentRecord) : Bool :=
  header.projectId = P.header.projectId && header.segmentUid = record.uid && header.salt = record.salt &&
    header.noncePrefix = record.noncePrefix && header.blockCount = record.blockCount &&
    header.payloadLen = record.payloadLen && header.fileLen = record.fileLen

/-- `open_segment` after a cache miss. -/
def fetchSegment (io : Backend m) (record : SegmentRecord) : m SegmentHandle := do
  let file ← io.openSource P.source record.id
  if (← io.len file) ≠ record.fileLen.toNat then
    (fail (.invalidFormat "segment host file length") : Result Unit)
  let bytes ← io.readExactAt file 0 segmentHeaderSize
  let header ← SegmentHeader.parse bytes
  if !P.segmentHeaderMatches header record then
    (fail (.invalidFormat "segment header does not match catalog") : Result Unit)
  return ⟨file, P.keys.segmentKey header⟩

/-- The checks of `load_block_buffered` before the segment is opened. -/
def locateBlock (reference : BlockRef) : Result SegmentRecord := do
  let segment ← P.catalog.segment reference.segmentOrdinal.toNat
  if segment.blockCount ≤ reference.segmentBlockOrdinal then fail (.invalidFormat "segment block ordinal")
  let storedEnd ← okOr (checkedAdd u64Size reference.physicalOffset.toNat reference.storedLen.toNat) .invalidRange
  if reference.physicalOffset.toNat < segmentHeaderSize ∨ segment.fileLen.toNat < storedEnd then
    fail (.invalidFormat "block physical range")
  return segment

/-- Digest check and decryption of a stored block. -/
def openBlock (segment : SegmentRecord) (key : ByteArr 32) (reference : BlockRef) (ciphertext : Bytes) : Result Bytes := do
  if (Crypto.hash ciphertext).prefixOf 16 half_le_hash ≠ reference.cipherDigest then
    fail (.authentication "signed block digest")
  let aad := blockAad P.header.projectId segment.uid reference.segmentBlockOrdinal reference.codec reference.storedLen
    reference.plainLen
  openAead key (nonce segment.noncePrefix reference.segmentBlockOrdinal) aad ciphertext "segment block"

/-- `load_block_buffered` without caches and buffers. -/
def fetchBlock (io : Backend m) (reference : BlockRef) : m Bytes := do
  let segment ← P.locateBlock reference
  let handle ← P.fetchSegment io segment
  let ciphertext ← io.readExactAt handle.file reference.physicalOffset.toNat reference.storedLen.toNat
  let stored ← P.openBlock segment handle.key reference ciphertext
  (decodeOwned reference.codec stored reference.plainLen.toNat : Result Bytes)

/-- The read loop of `verify_segments`, from `offset` on. Every pass reads at most 1 MiB and at least one
byte, so `left = fileLen - offset` passes are enough. -/
def readWhole (io : Backend m) (file : Bytes) (fileLen : Nat) : Nat → Nat → m Bytes
  | _, 0 => pure []
  | offset, left + 1 => do
    if offset < fileLen then
      let remaining := min (fileLen - offset) (1024 * 1024)
      let bytes ← io.readExactAt file offset remaining
      return bytes ++ (← readWhole io file fileLen (offset + remaining) left)
    else return []

/-- `verify_segments` on one segment. -/
def verifySegment (io : Backend m) (openSegment : SegmentRecord → m SegmentHandle) (index : Nat) : m Unit := do
  let record ← P.catalog.segment index
  let handle ← openSegment record
  let content ← readWhole io handle.file record.fileLen.toNat 0 record.fileLen.toNat
  if contentId content ≠ record.id then (fail (.authentication "segment ID") : Result Unit)

/-- `Package::verify_segments`, over the way segments are opened. -/
def verifySegments (io : Backend m) (openSegment : SegmentRecord → m SegmentHandle) : m Unit :=
  (List.range P.catalog.segmentCount.toNat).forM (P.verifySegment io openSegment)

end PackageInner
end

/-! ### Block lookup -/

namespace FileRecord
variable {m : Type → Type} [Monad m] [MonadLiftT Result m]

/-- The binary search of `reference_for_offset`: the number of blocks that start at or before `offset`.
Each round shrinks `high - low`, so `left = high - low` rounds are enough. -/
def searchBlock (file : FileRecord) (blockRef : Nat → m BlockRef) (offset : Nat) : Nat → Nat → Nat → m Nat
  | 0, low, _ => pure low
  | left + 1, low, high => do
    if low < high then
      let span ← (plainSub high low : Result Nat)
      let mid ← (plainAdd u32Size low (span / 2) : Result Nat)
      let globalIndex ← (okOr (checkedAdd u32Size file.firstBlock.toNat mid) .invalidRange : Result Nat)
      let reference ← blockRef globalIndex
      if reference.logicalOffset.toNat ≤ offset then
        let next ← (plainAdd u32Size mid 1 : Result Nat)
        file.searchBlock blockRef offset left next high
      else file.searchBlock blockRef offset left low mid
    else return low

def localIndex (file : FileRecord) (blockRef : Nat → m BlockRef) (offset : Nat) : m Nat := do
  match file.layout with
  | .fixed =>
    -- `checked_div(..).unwrap_or(0)` is division in `Nat`.
    let quotient := offset / file.fixedBlockLen.toNat
    if u32Size ≤ quotient then (fail .invalidRange : Result Unit)
    return quotient
  | .contentDefined => return (← file.searchBlock blockRef offset file.blockCount.toNat 0 file.blockCount.toNat) - 1

/-- `Asset::reference_for_offset`, over a reader of block references. -/
def referenceForOffset (file : FileRecord) (blockRef : Nat → m BlockRef) (offset : Nat) : m BlockRef := do
  if file.blockCount = 0 then (fail (.invalidFormat "non-empty file has no blocks") : Result Unit)
  let localIndex ← file.localIndex blockRef offset
  if file.blockCount.toNat ≤ localIndex then (fail (.invalidFormat "file block index") : Result Unit)
  let globalIndex ← (okOr (checkedAdd u32Size file.firstBlock.toNat localIndex) .invalidRange : Result Nat)
  let reference ← blockRef globalIndex
  let stop ← (okOr (checkedAdd u64Size reference.logicalOffset.toNat reference.plainLen.toNat) .invalidRange : Result Nat)
  if offset < reference.logicalOffset.toNat ∨ stop ≤ offset then
    (fail (.invalidFormat "block logical coverage") : Result Unit)
  return reference

variable [Target]

/-- The loop of `prefetch_range`: every pass ends behind the offset it started at, so `left = stop - logical`
passes are enough. -/
def prefetchLoop (referenceForOffset : Nat → m BlockRef) (prefetch : BlockRef → m Unit) (stop : Nat) : Nat → Nat → m Unit
  | 0, _ => pure ()
  | left + 1, logical => do
    if logical < stop then
      let reference ← referenceForOffset logical
      prefetch reference
      let next ← (okOr (checkedAdd u64Size reference.logicalOffset.toNat reference.plainLen.toNat) .invalidRange : Result Nat)
      prefetchLoop referenceForOffset prefetch stop left next
    else return

/-- `Asset::prefetch_range`, over the lookup and the prefetch of one block. -/
def prefetchRange (file : FileRecord) (referenceForOffset : Nat → m BlockRef) (prefetch : BlockRef → m Unit)
    (offset len : Nat) : m Unit := do
  if file.logicalLen.toNat < offset then (fail .invalidRange : Result Unit)
  if u64Size ≤ len then (fail .invalidRange : Result Unit)
  let requested := min (file.logicalLen.toNat - offset) len
  if usizeSize ≤ requested then (fail .invalidRange : Result Unit)
  if requested = 0 then return
  let stop ← (okOr (checkedAdd u64Size offset requested) .invalidRange : Result Nat)
  prefetchLoop referenceForOffset prefetch stop requested offset

end FileRecord

/-- A handle to one asset of an opened package. -/
structure Asset [Target] (P : PackageInner) where
  fileIndex : Nat
  record : FileRecord
  found : P.catalog.file fileIndex = .ok record

/-- Public metadata for one indexed asset. -/
structure AssetInfo where
  path : String
  len : UInt64
  access : AccessClass
deriving DecidableEq

/-- Immutable segment metadata available before any segment is opened. -/
structure SegmentInfo where
  id : SegmentId
  len : UInt64
  availability : Availability
deriving DecidableEq

namespace PackageInner
variable [Target] (P : PackageInner)

/-- `Package::asset`. -/
def asset [Crypto] (path : String) : Result (Asset P) := do
  match ← P.catalog.findFile path P.pathKey with
  | none => fail .assetNotFound
  | some fileIndex =>
    match h : P.catalog.file fileIndex with
    | .ok record => .ok ⟨fileIndex, record, h⟩
    | .error stop => .error stop

/-- `Package::list_assets`. -/
def listAssets : Result (List AssetInfo) :=
  (List.range P.catalog.fileCount.toNat).mapM fun index => do
    let file ← P.catalog.file index
    return { path := ← P.catalog.path index, len := file.logicalLen, access := file.access }

/-- `Package::list_segments`. -/
def listSegments : Result (List SegmentInfo) :=
  (List.range P.catalog.segmentCount.toNat).mapM fun index => do
    let record ← P.catalog.segment index
    return { id := record.id, len := record.fileLen, availability := record.availability }

/-- `Package::segment_ids`. -/
def segmentIds : Result (List SegmentId) :=
  (List.range P.catalog.segmentCount.toNat).mapM fun index => do
    return (← P.catalog.segment index).id

end PackageInner

end Hakutaku
