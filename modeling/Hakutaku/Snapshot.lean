import Hakutaku.ReuseIndex
import Hakutaku.PathIndex

/-!
# Writing a release (`packer.rs`)

What follows the packing loop: the order of the segments, the storage statistics, the encrypted pages and the
signed snapshot, or the report of an unchanged release.
-/

namespace Hakutaku
open Wire Act

/-! ### Segments and references -/

/-- The segments of the release, by id. -/
def releaseSegments (s : BuildContext) : List SegmentRecord :=
  (s.usedExistingSegments.entries.map Sigma.snd ++ s.newSegmentRecords.reduceOption).insertionSort
    fun a b => a.id.bytes.toList ≤ b.id.bytes.toList

/-- The ordinal of a segment; the last of several with one id. -/
def segmentOrdinal (segments : List SegmentRecord) (id : SegmentId) : Option UInt16 :=
  ((List.range segments.length).reverse.find? fun i => (segments[i]?).any fun record => record.id = id).map UInt16.ofNat

/-- The segment a block of the build is in. -/
def locate (s : BuildContext) : SegmentLocator → PackResult SegmentId
  | .existing id => .ok id
  | .new index =>
    match s.newSegmentRecords[index]? with
    | some (some record) => .ok record.id
    | _ => fail (.invalidInput "new segment index")

/-- The reference of a block with the ordinal of its segment. -/
def resolveBlock (s : BuildContext) (segments : List SegmentRecord) (pending : PendingBlock) : PackResult BlockRef := do
  let id ← locate s pending.locator
  let segmentOrdinal ← okOr (segmentOrdinal segments id) (.invalidInput "block references missing segment")
  return { pending.reference with segmentOrdinal }

def resolveBlocks (s : BuildContext) (segments : List SegmentRecord) : List PendingBlock → PackResult (List BlockRef)
  | [] => .ok []
  | pending :: rest => do
    let block ← resolveBlock s segments pending
    let blocks ← resolveBlocks s segments rest
    return block :: blocks

structure StorageStats where
  retained : UInt64
  referenced : UInt64
  stranded : UInt64
deriving DecidableEq

/-- The sum of lengths in 64 bits. -/
def sumLengths (reason : String) : List Nat → Nat → PackResult Nat
  | [], total => .ok total
  | len :: rest, total => do
    let total ← okOr (checkedAdd u64Size total len) (.invalidInput reason)
    sumLengths reason rest total

/-- The referenced blocks, each once, with their stored lengths. -/
def uniqueBlocks (segments : List SegmentRecord) : List BlockRef → (AList fun _ : UInt16 × UInt32 => UInt32) →
    PackResult (AList fun _ : UInt16 × UInt32 => UInt32)
  | [], unique => .ok unique
  | block :: rest, unique =>
    match segments[block.segmentOrdinal.toNat]? with
    | none => fail (.invalidInput "block references missing segment")
    | some segment =>
      if segment.blockCount ≤ block.segmentBlockOrdinal then
        fail (.invalidInput "block references missing segment block")
      else if (unique.lookup (block.segmentOrdinal, block.segmentBlockOrdinal)).any (· ≠ block.storedLen) then
        fail (.invalidInput "shared block has inconsistent stored lengths")
      else uniqueBlocks segments rest (unique.insert (block.segmentOrdinal, block.segmentBlockOrdinal) block.storedLen)

def storageStats (segments : List SegmentRecord) (blocks : List BlockRef) : PackResult StorageStats := do
  let retained ← sumLengths "retained segment size overflow" (segments.map fun r => r.fileLen.toNat) 0
  let payload ← sumLengths "segment payload size overflow" (segments.map fun r => r.payloadLen.toNat) 0
  let unique ← uniqueBlocks segments blocks ∅
  let referenced ← sumLengths "referenced block size overflow" (unique.entries.map fun x => x.2.toNat) 0
  if payload < referenced then fail (.invalidInput "referenced blocks exceed segment payload")
  return ⟨UInt64.ofNat retained, UInt64.ofNat referenced, UInt64.ofNat (payload - referenced)⟩

/-! ### Pages -/

/-- The pages encrypted so far. -/
structure PageRegion where
  relativeOffset : UInt64
  directory : List PageRecord
  ciphertexts : List Bytes

/-- What the pages of a snapshot are sealed with. -/
structure PageSealer where
  projectId : ProjectId
  releaseSequence : UInt64
  noncePrefix : ByteArr 8
  snapshotKey : ByteArr 32
  compressionLevel : Int

structure EncryptedPages where
  directory : List PageRecord
  ciphertexts : List Bytes
  mapCount : UInt32
  reuseCount : UInt32

def validatePairCount (blocks reuse : Nat) : PackResult Unit :=
  if blocks = reuse then .ok () else fail (.invalidInput "block/reuse record mismatch")

section
variable [Crypto]

def encryptPage (w : PageSealer) (kind : PageKind) (plaintext : Bytes) (pages : PageRegion) : BuildM PageRegion := do
  let plainLen ← tryU32 plaintext.length "page plaintext length"
  let (codec, encoded) ← BuildContext.compressBytes w.compressionLevel plaintext
  let storedLen ← tryU32 (encoded.length + 16) "page ciphertext length"
  let nonceOrdinal ← tryU32 (pages.directory.length + 1) "page nonce ordinal"
  let aad := pageAad w.projectId w.releaseSequence kind codec nonceOrdinal storedLen plainLen
  let encoded ← sealBytes w.snapshotKey (nonce w.noncePrefix nonceOrdinal) aad encoded
  let record : PageRecord := {
    kind, codec, nonceOrdinal, relativeOffset := pages.relativeOffset, storedLen, plainLen, digest := Crypto.hash encoded }
  let relativeOffset ← tryU64 (pages.relativeOffset.toNat + storedLen.toNat) "page region overflow"
  return ⟨relativeOffset, pages.directory ++ [record], pages.ciphertexts ++ [encoded]⟩

variable [Target]

/-- The loop over the pages of one kind, each holding `perPage` records. -/
def encryptPages {α : Type} (w : PageSealer) (kind : PageKind) (encodePage : UInt32 → List α → Result Bytes)
    (perPage : Nat) (reason : String) : List (List α) → Nat → PageRegion → BuildM PageRegion
  | [], _, pages => pure pages
  | records :: rest, pageIndex, pages => do
    let first ← (plainMul usizeSize pageIndex perPage : PackResult Nat)
    let first ← tryU32 first reason
    let plaintext ← coreResult (encodePage first records)
    let pages ← encryptPage w kind plaintext pages
    encryptPages w kind encodePage perPage reason rest (pageIndex + 1) pages

def pageDifference (pageCount mapCount : UInt32) : PackResult UInt32 :=
  if mapCount ≤ pageCount then .ok (pageCount - mapCount) else fail (.invalidInput "page count")

def buildPages (w : PageSealer) (blockRefs : List BlockRef) (chunkIds : List (ByteArr 32)) : BuildM EncryptedPages := do
  validatePairCount blockRefs.length chunkIds.length
  let pages ← encryptPages w .blockMap encodeMapPage blocksPerMapPage "map page index"
    (blockRefs.toChunks blocksPerMapPage) 0 ⟨0, [], []⟩
  let mapCount ← tryU32 pages.directory.length "too many map pages"
  let pages ← encryptPages w .reuse encodeReusePage reusePerPage "reuse page index"
    (chunkIds.toChunks reusePerPage) 0 pages
  let pageCount ← tryU32 pages.directory.length "too many pages"
  let reuseCount ← pageDifference pageCount mapCount
  return ⟨pages.directory, pages.ciphertexts, mapCount, reuseCount⟩

/-! ### The snapshot -/

structure PackReport where
  changed : Bool
  releaseSequence : UInt64
  fileCount : UInt32
  blockCount : UInt32
  reusedBlocks : UInt32
  newBlocks : UInt32
  newSegments : UInt32
  newSegmentBytes : UInt64
  retainedSegmentBytes : UInt64
  referencedBlockBytes : UInt64
  strandedSegmentBytes : UInt64
deriving DecidableEq

/-- The calls that write the staged snapshot: one for each page besides those around them. -/
def writePageFiles : List Bytes → BuildM Unit
  | [] => pure ()
  | _ :: rest => do
    syscall
    writePageFiles rest

/-- What a build makes of a release: its report, its segments and references, and the snapshot it staged. -/
structure StagedRelease where
  report : PackReport
  segments : List SegmentRecord
  blockRefs : List BlockRef
  pages : EncryptedPages
  snapshot : Bytes

def writeSnapshot (job : Job) (releaseSequence : UInt64) (sourceFingerprint : ByteArr 32) : BuildM StagedRelease := do
  let s ← get
  let segments := releaseSegments s
  if 2 ^ 16 < segments.length then throw (.err (.invalidInput "too many referenced segments"))
  let blockRefs ← resolveBlocks s segments s.pendingBlocks
  let storage ← storageStats segments blockRefs
  validatePairCount blockRefs.length s.chunkIds.length
  let keys := ProjectKeys.new job.identity.rootKey job.identity.projectId
  recordDerivation (ProjectKeys.deriveInput (ascii "path".toList) [])
  let pathSlots ← buildPathSlots s.filePaths s.fileRecords keys.pathKey
  let snapshotSalt ← randomArray 16
  let noncePrefix ← randomArray 8
  recordDerivation (ProjectKeys.deriveInput (ascii "snapshot".toList) [snapshotSalt.toList])
  let snapshotKey := keys.snapshotKey snapshotSalt
  let pages ← buildPages ⟨job.identity.projectId, releaseSequence, noncePrefix, snapshotKey, job.options.compressionLevel⟩
    blockRefs s.chunkIds
  let totalBlocks ← tryU32 blockRefs.length "too many blocks"
  let catalog ← coreResult (CatalogData.encode {
    segments, files := s.fileRecords, pathSlots, pathPool := s.pathPool, pages := pages.directory, totalBlocks
    mapPageCount := pages.mapCount, reusePageCount := pages.reuseCount })
  let catalogCiphertext ← okOr (Crypto.compress job.options.compressionLevel catalog) (PackError.io .other)
  let catalogStoredLen ← tryU64 (catalogCiphertext.length + 16) "catalog length"
  let pageRegionOffset ← tryU64 (snapshotHeaderSize + catalogStoredLen.toNat) "snapshot length overflow"
  let pageCount ← tryU32 (pages.mapCount.toNat + pages.reuseCount.toNat) "page count overflow"
  let header : SnapshotHeader := {
    projectId := job.identity.projectId, releaseSequence, catalogStoredLen
    catalogPlainLen := UInt64.ofNat catalog.length, pageRegionOffset, pageCount, snapshotSalt, noncePrefix
    signingKeyId := signingKeyId (Crypto.publicKey job.identity.signingKey), sourceFingerprint, signature := .replicate 64 0 }
  let catalogCiphertext ← sealBytes snapshotKey (nonce noncePrefix 0) (catalogAad header) catalogCiphertext
  if catalogCiphertext.length ≠ catalogStoredLen.toNat then throw (.err (.invalidInput "catalog ciphertext length"))
  let message := snapshotSignatureMessage (header.encode true) catalogCiphertext
  let header := { header with signature := Crypto.sign job.identity.signingKey message }
  syscall
  syscall
  syscall
  writePageFiles pages.ciphertexts
  syscall
  syscall
  let fileCount ← tryU32 s.fileRecords.length "too many files"
  let newSegments ← tryU32 s.newSegmentRecords.reduceOption.length "too many new segments"
  let report : PackReport := {
    changed := true, releaseSequence, fileCount, blockCount := totalBlocks, reusedBlocks := s.reusedBlocks
    newBlocks := s.newBlocks, newSegments, newSegmentBytes := s.newSegmentBytes
    retainedSegmentBytes := storage.retained, referencedBlockBytes := storage.referenced
    strandedSegmentBytes := storage.stranded }
  return { report, segments, blockRefs, pages
           snapshot := header.encode false ++ catalogCiphertext ++ pages.ciphertexts.flatten }

/-! ### The whole build -/

/-- `package_storage_stats`, of the active release. -/
def OldRelease.storageStats (old : OldRelease) : PackResult StorageStats := do
  if 2 ^ 16 < old.segments.length then fail (.invalidInput "too many referenced segments")
  Hakutaku.storageStats old.segments (old.records.map ReuseRecord.block)

/-- The sequence of the release a build makes. -/
def nextSequence (options : PackOptions) (old : Option OldRelease) : PackResult UInt64 :=
  match old with
  | none => .ok (max 1 options.releaseSequenceFloor)
  | some old =>
    if old.releaseSequence.toNat + 1 < u64Size then .ok (max (old.releaseSequence + 1) options.releaseSequenceFloor)
    else fail (.invalidInput "release sequence is exhausted")

/-- How a build ends: the active release stays, or a new one is staged. -/
inductive BuildResult
  | unchanged (report : PackReport)
  | staged (release : StagedRelease)

/-- The report of a build that leaves the active release in place. -/
def unchangedReport (old : OldRelease) (fileCount : Nat) (s : BuildContext) : PackResult PackReport := do
  let storage ← old.storageStats
  let fileCount ← tryU32 fileCount "too many files"
  let blockCount ← tryU32 s.pendingBlocks.length "too many blocks"
  return { changed := false, releaseSequence := old.releaseSequence, fileCount, blockCount, reusedBlocks := s.reusedBlocks
           newBlocks := 0, newSegments := 0, newSegmentBytes := 0, retainedSegmentBytes := storage.retained
           referencedBlockBytes := storage.referenced, strandedSegmentBytes := storage.stranded }

/-- A build from the packing loop on, up to the staged snapshot. -/
def publish [FastCdc] (job : Job) (old : Option OldRelease) (compacting : Bool) (releaseSequence : UInt64)
    (files : List (SourceFile × Option CachedEntry)) : BuildM BuildResult := do
  BuildContext.packFiles job files
  let s ← get
  if s.newSegmentRecords ≠ [] then syscall
  let sourceFingerprint := Crypto.hash s.fingerprint
  match old.filter fun old => unchangedRelease job.options compacting (some old) sourceFingerprint with
  | some old => return .unchanged (← unchangedReport old files.length s)
  | none => return .staged (← writeSnapshot job releaseSequence sourceFingerprint)

/-- The state a build starts its packing loop in, whether it consolidates, and its sequence. -/
def startBuild (job : Job) (old : Option OldRelease) (fileCount : Nat) (world : World) :
    PackResult (BuildContext × Bool × UInt64) := do
  let reuse ← loadReuseIndex (old.filter fun _ => job.options.incremental)
  let releaseSequence ← nextSequence job.options old
  return (.new reuse fileCount world, reuse.compacting, releaseSequence)

/-- A whole build, and the state it ends in (none if it ends before the packing loop). -/
def packDirectory [FastCdc] (job : Job) (old : Option OldRelease) (files : List (SourceFile × Option CachedEntry))
    (world : World) : PackResult (Except (Stop PackError) BuildResult × BuildContext) := do
  let (s, compacting, releaseSequence) ← startBuild job old files.length world
  return (publish job old compacting releaseSequence files).runOn s

/-- What the next build reads of a staged release. -/
def StagedRelease.toOld (release : StagedRelease) (sourceFingerprint : ByteArr 32) (chunkIds : List (ByteArr 32)) :
    OldRelease where
  releaseSequence := release.report.releaseSequence
  sourceFingerprint
  segments := release.segments
  records := (chunkIds.zip release.blockRefs).map fun x => ⟨x.1, x.2⟩

end

end Hakutaku
