import Hakutaku.Builder

/-!
# Adding files to a build (`packer.rs`)

`BuildContext::add_file` and what it calls: the two chunking loops, the reuse of blocks, and the rotation
of the segments being written.
-/

namespace Hakutaku
open Wire

/-- A chunk of a file as the development cache records it. -/
structure CachedChunk where
  logicalOffset : UInt64
  plainLen : UInt32
  chunkId : ByteArr 32
deriving DecidableEq

structure CachedEntry where
  stamp : SourceStamp
  layout : LayoutKind
  fixedBlockLen : UInt32
  access : AccessClass
  availability : Availability
  compression : CompressionPolicy
  chunks : List CachedChunk
deriving DecidableEq

def compressionSavings : Nat := 64

/-- `Vec::swap_remove`: the last element takes the place of the removed one. -/
def swapRemove {α : Type} (l : List α) (i : Nat) : List α :=
  match l.getLast? with
  | none => []
  | some last => (l.set i last).dropLast

/-- The first position with the smallest index. -/
def firstActive (segments : List ActiveSegment) : Option Nat :=
  match (segments.map ActiveSegment.index).min? with
  | none => none
  | some least => segments.findIdx? fun segment => segment.index = least

namespace BuildContext

def recordChunk (chunkId : ByteArr 32) : BuildM Unit :=
  modify fun s => { s with fingerprint := s.fingerprint ++ chunkId.toList, chunkIds := s.chunkIds ++ [chunkId] }

/-- A block of this build that can stand for a chunk of the class. -/
def currentBlock (s : BuildContext) (chunkId : ByteArr 32) (cls : SegmentClass) (plainLen : UInt32)
    (compression : CompressionPolicy) : Option PendingBlock :=
  (s.currentReuse.lookup (chunkId, cls)).filter fun pending =>
    pending.reference.plainLen = plainLen && compression.accepts pending.reference.codec

/-- A block of the previous release that can stand for a chunk of the availability. -/
def existingBlock (s : BuildContext) (chunkId : ByteArr 32) (availability : Availability) (plainLen : UInt32)
    (compression : CompressionPolicy) : Option ReusableBlock :=
  (s.reuseIndex.lookup (chunkId, availability)).filter fun reused =>
    reused.block.plainLen = plainLen && compression.accepts reused.block.codec

/-- Appends a block of this build once more, at another place of a file. -/
def shareBlock (s : BuildContext) (reused : PendingBlock) (logicalOffset : UInt64) : BuildContext := { s with
  pendingBlocks := s.pendingBlocks ++ [{ reused with reference := { reused.reference with logicalOffset } }]
  reusedBlocks := satSucc32 s.reusedBlocks }

/-- Appends a block of the previous release, whose segment is then kept. -/
def keepExisting (s : BuildContext) (chunkId : ByteArr 32) (cls : SegmentClass) (segment : SegmentRecord)
    (block : BlockRef) (logicalOffset : UInt64) : BuildContext :=
  let pending : PendingBlock := ⟨.existing segment.id, { block with logicalOffset }⟩
  { s with
    usedExistingSegments :=
      if (s.usedExistingSegments.lookup segment.id).isSome then s.usedExistingSegments
      else s.usedExistingSegments.insert segment.id segment
    pendingBlocks := s.pendingBlocks ++ [pending]
    currentReuse := s.currentReuse.insert (chunkId, cls) pending
    reusedBlocks := satSucc32 s.reusedBlocks }

/-- Appends a block just written by the active segment at `position`. -/
def appendNew (s : BuildContext) (chunkId : ByteArr 32) (cls : SegmentClass) (position : Nat) (active : ActiveSegment)
    (reference : BlockRef) : BuildContext :=
  let pending : PendingBlock := ⟨.new active.index, reference⟩
  { s with
    activeSegments := s.activeSegments.set position active
    pendingBlocks := s.pendingBlocks ++ [pending]
    currentReuse := s.currentReuse.insert (chunkId, cls) pending
    newBlocks := satSucc32 s.newBlocks }

def tryReuseChunk (logicalOffset : UInt64) (plainLen : UInt32) (chunkId : ByteArr 32) (availability : Availability)
    (access : AccessClass) (compression : CompressionPolicy) : BuildM Bool := do
  let s ← get
  match s.currentBlock chunkId ⟨availability, access⟩ plainLen compression with
  | some reused =>
    modify fun s => s.shareBlock reused logicalOffset
    return true
  | none =>
    match s.existingBlock chunkId availability plainLen compression with
    | some reused =>
      match s.reuseSegments[reused.segmentOrdinal.toNat]? with
      | none => throw (.err (.invalidInput "reuse segment ordinal"))
      | some segment =>
        modify fun s => s.keepExisting chunkId ⟨availability, access⟩ segment reused.block logicalOffset
        return true
    | none => return false

def cachedEntryUsable (s : BuildContext) (source : SourceFile) (cached : CachedEntry) (cls : SourceClass)
    (availability : Availability) : Bool :=
  cached.stamp = source.stamp && cached.layout = cls.layout && cached.fixedBlockLen = cls.fixedBlockLen &&
    cached.availability = availability && cached.access = cls.access && cached.compression = cls.compression &&
    go cached.chunks 0
where
  /-- The loop over the chunks, from `expectedOffset` on. -/
  go : List CachedChunk → Nat → Bool
    | [], expectedOffset => expectedOffset = source.len.toNat
    | chunk :: rest, expectedOffset =>
      chunk.logicalOffset.toNat = expectedOffset && chunk.plainLen ≠ 0 &&
        decide (expectedOffset + chunk.plainLen.toNat < u64Size) &&
        ((s.currentBlock chunk.chunkId ⟨availability, cls.access⟩ chunk.plainLen cls.compression).isSome ||
          (s.existingBlock chunk.chunkId availability chunk.plainLen cls.compression).any fun reused =>
            (s.reuseSegments[reused.segmentOrdinal.toNat]?).isSome) &&
        go rest (expectedOffset + chunk.plainLen.toNat)

/-! ### Segments being written -/

def activeSegmentPosition (s : BuildContext) (cls : SegmentClass) : Option Nat :=
  s.activeSegments.findIdx? fun segment => segment.cls = cls

def storeSegmentRecord (records : List (Option SegmentRecord)) (index : Nat) (record : SegmentRecord) :
    PackResult (List (Option SegmentRecord)) :=
  match records[index]? with
  | none => fail (.invalidInput "new segment index")
  | some (some _) => fail (.invalidInput "new segment finalized twice")
  | some none => .ok (records.set index (some record))

section
variable [Crypto]

def startSegment (job : Job) (cls : SegmentClass) : BuildM Nat := do
  let index := (← get).newSegmentRecords.length
  let keys := ProjectKeys.new job.identity.rootKey job.identity.projectId
  let writer ← NewSegment.create job.dataDirectory job.identity.projectId keys cls.availability
  modify fun s => { s with
    newSegmentRecords := s.newSegmentRecords ++ [none]
    activeSegments := s.activeSegments ++ [{ cls, index, writer }] }
  return (← get).activeSegments.length - 1

def finishActiveSegment (position : Nat) : BuildM Unit := do
  match (← get).activeSegments[position]? with
  | none => throw (.panic "swap_remove index")
  | some segment =>
    modify fun s => { s with activeSegments := swapRemove s.activeSegments position }
    let (record, bytes) ← segment.writer.finish
    modify fun s => { s with newSegmentBytes := satAdd64 s.newSegmentBytes bytes }
    let records ← storeSegmentRecord (← get).newSegmentRecords segment.index record
    modify fun s => { s with newSegmentRecords := records }

/-- The loop of `finish_active_segments`, for at most `left` segments. -/
def finishSegments : Nat → BuildM Unit
  | 0 => pure ()
  | left + 1 => do
    match firstActive (← get).activeSegments with
    | none => pure ()
    | some position =>
      finishActiveSegment position
      finishSegments left

def finishActiveSegments : BuildM Unit := do
  finishSegments (← get).activeSegments.length

/-! ### Blocks -/

def compressBytes (level : Int) (plaintext : Bytes) : PackResult (Codec × Bytes) := do
  let compressed ← okOr (Crypto.compress level plaintext) (.io .other)
  if compressed.length + compressionSavings < plaintext.length then return (.zstd, compressed)
  else return (.raw, plaintext)

def compressBlock (level : Int) (plaintext : Bytes) (policy : CompressionPolicy) : PackResult (Codec × Bytes) :=
  match policy with
  | .auto => compressBytes level plaintext
  | .raw => return (.raw, plaintext)

/-- Finishes the segment of a class when one more block of `estimatedStored` bytes would exceed its target. -/
def rotateSegment (job : Job) (cls : SegmentClass) (estimatedStored : UInt64) : BuildM Unit := do
  let s ← get
  match s.activeSegmentPosition cls with
  | none => pure ()
  | some position =>
    match s.activeSegments[position]? with
    | none => throw (.panic "active segment index")
    | some segment =>
      if 0 < segment.writer.blockCount ∧
          cls.targetBytes job.options.segmentTargetBytes < satAdd64 segment.writer.payloadLen estimatedStored then
        finishActiveSegment position

/-- The position of the segment a class is written to. -/
def openSegment (job : Job) (cls : SegmentClass) : BuildM Nat := do
  match (← get).activeSegmentPosition cls with
  | some position => return position
  | none => startSegment job cls

/-- The part of `add_chunk` that writes a new block. -/
def writeChunk [Target] (job : Job) (logicalOffset : UInt64) (plaintext : Bytes) (chunkId : ByteArr 32)
    (cls : SegmentClass) (compression : CompressionPolicy) : BuildM Unit := do
  let (codec, encoded) ← compressBlock job.options.compressionLevel plaintext compression
  let estimatedStored ← okOr (checkedAdd usizeSize encoded.length 16) (PackError.invalidInput "block length overflow")
  rotateSegment job cls (UInt64.ofNat estimatedStored)
  let position ← openSegment job cls
  match (← get).activeSegments[position]? with
  | none => throw (.panic "active segment index")
  | some active =>
    let (reference, writer) ← active.writer.writeBlock logicalOffset plaintext.length codec encoded
    modify fun s => s.appendNew chunkId cls position { active with writer } reference

def addChunk [Target] (job : Job) (logicalOffset : UInt64) (plaintext : Bytes) (availability : Availability)
    (access : AccessClass) (compression : CompressionPolicy) : BuildM Unit := do
  let chunkId := Crypto.hash plaintext
  recordChunk chunkId
  let plainLen ← tryU32 plaintext.length "block plaintext length"
  let reused ← tryReuseChunk logicalOffset plainLen chunkId availability access compression
  if reused then pure ()
  else writeChunk job logicalOffset plaintext chunkId ⟨availability, access⟩ compression

/-! ### Files -/

/-- `validate_source_len`. -/
def validateSourceLen (actual : Nat) (source : SourceFile) : PackResult Unit :=
  if actual = source.len.toNat then .ok ()
  else fail (.invalidInput ("file changed while packing: " ++ source.logicalPath))

/-- `checked_path_len`. -/
def checkedPathLen (path : String) : PackResult UInt16 :=
  if (strBytes path).length < 2 ^ 16 then .ok (UInt16.ofNat (strBytes path).length)
  else fail (.invalidInput ("path is too long: " ++ path))

variable [Target]

/-- The loop of `add_fixed_file` over the rest of the file, which starts at `logicalOffset`. Every chunk but the
last fills the buffer. -/
def addFixedChunks (job : Job) (blockSize : Nat) (availability : Availability) (access : AccessClass)
    (compression : CompressionPolicy) : Nat → Nat → Bytes → BuildM Nat
  | 0, logicalOffset, _ => pure logicalOffset
  | left + 1, logicalOffset, bytes => do
    syscall
    if bytes.take blockSize = [] then pure logicalOffset
    else
      addChunk job (UInt64.ofNat logicalOffset) (bytes.take blockSize) availability access compression
      let _ ← tryU64 (logicalOffset + (bytes.take blockSize).length) "file offset overflow"
      addFixedChunks job blockSize availability access compression left
        (logicalOffset + (bytes.take blockSize).length) (bytes.drop blockSize)

def addFixedFile (job : Job) (source : SourceFile) (blockSize : Nat) (availability : Availability)
    (access : AccessClass) (compression : CompressionPolicy) : BuildM Unit := do
  let view ← source.openVerified
  let logicalOffset ← addFixedChunks job blockSize availability access compression (view.bytes.length + 1) 0 view.bytes
  validateSourceLen logicalOffset source
  source.validateOpenFile view.closed

/-- The loop over the chunks of a content-defined file. -/
def addDefinedChunks (job : Job) (bytes : Bytes) (availability : Availability) (access : AccessClass)
    (compression : CompressionPolicy) : List (Nat × Nat) → BuildM Unit
  | [] => pure ()
  | (offset, length) :: rest => do
    let stop ← okOr (checkedAdd usizeSize offset length) (PackError.invalidInput "FastCDC range overflow")
    if bytes.length < stop then throw (.panic "slice index")
    addChunk job (UInt64.ofNat offset) (slice bytes offset length) availability access compression
    addDefinedChunks job bytes availability access compression rest

def addContentDefinedFile [FastCdc] (job : Job) (source : SourceFile) (availability : Availability)
    (access : AccessClass) (compression : CompressionPolicy) : BuildM Unit := do
  let view ← source.openVerified
  if usizeSize ≤ source.len.toNat then throw (.err (.invalidInput "source file is too large"))
  syscall
  let bytes := view.bytes.take (source.len.toNat + 1)
  validateSourceLen bytes.length source
  source.validateOpenFile view.closed
  addDefinedChunks job bytes availability access compression (FastCdc.chunks bytes)

/-- The chunks a development-cache entry stands for. -/
def addCachedChunks (availability : Availability) (cls : SourceClass) : List CachedChunk → BuildM Unit
  | [] => pure ()
  | chunk :: rest => do
    recordChunk chunk.chunkId
    let reused ← tryReuseChunk chunk.logicalOffset chunk.plainLen chunk.chunkId availability cls.access cls.compression
    if reused then addCachedChunks availability cls rest
    else throw (.err (.invalidInput "development cache lost a reusable block"))

/-- The chunks of a file, from the cache where its entry is usable and from the source otherwise. An empty file
has none and is not opened. -/
def addFileChunks [FastCdc] (job : Job) (source : SourceFile) (cached : Option CachedEntry) (cls : SourceClass)
    (availability : Availability) : BuildM Unit := do
  let s ← get
  if source.len = 0 then pure ()
  else
    match cached.filter fun entry => s.cachedEntryUsable source entry cls availability with
    | some entry => addCachedChunks availability cls entry.chunks
    | none =>
      match cls.layout with
      | .fixed => addFixedFile job source cls.fixedBlockLen.toNat availability cls.access cls.compression
      | .contentDefined => addContentDefinedFile job source availability cls.access cls.compression

/-- The fingerprint bytes of a file before its chunk ids. -/
def fingerprintHeader (source : SourceFile) (cls : SourceClass) (availability : Availability) : Bytes :=
  u64Bytes (UInt64.ofNat (strBytes source.logicalPath).length) ++ strBytes source.logicalPath ++ u64Bytes source.len ++
    [cls.layout.toByte, cls.access.toByte, availability.toByte, cls.compression.toByte] ++ u32Bytes cls.fixedBlockLen

/-- The path and the fingerprint header of a file. -/
def beginFile (s : BuildContext) (source : SourceFile) (cls : SourceClass) (availability : Availability) :
    BuildContext := { s with
  pathPool := s.pathPool ++ strBytes source.logicalPath
  filePaths := s.filePaths ++ [source.logicalPath]
  fingerprint := s.fingerprint ++ fingerprintHeader source cls availability }

/-- The block count and the record of a file. -/
def endFile (s : BuildContext) (record : FileRecord) : BuildContext := { s with
  fingerprint := s.fingerprint ++ u32Bytes record.blockCount
  fileRecords := s.fileRecords ++ [record] }

def addFile [FastCdc] (job : Job) (source : SourceFile) (cached : Option CachedEntry) : BuildM Unit := do
  let cls := classify source
  let availability := job.options.availability source.logicalPath
  let firstBlock ← tryU32 (← get).pendingBlocks.length "too many blocks"
  let pathOffset ← tryU32 (← get).pathPool.length "path pool is too large"
  let pathLen ← checkedPathLen source.logicalPath
  modify fun s => s.beginFile source cls availability
  let before ← get
  addFileChunks job source cached cls availability
  let blockCount ← tryU32 ((← get).pendingBlocks.length - before.pendingBlocks.length) "file has too many blocks"
  modify fun s => s.endFile {
    pathOffset, pathLen, layout := cls.layout, access := cls.access, logicalLen := source.len, firstBlock, blockCount
    fixedBlockLen := cls.fixedBlockLen }
  let completedBytes ← tryU64 ((← get).completedBytes.toNat + source.len.toNat) "input size overflow"
  modify fun s => { s with completedBytes }

/-- The packing loop over the files, each with its cache entry. -/
def addFiles [FastCdc] (job : Job) : List (SourceFile × Option CachedEntry) → BuildM Unit
  | [] => pure ()
  | (source, cached) :: rest => do
    addFile job source cached
    addFiles job rest

/-- The packing loop and the end of the segments it left open. -/
def packFiles [FastCdc] (job : Job) (files : List (SourceFile × Option CachedEntry)) : BuildM Unit := do
  addFiles job files
  finishActiveSegments

end

end BuildContext

end Hakutaku
