import Hakutaku.ClockCache
import Hakutaku.Package
import Hakutaku.Lib.Prog

/-!
# The runtime reader (`package.rs`)

The caches an opened package shares between its readers, and the calls that go through them. A call
is a `Prog` over the shared state: every section under a lock, every atomic access and every backend
call is one step. Backend calls fail as the list of injected faults says.
-/

namespace Hakutaku
open Wire

/-! ### Shared state -/

structure HandleCache where
  capacity : Nat
  values : AList fun _ : SegmentId => SegmentHandle
  order : List SegmentId

namespace HandleCache

def new (capacity : Nat) : HandleCache := ⟨capacity, ∅, []⟩

def get (c : HandleCache) (id : SegmentId) : Option SegmentHandle × HandleCache :=
  match c.values.lookup id with
  | none => (none, c)
  | some value => (some value, { c with order := c.order.erase id ++ [id] })

/-- Drops the oldest handles until there is room for one. -/
def makeRoom (capacity : Nat) (values : AList fun _ : SegmentId => SegmentHandle) :
    List SegmentId → HandleCache
  | [] => ⟨capacity, values, []⟩
  | oldest :: rest =>
    if capacity ≤ values.keys.length then makeRoom capacity (values.erase oldest) rest
    else ⟨capacity, values, oldest :: rest⟩

def insert (c : HandleCache) (id : SegmentId) (value : SegmentHandle) : HandleCache :=
  if c.capacity = 0 ∨ (c.values.lookup id).isSome then c
  else
    let c := makeRoom c.capacity c.values c.order
    { c with order := c.order ++ [id], values := c.values.insert id value }

def clear (c : HandleCache) : HandleCache := { c with values := ∅, order := [] }

end HandleCache

/-- A failure of one backend call, and what it had already put into the destination. -/
structure Fault where
  kind : IoKind
  torn : Bytes

/-- The rebuildable state behind the locks of a package, and the failures its backend will have:
one entry for each backend call, none after the last. -/
structure Shared where
  pageCache : ClockCache Nat
  blockCache : ClockCache BlockKey
  prefetchCache : ClockCache BlockKey
  prefetchPopulated : Bool
  probation : List BlockKey
  handles : HandleCache
  faults : List (Option Fault)

def Shared.new (budget : ResourceBudget) (faults : List (Option Fault)) : Shared where
  pageCache := .new budget.mapPageCacheBytes
  blockCache := .new budget.plaintextCacheBytes
  prefetchCache := .new budget.prefetchCacheBytes
  prefetchPopulated := false
  probation := []
  handles := .new budget.idleSegmentHandles
  faults := faults

/-! ### State of one reader -/

/-- A `Vec<u8>`. A vector that grows has at least the capacity it needs; the amount above that is
the allocator's. -/
structure Buffer where
  bytes : Bytes
  capacity : Nat

namespace Buffer

def empty : Buffer := ⟨[], 0⟩

/-- `resize(len, 0)`. -/
def resize (b : Buffer) (len : Nat) : Buffer :=
  ⟨b.bytes.take len ++ zeros (len - b.bytes.length), max b.capacity len⟩

end Buffer

inductive BlockData
  | shared (bytes : Bytes)
  | owned (bytes : Buffer)

def BlockData.bytes : BlockData → Bytes
  | shared bytes => bytes
  | owned buffer => buffer.bytes

structure CursorBlock where
  reference : BlockRef
  data : BlockData

structure ReaderSegment where
  ordinal : UInt16
  handle : SegmentHandle

structure BlockReader where
  ciphertext : Buffer
  plaintext : Buffer
  segment : Option ReaderSegment

namespace BlockReader

def new : BlockReader := ⟨.empty, .empty, none⟩

def prepareCiphertext (r : BlockReader) (len : Nat) : BlockReader :=
  let r := if r.ciphertext.capacity < len ∧ len ≤ r.plaintext.capacity then
      { r with ciphertext := r.plaintext, plaintext := r.ciphertext }
    else r
  { r with ciphertext := r.ciphertext.resize len }

def recycle (r : BlockReader) : BlockData → BlockReader
  | .shared _ => r
  | .owned b => if r.plaintext.capacity < b.capacity then { r with plaintext := ⟨[], b.capacity⟩ } else r

end BlockReader

/-- What one reader owns across the steps of a call: the two blocks of the streaming window, its
buffers, and the destination of the call. -/
structure ReadState where
  current : Option CursorBlock
  previous : Option CursorBlock
  reader : BlockReader
  destination : Bytes

def ReadState.new (destination : Bytes) : ReadState := ⟨none, none, .new, destination⟩

abbrev ReadM := ExceptT (Stop Error) (StateT ReadState (Prog Shared))

/-- One step on the shared state. -/
abbrev atomically {α : Type} (g : Shared → α × Shared) : ReadM α := access g

/-! ### Backend calls -/

/-- The failure of the next backend call. -/
def Shared.nextFault (s : Shared) : Option Fault × Shared :=
  match s.faults with
  | [] => (none, s)
  | fault :: rest => (fault, { s with faults := rest })

/-- `bytes` written over the front of a destination. -/
def overlay (bytes destination : Bytes) : Bytes :=
  bytes.take destination.length ++ destination.drop bytes.length

/-- `read_exact_at` into a destination: the result, and the destination afterwards. -/
def readInto (file : Bytes) (offset : Nat) (destination : Bytes) : ReadM (Result Unit × Bytes) := do
  match ← atomically Shared.nextFault with
  | some fault => return (fail (.io fault.kind), overlay fault.torn destination)
  | none =>
    match readExact file offset destination.length with
    | .ok bytes => return (.ok (), bytes)
    | .error stop => return (.error stop, overlay (file.drop offset) destination)

/-- The backend of a running package. -/
def runtime : Backend ReadM where
  len file := do
    match ← atomically Shared.nextFault with
    | some fault => (fail (.io fault.kind) : Result Nat)
    | none => return file.length
  readExactAt file offset len := do
    let (result, bytes) ← readInto file offset (zeros len)
    result
    return bytes
  openSource source id := do
    match ← atomically Shared.nextFault with
    | some fault => (fail (.io fault.kind) : Result Bytes)
    | none => openFrom source id

section
variable [Crypto]

/-- `decompress_zstd_exact_into`: the result, and the output buffer afterwards. -/
def decompressZstdExactInto (stored output : Bytes) (expectedLen : Nat) : Result Unit × Bytes :=
  match Crypto.decompress stored output.length with
  | none => (fail .compression, Crypto.spoil stored output)
  | some written =>
    (if written.length ≠ expectedLen then fail (.invalidFormat "zstd plaintext length") else .ok (),
      overlay written output)

/-- `decode_buffered`: the decoded block, and the reader afterwards. -/
def decodeBuffered (codec : Codec) (r : BlockReader) (expectedLen : Nat) : Result Buffer × BlockReader :=
  match codec with
  | .raw =>
    if r.ciphertext.bytes.length ≠ expectedLen then (fail (.invalidFormat "RAW plaintext length"), r)
    else (.ok r.ciphertext, { r with ciphertext := .empty })
  | .zstd =>
    let output := r.plaintext.resize expectedLen
    match decompressZstdExactInto r.ciphertext.bytes output.bytes expectedLen with
    | (.error stop, bytes) => (.error stop, { r with plaintext := { output with bytes } })
    | (.ok (), bytes) => (.ok { output with bytes }, { r with plaintext := .empty })

variable [Target]

namespace PackageInner
variable (P : PackageInner)

/-! ### Pages and block references -/

def loadPage (pageIndex : Nat) (expectedKind : PageKind) : ReadM Bytes := do
  let cached ← atomically fun s => let (hit, c) := s.pageCache.get pageIndex; (hit, { s with pageCache := c })
  if let some value := cached then return value
  let decoded ← P.fetchPage runtime pageIndex expectedKind
  atomically fun s => ((), { s with pageCache := s.pageCache.insert pageIndex decoded })
  return decoded

def blockRef (globalIndex : Nat) : ReadM BlockRef := P.catalog.blockRef P.loadPage globalIndex

/-! ### Segments -/

def openSegment (record : SegmentRecord) : ReadM SegmentHandle := do
  let cached ← atomically fun s => let (hit, c) := s.handles.get record.id; (hit, { s with handles := c })
  if let some handle := cached then return handle
  let handle ← P.fetchSegment runtime record
  atomically fun s => ((), { s with handles := s.handles.insert record.id handle })
  return handle

/-- `BlockReader::segment_handle`. -/
def segmentHandle (ordinal : UInt16) (record : SegmentRecord) : ReadM SegmentHandle := do
  let st ← get
  if let some segment := st.reader.segment then
    if segment.ordinal = ordinal then return segment.handle
  let handle ← P.openSegment record
  modify fun st => { st with reader := { st.reader with segment := some ⟨ordinal, handle⟩ } }
  return handle

/-! ### Blocks -/

def setCiphertext (bytes : Bytes) : ReadM Unit :=
  modify fun st => { st with reader := { st.reader with ciphertext := { st.reader.ciphertext with bytes } } }

/-- Looks up a key on probation; a key that is not there is put there, the oldest ones making room. -/
def recordAccess (capacity : Nat) (key : BlockKey) (s : Shared) : Bool × Shared :=
  if key ∈ s.probation then (true, { s with probation := s.probation.erase key })
  else (false, { s with probation := s.probation.drop (s.probation.length + 1 - capacity) ++ [key] })

def secondNormalAccess (key : BlockKey) : ReadM Bool :=
  if P.budget.normalProbationEntries = 0 then pure false
  else atomically (recordAccess P.budget.normalProbationEntries key)

/-- A block found in a cache. -/
def cachedBlock (reference : BlockRef) (value : Bytes) (reason : String) : Result BlockData := do
  if value.length ≠ reference.plainLen.toNat then fail (.invalidFormat reason)
  return .shared value

/-- The block cache, for the access classes that use it. -/
def blockCacheHit (key : BlockKey) (access : AccessClass) : ReadM (Option Bytes) :=
  if access = .hot ∨ access = .normal then
    atomically fun s => let (hit, c) := s.blockCache.get key; (hit, { s with blockCache := c })
  else pure none

/-- The prefetch cache, when it was ever filled. -/
def prefetchHit (key : BlockKey) : ReadM (Option Bytes) := do
  if ← atomically fun s => (s.prefetchPopulated, s) then
    atomically fun s => let (hit, c) := s.prefetchCache.get key; (hit, { s with prefetchCache := c })
  else return none

/-- Reads into the reader's ciphertext buffer. -/
def fillCiphertext (file : Bytes) (offset len : Nat) : ReadM Bytes := do
  modify fun st => { st with reader := st.reader.prepareCiphertext len }
  let st ← get
  let (result, ciphertext) ← readInto file offset st.reader.ciphertext.bytes
  setCiphertext ciphertext
  result
  return ciphertext

/-- `decode_buffered` on the reader of the call. -/
def decodeStored (codec : Codec) (expectedLen : Nat) : ReadM Buffer := do
  let st ← get
  set { st with reader := (decodeBuffered codec st.reader expectedLen).2 }
  (decodeBuffered codec st.reader expectedLen).1

/-- Reads, checks, decrypts and decodes one stored block in the reader's buffers. -/
def readStoredBlock (reference : BlockRef) : ReadM Buffer := do
  let segment ← P.locateBlock reference
  let handle ← P.segmentHandle reference.segmentOrdinal segment
  let ciphertext ← fillCiphertext handle.file reference.physicalOffset.toNat reference.storedLen.toNat
  let stored ← P.openBlock segment handle.key reference ciphertext
  setCiphertext stored
  decodeStored reference.codec reference.plainLen.toNat

def loadBlockBuffered (reference : BlockRef) (access : AccessClass) : ReadM BlockData := do
  let key := reference.key
  if let some value := ← blockCacheHit key access then
    return ← cachedBlock reference value "cached block length mismatch"
  if let some value := ← prefetchHit key then
    return ← cachedBlock reference value "prefetched block length mismatch"
  let plaintext ← P.readStoredBlock reference
  let admitted ← match access with
    | .hot => pure true
    | .normal => P.secondNormalAccess key
    | .streaming | .transient => pure false
  if admitted then
    atomically fun s => ((), { s with blockCache := s.blockCache.insert key plaintext.bytes })
    return .shared plaintext.bytes
  else return .owned plaintext

def prefetchBlock (reference : BlockRef) (access : AccessClass) : ReadM Unit := do
  if P.budget.prefetchCacheBytes = 0 ∨ P.budget.prefetchCacheBytes < reference.plainLen.toNat then return
  let key := reference.key
  if (← atomically fun s => let (hit, c) := s.blockCache.get key; (hit, { s with blockCache := c })).isSome then return
  if (← prefetchHit key).isSome then return
  let plaintext ← P.loadBlockBuffered reference access
  if (← atomically fun s => let (hit, c) := s.blockCache.get key; (hit, { s with blockCache := c })).isNone then
    -- The hint is set before the lock of the prefetch cache is released.
    atomically fun s => ((), { s with
      prefetchCache := s.prefetchCache.insert key plaintext.bytes, prefetchPopulated := true })

/-- `Package::trim`. -/
def trim : ReadM Unit := do
  atomically fun s => ((), { s with pageCache := s.pageCache.clear })
  atomically fun s => ((), { s with blockCache := s.blockCache.clear })
  atomically fun s => ((), { s with prefetchCache := s.prefetchCache.clear, prefetchPopulated := false })
  atomically fun s => ((), { s with probation := [] })
  atomically fun s => ((), { s with handles := s.handles.clear })

end PackageInner

/-! ### Assets -/

/-- `saturating_add` on `u64`. -/
def saturatingAdd (a b : Nat) : Nat := min (a + b) (u64Size - 1)

def BlockRef.covers (r : BlockRef) (position : Nat) : Bool :=
  decide (r.logicalOffset.toNat ≤ position ∧ position < saturatingAdd r.logicalOffset.toNat r.plainLen.toNat)

def CursorBlock.covers (b : CursorBlock) (position : Nat) : Bool := b.reference.covers position

/-- Takes a block out of the window and gives its buffer back to the reader. -/
def ReadState.recycleCurrent (st : ReadState) : ReadState :=
  match st.current with
  | none => st
  | some block => { st with current := none, reader := st.reader.recycle block.data }

def ReadState.recyclePrevious (st : ReadState) : ReadState :=
  match st.previous with
  | none => st
  | some block => { st with previous := none, reader := st.reader.recycle block.data }

/-- Makes room in the window for a new current block. -/
def ReadState.shift (st : ReadState) (access : AccessClass) : ReadState :=
  if access = .streaming then
    let st := st.recyclePrevious
    { st with previous := st.current, current := none }
  else st.recycleCurrent

namespace Asset
variable {P : PackageInner} (asset : Asset P)

def len : Nat := asset.record.logicalLen.toNat

/-- `Asset::reference_for_offset`. -/
def referenceForOffset (offset : Nat) : ReadM BlockRef := asset.record.referenceForOffset P.blockRef offset

/-- Makes the block that covers `logical` the current one. -/
def fillWindow (logical : Nat) : ReadM Unit := do
  let st ← get
  if st.current.any fun b => b.covers logical then return
  if st.previous.any fun b => b.covers logical then
    set { st with current := st.previous, previous := st.current }
  else
    let reference ← asset.referenceForOffset logical
    modify fun st => st.shift asset.record.access
    let data ← P.loadBlockBuffered reference asset.record.access
    modify fun st => { st with current := some ⟨reference, data⟩ }

/-- One pass of the loop of `read_at_buffered`: the number of bytes copied. -/
def copyPass (requested written logical : Nat) : ReadM Nat := do
  asset.fillWindow logical
  let st ← get
  match st.current with
  | none => (panicked "read block loaded above" : Result Nat)
  | some block =>
    let within ← (plainSub logical block.reference.logicalOffset.toNat : Result Nat)
    if usizeSize ≤ within then (fail (.invalidFormat "block logical offset") : Result Unit)
    validateBlockCoverage within block.data.bytes.length
    let amount := min (block.data.bytes.length - within) (requested - written)
    modify fun st => { st with destination := putAt st.destination written (slice block.data.bytes within amount) }
    return amount

/-- The loop of `read_at_buffered`. Every pass copies at least one byte, so `left = requested` passes
are enough. -/
def readLoop (requested : Nat) : Nat → Nat → Nat → ReadM Nat
  | 0, written, _ => pure written
  | left + 1, written, logical => do
    if written < requested then
      let amount ← asset.copyPass requested written logical
      readLoop requested left (written + amount) (logical + amount)
    else return written

def readAtBuffered (offset : UInt64) : ReadM Nat := do
  if asset.len < offset.toNat then (fail .invalidRange : Result Unit)
  let st ← get
  let requested := min (asset.len - offset.toNat) st.destination.length
  if usizeSize ≤ requested then (fail .invalidRange : Result Unit)
  if requested = 0 then return 0
  asset.readLoop requested requested 0 offset.toNat

/-- `Asset::read`, into a fresh destination. -/
def read : ReadM Bytes := do
  if usizeSize ≤ asset.len then (fail (.limitExceeded "asset length") : Result Unit)
  modify fun st => { st with destination := zeros asset.len }
  let read ← asset.readAtBuffered 0
  validateCompleteRead read asset.len
  return (← get).destination

def prefetchRange (offset : UInt64) (len : Nat) : ReadM Unit :=
  asset.record.prefetchRange asset.referenceForOffset (fun r => P.prefetchBlock r asset.record.access) offset.toNat len

/-- `AssetCursor::read` at `position`: the bytes read, and the position afterwards. The error inside an
`io::Error::other` is kept. -/
def cursorRead (position : UInt64) : ReadM (Nat × UInt64) := do
  if asset.record.logicalLen < position then (fail (.io .invalidInput) : Result Unit)
  let read ← asset.readAtBuffered position
  return (read, position + UInt64.ofNat read)

end Asset

/-- `SeekFrom`. -/
inductive SeekFrom
  | start (value : UInt64)
  | fromEnd (delta : Int64)
  | fromCurrent (delta : Int64)
deriving DecidableEq

/-- `AssetCursor::seek`: the new position. -/
def seek (len position : UInt64) (place : SeekFrom) : Result UInt64 := do
  let target : Int := match place with
    | .start value => value.toNat
    | .fromEnd delta => len.toNat + delta.toInt
    | .fromCurrent delta => position.toNat + delta.toInt
  if target < 0 ∨ (u64Size : Int) ≤ target then fail (.io .invalidInput)
  if (len.toNat : Int) < target then fail (.io .invalidInput)
  return UInt64.ofNat target.toNat

end

end Hakutaku
