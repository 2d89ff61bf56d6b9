import Hakutaku.Packer

/-!
# The development cache (`build_cache.rs`)

The untrusted file that lets a development build skip unchanged sources: its parser, which answers `None`
(`fail ()`) to anything it does not accept, and the bytes `save` writes.
-/

namespace Hakutaku
open Wire

abbrev BuildCache := AList fun _ : String => CachedEntry

namespace BuildCache

def magic : Bytes := ascii "HAKBC002".toList
def headerSize : Nat := 48
def entryHeaderSize : Nat := 51
def checksumSize : Nat := 32
def chunkSize : Nat := 44
def maxEntries : Nat := 1000000
def maxChunks : Nat := 10000000

def parseLayout (v : UInt8) : Option LayoutKind :=
  if v = 0 then some .fixed else if v = 1 then some .contentDefined else none

def parseAccess (v : UInt8) : Option AccessClass :=
  if v = 0 then some .hot else if v = 1 then some .normal else if v = 2 then some .streaming
  else if v = 3 then some .transient else none

def parseAvailability (v : UInt8) : Option Availability :=
  if v = 0 then some .required else if v = 1 then some .deferred else none

def parseCompression (v : UInt8) : Option CompressionPolicy :=
  if v = 0 then some .auto else if v = 1 then some .raw else none

section
variable [Target]

/-- `bytes.get(offset..offset + n)`. -/
def getRange (bytes : Bytes) (offset n : Nat) : Outcome Unit Bytes := do
  let stop ← plainAdd usizeSize offset n
  if stop ≤ bytes.length then return slice bytes offset n else fail ()

/-- `bytes.get(offset + at)`. -/
def getByte (bytes : Bytes) (offset at' : Nat) : Outcome Unit UInt8 := do
  okOr bytes[(← plainAdd usizeSize offset at')]? ()

/-- `read_u16` at `offset + at`. -/
def getU16 (bytes : Bytes) (offset at' : Nat) : Outcome Unit UInt16 := do
  return UInt16.ofNat (leNat (← getRange bytes (← plainAdd usizeSize offset at') 2))

/-- `read_u32` at `offset + at`. -/
def getU32 (bytes : Bytes) (offset at' : Nat) : Outcome Unit UInt32 := do
  return UInt32.ofNat (leNat (← getRange bytes (← plainAdd usizeSize offset at') 4))

/-- `read_u64` at `offset + at`. -/
def getU64 (bytes : Bytes) (offset at' : Nat) : Outcome Unit UInt64 := do
  return UInt64.ofNat (leNat (← getRange bytes (← plainAdd usizeSize offset at') 8))

/-- The chunk loop of an entry, with `left` chunks to go. Returns the offset behind them. -/
def parseChunks (bytes : Bytes) : Nat → Nat → Outcome Unit (List CachedChunk × Nat)
  | 0, offset => return ([], offset)
  | left + 1, offset => do
    let stop ← okOr (checkedAdd usizeSize offset chunkSize) ()
    let logicalOffset ← getU64 bytes offset 0
    let plainLen ← getU32 bytes offset 8
    let id ← getRange bytes (← plainAdd usizeSize offset 12) 32
    if h : id.length = 32 then
      let (chunks, stop) ← parseChunks bytes left stop
      return (⟨logicalOffset, plainLen, ⟨id, h⟩⟩ :: chunks, stop)
    else fail ()

/-- The fields an entry starts with. -/
structure EntryFields where
  pathLen : UInt16
  layout : LayoutKind
  access : AccessClass
  availability : Availability
  compression : CompressionPolicy
  modifiedKnown : UInt8
  fixedBlockLen : UInt32
  len : UInt64
  modifiedSecs : UInt64
  modifiedNanos : UInt32
  device : UInt64
  inode : UInt64
  chunkCount : UInt32

/-- The fields of the entry at `offset`. -/
def parseFields (bytes : Bytes) (offset : Nat) : Outcome Unit EntryFields := do
  let pathLen ← getU16 bytes offset 0
  let layout ← okOr (parseLayout (← getByte bytes offset 2)) ()
  let access ← okOr (parseAccess (← getByte bytes offset 3)) ()
  let availability ← okOr (parseAvailability (← getByte bytes offset 4)) ()
  let compression ← okOr (parseCompression (← getByte bytes offset 5)) ()
  let modifiedKnown ← getByte bytes offset 6
  if 1 < modifiedKnown then fail ()
  let fixedBlockLen ← getU32 bytes offset 7
  let len ← getU64 bytes offset 11
  let modifiedSecs ← getU64 bytes offset 19
  let modifiedNanos ← getU32 bytes offset 27
  let device ← getU64 bytes offset 31
  let inode ← getU64 bytes offset 39
  let chunkCount ← getU32 bytes offset 47
  return { pathLen, layout, access, availability, compression, modifiedKnown, fixedBlockLen, len, modifiedSecs
           modifiedNanos, device, inode, chunkCount }

/-- The entry the fields stand for, without its chunks. -/
def EntryFields.entry (fields : EntryFields) : CachedEntry where
  stamp := {
    len := fields.len
    modified := if fields.modifiedKnown = 1 then some (fields.modifiedSecs, fields.modifiedNanos) else none
    device := fields.device, inode := fields.inode }
  layout := fields.layout
  fixedBlockLen := fields.fixedBlockLen
  access := fields.access
  availability := fields.availability
  compression := fields.compression
  chunks := []

/-- What of an entry stands before its chunks, and where they are. -/
structure EntryHead where
  path : String
  fields : EntryFields
  chunksStart : Nat
  totalChunks : Nat

/-- The entry at `offset`, after `totalChunks` chunks of earlier ones, up to the reservation of its chunk list. -/
def parseEntryHead (bytes : Bytes) (payloadLen offset totalChunks : Nat) : Outcome Unit EntryHead := do
  let fields ← parseFields bytes offset
  let totalChunks ← okOr (checkedAdd usizeSize totalChunks fields.chunkCount.toNat) ()
  if maxChunks < totalChunks ∨ 1000000000 ≤ fields.modifiedNanos.toNat then fail ()
  let offset ← okOr (checkedAdd usizeSize offset entryHeaderSize) ()
  let pathEnd ← okOr (checkedAdd usizeSize offset fields.pathLen.toNat) ()
  if bytes.length < pathEnd then fail ()
  let path ← okOr (fromUtf8 (slice bytes offset fields.pathLen.toNat)) ()
  if nonCanonical path then fail ()
  let chunksLen ← okOr (checkedMul usizeSize fields.chunkCount.toNat chunkSize) ()
  let chunksEnd ← okOr (checkedAdd usizeSize pathEnd chunksLen) ()
  if payloadLen < chunksEnd then fail ()
  return { path, fields, chunksStart := pathEnd, totalChunks }

/-- One entry at `offset`, after `totalChunks` chunks of earlier ones. Returns the offset behind it. -/
def parseEntry (bytes : Bytes) (payloadLen offset totalChunks : Nat) :
    Outcome Unit (String × CachedEntry × Nat × Nat) := do
  let head ← parseEntryHead bytes payloadLen offset totalChunks
  let (chunks, offset) ← parseChunks bytes head.fields.chunkCount.toNat head.chunksStart
  return (head.path, { head.fields.entry with chunks }, offset, head.totalChunks)

/-- The entry loop, with `left` entries to go. -/
def parseEntries (bytes : Bytes) (payloadLen : Nat) : Nat → Nat → Nat → BuildCache → Outcome Unit BuildCache
  | 0, offset, _, entries => if offset = payloadLen then return entries else fail ()
  | left + 1, offset, totalChunks, entries => do
    let (path, entry, offset, totalChunks) ← parseEntry bytes payloadLen offset totalChunks
    if (entries.lookup path).isSome then fail ()
    parseEntries bytes payloadLen left offset totalChunks (entries.insert path entry)

/-- The header and the checksum. Returns the number of entries, for which the map is then reserved. -/
def parseHeader [Crypto] (bytes : Bytes) (projectId : ProjectId) (releaseSequence : UInt64) : Outcome Unit Nat := do
  if bytes.length < headerSize + checksumSize then fail ()
  if (← getRange bytes 0 8) ≠ magic then fail ()
  if (← getU16 bytes 0 8) ≠ 2 then fail ()
  if (← getU16 bytes 0 10).toNat ≠ headerSize then fail ()
  if (← getRange bytes 12 16) ≠ projectId.bytes.toList then fail ()
  if (← getU64 bytes 0 28) ≠ releaseSequence then fail ()
  if (← getRange bytes 40 8).any (· ≠ 0) then fail ()
  let payloadLen := bytes.length - checksumSize
  if (Crypto.hash (bytes.take payloadLen)).toList ≠ bytes.drop payloadLen then fail ()
  let entryCount := (← getU32 bytes 0 36).toNat
  if maxEntries < entryCount ∨ (payloadLen - headerSize) / (entryHeaderSize + 1) < entryCount then fail ()
  return entryCount

def parse [Crypto] (bytes : Bytes) (projectId : ProjectId) (releaseSequence : UInt64) : Outcome Unit BuildCache := do
  let entryCount ← parseHeader bytes projectId releaseSequence
  parseEntries bytes (bytes.length - checksumSize) entryCount headerSize 0 ∅

/-- A container the parser reserves: for how many elements, each encoded in at least `encodedSize` bytes, and
where in the input they would start. -/
structure Reservation where
  count : Nat
  encodedSize : Nat
  start : Nat

/-- The chunk lists the entry loop reserves, also when it fails later. -/
def chunkReservations (bytes : Bytes) (payloadLen : Nat) : Nat → Nat → Nat → List Reservation
  | 0, _, _ => []
  | left + 1, offset, totalChunks =>
    match parseEntryHead bytes payloadLen offset totalChunks with
    | .error _ => []
    | .ok head =>
      ⟨head.fields.chunkCount.toNat, chunkSize, head.chunksStart⟩ ::
        match parseChunks bytes head.fields.chunkCount.toNat head.chunksStart with
        | .error _ => []
        | .ok (_, stop) => chunkReservations bytes payloadLen left stop head.totalChunks

/-- What a run of the parser reserves. -/
def reservations [Crypto] (bytes : Bytes) (projectId : ProjectId) (releaseSequence : UInt64) : List Reservation :=
  match parseHeader bytes projectId releaseSequence with
  | .error _ => []
  | .ok entryCount =>
    ⟨entryCount, entryHeaderSize + 1, headerSize⟩ ::
      chunkReservations bytes (bytes.length - checksumSize) entryCount headerSize 0

end

/-! ### Writing -/

def encodeChunk (chunk : CachedChunk) : Bytes :=
  u64Bytes chunk.logicalOffset ++ u32Bytes chunk.plainLen ++ chunk.chunkId.toList

def encodeEntry (path : String) (entry : CachedEntry) : PackResult Bytes := do
  let pathLen ← if (strBytes path).length < 2 ^ 16 then .ok (UInt16.ofNat (strBytes path).length)
    else fail (.invalidInput "build-cache path is too long")
  let chunkCount ← tryU32 entry.chunks.length "too many cached chunks"
  let modified := entry.stamp.modified.getD (0, 0)
  return u16Bytes pathLen ++
    [entry.layout.toByte, entry.access.toByte, entry.availability.toByte, entry.compression.toByte,
      if entry.stamp.modified.isSome then 1 else 0] ++
    u32Bytes entry.fixedBlockLen ++ u64Bytes entry.stamp.len ++ u64Bytes modified.1 ++ u32Bytes modified.2 ++
    u64Bytes entry.stamp.device ++ u64Bytes entry.stamp.inode ++ u32Bytes chunkCount ++ strBytes path ++
    entry.chunks.flatMap encodeChunk

def encodeEntries : List (String × CachedEntry) → PackResult Bytes
  | [] => return []
  | (path, entry) :: rest => do return (← encodeEntry path entry) ++ (← encodeEntries rest)

/-- The bytes `save` writes. -/
def encode [Crypto] (projectId : ProjectId) (releaseSequence : UInt64) (entries : List (String × CachedEntry)) :
    PackResult Bytes := do
  let entryCount ← tryU32 entries.length "too many build-cache entries"
  let body ← encodeEntries entries
  let bytes := magic ++ u16Bytes 2 ++ u16Bytes (UInt16.ofNat headerSize) ++ projectId.bytes.toList ++
    u64Bytes releaseSequence ++ u32Bytes entryCount ++ zeros 8 ++ body
  return bytes ++ (Crypto.hash bytes).toList

end BuildCache

end Hakutaku
