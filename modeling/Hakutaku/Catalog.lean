import Hakutaku.CanonicalPath
import Hakutaku.RecordCodec
import Hakutaku.Crypto

/-!
# The catalog (`format.rs`)

`CatalogData` is the publisher's owned catalog and `Catalog` the reader's view of the encoded bytes:
every accessor decodes its record from the bytes again. `Catalog.parse` is the header check followed
by the validation pass over the five tables.
-/

namespace Hakutaku
open Wire

/-! ### Loops and helpers -/

/-- `for i in 0..n`, with the loop's mutable state passed along. -/
def forUpTo {σ : Type} (body : Nat → σ → Result σ) (s : σ) : Nat → Result σ
  | 0 => .ok s
  | n + 1 => do body n (← forUpTo body s n)

def validateCount (value maximum : Nat) (name : String) : Result Unit :=
  if maximum < value then fail (.limitExceeded name) else .ok ()

def validateCatalogLen (totalLen : Nat) : Result Unit :=
  validateCount totalLen maxCatalogPlainLen "catalog plaintext length"

/-- Rust's `a.div_ceil(b)`. -/
def divCeil (a b : Nat) : Nat := a / b + if 0 < a % b then 1 else 0

section
variable [Target]

def checkedTableEnd (start count recordSize : Nat) : Result Nat := do
  let size ← okOr (checkedMul usizeSize count recordSize) (.invalidFormat "table size overflow")
  okOr (checkedAdd usizeSize start size) (.invalidFormat "table end overflow")

def tableOffset (start index recordSize : Nat) : Result Nat := checkedTableEnd start index recordSize

end

/-! ### The owned catalog and its encoder -/

/-- Publisher-side, owned representation of a complete catalog. -/
structure CatalogData where
  segments : List SegmentRecord
  files : List FileRecord
  pathSlots : List PathSlot
  pathPool : Bytes
  pages : List PageRecord
  totalBlocks : UInt32
  mapPageCount : UInt32
  reusePageCount : UInt32
deriving DecidableEq

/-- The header `encode` writes, from its counts and table offsets. -/
def catalogHeaderBytes (segmentCount fileCount totalBlocks pathPoolLen pathSlotCount pageCount mapPageCount
    reusePageCount segmentOffset fileOffset pathSlotOffset pathPoolOffset pageOffset : UInt32) : Bytes :=
  let out := zeros catalogHeaderSize
  let out := putAt out 0 catalogMagic
  let out := putAt out 8 (u16Bytes formatMajor)
  let out := putAt out 10 (u16Bytes 64)
  let out := putAt out 12 (u32Bytes segmentCount)
  let out := putAt out 16 (u32Bytes fileCount)
  let out := putAt out 20 (u32Bytes totalBlocks)
  let out := putAt out 24 (u32Bytes pathPoolLen)
  let out := putAt out 28 (u32Bytes pathSlotCount)
  let out := putAt out 32 (u32Bytes pageCount)
  let out := putAt out 36 (u32Bytes mapPageCount)
  let out := putAt out 40 (u32Bytes reusePageCount)
  let out := putAt out 44 (u32Bytes segmentOffset)
  let out := putAt out 48 (u32Bytes fileOffset)
  let out := putAt out 52 (u32Bytes pathSlotOffset)
  let out := putAt out 56 (u32Bytes pathPoolOffset)
  putAt out 60 (u32Bytes pageOffset)

def CatalogData.encode [Target] (d : CatalogData) : Result Bytes := do
  validateCount d.segments.length maxSegments "segment count"
  validateCount d.files.length maxFiles "file count"
  validateCount d.totalBlocks.toNat maxBlocks "block count"
  validateCount d.pages.length maxPages "page count"
  validateCount d.pathPool.length maxPathPoolLen "path pool"
  if d.pathSlots = [] ∨ ¬ d.pathSlots.length.isPowerOfTwo then
    fail (.invalidFormat "path slot count is not a power of two")
  if checkedAdd u32Size d.mapPageCount.toNat d.reusePageCount.toNat ≠ some (d.pages.length % u32Size) then
    fail (.invalidFormat "page kind counts")
  let segmentOffset := catalogHeaderSize
  let fileOffset ← checkedTableEnd segmentOffset d.segments.length segmentRecordSize
  let pathSlotOffset ← checkedTableEnd fileOffset d.files.length fileRecordSize
  let pathPoolOffset ← checkedTableEnd pathSlotOffset d.pathSlots.length pathSlotSize
  let pageOffset ← okOr (checkedAdd usizeSize pathPoolOffset d.pathPool.length) (.invalidFormat "catalog size overflow")
  let totalLen ← checkedTableEnd pageOffset d.pages.length pageRecordSize
  validateCatalogLen totalLen
  let out := catalogHeaderBytes (← usizeToU32 d.segments.length) (← usizeToU32 d.files.length) d.totalBlocks
    (← usizeToU32 d.pathPool.length) (← usizeToU32 d.pathSlots.length) (← usizeToU32 d.pages.length)
    d.mapPageCount d.reusePageCount (← usizeToU32 segmentOffset) (← usizeToU32 fileOffset)
    (← usizeToU32 pathSlotOffset) (← usizeToU32 pathPoolOffset) (← usizeToU32 pageOffset)
  return out ++ d.segments.flatMap SegmentRecord.encode ++ d.files.flatMap FileRecord.encode ++
    d.pathSlots.flatMap PathSlot.encode ++ d.pathPool ++ d.pages.flatMap PageRecord.encode

/-! ### The reader's view -/

/-- Borrow-free runtime view over an encoded catalog. -/
structure Catalog where
  bytes : Bytes
  segmentCount : UInt32
  fileCount : UInt32
  totalBlocks : UInt32
  pathPoolLen : UInt32
  pathSlotCount : UInt32
  pageCount : UInt32
  mapPageCount : UInt32
  reusePageCount : UInt32
  segmentOffset : Nat
  fileOffset : Nat
  pathSlotOffset : Nat
  pathPoolOffset : Nat
  pageOffset : Nat
deriving DecidableEq

namespace Catalog
variable [Target]

def segment (c : Catalog) (index : Nat) : Result SegmentRecord := do
  if c.segmentCount.toNat ≤ index then fail (.invalidFormat "segment index")
  SegmentRecord.parse c.bytes (← tableOffset c.segmentOffset index segmentRecordSize)

def file (c : Catalog) (index : Nat) : Result FileRecord := do
  if c.fileCount.toNat ≤ index then fail (.invalidFormat "file index")
  FileRecord.parse c.bytes (← tableOffset c.fileOffset index fileRecordSize)

def pathSlot (c : Catalog) (index : Nat) : Result PathSlot := do
  if c.pathSlotCount.toNat ≤ index then fail (.invalidFormat "path slot index")
  PathSlot.parse c.bytes (← tableOffset c.pathSlotOffset index pathSlotSize)

def page (c : Catalog) (index : Nat) : Result PageRecord := do
  if c.pageCount.toNat ≤ index then fail (.invalidFormat "page index")
  PageRecord.parse c.bytes (← tableOffset c.pageOffset index pageRecordSize)

/-- The bytes `Catalog::path` decodes. -/
def pathBytes (c : Catalog) (fileIndex : Nat) : Result Bytes := do
  let file ← c.file fileIndex
  let start ← okOr (checkedAdd usizeSize c.pathPoolOffset file.pathOffset.toNat) (.invalidFormat "path offset overflow")
  checkedSlice c.bytes start file.pathLen.toNat

def path (c : Catalog) (fileIndex : Nat) : Result String := do
  okOr (fromUtf8 (← c.pathBytes fileIndex)) (.invalidFormat "path is not UTF-8")

/-- One probe of `find_file`: the answer, or `none` to go on. -/
def probe (c : Catalog) (path : String) (hash : UInt32) (slotIndex : Nat) : Result (Option (Option Nat)) := do
  let slot ← c.pathSlot slotIndex
  if slot.fileIndex = emptyPathSlot then return some none
  if slot.hash = hash then
    if (← c.path slot.fileIndex.toNat) = path then return some (some slot.fileIndex.toNat)
  return none

/-- The probe loop of `find_file` with `left` probes to go. -/
def findFrom (c : Catalog) (path : String) (hash : UInt32) (mask : Nat) : Nat → Nat → Result (Option Nat)
  | _, 0 => fail (.invalidFormat "path index has no empty slot")
  | i, left + 1 => do
    match ← c.probe path hash ((hash.toNat + i) % u32Size &&& mask) with
    | some answer => return answer
    | none => findFrom c path hash mask (i + 1) left

def findFile [Crypto] (c : Catalog) (path : String) (pathKey : ByteArr 32) : Result (Option Nat) := do
  validateCanonicalPath path
  let hash := pathFingerprint pathKey (strBytes path)
  let mask ← plainSub c.pathSlotCount.toNat 1
  c.findFrom path hash mask 0 c.pathSlotCount.toNat

/-! ### Validation -/

def validateSegment (c : Catalog) (index : Nat) : Result Unit := do
  let segment ← c.segment index
  let expectedFileLen ←
    okOr (checkedAdd u64Size segmentHeaderSize segment.payloadLen.toNat) (.invalidFormat "segment record length overflow")
  if segment.fileLen.toNat ≠ expectedFileLen then fail (.invalidFormat "segment record length")

def validateFile (c : Catalog) (index : Nat) : Result Unit := do
  let file ← c.file index
  let pathEnd ←
    okOr (checkedAdd usizeSize file.pathOffset.toNat file.pathLen.toNat) (.invalidFormat "path range overflow")
  if file.pathLen.toNat = 0 ∨ c.pathPoolLen.toNat < pathEnd then fail (.invalidFormat "file path range")
  let blockEnd ←
    okOr (checkedAdd u32Size file.firstBlock.toNat file.blockCount.toNat) (.invalidFormat "file block range overflow")
  if c.totalBlocks.toNat < blockEnd then fail (.invalidFormat "file block range")
  validateCanonicalPath (← c.path index)

def validateSlot (c : Catalog) (index : Nat) : Result Unit := do
  let slot ← c.pathSlot index
  if slot.fileIndex ≠ emptyPathSlot ∧ c.fileCount.toNat ≤ slot.fileIndex.toNat then
    fail (.invalidFormat "path slot file index")

/-- The length and offset checks on one page, whose kind has `capacity` records of `recordSize` bytes
and which is the `localPage`-th page of its kind. Returns the end of the page in the region. -/
def validatePageShape (c : Catalog) (page : PageRecord) (capacity recordSize localPage expectedPageOffset : Nat) :
    Result Nat := do
  let first ← okOr (checkedMul u32Size localPage capacity) (.invalidFormat "page record range overflow")
  let recordCount := min (c.totalBlocks.toNat - first) capacity
  let payload ← okOr (checkedMul usizeSize recordCount recordSize) (.invalidFormat "page plaintext length overflow")
  let expectedPlainLen ←
    okOr (checkedAdd usizeSize pageHeaderSize payload) (.invalidFormat "page plaintext length overflow")
  if page.plainLen.toNat ≠ expectedPlainLen then fail (.invalidFormat "page plaintext length is non-canonical")
  if page.relativeOffset.toNat ≠ expectedPageOffset then fail (.invalidFormat "non-contiguous page region")
  okOr (checkedAdd u64Size expectedPageOffset page.storedLen.toNat) (.invalidFormat "page region overflow")

/-- One page of the validation pass; the state is the expected offset of the page in its region. -/
def validatePage (c : Catalog) (index : Nat) (expectedPageOffset : Nat) : Result Nat := do
  let page ← c.page index
  let expectedKind := if index < c.mapPageCount.toNat then PageKind.blockMap else .reuse
  let expectedOrdinal ← plainAdd u32Size index 1
  if page.kind ≠ expectedKind ∨ page.nonceOrdinal.toNat ≠ expectedOrdinal then
    fail (.invalidFormat "non-canonical page ordering")
  match page.kind with
  | .blockMap => c.validatePageShape page blocksPerMapPage blockRefSize index expectedPageOffset
  | .reuse =>
    c.validatePageShape page reusePerPage reuseRecordSize (← plainSub index c.mapPageCount.toNat) expectedPageOffset

def validateRecords (c : Catalog) : Result Unit := do
  let expectedMapPages := divCeil c.totalBlocks.toNat blocksPerMapPage
  let expectedReusePages := divCeil c.totalBlocks.toNat reusePerPage
  if c.mapPageCount.toNat ≠ expectedMapPages ∨ c.reusePageCount.toNat ≠ expectedReusePages then
    fail (.invalidFormat "page count does not cover block records")
  forUpTo (fun i _ => c.validateSegment i) () c.segmentCount.toNat
  forUpTo (fun i _ => c.validateFile i) () c.fileCount.toNat
  forUpTo (fun i _ => c.validateSlot i) () c.pathSlotCount.toNat
  let _ ← forUpTo c.validatePage 0 c.pageCount.toNat
  return ()

/-- The header part of `Catalog::parse`, up to the construction of the view. -/
def parseHeader (bytes : Bytes) : Result Catalog := do
  requireLen bytes catalogHeaderSize "catalog header"
  requireMagic bytes catalogMagic "catalog magic"
  let major ← readU16 bytes 8
  if major ≠ formatMajor then fail (.invalidFormat "catalog version or header size")
  if (← readU16 bytes 10).toNat ≠ catalogHeaderSize then fail (.invalidFormat "catalog version or header size")
  let segmentCount ← readU32 bytes 12
  let fileCount ← readU32 bytes 16
  let totalBlocks ← readU32 bytes 20
  let pathPoolLen ← readU32 bytes 24
  let pathSlotCount ← readU32 bytes 28
  let pageCount ← readU32 bytes 32
  let mapPageCount ← readU32 bytes 36
  let reusePageCount ← readU32 bytes 40
  validateCount segmentCount.toNat maxSegments "segment count"
  validateCount fileCount.toNat maxFiles "file count"
  validateCount totalBlocks.toNat maxBlocks "block count"
  validateCount pageCount.toNat maxPages "page count"
  validateCount pathPoolLen.toNat maxPathPoolLen "path pool"
  if pathSlotCount.toNat = 0 ∨ ¬ pathSlotCount.toNat.isPowerOfTwo then
    fail (.invalidFormat "path slot count is not a power of two")
  if checkedAdd u32Size mapPageCount.toNat reusePageCount.toNat ≠ some pageCount.toNat then
    fail (.invalidFormat "page kind counts")
  let segmentOffset ← readU32 bytes 44
  let fileOffset ← readU32 bytes 48
  let pathSlotOffset ← readU32 bytes 52
  let pathPoolOffset ← readU32 bytes 56
  let pageOffset ← readU32 bytes 60
  -- Only the counts bounded above are multiplied unchecked.
  let expectedFile ← plainAdd usizeSize catalogHeaderSize (← plainMul usizeSize segmentCount.toNat segmentRecordSize)
  let expectedSlots ← plainAdd usizeSize expectedFile (← plainMul usizeSize fileCount.toNat fileRecordSize)
  let expectedPool ← checkedTableEnd expectedSlots pathSlotCount.toNat pathSlotSize
  let expectedPages ← okOr (checkedAdd usizeSize expectedPool pathPoolLen.toNat) (.invalidFormat "catalog size overflow")
  let expectedLen ← checkedTableEnd expectedPages pageCount.toNat pageRecordSize
  if ¬ (segmentOffset.toNat = catalogHeaderSize ∧ fileOffset.toNat = expectedFile ∧
      pathSlotOffset.toNat = expectedSlots ∧ pathPoolOffset.toNat = expectedPool ∧
      pageOffset.toNat = expectedPages ∧ expectedLen = bytes.length) then
    fail (.invalidFormat "non-canonical catalog layout")
  return {
    bytes, segmentCount, fileCount, totalBlocks, pathPoolLen, pathSlotCount, pageCount, mapPageCount,
    reusePageCount
    segmentOffset := segmentOffset.toNat
    fileOffset := fileOffset.toNat
    pathSlotOffset := pathSlotOffset.toNat
    pathPoolOffset := pathPoolOffset.toNat
    pageOffset := pageOffset.toNat }

def parse (bytes : Bytes) : Result Catalog := do
  let result ← parseHeader bytes
  result.validateRecords
  return result

end Catalog

end Hakutaku
