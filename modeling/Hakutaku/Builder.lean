import Hakutaku.Lib.Act
import Hakutaku.Source
import Hakutaku.Crypto
import Hakutaku.Pages
import Mathlib.Data.List.AList

/-!
# The packing loop (`packer.rs`)

`BuildContext` and the functions that add files to it: chunking, block reuse and the writers of new
segments. A program is an `Act` over the context, so what a failed build had done stays visible. The
system it runs on is part of the state (`World`): the failures its calls will have, the random bytes it
will draw, what its source files show, the segment files it holds, and the history of the seals.
-/

namespace Hakutaku
open Wire

/-- The gear-hash chunker, as a function of the content: offset and length of every chunk. -/
class FastCdc where
  chunks : Bytes → List (Nat × Nat)

/-- A chunker for closed examples: content of at most the smallest chunk size stays in one piece. -/
@[reducible] def exampleFastCdc : FastCdc := ⟨fun bytes => if bytes = [] then [] else [(0, bytes.length)]⟩

/-! ### Options and keys -/

structure PackOptions where
  incremental : Bool
  releaseSequenceFloor : UInt64
  developmentCache : Bool
  compressionLevel : Int
  segmentTargetBytes : UInt64
  deferredPrefixes : List String

def PackOptions.availability (options : PackOptions) (path : String) : Availability :=
  if options.deferredPrefixes.any fun deferred =>
      path = deferred ||
        (deferred.toList.isPrefixOf path.toList && (path.toList.drop deferred.toList.length).head? = some '/')
  then .deferred else .required

/-- What the packer uses of a publisher identity. -/
structure Identity where
  projectId : ProjectId
  rootKey : ByteArr 32
  signingKey : ByteArr 32

/-- What a build is given and does not change. -/
structure Job where
  options : PackOptions
  identity : Identity
  /-- The directory of the segment files. -/
  dataDirectory : String

/-- The job of closed examples. -/
def exampleJob : Job where
  options := ⟨true, 0, true, 3, 1024, []⟩
  identity := ⟨⟨.replicate 16 7⟩, .replicate 32 1, .replicate 32 2⟩
  dataDirectory := "out/data"

/-- One byte as two lower-case hexadecimal digits. -/
def hexByte (b : UInt8) : List Char := [Nat.digitChar (b.toNat / 16), Nat.digitChar (b.toNat % 16)]

def segmentFileName (id : SegmentId) : String := String.ofList (id.bytes.toList.flatMap hexByte) ++ ".taku"

/-! ### Segments and blocks of a build -/

structure SegmentClass where
  availability : Availability
  access : AccessClass
deriving DecidableEq

def hotSegmentTarget : UInt64 := 64 * 1024 * 1024
def normalSegmentTarget : UInt64 := 256 * 1024 * 1024
def transientSegmentTarget : UInt64 := 128 * 1024 * 1024

def SegmentClass.targetBytes (c : SegmentClass) (configured : UInt64) : UInt64 :=
  let classTarget := match c.access with
    | .hot => hotSegmentTarget
    | .normal => normalSegmentTarget
    | .streaming => configured
    | .transient => transientSegmentTarget
  if configured < classTarget then configured else classTarget

structure ReusableBlock where
  block : BlockRef
  segmentOrdinal : UInt16
deriving DecidableEq

inductive SegmentLocator
  | existing (id : SegmentId)
  | new (index : Nat)
deriving DecidableEq

structure PendingBlock where
  locator : SegmentLocator
  reference : BlockRef
deriving DecidableEq

/-- A segment being written. `file` is what the writer has produced so far. -/
structure NewSegment where
  dataDirectory : String
  projectId : ProjectId
  uid : ByteArr 16
  salt : ByteArr 16
  noncePrefix : ByteArr 8
  key : ByteArr 32
  availability : Availability
  blockCount : UInt32
  payloadLen : UInt64
  file : Bytes

structure ActiveSegment where
  cls : SegmentClass
  index : Nat
  writer : NewSegment

/-! ### The system -/

/-- What the file system shows of a source file while it is packed: its state when it is opened and
after it was read (`none` if it is not a file), and the bytes reading delivers. -/
structure SourceView where
  opened : Option SourceStamp
  bytes : Bytes
  closed : Option SourceStamp

/-- A call of `Aes256Key::seal`. -/
structure Seal where
  key : ByteArr 32
  nonce : ByteArr 12
deriving DecidableEq

/-- The system a build runs on. `faults` are the outcomes of its next calls, none after the last. `drawn`,
`derived` and `seals` are histories: the identities drawn for segments, the inputs of the derived keys, and the
calls of the AEAD. -/
structure World where
  faults : List (Option IoKind)
  entropy : Bytes
  sources : String → SourceView
  data : AList fun _ : SegmentId => Bytes
  drawn : List (ByteArr 16 × ByteArr 16)
  derived : List Bytes
  seals : List Seal

structure BuildContext where
  reuseIndex : AList fun _ : ByteArr 32 × Availability => ReusableBlock
  reuseSegments : List SegmentRecord
  currentReuse : AList fun _ : ByteArr 32 × SegmentClass => PendingBlock
  usedExistingSegments : AList fun _ : SegmentId => SegmentRecord
  newSegmentRecords : List (Option SegmentRecord)
  activeSegments : List ActiveSegment
  pendingBlocks : List PendingBlock
  chunkIds : List (ByteArr 32)
  fileRecords : List FileRecord
  filePaths : List String
  pathPool : Bytes
  /-- The bytes fed to the fingerprint hasher. -/
  fingerprint : Bytes
  reusedBlocks : UInt32
  newBlocks : UInt32
  newSegmentBytes : UInt64
  completedBytes : UInt64
  world : World

abbrev BuildM := Act (Stop PackError) BuildContext

/-! ### Integers of the packer -/

def tryU32 (n : Nat) (reason : String) : PackResult UInt32 :=
  if n < u32Size then .ok (UInt32.ofNat n) else fail (.invalidInput reason)

def tryU64 (n : Nat) (reason : String) : PackResult UInt64 :=
  if n < u64Size then .ok (UInt64.ofNat n) else fail (.invalidInput reason)

theorem tryU64_eq_ok {n : Nat} {reason : String} {v : UInt64} :
    tryU64 n reason = .ok v ↔ n < u64Size ∧ v = UInt64.ofNat n := by
  unfold tryU64
  split
  · simp [*, eq_comm]
  · simp [*]

/-- `u64::saturating_add`. -/
def satAdd64 (a b : UInt64) : UInt64 := if a.toNat + b.toNat < u64Size then a + b else UInt64.ofNat (u64Size - 1)

/-- `u32::saturating_add(1)`. -/
def satSucc32 (a : UInt32) : UInt32 := if a.toNat + 1 < u32Size then a + 1 else a

/-! ### Calls of the system -/

/-- One call that can fail as the world says. -/
def syscall : BuildM Unit := do
  match (← get).world.faults with
  | [] => pure ()
  | outcome :: rest =>
    modify fun s => { s with world := { s.world with faults := rest } }
    match outcome with
    | none => pure ()
    | some kind => throw (.err (.io kind))

/-- `random_array::<N>`. -/
def randomArray (n : Nat) : BuildM (ByteArr n) := do
  let s ← get
  if h : n ≤ s.world.entropy.length then
    modify fun s => { s with world := { s.world with entropy := s.world.entropy.drop n } }
    pure ⟨s.world.entropy.take n, by simp [h]⟩
  else throw (.err (.crypto "secure random generation"))

/-- Enters the input of a derived key into the history. -/
def recordDerivation (input : Bytes) : BuildM Unit :=
  modify fun s => { s with world := { s.world with derived := s.world.derived ++ [input] } }

/-- `validate_open_file` against the state the file shows. -/
def SourceFile.validateOpenFile (source : SourceFile) (state : Option SourceStamp) : BuildM Unit := do
  syscall
  if state ≠ some source.stamp then throw (.err source.sourceChanged)

/-- `SourceFile::open_verified`. -/
def SourceFile.openVerified (source : SourceFile) : BuildM SourceView := do
  syscall
  let view := (← get).world.sources source.hostPath
  source.validateOpenFile view.opened
  syscall
  syscall
  if 8 ≤ view.bytes.length ∧ isHakutakuKeyMagic (view.bytes.take 8) then throw (.err source.keyMaterial)
  return view

section
variable [Crypto]

/-- `Aes256Key::seal`. -/
def sealBytes (key : ByteArr 32) (nonce : ByteArr 12) (aad plaintext : Bytes) : BuildM Bytes := do
  modify fun s => { s with world := { s.world with seals := s.world.seals ++ [⟨key, nonce⟩] } }
  match Crypto.aeadSeal key nonce aad plaintext with
  | some encrypted => pure encrypted
  | none => throw (.err (.core (.authentication "AES-256-GCM seal")))

/-- `segment_key`, as a call of the build. -/
def ProjectKeys.deriveSegment (keys : ProjectKeys) (header : SegmentHeader) : BuildM (ByteArr 32) := do
  recordDerivation (deriveInput (ascii "segment".toList) [header.segmentUid.toList, header.salt.toList])
  return keys.segmentKey header

/-! ### Writing one segment -/

def segmentPhysicalOffset (payloadLen : UInt64) : PackResult UInt64 :=
  tryU64 (segmentHeaderSize + payloadLen.toNat) "segment offset overflow"

namespace NewSegment

def create (dataDirectory : String) (projectId : ProjectId) (keys : ProjectKeys) (availability : Availability) :
    BuildM NewSegment := do
  let uid ← randomArray 16
  let salt ← randomArray 16
  let noncePrefix ← randomArray 8
  modify fun s => { s with world := { s.world with drawn := s.world.drawn ++ [(uid, salt)] } }
  syscall
  syscall
  let incompleteHeader : SegmentHeader := {
    projectId, segmentUid := uid, salt, noncePrefix, blockCount := 0, payloadLen := 0
    fileLen := UInt64.ofNat segmentHeaderSize }
  let key ← keys.deriveSegment incompleteHeader
  return { dataDirectory, projectId, uid, salt, noncePrefix, key, availability, blockCount := 0, payloadLen := 0
           file := zeros segmentHeaderSize }

/-- Encrypts a block and appends it. Returns its reference and the writer behind it. -/
def writeBlock (w : NewSegment) (logicalOffset : UInt64) (plainLen : Nat) (codec : Codec) (encoded : Bytes) :
    BuildM (BlockRef × NewSegment) := do
  let plainLen ← tryU32 plainLen "block plaintext is too large"
  let storedLen ← tryU32 (encoded.length + 16) "block ciphertext is too large"
  let ordinal := w.blockCount
  let aad := blockAad w.projectId w.uid ordinal codec storedLen plainLen
  let encoded ← sealBytes w.key (nonce w.noncePrefix ordinal) aad encoded
  let physicalOffset ← segmentPhysicalOffset w.payloadLen
  syscall
  let payloadLen ← tryU64 (w.payloadLen.toNat + encoded.length) "segment length overflow"
  let blockCount ← tryU32 (w.blockCount.toNat + 1) "segment block count overflow"
  let reference : BlockRef := {
    logicalOffset, segmentOrdinal := 0, segmentBlockOrdinal := ordinal, physicalOffset, storedLen, plainLen, codec
    cipherDigest := (Crypto.hash encoded).prefixOf 16 half_le_hash }
  return (reference, { w with payloadLen, blockCount, file := w.file ++ encoded })

def wrongContent (w : NewSegment) (id : SegmentId) : PackError :=
  .invalidInput ("existing segment has wrong content: " ++ w.dataDirectory ++ "/" ++ segmentFileName id)

/-- Completes the header and gives the file its content-derived name. -/
def finish (w : NewSegment) : BuildM (SegmentRecord × UInt64) := do
  let fileLen ← tryU64 (segmentHeaderSize + w.payloadLen.toNat) "segment file length overflow"
  let header : SegmentHeader := {
    projectId := w.projectId, segmentUid := w.uid, salt := w.salt, noncePrefix := w.noncePrefix
    blockCount := w.blockCount, payloadLen := w.payloadLen, fileLen }
  syscall
  syscall
  syscall
  syscall
  syscall
  let file := putAt w.file 0 header.encode
  syscall
  let id := contentId file
  match (← get).world.data.lookup id with
  | some existing =>
    syscall
    if contentId existing ≠ id then throw (.err (w.wrongContent id))
    syscall
  | none =>
    syscall
    modify fun s => { s with world := { s.world with data := s.world.data.insert id file } }
  return ({ id, uid := w.uid, salt := w.salt, noncePrefix := w.noncePrefix, fileLen, payloadLen := w.payloadLen
            blockCount := w.blockCount, availability := w.availability }, fileLen)

end NewSegment

end

end Hakutaku
