import Hakutaku.Packer
import Mathlib.Data.List.Sort

/-!
# What a build can reuse (`packer.rs`)

The index a build makes of the blocks of the previous release, without those of the segments it selects for
consolidation, and the state a build starts in.
-/

namespace Hakutaku
open Wire

structure ReuseIndex where
  compacting : Bool
  blocks : AList fun _ : ByteArr 32 × Availability => ReusableBlock
  segments : List SegmentRecord

def compactionSmall : Nat := 64 * 1024
def compactionMinFragments : Nat := 64
def rewriteBudget : Nat := 64 * 1024 * 1024

/-- Stored and plain bytes of the blocks referenced from each segment. -/
structure Tally where
  stored : List Nat
  plain : List Nat
deriving DecidableEq

instance lawfulBEq_fileBlock : LawfulBEq (UInt16 × UInt32) := Prod.instLawfulBEq

/-- Counts the blocks of the records, each once: `seen` are those already counted. -/
def tallyBlocks (segments : List SegmentRecord) : List ReuseRecord → Tally → List (UInt16 × UInt32) → PackResult Tally
  | [], tally, _ => .ok tally
  | reuse :: rest, tally, seen =>
    let block := reuse.block
    let index := block.segmentOrdinal.toNat
    if segments.length ≤ index then fail (.invalidInput "reuse segment ordinal")
    else if (block.segmentOrdinal, block.segmentBlockOrdinal) ∈ seen then tallyBlocks segments rest tally seen
    else do
      let stored ← plainAdd u64Size (tally.stored.getD index 0) block.storedLen.toNat
      let plain ← plainAdd u64Size (tally.plain.getD index 0) block.plainLen.toNat
      tallyBlocks segments rest ⟨tally.stored.set index stored, tally.plain.set index plain⟩
        ((block.segmentOrdinal, block.segmentBlockOrdinal) :: seen)

/-- Whether there are enough small segments to consolidate them. -/
def isFragmented (segments : List SegmentRecord) : Bool :=
  compactionMinFragments ≤ segments.countP fun segment => segment.fileLen.toNat ≤ compactionSmall

/-- Whether a segment with `stored` referenced bytes is worth rewriting. -/
def isCandidate (fragmented : Bool) (segment : SegmentRecord) (stored : Nat) : Bool :=
  fragmented && segment.fileLen.toNat ≤ compactionSmall ||
    1024 * 1024 ≤ segment.payloadLen.toNat - stored && stored ≤ segment.payloadLen.toNat / 2

/-- The ordinals of the candidates among the segments from `index` on. -/
def compactionCandidates (fragmented : Bool) (tally : Tally) : List SegmentRecord → Nat → PackResult (List Nat)
  | [], _ => .ok []
  | segment :: rest, index => do
    if segment.payloadLen.toNat < tally.stored.getD index 0 then
      fail (.invalidInput "referenced bytes exceed segment payload")
    let candidates ← compactionCandidates fragmented tally rest (index + 1)
    if isCandidate fragmented segment (tally.stored.getD index 0) then return index :: candidates
    else return candidates

/-- Takes the candidates that the remaining budget pays for. -/
def selectCandidates (plain : List Nat) : List Nat → Nat → PackResult (List UInt16)
  | [], _ => .ok []
  | index :: rest, remaining =>
    if plain.getD index 0 ≤ remaining then do
      if 2 ^ 16 ≤ index then fail (.invalidInput "compaction segment ordinal")
      let selected ← selectCandidates plain rest (remaining - plain.getD index 0)
      return UInt16.ofNat index :: selected
    else selectCandidates plain rest remaining

def compactionSegments (segments : List SegmentRecord) (records : List ReuseRecord) : PackResult (List UInt16) := do
  let zero := List.replicate segments.length 0
  let tally ← tallyBlocks segments records ⟨zero, zero⟩ []
  let candidates ← compactionCandidates (isFragmented segments) tally segments 0
  let cheapestFirst := candidates.insertionSort fun a b =>
    tally.plain.getD a 0 < tally.plain.getD b 0 ∨ tally.plain.getD a 0 = tally.plain.getD b 0 ∧ a ≤ b
  selectCandidates tally.plain cheapestFirst rewriteBudget

/-- The loop of `load_reuse_index`: the first block of a chunk and availability stays. -/
def indexBlocks (segments : List SegmentRecord) (compact : List UInt16) : List ReuseRecord →
    (AList fun _ : ByteArr 32 × Availability => ReusableBlock) →
    PackResult (AList fun _ : ByteArr 32 × Availability => ReusableBlock)
  | [], blocks => .ok blocks
  | reuse :: rest, blocks =>
    if reuse.block.segmentOrdinal ∈ compact then indexBlocks segments compact rest blocks
    else
      match segments[reuse.block.segmentOrdinal.toNat]? with
      | none => fail (.invalidInput "reuse segment ordinal")
      | some segment =>
        indexBlocks segments compact rest (
          if (blocks.lookup (reuse.chunkId, segment.availability)).isSome then blocks
          else blocks.insert (reuse.chunkId, segment.availability) ⟨reuse.block, reuse.block.segmentOrdinal⟩)

/-- What a build reads of the previous release. -/
structure OldRelease where
  releaseSequence : UInt64
  sourceFingerprint : ByteArr 32
  segments : List SegmentRecord
  records : List ReuseRecord

/-- `load_reuse_index`, of a release or of none. -/
def loadReuseIndex : Option OldRelease → PackResult ReuseIndex
  | none => return ⟨false, ∅, []⟩
  | some old => do
    if 2 ^ 16 < old.segments.length then fail (.invalidInput "too many reuse segments")
    let compact ← compactionSegments old.segments old.records
    let blocks ← indexBlocks old.segments compact old.records ∅
    return ⟨!compact.isEmpty, blocks, old.segments⟩

/-- Whether the active release already has the sources, and nothing else asks for a new one. -/
def unchangedRelease (options : PackOptions) (compacting : Bool) (old : Option OldRelease)
    (sourceFingerprint : ByteArr 32) : Bool :=
  options.incremental && !compacting && old.any fun old =>
    old.sourceFingerprint = sourceFingerprint && options.releaseSequenceFloor ≤ old.releaseSequence

def fingerprintDomain : Bytes := ascii "Hakutaku source fingerprint v2".toList

/-- The state in which the packing loop starts, for a number of files. -/
def BuildContext.new (reuse : ReuseIndex) (fileCount : Nat) (world : World) : BuildContext where
  reuseIndex := reuse.blocks
  reuseSegments := reuse.segments
  currentReuse := ∅
  usedExistingSegments := ∅
  newSegmentRecords := []
  activeSegments := []
  pendingBlocks := []
  chunkIds := []
  fileRecords := []
  filePaths := []
  pathPool := []
  fingerprint := fingerprintDomain ++ u64Bytes (UInt64.ofNat fileCount)
  reusedBlocks := 0
  newBlocks := 0
  newSegmentBytes := 0
  completedBytes := 0
  world

end Hakutaku
