import Hakutaku.Packer

/-!
# What adding files does to a build

One statement for each function of the packing loop. `SegmentsOnly`: the calls of the system and of the
segment writers leave the blocks of the build alone. `Added`: adding chunks appends their ids and blocks
and changes nothing of the files. `addFile_spec`: what a file leaves behind.
-/

namespace Hakutaku
open Wire Act

namespace BuildContext
variable {s s' t : BuildContext}

/-! ### Calls of the system -/

/-- Only the segments being written and the system differ, and the system still has the same sources. -/
def SegmentsOnly (s s' : BuildContext) : Prop :=
  ∃ active records bytes world, s' = { s with
    activeSegments := active, newSegmentRecords := records, newSegmentBytes := bytes, world := world } ∧
      world.sources = s.world.sources

theorem SegmentsOnly.refl (s : BuildContext) : SegmentsOnly s s := ⟨_, _, _, _, rfl, rfl⟩

theorem SegmentsOnly.trans (h : SegmentsOnly s s') (h' : SegmentsOnly s' t) : SegmentsOnly s t := by
  obtain ⟨_, _, _, _, rfl, hsources⟩ := h
  obtain ⟨_, _, _, _, rfl, hsources'⟩ := h'
  exact ⟨_, _, _, _, rfl, hsources'.trans hsources⟩

/-- A program that only touches the segments being written and the system. -/
def Quiet {α : Type} (p : BuildM α) : Prop := ∀ s, ensures p (fun _ s' => SegmentsOnly s s') s

theorem Quiet.pure {α : Type} (a : α) : Quiet (Pure.pure a) := fun s => SegmentsOnly.refl s

theorem Quiet.throw {α : Type} (e : Stop PackError) : Quiet (MonadExcept.throw e : BuildM α) := fun _ => trivial

theorem Quiet.lift {α : Type} (x : PackResult α) : Quiet (liftM x : BuildM α) :=
  fun s => (wp_lift x).2 ⟨fun _ _ => SegmentsOnly.refl s, fun _ _ => trivial⟩

theorem Quiet.bind {α β : Type} {p : BuildM α} {g : α → BuildM β} (hp : Quiet p) (hg : ∀ a, Quiet (g a)) :
    Quiet (p >>= g) := fun s =>
  wp_bind.2 ((hp s).mono fun a s' h => (hg a s').mono fun _ _ h' => h.trans h')

theorem Quiet.get_bind {β : Type} {g : BuildContext → BuildM β} (hg : ∀ s, Quiet (g s)) : Quiet (get >>= g) :=
  fun s => hg s s

theorem Quiet.modify_bind {β : Type} {f : BuildContext → BuildContext} {g : PUnit → BuildM β}
    (hf : ∀ s, SegmentsOnly s (f s)) (hg : Quiet (g ⟨⟩)) : Quiet (modify f >>= g) := fun s =>
  (hg (f s)).mono fun _ _ h => (hf s).trans h

theorem Quiet.update {f : BuildContext → BuildContext} (hf : ∀ s, SegmentsOnly s (f s)) : Quiet (modify f) := hf

theorem Quiet.ite {α : Type} {c : Prop} [Decidable c] {p q : BuildM α} (hp : c → Quiet p) (hq : ¬ c → Quiet q) :
    Quiet (if c then p else q) := by
  split
  · exact hp ‹_›
  · exact hq ‹_›

theorem Quiet.syscall : Quiet syscall := by
  refine .get_bind fun s => ?_
  split
  · exact .pure _
  · refine .modify_bind (fun s => ⟨_, _, _, _, rfl, rfl⟩) ?_
    split
    · exact .pure _
    · exact .throw _

theorem Quiet.randomArray (n : Nat) : Quiet (randomArray n) := by
  refine .get_bind fun s => ?_
  split
  · exact .modify_bind (fun s => ⟨_, _, _, _, rfl, rfl⟩) (.pure _)
  · exact .throw _

theorem Quiet.validateOpenFile (source : SourceFile) (state : Option SourceStamp) :
    Quiet (source.validateOpenFile state) :=
  .bind .syscall fun _ => .ite (fun _ => .throw _) fun _ => .pure _

theorem Quiet.openVerified (source : SourceFile) : Quiet source.openVerified :=
  .bind .syscall fun _ => .get_bind fun _ => .bind (.validateOpenFile _ _) fun _ => .bind .syscall fun _ =>
    .bind .syscall fun _ => .ite (fun _ => .bind (.throw _) fun _ => .pure _) fun _ => .pure _

section
variable [Crypto]

theorem Quiet.sealBytes (key : ByteArr 32) (nonce : ByteArr 12) (aad plaintext : Bytes) :
    Quiet (sealBytes key nonce aad plaintext) := by
  refine .modify_bind (fun s => ⟨_, _, _, _, rfl, rfl⟩) ?_
  split
  · exact .pure _
  · exact .throw _

theorem Quiet.deriveSegment (keys : ProjectKeys) (header : SegmentHeader) : Quiet (keys.deriveSegment header) :=
  .modify_bind (fun _ => ⟨_, _, _, _, rfl, rfl⟩) (.pure _)

theorem Quiet.create (dataDirectory : String) (projectId : ProjectId) (keys : ProjectKeys) (availability : Availability) :
    Quiet (NewSegment.create dataDirectory projectId keys availability) :=
  .bind (.randomArray 16) fun _ => .bind (.randomArray 16) fun _ => .bind (.randomArray 8) fun _ =>
    .modify_bind (fun _ => ⟨_, _, _, _, rfl, rfl⟩) (.bind .syscall fun _ => .bind .syscall fun _ =>
      .bind (.deriveSegment _ _) fun _ => .pure _)

theorem Quiet.writeBlock (w : NewSegment) (logicalOffset : UInt64) (plainLen : Nat) (codec : Codec) (encoded : Bytes) :
    Quiet (w.writeBlock logicalOffset plainLen codec encoded) :=
  .bind (.lift _) fun _ => .bind (.lift _) fun _ => .bind (.sealBytes _ _ _ _) fun _ => .bind (.lift _) fun _ =>
    .bind .syscall fun _ => .bind (.lift _) fun _ => .bind (.lift _) fun _ => .pure _

theorem Quiet.finish (w : NewSegment) : Quiet w.finish := by
  refine .bind (.lift _) fun _ => .bind .syscall fun _ => .bind .syscall fun _ => .bind .syscall fun _ =>
    .bind .syscall fun _ => .bind .syscall fun _ => .bind .syscall fun _ => .get_bind fun _ => ?_
  split
  · exact .bind .syscall fun _ => .ite (fun _ => .bind (.throw _) fun _ => .bind .syscall fun _ => .pure _) fun _ =>
      .bind .syscall fun _ => .pure _
  · exact .bind .syscall fun _ => .modify_bind (fun _ => ⟨_, _, _, _, rfl, rfl⟩) (.pure _)

theorem Quiet.startSegment (job : Job) (cls : SegmentClass) : Quiet (startSegment job cls) :=
  .get_bind fun _ => .bind (.create _ _ _ _) fun _ => .modify_bind (fun _ => ⟨_, _, _, _, rfl, rfl⟩) (.get_bind fun _ => .pure _)

theorem Quiet.finishActiveSegment (position : Nat) : Quiet (finishActiveSegment position) := by
  refine .get_bind fun _ => ?_
  split
  · exact .throw _
  · exact .modify_bind (fun _ => ⟨_, _, _, _, rfl, rfl⟩) (.bind (.finish _) fun _ =>
      .modify_bind (fun _ => ⟨_, _, _, _, rfl, rfl⟩) (.get_bind fun _ => .bind (.lift _) fun _ => .update fun _ => ⟨_, _, _, _, rfl, rfl⟩))

theorem Quiet.finishSegments (left : Nat) : Quiet (finishSegments left) := by
  induction left with
  | zero => exact .pure _
  | succ left ih =>
    refine .get_bind fun _ => ?_
    split
    · exact .pure _
    · exact .bind (.finishActiveSegment _) fun _ => ih

theorem Quiet.finishActiveSegments : Quiet finishActiveSegments := .get_bind fun _ => .finishSegments _

theorem Quiet.rotateSegment (job : Job) (cls : SegmentClass) (estimatedStored : UInt64) :
    Quiet (rotateSegment job cls estimatedStored) := by
  refine .get_bind fun _ => ?_
  split
  · exact .pure _
  · split
    · exact .throw _
    · exact .ite (fun _ => .finishActiveSegment _) fun _ => .pure _

theorem Quiet.openSegment (job : Job) (cls : SegmentClass) : Quiet (openSegment job cls) := by
  refine .get_bind fun _ => ?_
  split
  · exact .pure _
  · exact .startSegment job cls

end

/-! ### One chunk -/

/-- The blocks added for the chunks of a file: in order, each at the place and of the length of its chunk, and
under a codec the policy accepts. Nothing of the files changes. -/
structure Added (s s' : BuildContext) (policy : CompressionPolicy) (added : List (CachedChunk × PendingBlock)) : Prop where
  pendingBlocks : s'.pendingBlocks = s.pendingBlocks ++ added.map Prod.snd
  chunkIds : s'.chunkIds = s.chunkIds ++ added.map fun x => x.1.chunkId
  fingerprint : s'.fingerprint = s.fingerprint ++ added.flatMap fun x => x.1.chunkId.toList
  fits : ∀ x ∈ added, x.2.reference.logicalOffset = x.1.logicalOffset ∧ x.2.reference.plainLen = x.1.plainLen ∧
    policy.accepts x.2.reference.codec
  files : s'.fileRecords = s.fileRecords ∧ s'.filePaths = s.filePaths ∧ s'.pathPool = s.pathPool ∧
    s'.completedBytes = s.completedBytes
  index : s'.reuseIndex = s.reuseIndex ∧ s'.reuseSegments = s.reuseSegments
  sources : s'.world.sources = s.world.sources

variable {policy : CompressionPolicy} {xs ys : List (CachedChunk × PendingBlock)}

theorem SegmentsOnly.added (h : SegmentsOnly s s') : Added s s' policy [] := by
  obtain ⟨_, _, _, _, rfl, hsources⟩ := h
  exact ⟨(List.append_nil _).symm, (List.append_nil _).symm, (List.append_nil _).symm, fun _ h => absurd h List.not_mem_nil,
    ⟨rfl, rfl, rfl, rfl⟩, ⟨rfl, rfl⟩, hsources⟩

theorem Added.refl (s : BuildContext) (policy : CompressionPolicy) : Added s s policy [] := (SegmentsOnly.refl s).added

theorem Added.trans (h : Added s s' policy xs) (h' : Added s' t policy ys) : Added s t policy (xs ++ ys) where
  pendingBlocks := by rw [h'.pendingBlocks, h.pendingBlocks, List.map_append, List.append_assoc]
  chunkIds := by rw [h'.chunkIds, h.chunkIds, List.map_append, List.append_assoc]
  fingerprint := by rw [h'.fingerprint, h.fingerprint, List.flatMap_append, List.append_assoc]
  fits x hx := by
    rcases List.mem_append.1 hx with hx | hx
    · exact h.fits x hx
    · exact h'.fits x hx
  files := by
    obtain ⟨h1, h2, h3, h4⟩ := h.files
    obtain ⟨h1', h2', h3', h4'⟩ := h'.files
    exact ⟨h1'.trans h1, h2'.trans h2, h3'.trans h3, h4'.trans h4⟩
  index := ⟨h'.index.1.trans h.index.1, h'.index.2.trans h.index.2⟩
  sources := h'.sources.trans h.sources

theorem currentBlock_eq_some {chunkId : ByteArr 32} {cls : SegmentClass} {plainLen : UInt32} {pending : PendingBlock} :
    s.currentBlock chunkId cls plainLen policy = some pending ↔
      s.currentReuse.lookup (chunkId, cls) = some pending ∧ pending.reference.plainLen = plainLen ∧
        policy.accepts pending.reference.codec := by
  simp only [currentBlock, Option.filter_eq_some_iff, Bool.and_eq_true, decide_eq_true_eq]

theorem existingBlock_eq_some {chunkId : ByteArr 32} {availability : Availability} {plainLen : UInt32}
    {reused : ReusableBlock} :
    s.existingBlock chunkId availability plainLen policy = some reused ↔
      s.reuseIndex.lookup (chunkId, availability) = some reused ∧ reused.block.plainLen = plainLen ∧
        policy.accepts reused.block.codec := by
  simp only [existingBlock, Option.filter_eq_some_iff, Bool.and_eq_true, decide_eq_true_eq]

/-- The state after `record_chunk`. -/
def recorded (s : BuildContext) (chunkId : ByteArr 32) : BuildContext :=
  { s with fingerprint := s.fingerprint ++ chunkId.toList, chunkIds := s.chunkIds ++ [chunkId] }

theorem recordChunk_runOn (chunkId : ByteArr 32) : (recordChunk chunkId).runOn s = (.ok (), s.recorded chunkId) := rfl

theorem currentBlock_recorded (id chunkId : ByteArr 32) (cls : SegmentClass) (plainLen : UInt32) :
    (s.recorded id).currentBlock chunkId cls plainLen policy = s.currentBlock chunkId cls plainLen policy := rfl

theorem existingBlock_recorded (id chunkId : ByteArr 32) (availability : Availability) (plainLen : UInt32) :
    (s.recorded id).existingBlock chunkId availability plainLen policy =
      s.existingBlock chunkId availability plainLen policy := rfl

section Reuse
variable {logicalOffset : UInt64} {plainLen : UInt32} {chunkId : ByteArr 32} {availability : Availability}
  {access : AccessClass}

/-- A block of this build stands for the chunk. -/
theorem tryReuseChunk_current {reused : PendingBlock}
    (h : s.currentBlock chunkId ⟨availability, access⟩ plainLen policy = some reused) :
    (tryReuseChunk logicalOffset plainLen chunkId availability access policy).runOn s =
      (.ok true, s.shareBlock reused logicalOffset) := by
  unfold tryReuseChunk
  rw [runOn_bind_ok runOn_get, h]
  rfl

/-- A block of the previous release stands for the chunk. -/
theorem tryReuseChunk_existing {reused : ReusableBlock} {segment : SegmentRecord}
    (hcurrent : s.currentBlock chunkId ⟨availability, access⟩ plainLen policy = none)
    (h : s.existingBlock chunkId availability plainLen policy = some reused)
    (hsegment : s.reuseSegments[reused.segmentOrdinal.toNat]? = some segment) :
    (tryReuseChunk logicalOffset plainLen chunkId availability access policy).runOn s =
      (.ok true, s.keepExisting chunkId ⟨availability, access⟩ segment reused.block logicalOffset) := by
  unfold tryReuseChunk
  rw [runOn_bind_ok runOn_get, hcurrent, h]
  simp only [hsegment]
  rfl

theorem tryReuseChunk_ordinal {reused : ReusableBlock}
    (hcurrent : s.currentBlock chunkId ⟨availability, access⟩ plainLen policy = none)
    (h : s.existingBlock chunkId availability plainLen policy = some reused)
    (hsegment : s.reuseSegments[reused.segmentOrdinal.toNat]? = none) :
    (tryReuseChunk logicalOffset plainLen chunkId availability access policy).runOn s =
      (.error (.err (.invalidInput "reuse segment ordinal")), s) := by
  unfold tryReuseChunk
  rw [runOn_bind_ok runOn_get, hcurrent, h]
  simp only [hsegment]
  rfl

/-- No block stands for the chunk, and nothing happens. -/
theorem tryReuseChunk_missing (hcurrent : s.currentBlock chunkId ⟨availability, access⟩ plainLen policy = none)
    (h : s.existingBlock chunkId availability plainLen policy = none) :
    (tryReuseChunk logicalOffset plainLen chunkId availability access policy).runOn s = (.ok false, s) := by
  unfold tryReuseChunk
  rw [runOn_bind_ok runOn_get, hcurrent, h]
  rfl

end Reuse

/-- The ids of a single chunk. -/
theorem flatMap_one (chunk : CachedChunk) (pending : PendingBlock) :
    [(chunk, pending)].flatMap (fun x => x.1.chunkId.toList) = chunk.chunkId.toList := by
  rw [List.flatMap_singleton]

theorem fits_one {chunk : CachedChunk} {pending : PendingBlock}
    (hoffset : pending.reference.logicalOffset = chunk.logicalOffset)
    (hlen : pending.reference.plainLen = chunk.plainLen) (hcodec : policy.accepts pending.reference.codec) :
    ∀ x ∈ [(chunk, pending)], x.2.reference.logicalOffset = x.1.logicalOffset ∧
      x.2.reference.plainLen = x.1.plainLen ∧ policy.accepts x.2.reference.codec := by
  intro x hx
  obtain rfl := List.mem_singleton.1 hx
  exact ⟨hoffset, hlen, hcodec⟩

theorem Added.share {chunk : CachedChunk} {cls : SegmentClass} {reused : PendingBlock}
    (h : s.currentBlock chunk.chunkId cls chunk.plainLen policy = some reused) :
    Added s ((s.recorded chunk.chunkId).shareBlock reused chunk.logicalOffset) policy
      [(chunk, { reused with reference := { reused.reference with logicalOffset := chunk.logicalOffset } })] := by
  obtain ⟨-, hlen, hcodec⟩ := currentBlock_eq_some.1 h
  exact ⟨rfl, rfl, congrArg _ (flatMap_one _ _).symm, fits_one rfl hlen hcodec, ⟨rfl, rfl, rfl, rfl⟩, ⟨rfl, rfl⟩, rfl⟩

theorem Added.keep {chunk : CachedChunk} {cls : SegmentClass} {reused : ReusableBlock}
    (h : s.existingBlock chunk.chunkId cls.availability chunk.plainLen policy = some reused) (segment : SegmentRecord) :
    Added s ((s.recorded chunk.chunkId).keepExisting chunk.chunkId cls segment reused.block chunk.logicalOffset) policy
      [(chunk, ⟨.existing segment.id, { reused.block with logicalOffset := chunk.logicalOffset }⟩)] := by
  obtain ⟨-, hlen, hcodec⟩ := existingBlock_eq_some.1 h
  exact ⟨rfl, rfl, congrArg _ (flatMap_one _ _).symm, fits_one rfl hlen hcodec, ⟨rfl, rfl, rfl, rfl⟩, ⟨rfl, rfl⟩, rfl⟩

theorem Added.new {chunk : CachedChunk} {cls : SegmentClass} {active : ActiveSegment} {reference : BlockRef}
    (ht : SegmentsOnly (s.recorded chunk.chunkId) t) (position : Nat)
    (hoffset : reference.logicalOffset = chunk.logicalOffset) (hlen : reference.plainLen = chunk.plainLen)
    (hcodec : policy.accepts reference.codec) :
    Added s (t.appendNew chunk.chunkId cls position active reference) policy [(chunk, ⟨.new active.index, reference⟩)] := by
  obtain ⟨_, _, _, _, rfl, hsources⟩ := ht
  exact ⟨rfl, rfl, congrArg _ (flatMap_one _ _).symm, fits_one hoffset hlen hcodec, ⟨rfl, rfl, rfl, rfl⟩,
    ⟨rfl, rfl⟩, hsources⟩

/-- A chunk that was reused: its block, and the state behind it. -/
theorem tryReuseChunk_spec (chunk : CachedChunk) (cls : SegmentClass) :
    ensures (tryReuseChunk chunk.logicalOffset chunk.plainLen chunk.chunkId cls.availability cls.access policy)
      (fun reused t => if reused then ∃ pending, Added s t policy [(chunk, pending)] else t = s.recorded chunk.chunkId ∧
        s.currentBlock chunk.chunkId cls chunk.plainLen policy = none ∧
        s.existingBlock chunk.chunkId cls.availability chunk.plainLen policy = none) (s.recorded chunk.chunkId) := by
  refine ensures_of_runOn fun reused t hrun => ?_
  rcases hcurrent : s.currentBlock chunk.chunkId cls chunk.plainLen policy with _ | pending
  · rcases hexisting : s.existingBlock chunk.chunkId cls.availability chunk.plainLen policy with _ | block
    · rw [tryReuseChunk_missing (s := s.recorded chunk.chunkId) hcurrent hexisting] at hrun
      cases hrun
      exact ⟨rfl, rfl, rfl⟩
    · rcases hsegment : s.reuseSegments[block.segmentOrdinal.toNat]? with _ | segment
      · rw [tryReuseChunk_ordinal (s := s.recorded chunk.chunkId) hcurrent hexisting hsegment] at hrun
        cases hrun
      · rw [tryReuseChunk_existing (s := s.recorded chunk.chunkId) hcurrent hexisting hsegment] at hrun
        cases hrun
        exact ⟨_, .keep hexisting segment⟩
  · rw [tryReuseChunk_current (s := s.recorded chunk.chunkId) hcurrent] at hrun
    cases hrun
    exact ⟨_, .share hcurrent⟩

section
variable [Crypto]

omit [Crypto] in
theorem tryU32_eq_ok {n : Nat} {reason : String} {v : UInt32} :
    tryU32 n reason = .ok v ↔ n < u32Size ∧ v = UInt32.ofNat n := by
  unfold tryU32
  split
  · simp [*, eq_comm]
  · simp [*]

/-- What `write_block` returns for a block. -/
theorem writeBlock_returns (w : NewSegment) (logicalOffset : UInt64) (plainLen : Nat) (codec : Codec) (encoded : Bytes) :
    Returns (w.writeBlock logicalOffset plainLen codec encoded) fun r =>
      r.1.logicalOffset = logicalOffset ∧ r.1.plainLen = UInt32.ofNat plainLen ∧ r.1.codec = codec ∧
        r.1.segmentBlockOrdinal = w.blockCount :=
  .bind (.lift fun _ h => (tryU32_eq_ok.1 h).2) fun _ hlen => .bind (.trivial _) fun _ _ => .bind (.trivial _) fun _ _ =>
    .bind (.trivial _) fun _ _ => .bind (.trivial _) fun _ _ => .bind (.trivial _) fun _ _ => .bind (.trivial _) fun _ _ =>
    .pure ⟨rfl, hlen, rfl, rfl⟩

/-- The codec a policy stores a block under is one it accepts. -/
theorem compressBlock_accepts {level : Int} {plaintext encoded : Bytes} {codec : Codec}
    (h : compressBlock level plaintext policy = .ok (codec, encoded)) : policy.accepts codec := by
  cases policy with
  | auto => rfl
  | raw => cases h; rfl

/-- The new block of a chunk that no block stands for. -/
theorem writeChunk_spec [Target] (job : Job) (logicalOffset : UInt64) (plaintext : Bytes) (chunkId : ByteArr 32)
    (cls : SegmentClass) :
    ensures (writeChunk job logicalOffset plaintext chunkId cls policy) (fun _ t =>
      ∃ t' position active reference, SegmentsOnly s t' ∧ t = t'.appendNew chunkId cls position active reference ∧
        reference.logicalOffset = logicalOffset ∧ reference.plainLen = UInt32.ofNat plaintext.length ∧
        policy.accepts reference.codec) s := by
  unfold writeChunk
  refine wp_bind.2 ((wp_lift _).2 ⟨?_, fun _ _ => trivial⟩)
  rintro ⟨codec, encoded⟩ hcodec
  refine wp_bind.2 ((wp_lift _).2 ⟨fun estimated _ => ?_, fun _ _ => trivial⟩)
  refine wp_bind.2 ((Quiet.rotateSegment job cls _ s).mono fun _ s₁ h₁ => ?_)
  refine wp_bind.2 ((Quiet.openSegment job cls s₁).mono fun position s₂ h₂ => ?_)
  refine wp_bind.2 (wp_get.2 ?_)
  split
  · trivial
  · rename_i active _
    have hwrite := (Quiet.writeBlock active.writer logicalOffset plaintext.length codec encoded s₂).and
      (writeBlock_returns active.writer logicalOffset plaintext.length codec encoded s₂)
    refine wp_bind.2 (hwrite.mono ?_)
    rintro ⟨reference, writer⟩ s₃ ⟨h₃, hoffset, hlen, rfl, -⟩
    exact ⟨s₃, position, _, reference, (h₁.trans h₂).trans h₃, rfl, hoffset, hlen, compressBlock_accepts hcodec⟩

/-- The chunk of a piece of a file. -/
def chunkOf (offset : Nat) (plaintext : Bytes) : CachedChunk :=
  ⟨UInt64.ofNat offset, UInt32.ofNat plaintext.length, Crypto.hash plaintext⟩

theorem addChunk_spec [Target] (job : Job) (offset : Nat) (plaintext : Bytes) (availability : Availability)
    (access : AccessClass) :
    ensures (addChunk job (UInt64.ofNat offset) plaintext availability access policy)
      (fun _ t => ∃ pending, Added s t policy [(chunkOf offset plaintext, pending)]) s := by
  unfold addChunk
  refine wp_bind.2 (wp_bind.2 ((wp_lift _).2 ⟨fun plainLen hlen => ?_, fun _ _ => trivial⟩))
  obtain ⟨-, rfl⟩ := tryU32_eq_ok.1 hlen
  refine wp_bind.2 ((tryReuseChunk_spec (chunkOf offset plaintext) ⟨availability, access⟩).mono fun reused t ht => ?_)
  cases reused with
  | true => exact ht
  | false =>
    obtain ⟨rfl, -, -⟩ := ht
    refine (writeChunk_spec job (UInt64.ofNat offset) plaintext (Crypto.hash plaintext) ⟨availability, access⟩).mono ?_
    rintro _ t ⟨t', position, active, reference, ht', rfl, hoffset, hplain, hcodec⟩
    exact ⟨_, .new ht' position hoffset hplain hcodec⟩

/-! ### The chunks of a file -/

/-- The pieces of `blockSize` bytes that a fixed layout cuts the rest of a file into, for at most `left` reads. -/
def fixedPieces (blockSize : Nat) : Nat → Nat → Bytes → List (Nat × Bytes)
  | 0, _, _ => []
  | left + 1, offset, bytes =>
    if bytes.take blockSize = [] then []
    else (offset, bytes.take blockSize) ::
      fixedPieces blockSize left (offset + (bytes.take blockSize).length) (bytes.drop blockSize)

/-- The pieces a class cuts the content of a file into. -/
def sourcePieces [FastCdc] (cls : SourceClass) (bytes : Bytes) : List (Nat × Bytes) :=
  match cls.layout with
  | .fixed => fixedPieces cls.fixedBlockLen.toNat (bytes.length + 1) 0 bytes
  | .contentDefined => (FastCdc.chunks bytes).map fun x => (x.1, slice bytes x.1 x.2)

/-- The chunk list of a file's content. -/
def sourceChunks [FastCdc] (cls : SourceClass) (bytes : Bytes) : List CachedChunk :=
  (sourcePieces cls bytes).map fun x => chunkOf x.1 x.2

omit [Crypto] in
theorem SegmentsOnly.sources (h : SegmentsOnly s s') : s'.world.sources = s.world.sources := by
  obtain ⟨_, _, _, _, rfl, hsources⟩ := h
  exact hsources

omit [Crypto] in
/-- An opened source shows what the system has for it. -/
theorem openVerified_spec (source : SourceFile) :
    ensures source.openVerified (fun view t => SegmentsOnly s t ∧ view = s.world.sources source.hostPath) s := by
  refine (Quiet.openVerified source s).and ?_
  unfold SourceFile.openVerified
  refine wp_bind.2 ((Quiet.syscall s).mono fun _ s₁ h₁ => wp_bind.2 (wp_get.2 ?_))
  rw [h₁.sources]
  have hrest : Returns (do
      source.validateOpenFile (s.world.sources source.hostPath).opened
      syscall
      syscall
      if 8 ≤ (s.world.sources source.hostPath).bytes.length ∧
          isHakutakuKeyMagic ((s.world.sources source.hostPath).bytes.take 8) then throw (.err source.keyMaterial)
      return s.world.sources source.hostPath) fun view => view = s.world.sources source.hostPath :=
    .bind (.trivial _) fun _ _ => .bind (.trivial _) fun _ _ => .bind (.trivial _) fun _ _ =>
      .ite (fun _ => .bind (.trivial _) fun _ _ => .pure rfl) fun _ => .pure rfl
  exact hrest s₁

theorem addFixedChunks_spec [Target] (job : Job) (blockSize : Nat) (availability : Availability) (access : AccessClass)
    (left offset : Nat) (bytes : Bytes) :
    ensures (addFixedChunks job blockSize availability access policy left offset bytes) (fun _ t =>
      ∃ added, Added s t policy added ∧ added.map Prod.fst = (fixedPieces blockSize left offset bytes).map fun x =>
        chunkOf x.1 x.2) s := by
  induction left generalizing s offset bytes with
  | zero => exact ⟨[], .refl s policy, rfl⟩
  | succ left ih =>
    unfold addFixedChunks fixedPieces
    refine wp_bind.2 ((Quiet.syscall s).mono fun _ s₁ h₁ => ?_)
    split
    · exact ⟨[], h₁.added, rfl⟩
    · refine wp_bind.2 ((addChunk_spec job offset _ availability access).mono ?_)
      rintro _ s₂ ⟨pending, h₂⟩
      refine wp_bind.2 ((wp_lift _).2 ⟨fun _ _ => (ih _ _).mono ?_, fun _ _ => trivial⟩)
      rintro _ t ⟨added, ht, hadded⟩
      exact ⟨_, h₁.added.trans (h₂.trans ht), by simp only [List.nil_append, List.singleton_append, List.map_cons, hadded]⟩

theorem addDefinedChunks_spec [Target] (job : Job) (bytes : Bytes) (availability : Availability) (access : AccessClass)
    (pieces : List (Nat × Nat)) :
    ensures (addDefinedChunks job bytes availability access policy pieces) (fun _ t =>
      ∃ added, Added s t policy added ∧ added.map Prod.fst = pieces.map fun x => chunkOf x.1 (slice bytes x.1 x.2)) s := by
  induction pieces generalizing s with
  | nil => exact ⟨[], .refl s policy, rfl⟩
  | cons piece rest ih =>
    obtain ⟨offset, length⟩ := piece
    unfold addDefinedChunks
    refine wp_bind.2 ((wp_lift _).2 ⟨fun stop _ => ?_, fun _ _ => trivial⟩)
    split
    · trivial
    · refine wp_bind.2 (wp_bind.2 ((addChunk_spec job offset _ availability access).mono ?_))
      rintro _ s₂ ⟨pending, h₂⟩
      refine ih.mono ?_
      rintro _ t ⟨added, ht, hadded⟩
      exact ⟨_, h₂.trans ht, by simp only [List.singleton_append, List.map_cons, hadded]⟩

omit [Crypto] in
theorem validateSourceLen_eq_ok {actual : Nat} {source : SourceFile} {u : Unit} :
    validateSourceLen actual source = .ok u ↔ actual = source.len.toNat := by
  unfold validateSourceLen
  split <;> simp [*]

omit [Crypto] in
theorem addCachedChunks_spec (availability : Availability) (cls : SourceClass) (chunks : List CachedChunk) :
    ensures (addCachedChunks availability cls chunks) (fun _ t =>
      ∃ added, Added s t cls.compression added ∧ added.map Prod.fst = chunks) s := by
  induction chunks generalizing s with
  | nil => exact ⟨[], .refl s _, rfl⟩
  | cons chunk rest ih =>
    unfold addCachedChunks
    refine wp_bind.2 (wp_bind.2 ((tryReuseChunk_spec chunk ⟨availability, cls.access⟩).mono fun reused t ht => ?_))
    cases reused with
    | false => trivial
    | true =>
      obtain ⟨pending, ht⟩ := ht
      refine ih.mono ?_
      rintro _ t' ⟨added, ht', rfl⟩
      exact ⟨_, ht.trans ht', rfl⟩

variable [Target] [FastCdc]

omit [Crypto] [Target] [FastCdc] in
/-- Whether an entry is usable depends on the blocks that can be reused only. -/
theorem cachedEntryUsable_congr {source : SourceFile} {cached : CachedEntry} {cls : SourceClass}
    {availability : Availability} (hcurrent : s'.currentReuse = s.currentReuse) (hindex : s'.reuseIndex = s.reuseIndex)
    (hsegments : s'.reuseSegments = s.reuseSegments) :
    s'.cachedEntryUsable source cached cls availability = s.cachedEntryUsable source cached cls availability := by
  have hgo : ∀ chunks expectedOffset, cachedEntryUsable.go s' source cls availability chunks expectedOffset =
      cachedEntryUsable.go s source cls availability chunks expectedOffset := by
    intro chunks
    induction chunks with
    | nil => exact fun _ => rfl
    | cons chunk rest ih =>
      intro expectedOffset
      simp only [cachedEntryUsable.go, currentBlock, existingBlock, hcurrent, hindex, hsegments, ih]
  simp only [cachedEntryUsable, hgo]

omit [Crypto] [Target] [FastCdc] in
theorem cachedEntryUsable_beginFile (source begun : SourceFile) (cached : CachedEntry) (cls cls' : SourceClass)
    (availability availability' : Availability) :
    (s.beginFile begun cls' availability').cachedEntryUsable source cached cls availability =
      s.cachedEntryUsable source cached cls availability := cachedEntryUsable_congr rfl rfl rfl

/-- Where the chunks of a file come from: its cache entry if that is usable, and its content otherwise. An
empty file has none. -/
def ChunksOf (s : BuildContext) (source : SourceFile) (cached : Option CachedEntry) (cls : SourceClass)
    (availability : Availability) (chunks : List CachedChunk) : Prop :=
  if source.len = 0 then chunks = []
  else
    (∃ entry, cached = some entry ∧ s.cachedEntryUsable source entry cls availability ∧ chunks = entry.chunks) ∨
      (∀ entry, cached = some entry → s.cachedEntryUsable source entry cls availability = false) ∧
        chunks = sourceChunks cls (s.world.sources source.hostPath).bytes

theorem addFileChunks_spec (job : Job) (source : SourceFile) (cached : Option CachedEntry) (cls : SourceClass)
    (availability : Availability) :
    ensures (addFileChunks job source cached cls availability) (fun _ t =>
      ∃ added, Added s t cls.compression added ∧ ChunksOf s source cached cls availability (added.map Prod.fst)) s := by
  unfold addFileChunks ChunksOf
  refine wp_bind.2 (wp_get.2 ?_)
  split
  · exact ⟨[], .refl s _, rfl⟩
  split
  · rename_i entry hentry
    obtain ⟨rfl, husable⟩ := Option.filter_eq_some_iff.1 hentry
    refine (addCachedChunks_spec availability cls entry.chunks).mono ?_
    rintro _ t ⟨added, ht, hadded⟩
    exact ⟨added, ht, .inl ⟨entry, rfl, husable, hadded⟩⟩
  · rename_i hnone
    have hunusable : ∀ entry, cached = some entry → s.cachedEntryUsable source entry cls availability = false := by
      rintro entry rfl
      exact Bool.eq_false_iff.2 (Option.filter_eq_none_iff.1 hnone entry rfl)
    split
    · rename_i hlayout
      unfold addFixedFile
      refine wp_bind.2 ((openVerified_spec source).mono ?_)
      rintro _ s₁ ⟨h₁, rfl⟩
      refine wp_bind.2 ((addFixedChunks_spec job _ availability cls.access _ 0 _).mono ?_)
      rintro _ s₂ ⟨added, h₂, hadded⟩
      refine wp_bind.2 ((wp_lift _).2 ⟨fun _ _ => (Quiet.validateOpenFile source _ s₂).mono fun _ t ht => ?_, fun _ _ => trivial⟩)
      have hall := (h₁.added.trans h₂).trans ht.added
      rw [List.nil_append, List.append_nil] at hall
      refine ⟨added, hall, .inr ⟨hunusable, ?_⟩⟩
      rw [hadded, sourceChunks, sourcePieces, hlayout]
    · rename_i hlayout
      unfold addContentDefinedFile
      refine wp_bind.2 ((openVerified_spec source).mono ?_)
      rintro _ s₁ ⟨h₁, rfl⟩
      split
      · trivial
      refine wp_bind.2 (wp_bind.2 ((Quiet.syscall s₁).mono fun _ s₂ h₂ => ?_))
      refine wp_bind.2 ((wp_lift _).2 ⟨fun _ hlen => ?_, fun _ _ => trivial⟩)
      refine wp_bind.2 ((Quiet.validateOpenFile source _ s₂).mono fun _ s₃ h₃ => ?_)
      refine (addDefinedChunks_spec job _ availability cls.access _).mono ?_
      rintro _ t ⟨added, ht, hadded⟩
      -- The one byte more that is asked for is not there.
      have htake : (s.world.sources source.hostPath).bytes.take (source.len.toNat + 1) =
          (s.world.sources source.hostPath).bytes := by
        have hlen := validateSourceLen_eq_ok.1 hlen
        rw [List.length_take] at hlen
        exact List.take_of_length_le (by omega)
      refine ⟨added, ((h₁.trans h₂).trans h₃).added.trans ht, .inr ⟨hunusable, ?_⟩⟩
      rw [hadded, sourceChunks, sourcePieces, hlayout, htake, List.map_map]
      rfl

/-! ### Files -/

/-- What a file leaves in a build. -/
structure FileAdded (job : Job) (source : SourceFile) (s s' : BuildContext) (added : List (CachedChunk × PendingBlock)) :
    Prop where
  pendingBlocks : s'.pendingBlocks = s.pendingBlocks ++ added.map Prod.snd
  chunkIds : s'.chunkIds = s.chunkIds ++ added.map fun x => x.1.chunkId
  fingerprint : s'.fingerprint = s.fingerprint ++
    (fingerprintHeader source (classify source) (job.options.availability source.logicalPath) ++
      (added.flatMap fun x => x.1.chunkId.toList) ++ u32Bytes (UInt32.ofNat added.length))
  record : s'.fileRecords = s.fileRecords ++ [{
    pathOffset := UInt32.ofNat s.pathPool.length, pathLen := UInt16.ofNat (strBytes source.logicalPath).length
    layout := (classify source).layout, access := (classify source).access, logicalLen := source.len
    firstBlock := UInt32.ofNat s.pendingBlocks.length, blockCount := UInt32.ofNat added.length
    fixedBlockLen := (classify source).fixedBlockLen }]
  filePaths : s'.filePaths = s.filePaths ++ [source.logicalPath]
  pathPool : s'.pathPool = s.pathPool ++ strBytes source.logicalPath
  bounds : s.pendingBlocks.length < u32Size ∧ added.length < u32Size ∧ s.pathPool.length < u32Size ∧
    (strBytes source.logicalPath).length < 2 ^ 16
  fits : ∀ x ∈ added, x.2.reference.logicalOffset = x.1.logicalOffset ∧ x.2.reference.plainLen = x.1.plainLen ∧
    (classify source).compression.accepts x.2.reference.codec
  index : s'.reuseIndex = s.reuseIndex ∧ s'.reuseSegments = s.reuseSegments
  sources : s'.world.sources = s.world.sources

omit [Crypto] [Target] [FastCdc] in
theorem checkedPathLen_eq_ok {path : String} {v : UInt16} :
    checkedPathLen path = .ok v ↔ (strBytes path).length < 2 ^ 16 ∧ v = UInt16.ofNat (strBytes path).length := by
  unfold checkedPathLen
  split
  · rename_i h
    exact ⟨fun hv => ⟨h, (Except.ok.inj hv).symm⟩, fun hv => by rw [hv.2]⟩
  · rename_i h
    exact ⟨fun hv => absurd hv fail_ne_ok, fun hv => absurd hv.1 h⟩

theorem addFile_spec (job : Job) (source : SourceFile) (cached : Option CachedEntry) :
    ensures (addFile job source cached) (fun _ t => ∃ added, FileAdded job source s t added ∧
      ChunksOf s source cached (classify source) (job.options.availability source.logicalPath) (added.map Prod.fst)) s := by
  unfold addFile
  refine wp_bind.2 (wp_get.2 (wp_bind.2 ((wp_lift _).2 ⟨fun firstBlock hfirst => ?_, fun _ _ => trivial⟩)))
  refine wp_bind.2 (wp_get.2 (wp_bind.2 ((wp_lift _).2 ⟨fun pathOffset hoffset => ?_, fun _ _ => trivial⟩)))
  refine wp_bind.2 ((wp_lift _).2 ⟨fun pathLen hpath => ?_, fun _ _ => trivial⟩)
  obtain ⟨hfirst', rfl⟩ := tryU32_eq_ok.1 hfirst
  obtain ⟨hoffset', rfl⟩ := tryU32_eq_ok.1 hoffset
  obtain ⟨hpath', rfl⟩ := checkedPathLen_eq_ok.1 hpath
  refine wp_bind.2 ((wp_modify _).2 (wp_bind.2 (wp_get.2 ?_)))
  refine wp_bind.2 ((addFileChunks_spec job source cached _ _).mono ?_)
  rintro _ s₁ ⟨added, h, hchunks⟩
  refine wp_bind.2 (wp_get.2 (wp_bind.2 ((wp_lift _).2 ⟨fun blockCount hcount => ?_, fun _ _ => trivial⟩)))
  refine wp_bind.2 ((wp_modify _).2 (wp_bind.2 (wp_get.2 (wp_bind.2 ((wp_lift _).2 ⟨fun completed _ => ?_, fun _ _ => trivial⟩)))))
  simp only [ChunksOf, cachedEntryUsable_beginFile] at hchunks
  refine (wp_modify _).2 ⟨added, ?_, hchunks⟩
  obtain ⟨hcount', rfl⟩ := tryU32_eq_ok.1 hcount
  rw [h.pendingBlocks, List.length_append, List.length_map, Nat.add_sub_cancel_left] at hcount' ⊢
  obtain ⟨hrecords, hpaths, hpool, -⟩ := h.files
  refine ⟨h.pendingBlocks, h.chunkIds, ?_, ?_, hpaths, hpool, ⟨hfirst', hcount', hoffset', hpath'⟩, h.fits, h.index, h.sources⟩
  · show s₁.fingerprint ++ u32Bytes _ = _
    rw [h.fingerprint, beginFile]
    simp only [List.append_assoc]
  · show s₁.fileRecords ++ _ = _
    rw [hrecords]
    rfl

end

end BuildContext

end Hakutaku
