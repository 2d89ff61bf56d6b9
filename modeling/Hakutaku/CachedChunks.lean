import Hakutaku.CalmBuild

/-!
# Chunks served without the source

What happens to a chunk that a block stands for, as a function of the state: reading the source and hashing
its pieces leads to the same state as taking the chunks from a cache entry.
-/

namespace Hakutaku
open Wire Act

namespace BuildContext
variable {s t : BuildContext} {cls : SegmentClass} {policy : CompressionPolicy} {chunk other : CachedChunk}

/-! ### One chunk -/

/-- A block stands for the chunk: one of this build, or one of the previous release whose segment is known. -/
def Servable (s : BuildContext) (cls : SegmentClass) (policy : CompressionPolicy) (chunk : CachedChunk) : Prop :=
  (s.currentBlock chunk.chunkId cls chunk.plainLen policy).isSome ∨
    ∃ reused segment, s.existingBlock chunk.chunkId cls.availability chunk.plainLen policy = some reused ∧
      s.reuseSegments[reused.segmentOrdinal.toNat]? = some segment

/-- The state after a chunk was recorded and the block that stands for it appended. -/
def serve (s : BuildContext) (cls : SegmentClass) (policy : CompressionPolicy) (chunk : CachedChunk) : BuildContext :=
  match s.currentBlock chunk.chunkId cls chunk.plainLen policy with
  | some reused => (s.recorded chunk.chunkId).shareBlock reused chunk.logicalOffset
  | none =>
    match s.existingBlock chunk.chunkId cls.availability chunk.plainLen policy with
    | none => s.recorded chunk.chunkId
    | some reused =>
      match s.reuseSegments[reused.segmentOrdinal.toNat]? with
      | none => s.recorded chunk.chunkId
      | some segment => (s.recorded chunk.chunkId).keepExisting chunk.chunkId cls segment reused.block chunk.logicalOffset

theorem serve_current {reused : PendingBlock} (h : s.currentBlock chunk.chunkId cls chunk.plainLen policy = some reused) :
    s.serve cls policy chunk = (s.recorded chunk.chunkId).shareBlock reused chunk.logicalOffset := by
  unfold serve
  rw [h]

theorem serve_existing {reused : ReusableBlock} {segment : SegmentRecord}
    (hcurrent : s.currentBlock chunk.chunkId cls chunk.plainLen policy = none)
    (h : s.existingBlock chunk.chunkId cls.availability chunk.plainLen policy = some reused)
    (hsegment : s.reuseSegments[reused.segmentOrdinal.toNat]? = some segment) :
    s.serve cls policy chunk =
      (s.recorded chunk.chunkId).keepExisting chunk.chunkId cls segment reused.block chunk.logicalOffset := by
  unfold serve
  rw [hcurrent, h]
  simp only [hsegment]

/-- The ways in which a chunk is served. -/
theorem Servable.cases (h : s.Servable cls policy chunk) :
    (∃ reused, s.currentBlock chunk.chunkId cls chunk.plainLen policy = some reused) ∨
      s.currentBlock chunk.chunkId cls chunk.plainLen policy = none ∧ ∃ reused segment,
        s.existingBlock chunk.chunkId cls.availability chunk.plainLen policy = some reused ∧
          s.reuseSegments[reused.segmentOrdinal.toNat]? = some segment := by
  rcases hcurrent : s.currentBlock chunk.chunkId cls chunk.plainLen policy with _ | reused
  · refine .inr ⟨rfl, h.resolve_left ?_⟩
    rw [hcurrent]
    exact Bool.false_ne_true
  · exact .inl ⟨reused, rfl⟩

/-- A served chunk is reused. -/
theorem Servable.runOn (h : s.Servable cls policy chunk) :
    (tryReuseChunk chunk.logicalOffset chunk.plainLen chunk.chunkId cls.availability cls.access policy).runOn
      (s.recorded chunk.chunkId) = (.ok true, s.serve cls policy chunk) := by
  rcases h.cases with ⟨reused, hcurrent⟩ | ⟨hcurrent, reused, segment, hexisting, hsegment⟩
  · rw [serve_current hcurrent]
    exact tryReuseChunk_current (s := s.recorded chunk.chunkId) hcurrent
  · rw [serve_existing hcurrent hexisting hsegment]
    exact tryReuseChunk_existing (s := s.recorded chunk.chunkId) hcurrent hexisting hsegment

/-- Serving a chunk leaves the others servable, as long as an id stands for one length. -/
theorem Servable.serve (h : s.Servable cls policy other) (hchunk : s.Servable cls policy chunk)
    (hlen : other.chunkId = chunk.chunkId → other.plainLen = chunk.plainLen) :
    (s.serve cls policy chunk).Servable cls policy other := by
  rcases hchunk.cases with ⟨reused, hcurrent⟩ | ⟨hcurrent, reused, segment, hexisting, hsegment⟩
  · rw [serve_current hcurrent]
    exact h
  · rw [serve_existing hcurrent hexisting hsegment]
    by_cases hid : other.chunkId = chunk.chunkId
    · -- The block just kept stands for it too.
      obtain ⟨-, hplain, hcodec⟩ := existingBlock_eq_some.1 hexisting
      refine .inl (Option.isSome_iff_exists.2 ⟨⟨.existing segment.id,
        { reused.block with logicalOffset := chunk.logicalOffset }⟩, currentBlock_eq_some.2 ⟨?_, ?_, hcodec⟩⟩)
      · rw [hid]
        exact AList.lookup_insert _
      · rw [hlen hid]
        exact hplain
    · refine h.imp_left fun hsome => ?_
      have hlookup : ((s.recorded chunk.chunkId).keepExisting chunk.chunkId cls segment reused.block
          chunk.logicalOffset).currentReuse.lookup (other.chunkId, cls) = s.currentReuse.lookup (other.chunkId, cls) :=
        AList.lookup_insert_ne fun heq => hid (congrArg Prod.fst heq)
      unfold currentBlock at hsome ⊢
      rwa [hlookup]

/-- An id stands for one length among the chunks. -/
def IdsFixLengths (chunks : List CachedChunk) : Prop :=
  ∀ c ∈ chunks, ∀ d ∈ chunks, c.chunkId = d.chunkId → c.plainLen = d.plainLen

/-! ### The chunks of a cache entry -/

theorem servable_of_usable {source : SourceFile} {entry : CachedEntry} {cls : SourceClass} {availability : Availability}
    (h : s.cachedEntryUsable source entry cls availability) :
    ∀ chunk ∈ entry.chunks, s.Servable ⟨availability, cls.access⟩ cls.compression chunk := by
  have hgo : ∀ chunks offset, cachedEntryUsable.go s source cls availability chunks offset →
      ∀ chunk ∈ chunks, s.Servable ⟨availability, cls.access⟩ cls.compression chunk := by
    intro chunks
    induction chunks with
    | nil => exact fun _ _ chunk hchunk => absurd hchunk List.not_mem_nil
    | cons head rest ih =>
      intro offset h
      simp only [cachedEntryUsable.go, Bool.and_eq_true, Bool.or_eq_true, Option.any_eq_true] at h
      obtain ⟨⟨-, hblock⟩, hrest⟩ := h
      refine List.forall_mem_cons.2 ⟨hblock.imp_right ?_, ih _ hrest⟩
      rintro ⟨reused, hreused, hsegment⟩
      obtain ⟨segment, hsegment⟩ := Option.isSome_iff_exists.1 hsegment
      exact ⟨reused, segment, hreused, hsegment⟩
  unfold cachedEntryUsable at h
  exact hgo _ _ (Bool.and_eq_true_iff.1 h).2

/-- All chunks of a servable list are served, one after the other. -/
theorem addCachedChunks_runOn {cls : SourceClass} {availability : Availability} {chunks : List CachedChunk}
    (h : ∀ chunk ∈ chunks, s.Servable ⟨availability, cls.access⟩ cls.compression chunk) (hids : IdsFixLengths chunks) :
    (addCachedChunks availability cls chunks).runOn s =
      (.ok (), chunks.foldl (fun s => s.serve ⟨availability, cls.access⟩ cls.compression) s) := by
  induction chunks generalizing s with
  | nil => rfl
  | cons chunk rest ih =>
    obtain ⟨hchunk, hrest⟩ := List.forall_mem_cons.1 h
    unfold addCachedChunks
    rw [runOn_bind_ok (recordChunk_runOn _), runOn_bind_ok hchunk.runOn, if_pos rfl, List.foldl_cons]
    refine ih (fun other hother => (hrest other hother).serve hchunk ?_) ?_
    · exact hids other (List.mem_cons_of_mem _ hother) chunk List.mem_cons_self
    · exact fun c hc d hd => hids c (List.mem_cons_of_mem _ hc) d (List.mem_cons_of_mem _ hd)

/-! ### The chunks of a source -/

/-- Nothing but the failures still ahead. -/
def withFaults (s : BuildContext) (faults : List (Option IoKind)) : BuildContext :=
  { s with world := { s.world with faults } }

theorem serve_withFaults (faults : List (Option IoKind)) :
    (s.withFaults faults).serve cls policy chunk = (s.serve cls policy chunk).withFaults faults := by
  have hcurrent : (s.withFaults faults).currentBlock chunk.chunkId cls chunk.plainLen policy =
      s.currentBlock chunk.chunkId cls chunk.plainLen policy := rfl
  have hexisting : (s.withFaults faults).existingBlock chunk.chunkId cls.availability chunk.plainLen policy =
      s.existingBlock chunk.chunkId cls.availability chunk.plainLen policy := rfl
  have hsegments : (s.withFaults faults).reuseSegments = s.reuseSegments := rfl
  unfold serve
  rw [hcurrent, hexisting, hsegments]
  rcases s.currentBlock chunk.chunkId cls chunk.plainLen policy with _ | reused
  · rcases s.existingBlock chunk.chunkId cls.availability chunk.plainLen policy with _ | reused
    · rfl
    · dsimp only
      rcases s.reuseSegments[reused.segmentOrdinal.toNat]? with _ | segment <;> rfl
  · rfl

theorem foldl_serve_withFaults (chunks : List CachedChunk) (faults : List (Option IoKind)) :
    chunks.foldl (fun s => s.serve cls policy) (s.withFaults faults) =
      (chunks.foldl (fun s => s.serve cls policy) s).withFaults faults := by
  induction chunks generalizing s with
  | nil => rfl
  | cons chunk rest ih => rw [List.foldl_cons, List.foldl_cons, serve_withFaults, ih]

/-- Only the failures still ahead differ. -/
def OnlyFaults (s t : BuildContext) : Prop := ∃ faults, t = s.withFaults faults

instance : Std.Refl OnlyFaults := ⟨fun _ => ⟨_, rfl⟩⟩

instance : IsTrans BuildContext OnlyFaults := by
  refine ⟨?_⟩
  rintro _ _ _ ⟨_, rfl⟩ ⟨faults, rfl⟩
  exact ⟨faults, rfl⟩

theorem syscall_onlyFaults : Within OnlyFaults syscall := by
  refine .get_bind fun s => ?_
  split
  · exact .pure _
  · rename_i outcome rest _
    refine .bind ?_ fun _ => ?_
    · exact .update fun s => ⟨rest, rfl⟩
    · split
      · exact .pure _
      · exact .throw _

theorem validateOpenFile_onlyFaults (source : SourceFile) (state : Option SourceStamp) :
    Within OnlyFaults (source.validateOpenFile state) :=
  .bind syscall_onlyFaults fun _ => .ite (fun _ => .throw _) fun _ => .pure _

theorem openVerified_onlyFaults (source : SourceFile) : Within OnlyFaults source.openVerified :=
  .bind syscall_onlyFaults fun _ => .get_bind fun _ => .bind (validateOpenFile_onlyFaults _ _) fun _ =>
    .bind syscall_onlyFaults fun _ => .bind syscall_onlyFaults fun _ =>
    .ite (fun _ => .bind (.throw _) fun _ => .pure _) fun _ => .pure _

section
variable [Crypto] [Target]

/-- A piece of a source whose chunk is servable is not written. -/
theorem addChunk_served (job : Job) (offset : Nat) (plaintext : Bytes) (cls : SegmentClass)
    (h : s.Servable cls policy (chunkOf offset plaintext)) :
    ensures (addChunk job (UInt64.ofNat offset) plaintext cls.availability cls.access policy)
      (fun _ t => t = s.serve cls policy (chunkOf offset plaintext)) s := by
  unfold addChunk
  refine wp_bind.2 (wp_bind.2 ((wp_lift _).2 ⟨fun plainLen hlen => ?_, fun _ _ => trivial⟩))
  obtain ⟨-, rfl⟩ := tryU32_eq_ok.1 hlen
  refine wp_bind.2 (ensures_of_runOn fun reused t hrun => ?_)
  have hserved := h.runOn.symm.trans hrun
  cases hserved
  exact rfl

omit [Crypto] [Target] in
/-- What serving the head of a list of pieces leaves to serve. -/
theorem servable_tail {chunks : List CachedChunk} (h : ∀ c ∈ chunk :: chunks, s.Servable cls policy c)
    (hids : IdsFixLengths (chunk :: chunks)) :
    (∀ c ∈ chunks, (s.serve cls policy chunk).Servable cls policy c) ∧ IdsFixLengths chunks := by
  obtain ⟨hchunk, hrest⟩ := List.forall_mem_cons.1 h
  refine ⟨fun c hc => (hrest c hc).serve hchunk ?_, fun c hc d hd => ?_⟩
  · exact hids c (List.mem_cons_of_mem _ hc) chunk List.mem_cons_self
  · exact hids c (List.mem_cons_of_mem _ hc) d (List.mem_cons_of_mem _ hd)

theorem addFixedChunks_served (job : Job) (blockSize : Nat) (cls : SegmentClass) (left offset : Nat) (bytes : Bytes)
    (h : ∀ c ∈ (fixedPieces blockSize left offset bytes).map (fun x => chunkOf x.1 x.2), s.Servable cls policy c)
    (hids : IdsFixLengths ((fixedPieces blockSize left offset bytes).map fun x => chunkOf x.1 x.2)) :
    ensures (addFixedChunks job blockSize cls.availability cls.access policy left offset bytes) (fun _ t =>
      OnlyFaults (((fixedPieces blockSize left offset bytes).map fun x => chunkOf x.1 x.2).foldl
        (fun s => s.serve cls policy) s) t) s := by
  induction left generalizing s offset bytes with
  | zero => exact ⟨s.world.faults, rfl⟩
  | succ left ih =>
    unfold addFixedChunks
    refine wp_bind.2 ((syscall_onlyFaults s).mono ?_)
    rintro _ _ ⟨faults, rfl⟩
    unfold fixedPieces at h hids ⊢
    split
    · exact ⟨faults, rfl⟩
    · rename_i hnil
      rw [if_neg hnil, List.map_cons] at h hids
      rw [List.map_cons, List.foldl_cons]
      obtain ⟨htail, hids'⟩ := servable_tail h hids
      have hhead := (List.forall_mem_cons.1 h).1
      refine wp_bind.2 ((addChunk_served (s := s.withFaults faults) job offset _ cls hhead).mono ?_)
      rintro _ _ rfl
      rw [serve_withFaults]
      refine wp_bind.2 ((wp_lift _).2 ⟨fun _ _ => ?_, fun _ _ => trivial⟩)
      refine (ih (s := (s.serve cls policy (chunkOf offset (bytes.take blockSize))).withFaults faults) _ _ htail hids').mono ?_
      rintro _ _ ⟨faults', rfl⟩
      rw [foldl_serve_withFaults]
      exact ⟨faults', rfl⟩

theorem addDefinedChunks_served (job : Job) (bytes : Bytes) (cls : SegmentClass) (pieces : List (Nat × Nat))
    (h : ∀ c ∈ pieces.map (fun x => chunkOf x.1 (slice bytes x.1 x.2)), s.Servable cls policy c)
    (hids : IdsFixLengths (pieces.map fun x => chunkOf x.1 (slice bytes x.1 x.2))) :
    ensures (addDefinedChunks job bytes cls.availability cls.access policy pieces) (fun _ t =>
      t = (pieces.map fun x => chunkOf x.1 (slice bytes x.1 x.2)).foldl (fun s => s.serve cls policy) s) s := by
  induction pieces generalizing s with
  | nil => exact rfl
  | cons piece rest ih =>
    obtain ⟨offset, length⟩ := piece
    rw [List.map_cons] at h hids
    obtain ⟨htail, hids'⟩ := servable_tail h hids
    unfold addDefinedChunks
    refine wp_bind.2 ((wp_lift _).2 ⟨fun stop _ => ?_, fun _ _ => trivial⟩)
    split
    · trivial
    · refine wp_bind.2 (wp_bind.2 ((addChunk_served job offset _ cls (List.forall_mem_cons.1 h).1).mono ?_))
      rintro _ _ rfl
      exact ih htail hids'

end

end BuildContext

end Hakutaku
