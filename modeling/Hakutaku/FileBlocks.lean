import Hakutaku.BlockContents
import Hakutaku.SourceChunks
import Hakutaku.Proofs.CachedBuildEqual

/-!
# The blocks of a file

`Adds`: what a part of the packing loop appends for the chunks of a class are blocks that stand for these chunks.
`addFile_filled`: the blocks of a file stand for the chunks of its content, in the class of the file.
-/

namespace Hakutaku
open Wire Act BuildContext

section
variable [Crypto]

/-- A build between two chunks: it took steps from its start, its segments are laid out, and no class has two of them open. -/
structure Stock (job : Job) (start s : BuildContext) (ls : List SegmentLayout) : Prop where
  oneEach : OneEach s
  stocked : ∃ classes, Steps job start classes s ∧ Stocked job start.world.drawn s ls classes

/-- The appended blocks, each with the id of the chunk of the class it stands for. -/
structure Grew (cls : SegmentClass) (s t : BuildContext) (ls : List SegmentLayout) (new : List (ByteArr 32 × PendingBlock)) :
    Prop where
  chunkIds : t.chunkIds = s.chunkIds ++ new.map Prod.fst
  pendingBlocks : t.pendingBlocks = s.pendingBlocks ++ new.map Prod.snd
  stands : ∀ x ∈ new, Stands t ls x.1 cls x.2

/-- A part of the packing loop that appends chunks of a class. -/
def Adds {α : Type} (job : Job) (cls : SegmentClass) (p : BuildM α) : Prop :=
  ∀ start s ls, Stock job start s ls → ensures p (fun _ t => ∃ ls' new, Stock job start t ls' ∧ Keeps s ls t ls' ∧
    Grew cls s t ls' new) s

/-- The block that now stands for a chunk of the class was appended. -/
def Entered (s t : BuildContext) (chunkId : ByteArr 32) (cls : SegmentClass) : Prop :=
  ∃ (pending : PendingBlock) (logicalOffset : UInt64), t.currentReuse.lookup (chunkId, cls) = some pending ∧
    t.pendingBlocks = s.pendingBlocks ++ [{ pending with reference := { pending.reference with logicalOffset } }]

variable {job : Job} {start s t u : BuildContext} {ls ls' ls'' : List SegmentLayout}
  {cls : SegmentClass} {new : List (ByteArr 32 × PendingBlock)} {policy : CompressionPolicy}

omit [Crypto] in
theorem tryReuseChunk_entered (logicalOffset : UInt64) (plainLen : UInt32) (chunkId : ByteArr 32) (availability : Availability)
    (access : AccessClass) :
    ensures (tryReuseChunk logicalOffset plainLen chunkId availability access policy)
      (fun reused t => if reused then Entered s t chunkId ⟨availability, access⟩ else t = s) s := by
  unfold tryReuseChunk
  refine wp_bind.2 (wp_get.2 ?_)
  split
  · rename_i reused hreused
    exact ⟨reused, logicalOffset, (currentBlock_eq_some.1 hreused).1, rfl⟩
  · split
    · split
      · trivial
      · rename_i segment _
        exact ⟨_, logicalOffset, AList.lookup_insert _, rfl⟩
    · exact rfl

theorem addChunk_entered [Target] (offset : Nat) (plaintext : Bytes) (availability : Availability) (access : AccessClass) :
    ensures (addChunk job (UInt64.ofNat offset) plaintext availability access policy)
      (fun _ t => Entered s t (Crypto.hash plaintext) ⟨availability, access⟩) s := by
  unfold addChunk
  refine wp_bind.2 ((wp_modify _).2 (wp_bind.2 ((wp_lift _).2 ⟨fun plainLen _ => ?_, fun _ _ => trivial⟩)))
  refine wp_bind.2 ((tryReuseChunk_entered _ plainLen _ availability access).mono fun reused t ht => ?_)
  cases reused with
  | true => exact ht
  | false =>
    obtain rfl := ht
    refine (writeChunk_spec job _ plaintext (Crypto.hash plaintext) ⟨availability, access⟩).mono ?_
    rintro _ _ ⟨t', position, active, reference, ⟨_, _, _, _, rfl, -⟩, rfl, -⟩
    exact ⟨⟨.new active.index, reference⟩, reference.logicalOffset, AList.lookup_insert _, rfl⟩

/-! ### Rules -/

theorem Grew.nil (h : t.chunkIds = s.chunkIds) (h' : t.pendingBlocks = s.pendingBlocks) : Grew cls s t ls [] := by
  refine ⟨?_, ?_, nofun⟩
  · simp [h]
  · simp [h']

theorem Grew.trans (h : Grew cls s t ls new) (hkeeps : Keeps t ls u ls') {new' : List (ByteArr 32 × PendingBlock)}
    (h' : Grew cls t u ls' new') : Grew cls s u ls' (new ++ new') := by
  refine ⟨?_, ?_, fun x hx => ?_⟩
  · rw [h'.chunkIds, h.chunkIds, List.map_append, List.append_assoc]
  · rw [h'.pendingBlocks, h.pendingBlocks, List.map_append, List.append_assoc]
  · rcases List.mem_append.1 hx with hx | hx
    · exact hkeeps _ _ _ (h.stands x hx)
    · exact h'.stands x hx

/-- What was appended stands for the chunks it was appended for. -/
theorem Grew.added {added : List (CachedChunk × PendingBlock)} (h : Grew cls s t ls new)
    (hids : t.chunkIds = s.chunkIds ++ added.map fun x => x.1.chunkId)
    (hblocks : t.pendingBlocks = s.pendingBlocks ++ added.map Prod.snd) : ∀ x ∈ added, Stands t ls x.1.chunkId cls x.2 := by
  have hids := List.append_cancel_left (h.chunkIds.symm.trans hids)
  have hblocks := List.append_cancel_left (h.pendingBlocks.symm.trans hblocks)
  intro x hx
  obtain ⟨i, hi⟩ := List.mem_iff_getElem?.1 hx
  have hid := congrArg (·[i]?) hids
  have hblock := congrArg (·[i]?) hblocks
  simp only [List.getElem?_map, hi, Option.map_some, Option.map_eq_some_iff] at hid hblock
  obtain ⟨y, hget, hid⟩ := hid
  obtain ⟨z, hget', hblock⟩ := hblock
  obtain rfl := Option.some.inj (hget.symm.trans hget')
  rw [← hid, ← hblock]
  exact h.stands y (List.mem_of_getElem? hget)

namespace Adds
variable {α β : Type} {p : BuildM α}

theorem pure (a : α) : Adds job cls (Pure.pure a) := fun _ _ ls hs => ⟨ls, [], hs, fun _ _ _ h => h, .nil rfl rfl⟩

theorem throw (e : Stop PackError) : Adds job cls (MonadExcept.throw e : BuildM α) := fun _ _ _ _ => trivial

theorem bind {g : α → BuildM β} (hp : Adds job cls p) (hg : ∀ a, Adds job cls (g a)) : Adds job cls (p >>= g) := by
  intro start s ls hs
  refine wp_bind.2 ((hp start s ls hs).mono ?_)
  rintro a t ⟨ls', new, ht, hkeeps, hgrew⟩
  refine (hg a start t ls' ht).mono ?_
  rintro b u ⟨ls'', new', hu, hkeeps', hgrew'⟩
  exact ⟨ls'', new ++ new', hu, hkeeps.trans hkeeps', hgrew.trans hkeeps' hgrew'⟩

theorem get_bind {g : BuildContext → BuildM β} (hg : ∀ s, Adds job cls (g s)) : Adds job cls (get >>= g) :=
  fun start s ls hs => hg s start s ls hs

theorem ite {c : Prop} [Decidable c] {q : BuildM α} (hp : c → Adds job cls p) (hq : ¬ c → Adds job cls q) :
    Adds job cls (if c then p else q) := by
  split
  · exact hp ‹_›
  · exact hq ‹_›

theorem lift (x : PackResult α) : Adds job cls (liftM x : BuildM α) :=
  fun _ _ ls hs => (wp_lift x).2 ⟨fun _ _ => ⟨ls, [], hs, fun _ _ _ h => h, .nil rfl rfl⟩, fun _ _ => trivial⟩

end Adds

/-- A step that appends no chunk. -/
theorem Stock.outside (h : Stock job start s ls) (ht : Outside s t) : Stock job start t ls ∧ Keeps s ls t ls := by
  obtain ⟨classes, hsteps, hs⟩ := h.stocked
  have hstep : Step job s [] t := .outside ht
  have hsteps := hsteps.tail hstep
  rw [List.append_nil] at hsteps
  have hlaid := hs.toLaid.outside ht
  have hone := hstep.oneEach h.oneEach
  obtain ⟨_, _, _, _, _, _, world, rfl, -⟩ := ht
  have hkeeps : Keeps s ls _ ls := .of_same rfl rfl rfl
  exact ⟨⟨hone, classes, hsteps, hlaid, fun id c pending hp => hkeeps id c pending (hs.stands id c pending hp)⟩, hkeeps⟩

/-- Steps that append one chunk and enter its block. -/
theorem Stock.chunk (haead : AeadLaw) (hz : ZstdLaw) (h : Stock job start s ls) {cs : List SegmentClass}
    (hsteps : Steps job s cs t) {chunk : CachedChunk} {pending : PendingBlock} (hadded : Added s t policy [(chunk, pending)])
    (hentered : Entered s t chunk.chunkId cls) :
    ∃ ls' new, Stock job start t ls' ∧ Keeps s ls t ls' ∧ Grew cls s t ls' new := by
  obtain ⟨classes, hbefore, hs⟩ := h.stocked
  obtain ⟨ls', ht, hkeeps⟩ := hs.steps haead hz hsteps
  obtain ⟨entered, logicalOffset, hlookup, hblocks⟩ := hentered
  have hpending := List.append_cancel_left (hadded.pendingBlocks.symm.trans hblocks)
  obtain rfl : pending = _ := (List.cons.inj hpending).1
  refine ⟨ls', [(chunk.chunkId, _)], ⟨hsteps.oneEach h.oneEach, _, hbefore.trans hsteps, ht⟩, hkeeps, hadded.chunkIds, hblocks, fun x hx => ?_⟩
  obtain rfl := List.mem_singleton.1 hx
  exact (ht.stands _ _ _ hlookup).copy logicalOffset

namespace Adds

theorem of_idle {α : Type} {p : BuildM α} (hp : Always Idle p) : Adds job cls p := by
  intro start s ls hs
  refine (hp s).mono (fun _ t ht => ?_) fun _ _ _ => trivial
  obtain ⟨hstock, hkeeps⟩ := hs.outside ht.outside
  obtain ⟨world, rfl, -⟩ := ht
  exact ⟨ls, [], hstock, hkeeps, .nil rfl rfl⟩

variable [Target]

theorem addChunk (haead : AeadLaw) (hz : ZstdLaw) (offset : Nat) (plaintext : Bytes) (availability : Availability)
    (access : AccessClass) :
    Adds job ⟨availability, access⟩
      (BuildContext.addChunk job (UInt64.ofNat offset) plaintext availability access policy) := by
  intro start s ls hs
  have hwalk : Packing job (· = [⟨availability, access⟩])
      (BuildContext.addChunk job (UInt64.ofNat offset) plaintext availability access policy) := .addChunk _ _ _ _ _
  refine (((hwalk s hs.oneEach).mono (fun _ _ h => h) fun _ _ _ => trivial).and ((addChunk_spec job offset plaintext availability access).and
    (addChunk_entered offset plaintext availability access))).mono ?_ fun _ _ _ => trivial
  rintro _ t ⟨⟨cs, -, hsteps⟩, ⟨pending, hadded⟩, hentered⟩
  exact hs.chunk haead hz hsteps hadded hentered

theorem addFixedChunks (haead : AeadLaw) (hz : ZstdLaw) (blockSize : Nat) (availability : Availability) (access : AccessClass)
    (left offset : Nat) (bytes : Bytes) :
    Adds job ⟨availability, access⟩
      (BuildContext.addFixedChunks job blockSize availability access policy left offset bytes) := by
  induction left generalizing offset bytes with
  | zero => exact .pure _
  | succ left ih =>
    refine .bind (.of_idle Idle.syscall) fun _ => .ite (fun _ => .pure _) fun _ => ?_
    exact .bind (.addChunk haead hz offset _ availability access) fun _ => .bind (.lift _) fun _ => ih _ _

theorem addDefinedChunks (haead : AeadLaw) (hz : ZstdLaw) (bytes : Bytes) (availability : Availability) (access : AccessClass)
    (pieces : List (Nat × Nat)) :
    Adds job ⟨availability, access⟩
      (BuildContext.addDefinedChunks job bytes availability access policy pieces) := by
  induction pieces with
  | nil => exact .pure _
  | cons piece rest ih =>
    unfold BuildContext.addDefinedChunks
    have hchunk : Adds job ⟨availability, access⟩ (BuildContext.addChunk job (UInt64.ofNat piece.1)
        (slice bytes piece.1 piece.2) availability access policy) := .addChunk haead hz _ _ _ _
    refine .bind (.lift _) fun _ => ?_
    split
    · exact .bind (.throw _) fun _ => .bind hchunk fun _ => ih
    · exact .bind hchunk fun _ => ih

omit [Target] in
theorem addCachedChunks (haead : AeadLaw) (hz : ZstdLaw) (availability : Availability) (cls : SourceClass)
    (chunks : List CachedChunk) :
    Adds job ⟨availability, cls.access⟩ (BuildContext.addCachedChunks availability cls chunks) := by
  induction chunks with
  | nil => exact .pure _
  | cons chunk rest ih =>
    intro start s ls hs
    unfold BuildContext.addCachedChunks
    refine wp_bind.2 ?_
    show wp _ _ _ (s.recorded chunk.chunkId)
    have hrecorded : Outside s (s.recorded chunk.chunkId) := ⟨_, _, _, _, _, _, _, rfl, .refl _⟩
    have hsteps := @tryReuseChunk_step _ (s.recorded chunk.chunkId) job chunk.logicalOffset chunk.plainLen chunk.chunkId
      availability cls.access cls.compression
    refine wp_bind.2 (((hsteps.mono (fun _ _ h => h) fun _ _ _ => trivial).and ((tryReuseChunk_spec chunk ⟨availability, cls.access⟩).and
      (tryReuseChunk_entered chunk.logicalOffset chunk.plainLen chunk.chunkId availability cls.access))).mono ?_
        fun _ _ _ => trivial)
    rintro reused t ⟨hstep, hadded, hentered⟩
    cases reused with
    | false => trivial
    | true =>
      obtain ⟨pending, hadded⟩ := hadded
      have hstep' : Steps job s [⟨availability, cls.access⟩] t := (Steps.single (.outside hrecorded)).tail hstep
      obtain ⟨ls', new, ht, hkeeps, hgrew⟩ := hs.chunk haead hz hstep' hadded hentered
      refine (ih start t ls' ht).mono ?_
      rintro _ u ⟨ls'', new', hu, hkeeps', hgrew'⟩
      exact ⟨ls'', new ++ new', hu, hkeeps.trans hkeeps', hgrew.trans hkeeps' hgrew'⟩

theorem addFileChunks [FastCdc] (haead : AeadLaw) (hz : ZstdLaw) (source : SourceFile) (cached : Option CachedEntry)
    (cls : SourceClass) (availability : Availability) :
    Adds job ⟨availability, cls.access⟩ (BuildContext.addFileChunks job source cached cls availability) := by
  refine .get_bind fun s => .ite (fun _ => .pure _) fun _ => ?_
  split
  · exact .addCachedChunks haead hz _ _ _
  · split
    · refine .bind (.of_idle (Idle.openVerified _)) fun view => ?_
      refine .bind (.addFixedChunks haead hz _ _ _ _ 0 _) fun _ => .bind (.lift _) fun _ => ?_
      exact .of_idle (Idle.validateOpenFile _ _)
    · refine .bind (.of_idle (Idle.openVerified _)) fun view => ?_
      refine .ite (fun _ => .bind (.throw _) fun _ => ?_) fun _ => ?_
      all_goals
        refine .bind (.of_idle Idle.syscall) fun _ => .bind (.lift _) fun _ => ?_
        exact .bind (.of_idle (Idle.validateOpenFile _ _)) fun _ => .addDefinedChunks haead hz _ _ _ _

end Adds

/-! ### The chunks of a file -/

section
variable [Target] [FastCdc]

omit [FastCdc] in
theorem addFixedChunks_returns (job : Job) {blockSize left : Nat} (hsize : 0 < blockSize) (availability : Availability)
    (access : AccessClass) (offset : Nat) {bytes : Bytes} (hleft : bytes.length < left) :
    Returns (BuildContext.addFixedChunks job blockSize availability access policy left offset bytes)
      (· = offset + bytes.length) := by
  induction left generalizing offset bytes with
  | zero => omega
  | succ left ih =>
    refine .bind (.trivial _) fun _ _ => .ite (fun hnil => .pure ?_) fun hne => ?_
    · rcases List.take_eq_nil_iff.1 hnil with hzero | rfl
      · omega
      · rfl
    · have hbytes : bytes ≠ [] := by
        rintro rfl
        exact hne List.take_nil
      have hpos := List.length_pos_of_ne_nil hbytes
      have hlens : (bytes.take blockSize).length + (bytes.drop blockSize).length = bytes.length := by
        rw [← List.length_append, List.take_append_drop]
      refine .bind (.trivial _) fun _ _ => .bind (.trivial _) fun _ _ => ?_
      rw [← hlens, ← Nat.add_assoc]
      refine ih _ ?_
      rw [List.length_drop]
      omega

/-- A source that was read has its length. -/
theorem addFileChunks_len (job : Job) (source : SourceFile) (cached : Option CachedEntry) (availability : Availability) :
    ensures (BuildContext.addFileChunks job source cached (classify source) availability) (fun _ _ => source.len = 0 ∨
      (∃ entry, cached = some entry ∧ s.cachedEntryUsable source entry (classify source) availability) ∨
      (s.world.sources source.hostPath).bytes.length = source.len.toNat) s := by
  unfold BuildContext.addFileChunks
  refine wp_bind.2 (wp_get.2 ?_)
  split
  · exact .inl ‹_›
  split
  · rename_i entry hentry
    obtain ⟨rfl, husable⟩ := Option.filter_eq_some_iff.1 hentry
    exact ensures_of_runOn fun _ _ _ => .inr (.inl ⟨entry, rfl, husable⟩)
  · split
    · rename_i hlayout
      have hpos : 0 < (classify source).fixedBlockLen.toNat := by
        rcases classify_fixedBlockLen source with ⟨-, hpos⟩ | ⟨hdefined, -⟩
        · exact hpos
        · rw [hlayout] at hdefined
          cases hdefined
      unfold addFixedFile
      refine wp_bind.2 ((openVerified_spec source).mono ?_)
      rintro _ s₁ ⟨-, rfl⟩
      refine wp_bind.2 ((addFixedChunks_returns job hpos availability _ 0 (Nat.lt_succ_self _) s₁).mono ?_)
      rintro _ s₂ rfl
      refine wp_bind.2 ((wp_lift _).2 ⟨fun _ hlen => ensures_of_runOn fun _ _ _ => .inr (.inr ?_), fun _ _ => trivial⟩)
      rw [Nat.zero_add] at hlen
      exact validateSourceLen_eq_ok.1 hlen
    · unfold addContentDefinedFile
      refine wp_bind.2 ((openVerified_spec source).mono ?_)
      rintro _ s₁ ⟨-, rfl⟩
      split
      · trivial
      refine wp_bind.2 (wp_bind.2 ((Quiet.syscall s₁).mono fun _ s₂ _ => ?_))
      refine wp_bind.2 ((wp_lift _).2 ⟨fun _ hlen => ensures_of_runOn fun _ _ _ => .inr (.inr ?_), fun _ _ => trivial⟩)
      have hlen := validateSourceLen_eq_ok.1 hlen
      rw [List.length_take] at hlen
      omega

omit [Target] in
/-- The chunks of a packed file are those of its content, which has the length of the file. -/
theorem chunksOf_content (hcdc : FastCdcLaw) {source : SourceFile} {cached : Option CachedEntry} {availability : Availability}
    {chunks : List CachedChunk} (h : ChunksOf s source cached (classify source) availability chunks)
    (hentry : ∀ entry, cached = some entry → entry.stamp = source.stamp → entry.layout = (classify source).layout →
      entry.fixedBlockLen = (classify source).fixedBlockLen → FaithfulEntry s.world.sources source entry)
    (hlen : source.len = 0 ∨
      (∃ entry, cached = some entry ∧ s.cachedEntryUsable source entry (classify source) availability) ∨
      (s.world.sources source.hostPath).bytes.length = source.len.toNat) :
    chunks = source.chunks s.world.sources ∧ (source.content s.world.sources).length = source.len.toNat := by
  unfold ChunksOf at h
  split at h
  · rename_i hzero
    have hcontent : source.content s.world.sources = [] := by
      unfold SourceFile.content
      rw [hzero, UInt64.toNat_zero, List.take_zero]
    refine ⟨?_, by rw [hcontent, hzero]; rfl⟩
    have hpieces := sourcePieces_cuts hcdc source []
    rw [h, SourceFile.chunks, hcontent, sourceChunks, hpieces.eq_nil, List.map_nil]
  · rename_i hzero
    rcases h with ⟨entry, rfl, husable, rfl⟩ | ⟨hunusable, rfl⟩
    · have hchecks := husable
      simp only [cachedEntryUsable, Bool.and_eq_true, decide_eq_true_eq] at hchecks
      obtain ⟨⟨⟨⟨⟨⟨hstamp, hlayout⟩, hblockLen⟩, -⟩, -⟩, -⟩, -⟩ := hchecks
      have hfaithful := hentry entry rfl hstamp hlayout hblockLen
      have htotal := (cachedEntryUsable_tile husable).total
      rw [hfaithful.chunks, sourceChunks_total hcdc] at htotal
      obtain ⟨hcontent, hlength⟩ := source.content_of_length htotal
      refine ⟨?_, hlength⟩
      rw [SourceFile.chunks, hcontent]
      exact hfaithful.chunks
    · have hread : (s.world.sources source.hostPath).bytes.length = source.len.toNat := by
        rcases hlen with hlen | ⟨entry, hcached, husable⟩ | hlen
        · exact absurd hlen hzero
        · rw [hunusable entry hcached] at husable
          cases husable
        · exact hlen
      obtain ⟨hcontent, hlength⟩ := source.content_of_length hread
      refine ⟨?_, hlength⟩
      rw [SourceFile.chunks, hcontent]

end

/-! ### Files -/

/-- The class of the blocks of a file. -/
def SourceFile.segmentClass (source : SourceFile) (job : Job) : SegmentClass :=
  ⟨job.options.availability source.logicalPath, (classify source).access⟩

/-- Every block of the build stands for the chunk at its place. -/
def AllStand (s : BuildContext) (ls : List SegmentLayout) : Prop :=
  List.Forall₂ (fun chunkId pending => ∃ cls, Stands s ls chunkId cls pending) s.chunkIds s.pendingBlocks

/-- The record of a source, whose blocks stand for chunks in the class of the file. -/
structure Classed (job : Job) (s : BuildContext) (ls : List SegmentLayout) (source : SourceFile) (f : FileRecord) : Prop where
  path : slice s.pathPool f.pathOffset.toNat f.pathLen.toNat = strBytes source.logicalPath
  pathEnd : f.pathOffset.toNat + f.pathLen.toNat ≤ s.pathPool.length
  layout : f.layout = (classify source).layout
  access : f.access = (classify source).access
  blockLen : f.fixedBlockLen = (classify source).fixedBlockLen
  len : f.logicalLen = source.len
  stop : f.firstBlock.toNat + f.blockCount.toNat ≤ s.pendingBlocks.length
  stands : ∀ i < f.blockCount.toNat, ∃ (chunkId : ByteArr 32) (pending : PendingBlock),
    s.chunkIds[f.firstBlock.toNat + i]? = some chunkId ∧ s.pendingBlocks[f.firstBlock.toNat + i]? = some pending ∧
      Stands s ls chunkId (source.segmentClass job) pending

/-- The blocks of a record are one for each chunk of the content of a source. -/
structure Filled [FastCdc] (sources : String → SourceView) (s : BuildContext) (source : SourceFile) (f : FileRecord) : Prop where
  whole : (source.content sources).length = source.len.toNat
  count : f.blockCount.toNat = (source.chunks sources).length
  block : ∀ (i : Nat) (chunk : CachedChunk), (source.chunks sources)[i]? = some chunk → ∃ pending : PendingBlock,
    s.chunkIds[f.firstBlock.toNat + i]? = some chunk.chunkId ∧ s.pendingBlocks[f.firstBlock.toNat + i]? = some pending ∧
      pending.reference.logicalOffset = chunk.logicalOffset ∧ pending.reference.plainLen = chunk.plainLen

/-- What was packed is there in a later state. -/
structure Later (s : BuildContext) (ls : List SegmentLayout) (t : BuildContext) (ls' : List SegmentLayout) : Prop where
  keeps : Keeps s ls t ls'
  pool : s.pathPool <+: t.pathPool
  blocks : s.pendingBlocks <+: t.pendingBlocks
  ids : s.chunkIds <+: t.chunkIds

variable {source : SourceFile} {f : FileRecord} {sources : String → SourceView}

theorem Later.refl (s : BuildContext) (ls : List SegmentLayout) : Later s ls s ls :=
  ⟨fun _ _ _ h => h, List.prefix_rfl, List.prefix_rfl, List.prefix_rfl⟩

theorem Later.trans (h : Later s ls t ls') (h' : Later t ls' u ls'') : Later s ls u ls'' :=
  ⟨h.keeps.trans h'.keeps, h.pool.trans h'.pool, h.blocks.trans h'.blocks, h.ids.trans h'.ids⟩

omit [Crypto] in
theorem getElem?_of_prefix {α : Type} {l l' : List α} (h : l <+: l') {i : Nat} {a : α} (hi : l[i]? = some a) :
    l'[i]? = some a := by
  obtain ⟨rest, rfl⟩ := h
  rw [List.getElem?_append_left (List.getElem?_eq_some_iff.1 hi).1]
  exact hi

theorem AllStand.mono (h : AllStand s ls) (hkeeps : Keeps s ls t ls') : List.Forall₂ (fun chunkId pending =>
    ∃ cls, Stands t ls' chunkId cls pending) s.chunkIds s.pendingBlocks := by
  refine h.imp ?_
  rintro chunkId pending ⟨cls, hstands⟩
  exact ⟨cls, hkeeps _ _ _ hstands⟩

/-- The appended blocks stand for their chunks, and so do those that were there. -/
theorem AllStand.grew (h : AllStand s ls) (hkeeps : Keeps s ls t ls') (hgrew : Grew cls s t ls' new) : AllStand t ls' := by
  unfold AllStand
  rw [hgrew.chunkIds, hgrew.pendingBlocks]
  refine List.rel_append (h.mono hkeeps) ?_
  rw [List.forall₂_map_left_iff, List.forall₂_map_right_iff, List.forall₂_same]
  exact fun x hx => ⟨cls, hgrew.stands x hx⟩

/-- Later files leave a file as it is. -/
theorem Classed.mono (h : Classed job s ls source f) (hlater : Later s ls t ls') : Classed job t ls' source f := by
  obtain ⟨hkeeps, ⟨pool, hpool⟩, hblocks, hids⟩ := hlater
  refine { h with path := ?_, pathEnd := ?_, stop := h.stop.trans hblocks.length_le, stands := fun i hi => ?_ }
  · rw [← hpool, slice_append_left h.pathEnd]
    exact h.path
  · rw [← hpool, List.length_append]
    exact h.pathEnd.trans (Nat.le_add_right _ _)
  · obtain ⟨chunkId, pending, hid, hpending, hstands⟩ := h.stands i hi
    exact ⟨chunkId, pending, getElem?_of_prefix hids hid, getElem?_of_prefix hblocks hpending, hkeeps _ _ _ hstands⟩

theorem Filled.mono [FastCdc] (h : Filled sources s source f) (hlater : Later s ls t ls') : Filled sources t source f := by
  refine ⟨h.whole, h.count, fun i chunk hchunk => ?_⟩
  obtain ⟨pending, hid, hpending, hfits⟩ := h.block i chunk hchunk
  exact ⟨pending, getElem?_of_prefix hlater.ids hid, getElem?_of_prefix hlater.blocks hpending, hfits⟩

/-- An update outside of the segments, the blocks and the chunks. -/
theorem Adds.update {f : BuildContext → BuildContext}
    (h : ∀ s, Outside s (f s) ∧ (f s).chunkIds = s.chunkIds ∧ (f s).pendingBlocks = s.pendingBlocks) :
    Adds job cls (modify f : BuildM PUnit) := by
  intro start s ls hs
  obtain ⟨hout, hids, hblocks⟩ := h s
  obtain ⟨hstock, hkeeps⟩ := hs.outside hout
  exact ⟨ls, [], hstock, hkeeps, .nil hids hblocks⟩

variable [Target] [FastCdc]

theorem Adds.addFile (haead : AeadLaw) (hz : ZstdLaw) (source : SourceFile) (cached : Option CachedEntry) :
    Adds job (source.segmentClass job) (BuildContext.addFile job source cached) := by
  refine .get_bind fun _ => .bind (.lift _) fun _ => .get_bind fun _ => .bind (.lift _) fun _ => .bind (.lift _) fun _ => ?_
  refine .bind (.update fun s => ⟨⟨_, _, _, _, _, _, _, rfl, .refl _⟩, rfl, rfl⟩) fun _ => .get_bind fun _ => ?_
  refine .bind (.addFileChunks haead hz _ _ _ _) fun _ => .get_bind fun _ => .bind (.lift _) fun _ => ?_
  refine .bind (.update fun s => ⟨⟨_, _, _, _, _, _, _, rfl, .refl _⟩, rfl, rfl⟩) fun _ => ?_
  refine .get_bind fun _ => .bind (.lift _) fun _ => ?_
  exact .update fun s => ⟨⟨_, _, _, _, _, _, _, rfl, .refl _⟩, rfl, rfl⟩

/-- Every entry that can be taken for the file is faithful. -/
def FaithfulCached (sources : String → SourceView) (source : SourceFile) (cached : Option CachedEntry) : Prop :=
  ∀ entry, cached = some entry → entry.stamp = source.stamp → entry.layout = (classify source).layout →
    entry.fixedBlockLen = (classify source).fixedBlockLen → FaithfulEntry sources source entry

theorem addFile_len (job : Job) (source : SourceFile) (cached : Option CachedEntry) :
    ensures (addFile job source cached) (fun _ _ => source.len = 0 ∨
      (∃ entry, cached = some entry ∧
        s.cachedEntryUsable source entry (classify source) (job.options.availability source.logicalPath)) ∨
      (s.world.sources source.hostPath).bytes.length = source.len.toNat) s := by
  unfold addFile
  refine wp_bind.2 (wp_get.2 (wp_bind.2 ((wp_lift _).2 ⟨fun _ _ => ?_, fun _ _ => trivial⟩)))
  refine wp_bind.2 (wp_get.2 (wp_bind.2 ((wp_lift _).2 ⟨fun _ _ => ?_, fun _ _ => trivial⟩)))
  refine wp_bind.2 ((wp_lift _).2 ⟨fun _ _ => ?_, fun _ _ => trivial⟩)
  refine wp_bind.2 ((wp_modify _).2 (wp_bind.2 (wp_get.2 (wp_bind.2 ?_))))
  refine (addFileChunks_len job source cached _).mono fun _ _ hlen => ensures_of_runOn fun _ _ _ => ?_
  simp only [cachedEntryUsable_beginFile] at hlen
  exact hlen

theorem addFile_filled (haead : AeadLaw) (hz : ZstdLaw) (source : SourceFile) (cached : Option CachedEntry)
    (hs : Stock job start s ls) (hall : AllStand s ls) :
    ensures (addFile job source cached) (fun _ t => ∃ ls' f, Stock job start t ls' ∧ AllStand t ls' ∧
      t.world.sources = s.world.sources ∧ Later s ls t ls' ∧ t.fileRecords = s.fileRecords ++ [f] ∧
      t.filePaths = s.filePaths ++ [source.logicalPath] ∧
      Classed job t ls' source f ∧
      (FastCdcLaw → FaithfulCached s.world.sources source cached → Filled s.world.sources t source f)) s := by
  have hpaired := List.Forall₂.length_eq hall
  refine ((Adds.addFile haead hz source cached start s ls hs).and ((addFile_spec job source cached).and
    (addFile_len job source cached))).mono ?_
  rintro _ t ⟨⟨ls', new, ht, hkeeps, hgrew⟩, ⟨added, hadded, hchunks⟩, hlen⟩
  obtain ⟨hfirst, hcount, hoffset, hpath⟩ := hadded.bounds
  have hfirst' : (UInt32.ofNat s.pendingBlocks.length).toNat = s.pendingBlocks.length := UInt32.toNat_ofNat_of_lt' hfirst
  have hcount' : (UInt32.ofNat added.length).toNat = added.length := UInt32.toNat_ofNat_of_lt' hcount
  have hoffset' : (UInt32.ofNat s.pathPool.length).toNat = s.pathPool.length := UInt32.toNat_ofNat_of_lt' hoffset
  have hpath' : (UInt16.ofNat (strBytes source.logicalPath).length).toNat = (strBytes source.logicalPath).length :=
    UInt16.toNat_ofNat_of_lt' hpath
  have hlater : Later s ls t ls' :=
    ⟨hkeeps, ⟨_, hadded.pathPool.symm⟩, ⟨_, hadded.pendingBlocks.symm⟩, ⟨_, hadded.chunkIds.symm⟩⟩
  have hid {i : Nat} {x : CachedChunk × PendingBlock} (hx : added[i]? = some x) :
      t.chunkIds[s.pendingBlocks.length + i]? = some x.1.chunkId := by
    rw [hadded.chunkIds, ← hpaired, List.getElem?_append_right (Nat.le_add_right _ _), Nat.add_sub_cancel_left,
      List.getElem?_map, hx]
    rfl
  have hblock {i : Nat} {x : CachedChunk × PendingBlock} (hx : added[i]? = some x) :
      t.pendingBlocks[s.pendingBlocks.length + i]? = some x.2 := by
    rw [hadded.pendingBlocks, List.getElem?_append_right (Nat.le_add_right _ _), Nat.add_sub_cancel_left,
      List.getElem?_map, hx]
    rfl
  refine ⟨ls', _, ht, hall.grew hkeeps hgrew, hadded.sources, hlater, hadded.record, hadded.filePaths, ?_,
    fun hcdc hcached => ?_⟩
  · refine ⟨?_, ?_, rfl, rfl, rfl, rfl, ?_, fun i hi => ?_⟩
    · dsimp only
      rw [hoffset', hpath', hadded.pathPool, slice_append_right (le_refl _), Nat.sub_self, slice_full]
    · dsimp only
      rw [hoffset', hpath', hadded.pathPool, List.length_append]
    · dsimp only
      rw [hfirst', hcount', hadded.pendingBlocks, List.length_append, List.length_map]
    · dsimp only at hi ⊢
      rw [hcount'] at hi
      rw [hfirst']
      have hx := List.getElem?_eq_getElem hi
      exact ⟨_, _, hid hx, hblock hx, hgrew.added hadded.chunkIds hadded.pendingBlocks _ (List.getElem_mem hi)⟩
  · obtain ⟨hchunks, hwhole⟩ := chunksOf_content hcdc hchunks hcached hlen
    refine ⟨hwhole, ?_, fun i chunk hchunk => ?_⟩
    · dsimp only
      rw [hcount', ← hchunks, List.length_map]
    · rw [← hchunks, List.getElem?_map, Option.map_eq_some_iff] at hchunk
      obtain ⟨x, hx, rfl⟩ := hchunk
      obtain ⟨hfits, hplain, -⟩ := hadded.fits x (List.mem_of_getElem? hx)
      dsimp only
      rw [hfirst']
      exact ⟨x.2, hid hx, hblock hx, hfits, hplain⟩

/-- Every file of a packing loop has a record, in order. -/
theorem addFiles_filled (haead : AeadLaw) (hz : ZstdLaw) (files : List (SourceFile × Option CachedEntry))
    (hs : Stock job start s ls) (hall : AllStand s ls) :
    ensures (addFiles job files) (fun _ t => ∃ ls' records, Stock job start t ls' ∧ AllStand t ls' ∧ Later s ls t ls' ∧
      t.fileRecords = s.fileRecords ++ records ∧ t.filePaths = s.filePaths ++ files.map (fun file => file.1.logicalPath) ∧
      List.Forall₂ (fun file f => Classed job t ls' file.1 f) files records ∧
      (FastCdcLaw → FaithfulCache s.world.sources files →
        List.Forall₂ (fun file f => Filled s.world.sources t file.1 f) files records)) s := by
  induction files generalizing s ls with
  | nil =>
    exact ⟨ls, [], hs, hall, .refl s ls, (List.append_nil _).symm, (List.append_nil _).symm, .nil,
      fun _ _ => .nil⟩
  | cons file rest ih =>
    obtain ⟨source, cached⟩ := file
    unfold addFiles
    refine wp_bind.2 ((addFile_filled haead hz source cached hs hall).mono ?_)
    rintro _ s₁ ⟨ls₁, f, hs₁, hall₁, hsources, hlater₁, hrecord, hpath, hclassed, hfilled⟩
    refine (ih hs₁ hall₁).mono ?_
    rintro _ t ⟨ls', records, ht, hall', hlater, hrecords, hpaths, hrest, hrest'⟩
    refine ⟨ls', f :: records, ht, hall', hlater₁.trans hlater, ?_, ?_,
      .cons (hclassed.mono hlater) hrest, fun hcdc hcache => ?_⟩
    · rw [hrecords, hrecord, List.append_assoc, List.singleton_append]
    · rw [hpaths, hpath, List.append_assoc, List.singleton_append, List.map_cons]
    · rw [hsources] at hrest'
      refine .cons ((hfilled hcdc (hcache (source, cached) List.mem_cons_self)).mono hlater) (hrest' hcdc ?_)
      exact fun file hfile => hcache file (List.mem_cons_of_mem _ hfile)

/-- A finished packing loop has a record for every file, and all its blocks stand for their chunks. -/
theorem packFiles_filled (haead : AeadLaw) (hz : ZstdLaw) (files : List (SourceFile × Option CachedEntry))
    (reuse : ReuseIndex) (world : World) :
    ensures (packFiles job files) (fun _ t => ∃ ls, Stock job (.new reuse files.length world) t ls ∧ AllStand t ls ∧
      t.filePaths = files.map (fun file => file.1.logicalPath) ∧
      List.Forall₂ (fun file f => Classed job t ls file.1 f) files t.fileRecords ∧
      (FastCdcLaw → FaithfulCache world.sources files →
        List.Forall₂ (fun file f => Filled world.sources t file.1 f) files t.fileRecords))
      (.new reuse files.length world) := by
  have hnew : Stock job (.new reuse files.length world) (.new reuse files.length world) [] :=
    ⟨.new reuse files.length world, [], .refl, .new job reuse files.length world⟩
  unfold packFiles
  refine wp_bind.2 ((addFiles_filled haead hz files hnew .nil).mono ?_)
  rintro _ s₁ ⟨ls₁, records, hs₁, hall, -, hrecords, hpaths, hclassed, hfilled⟩
  have hrecords : records = s₁.fileRecords := hrecords.symm
  rw [hrecords] at hclassed hfilled
  have hstill : Still job BuildContext.finishActiveSegments := .finishActiveSegments
  refine (((hstill s₁ hs₁.oneEach).mono (fun _ _ h => h) fun _ _ _ => trivial).and (Quiet.finishActiveSegments s₁)).mono ?_
    fun _ _ _ => trivial
  rintro _ t ⟨⟨cs, -, hsteps⟩, _, _, _, _, rfl, -⟩
  obtain ⟨classes, hbefore, hstocked⟩ := hs₁.stocked
  obtain ⟨ls, ht, hkeeps⟩ := hstocked.steps haead hz hsteps
  have hlater : Later s₁ ls₁ _ ls := ⟨hkeeps, List.prefix_rfl, List.prefix_rfl, List.prefix_rfl⟩
  refine ⟨ls, ⟨hsteps.oneEach hs₁.oneEach, _, hbefore.trans hsteps, ht⟩, hall.mono hkeeps, hpaths,
    hclassed.imp fun _ _ h => h.mono hlater, ?_⟩
  exact fun hcdc hcache => (hfilled hcdc hcache).imp fun _ _ h => h.mono hlater

end

end Hakutaku
