import Hakutaku.ReleaseSegments

/-!
# The segments of a sequence of chunks

Whatever chunks a build adds, in whatever classes: once its segments are finished, every slot holds the record of one
segment, whose blocks are of one class and tile its file, and every block resolves to the segment that holds it.
-/

namespace Hakutaku
open Wire Act

/-- A call of `add_chunk`. -/
structure ChunkCall where
  logicalOffset : UInt64
  plaintext : Bytes
  cls : SegmentClass
  compression : CompressionPolicy

section
variable [Crypto]

/-- A sequence of calls of `add_chunk`. -/
def BuildContext.addChunks [Target] (job : Job) : List ChunkCall → BuildM Unit
  | [] => pure ()
  | call :: rest => do
    addChunk job call.logicalOffset call.plaintext call.cls.availability call.cls.access call.compression
    addChunks job rest

/-! ### No segment is empty -/

omit [Crypto] in
/-- Every segment of the build but the open one at `position` has a block. -/
structure BegunBut (position : Nat) (s : BuildContext) : Prop where
  active : ∀ i (a : ActiveSegment), s.activeSegments[i]? = some a → i ≠ position → 0 < a.writer.blockCount
  finished : ∀ record, some record ∈ s.newSegmentRecords → 0 < record.blockCount

omit [Crypto] in
/-- Every segment of the build has a block. -/
structure Begun (s : BuildContext) : Prop where
  active : ∀ a ∈ s.activeSegments, 0 < a.writer.blockCount
  finished : ∀ record, some record ∈ s.newSegmentRecords → 0 < record.blockCount

variable {job : Job} {s t : BuildContext} {cs : List SegmentClass}

omit [Crypto] in
theorem Begun.but (h : Begun s) (position : Nat) : BegunBut position s :=
  ⟨fun _ _ ha _ => h.active _ (List.mem_of_getElem? ha), h.finished⟩

theorem Wrote.begun {writer writer' : NewSegment} {logicalOffset : UInt64} {plainLen : Nat} {codec : Codec}
    {encoded encrypted : Bytes} {reference : BlockRef}
    (h : Wrote writer logicalOffset plainLen codec encoded encrypted reference writer') : 0 < writer'.blockCount := by
  rw [h.writer_eq, UInt32.lt_iff_toNat_lt]
  show _ < (UInt32.ofNat (writer.blockCount.toNat + 1)).toNat
  rw [UInt32.toNat_ofNat_of_lt' h.count]
  exact Nat.succ_pos _

/-- A step that starts no segment leaves none empty. -/
theorem Step.begun (h : Step job s cs t) (hs : Begun s)
    (hno : cs = [] → t.activeSegments.length ≤ s.activeSegments.length) : Begun t := by
  cases h with
  | outside h =>
    obtain ⟨_, _, _, _, _, _, _, rfl, -⟩ := h
    exact ⟨hs.active, hs.finished⟩
  | share => exact ⟨hs.active, hs.finished⟩
  | keep => exact ⟨hs.active, hs.finished⟩
  | start =>
    have hlen := hno rfl
    rw [List.length_append, List.length_singleton] at hlen
    omega
  | finish hget =>
    refine ⟨fun b hb => hs.active b (mem_swapRemove hget hb), fun record hrecord => ?_⟩
    rcases List.mem_or_eq_of_mem_set hrecord with hin | heq
    · exact hs.finished record hin
    · obtain rfl := Option.some.inj heq
      exact hs.active _ (List.mem_of_getElem? hget)
  | write hget _ _ _ hwrote =>
    refine ⟨fun b hb => ?_, hs.finished⟩
    rcases List.mem_or_eq_of_mem_set hb with hin | rfl
    · exact hs.active b hin
    · exact hwrote.begun

theorem finishActiveSegment_begun (job : Job) (position : Nat) (hs : Begun s) :
    ensures (BuildContext.finishActiveSegment position) (fun _ t => Begun t) s := by
  refine (finishActiveSegment_spec job position s).mono ?_ fun _ _ _ => trivial
  rintro _ t ⟨hstep, ⟨a, hget⟩, hactive⟩
  refine hstep.begun hs fun _ => ?_
  have hperm := (swapRemove_perm hget).length_eq
  rw [List.length_cons] at hperm
  rw [hactive]
  omega

theorem finishSegments_begun (job : Job) (left : Nat) (hs : Begun s) :
    ensures (BuildContext.finishSegments left) (fun _ t => Begun t) s := by
  induction left generalizing s with
  | zero => exact hs
  | succ left ih =>
    unfold BuildContext.finishSegments
    refine wp_bind.2 (wp_get.2 ?_)
    split
    · exact hs
    · exact wp_bind.2 ((finishActiveSegment_begun job _ hs).mono fun _ _ ht => ih ht)

theorem finishActiveSegments_begun (job : Job) (hs : Begun s) :
    ensures BuildContext.finishActiveSegments (fun _ t => Begun t) s :=
  wp_bind.2 (wp_get.2 (finishSegments_begun job _ hs))

theorem rotateSegment_begun (job : Job) (cls : SegmentClass) (estimatedStored : UInt64) (hs : Begun s) :
    ensures (BuildContext.rotateSegment job cls estimatedStored) (fun _ t => Begun t) s := by
  unfold BuildContext.rotateSegment
  refine wp_bind.2 (wp_get.2 ?_)
  split
  · exact hs
  · split
    · trivial
    · split
      · exact finishActiveSegment_begun job _ hs
      · exact hs

theorem openSegment_begun (job : Job) (cls : SegmentClass) (hs : Begun s) :
    ensures (BuildContext.openSegment job cls) (fun position t => BegunBut position t) s := by
  unfold BuildContext.openSegment
  refine wp_bind.2 (wp_get.2 ?_)
  split
  · exact hs.but _
  · unfold BuildContext.startSegment
    refine wp_bind.2 (wp_get.2 (wp_bind.2 ((create_spec job cls.availability s).mono ?_ fun _ _ _ => trivial)))
    rintro writer _ ⟨world, rfl, -⟩
    rw [wp_bind, wp_modify, wp_bind, wp_get]
    refine ⟨fun i a ha hne => ?_, fun record hrecord => ?_⟩
    · rw [List.length_append, List.length_singleton, Nat.add_sub_cancel] at hne
      have hlt := (List.getElem?_eq_some_iff.1 ha).1
      rw [List.length_append, List.length_singleton] at hlt
      rw [List.getElem?_append_left (by omega)] at ha
      exact hs.active a (List.mem_of_getElem? ha)
    · rcases List.mem_append.1 hrecord with hin | hin
      · exact hs.finished record hin
      · cases List.mem_singleton.1 hin

variable [Target]

theorem writeChunk_begun (job : Job) (logicalOffset : UInt64) (plaintext : Bytes) (chunkId : ByteArr 32)
    (cls : SegmentClass) (compression : CompressionPolicy) (hs : Begun s) :
    ensures (BuildContext.writeChunk job logicalOffset plaintext chunkId cls compression) (fun _ t => Begun t) s := by
  unfold BuildContext.writeChunk
  refine wp_bind.2 ((wp_lift _).2 ⟨?_, fun _ _ => trivial⟩)
  rintro ⟨codec, encoded⟩ -
  refine wp_bind.2 ((wp_lift _).2 ⟨fun estimated _ => ?_, fun _ _ => trivial⟩)
  refine wp_bind.2 ((rotateSegment_begun job cls _ hs).mono fun _ t ht => ?_)
  refine wp_bind.2 ((openSegment_begun job cls ht).mono fun position u hu => ?_)
  refine wp_bind.2 (wp_get.2 ?_)
  split
  · trivial
  · rename_i a hget
    refine wp_bind.2 ((writeBlock_spec a.writer logicalOffset plaintext.length codec encoded u).mono ?_ fun _ _ _ => trivial)
    rintro ⟨reference, writer⟩ _ ⟨world, encrypted, rfl, -, hwrote⟩
    refine ⟨fun b hb => ?_, hu.finished⟩
    obtain ⟨i, hi⟩ := List.mem_iff_getElem?.1 hb
    have hi : (u.activeSegments.set position { a with writer := writer })[i]? = some b := hi
    rcases eq_or_ne position i with rfl | hne
    · rw [List.getElem?_set_self (List.getElem?_eq_some_iff.1 hget).1] at hi
      obtain rfl := Option.some.inj hi
      exact hwrote.begun
    · rw [List.getElem?_set_ne hne] at hi
      exact hu.active i b hi hne.symm

theorem addChunk_begun (job : Job) (logicalOffset : UInt64) (plaintext : Bytes) (availability : Availability)
    (access : AccessClass) (compression : CompressionPolicy) (hs : Begun s) :
    ensures (BuildContext.addChunk job logicalOffset plaintext availability access compression) (fun _ t => Begun t) s := by
  unfold BuildContext.addChunk BuildContext.recordChunk
  rw [ensures, wp_bind, wp_modify]
  refine wp_bind.2 ((wp_lift _).2 ⟨fun plainLen _ => ?_, fun _ _ => trivial⟩)
  refine wp_bind.2 ((tryReuseChunk_step job _ _ _ _ _ _).mono ?_ fun _ _ _ => trivial)
  rintro reused t ht
  cases reused with
  | true => exact ht.begun ⟨hs.active, hs.finished⟩ nofun
  | false =>
    obtain rfl := ht
    exact writeChunk_begun job logicalOffset plaintext _ _ compression ⟨hs.active, hs.finished⟩

theorem addChunks_begun (job : Job) (calls : List ChunkCall) (hs : Begun s) :
    ensures (BuildContext.addChunks job calls) (fun _ t => Begun t) s := by
  induction calls generalizing s with
  | nil => exact hs
  | cons call rest ih =>
    exact wp_bind.2 ((addChunk_begun job _ _ _ _ _ hs).mono fun _ t ht => ih ht)

omit [Crypto] [Target] in
theorem Begun.new (reuse : ReuseIndex) (fileCount : Nat) (world : World) : Begun (.new reuse fileCount world) :=
  ⟨nofun, nofun⟩

/-! ### What readers find -/

/-- The reader opens a finished segment of its project. -/
theorem SegmentLayout.Sound.fetchSegment {l : SegmentLayout} (h : l.Sound)
    (hlen : segmentHeaderSize + l.writer.payloadLen.toNat < u64Size) {P : PackageInner}
    (hproject : P.header.projectId = l.writer.projectId)
    (hsource : P.source l.writer.record.id = some l.writer.content) :
    P.fetchSegment ideal l.writer.record = .ok ⟨l.writer.content, P.keys.segmentKey l.writer.header⟩ := by
  have hfile : l.writer.content.length = l.writer.record.fileLen.toNat :=
    h.length_content.trans (UInt64.toNat_ofNat_of_lt' hlen).symm
  have hread : readExact l.writer.content 0 segmentHeaderSize = .ok (slice l.writer.content 0 segmentHeaderSize) := by
    refine if_pos (.inr ?_)
    rw [h.length_content, Nat.zero_add]
    exact Nat.le_add_right _ _
  have hmatches : P.segmentHeaderMatches l.writer.header l.writer.record = true := by
    simp only [PackageInner.segmentHeaderMatches, hproject, NewSegment.header, NewSegment.record, decide_true, Bool.and_self]
  unfold PackageInner.fetchSegment
  simp [ideal, openFrom, hsource, okOr, hfile, hread, l.writer.parse_content hlen, hmatches]

/-- The checks of a reader pass for every block of a finished segment. -/
theorem SegmentLayout.Sound.locateBlock {l : SegmentLayout} (h : l.Sound)
    (hlen : segmentHeaderSize + l.writer.payloadLen.toNat < u64Size) {b : BlockRef} (hb : b ∈ l.blocks) {P : PackageInner}
    {r : BlockRef} (hr : r.Names b)
    (hcatalog : P.catalog.segment r.segmentOrdinal.toNat = .ok l.writer.record) :
    P.locateBlock r = .ok l.writer.record := by
  obtain ⟨k, hk⟩ := List.mem_iff_getElem?.1 hb
  have hordinal : r.segmentBlockOrdinal = b.segmentBlockOrdinal := by rw [hr]
  have hoffset : r.physicalOffset = b.physicalOffset := by rw [hr]
  have hstored : r.storedLen = b.storedLen := by rw [hr]
  obtain ⟨hge, hle⟩ := h.tiles.within (List.mem_map_of_mem hb)
  have hfile : l.writer.record.fileLen.toNat = segmentHeaderSize + l.writer.payloadLen.toNat :=
    UInt64.toNat_ofNat_of_lt' hlen
  have hcount : ¬ l.writer.record.blockCount ≤ r.segmentBlockOrdinal := by
    rw [UInt32.not_le, UInt32.lt_iff_toNat_lt, hordinal, h.ordinals k b hk]
    show k < l.writer.blockCount.toNat
    rw [h.count]
    exact (List.getElem?_eq_some_iff.1 hk).1
  have hstop : checkedAdd u64Size r.physicalOffset.toNat r.storedLen.toNat =
      some (r.physicalOffset.toNat + r.storedLen.toNat) := by
    refine checkedAdd_eq_some.2 ⟨?_, rfl⟩
    rw [hoffset, hstored]
    exact lt_of_le_of_lt hle hlen
  have hrange : ¬ (r.physicalOffset.toNat < segmentHeaderSize ∨
      l.writer.record.fileLen.toNat < r.physicalOffset.toNat + r.storedLen.toNat) := by
    rw [hoffset, hstored, hfile]
    exact not_or.2 ⟨Nat.not_lt.2 hge, Nat.not_lt.2 hle⟩
  unfold PackageInner.locateBlock
  rw [hcatalog]
  show (if l.writer.record.blockCount ≤ r.segmentBlockOrdinal then _ else _) = _
  rw [if_neg hcount]
  show (okOr (checkedAdd u64Size r.physicalOffset.toNat r.storedLen.toNat) _ >>= _) = _
  rw [hstop]
  exact if_neg hrange

/-! ### Whole sequences -/

/-- The segment of a slot: its record, and the references of its blocks in the order they were written. -/
structure FinishedSegment (job : Job) (t : BuildContext) (i : Nat) (l : SegmentLayout) : Prop where
  slot : t.newSegmentRecords[i]? = some (some l.writer.record)
  availability : l.writer.record.availability = l.cls.availability
  nonempty : l.blocks ≠ []
  count : l.writer.record.blockCount.toNat = l.blocks.length
  ordinals : ∀ k (b : BlockRef), l.blocks[k]? = some b → b.segmentBlockOrdinal.toNat = k
  tiles : Tiles segmentHeaderSize (l.blocks.map BlockRef.range) l.writer.record.fileLen.toNat
  written : (l.blocks.map fun b => (⟨.new i, b⟩ : PendingBlock)).Sublist t.pendingBlocks
  target : l.writer.record.payloadLen ≤ l.cls.targetBytes job.options.segmentTargetBytes ∨ l.blocks.length = 1
  stored : t.world.Stored (contentId l.writer.content)
  holds : ∀ b ∈ l.blocks, ∃ encoded,
    Crypto.aeadSeal l.writer.key (nonce l.writer.record.noncePrefix b.segmentBlockOrdinal)
      (blockAad job.identity.projectId l.writer.record.uid b.segmentBlockOrdinal b.codec b.storedLen b.plainLen) encoded =
        some (slice l.writer.content b.physicalOffset.toNat b.storedLen.toNat)
  opens : ∀ P : PackageInner, P.header.projectId = job.identity.projectId →
    P.source l.writer.record.id = some l.writer.content →
    P.fetchSegment ideal l.writer.record = .ok ⟨l.writer.content, P.keys.segmentKey l.writer.header⟩
  located : ∀ b ∈ l.blocks, ∀ (P : PackageInner) (r : BlockRef), r.Names b →
    P.catalog.segment r.segmentOrdinal.toNat = .ok l.writer.record → P.locateBlock r = .ok l.writer.record

theorem Laid.finishedSegment {before : List (ByteArr 16 × ByteArr 16)} {ls : List SegmentLayout}
    {classes : List SegmentClass} (h : Laid job before t ls classes) (hactive : t.activeSegments = []) (hbegun : Begun t)
    {i : Nat} {l : SegmentLayout} (hl : ls[i]? = some l) : FinishedSegment job t i l := by
  have hmem := List.mem_of_getElem? hl
  have hok := h.ok l hmem
  have hlen := h.fits hactive hmem
  have hslot : t.newSegmentRecords[i]? = some (some l.writer.record) := by
    rw [h.records_eq hactive, List.getElem?_map, hl]
    rfl
  have hpos : 0 < l.blocks.length := by
    rw [← hok.count]
    exact UInt32.lt_iff_toNat_lt.1 (hbegun.finished _ (List.mem_of_getElem? hslot))
  refine ⟨hslot, hok.availability, List.length_pos_iff.1 hpos, hok.count, hok.ordinals, ?_, h.written i l hl, ?_,
    (h.finished i _ hslot).1, fun b hb => ?_, fun P hproject hsource => ?_, fun b hb P r hr hcatalog => ?_⟩
  · rw [show l.writer.record.fileLen.toNat = segmentHeaderSize + l.writer.payloadLen.toNat from UInt64.toNat_ofNat_of_lt' hlen]
    exact hok.tiles
  · exact hok.target.imp_right fun hle => le_antisymm hle hpos
  · obtain ⟨encoded, hseal, -⟩ := hok.holds b hb
    rw [hok.slice_content hb, ← hok.project]
    exact ⟨encoded, hseal⟩
  · exact hok.fetchSegment hlen (hproject.trans hok.project.symm) hsource
  · exact hok.locateBlock hlen hb hr hcatalog

theorem Packing.addChunks (job : Job) (calls : List ChunkCall) :
    Packing job (· = calls.map ChunkCall.cls) (BuildContext.addChunks job calls) := by
  induction calls with
  | nil => exact .still_pure _
  | cons call rest ih =>
    refine (Packing.addChunk _ _ _ _ _).bind (fun _ => ih) ?_
    rintro cs ds rfl rfl
    rfl

omit [Crypto] [Target] in
theorem addChunks_append [Crypto] [Target] (job : Job) (calls rest : List ChunkCall) {m : BuildContext}
    (hrun : (BuildContext.addChunks job calls).runOn s = (.ok (), m)) :
    (BuildContext.addChunks job (calls ++ rest)).runOn s = (BuildContext.addChunks job rest).runOn m := by
  induction calls generalizing s with
  | nil =>
    cases hrun
    rfl
  | cons call more ih =>
    obtain ⟨u, s', hcall, hmore⟩ := runOn_bind_eq_ok.1 hrun
    exact (runOn_bind_ok hcall).trans (ih hmore)

/-- All calls of a sequence and the end of the segments they left open. -/
def BuildContext.packChunks (job : Job) (calls : List ChunkCall) : BuildM Unit := do
  addChunks job calls
  finishActiveSegments

/-- What a whole sequence of chunks leaves behind. -/
theorem packChunks_laid (haead : AeadLaw) (job : Job) (reuse : ReuseIndex) (fileCount : Nat) (world : World)
    (calls : List ChunkCall) {t : BuildContext}
    (hrun : (BuildContext.packChunks job calls).runOn (.new reuse fileCount world) = (.ok (), t)) :
    ∃ ls, Laid job world.drawn t ls (calls.map ChunkCall.cls) ∧ t.activeSegments = [] ∧ Begun t ∧
      t.reuseIndex = reuse.blocks ∧ t.reuseSegments = reuse.segments := by
  obtain ⟨_, m, hcalls, hfinish⟩ := runOn_bind_eq_ok.1 hrun
  have hone := OneEach.new reuse fileCount world
  obtain ⟨cs, rfl, hadded⟩ := (Packing.addChunks job calls _ hone).ok hcalls
  obtain ⟨cs, rfl, hfinished⟩ := (Packing.finishActiveSegments m (hadded.oneEach hone)).ok hfinish
  have hsteps := hadded.trans hfinished
  obtain ⟨ls, hls⟩ := (Laid.new job reuse fileCount world).steps haead hsteps
  rw [List.nil_append, List.append_nil] at hls
  have hbegun := (addChunks_begun job calls (.new reuse fileCount world)).ok hcalls
  exact ⟨ls, hls, (finishActiveSegments_empties job).ok hfinish, (finishActiveSegments_begun job hbegun).ok hfinish,
    hsteps.reuse⟩

/-- Where the blocks of a sequence of chunks lie, once its segments are finished. `ls` are its segments by slot. The last
part is about the references of the snapshot: each names the segment its block lies in. -/
theorem segment_stream (haead : AeadLaw) (job : Job) (reuse : ReuseIndex) (fileCount : Nat) (world : World)
    (calls : List ChunkCall) {t : BuildContext}
    (hrun : (BuildContext.packChunks job calls).runOn (.new reuse fileCount world) = (.ok (), t)) :
    ∃ ls : List SegmentLayout, t.newSegmentRecords.length = ls.length ∧
      (∀ i l, ls[i]? = some l → FinishedSegment job t i l) ∧
      (∀ before after m, calls = before ++ after →
        (BuildContext.addChunks job before).runOn (.new reuse fileCount world) = (.ok (), m) →
        ∀ (i : Nat) record, m.newSegmentRecords[i]? = some (some record) → t.newSegmentRecords[i]? = some (some record)) ∧
      List.Forall₂ (fun call pending => Placed t ls call.cls pending) calls t.pendingBlocks ∧
      t.reuseIndex = reuse.blocks ∧ t.reuseSegments = reuse.segments ∧
      ((releaseSegments t).length ≤ 2 ^ 16 →
        ∃ refs, resolveBlocks t (releaseSegments t) t.pendingBlocks = .ok refs ∧
          List.Forall₂ (Resolved t) t.pendingBlocks refs ∧
          ∀ made, Earlier world.drawn reuse.segments made → t.world.drawn.Nodup → ContentIdsDiffer (made ++ ls) →
            List.Forall₂ (fun pending ref => (releaseSegments t)[ref.segmentOrdinal.toNat]? = t.segmentOf pending.locator)
              t.pendingBlocks refs) := by
  obtain ⟨ls, hlaid, hactive, hbegun, hindex, hsegments⟩ := packChunks_laid haead job reuse fileCount world calls hrun
  refine ⟨ls, hlaid.records.symm, fun i l hl => hlaid.finishedSegment hactive hbegun hl, ?_,
    List.forall₂_map_left_iff.1 hlaid.blocks, hindex, hsegments, fun hlen => ?_⟩
  · rintro before after m rfl hbefore i record hrecord
    have hone := OneEach.new reuse fileCount world
    obtain ⟨_, m', hcalls, hfinish⟩ := runOn_bind_eq_ok.1 hrun
    rw [addChunks_append job before after hbefore] at hcalls
    obtain ⟨_, -, hm⟩ := (Packing.addChunks job before _ hone).ok hbefore
    have hone' := hm.oneEach hone
    obtain ⟨_, -, hm'⟩ := (Packing.addChunks job after m hone').ok hcalls
    obtain ⟨_, -, ht⟩ := (Packing.finishActiveSegments m' (hm'.oneEach hone')).ok hfinish
    exact (hm'.trans ht).records hrecord
  · obtain ⟨refs, hrefs, hresolved⟩ := hlaid.resolveBlocks_eq hactive hlen
    refine ⟨refs, hrefs, hresolved, fun made hmade hdrawn hids => hresolved.imp fun _ _ hone => ?_⟩
    rw [← hsegments] at hmade
    exact hone.segmentOf_eq (hlaid.nodup_ids hactive hdrawn hmade hids)

end

/-! ### Three chunks in two classes -/

def threeChunks : List ChunkCall :=
  [⟨0, [1], ⟨.required, .hot⟩, .raw⟩, ⟨0, [2], ⟨.required, .normal⟩, .raw⟩, ⟨1, [3], ⟨.required, .hot⟩, .raw⟩]

def threeChunksWorld : World :=
  ⟨[], List.replicate 80 5, fun _ => ⟨none, [], none⟩, ∅, [], [], []⟩

theorem eq_ok_of_isOk {ε σ : Type} {p : Except ε Unit × σ} (h : p.1.isOk = true) : p = (.ok (), p.2) := by
  rcases p with ⟨_ | _, _⟩
  · cases h
  · rfl

def threeChunksPacked : Except (Stop PackError) Unit × BuildContext :=
  letI := exampleCrypto; letI := target64
  (BuildContext.packChunks exampleJob threeChunks).runOn (.new ⟨false, ∅, []⟩ 1 threeChunksWorld)

theorem segment_stream_sample : let _ := exampleCrypto; let _ := target64
    (BuildContext.packChunks exampleJob threeChunks).runOn (.new ⟨false, ∅, []⟩ 1 threeChunksWorld) =
        (.ok (), threeChunksPacked.2) ∧
      ∃ ls : List SegmentLayout, ls.length = 2 ∧
        ∀ i l, ls[i]? = some l → FinishedSegment exampleJob threeChunksPacked.2 i l := by
  let _ := exampleCrypto; let _ := target64
  have hpacked : (BuildContext.packChunks exampleJob threeChunks).runOn (.new ⟨false, ∅, []⟩ 1 threeChunksWorld) =
      threeChunksPacked := rfl
  have hrun := hpacked.trans (eq_ok_of_isOk (show threeChunksPacked.1.isOk = true by decide +kernel))
  have hlen : threeChunksPacked.2.newSegmentRecords.length = 2 := by decide +kernel
  obtain ⟨ls, hls, hfinished, -⟩ := segment_stream exampleCrypto_aead exampleJob ⟨false, ∅, []⟩ 1 threeChunksWorld
    threeChunks hrun
  exact ⟨hrun, ls, hls.symm.trans hlen, hfinished⟩

end Hakutaku
