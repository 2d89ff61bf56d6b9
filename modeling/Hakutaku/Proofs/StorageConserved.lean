import Hakutaku.BuildHistory
import Hakutaku.Storage

/-!
# Storage accounting conserves bytes

`storage_stats` counts every physical block once. In a release of a build history the references to a segment are to
blocks of that segment, which tile its payload: so no segment is charged with more than it holds, whichever builds its
blocks were written and reused in, and one just written with all it holds.
-/

namespace Hakutaku
open Wire Act Ledger

section
variable [Crypto] {layouts : List SegmentLayout} {segments : List SegmentRecord} {blocks : List BlockRef} {k : Nat}
  {l : SegmentLayout}

/-! ### Segments and their blocks -/

namespace SegmentLayout

/-- The blocks of the segment at an ordinal. -/
def bookings (l : SegmentLayout) (k : Nat) : List ((UInt16 × UInt32) × UInt32) :=
  l.blocks.map fun b => ((UInt16.ofNat k, b.segmentBlockOrdinal), b.storedLen)

theorem Sound.nodup_bookings (h : l.Sound) (k : Nat) : (l.bookings k).Nodup := by
  refine List.Nodup.of_map (fun x => x.1.2.toNat) ?_
  have hrange : (l.bookings k).map (fun x => x.1.2.toNat) = List.range l.blocks.length := by
    refine List.ext_getElem (by simp [bookings]) fun i hi _ => ?_
    have hblock : i < l.blocks.length := by simpa [bookings] using hi
    simpa [bookings] using h.ordinals i _ (List.getElem?_eq_getElem hblock)
  rw [hrange]
  exact List.nodup_range

/-- The blocks of a segment make up its payload. -/
theorem Sound.total_bookings (h : l.Sound) (k : Nat) : total UInt32.toNat (l.bookings k) = l.writer.payloadLen.toNat := by
  have hstop := h.tiles.stop_eq
  rw [total_of_nodup (h.nodup_bookings k)]
  simp only [bookings, List.map_map] at hstop ⊢
  have hsame : (Prod.snd ∘ BlockRef.range) = fun b : BlockRef => b.storedLen.toNat := rfl
  rw [hsame] at hstop
  exact (Nat.add_left_cancel hstop).symm

/-- The blocks of a segment are told apart by their ordinals. -/
theorem Sound.eq_of_ordinal (h : l.Sound) {b b' : BlockRef} (hb : b ∈ l.blocks) (hb' : b' ∈ l.blocks)
    (heq : b.segmentBlockOrdinal = b'.segmentBlockOrdinal) : b = b' := by
  obtain ⟨i, hi⟩ := List.mem_iff_getElem?.1 hb
  obtain ⟨j, hj⟩ := List.mem_iff_getElem?.1 hb'
  have hij : i = j := (h.ordinals i b hi).symm.trans ((congrArg UInt32.toNat heq).trans (h.ordinals j b' hj))
  subst hij
  exact Option.some.inj (hi.symm.trans hj)

end SegmentLayout

namespace Backed
variable (h : Backed layouts segments blocks) (hsound : ∀ l ∈ layouts, l.Sound)
include h hsound

omit hsound in
/-- The references to a segment are charged with blocks of this segment. -/
theorem bookings_subset (hl : layouts[k]? = some l) :
    (blocks.filter fun r => r.segmentOrdinal.toNat = k).map BlockRef.booking ⊆ l.bookings k := by
  intro x hx
  obtain ⟨r, hr, rfl⟩ := List.mem_map.1 hx
  obtain ⟨hmem, hk⟩ := List.mem_filter.1 hr
  obtain rfl := of_decide_eq_true hk
  obtain ⟨l', hl', b, hb, hnames⟩ := h.named r hmem
  obtain rfl := Option.some.inj (hl.symm.trans hl')
  refine List.mem_map.2 ⟨b, hb, ?_⟩
  unfold BlockRef.Names at hnames
  rw [UInt16.ofNat_toNat, BlockRef.booking, hnames]

/-- No segment is charged with more than it holds. -/
theorem storedOn_le (hl : layouts[k]? = some l) : storedOn blocks k ≤ l.writer.payloadLen.toNat := by
  rw [← (hsound l (List.mem_of_getElem? hl)).total_bookings k]
  exact total_mono (h.bookings_subset hl)

/-- A segment whose blocks are all referenced is charged with all it holds. -/
theorem storedOn_eq (hl : layouts[k]? = some l)
    (hcovered : ∀ b ∈ l.blocks, ∃ r ∈ blocks, r.segmentOrdinal.toNat = k ∧ r.Names b) :
    storedOn blocks k = l.writer.payloadLen.toNat := by
  rw [← (hsound l (List.mem_of_getElem? hl)).total_bookings k]
  refine total_congr fun x => ⟨fun hx => h.bookings_subset hl hx, fun hx => ?_⟩
  obtain ⟨b, hb, rfl⟩ := List.mem_map.1 hx
  obtain ⟨r, hr, hk, hnames⟩ := hcovered b hb
  refine List.mem_map.2 ⟨r, List.mem_filter.2 ⟨hr, decide_eq_true hk⟩, ?_⟩
  unfold BlockRef.Names at hnames
  rw [← hk, UInt16.ofNat_toNat, BlockRef.booking, hnames]

/-- No release references more than its segments hold. -/
theorem storedBytes_le : storedBytes blocks ≤ payloadBytes segments := by
  have hlt : ∀ r ∈ blocks, r.segmentOrdinal.toNat < (layouts.map fun l => l.writer.payloadLen.toNat).length := by
    intro r hr
    obtain ⟨l, hl, -⟩ := h.named r hr
    rw [List.length_map]
    exact (List.getElem?_eq_some_iff.1 hl).1
  have hpayload : payloadBytes segments = (layouts.map fun l => l.writer.payloadLen.toNat).sum := by
    rw [payloadBytes, h.records, List.map_map]
    rfl
  rw [storedBytes_eq_sum hlt, hpayload, ← Fin.sum_univ_getElem, Finset.sum_range]
  refine Finset.sum_le_sum fun i _ => ?_
  rw [List.getElem_map]
  exact h.storedOn_le hsound (List.getElem?_eq_getElem _)

/-- The statistics of a release succeed as soon as its files fit. -/
theorem countable_iff (hfits : ∀ l ∈ layouts, segmentHeaderSize + l.writer.payloadLen.toNat < u64Size) :
    Countable segments blocks ↔ fileBytes segments < u64Size := by
  refine ⟨fun hcount => hcount.retained, fun hretained => ?_⟩
  have hpayload : payloadBytes segments ≤ fileBytes segments := by
    unfold payloadBytes fileBytes
    refine List.sum_le_sum fun record hrecord => ?_
    rw [h.records] at hrecord
    obtain ⟨l, hl, rfl⟩ := List.mem_map.1 hrecord
    show l.writer.payloadLen.toNat ≤ (UInt64.ofNat (segmentHeaderSize + l.writer.payloadLen.toNat)).toNat
    rw [UInt64.toNat_ofNat_of_lt' (hfits l hl)]
    exact Nat.le_add_left _ _
  refine ⟨fun r hr => ?_, fun r hr r' hr' hsegment hblock => ?_, hretained, hpayload.trans_lt hretained, h.storedBytes_le hsound⟩
  · obtain ⟨l, hl, b, hb, hnames⟩ := h.named r hr
    refine ⟨l.writer.record, ?_, ?_⟩
    · rw [h.records, List.getElem?_map, hl]
      rfl
    · obtain ⟨i, hi⟩ := List.mem_iff_getElem?.1 hb
      have hl := hsound l (List.mem_of_getElem? hl)
      unfold BlockRef.Names at hnames
      rw [hnames, UInt32.lt_iff_toNat_lt, hl.ordinals i b hi]
      exact (List.getElem?_eq_some_iff.1 hi).1.trans_eq hl.count.symm
  · obtain ⟨l, hl, b, hb, hnames⟩ := h.named r hr
    obtain ⟨l', hl', b', hb', hnames'⟩ := h.named r' hr'
    rw [hsegment] at hl
    obtain rfl := Option.some.inj (hl.symm.trans hl')
    unfold BlockRef.Names at hnames hnames'
    rw [hnames, hnames'] at hblock ⊢
    obtain rfl := (hsound l (List.mem_of_getElem? hl)).eq_of_ordinal hb hb' hblock
    rfl

omit hsound in
/-- The files of a release are its payload and one header a segment. -/
theorem fileBytes_eq (hfits : ∀ l ∈ layouts, segmentHeaderSize + l.writer.payloadLen.toNat < u64Size) :
    fileBytes segments = payloadBytes segments + 128 * segments.length := by
  have hlen : (layouts.map fun l => l.writer.record.fileLen.toNat) =
      layouts.map fun l => 128 + l.writer.payloadLen.toNat :=
    List.map_congr_left fun l hl => UInt64.toNat_ofNat_of_lt' (hfits l hl)
  unfold fileBytes payloadBytes
  rw [h.records, List.map_map, List.map_map, List.length_map]
  show (layouts.map fun l => l.writer.record.fileLen.toNat).sum = (layouts.map fun l => l.writer.payloadLen.toNat).sum + _
  rw [hlen, List.sum_map_add, List.map_const', List.sum_replicate, smul_eq_mul, Nat.add_comm, Nat.mul_comm]

end Backed

/-! ### The counters of a build -/

/-- Every block of the build is counted, as reused or as new, while the counters have not come to their ends. -/
def Counted (s : BuildContext) : Prop :=
  s.pendingBlocks.length < u32Size → s.reusedBlocks.toNat + s.newBlocks.toNat = s.pendingBlocks.length

omit [Crypto] in
theorem satSucc32_toNat {a : UInt32} (h : a.toNat + 1 < u32Size) : (satSucc32 a).toNat = a.toNat + 1 := by
  rw [satSucc32, if_pos h, UInt32.toNat_add]
  exact Nat.mod_eq_of_lt h

omit [Crypto] in
theorem Counted.new (reuse : ReuseIndex) (fileCount : Nat) (world : World) : Counted (.new reuse fileCount world) :=
  fun _ => rfl

variable {job : Job} {s t : BuildContext} {cs : List SegmentClass}

theorem Step.counted (h : Step job s cs t) (hs : Counted s) : Counted t := by
  have hgrow {pending : PendingBlock} (hlt : (s.pendingBlocks ++ [pending]).length < u32Size) :
      s.reusedBlocks.toNat + s.newBlocks.toNat = s.pendingBlocks.length ∧ s.pendingBlocks.length + 1 < u32Size := by
    rw [List.length_append, List.length_singleton] at hlt
    exact ⟨hs (by omega), hlt⟩
  cases h with
  | outside ht =>
    obtain ⟨_, _, _, _, _, _, _, rfl, -⟩ := ht
    exact hs
  | share =>
    intro hlt
    obtain ⟨heq, hroom⟩ := hgrow hlt
    simp only [BuildContext.shareBlock, List.length_append, List.length_singleton]
    rw [satSucc32_toNat (by omega)]
    omega
  | keep =>
    intro hlt
    obtain ⟨heq, hroom⟩ := hgrow hlt
    simp only [BuildContext.keepExisting, List.length_append, List.length_singleton]
    rw [satSucc32_toNat (by omega)]
    omega
  | start => exact hs
  | finish => exact hs
  | write =>
    intro hlt
    obtain ⟨heq, hroom⟩ := hgrow hlt
    simp only [BuildContext.appendNew, List.length_append, List.length_singleton]
    rw [satSucc32_toNat (by omega)]
    omega

theorem Steps.counted (h : Steps job s cs t) (hs : Counted s) : Counted t := by
  induction h with
  | refl => exact hs
  | tail _ hstep ih => exact hstep.counted ih

/-! ### Every list, and every release -/

omit [Crypto] in
/-- What the statistics say of any segments and references. -/
structure Conserved (segments : List SegmentRecord) (blocks : List BlockRef) : Prop where
  ok : (∃ storage, storageStats segments blocks = .ok storage) ↔ Countable segments blocks
  balance : ∀ storage, storageStats segments blocks = .ok storage →
    (storage.retained.toNat : Int) - (storage.referenced.toNat + storage.stranded.toNat) =
      (segments.map fun r => (r.fileLen.toNat : Int) - r.payloadLen.toNat).sum
  order : ∀ blocks', (∀ x, x ∈ blocks.map BlockRef.booking ↔ x ∈ blocks'.map BlockRef.booking) →
    ∀ storage, storageStats segments blocks = .ok storage → storageStats segments blocks' = .ok storage

omit [Crypto] in
theorem storageStats_conserved (segments : List SegmentRecord) (blocks : List BlockRef) : Conserved segments blocks := by
  refine ⟨⟨?_, fun h => ⟨_, storageStats_eq_ok.2 ⟨h, rfl⟩⟩⟩, fun storage h => ?_, fun blocks' hsame storage h => ?_⟩
  · rintro ⟨storage, h⟩
    exact (storageStats_eq_ok.1 h).1
  · obtain ⟨hcount, rfl⟩ := storageStats_eq_ok.1 h
    have hreferenced := hcount.referenced
    have hsum : (segments.map fun r => (r.fileLen.toNat : Int) - r.payloadLen.toNat).sum =
        (fileBytes segments : Int) - payloadBytes segments := by
      unfold fileBytes payloadBytes
      clear hcount hreferenced h
      induction segments with
      | nil => rfl
      | cons r rest ih =>
        simp only [List.map_cons, List.sum_cons, Nat.cast_add, ih]
        ring
    rw [hsum, UInt64.toNat_ofNat_of_lt' hcount.retained, UInt64.toNat_ofNat_of_lt' (hreferenced.trans_lt hcount.payload),
      UInt64.toNat_ofNat_of_lt' ((Nat.sub_le _ _).trans_lt hcount.payload)]
    omega
  · obtain ⟨hcount, rfl⟩ := storageStats_eq_ok.1 h
    refine storageStats_eq_ok.2 ⟨hcount.congr hsame, ?_⟩
    rw [show storedBytes blocks = storedBytes blocks' from total_congr hsame]

/-- The statistics of a release, in its report and as the next build reads them. -/
structure Accounted (t : BuildContext) (release : StagedRelease) : Prop where
  stats : storageStats release.segments release.blockRefs = .ok
    ⟨release.report.retainedSegmentBytes, release.report.referencedBlockBytes, release.report.strandedSegmentBytes⟩
  read : (release.toOld (Crypto.hash t.fingerprint) t.chunkIds).storageStats = .ok
    ⟨release.report.retainedSegmentBytes, release.report.referencedBlockBytes, release.report.strandedSegmentBytes⟩
  balance : release.report.retainedSegmentBytes.toNat = release.report.referencedBlockBytes.toNat +
    release.report.strandedSegmentBytes.toNat + 128 * release.segments.length
  fresh : ∀ record, some record ∈ t.newSegmentRecords → ∃ k : Nat, release.segments[k]? = some record ∧
    storedOn release.blockRefs k = record.payloadLen.toNat
  counts : release.report.reusedBlocks.toNat + release.report.newBlocks.toNat = release.report.blockCount.toNat

section
variable [Target] [FastCdc] {identity : Identity} {records : List SegmentRecord} {active : Option OldRelease}
  {files : List (SourceFile × Option CachedEntry)} {world : World} {reuse : ReuseIndex}

omit [Target] [FastCdc] in
/-- The segments of a history are finished ones. -/
theorem Made.sound {drawn : List (ByteArr 16 × ByteArr 16)} {made : List SegmentLayout}
    (h : Made identity drawn records made) (hsub : layouts ⊆ made) :
    (∀ l ∈ layouts, l.Sound) ∧ ∀ l ∈ layouts, segmentHeaderSize + l.writer.payloadLen.toNat < u64Size :=
  ⟨fun l hl => (h.genuine l (hsub hl)).toSound, fun l hl => (h.genuine l (hsub hl)).fits⟩

/-- The release that a build stages. -/
theorem BuildHistory.accounted (haead : AeadLaw) {release : StagedRelease}
    (h : BuildHistory identity world.drawn records active) (hjob : job.identity = identity)
    (hrun : packDirectory job active files world = .ok (.ok (.staged release), t)) (hdrawn : t.world.drawn.Nodup)
    (hids : IdsDiffer (records ++ t.newSegmentRecords.reduceOption)) : Accounted t release := by
  obtain ⟨made, hmade⟩ := h.lineage haead (hdrawn.sublist (packDirectory_drawn haead hrun))
    (hids.of_subset (List.subset_append_left _ _))
  obtain ⟨reuse, releaseSequence, s, ls, classes, hdone, -, ⟨hstaged, ⟨w, rfl⟩, -⟩, hsame, hrecords⟩ :=
    packDirectory_done haead hrun
  rw [hsame] at hdrawn
  rw [hrecords] at hids
  have hfew : (releaseSegments s).length ≤ 2 ^ 16 := hstaged.segments ▸ hstaged.few
  obtain ⟨refs, layouts, hrefs, hsub, hbacked, hlies⟩ := hmade.release hdone hjob hdrawn hids hfew
  obtain ⟨hsound, hfits⟩ := (hmade.join hdone hjob).sound hsub
  obtain rfl : release.blockRefs = refs := by
    have heq := hstaged.blockRefs
    rw [hstaged.segments, hrefs] at heq
    exact (Except.ok.inj heq).symm
  rw [← hstaged.segments] at hbacked
  obtain ⟨storage, fileCount, newSegments, hstorage, -, -, hreport⟩ := hstaged.report
  obtain ⟨hcount, hvalues⟩ := storageStats_eq_ok.1 hstorage
  have hstats : storageStats release.segments release.blockRefs = .ok
      ⟨release.report.retainedSegmentBytes, release.report.referencedBlockBytes, release.report.strandedSegmentBytes⟩ := by
    rw [hreport]
    exact hstorage
  refine ⟨hstats, ?_, ?_, fun record hrecord => ?_, ?_⟩
  · unfold OldRelease.storageStats
    rw [StagedRelease.toOld_blocks _ _ _ hstaged.pairs]
    rw [if_neg (show ¬ 2 ^ 16 < (release.toOld _ _).segments.length from Nat.not_lt.2 hstaged.few)]
    exact hstats
  · have hfiles := hbacked.fileBytes_eq hfits
    have hreferenced := hcount.referenced
    rw [hreport, hvalues]
    show (UInt64.ofNat (fileBytes release.segments)).toNat = (UInt64.ofNat (storedBytes release.blockRefs)).toNat +
      (UInt64.ofNat (payloadBytes release.segments - storedBytes release.blockRefs)).toNat + 128 * release.segments.length
    rw [UInt64.toNat_ofNat_of_lt' hcount.retained, UInt64.toNat_ofNat_of_lt' (hreferenced.trans_lt hcount.payload),
      UInt64.toNat_ofNat_of_lt' ((Nat.sub_le _ _).trans_lt hcount.payload)]
    omega
  · rw [show ({ s with world := w } : BuildContext).newSegmentRecords = s.newSegmentRecords from rfl,
      hdone.records_eq hdone.closed] at hrecord
    obtain ⟨l, hl, heq⟩ := List.mem_map.1 hrecord
    obtain rfl := Option.some.inj heq
    obtain ⟨i, hi⟩ := List.mem_iff_getElem?.1 hl
    rw [hstaged.segments] at hbacked
    obtain ⟨k, hk, hcovered⟩ := hmade.covered hdone hjob hdrawn hids hsub hbacked.records hlies hi
    refine ⟨k, ?_, hbacked.storedOn_eq hsound hk hcovered⟩
    rw [hstaged.segments, hbacked.records, List.getElem?_map, hk]
    rfl
  · obtain ⟨fileCount, hsteps⟩ := hdone.steps
    have hlen : s.pendingBlocks.length = release.blockRefs.length := hlies.length_eq
    have hcounted := hsteps.counted (.new reuse fileCount world) (hlen ▸ hstaged.blocks)
    rw [hreport]
    show s.reusedBlocks.toNat + s.newBlocks.toNat = (UInt32.ofNat release.blockRefs.length).toNat
    rw [UInt32.toNat_ofNat_of_lt' hstaged.blocks, hcounted, hlen]

/-- Behind the packing loop of a build, the statistics fail only for segment files that are too long for a sum. -/
theorem BuildHistory.counts_iff (haead : AeadLaw) (h : BuildHistory identity world.drawn records active)
    (hjob : job.identity = identity) (hindex : loadReuseIndex (active.filter fun _ => job.options.incremental) = .ok reuse)
    (hrun : (BuildContext.packFiles job files).runOn (.new reuse files.length world) = (.ok (), t))
    (hdrawn : t.world.drawn.Nodup) (hids : IdsDiffer (records ++ t.newSegmentRecords.reduceOption))
    (hfew : (releaseSegments t).length ≤ 2 ^ 16) :
    ∃ refs, resolveBlocks t (releaseSegments t) t.pendingBlocks = .ok refs ∧
      ((∃ storage, storageStats (releaseSegments t) refs = .ok storage) ↔ fileBytes (releaseSegments t) < u64Size) := by
  obtain ⟨hclosed, classes, hsteps⟩ := (packFiles_runs job files (OneEach.new reuse files.length world)).ok hrun
  obtain ⟨ls, hdone⟩ := LoopDone.of_steps haead hindex hsteps hclosed
  have hdrawn' : world.drawn.Nodup := by
    rw [hdone.drawn] at hdrawn
    exact hdrawn.sublist (List.sublist_append_left _ _)
  obtain ⟨made, hmade⟩ := h.lineage haead hdrawn' (hids.of_subset (List.subset_append_left _ _))
  obtain ⟨refs, layouts, hrefs, hsub, hbacked, -⟩ := hmade.release hdone hjob hdrawn hids hfew
  obtain ⟨hsound, hfits⟩ := (hmade.join hdone hjob).sound hsub
  exact ⟨refs, hrefs, (storageStats_conserved _ _).ok.trans (hbacked.countable_iff hsound hfits)⟩

/-- `storage_stats` counts every physical block once: for any lists, for the release that any build of a history stages,
and behind the packing loop of any build. -/
theorem storage_conserved (haead : AeadLaw) :
    (∀ segments blocks, Conserved segments blocks) ∧
    (∀ {identity : Identity} {records : List SegmentRecord} {active : Option OldRelease} {job : Job}
      {files : List (SourceFile × Option CachedEntry)} {world : World},
      BuildHistory identity world.drawn records active → job.identity = identity →
      (∀ {release : StagedRelease} {t : BuildContext},
        packDirectory job active files world = .ok (.ok (.staged release), t) → t.world.drawn.Nodup →
        IdsDiffer (records ++ t.newSegmentRecords.reduceOption) → Accounted t release) ∧
      (∀ {reuse : ReuseIndex} {t : BuildContext},
        loadReuseIndex (active.filter fun _ => job.options.incremental) = .ok reuse →
        (BuildContext.packFiles job files).runOn (.new reuse files.length world) = (.ok (), t) → t.world.drawn.Nodup →
        IdsDiffer (records ++ t.newSegmentRecords.reduceOption) → (releaseSegments t).length ≤ 2 ^ 16 →
        ∃ refs, resolveBlocks t (releaseSegments t) t.pendingBlocks = .ok refs ∧
          ((∃ storage, storageStats (releaseSegments t) refs = .ok storage) ↔ fileBytes (releaseSegments t) < u64Size))) := by
  refine ⟨storageStats_conserved, fun h hjob => ⟨fun hrun hdrawn hids => ?_, fun hindex hrun hdrawn hids hfew => ?_⟩⟩
  · exact h.accounted haead hjob hrun hdrawn hids
  · exact h.counts_iff haead hjob hindex hrun hdrawn hids hfew

end

end

/-! ### A release of one block -/

def storedByte : SourceFile := ⟨"in/c", "c", 1, ⟨1, none, 0, 0⟩⟩

def storedByteWorld : World :=
  ⟨[], List.replicate 64 5, fun _ => ⟨some storedByte.stamp, [7], some storedByte.stamp⟩, ∅, [], [], []⟩

def storedByteBuilt : Except (Stop PackError) BuildResult × BuildContext :=
  letI := exampleCrypto; letI := target64; letI := exampleFastCdc
  (publish exampleJob none false 1 [(storedByte, none)]).runOn (.new ⟨false, ∅, []⟩ 1 storedByteWorld)

/-- The release a build staged. -/
def BuildResult.release? : Except (Stop PackError) BuildResult → Option StagedRelease
  | .ok (.staged release) => some release
  | _ => none

theorem BuildResult.release?_eq_some {p : Except (Stop PackError) BuildResult × BuildContext} {release : StagedRelease}
    (h : BuildResult.release? p.1 = some release) : p = (.ok (.staged release), p.2) := by
  rcases p with ⟨_ | _ | staged, t⟩
  · cases h
  · cases h
  · obtain rfl := Option.some.inj h
    rfl

theorem storage_conserved_sample : letI := exampleCrypto; letI := target64; letI := exampleFastCdc
    ∃ release t, packDirectory exampleJob none [(storedByte, none)] storedByteWorld = .ok (.ok (.staged release), t) ∧
      release.segments.length = 1 ∧ Accounted t release := by
  let _ := exampleCrypto; let _ := target64; let _ := exampleFastCdc
  have hpublish : (publish exampleJob none false 1 [(storedByte, none)]).runOn (.new ⟨false, ∅, []⟩ 1 storedByteWorld) =
      storedByteBuilt := rfl
  have hstaged : ((BuildResult.release? storedByteBuilt.1).map fun release => release.segments.length) = some 1 := by
    decide +kernel
  obtain ⟨release, hrelease, hlen⟩ := Option.map_eq_some_iff.1 hstaged
  have hresult : storedByteBuilt = (.ok (.staged release), storedByteBuilt.2) := BuildResult.release?_eq_some hrelease
  have hindex : loadReuseIndex ((none : Option OldRelease).filter fun _ => exampleJob.options.incremental) =
      .ok ⟨false, ∅, []⟩ := rfl
  have hrun := packDirectory_eq_ok.2 ⟨_, 1, hindex, rfl, hpublish.trans hresult⟩
  have hdrawn : storedByteBuilt.2.world.drawn.Nodup := by decide +kernel
  have hids : IdsDiffer ([] ++ storedByteBuilt.2.newSegmentRecords.reduceOption) := by decide +kernel
  have hhistory : BuildHistory exampleJob.identity storedByteWorld.drawn [] none := .start
  exact ⟨release, _, hrun, hlen, ((storage_conserved exampleCrypto_aead).2 hhistory rfl).1 hrun hdrawn hids⟩

end Hakutaku
