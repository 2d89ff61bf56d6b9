import Hakutaku.BuildHistory
import Hakutaku.FileBlocks
import Hakutaku.BlockSizes

/-!
# What the releases of a history hold

`StoredIn`: a reference opens, in the segment it names, to a plaintext with the id of a chunk. In every history the
references of the active release do (`BuildHistory.sourced`), whichever build wrote their blocks, and those of a file lie in
segments of the availability of the file (`StagedFrom.stored`).
-/

namespace Hakutaku
open Wire Act BuildContext

section
variable [Crypto]

theorem NewSegment.Opens.names {w : NewSegment} {r b : BlockRef} {plaintext : Bytes} (h : w.Opens b plaintext)
    (hnames : r.Names b) : w.Opens r plaintext := by
  unfold BlockRef.Names at hnames
  rw [hnames]
  exact ⟨h.sealed, h.fits⟩

/-- The reference is that of a block of a segment, and opens to a plaintext with the id of the chunk. -/
def StoredIn (made : List SegmentLayout) (segments : List SegmentRecord) (r : BlockRef) (chunkId : ByteArr 32)
    (availability : Availability) : Prop :=
  ∃ l ∈ made, segments[r.segmentOrdinal.toNat]? = some l.writer.record ∧ l.writer.record.availability = availability ∧
    (∃ b ∈ l.blocks, r.Names b) ∧ ∃ plaintext, l.writer.Opens r plaintext ∧ Crypto.hash plaintext = chunkId

/-- The active release gives every block the id of the plaintext it opens to. -/
structure Sourced (identity : Identity) (drawn : List (ByteArr 16 × ByteArr 16)) (records : List SegmentRecord)
    (release : Option OldRelease) (made : List SegmentLayout) : Prop extends Lineage identity drawn records release made where
  stored : ∀ old ∈ release, ∀ r ∈ old.records, ∃ availability, StoredIn made old.segments r.block r.chunkId availability

variable {identity : Identity} {job : Job} {drawn : List (ByteArr 16 × ByteArr 16)} {records : List SegmentRecord}
  {active : Option OldRelease} {made ls : List SegmentLayout} {classes : List SegmentClass} {s t : BuildContext}
  {files : List (SourceFile × Option CachedEntry)} {world : World} {reuse : ReuseIndex} {releaseSequence : UInt64}
  {release : StagedRelease}

/-! ### Blocks of a build -/

namespace Sourced
variable (h : Sourced identity world.drawn records active made) (hdone : LoopDone job active world reuse s ls classes)
include h hdone

/-- A block that stands for a chunk opens to it, in a segment of the availability of the class. -/
theorem stands {chunkId : ByteArr 32} {cls : SegmentClass} {pending : PendingBlock}
    (hstands : Stands s ls chunkId cls pending) :
    ∃ l ∈ made ++ ls, s.segmentOf pending.locator = some l.writer.record ∧ l.writer.record.availability = cls.availability ∧
      (∃ b ∈ l.blocks, pending.reference.Names b) ∧
      ∃ plaintext, l.writer.Opens pending.reference plaintext ∧ Crypto.hash plaintext = chunkId := by
  unfold Stands at hstands
  rcases hlocator : pending.locator with id | i
  · rw [hlocator] at hstands
    obtain ⟨hused, reused, segment, hreused, hsegment, rfl, hcopies⟩ := hstands
    rw [hdone.reuseIndex] at hreused
    rcases loadReuseIndex_sound hdone.index with ⟨-, rfl⟩ | ⟨old, compact, hold, hsegments, -, -, hblocks⟩
    · rw [AList.lookup_empty] at hreused
      cases hreused
    · have hactive := (Option.mem_filter_iff.1 hold).1
      obtain ⟨r, hr, rfl, rfl, -, segment', hsegment', havailability⟩ := hblocks _ reused hreused
      obtain ⟨_, l, hl, hrecord, -, ⟨b, hb, hnames⟩, plaintext, hopens, hid⟩ := h.stored old hactive r hr
      rw [hdone.reuseSegments, hsegments] at hsegment
      obtain rfl := Option.some.inj (hsegment.symm.trans hrecord)
      obtain rfl := Option.some.inj (hrecord.symm.trans hsegment')
      -- The segment kept under the id is the one of the index.
      obtain ⟨record, hrecord'⟩ := Option.isSome_iff_exists.1 hused
      obtain ⟨hid', hin⟩ := hdone.kept _ _ hrecord'
      rw [hdone.reuseSegments, hsegments] at hin
      obtain rfl := List.inj_on_of_nodup_map (h.active old hactive).1 hin (List.mem_of_getElem? hrecord) hid'
      refine ⟨l, List.mem_append_left _ hl, hrecord', havailability, ⟨b, hb, ?_⟩, plaintext, ?_, hid⟩
      · unfold BlockRef.Copies at hcopies
        unfold BlockRef.Names at hnames ⊢
        rw [hcopies, hnames]
      · unfold BlockRef.Copies at hcopies
        rw [hcopies]
        exact ⟨hopens.sealed, hopens.fits⟩
  · rw [hlocator] at hstands
    obtain ⟨l, hl, rfl, b, hb, hcopies, plaintext, hopens, hid⟩ := hstands
    have hmem := List.mem_of_getElem? hl
    refine ⟨l, List.mem_append_right _ hmem, ?_, (hdone.ok l hmem).availability, ⟨b, hb, hcopies.names _⟩, plaintext,
      hopens.names (hcopies.names _), hid⟩
    rw [BuildContext.segmentOf, hdone.records_eq hdone.closed, List.getElem?_map, hl]
    rfl

/-- The reference of a block that stands for a chunk. -/
theorem storedIn {chunkId : ByteArr 32} {cls : SegmentClass} {pending : PendingBlock}
    (hstands : Stands s ls chunkId cls pending) {ref : BlockRef} (hresolved : Resolved s pending ref)
    (hnodup : ((releaseSegments s).map SegmentRecord.id).Nodup) :
    StoredIn (made ++ ls) (releaseSegments s) ref chunkId cls.availability := by
  obtain ⟨l, hl, hsegment, havailability, ⟨b, hb, hnames⟩, plaintext, hopens, hid⟩ := h.stands hdone hstands
  have href : ref.Names pending.reference := by
    unfold BlockRef.Names
    rw [hresolved.1]
  refine ⟨l, hl, (hresolved.segmentOf_eq hnodup).trans hsegment, havailability, ⟨b, hb, ?_⟩, plaintext,
    hopens.names href, hid⟩
  unfold BlockRef.Names at hnames ⊢
  rw [hresolved.1, hnames]

end Sourced

/-! ### A build that stages a release -/

variable [Target] [FastCdc]

/-- A staged release, written from the state behind a packing loop. -/
structure StagedFrom (job : Job) (old : Option OldRelease) (files : List (SourceFile × Option CachedEntry)) (world : World)
    (release : StagedRelease) (t : BuildContext) (reuse : ReuseIndex) (releaseSequence : UInt64) (s : BuildContext)
    (ls : List SegmentLayout) (classes : List SegmentClass) : Prop extends LoopDone job old world reuse s ls classes where
  sequence : nextSequence job.options old = .ok releaseSequence
  stand : AllStand s ls
  paths : s.filePaths = files.map fun file => file.1.logicalPath
  classed : List.Forall₂ (fun file f => Classed job s ls file.1 f) files s.fileRecords
  filled : FastCdcLaw → FaithfulCache world.sources files →
    List.Forall₂ (fun file f => Filled world.sources s file.1 f) files s.fileRecords
  sized : FastCdcLaw → (∀ release ∈ old, ∀ r ∈ release.records, r.block.Sized) →
    ∀ pending ∈ s.pendingBlocks, pending.reference.Sized
  wrote : (writeSnapshot job releaseSequence (Crypto.hash s.fingerprint)).runOn s = (.ok release, t)

theorem publish_staged {old : Option OldRelease} {compacting : Bool}
    (h : (publish job old compacting releaseSequence files).runOn s = (.ok (.staged release), t)) :
    ∃ s' s'', (packFiles job files).runOn s = (.ok (), s') ∧ Idle s' s'' ∧
      (writeSnapshot job releaseSequence (Crypto.hash s''.fingerprint)).runOn s'' = (.ok release, t) := by
  unfold publish at h
  obtain ⟨_, s', hpack, h⟩ := runOn_bind_eq_ok.1 h
  rw [runOn_get_bind] at h
  have hrest {s'' : BuildContext} (hidle : Idle s' s'')
      (h : (publishRest job old compacting releaseSequence files.length s').runOn s'' = (.ok (.staged release), t)) :
      ∃ s' s'', (packFiles job files).runOn s = (.ok (), s') ∧ Idle s' s'' ∧
        (writeSnapshot job releaseSequence (Crypto.hash s''.fingerprint)).runOn s'' = (.ok release, t) := by
    have hsame : s'.fingerprint = s''.fingerprint := by
      obtain ⟨_, rfl, -⟩ := hidle
      rfl
    unfold publishRest at h
    split at h
    · obtain ⟨report, _, -, h⟩ := runOn_bind_eq_ok.1 h
      cases h
    · obtain ⟨release', t', hwrite, h⟩ := runOn_bind_eq_ok.1 h
      cases h
      rw [hsame] at hwrite
      exact ⟨s', s'', hpack, hidle, hwrite⟩
  split at h
  · obtain ⟨_, s'', hsys, h⟩ := runOn_bind_eq_ok.1 h
    exact hrest ((Idle.syscall s').ok hsys) h
  · exact hrest (Std.Refl.refl s') h

theorem packDirectory_staged (haead : AeadLaw) (hz : ZstdLaw)
    (hrun : packDirectory job active files world = .ok (.ok (.staged release), t)) :
    ∃ reuse releaseSequence s ls classes, StagedFrom job active files world release t reuse releaseSequence s ls classes := by
  obtain ⟨reuse, releaseSequence, hreuse, hsequence, hpublish⟩ := packDirectory_eq_ok.1 hrun
  obtain ⟨s', s, hpack, hidle, hwritten⟩ := publish_staged hpublish
  obtain ⟨ls, hstock, hstand, hpaths, hclassed, hfilled⟩ := (packFiles_filled haead hz files reuse world).ok hpack
  have hclosed : s'.activeSegments = [] := ((packFiles_runs job files (OneEach.new reuse files.length world)).ok hpack).1
  obtain ⟨hstock', hkeeps⟩ := hstock.outside hidle.outside
  obtain ⟨classes, hsteps, hstocked⟩ := hstock'.stocked
  obtain ⟨w, rfl, -⟩ := hidle
  have hlater : Later s' ls _ ls := ⟨hkeeps, List.prefix_rfl, List.prefix_rfl, List.prefix_rfl⟩
  have hdone : LoopDone job active world reuse { s' with world := w } ls classes :=
    ⟨hstocked.toLaid, hreuse, ⟨files.length, hsteps⟩, hclosed, hsteps.reuse.1, hsteps.reuse.2⟩
  refine ⟨reuse, releaseSequence, _, ls, classes, hdone, hsequence, hstand.mono hkeeps, hpaths, ?_, ?_, ?_, hwritten⟩
  · exact hclassed.imp fun _ _ h => h.mono hlater
  · exact fun hcdc hcache => (hfilled hcdc hcache).imp fun _ _ h => h.mono hlater
  · exact fun hcdc hold => ((packFiles_sized hcdc files _).ok hpack (.new hreuse hold _ _)).pending

namespace StagedFrom
variable (hfrom : StagedFrom job active files world release t reuse releaseSequence s ls classes)
include hfrom

theorem staged : Staged job releaseSequence s release := ((writeSnapshot_spec job releaseSequence _ s).ok hfrom.wrote).1

theorem systemOnly : SystemOnly s t := ((writeSnapshot_spec job releaseSequence _ s).ok hfrom.wrote).2.1

theorem drawn_eq : t.world.drawn = s.world.drawn := by
  obtain ⟨_, _, -, -, -, hgrew⟩ := ((writeSnapshot_spec job releaseSequence _ s).ok hfrom.wrote).2.2
  exact hgrew.drawn

/-- The references of the release are those of the blocks of the build, in order. -/
theorem resolved : List.Forall₂ (Resolved s) s.pendingBlocks release.blockRefs := by
  have hstaged := hfrom.staged
  have hfew : (releaseSegments s).length ≤ 2 ^ 16 := hstaged.segments ▸ hstaged.few
  obtain ⟨refs, hrefs, hresolved⟩ := hfrom.resolveBlocks_eq hfrom.closed hfew
  have heq := hstaged.blockRefs
  rw [hstaged.segments, hrefs] at heq
  rwa [← Except.ok.inj heq]

theorem sized_refs (hcdc : FastCdcLaw) (hold : ∀ old ∈ active, ∀ r ∈ old.records, r.block.Sized) :
    ∀ r ∈ release.blockRefs, r.Sized := by
  intro r hr
  obtain ⟨pending, hpending, hresolved⟩ := forall₂_mem_right hfrom.resolved hr
  have hsized := hfrom.sized hcdc hold pending hpending
  unfold BlockRef.Sized at hsized ⊢
  rwa [hresolved.1]

variable (h : Sourced identity world.drawn records active made) (hjob : job.identity = identity)
  (hdrawn : t.world.drawn.Nodup) (hids : IdsDiffer (records ++ t.newSegmentRecords.reduceOption))
include h hjob hdrawn hids

theorem nodup_ids : ((releaseSegments s).map SegmentRecord.id).Nodup := by
  rw [hfrom.drawn_eq] at hdrawn
  obtain ⟨w, rfl⟩ := hfrom.systemOnly
  exact h.nodup_ids hfrom.toLoopDone hjob hdrawn hids

/-- Every block of the release is stored under the id of its chunk. -/
theorem all_stored : List.Forall₂ (fun chunkId ref => ∃ availability,
    StoredIn (made ++ ls) release.segments ref chunkId availability) s.chunkIds release.blockRefs := by
  have hnodup := hfrom.nodup_ids h hjob hdrawn hids
  rw [hfrom.staged.segments]
  refine List.forall₂_iff_get.2 ⟨?_, fun i hi hi' => ?_⟩
  · rw [hfrom.staged.pairs]
  · obtain ⟨hlen, hstand⟩ := List.forall₂_iff_get.1 hfrom.stand
    obtain ⟨-, hresolved⟩ := List.forall₂_iff_get.1 (hfrom.resolved)
    obtain ⟨cls, hcls⟩ := hstand i hi (hlen ▸ hi)
    exact ⟨_, h.storedIn hfrom.toLoopDone hcls (hresolved i (hlen ▸ hi) hi') hnodup⟩

/-- The blocks of a file lie in segments of its availability. -/
theorem stored {source : SourceFile} {f : FileRecord} (hclassed : Classed job s ls source f) {i : Nat}
    (hi : i < f.blockCount.toNat) :
    ∃ (chunkId : ByteArr 32) (ref : BlockRef), s.chunkIds[f.firstBlock.toNat + i]? = some chunkId ∧
      release.blockRefs[f.firstBlock.toNat + i]? = some ref ∧
      StoredIn (made ++ ls) release.segments ref chunkId (job.options.availability source.logicalPath) := by
  have hnodup := hfrom.nodup_ids h hjob hdrawn hids
  obtain ⟨chunkId, pending, hid, hpending, hstands⟩ := hclassed.stands i hi
  obtain ⟨hlen, hresolved⟩ := List.forall₂_iff_get.1 (hfrom.resolved)
  obtain ⟨hlt, rfl⟩ := List.getElem?_eq_some_iff.1 hpending
  have href := hresolved _ hlt (hlen ▸ hlt)
  refine ⟨chunkId, _, hid, List.getElem?_eq_getElem (hlen ▸ hlt), ?_⟩
  rw [hfrom.staged.segments]
  exact h.storedIn hfrom.toLoopDone hstands href hnodup

/-- The history that ends with the release. -/
theorem lineage : Lineage identity t.world.drawn (records ++ t.newSegmentRecords.reduceOption)
    (some (release.toOld (Crypto.hash t.fingerprint) t.chunkIds)) (made ++ ls) := by
  have hnodup := hfrom.nodup_ids h hjob hdrawn hids
  have hstaged := hfrom.staged
  have hsame := hfrom.drawn_eq
  obtain ⟨w, rfl⟩ := hfrom.systemOnly
  rw [hsame] at hdrawn ⊢
  have hfew : (releaseSegments s).length ≤ 2 ^ 16 := hstaged.segments ▸ hstaged.few
  obtain ⟨refs, layouts, hrefs, hlayouts, hbacked, -⟩ := h.release hfrom.toLoopDone hjob hdrawn hids hfew
  refine ⟨h.join hfrom.toLoopDone hjob, fun old hold => ?_⟩
  obtain rfl := Option.some.inj hold
  have hblocks : release.blockRefs = refs := by
    have heq := hstaged.blockRefs
    rw [hstaged.segments, hrefs] at heq
    exact (Except.ok.inj heq).symm
  rw [StagedRelease.toOld_blocks _ _ _ hstaged.pairs, hblocks]
  show (release.segments.map _).Nodup ∧ ∃ layouts, _ ∧ Backed layouts release.segments refs
  rw [hstaged.segments]
  exact ⟨hnodup, layouts, hlayouts, hbacked⟩

end StagedFrom

/-! ### Whole histories -/

omit [Target] [FastCdc] in
theorem StoredIn.mono {made' : List SegmentLayout} {segments : List SegmentRecord} {r : BlockRef} {chunkId : ByteArr 32}
    {availability : Availability} (h : StoredIn made segments r chunkId availability) (hsub : made ⊆ made') :
    StoredIn made' segments r chunkId availability := by
  obtain ⟨l, hl, hrest⟩ := h
  exact ⟨l, hsub hl, hrest⟩

omit [Target] [FastCdc] in
/-- The next build finds a staged release as the one behind it. -/
theorem stored_toOld {sourceFingerprint : ByteArr 32} {chunkIds : List (ByteArr 32)}
    (h : List.Forall₂ (fun chunkId ref => ∃ availability, StoredIn made release.segments ref chunkId availability) chunkIds
      release.blockRefs) :
    ∀ r ∈ (release.toOld sourceFingerprint chunkIds).records,
      ∃ availability, StoredIn made release.segments r.block r.chunkId availability := by
  intro r hr
  obtain ⟨x, hx, rfl⟩ := List.mem_map.1 hr
  exact (List.forall₂_iff_zip.1 h).2 hx

/-- No release of a history has an empty block, or one that is too long. -/
theorem BuildHistory.sized (haead : AeadLaw) (hz : ZstdLaw) (hcdc : FastCdcLaw)
    (h : BuildHistory identity drawn records active) : ∀ old ∈ active, ∀ r ∈ old.records, r.block.Sized := by
  induction h with
  | start =>
    rintro _ ⟨⟩
  | @build records active active' job files world result t h hjob hrun hactive ih =>
    cases hactive with
    | keep => exact ih
    | @replace release hresult =>
      subst hresult
      obtain ⟨reuse, releaseSequence, s, ls, classes, hfrom⟩ := packDirectory_staged haead hz hrun
      rintro _ ⟨⟩ r hr
      obtain ⟨x, hx, rfl⟩ := List.mem_map.1 hr
      exact hfrom.sized_refs hcdc ih x.2 (List.of_mem_zip hx).2

/-- In every history the active release gives its blocks the ids of what they hold, as long as no identity is drawn twice
and content ids tell segment files apart. -/
theorem BuildHistory.sourced (haead : AeadLaw) (hz : ZstdLaw) (h : BuildHistory identity drawn records active)
    (hdrawn : drawn.Nodup) (hids : IdsDiffer records) : ∃ made, Sourced identity drawn records active made := by
  induction h with
  | start => exact ⟨[], ⟨⟨List.Sublist.refl _, nofun, nofun⟩, nofun⟩, nofun⟩
  | @build records active active' job files world result t h hjob hrun hactive ih =>
    have hsub := packDirectory_drawn haead hrun
    obtain ⟨made, hmade⟩ := ih (hdrawn.sublist hsub) (hids.of_subset (List.subset_append_left _ _))
    cases hactive with
    | keep => exact ⟨made, ⟨hmade.toMade.mono hsub (List.subset_append_left _ _), hmade.active⟩, hmade.stored⟩
    | @replace release hresult =>
      subst hresult
      obtain ⟨reuse, releaseSequence, s, ls, classes, hfrom⟩ := packDirectory_staged haead hz hrun
      refine ⟨made ++ ls, hfrom.lineage hmade hjob hdrawn hids, fun old hold => ?_⟩
      obtain rfl := Option.some.inj hold
      have hstored := hfrom.all_stored hmade hjob hdrawn hids
      obtain ⟨w, rfl⟩ := hfrom.systemOnly
      exact stored_toOld hstored

end

end Hakutaku
