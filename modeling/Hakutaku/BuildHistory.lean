import Hakutaku.ReleaseSegments
import Hakutaku.Staging

/-!
# Build histories

The builds of one output directory (`BuildHistory`): what they drew, which segments they finished, and the release that is
active behind them. `Lineage` is what every history keeps: the segments of the active release are segments of the history
as they were written, and each of its references is that of a block of its segment, whichever build wrote it.
-/

namespace Hakutaku
open Wire Act

/-- Among these segments, those with one content id have one identity. The header of a segment file holds its identity, so
files of different identities are different files. -/
def IdsDiffer (records : List SegmentRecord) : Prop :=
  ∀ r ∈ records, ∀ r' ∈ records, r.id = r'.id → r.uid = r'.uid ∧ r.salt = r'.salt

instance (records : List SegmentRecord) : Decidable (IdsDiffer records) :=
  inferInstanceAs (Decidable (∀ r ∈ records, ∀ r' ∈ records, _ → _))

theorem IdsDiffer.of_subset {records records' : List SegmentRecord} (h : IdsDiffer records') (hsub : records ⊆ records') :
    IdsDiffer records := fun r hr r' hr' => h r (hsub hr) r' (hsub hr')

/-! ### The reuse index -/

section
variable {segments : List SegmentRecord} {compact : List UInt16} {records : List ReuseRecord}

/-- Where an entry of the index comes from: a record whose segment is not consolidated. -/
def Indexes (segments : List SegmentRecord) (compact : List UInt16) (records : List ReuseRecord)
    (key : ByteArr 32 × Availability) (reused : ReusableBlock) : Prop :=
  ∃ r ∈ records, r.chunkId = key.1 ∧ reused = ⟨r.block, r.block.segmentOrdinal⟩ ∧ r.block.segmentOrdinal ∉ compact ∧
    ∃ segment, segments[r.block.segmentOrdinal.toNat]? = some segment ∧ segment.availability = key.2

theorem indexBlocks_sound {blocks blocks' : AList fun _ : ByteArr 32 × Availability => ReusableBlock}
    {all : List ReuseRecord} (hall : records ⊆ all)
    (hblocks : ∀ key reused, blocks.lookup key = some reused → Indexes segments compact all key reused)
    (h : indexBlocks segments compact records blocks = .ok blocks') :
    ∀ key reused, blocks'.lookup key = some reused → Indexes segments compact all key reused := by
  induction records generalizing blocks with
  | nil =>
    obtain rfl := Except.ok.inj h
    exact hblocks
  | cons reuse rest ih =>
    have hrest : rest ⊆ all := fun r hr => hall (List.mem_cons_of_mem _ hr)
    unfold indexBlocks at h
    by_cases hcompact : reuse.block.segmentOrdinal ∈ compact
    · rw [if_pos hcompact] at h
      exact ih hrest hblocks h
    · rw [if_neg hcompact] at h
      rcases hsegment : segments[reuse.block.segmentOrdinal.toNat]? with _ | segment
      · rw [hsegment] at h
        exact absurd h fail_ne_ok
      · rw [hsegment] at h
        refine ih hrest ?_ h
        intro key reused hlookup
        split at hlookup
        · exact hblocks key reused hlookup
        · rcases eq_or_ne key (reuse.chunkId, segment.availability) with rfl | hne
          · rw [AList.lookup_insert] at hlookup
            obtain rfl := Option.some.inj hlookup
            exact ⟨reuse, hall List.mem_cons_self, rfl, rfl, hcompact, segment, hsegment, rfl⟩
          · rw [AList.lookup_insert_ne hne] at hlookup
            exact hblocks key reused hlookup

/-- What a build reads of the previous release. -/
theorem loadReuseIndex_sound {old : Option OldRelease} {reuse : ReuseIndex} (h : loadReuseIndex old = .ok reuse) :
    (old = none ∧ reuse = ⟨false, ∅, []⟩) ∨ ∃ release compact, old = some release ∧ reuse.segments = release.segments ∧
      compactionSegments release.segments release.records = .ok compact ∧ reuse.compacting = !compact.isEmpty ∧
      ∀ key reused, reuse.blocks.lookup key = some reused → Indexes release.segments compact release.records key reused := by
  rcases old with _ | release
  · exact .inl ⟨rfl, (Except.ok.inj h).symm⟩
  · refine .inr ?_
    unfold loadReuseIndex at h
    simp only [ite_fail_bind_eq_ok, bind_eq_ok, pure_eq_ok, Except.ok.injEq] at h
    obtain ⟨-, compact, hcompact, blocks, hblocks, rfl⟩ := h
    refine ⟨release, compact, rfl, rfl, hcompact, rfl, indexBlocks_sound (List.Subset.refl _) ?_ hblocks⟩
    intro key reused hlookup
    rw [AList.lookup_empty] at hlookup
    cases hlookup

end

/-! ### Releases and their segments -/

section
variable [Crypto]

/-- The keys of a project. -/
def Identity.keys (identity : Identity) : ProjectKeys := ProjectKeys.new identity.rootKey identity.projectId

/-- A finished segment of a project. -/
structure SegmentLayout.Genuine (identity : Identity) (l : SegmentLayout) : Prop extends l.Sound where
  project : l.writer.projectId = identity.projectId
  key : l.writer.key = Crypto.keyedHash identity.keys.master (segmentInput (l.writer.uid, l.writer.salt))
  availability : l.writer.availability = l.cls.availability
  fits : segmentHeaderSize + l.writer.payloadLen.toNat < u64Size

/-- The segments of a release as they were written. Each reference is that of a block of its segment. -/
structure Backed (layouts : List SegmentLayout) (segments : List SegmentRecord) (blocks : List BlockRef) : Prop where
  records : segments = layouts.map fun l => l.writer.record
  named : ∀ r ∈ blocks, ∃ l : SegmentLayout, layouts[r.segmentOrdinal.toNat]? = some l ∧ ∃ b ∈ l.blocks, r.Names b

/-- The segments `made` in a history: finished segments of its project, each with an identity of its own. -/
structure Made (identity : Identity) (drawn : List (ByteArr 16 × ByteArr 16)) (records : List SegmentRecord)
    (made : List SegmentLayout) : Prop where
  identities : (made.map SegmentLayout.identity).Sublist drawn
  finished : ∀ l ∈ made, l.writer.record ∈ records
  genuine : ∀ l ∈ made, l.Genuine identity

/-- The active release is made of some of the segments of its history. -/
structure Lineage (identity : Identity) (drawn : List (ByteArr 16 × ByteArr 16)) (records : List SegmentRecord)
    (active : Option OldRelease) (made : List SegmentLayout) : Prop extends Made identity drawn records made where
  active : ∀ old ∈ active, (old.segments.map SegmentRecord.id).Nodup ∧
    ∃ layouts, layouts ⊆ made ∧ Backed layouts old.segments (old.records.map ReuseRecord.block)

namespace Made
variable {identity : Identity} {drawn drawn' : List (ByteArr 16 × ByteArr 16)} {records records' : List SegmentRecord}
  {made : List SegmentLayout} {l l' : SegmentLayout}

theorem mono (h : Made identity drawn records made) (hdrawn : drawn.Sublist drawn') (hrecords : records ⊆ records') :
    Made identity drawn' records' made :=
  ⟨h.identities.trans hdrawn, fun l hl => hrecords (h.finished l hl), h.genuine⟩

/-- A segment is told by its content id. -/
theorem eq_of_id (h : Made identity drawn records made) (hdrawn : drawn.Nodup) (hids : IdsDiffer records) (hl : l ∈ made)
    (hl' : l' ∈ made) (heq : l.writer.record.id = l'.writer.record.id) : l = l' := by
  obtain ⟨huid, hsalt⟩ := hids _ (h.finished l hl) _ (h.finished l' hl') heq
  exact List.inj_on_of_nodup_map (h.identities.nodup hdrawn) hl hl' (Prod.ext huid hsalt)

theorem contentIdsDiffer (h : Made identity drawn records made) (hdrawn : drawn.Nodup) (hids : IdsDiffer records) :
    ContentIdsDiffer made := by
  intro l hl l' hl' heq
  rw [h.eq_of_id hdrawn hids hl hl' heq]

end Made

variable [Target] [FastCdc]

/-- The release that is active behind a build: the one it staged, or the one before. A build that stops on its way, or
whose release fails its verification, leaves the old one. -/
inductive Commits (active : Option OldRelease) (result : Except (Stop PackError) BuildResult) (t : BuildContext) :
    Option OldRelease → Prop
  | keep : Commits active result t active
  | replace {release : StagedRelease} (h : result = .ok (.staged release)) :
      Commits active result t (some (release.toOld (Crypto.hash t.fingerprint) t.chunkIds))

/-- The builds of an output directory that starts empty: the identities they drew, the segments they finished, and the
active release. What else the system holds is arbitrary at the start of every build. -/
inductive BuildHistory (identity : Identity) :
    List (ByteArr 16 × ByteArr 16) → List SegmentRecord → Option OldRelease → Prop
  | start : BuildHistory identity [] [] none
  | build {records : List SegmentRecord} {active active' : Option OldRelease} {job : Job}
      {files : List (SourceFile × Option CachedEntry)} {world : World} {result : Except (Stop PackError) BuildResult}
      {t : BuildContext} (h : BuildHistory identity world.drawn records active) (hjob : job.identity = identity)
      (hrun : packDirectory job active files world = .ok (result, t)) (hactive : Commits active result t active') :
      BuildHistory identity t.world.drawn (records ++ t.newSegmentRecords.reduceOption) active'

/-! ### One build -/

omit [Crypto] [Target] [FastCdc] in
theorem forall₂_mem_right {α β : Type} {R : α → β → Prop} {l : List α} {l' : List β} (h : List.Forall₂ R l l') {b : β}
    (hb : b ∈ l') : ∃ a ∈ l, R a b := by
  induction h with
  | nil => cases hb
  | cons hfirst _ ih =>
    rcases List.mem_cons.1 hb with rfl | hb
    · exact ⟨_, List.mem_cons_self, hfirst⟩
    · obtain ⟨a, ha, hab⟩ := ih hb
      exact ⟨a, List.mem_cons_of_mem _ ha, hab⟩

omit [Crypto] [Target] [FastCdc] in
/-- A list of values of a function on some elements is its image of a list of such elements. -/
theorem exists_preimage {α β : Type} {f : α → β} {s : List α} {l : List β} (h : ∀ b ∈ l, ∃ a ∈ s, b = f a) :
    ∃ l', l' ⊆ s ∧ l = l'.map f := by
  induction l with
  | nil => exact ⟨[], List.nil_subset _, rfl⟩
  | cons b rest ih =>
    obtain ⟨a, ha, rfl⟩ := h b List.mem_cons_self
    obtain ⟨l', hsub, rfl⟩ := ih fun b hb => h b (List.mem_cons_of_mem _ hb)
    exact ⟨a :: l', List.cons_subset.2 ⟨ha, hsub⟩, rfl⟩

variable {identity : Identity} {job : Job} {before drawn : List (ByteArr 16 × ByteArr 16)} {records : List SegmentRecord}
  {active active' : Option OldRelease} {made ls : List SegmentLayout} {classes : List SegmentClass} {s t : BuildContext}
  {files : List (SourceFile × Option CachedEntry)} {world : World} {reuse : ReuseIndex}

omit [FastCdc] in
/-- No identity that was drawn is forgotten. -/
theorem packDirectory_drawn [FastCdc] {result : Except (Stop PackError) BuildResult}
    (haead : AeadLaw) (hrun : packDirectory job active files world = .ok (result, t)) :
    world.drawn.Sublist t.world.drawn := by
  obtain ⟨reuse, releaseSequence, -, -, hpublish⟩ := packDirectory_eq_ok.1 hrun
  have hspec := publish_spec job active reuse.compacting releaseSequence files (OneEach.new reuse files.length world)
  have hsteps {cs : List SegmentClass} {s' : BuildContext} (h : Steps job (.new reuse files.length world) cs s') :
      world.drawn.Sublist s'.world.drawn := by
    obtain ⟨ls, hls⟩ := (Laid.new job reuse files.length world).steps haead h
    rw [hls.drawn]
    exact List.sublist_append_left _ _
  rcases result with stop | built
  · obtain ⟨cs, s', w, inputs, entries, h, hhalted, -, hw⟩ := hspec.error hpublish
    rw [hw.drawn]
    rcases hhalted with hw' | ⟨_, hw'⟩ | ⟨_, -, hw'⟩
    · rw [hw'.drawn]
      exact hsteps h
    · rw [hw'.drawn]
      exact (hsteps h).trans (List.sublist_append_left _ _)
    · rw [hw'.drawn]
      exact hsteps h
  · obtain ⟨cs, s', s'', h, -, hidle, hbuilt⟩ := hspec.ok hpublish
    have hidle : world.drawn.Sublist s''.world.drawn := by
      rw [hidle.world.drawn]
      exact hsteps h
    rcases built with report | release
    · obtain ⟨rfl, -⟩ := hbuilt
      exact hidle
    · obtain ⟨-, -, _, _, -, -, -, hgrew⟩ := hbuilt
      rw [hgrew.drawn]
      exact hidle

/-- The state behind the packing loop of a build that has not failed, and the segments it wrote. -/
structure LoopDone (job : Job) (old : Option OldRelease) (world : World) (reuse : ReuseIndex) (s : BuildContext)
    (ls : List SegmentLayout) (classes : List SegmentClass) : Prop extends Laid job world.drawn s ls classes where
  index : loadReuseIndex (old.filter fun _ => job.options.incremental) = .ok reuse
  steps : ∃ fileCount, Steps job (.new reuse fileCount world) classes s
  closed : s.activeSegments = []
  reuseIndex : s.reuseIndex = reuse.blocks
  reuseSegments : s.reuseSegments = reuse.segments

omit [Target] [FastCdc] in
/-- The end of a packing loop. -/
theorem LoopDone.of_steps (haead : AeadLaw) {fileCount : Nat}
    (hindex : loadReuseIndex (active.filter fun _ => job.options.incremental) = .ok reuse)
    (hsteps : Steps job (.new reuse fileCount world) classes s) (hclosed : s.activeSegments = []) :
    ∃ ls, LoopDone job active world reuse s ls classes := by
  obtain ⟨ls, hlaid⟩ := (Laid.new job reuse fileCount world).steps haead hsteps
  rw [List.nil_append] at hlaid
  exact ⟨ls, hlaid, hindex, ⟨fileCount, hsteps⟩, hclosed, hsteps.reuse.1, hsteps.reuse.2⟩

/-- A build that has not failed. -/
theorem packDirectory_done (haead : AeadLaw) {built : BuildResult}
    (hrun : packDirectory job active files world = .ok (.ok built, t)) :
    ∃ reuse releaseSequence s ls classes, LoopDone job active world reuse s ls classes ∧
      nextSequence job.options active = .ok releaseSequence ∧
      Published job active releaseSequence files.length s t built ∧ t.world.drawn = s.world.drawn ∧
      t.newSegmentRecords = s.newSegmentRecords := by
  obtain ⟨reuse, releaseSequence, hreuse, hsequence, hpublish⟩ := packDirectory_eq_ok.1 hrun
  have hspec := publish_spec job active reuse.compacting releaseSequence files (OneEach.new reuse files.length world)
  obtain ⟨cs, s', s'', hsteps, hactive, hidle, hbuilt⟩ := hspec.ok hpublish
  have hclosed : s''.activeSegments = [] := by
    obtain ⟨w, rfl, -⟩ := hidle
    exact hactive
  obtain ⟨ls, hdone⟩ := LoopDone.of_steps haead hreuse (hsteps.tail (.outside hidle.outside)) hclosed
  refine ⟨reuse, releaseSequence, s'', ls, _, hdone, hsequence, hbuilt, ?_⟩
  rcases built with report | release
  · obtain ⟨rfl, -⟩ := hbuilt
    exact ⟨rfl, rfl⟩
  · obtain ⟨-, ⟨_, rfl⟩, _, _, -, -, -, hgrew⟩ := hbuilt
    exact ⟨hgrew.drawn, rfl⟩

/-! ### The segments of a release -/

namespace Lineage
variable (h : Lineage identity world.drawn records active made) (hdone : LoopDone job active world reuse s ls classes)
include h hdone
omit [FastCdc]

omit [Target] in
/-- The segments of the build join those of its history. -/
theorem join (hjob : job.identity = identity) :
    Made identity s.world.drawn (records ++ s.newSegmentRecords.reduceOption) (made ++ ls) := by
  subst hjob
  refine ⟨?_, fun l hl => ?_, fun l hl => ?_⟩
  · rw [List.map_append, hdone.drawn]
    exact h.identities.append (List.Sublist.refl _)
  · rcases List.mem_append.1 hl with hl | hl
    · exact List.mem_append_left _ (h.finished l hl)
    · refine List.mem_append_right _ (List.reduceOption_mem_iff.2 ?_)
      rw [hdone.records_eq hdone.closed]
      exact List.mem_map_of_mem hl
  · rcases List.mem_append.1 hl with hl | hl
    · exact h.genuine l hl
    · have hok := hdone.ok l hl
      exact ⟨hok.toSound, hok.project, hok.key, hok.availability, hdone.fits hdone.closed hl⟩

omit [Target] in
/-- What the build can reuse lies in segments of the active release. -/
theorem reused : (∀ record ∈ s.reuseSegments, ∃ l ∈ made, record = l.writer.record) ∧
    (s.reuseSegments.map SegmentRecord.id).Nodup ∧
    ∀ key reused, s.reuseIndex.lookup key = some reused → ∃ l ∈ made, ∃ b ∈ l.blocks, reused.block.Names b ∧
      s.reuseSegments[reused.segmentOrdinal.toNat]? = some l.writer.record := by
  rw [hdone.reuseIndex, hdone.reuseSegments]
  rcases loadReuseIndex_sound hdone.index with ⟨-, rfl⟩ | ⟨old, compact, hold, hsegments, -, -, hblocks⟩
  · refine ⟨nofun, List.nodup_nil, fun key reused hlookup => ?_⟩
    rw [AList.lookup_empty] at hlookup
    cases hlookup
  · obtain ⟨hnodup, layouts, hsub, hbacked⟩ := h.active old (Option.mem_filter_iff.1 hold).1
    rw [hsegments]
    refine ⟨fun record hrecord => ?_, hnodup, fun key reused hlookup => ?_⟩
    · rw [hbacked.records] at hrecord
      obtain ⟨l, hl, rfl⟩ := List.mem_map.1 hrecord
      exact ⟨l, hsub hl, rfl⟩
    · obtain ⟨r, hr, -, rfl, -, segment, hsegment, -⟩ := hblocks key reused hlookup
      obtain ⟨l, hl, b, hb, hnames⟩ := hbacked.named r.block (List.mem_map_of_mem hr)
      refine ⟨l, hsub (List.mem_of_getElem? hl), b, hb, hnames, ?_⟩
      rw [hbacked.records, List.getElem?_map, hl]
      rfl

omit [Target] in
/-- Every block of the build is one of a segment that was finished, in this build or before. -/
theorem placed {cls : SegmentClass} {pending : PendingBlock} (hplaced : Placed s ls cls pending) :
    ∃ l ∈ made ++ ls, ∃ b ∈ l.blocks, s.segmentOf pending.locator = some l.writer.record ∧ pending.reference.Names b ∧
      ∀ i, pending.locator = .new i → ls[i]? = some l := by
  obtain ⟨-, hnodup, hindex⟩ := h.reused hdone
  unfold Placed at hplaced
  split at hplaced
  · rename_i i hlocator
    obtain ⟨l, hl, -, b, hb, hcopies⟩ := hplaced
    refine ⟨l, List.mem_append_right _ (List.mem_of_getElem? hl), b, hb, ?_, hcopies.names _, fun j hj => ?_⟩
    · rw [hlocator, BuildContext.segmentOf, hdone.records_eq hdone.closed, List.getElem?_map, hl]
      rfl
    · obtain rfl := SegmentLocator.new.inj (hlocator.symm.trans hj)
      exact hl
  · rename_i id hlocator
    obtain ⟨hused, key, reused, segment, hreused, hsegment, rfl, hcopies⟩ := hplaced
    obtain ⟨l, hl, b, hb, hnames, hrecord⟩ := hindex key reused hreused
    obtain rfl := Option.some.inj (hsegment.symm.trans hrecord)
    obtain ⟨record, hrecord'⟩ := Option.isSome_iff_exists.1 hused
    obtain ⟨hid, hin⟩ := hdone.kept _ _ hrecord'
    obtain rfl := List.inj_on_of_nodup_map hnodup hin (List.mem_of_getElem? hsegment) hid
    refine ⟨l, List.mem_append_left _ hl, b, hb, ?_, ?_, fun i hi => ?_⟩
    · rw [hlocator]
      exact hrecord'
    · unfold BlockRef.Copies at hcopies
      unfold BlockRef.Names at hnames ⊢
      rw [hcopies, hnames]
    · rw [hlocator] at hi
      cases hi

/-- No two segments of the release have one id. -/
theorem nodup_ids (hjob : job.identity = identity) (hdrawn : s.world.drawn.Nodup)
    (hids : IdsDiffer (records ++ s.newSegmentRecords.reduceOption)) :
    ((releaseSegments s).map SegmentRecord.id).Nodup := by
  have hmade := h.join hdone hjob
  refine hdone.toLaid.nodup_ids hdone.closed hdrawn ⟨fun l hl => ?_, fun l hl => (h.genuine l hl).fits, (h.reused hdone).1⟩
    (hmade.contentIdsDiffer hdrawn hids)
  exact h.identities.subset (List.mem_map_of_mem hl)

/-- A reference of the release and the block of the build it stands for, which lies in the segment it names. -/
structure Lies (s : BuildContext) (ls layouts : List SegmentLayout) (pending : PendingBlock) (r : BlockRef) : Prop where
  reference : r = { pending.reference with segmentOrdinal := r.segmentOrdinal }
  lies : ∃ l : SegmentLayout, layouts[r.segmentOrdinal.toNat]? = some l ∧ (∃ b ∈ l.blocks, r.Names b) ∧
    s.segmentOf pending.locator = some l.writer.record ∧ ∀ i, pending.locator = .new i → ls[i]? = some l

/-- The release of a build: every reference is resolved, and names a block of a segment of the history. -/
theorem release (hjob : job.identity = identity) (hdrawn : s.world.drawn.Nodup)
    (hids : IdsDiffer (records ++ s.newSegmentRecords.reduceOption)) (hlen : (releaseSegments s).length ≤ 2 ^ 16) :
    ∃ refs layouts, resolveBlocks s (releaseSegments s) s.pendingBlocks = .ok refs ∧ layouts ⊆ made ++ ls ∧
      Backed layouts (releaseSegments s) refs ∧ List.Forall₂ (Lies s ls layouts) s.pendingBlocks refs := by
  have hmade := h.join hdone hjob
  have hnodup := h.nodup_ids hdone hjob hdrawn hids
  obtain ⟨refs, hrefs, hresolved⟩ := hdone.resolveBlocks_eq hdone.closed hlen
  have hsegments : ∀ record ∈ releaseSegments s, ∃ l ∈ made ++ ls, record = l.writer.record := by
    intro record hrecord
    obtain ⟨id | i, hlocator⟩ := mem_releaseSegments.1 hrecord
    · obtain ⟨l, hl, rfl⟩ := (h.reused hdone).1 record (hdone.kept id record hlocator).2
      exact ⟨l, List.mem_append_left _ hl, rfl⟩
    · rw [BuildContext.segmentOf, hdone.records_eq hdone.closed, List.getElem?_map] at hlocator
      obtain ⟨l, hl, heq⟩ := Option.map_eq_some_iff.1 (Option.join_eq_some_iff.1 hlocator)
      exact ⟨l, List.mem_append_right _ (List.mem_of_getElem? hl), (Option.some.inj heq).symm⟩
  obtain ⟨layouts, hsub, hlayouts⟩ := exists_preimage hsegments
  have hplaced : ∀ pending ∈ s.pendingBlocks, ∃ cls, Placed s ls cls pending := by
    intro pending hp
    obtain ⟨cls, -, hcls⟩ := forall₂_mem_right hdone.blocks hp
    exact ⟨cls, hcls⟩
  have hlies : List.Forall₂ (Lies s ls layouts) s.pendingBlocks refs := by
    refine ((List.forall₂_and_left _ _).2 ⟨hplaced, hresolved⟩).imp ?_
    rintro pending r ⟨⟨cls, hp⟩, hr⟩
    obtain ⟨l, hl, b, hb, hsegment, hnames, hnew⟩ := h.placed hdone hp
    have hrecord : (releaseSegments s)[r.segmentOrdinal.toNat]? = some l.writer.record :=
      (hr.segmentOf_eq hnodup).trans hsegment
    rw [hlayouts, List.getElem?_map] at hrecord
    obtain ⟨l', hl', heq⟩ := Option.map_eq_some_iff.1 hrecord
    obtain rfl := hmade.eq_of_id hdrawn hids (hsub (List.mem_of_getElem? hl')) hl (congrArg SegmentRecord.id heq)
    refine ⟨hr.1, l', hl', ⟨b, hb, ?_⟩, hsegment, hnew⟩
    unfold BlockRef.Names at hnames ⊢
    rw [hr.1, hnames]
  refine ⟨refs, layouts, hrefs, hsub, ⟨hlayouts, fun r hr => ?_⟩, hlies⟩
  obtain ⟨pending, -, hpending⟩ := forall₂_mem_right hlies hr
  obtain ⟨l, hl, hb, -⟩ := hpending.lies
  exact ⟨l, hl, hb⟩

/-- All blocks of a segment the build wrote are referenced. -/
theorem covered (hjob : job.identity = identity) (hdrawn : s.world.drawn.Nodup)
    (hids : IdsDiffer (records ++ s.newSegmentRecords.reduceOption)) {refs : List BlockRef} {layouts : List SegmentLayout}
    (hsub : layouts ⊆ made ++ ls) (hlayouts : releaseSegments s = layouts.map fun l => l.writer.record)
    (hlies : List.Forall₂ (Lies s ls layouts) s.pendingBlocks refs) {i : Nat} {l : SegmentLayout} (hl : ls[i]? = some l) :
    ∃ k, layouts[k]? = some l ∧ ∀ b ∈ l.blocks, ∃ r ∈ refs, r.segmentOrdinal.toNat = k ∧ r.Names b := by
  have hmade := h.join hdone hjob
  have hin : l.writer.record ∈ releaseSegments s := by
    refine mem_releaseSegments.2 ⟨.new i, ?_⟩
    rw [BuildContext.segmentOf, hdone.records_eq hdone.closed, List.getElem?_map, hl]
    rfl
  have hnodup : layouts.Nodup := by
    refine List.Nodup.of_map (fun l => l.writer.record.id) ?_
    have hids := h.nodup_ids hdone hjob hdrawn hids
    rwa [hlayouts, List.map_map] at hids
  rw [hlayouts] at hin
  obtain ⟨l', hl', heq⟩ := List.mem_map.1 hin
  obtain rfl := hmade.eq_of_id hdrawn hids (hsub hl') (List.mem_append_right _ (List.mem_of_getElem? hl))
    (congrArg SegmentRecord.id heq)
  obtain ⟨k, hk⟩ := List.mem_iff_getElem?.1 hl'
  refine ⟨k, hk, fun b hb => ?_⟩
  obtain ⟨r, hr, hlies⟩ := forall₂_mem_right hlies.flip ((hdone.written i l' hl).subset (List.mem_map_of_mem hb))
  obtain ⟨l'', hl'', -, -, hnew⟩ := hlies.lies
  obtain rfl := Option.some.inj (hl.symm.trans (hnew i rfl))
  refine ⟨r, hr, ?_, ?_⟩
  · exact (List.getElem?_inj (List.getElem?_eq_some_iff.1 hl'').1 hnodup).1 (hl''.trans hk.symm)
  · unfold BlockRef.Names
    rw [hlies.reference]

end Lineage

/-! ### Whole histories -/

omit [Crypto] [Target] [FastCdc] in
theorem StagedRelease.toOld_blocks (release : StagedRelease) (sourceFingerprint : ByteArr 32) (chunkIds : List (ByteArr 32))
    (hpairs : release.blockRefs.length = chunkIds.length) :
    (release.toOld sourceFingerprint chunkIds).records.map ReuseRecord.block = release.blockRefs := by
  show ((chunkIds.zip release.blockRefs).map _).map _ = _
  rw [List.map_map]
  exact List.map_snd_zip hpairs.le

/-- Every history has its lineage, as long as no identity is drawn twice and content ids tell segment files apart. -/
theorem BuildHistory.lineage (haead : AeadLaw) (h : BuildHistory identity drawn records active) (hdrawn : drawn.Nodup)
    (hids : IdsDiffer records) : ∃ made, Lineage identity drawn records active made := by
  induction h with
  | start => exact ⟨[], ⟨List.Sublist.refl _, nofun, nofun⟩, nofun⟩
  | @build records active active' job files world result t h hjob hrun hactive ih =>
    have hsub := packDirectory_drawn haead hrun
    obtain ⟨made, hmade⟩ := ih (hdrawn.sublist hsub) (hids.of_subset (List.subset_append_left _ _))
    cases hactive with
    | keep => exact ⟨made, hmade.toMade.mono hsub (List.subset_append_left _ _), hmade.active⟩
    | @replace release hresult =>
      subst hresult
      obtain ⟨reuse, releaseSequence, s, ls, classes, hdone, -, ⟨hstaged, ⟨w, rfl⟩, -⟩, hsame, hrecords⟩ :=
        packDirectory_done haead hrun
      rw [hsame] at hdrawn ⊢
      rw [hrecords] at hids ⊢
      have hfew : (releaseSegments s).length ≤ 2 ^ 16 := hstaged.segments ▸ hstaged.few
      obtain ⟨refs, layouts, hrefs, hlayouts, hbacked, -⟩ := hmade.release hdone hjob hdrawn hids hfew
      refine ⟨made ++ ls, hmade.join hdone hjob, fun old hold => ?_⟩
      obtain rfl := Option.some.inj hold
      have hblocks : release.blockRefs = refs := by
        have heq := hstaged.blockRefs
        rw [hstaged.segments, hrefs] at heq
        exact (Except.ok.inj heq).symm
      rw [StagedRelease.toOld_blocks _ _ _ hstaged.pairs, hblocks]
      show (release.segments.map _).Nodup ∧ ∃ layouts, _ ∧ Backed layouts release.segments refs
      rw [hstaged.segments]
      exact ⟨hmade.nodup_ids hdone hjob hdrawn hids, layouts, hlayouts, hbacked⟩

end

end Hakutaku
