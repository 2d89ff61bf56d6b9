import Hakutaku.ReleaseReading
import Hakutaku.Proofs.ComparersExact

/-!
# The package of a release

What an opened release of a build history has (`ReleasedFrom`): the references of the build (`idealRef_eq_ok`), one stored
block under each key (`coherent`), and an asset for every source (`asset_at`), over the chunks of its content (`recalls`),
which can all be decoded where the segments of its availability are served (`decodes`).
-/

namespace Hakutaku
open Wire Act BuildContext

/-- What a build and a reader rely on in the code they call. -/
structure Laws [Crypto] [FastCdc] : Prop where
  aead : AeadLaw
  zstd : ZstdLaw
  bound : ZstdBound
  signature : SignatureLaw
  fastCdc : FastCdcLaw

section
variable [Crypto] [Target]

theorem SnapshotOf.segment_eq_ok {job : Job} {releaseSequence : UInt64} {sourceFingerprint : ByteArr 32} {s : BuildContext}
    {release : StagedRelease} {x : SnapshotParts} (hx : SnapshotOf job releaseSequence sourceFingerprint s release x)
    {segments : SegmentSource} {budget : ResourceBudget} {k : Nat} {record : SegmentRecord} :
    (x.package job s release segments budget).catalog.segment k = .ok record ↔ release.segments[k]? = some record :=
  CatalogData.segment_view hx.encodable

variable [FastCdc]

/-- A staged release behind a history whose segments have identities and content ids of their own, and the parts of its
snapshot. The build was given canonical paths, each once. -/
structure ReleasedFrom (identity : Identity) (before : List SegmentRecord) (made : List SegmentLayout) (job : Job)
    (old : Option OldRelease) (files : List (SourceFile × Option CachedEntry)) (world : World) (release : StagedRelease)
    (t : BuildContext) (reuse : ReuseIndex) (releaseSequence : UInt64) (s : BuildContext) (ls : List SegmentLayout)
    (classes : List SegmentClass) (x : SnapshotParts) : Prop
    extends StagedFrom job old files world release t reuse releaseSequence s ls classes where
  sourced : Sourced identity world.drawn before old made
  project : job.identity = identity
  fresh : t.world.drawn.Nodup
  idsDiffer : IdsDiffer (before ++ t.newSegmentRecords.reduceOption)
  snapshot : SnapshotOf job releaseSequence (Crypto.hash s.fingerprint) s release x
  canonical : ∀ file ∈ files, Canonical file.1.logicalPath
  once : (files.map fun file => file.1.logicalPath).Nodup
  sizes : ∀ release ∈ old, ∀ r ∈ release.records, r.block.Sized

variable {identity : Identity} {job : Job} {before : List SegmentRecord}
  {active : Option OldRelease} {made ls : List SegmentLayout} {classes : List SegmentClass} {s t : BuildContext}
  {files : List (SourceFile × Option CachedEntry)} {world : World} {reuse : ReuseIndex} {releaseSequence : UInt64}
  {release : StagedRelease} {x : SnapshotParts} {source : SourceFile} {f : FileRecord}
  {segments : SegmentSource} {budget : ResourceBudget}

namespace ReleasedFrom
variable (h : ReleasedFrom identity before made job active files world release t reuse releaseSequence s ls classes x)
include h

theorem history : Lineage identity t.world.drawn (before ++ t.newSegmentRecords.reduceOption)
    (some (release.toOld (Crypto.hash t.fingerprint) t.chunkIds)) (made ++ ls) :=
  h.toStagedFrom.lineage h.sourced h.project h.fresh h.idsDiffer

theorem catalog_valid : (release.catalog s x.pathSlots).Valid :=
  h.toStagedFrom.valid h.sourced h.project h.fresh h.idsDiffer h.snapshot h.canonical

/-- The record of a source. -/
theorem record_at {k : Nat} {file : SourceFile × Option CachedEntry} (hfile : files[k]? = some file) :
    ∃ f, s.fileRecords[k]? = some f ∧ Classed job s ls file.1 f ∧
      (FastCdcLaw → FaithfulCache world.sources files → Filled world.sources s file.1 f) := by
  obtain ⟨hk, rfl⟩ := List.getElem?_eq_some_iff.1 hfile
  obtain ⟨hlen, hclassed⟩ := List.forall₂_iff_get.1 h.classed
  refine ⟨_, List.getElem?_eq_getElem (hlen ▸ hk), hclassed k hk (hlen ▸ hk), fun hcdc hcache => ?_⟩
  exact (List.forall₂_iff_get.1 (h.filled hcdc hcache)).2 k hk (hlen ▸ hk)

/-! ### References -/

/-- The block of a chunk of a source. -/
theorem block (hclassed : Classed job s ls source f) (hfilled : Filled world.sources s source f) {i : Nat}
    (hi : i < (source.chunks world.sources).length) :
    ∃ ref, release.blockRefs[f.firstBlock.toNat + i]? = some ref ∧
      ref.logicalOffset = (source.chunks world.sources)[i].logicalOffset ∧
      ref.plainLen = (source.chunks world.sources)[i].plainLen ∧
      StoredIn (made ++ ls) release.segments ref (source.chunks world.sources)[i].chunkId
        (job.options.availability source.logicalPath) := by
  obtain ⟨pending, hid, hpending, hoffset, hlen⟩ := hfilled.block i _ (List.getElem?_eq_getElem hi)
  obtain ⟨chunkId, ref, hid', href, hstored⟩ := h.toStagedFrom.stored h.sourced h.project h.fresh h.idsDiffer hclassed
    (hfilled.count ▸ hi)
  obtain rfl := Option.some.inj (hid.symm.trans hid')
  obtain ⟨hlt, rfl⟩ := List.getElem?_eq_some_iff.1 hpending
  obtain ⟨hlt', rfl⟩ := List.getElem?_eq_some_iff.1 href
  have hresolved := (List.forall₂_iff_get.1 h.resolved).2 _ hlt hlt'
  have hsame : (release.blockRefs[f.firstBlock.toNat + i]).logicalOffset =
        (s.pendingBlocks[f.firstBlock.toNat + i]).reference.logicalOffset ∧
      (release.blockRefs[f.firstBlock.toNat + i]).plainLen =
        (s.pendingBlocks[f.firstBlock.toNat + i]).reference.plainLen := by
    have heq : release.blockRefs[f.firstBlock.toNat + i] = _ := hresolved.1
    rw [heq]
    exact ⟨rfl, rfl⟩
  exact ⟨_, href, hsame.1.trans hoffset, hsame.2.trans hlen, hstored⟩

/-- The references of a release are ones their parser accepts. -/
theorem valid_refs (laws : Laws) : ∀ r ∈ release.blockRefs, r.Valid := by
  intro r hr
  obtain ⟨hpos, hle⟩ := h.sized_refs laws.fastCdc h.sizes r hr
  have hstored := h.toStagedFrom.all_stored h.sourced h.project h.fresh h.idsDiffer
  obtain ⟨_, -, _, l, -, -, -, -, plaintext, hopens, -⟩ := forall₂_mem_right hstored hr
  exact ⟨hpos.ne', hle, hopens.fits⟩

theorem serves (laws : Laws) : (x.package job s release segments budget).Serves (x.sealer job releaseSequence)
    (release.catalog s x.pathSlots) release.pages :=
  h.snapshot.serves laws.aead laws.bound h.catalog_valid h.pairs h.staged.blocks segments budget

/-- A release that was just built opens. -/
theorem open_eq_ok (laws : Laws) {policy : OpenPolicy} (hpolicy : policy.Accepts releaseSequence) (segments : SegmentSource)
    (budget : ResourceBudget) :
    PackageInner.open ideal release.snapshot segments job.identity.rootKey (Crypto.publicKey job.identity.signingKey) budget
      policy = .ok (x.package job s release segments budget) :=
  h.snapshot.opened laws.aead laws.zstd laws.bound laws.signature h.catalog_valid h.pairs h.staged.blocks hpolicy segments budget

theorem open_rollback (laws : Laws) {minimum : UInt64} (hlt : releaseSequence < minimum) (segments : SegmentSource)
    (budget : ResourceBudget) :
    PackageInner.open ideal release.snapshot segments job.identity.rootKey (Crypto.publicKey job.identity.signingKey) budget
      (.requireAtLeast minimum) = fail (.releaseRollback minimum releaseSequence) :=
  h.snapshot.open_rollback laws.aead laws.bound laws.signature hlt segments budget

/-- Whatever the snapshot opens to is its package. -/
theorem eq_package (laws : Laws) {policy : OpenPolicy} {P : PackageInner}
    (hopen : PackageInner.open ideal release.snapshot segments job.identity.rootKey
      (Crypto.publicKey job.identity.signingKey) budget policy = .ok P) : P = x.package job s release segments budget := by
  by_cases hpolicy : policy.Accepts releaseSequence
  · exact Except.ok.inj (hopen.symm.trans (h.open_eq_ok laws hpolicy segments budget))
  · cases policy with
    | trustFirstRelease => exact absurd trivial hpolicy
    | requireAtLeast minimum =>
      rw [h.open_rollback laws (UInt64.not_le.1 hpolicy)] at hopen
      exact absurd hopen fail_ne_ok

/-- `block_ref` gives the references of the release. -/
theorem idealRef_eq_ok (laws : Laws) {g : Nat} {r : BlockRef} :
    (x.package job s release segments budget).idealRef g = .ok r ↔ release.blockRefs[g]? = some r := by
  obtain ⟨maps, reuses, htables⟩ := h.snapshot.pages
  have hserves : (x.package job s release segments budget).Serves _ _ _ := h.serves laws
  have hlists := StagedRelease.catalog_lists h.staged.blocks s x.pathSlots
  constructor
  · intro hr
    rcases Nat.lt_or_ge g release.blockRefs.length with hlt | hge
    · have hat := List.getElem?_eq_getElem hlt
      have href := hserves.idealRef htables hlists (h.valid_refs laws) h.pairs hat
      rw [hat, Except.ok.inj (hr.symm.trans href)]
    · rw [hserves.idealRef_of_ge hlists hge] at hr
      exact absurd hr fail_ne_ok
  · exact hserves.idealRef htables hlists (h.valid_refs laws) h.pairs

/-- `reuse_records` gives what the next build is to find. -/
theorem reuseRecords_eq (laws : Laws) :
    (x.package job s release segments budget).catalog.reuseRecords (x.package job s release segments budget).idealPage =
      .ok (List.zipWith ReuseRecord.mk s.chunkIds release.blockRefs) := by
  obtain ⟨maps, reuses, htables⟩ := h.snapshot.pages
  have hserves : (x.package job s release segments budget).Serves _ _ _ := h.serves laws
  exact hserves.idealReuse htables (StagedRelease.catalog_lists h.staged.blocks s x.pathSlots) (h.valid_refs laws) h.pairs

/-- The references of the release, and the blocks they are of. -/
theorem backed : (release.segments.map SegmentRecord.id).Nodup ∧
    ∃ layouts, layouts ⊆ made ++ ls ∧ Backed layouts release.segments release.blockRefs := by
  obtain ⟨hnodup, layouts, hsub, hbacked⟩ := h.history.active _ rfl
  have hpairs : release.blockRefs.length = t.chunkIds.length := by
    obtain ⟨w, rfl⟩ := h.systemOnly
    exact h.pairs.symm
  rw [StagedRelease.toOld_blocks release _ _ hpairs] at hbacked
  exact ⟨hnodup, layouts, hsub, hbacked⟩

/-- One stored block under each key, one record under each segment id. -/
theorem coherent (laws : Laws) : (x.package job s release segments budget).Coherent := by
  obtain ⟨hnodup, layouts, hsub, hbacked⟩ := h.backed
  have hserves : (x.package job s release segments budget).Serves _ _ _ := h.serves laws
  refine ⟨hserves.wellFormed, fun i j r r' hr hr' hid => ?_, fun g g' r r' hr hr' hkey => ?_⟩
  · obtain ⟨hi, rfl⟩ := List.getElem?_eq_some_iff.1 (h.snapshot.segment_eq_ok.1 hr)
    obtain ⟨hj, rfl⟩ := List.getElem?_eq_some_iff.1 (h.snapshot.segment_eq_ok.1 hr')
    have hsame := List.inj_on_of_nodup_map hnodup (List.getElem_mem hi) (List.getElem_mem hj) hid
    exact (List.Nodup.of_map _ hnodup).getElem_inj_iff.1 hsame
  · have hr := (h.idealRef_eq_ok laws).1 hr
    have hr' := (h.idealRef_eq_ok laws).1 hr'
    obtain ⟨l, hl, b, hb, hnames⟩ := hbacked.named r (List.mem_of_getElem? hr)
    obtain ⟨l', hl', b', hb', hnames'⟩ := hbacked.named r' (List.mem_of_getElem? hr')
    obtain ⟨hsegment, hordinal⟩ := BlockKey.mk.inj hkey
    rw [hsegment] at hl
    obtain rfl := Option.some.inj (hl.symm.trans hl')
    unfold BlockRef.Names at hnames hnames'
    rw [hnames, hnames'] at hordinal
    have hsound := (h.history.genuine l (hsub (List.mem_of_getElem? hl))).toSound
    obtain ⟨i, hi⟩ := List.mem_iff_getElem?.1 hb
    obtain ⟨j, hj⟩ := List.mem_iff_getElem?.1 hb'
    have hij : i = j := (hsound.ordinals i b hi).symm.trans ((congrArg UInt32.toNat hordinal).trans (hsound.ordinals j b' hj))
    subst hij
    obtain rfl := Option.some.inj (hi.symm.trans hj)
    unfold BlockRef.SameBlock
    rw [hnames, hnames', hsegment]

/-! ### Assets -/

/-- The blocks of a source are those of its chunks. -/
theorem recalls (laws : Laws) (hclassed : Classed job s ls source f) (hfilled : Filled world.sources s source f) :
    f.Recalls (x.package job s release segments budget).idealRef (source.chunks world.sources) := by
  refine ⟨hfilled.count, ?_, fun i hi => ?_⟩
  · have hstop := hclassed.stop
    have hblocks := h.staged.blocks
    rw [hfilled.count, h.length_blockRefs] at hstop
    exact hstop.trans hblocks.le
  · obtain ⟨ref, href, hoffset, hlen, -⟩ := h.block hclassed hfilled hi
    exact ⟨ref, (h.idealRef_eq_ok laws).2 href, hoffset, hlen⟩

/-- `find_file` gives the place of a path among the sources. -/
theorem findFile {path : String} (hpath : Canonical path) :
    ∃ found, (x.package job s release segments budget).catalog.findFile path (x.package job s release segments budget).pathKey =
      .ok found ∧ ∀ k, found = some k ↔ (files.map fun file => file.1.logicalPath)[k]? = some path := by
  obtain ⟨k, hk, hload, hindexed, -⟩ := h.indexed h.snapshot
  have hrecords := Catalog.records_view h.snapshot.encodable h.catalog_valid
  have hw := (CatalogData.wellFormed_view h.snapshot.encodable).2 h.catalog_valid
  have hpaths := h.paths
  rw [hpaths] at hindexed hload
  refine hw.findFile_indexed hk hindexed hload (hrecords.slots_length.symm.trans hindexed.length) hrecords.slots
    (fun i p hp => ?_) h.once hpath
  rw [List.getElem?_map, Option.map_eq_some_iff] at hp
  obtain ⟨file, hfile, rfl⟩ := hp
  obtain ⟨hi, rfl⟩ := List.getElem?_eq_some_iff.1 hfile
  obtain ⟨hlen, hclassed⟩ := List.forall₂_iff_get.1 h.classed
  exact (Catalog.path_view h.snapshot.encodable h.catalog_valid (List.getElem?_eq_getElem (hlen ▸ hi))).2
    (hclassed i hi (hlen ▸ hi)).path

theorem file_eq_ok {k : Nat} (hf : s.fileRecords[k]? = some f) :
    (x.package job s release segments budget).catalog.file k = .ok f :=
  (CatalogData.file_view h.snapshot.encodable).2 ⟨hf, (h.file_rules h.canonical f (List.mem_of_getElem? hf)).1⟩

/-- The asset of a source. -/
theorem asset_at {k : Nat} {file : SourceFile × Option CachedEntry} (hfile : files[k]? = some file)
    (hf : s.fileRecords[k]? = some f) :
    (x.package job s release segments budget).asset file.1.logicalPath = .ok ⟨k, f, h.file_eq_ok hf⟩ := by
  obtain ⟨found, hfound, hplace⟩ := h.findFile (h.canonical file (List.mem_of_getElem? hfile))
  have hat : (files.map fun file => file.1.logicalPath)[k]? = some file.1.logicalPath := by
    rw [List.getElem?_map, hfile]
    rfl
  rw [(hplace k).2 hat] at hfound
  exact asset_of_findFile ⟨k, f, h.file_eq_ok hf⟩ hfound

/-- A canonical path that no source has is not found. -/
theorem asset_eq_notFound {path : String} (hpath : Canonical path) (hnot : path ∉ files.map fun file => file.1.logicalPath) :
    (x.package job s release segments budget).asset path = fail .assetNotFound := by
  obtain ⟨found, hfound, hplace⟩ := h.findFile hpath
  rcases found with _ | k
  · rw [PackageInner.asset, hfound, ok_bind]
  · exact absurd (List.mem_of_getElem? ((hplace k).1 rfl)) hnot

/-- `list_assets` gives the sources in their order. -/
theorem listAssets_eq : (x.package job s release segments budget).listAssets =
    .ok (files.map fun file => ⟨file.1.logicalPath, file.1.len, (classify file.1).access⟩) := by
  have hrecords := Catalog.records_view h.snapshot.encodable h.catalog_valid
  refine mapM_range_eq_ok.2 ⟨?_, fun k info hinfo => ?_⟩
  · rw [List.length_map, h.classed.length_eq]
    exact hrecords.files_length
  · rw [List.getElem?_map, Option.map_eq_some_iff] at hinfo
    obtain ⟨file, hfile, rfl⟩ := hinfo
    obtain ⟨hk, rfl⟩ := List.getElem?_eq_some_iff.1 hfile
    obtain ⟨hlen, hclassed⟩ := List.forall₂_iff_get.1 h.classed
    have hclassed : Classed job s ls files[k].1 s.fileRecords[k] := hclassed k hk (hlen ▸ hk)
    have hf := List.getElem?_eq_getElem (hlen ▸ hk)
    rw [h.file_eq_ok hf, ok_bind]
    have hpath : (x.package job s release segments budget).catalog.path k = .ok files[k].1.logicalPath :=
      (Catalog.path_view h.snapshot.encodable h.catalog_valid hf).2 hclassed.path
    rw [hpath, ok_bind, hclassed.len, hclassed.access]
    rfl

/-! ### Contents -/

/-- A segment of the release whose file the source serves. -/
theorem served {k : Nat} {l : SegmentLayout} (hl : release.segments[k]? = some l.writer.record)
    (hsource : segments l.writer.record.id = some l.writer.content) :
    l.Served (x.package job s release segments budget) identity k := by
  have hproject := h.project
  subst hproject
  exact ⟨h.snapshot.segment_eq_ok.2 hl, hsource, h.snapshot.projectId, rfl⟩

/-- The blocks of a source can be decoded where the segments of its availability are served. -/
theorem decodes (laws : Laws) {k : Nat} (hf : s.fileRecords[k]? = some f) (hclassed : Classed job s ls source f)
    (hfilled : Filled world.sources s source f)
    (hsource : ∀ l ∈ made ++ ls, l.writer.record ∈ release.segments →
      l.writer.record.availability = job.options.availability source.logicalPath →
      segments l.writer.record.id = some l.writer.content) :
    (⟨k, f, h.file_eq_ok hf⟩ : Asset (x.package job s release segments budget)).Decodes (source.chunks world.sources) := by
  intro i hi
  obtain ⟨ref, href, -, -, l, hl, hsegment, havailability, ⟨b, hb, hnames⟩, plaintext, hopens, hid⟩ :=
    h.block hclassed hfilled hi
  have hserved : l.Served (x.package job s release segments budget) identity _ :=
    h.served hsegment (hsource l hl (List.mem_of_getElem? hsegment) havailability)
  exact ⟨ref, plaintext, (h.idealRef_eq_ok laws).2 href,
    (h.history.genuine l hl).idealBlock laws.aead hb hnames hopens hserved, hid⟩

end ReleasedFrom

end

end Hakutaku
