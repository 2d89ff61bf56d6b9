import Hakutaku.Publisher
import Hakutaku.ReleasePackage
import Hakutaku.Proofs.StorageConserved

/-!
# A release reads as its sources

Whatever a history of builds leaves in the output directory: the snapshot of the last release opens, the next build finds in
it what the history carries on (`release_reopened`), its assets read as the sources wherever the segments of their
availability are served (`release_round_trip`), and the publisher's own verification accepts it (`release_verified`).
-/

namespace Hakutaku
open Wire Act BuildContext

section
variable [Crypto] [Target]

variable [FastCdc] {identity : Identity} {job : Job} {before : List SegmentRecord} {active : Option OldRelease}
  {made ls : List SegmentLayout} {classes : List SegmentClass} {s t : BuildContext}
  {files : List (SourceFile × Option CachedEntry)} {world : World} {reuse : ReuseIndex} {releaseSequence : UInt64}
  {release : StagedRelease} {x : SnapshotParts} {segments : SegmentSource} {budget : ResourceBudget}

theorem BuildHistory.released (laws : Laws) (h : BuildHistory identity world.drawn before active)
    (hjob : job.identity = identity) (hrun : packDirectory job active files world = .ok (.ok (.staged release), t))
    (hfresh : t.world.drawn.Nodup) (hids : IdsDiffer (before ++ t.newSegmentRecords.reduceOption))
    (hcanonical : ∀ file ∈ files, Canonical file.1.logicalPath) (honce : (files.map fun file => file.1.logicalPath).Nodup) :
    ∃ made reuse releaseSequence s ls classes x,
      ReleasedFrom identity before made job active files world release t reuse releaseSequence s ls classes x := by
  have hsub := packDirectory_drawn laws.aead hrun
  obtain ⟨made, hmade⟩ := h.sourced laws.aead laws.zstd (hfresh.sublist hsub)
    (hids.of_subset (List.subset_append_left _ _))
  obtain ⟨reuse, releaseSequence, s, ls, classes, hfrom⟩ := packDirectory_staged laws.aead laws.zstd hrun
  obtain ⟨x, hx⟩ := hfrom.parts laws.aead laws.zstd
  exact ⟨made, reuse, releaseSequence, s, ls, classes, x, hfrom, hmade, hjob, hfresh, hids, hx, hcanonical, honce,
    h.sized laws.aead laws.zstd laws.fastCdc⟩

namespace ReleasedFrom
variable (h : ReleasedFrom identity before made job active files world release t reuse releaseSequence s ls classes x)
include h

theorem reported : release.report.releaseSequence = releaseSequence := by
  obtain ⟨_, _, _, -, -, -, hreport⟩ := h.staged.report
  rw [hreport]

/-- What the next build reads is what the history carries on. -/
theorem oldRelease_eq (laws : Laws) : (x.package job s release segments budget).oldRelease =
    .ok (release.toOld (Crypto.hash t.fingerprint) t.chunkIds) := by
  have hrecords := Catalog.records_view h.snapshot.encodable h.catalog_valid
  have hsegments : (List.range (x.package job s release segments budget).catalog.segmentCount.toNat).mapM
      (x.package job s release segments budget).catalog.segment = .ok release.segments :=
    mapM_range_eq_ok.2 ⟨hrecords.segments_length, hrecords.segments⟩
  have hsequence : (x.package job s release segments budget).header.releaseSequence = release.report.releaseSequence :=
    h.snapshot.sequence.trans h.reported.symm
  have hfingerprint := h.snapshot.fingerprint
  obtain ⟨w, rfl⟩ := h.systemOnly
  rw [PackageInner.oldRelease, hsegments, ok_bind, h.reuseRecords_eq laws, ok_bind, hsequence]
  show Except.ok (OldRelease.mk _ x.header.sourceFingerprint _ _) = _
  rw [hfingerprint, StagedRelease.toOld, List.zip, List.map_zipWith]

/-- The files of the segments of the release, as they were written. -/
theorem exists_files : ∃ written : SegmentSource,
    (∀ r ∈ release.segments, ∃ content, written r.id = some content ∧ contentId content = r.id) ∧
    ∀ l ∈ made ++ ls, l.writer.record ∈ release.segments → written l.writer.record.id = some l.writer.content := by
  obtain ⟨-, layouts, hsub, hbacked⟩ := h.backed
  have hfind : ∀ l ∈ layouts, layouts.find? (fun l' => l'.writer.record.id = l.writer.record.id) = some l := by
    intro l hl
    obtain ⟨l', hl'⟩ : ∃ l', layouts.find? (fun l' => l'.writer.record.id = l.writer.record.id) = some l' :=
      Option.isSome_iff_exists.1 (List.find?_isSome.2 ⟨l, hl, decide_eq_true rfl⟩)
    have hid : l'.writer.record.id = l.writer.record.id := by simpa using List.find?_some hl'
    rw [hl', h.history.eq_of_id h.fresh h.idsDiffer (hsub (List.mem_of_find?_eq_some hl')) (hsub hl) hid]
  have hof : ∀ r ∈ release.segments, ∃ l ∈ layouts, r = l.writer.record := by
    intro r hr
    rw [hbacked.records] at hr
    obtain ⟨l, hl, rfl⟩ := List.mem_map.1 hr
    exact ⟨l, hl, rfl⟩
  refine ⟨fun id => (layouts.find? fun l' => l'.writer.record.id = id).map fun l' => l'.writer.content, ?_, ?_⟩
  · intro r hr
    obtain ⟨l, hl, rfl⟩ := hof r hr
    exact ⟨l.writer.content, congrArg _ (hfind l hl), rfl⟩
  · intro l hl hr
    obtain ⟨l', hl', heq⟩ := hof _ hr
    obtain rfl := h.history.eq_of_id h.fresh h.idsDiffer hl (hsub hl') (congrArg SegmentRecord.id heq)
    exact congrArg _ (hfind l hl')

/-- An asset reads as its source where the segments of its availability are served. -/
theorem holds (laws : Laws) (hcache : FaithfulCache world.sources files) {written : SegmentSource}
    (hwritten : ∀ l ∈ made ++ ls, l.writer.record ∈ release.segments → written l.writer.record.id = some l.writer.content)
    {file : SourceFile × Option CachedEntry} (hfile : file ∈ files)
    (hserved : ∀ r ∈ release.segments, r.availability = job.options.availability file.1.logicalPath →
      segments r.id = written r.id)
    (hcollision : (x.package job s release segments budget).NoCollision world.sources (files.map Prod.fst)) :
    (x.package job s release segments budget).Holds file.1.logicalPath (file.1.content world.sources) := by
  obtain ⟨k, hk⟩ := List.mem_iff_getElem?.1 hfile
  obtain ⟨f, hf, hclassed, hfilled⟩ := h.record_at hk
  have hfilled := hfilled laws.fastCdc hcache
  refine ⟨_, h.asset_at hk hf, Asset.contents_eq_content laws.fastCdc (List.mem_map_of_mem hfile) hclassed.layout
    hclassed.blockLen ?_ (h.recalls laws hclassed hfilled) (h.decodes laws hf hclassed hfilled ?_) hcollision⟩
  · rw [hfilled.whole, ← hclassed.len]
  · intro l hl hrecord havailability
    rw [hserved _ hrecord havailability]
    exact hwritten l hl hrecord

/-- Every segment of the release passes its check where all of them are served. -/
theorem verifySegments_eq {written : SegmentSource}
    (hwritten : ∀ l ∈ made ++ ls, l.writer.record ∈ release.segments → written l.writer.record.id = some l.writer.content)
    (hserved : ∀ r ∈ release.segments, segments r.id = written r.id) :
    (x.package job s release segments budget).verifySegments ideal ((x.package job s release segments budget).fetchSegment ideal) =
      .ok () := by
  obtain ⟨-, layouts, hsub, hbacked⟩ := h.backed
  have hcount := (Catalog.records_view h.snapshot.encodable h.catalog_valid).segments_length
  refine forM_eq_ok fun k hk => ?_
  have hk : k < release.segments.length := (List.mem_range.1 hk).trans_eq hcount.symm
  have hr := List.getElem?_eq_getElem hk
  have hmem := List.getElem_mem hk
  generalize release.segments[k] = record at hr hmem
  have hmem' := hmem
  rw [hbacked.records] at hmem'
  obtain ⟨l, hl, rfl⟩ := List.mem_map.1 hmem'
  refine (h.history.genuine l (hsub hl)).verifySegment (h.served hr ?_)
  rw [hserved _ hmem]
  exact hwritten l (hsub hl) hmem

end ReleasedFrom

/-- The next build finds in the snapshot of a release what the history carries on, and an older release is turned down. -/
theorem release_reopened (laws : Laws) (h : BuildHistory identity world.drawn before active)
    (hjob : job.identity = identity) (hrun : packDirectory job active files world = .ok (.ok (.staged release), t))
    (hfresh : t.world.drawn.Nodup) (hids : IdsDiffer (before ++ t.newSegmentRecords.reduceOption))
    (hcanonical : ∀ file ∈ files, Canonical file.1.logicalPath) (honce : (files.map fun file => file.1.logicalPath).Nodup)
    (segments : SegmentSource) (budget : ResourceBudget) :
    (∀ policy : OpenPolicy, policy.Accepts release.report.releaseSequence → ∃ P : PackageInner,
      PackageInner.open ideal release.snapshot segments job.identity.rootKey (Crypto.publicKey job.identity.signingKey) budget
        policy = .ok P ∧ P.Coherent ∧ P.oldRelease = .ok (release.toOld (Crypto.hash t.fingerprint) t.chunkIds) ∧
      P.listAssets = .ok (files.map fun file => ⟨file.1.logicalPath, file.1.len, (classify file.1).access⟩) ∧
      ∀ path, Canonical path → (path ∉ files.map fun file => file.1.logicalPath) → P.asset path = fail .assetNotFound) ∧
    ∀ minimum, release.report.releaseSequence < minimum →
      PackageInner.open ideal release.snapshot segments job.identity.rootKey (Crypto.publicKey job.identity.signingKey) budget
        (.requireAtLeast minimum) = fail (.releaseRollback minimum release.report.releaseSequence) := by
  obtain ⟨made, reuse, releaseSequence, s, ls, classes, x, hreleased⟩ :=
    h.released laws hjob hrun hfresh hids hcanonical honce
  rw [hreleased.reported]
  refine ⟨fun policy hpolicy => ⟨_, hreleased.open_eq_ok laws hpolicy segments budget, hreleased.coherent laws,
    hreleased.oldRelease_eq laws, hreleased.listAssets_eq, fun path => hreleased.asset_eq_notFound⟩, fun minimum hlt => ?_⟩
  exact hreleased.open_rollback laws hlt segments budget

/-- Every file of a release reads as its source, over anything that serves the segments of its availability as the builds of
the history wrote them. -/
theorem release_round_trip (laws : Laws) (h : BuildHistory identity world.drawn before active)
    (hjob : job.identity = identity) (hrun : packDirectory job active files world = .ok (.ok (.staged release), t))
    (hfresh : t.world.drawn.Nodup) (hids : IdsDiffer (before ++ t.newSegmentRecords.reduceOption))
    (hcanonical : ∀ file ∈ files, Canonical file.1.logicalPath) (honce : (files.map fun file => file.1.logicalPath).Nodup)
    (hcache : FaithfulCache world.sources files) :
    ∃ written : SegmentSource,
      (∀ r ∈ release.segments, ∃ content, written r.id = some content ∧ contentId content = r.id) ∧
      ∀ (segments : SegmentSource) (budget : ResourceBudget) (policy : OpenPolicy) (P : PackageInner),
        PackageInner.open ideal release.snapshot segments job.identity.rootKey (Crypto.publicKey job.identity.signingKey)
          budget policy = .ok P → P.NoCollision world.sources (files.map Prod.fst) →
        ∀ file ∈ files, (∀ r ∈ release.segments, r.availability = job.options.availability file.1.logicalPath →
          segments r.id = written r.id) → P.Holds file.1.logicalPath (file.1.content world.sources) := by
  obtain ⟨made, reuse, releaseSequence, s, ls, classes, x, hreleased⟩ :=
    h.released laws hjob hrun hfresh hids hcanonical honce
  obtain ⟨written, hids, hwritten⟩ := hreleased.exists_files
  refine ⟨written, hids, fun segments budget policy P hopen hcollision file hfile hserved => ?_⟩
  obtain rfl := hreleased.eq_package laws hopen
  exact hreleased.holds laws hcache hwritten hfile hserved hcollision

/-- The publisher's verification of a staged release accepts it, as long as the sources still show what was packed. -/
theorem release_verified (laws : Laws) (h : BuildHistory identity world.drawn before active)
    (hjob : job.identity = identity) (hrun : packDirectory job active files world = .ok (.ok (.staged release), t))
    (hfresh : t.world.drawn.Nodup) (hids : IdsDiffer (before ++ t.newSegmentRecords.reduceOption))
    (hcanonical : ∀ file ∈ files, Canonical file.1.logicalPath) (honce : (files.map fun file => file.1.logicalPath).Nodup)
    (hcache : FaithfulCache world.sources files) :
    ∃ written : SegmentSource,
      (∀ r ∈ release.segments, ∃ content, written r.id = some content ∧ contentId content = r.id) ∧
      ∀ (segments : SegmentSource) (host : Host) (faults : List (Option Fault)),
        (∀ r ∈ release.segments, segments r.id = written r.id) →
        (∀ P, PackageInner.open ideal release.snapshot segments job.identity.rootKey
          (Crypto.publicKey job.identity.signingKey) .memoryConstrained .trustFirstRelease = .ok P →
          P.NoCollision world.sources (files.map Prod.fst)) →
        (∀ fault, some fault ∉ faults) →
        (∀ file ∈ files, host.Shows file.1 (file.1.content world.sources)) →
        verifyStagedRelease release.snapshot segments job.identity.rootKey (Crypto.publicKey job.identity.signingKey) host
          faults (files.map Prod.fst) true = .ok () := by
  obtain ⟨made, reuse, releaseSequence, s, ls, classes, x, hreleased⟩ :=
    h.released laws hjob hrun hfresh hids hcanonical honce
  obtain ⟨written, hids, hwritten⟩ := hreleased.exists_files
  refine ⟨written, hids, fun segments host faults hserved hcollision hfaults hshown => ?_⟩
  have hopen := hreleased.open_eq_ok laws (show OpenPolicy.trustFirstRelease.Accepts releaseSequence from trivial) segments
    .memoryConstrained
  have hsources : ∀ source ∈ files.map Prod.fst, host.Shows source (source.content world.sources) := by
    intro source hsource
    obtain ⟨file, hfile, rfl⟩ := List.mem_map.1 hsource
    exact hshown file hfile
  refine (verifyStagedRelease_iff hopen (hreleased.coherent laws) hfaults hsources).2
    ⟨hreleased.verifySegments_eq hwritten hserved, fun source hsource => ?_⟩
  obtain ⟨file, hfile, rfl⟩ := List.mem_map.1 hsource
  exact hreleased.holds laws hcache hwritten hfile (fun r hr _ => hserved r hr) (hcollision _ hopen)

end

/-! ### A release of one block -/

theorem exampleCrypto_laws : letI := exampleCrypto; letI := largestFastCdc; Laws := by
  let _ := exampleCrypto; let _ := largestFastCdc
  refine ⟨exampleCrypto_aead, exampleCrypto_zstd, ⟨fun hpacked => ?_⟩, ⟨fun _ _ => decide_eq_true rfl⟩, largestFastCdc_law⟩
  obtain rfl := Option.some.inj hpacked
  omega

def keptByteBuilt : Except (Stop PackError) BuildResult × BuildContext :=
  letI := exampleCrypto; letI := target64; letI := largestFastCdc
  (publish exampleJob none false 1 [(storedByte, none)]).runOn (.new ⟨false, ∅, []⟩ 1 storedByteWorld)

/-- The build of the byte stages a release with one block of it. -/
theorem keptByte_run : letI := exampleCrypto; letI := target64; letI := largestFastCdc
    ∃ release, packDirectory exampleJob none [(storedByte, none)] storedByteWorld =
      .ok (.ok (.staged release), keptByteBuilt.2) ∧ release.blockRefs.map BlockRef.plainLen = [1] := by
  let _ := exampleCrypto; let _ := target64; let _ := largestFastCdc
  have hpublish : (publish exampleJob none false 1 [(storedByte, none)]).runOn (.new ⟨false, ∅, []⟩ 1 storedByteWorld) =
      keptByteBuilt := rfl
  have hstaged : ((BuildResult.release? keptByteBuilt.1).map fun release => release.blockRefs.map BlockRef.plainLen) =
      some [1] := by decide +kernel
  obtain ⟨release, hrelease, hblocks⟩ := Option.map_eq_some_iff.1 hstaged
  have hresult : keptByteBuilt = (.ok (.staged release), keptByteBuilt.2) := BuildResult.release?_eq_some hrelease
  have hindex : loadReuseIndex ((none : Option OldRelease).filter fun _ => exampleJob.options.incremental) =
      .ok ⟨false, ∅, []⟩ := rfl
  exact ⟨release, packDirectory_eq_ok.2 ⟨_, 1, hindex, rfl, hpublish.trans hresult⟩, hblocks⟩

/-- The example hash tells single bytes apart. -/
theorem exampleCrypto_hash_byte {a b : UInt8} (h : exampleCrypto.hash [a] = exampleCrypto.hash [b]) : a = b :=
  (List.cons.inj (congrArg ByteArr.toList h)).1

theorem keptByte_fresh : letI := exampleCrypto; letI := target64; letI := largestFastCdc
    keptByteBuilt.2.world.drawn.Nodup ∧ IdsDiffer ([] ++ keptByteBuilt.2.newSegmentRecords.reduceOption) := by
  let _ := exampleCrypto; let _ := target64; let _ := largestFastCdc
  exact ⟨by decide +kernel, by decide +kernel⟩

theorem keptByte_faithful : letI := exampleCrypto; letI := largestFastCdc
    FaithfulCache storedByteWorld.sources [(storedByte, none)] := by
  let _ := exampleCrypto; let _ := largestFastCdc
  intro file hfile entry hentry
  obtain rfl := List.mem_singleton.1 hfile
  cases hentry

theorem keptByte_canonical : ∀ file ∈ [(storedByte, (none : Option CachedEntry))], Canonical file.1.logicalPath := by
  intro file hfile
  obtain rfl := List.mem_singleton.1 hfile
  decide

/-- The one block of the release is the byte. -/
theorem keptByte_noCollision : letI := exampleCrypto; letI := target64; letI := largestFastCdc
    ∀ {identity : Identity} {before : List SegmentRecord} {made ls : List SegmentLayout} {release : StagedRelease}
      {t s : BuildContext} {reuse : ReuseIndex} {releaseSequence : UInt64} {classes : List SegmentClass} {x : SnapshotParts}
      (_ : ReleasedFrom identity before made exampleJob none [(storedByte, none)] storedByteWorld release t reuse
        releaseSequence s ls classes x) (_ : release.blockRefs.map BlockRef.plainLen = [1]) (segments : SegmentSource)
      (budget : ResourceBudget), (x.package exampleJob s release segments budget).NoCollision storedByteWorld.sources
        [storedByte] := by
  let _ := exampleCrypto; let _ := target64; let _ := largestFastCdc
  intro identity before made ls release t s reuse releaseSequence classes x h hblocks segments budget g r data hr hdata source
    hsource piece hpiece hhash
  obtain rfl := List.mem_singleton.1 hsource
  have hpieces : sourcePieces (classify storedByte) (storedByte.content storedByteWorld.sources) = [(0, [7])] := by decide
  rw [hpieces] at hpiece
  obtain rfl := List.mem_singleton.1 hpiece
  have href := (h.idealRef_eq_ok exampleCrypto_laws).1 hr
  have hlen : r.plainLen ∈ release.blockRefs.map BlockRef.plainLen := List.mem_map_of_mem (List.mem_of_getElem? href)
  rw [hblocks] at hlen
  have hone := length_idealBlock hdata
  rw [List.mem_singleton.1 hlen] at hone
  obtain ⟨b, rfl⟩ := List.length_eq_one_iff.1 hone
  rw [exampleCrypto_hash_byte hhash]

theorem release_reopened_sample : letI := exampleCrypto; letI := target64; letI := largestFastCdc
    ∃ release t, packDirectory exampleJob none [(storedByte, none)] storedByteWorld = .ok (.ok (.staged release), t) ∧
      ∃ P, PackageInner.open ideal release.snapshot (fun _ => none) exampleJob.identity.rootKey
        (Crypto.publicKey exampleJob.identity.signingKey) .memoryConstrained .trustFirstRelease = .ok P ∧
        P.oldRelease = .ok (release.toOld (Crypto.hash t.fingerprint) t.chunkIds) := by
  let _ := exampleCrypto; let _ := target64; let _ := largestFastCdc
  obtain ⟨release, hrun, -⟩ := keptByte_run
  have hhistory : BuildHistory exampleJob.identity storedByteWorld.drawn [] none := .start
  obtain ⟨hopens, -⟩ := release_reopened exampleCrypto_laws hhistory rfl hrun keptByte_fresh.1 keptByte_fresh.2
    keptByte_canonical (List.nodup_singleton _) (fun _ => none) .memoryConstrained
  obtain ⟨P, hopen, -, hold, -⟩ := hopens .trustFirstRelease trivial
  exact ⟨release, _, hrun, P, hopen, hold⟩

theorem release_round_trip_sample : letI := exampleCrypto; letI := target64; letI := largestFastCdc
    ∃ release t, packDirectory exampleJob none [(storedByte, none)] storedByteWorld = .ok (.ok (.staged release), t) ∧
      ∃ segments P, PackageInner.open ideal release.snapshot segments exampleJob.identity.rootKey
        (Crypto.publicKey exampleJob.identity.signingKey) .memoryConstrained .trustFirstRelease = .ok P ∧ P.Holds "c" [7] := by
  let _ := exampleCrypto; let _ := target64; let _ := largestFastCdc
  obtain ⟨release, hrun, hblocks⟩ := keptByte_run
  have hhistory : BuildHistory exampleJob.identity storedByteWorld.drawn [] none := .start
  obtain ⟨written, -, hholds⟩ := release_round_trip exampleCrypto_laws hhistory rfl hrun keptByte_fresh.1 keptByte_fresh.2
    keptByte_canonical (List.nodup_singleton _) keptByte_faithful
  obtain ⟨_, _, _, _, _, _, x, hreleased⟩ := hhistory.released exampleCrypto_laws rfl hrun keptByte_fresh.1
    keptByte_fresh.2 keptByte_canonical (List.nodup_singleton _)
  have hopen := hreleased.open_eq_ok exampleCrypto_laws (show OpenPolicy.trustFirstRelease.Accepts _ from trivial) written
    .memoryConstrained
  exact ⟨release, _, hrun, written, _, hopen, hholds written _ _ _ hopen
    (keptByte_noCollision hreleased hblocks written _) _ List.mem_cons_self fun _ _ _ => rfl⟩

theorem release_verified_sample : letI := exampleCrypto; letI := target64; letI := largestFastCdc
    ∃ release t, packDirectory exampleJob none [(storedByte, none)] storedByteWorld = .ok (.ok (.staged release), t) ∧
      ∃ segments host, verifyStagedRelease release.snapshot segments exampleJob.identity.rootKey
        (Crypto.publicKey exampleJob.identity.signingKey) host [] [storedByte] true = .ok () := by
  let _ := exampleCrypto; let _ := target64; let _ := largestFastCdc
  obtain ⟨release, hrun, hblocks⟩ := keptByte_run
  have hhistory : BuildHistory exampleJob.identity storedByteWorld.drawn [] none := .start
  obtain ⟨written, -, hverified⟩ := release_verified exampleCrypto_laws hhistory rfl hrun keptByte_fresh.1 keptByte_fresh.2
    keptByte_canonical (List.nodup_singleton _) keptByte_faithful
  obtain ⟨_, _, _, _, _, _, x, hreleased⟩ := hhistory.released exampleCrypto_laws rfl hrun keptByte_fresh.1
    keptByte_fresh.2 keptByte_canonical (List.nodup_singleton _)
  refine ⟨release, _, hrun, written, fun _ => .ok ⟨.ok (some storedByte.stamp), ⟨[7], [], []⟩, .ok (some storedByte.stamp)⟩,
    hverified written _ [] (fun _ _ => rfl) (fun P hopen => ?_) (fun _ => List.not_mem_nil) fun file hfile => ?_⟩
  · obtain rfl := hreleased.eq_package exampleCrypto_laws hopen
    exact keptByte_noCollision hreleased hblocks written _
  · obtain rfl := List.mem_singleton.1 hfile
    exact ⟨_, rfl, rfl, rfl, by decide, fun _ h => absurd h List.not_mem_nil, rfl, rfl⟩

end Hakutaku
