import Hakutaku.ReleaseContents
import Hakutaku.Proofs.PagedTables
import Hakutaku.Proofs.StorageConserved

/-!
# Required and deferred blocks never mix

In every release of a build history the blocks of a file lie in segments of the availability its path has under the
options of that build. Blocks reach a file by new writing, by sharing inside the build and from earlier releases, whose
options had other prefixes; in all three cases the segment was started for the availability that is asked for.
-/

namespace Hakutaku
open Wire Act BuildContext

section
variable [Crypto]

/-- A file has a block in the segment at an ordinal. -/
def StagedRelease.References (release : StagedRelease) (f : FileRecord) (k : Nat) : Prop :=
  ∃ i < f.blockCount.toNat, ∃ ref : BlockRef, release.blockRefs[f.firstBlock.toNat + i]? = some ref ∧
    ref.segmentOrdinal.toNat = k

/-- The record of a file in a release: its path, and blocks that lie in segments of one availability. -/
structure Isolated (release : StagedRelease) (t : BuildContext) (path : String) (availability : Availability)
    (f : FileRecord) : Prop where
  path : slice t.pathPool f.pathOffset.toNat f.pathLen.toNat = strBytes path
  blocks : ∀ i < f.blockCount.toNat, ∃ (ref : BlockRef) (segment : SegmentRecord),
    release.blockRefs[f.firstBlock.toNat + i]? = some ref ∧
      release.segments[ref.segmentOrdinal.toNat]? = some segment ∧ segment.availability = availability

variable {release : StagedRelease} {t : BuildContext} {f : FileRecord} {path : String} {availability : Availability}

omit [Crypto] in
/-- Every segment a file has a block in is of the availability of the file. -/
theorem Isolated.segment (h : Isolated release t path availability f) {k : Nat} {segment : SegmentRecord}
    (hk : release.References f k) (hsegment : release.segments[k]? = some segment) : segment.availability = availability := by
  obtain ⟨i, hi, ref, href, rfl⟩ := hk
  obtain ⟨ref', segment', href', hsegment', rfl⟩ := h.blocks i hi
  obtain rfl := Option.some.inj (href.symm.trans href')
  rw [Option.some.inj (hsegment.symm.trans hsegment')]

variable [Target] [FastCdc] {identity : Identity} {job : Job} {records : List SegmentRecord} {active : Option OldRelease}
  {files : List (SourceFile × Option CachedEntry)} {world : World}

/-- Every record of a release is that of a source, and isolated. -/
theorem BuildHistory.isolated (haead : AeadLaw) (hz : ZstdLaw) (h : BuildHistory identity world.drawn records active)
    (hjob : job.identity = identity) (hrun : packDirectory job active files world = .ok (.ok (.staged release), t))
    (hdrawn : t.world.drawn.Nodup) (hids : IdsDiffer (records ++ t.newSegmentRecords.reduceOption)) :
    List.Forall₂ (fun file f => Isolated release t file.1.logicalPath (job.options.availability file.1.logicalPath) f) files
      t.fileRecords := by
  obtain ⟨made, hmade⟩ := h.sourced haead hz (hdrawn.sublist (packDirectory_drawn haead hrun))
    (hids.of_subset (List.subset_append_left _ _))
  obtain ⟨reuse, releaseSequence, s, ls, classes, hfrom⟩ := packDirectory_staged haead hz hrun
  have hstored (file : SourceFile × Option CachedEntry) (f : FileRecord) (hclassed : Classed job s ls file.1 f) :
      ∀ i < f.blockCount.toNat, ∃ (ref : BlockRef) (segment : SegmentRecord),
        release.blockRefs[f.firstBlock.toNat + i]? = some ref ∧ release.segments[ref.segmentOrdinal.toNat]? = some segment ∧
          segment.availability = job.options.availability file.1.logicalPath := by
    intro i hi
    obtain ⟨_, ref, -, href, l, -, hsegment, havailability, -⟩ := hfrom.stored hmade hjob hdrawn hids hclassed hi
    exact ⟨ref, _, href, hsegment, havailability⟩
  obtain ⟨w, rfl⟩ := hfrom.systemOnly
  exact hfrom.classed.imp fun file f hclassed => ⟨hclassed.path, hstored file f hclassed⟩

/-- Required and deferred blocks are never mixed, in any release of any build history: the blocks of a file lie in segments
of its availability, so no segment serves files of both. -/
theorem availability_isolated (haead : AeadLaw) (hz : ZstdLaw) (h : BuildHistory identity world.drawn records active)
    (hjob : job.identity = identity) (hrun : packDirectory job active files world = .ok (.ok (.staged release), t))
    (hdrawn : t.world.drawn.Nodup) (hids : IdsDiffer (records ++ t.newSegmentRecords.reduceOption)) :
    List.Forall₂ (fun file f => Isolated release t file.1.logicalPath (job.options.availability file.1.logicalPath) f) files
      t.fileRecords ∧
    ∀ (i j k : Nat) (file file' : SourceFile × Option CachedEntry) (f f' : FileRecord), files[i]? = some file →
      t.fileRecords[i]? = some f → files[j]? = some file' → t.fileRecords[j]? = some f' → release.References f k →
      release.References f' k →
      job.options.availability file.1.logicalPath = job.options.availability file'.1.logicalPath := by
  have hisolated := h.isolated haead hz hjob hrun hdrawn hids
  refine ⟨hisolated, fun i j k file file' f f' hfile hf hfile' hf' hk hk' => ?_⟩
  have hat {i : Nat} {file : SourceFile × Option CachedEntry} {f : FileRecord} (hfile : files[i]? = some file)
      (hf : t.fileRecords[i]? = some f) :
      Isolated release t file.1.logicalPath (job.options.availability file.1.logicalPath) f := by
    obtain ⟨hi, rfl⟩ := List.getElem?_eq_some_iff.1 hfile
    obtain ⟨hi', rfl⟩ := List.getElem?_eq_some_iff.1 hf
    exact (List.forall₂_iff_get.1 hisolated).2 i hi hi'
  obtain ⟨b, hb, ref, href, rfl⟩ := hk
  obtain ⟨ref', segment, href', hsegment, -⟩ := (hat hfile hf).blocks b hb
  obtain rfl := Option.some.inj (href.symm.trans href')
  exact ((hat hfile hf).segment ⟨b, hb, ref, href, rfl⟩ hsegment).symm.trans ((hat hfile' hf').segment hk' hsegment)

end

/-! ### A release of one block -/

theorem availability_isolated_sample : letI := exampleCrypto; letI := target64; letI := exampleFastCdc
    ∃ release t, packDirectory exampleJob none [(storedByte, none)] storedByteWorld = .ok (.ok (.staged release), t) ∧
      List.Forall₂ (fun (file : SourceFile × Option CachedEntry) f => Isolated release t file.1.logicalPath
        (exampleJob.options.availability file.1.logicalPath) f) [(storedByte, none)] t.fileRecords := by
  let _ := exampleCrypto; let _ := target64; let _ := exampleFastCdc
  have hpublish : (publish exampleJob none false 1 [(storedByte, none)]).runOn (.new ⟨false, ∅, []⟩ 1 storedByteWorld) =
      storedByteBuilt := rfl
  have hstaged : (BuildResult.release? storedByteBuilt.1).isSome := by decide +kernel
  obtain ⟨release, hrelease⟩ := Option.isSome_iff_exists.1 hstaged
  have hresult : storedByteBuilt = (.ok (.staged release), storedByteBuilt.2) := BuildResult.release?_eq_some hrelease
  have hindex : loadReuseIndex ((none : Option OldRelease).filter fun _ => exampleJob.options.incremental) =
      .ok ⟨false, ∅, []⟩ := rfl
  have hrun := packDirectory_eq_ok.2 ⟨_, 1, hindex, rfl, hpublish.trans hresult⟩
  have hdrawn : storedByteBuilt.2.world.drawn.Nodup := by decide +kernel
  have hids : IdsDiffer ([] ++ storedByteBuilt.2.newSegmentRecords.reduceOption) := by decide +kernel
  have hhistory : BuildHistory exampleJob.identity storedByteWorld.drawn [] none := .start
  exact ⟨release, _, hrun, (availability_isolated exampleCrypto_aead exampleCrypto_zstd hhistory rfl hrun hdrawn hids).1⟩

end Hakutaku
