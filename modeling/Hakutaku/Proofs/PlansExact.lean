import Hakutaku.Planner
import Hakutaku.Proofs.ComparersExact

/-!
# Release plans are exact

What `plan_directory` returns, entry by entry, and that `plan_directory_after_pack` returns the same plan or none.
-/

namespace Hakutaku
open Wire

section
variable [Crypto] [Target]

/-- The plan of these sources, with their contents, against a release that lists these assets. -/
structure ReleasePlan.Exact (plan : ReleasePlan) (options : PackOptions) (P : Option PackageInner) (assets : List AssetInfo)
    (sources : List SourceFile) (contents : SourceFile → Bytes) : Prop where
  previousRelease : plan.previousRelease = P.map fun P => P.header.releaseSequence
  sorted : plan.assets.Pairwise fun a b => strBytes a.path ≤ strBytes b.path
  once : (plan.assets.map PlannedAsset.path).Nodup
  paths : ∀ path, path ∈ plan.assets.map PlannedAsset.path ↔
    path ∈ sources.map SourceFile.logicalPath ∨ path ∈ assets.map AssetInfo.path
  added : ∀ entry ∈ plan.assets, entry.change = .added ↔ entry.path ∉ assets.map AssetInfo.path
  removed : ∀ entry ∈ plan.assets, entry.change = .removed ↔ entry.path ∉ sources.map SourceFile.logicalPath
  unchanged : ∀ entry ∈ plan.assets, entry.change = .unchanged ↔
    ∃ source ∈ sources, source.logicalPath = entry.path ∧ ∃ p ∈ P, p.Holds entry.path (contents source)
  modified : ∀ entry ∈ plan.assets, entry.change = .modified ↔ entry.path ∈ assets.map AssetInfo.path ∧
    ∃ source ∈ sources, source.logicalPath = entry.path ∧ ¬ ∃ p ∈ P, p.Holds entry.path (contents source)
  ofSource : ∀ entry ∈ plan.assets, ∀ source ∈ sources, source.logicalPath = entry.path →
    entry = source.planned options entry.releasedLen entry.change
  ofReleased : ∀ entry ∈ plan.assets, ∀ asset ∈ assets, asset.path = entry.path → entry.releasedLen = some asset.len
  ofRemoved : ∀ entry ∈ plan.assets, entry.change = .removed → ∃ asset ∈ assets, entry = removedAsset options asset
  sourceBytes : plan.sourceBytes.toNat = (sources.map fun source => source.len.toNat).sum
  changedSourceBytes : plan.changedSourceBytes.toNat = ((plan.assets.filter fun entry =>
    entry.change = .added ∨ entry.change = .modified).map fun entry => (entry.sourceLen.getD 0).toNat).sum

variable {options : PackOptions} {P : Option PackageInner} {released assets : List AssetInfo} {sources : List SourceFile}
  {contents : SourceFile → Bytes} {entry : PlannedAsset}

theorem mem_expectedEntries : entry ∈ expectedEntries options P released contents sources ↔
    (∃ source ∈ sources, entry = expectedEntry options P released source (contents source)) ∨
      ∃ asset ∈ released, asset.path ∉ sources.map SourceFile.logicalPath ∧ entry = removedAsset options asset := by
  rw [expectedEntries, List.mem_append, List.mem_map, List.mem_map]
  refine or_congr ?_ ?_
  · simp only [eq_comm]
  · constructor
    · rintro ⟨asset, hasset, rfl⟩
      obtain ⟨hmem, hpath⟩ := List.mem_filter.1 hasset
      exact ⟨asset, hmem, of_decide_eq_true hpath, rfl⟩
    · rintro ⟨asset, hmem, hpath, rfl⟩
      exact ⟨asset, List.mem_filter.2 ⟨hmem, decide_eq_true hpath⟩, rfl⟩

theorem map_path_expectedEntries : (expectedEntries options P released contents sources).map PlannedAsset.path =
    sources.map SourceFile.logicalPath ++
      (released.filter fun asset => asset.path ∉ sources.map SourceFile.logicalPath).map AssetInfo.path := by
  rw [expectedEntries, List.map_append, List.map_map, List.map_map]
  rfl

theorem expectedEntries_nodup (hreleased : (released.map AssetInfo.path).Nodup)
    (hsources : (sources.map SourceFile.logicalPath).Nodup) :
    ((expectedEntries options P released contents sources).map PlannedAsset.path).Nodup := by
  rw [map_path_expectedEntries, List.nodup_append]
  refine ⟨hsources, hreleased.sublist (List.filter_sublist.map _), ?_⟩
  rintro path hpath other hother rfl
  obtain ⟨asset, hasset, rfl⟩ := List.mem_map.1 hother
  exact of_decide_eq_true (List.mem_filter.1 hasset).2 hpath

/-- The changed bytes are those of the added and the modified entries. -/
theorem changedBytes_eq (options : PackOptions) : changedBytes P released contents sources =
    (((expectedEntries options P released contents sources).filter fun entry =>
      entry.change = .added ∨ entry.change = .modified).map fun entry => (entry.sourceLen.getD 0).toNat).sum := by
  have hremoved : ((released.filter fun asset => asset.path ∉ sources.map SourceFile.logicalPath).map
      (removedAsset options)).filter (fun entry => entry.change = .added ∨ entry.change = .modified) = [] := by
    rw [List.filter_eq_nil_iff]
    intro entry hentry
    obtain ⟨asset, -, rfl⟩ := List.mem_map.1 hentry
    simp [removedAsset]
  rw [expectedEntries, List.filter_append, hremoved, List.append_nil]
  clear hremoved
  induction sources with
  | nil => rfl
  | cons source sources ih =>
    have hcases := expectedChange_cases P released source (contents source)
    have hcons : changedBytes P released contents (source :: sources) =
        (if expectedChange P released source (contents source) = .unchanged then 0 else source.len.toNat) +
          changedBytes P released contents sources := rfl
    rw [hcons, ih, List.map_cons, List.filter_cons]
    by_cases hsame : expectedChange P released source (contents source) = .unchanged
    · have hfilter : ¬ decide ((expectedEntry options P released source (contents source)).change = .added ∨
          (expectedEntry options P released source (contents source)).change = .modified) = true := fun htrue =>
        hcases.1 (of_decide_eq_true htrue) hsame
      rw [if_pos hsame, if_neg hfilter, Nat.zero_add]
    · have hfilter : decide ((expectedEntry options P released source (contents source)).change = .added ∨
          (expectedEntry options P released source (contents source)).change = .modified) = true :=
        decide_eq_true (hcases.2 hsame)
      rw [if_neg hsame, if_pos hfilter, List.map_cons, List.sum_cons]
      rfl

variable {source : SourceFile} {content : Bytes}

theorem expectedChange_eq_added : expectedChange P released source content = .added ↔
    source.logicalPath ∉ released.map AssetInfo.path := by
  have hiff : (∀ asset ∈ released, asset.path ≠ source.logicalPath) ↔ source.logicalPath ∉ released.map AssetInfo.path := by
    simp
  rw [expectedChange, ← hiff]
  by_cases hnew : ∀ asset ∈ released, asset.path ≠ source.logicalPath
  · exact iff_of_true (if_pos hnew) hnew
  · rw [if_neg hnew]
    refine iff_of_false ?_ hnew
    split
    · simp
    · simp

theorem expectedChange_eq_unchanged (h : Listed P released) : expectedChange P released source content = .unchanged ↔
    ∃ p ∈ P, p.Holds source.logicalPath content := by
  rw [expectedChange]
  by_cases hnew : ∀ asset ∈ released, asset.path ≠ source.logicalPath
  · rw [if_pos hnew]
    refine iff_of_false (by simp) ?_
    rintro ⟨p, hp, asset, hasset, -⟩
    obtain rfl : P = some p := hp
    obtain ⟨info, hinfo, hpath, -⟩ := h.of_asset hasset
    exact hnew info hinfo hpath
  · rw [if_neg hnew]
    by_cases hholds : ∃ p ∈ P, p.Holds source.logicalPath content
    · exact iff_of_true (if_pos hholds) hholds
    · rw [if_neg hholds]
      exact iff_of_false (by simp) hholds

theorem expectedChange_ne_removed : expectedChange P released source content ≠ .removed := by
  rw [expectedChange]
  split
  · simp
  · split
    · simp
    · simp

theorem expectedChange_eq_modified : expectedChange P released source content = .modified ↔
    source.logicalPath ∈ released.map AssetInfo.path ∧ expectedChange P released source content ≠ .unchanged := by
  have hadded : expectedChange P released source content = .added ↔ source.logicalPath ∉ released.map AssetInfo.path :=
    expectedChange_eq_added
  have hremoved : expectedChange P released source content ≠ .removed := expectedChange_ne_removed
  rcases hchange : expectedChange P released source content with _ | _ | _ | _
  case added => simpa [hchange] using hadded
  case modified => simpa [hchange] using hadded
  case unchanged => simp
  case removed => exact absurd hchange hremoved

/-- The expected plan is exact. -/
theorem expectedPlan_exact (h : Listed P released) (hperm : released.Perm assets)
    (hsources : (sources.map SourceFile.logicalPath).Nodup)
    (hfits : (sources.map fun source => source.len.toNat).sum < u64Size)
    (hchanged : changedBytes P released contents sources < u64Size) :
    (expectedPlan options P released contents sources).Exact options P assets sources contents := by
  have hsorted : (expectedPlan options P released contents sources).assets.Perm
      (expectedEntries options P released contents sources) := List.perm_insertionSort _ _
  have hassets (path : String) : path ∈ released.map AssetInfo.path ↔ path ∈ assets.map AssetInfo.path :=
    (hperm.map AssetInfo.path).mem_iff
  have hcases {entry : PlannedAsset} (hentry : entry ∈ (expectedPlan options P released contents sources).assets) :=
    mem_expectedEntries.1 (hsorted.mem_iff.1 hentry)
  have hunique {source other : SourceFile} (hmem : source ∈ sources) (hother : other ∈ sources)
      (hpath : source.logicalPath = other.logicalPath) : source = other := List.inj_on_of_nodup_map hsources hmem hother hpath
  constructor
  case previousRelease => rfl
  case sorted => exact List.pairwise_insertionSort _ _
  case once => exact (hsorted.map _).nodup_iff.2 (expectedEntries_nodup h.nodup hsources)
  case paths =>
    intro path
    rw [(hsorted.map _).mem_iff, map_path_expectedEntries, List.mem_append, ← hassets]
    refine ⟨Or.imp_right fun hleft => ?_, fun hor => ?_⟩
    · obtain ⟨asset, hasset, rfl⟩ := List.mem_map.1 hleft
      exact List.mem_map_of_mem (List.mem_of_mem_filter hasset)
    · by_cases hpath : path ∈ sources.map SourceFile.logicalPath
      · exact .inl hpath
      · obtain ⟨asset, hasset, rfl⟩ := List.mem_map.1 (hor.resolve_left hpath)
        exact .inr (List.mem_map_of_mem (List.mem_filter.2 ⟨hasset, decide_eq_true hpath⟩))
  case added =>
    intro entry hentry
    rw [← hassets]
    rcases hcases hentry with ⟨source, hsource, rfl⟩ | ⟨asset, hasset, hpath, rfl⟩
    · exact expectedChange_eq_added
    · exact iff_of_false nofun (not_not.2 (List.mem_map_of_mem hasset))
  case removed =>
    intro entry hentry
    rcases hcases hentry with ⟨source, hsource, rfl⟩ | ⟨asset, hasset, hpath, rfl⟩
    · exact iff_of_false expectedChange_ne_removed (not_not.2 (List.mem_map_of_mem hsource))
    · exact iff_of_true rfl hpath
  case unchanged =>
    intro entry hentry
    rcases hcases hentry with ⟨source, hsource, rfl⟩ | ⟨asset, hasset, hpath, rfl⟩
    · refine (expectedChange_eq_unchanged h).trans ⟨fun hholds => ⟨source, hsource, rfl, hholds⟩, ?_⟩
      rintro ⟨other, hother, hpath, hholds⟩
      obtain rfl := hunique hother hsource hpath
      exact hholds
    · refine iff_of_false nofun ?_
      rintro ⟨source, hsource, heq, -⟩
      exact hpath (List.mem_map.2 ⟨source, hsource, heq⟩)
  case modified =>
    intro entry hentry
    rw [← hassets]
    rcases hcases hentry with ⟨source, hsource, rfl⟩ | ⟨asset, hasset, hpath, rfl⟩
    · refine expectedChange_eq_modified.trans (and_congr Iff.rfl ((not_congr (expectedChange_eq_unchanged h)).trans ?_))
      constructor
      · intro hdiffers
        exact ⟨source, hsource, rfl, hdiffers⟩
      · rintro ⟨other, hother, hpath, hdiffers⟩
        obtain rfl := hunique hother hsource hpath
        exact hdiffers
    · refine iff_of_false nofun ?_
      rintro ⟨-, source, hsource, heq, -⟩
      exact hpath (List.mem_map.2 ⟨source, hsource, heq⟩)
  case ofSource =>
    intro entry hentry source hsource heq
    rcases hcases hentry with ⟨other, hother, rfl⟩ | ⟨asset, hasset, hpath, rfl⟩
    · obtain rfl := hunique hsource hother heq
      rfl
    · exact absurd (List.mem_map.2 ⟨source, hsource, heq⟩) hpath
  case ofReleased =>
    intro entry hentry asset hasset heq
    have hmem := hperm.mem_iff.2 hasset
    rcases hcases hentry with ⟨source, hsource, rfl⟩ | ⟨other, hother, hpath, rfl⟩
    · have hfind : (released.find? fun asset => asset.path = source.logicalPath) = some asset :=
        (find?_key_eq_some h.nodup).2 ⟨hmem, heq⟩
      show Option.map _ (released.find? _) = _
      rw [hfind]
      rfl
    · obtain rfl := List.inj_on_of_nodup_map h.nodup hmem hother heq
      rfl
  case ofRemoved =>
    intro entry hentry hremoved
    rcases hcases hentry with ⟨source, hsource, rfl⟩ | ⟨asset, hasset, hpath, rfl⟩
    · exact absurd hremoved expectedChange_ne_removed
    · exact ⟨asset, hperm.mem_iff.1 hasset, rfl⟩
  case sourceBytes => exact UInt64.toNat_ofNat_of_lt' hfits
  case changedSourceBytes =>
    refine (UInt64.toNat_ofNat_of_lt' hchanged).trans ((changedBytes_eq options).trans ?_)
    exact (((hsorted.filter _).map _).sum_eq).symm

variable {keys : RuntimeKeyMaterial} {release : Option ReleaseFiles} {host : Host} {faults : List (Option Fault)}
  {plan : ReleasePlan}

omit [Crypto] in
theorem releasedAssets_some {p : PackageInner} : releasedAssets (some p) = .ok assets ↔ p.listAssets = .ok assets :=
  coreResult_eq_ok

theorem Packed.expectedEntry (h : Packed released source) (hreleased : (released.map AssetInfo.path).Nodup)
    (hchange : expectedChange P released source content = .unchanged) :
    expectedEntry options P released source content = source.planned options (some source.len) .unchanged := by
  obtain ⟨asset, hasset, hpath, hlen, -⟩ := h
  have hfind : (released.find? fun asset => asset.path = source.logicalPath) = some asset :=
    (find?_key_eq_some hreleased).2 ⟨hasset, hpath⟩
  rw [Hakutaku.expectedEntry, hfind, hchange, ← hlen]
  rfl

/-- Where the sources are those of the release, the expected plan has nothing to sort and no bytes that change. -/
theorem expectedPlan_unchanged {p : PackageInner} (hsources : Inventory sources) (h : Listed (some p) released)
    (hpacked : ∀ source ∈ sources, Packed released source)
    (hstale : ∀ asset ∈ released, asset.path ∈ sources.map SourceFile.logicalPath)
    (hholds : ∀ source ∈ sources, p.Holds source.logicalPath (contents source)) :
    expectedPlan options (some p) released contents sources = {
      previousRelease := some p.header.releaseSequence
      assets := sources.map fun source => source.planned options (some source.len) .unchanged
      sourceBytes := UInt64.ofNat (sources.map fun source => source.len.toNat).sum
      changedSourceBytes := 0 } := by
  have hchange {source : SourceFile} (hsource : source ∈ sources) :
      expectedChange (some p) released source (contents source) = .unchanged :=
    (expectedChange_eq_unchanged h).2 ⟨p, rfl, hholds source hsource⟩
  have hentries : expectedEntries options (some p) released contents sources =
      sources.map fun source => source.planned options (some source.len) .unchanged := by
    have hnone : (released.filter fun asset => asset.path ∉ sources.map SourceFile.logicalPath) = [] := by
      rw [List.filter_eq_nil_iff]
      intro asset hasset
      exact fun hleft => of_decide_eq_true hleft (hstale asset hasset)
    rw [expectedEntries, hnone, List.map_nil, List.append_nil]
    exact List.map_congr_left fun source hsource => (hpacked source hsource).expectedEntry h.nodup (hchange hsource)
  have hbytes : changedBytes (some p) released contents sources = 0 := by
    refine List.sum_eq_zero fun n hn => ?_
    obtain ⟨source, hsource, rfl⟩ := List.mem_map.1 hn
    exact if_pos (hchange hsource)
  have hsorted : (sources.map fun source => source.planned options (some source.len) .unchanged).Pairwise
      fun a b => strBytes a.path ≤ strBytes b.path := List.pairwise_map.2 hsources.sorted
  rw [expectedPlan, hentries, hbytes, hsorted.insertionSort_eq]
  rfl

/-- The fast plan that succeeds on the bytes that are released is the full one. -/
theorem planDirectory_eq_afterPack (hsources : Inventory sources) (hincremental : options.incremental = true)
    (hopen : openReleases keys release = .ok P) (hP : ∀ p ∈ P, p.Coherent) (hassets : releasedAssets P = .ok assets)
    (hpaths : (assets.map AssetInfo.path).Nodup) (hshown : ∀ source ∈ sources, host.Shows source (contents source))
    (hfaults : ∀ fault, some fault ∉ faults)
    (hfast : planDirectoryAfterPack options keys (.ok sources) release = .ok plan)
    (hholds : ∀ source ∈ sources, ∃ p ∈ P, p.Holds source.logicalPath (contents source)) :
    planDirectory options keys (.ok sources) release host faults = .ok plan := by
  rcases release with _ | files
  · exact absurd hfast planDirectoryAfterPack_none
  obtain ⟨p, hp, rfl⟩ := openReleases_some.1 hopen
  have hactive : activeRelease options keys (some files) = .ok (some p) := by
    rw [activeRelease, hincremental]
    exact hopen
  have hlisted := Listed.of_assets hP hassets hpaths
  have hperm := assetMap_perm hpaths
  obtain ⟨hpacked, hstale, hfits, rfl⟩ :=
    (planDirectoryAfterPack_eq_ok hp (releasedAssets_some.1 hassets) hpaths hsources.once).1 hfast
  obtain ⟨-, hends⟩ := planDirectory_spec hP hactive hassets hpaths hfaults hshown hsources.once
  have hholds' : ∀ source ∈ sources, p.Holds source.logicalPath (contents source) := by
    intro source hsource
    obtain ⟨_, ⟨⟩, h⟩ := hholds source hsource
    exact h
  rw [hends (fun source hsource q hq _ _ _ _ => ⟨contents source, Option.some.inj hq ▸ hholds' source hsource⟩) hfits,
    expectedPlan_unchanged hsources hlisted (fun source hsource => ?_) (fun asset hasset => hstale asset (hperm.mem_iff.1 hasset))
      hholds']
  obtain ⟨asset, hasset, hpacked⟩ := hpacked source hsource
  exact ⟨asset, hperm.mem_iff.2 hasset, hpacked⟩

/-- Sources that do not agree with the metadata of the release have no fast plan. -/
theorem planDirectoryAfterPack_fails (hsources : Inventory sources) (hopen : openReleases keys release = .ok P)
    (hassets : releasedAssets P = .ok assets) (hpaths : (assets.map AssetInfo.path).Nodup)
    (hdiffer : (∃ path, ¬ (path ∈ sources.map SourceFile.logicalPath ↔ path ∈ assets.map AssetInfo.path)) ∨
      ∃ source ∈ sources, ∃ asset ∈ assets, asset.path = source.logicalPath ∧
        (asset.len ≠ source.len ∨ asset.access ≠ (classify source).access)) :
    ∃ e, planDirectoryAfterPack options keys (.ok sources) release = fail e := by
  have hnot (plan : ReleasePlan) : planDirectoryAfterPack options keys (.ok sources) release ≠ .ok plan := by
    intro hfast
    rcases release with _ | files
    · exact planDirectoryAfterPack_none hfast
    obtain ⟨p, hp, rfl⟩ := openReleases_some.1 hopen
    obtain ⟨hpacked, hstale, -⟩ :=
      (planDirectoryAfterPack_eq_ok hp (releasedAssets_some.1 hassets) hpaths hsources.once).1 hfast
    rcases hdiffer with ⟨path, hpath⟩ | ⟨source, hsource, asset, hasset, hpath, hdiffer⟩
    · refine hpath ⟨fun hmem => ?_, fun hmem => ?_⟩
      · obtain ⟨source, hsource, rfl⟩ := List.mem_map.1 hmem
        obtain ⟨asset, hasset, hpath, -⟩ := hpacked source hsource
        exact List.mem_map.2 ⟨asset, hasset, hpath⟩
      · obtain ⟨asset, hasset, rfl⟩ := List.mem_map.1 hmem
        exact hstale asset hasset
    · obtain ⟨other, hother, hotherpath, hlen, haccess⟩ := hpacked source hsource
      obtain rfl := List.inj_on_of_nodup_map hpaths hasset hother (hpath.trans hotherpath.symm)
      exact hdiffer.elim (· hlen) (· haccess)
  have hpanic : NoPanic (planDirectoryAfterPack options keys (.ok sources) release) :=
    planDirectoryAfterPack_noPanic hopen hassets
  rcases hfast : planDirectoryAfterPack options keys (.ok sources) release with (e | what) | plan
  · exact ⟨e, rfl⟩
  · exact absurd hfast (hpanic what)
  · exact absurd hfast (hnot plan)

/-! ### A plan against the twins -/

/-- Comparing a source with an asset of its length that reads otherwise. -/
theorem assetMatchesSource_mismatch {p : PackageInner} {s : Shared} (asset : Asset p) (bytes : Bytes)
    (hshown : host.Shows source content) (hasset : p.asset source.logicalPath = .ok asset)
    (hlen : asset.len = source.len.toNat) (hpos : 0 < asset.len) (hsmall : asset.len < compareBufferBytes)
    (hok : (((asset.readLoop asset.len asset.len 0 0).run.run (.new ((zeros compareBufferBytes).take asset.len))).run s).1.1 =
      .ok asset.len)
    (hbytes : (((asset.readLoop asset.len asset.len 0 0).run.run
      (.new ((zeros compareBufferBytes).take asset.len))).run s).1.2.destination = bytes)
    (hbyteslen : bytes.length = asset.len) (hdiffer : content ≠ bytes) :
    ∃ c, assetMatchesSource p host (.new s) source = .ok (false, c) := by
  obtain ⟨file, reader, hscripted, hfile, hreader⟩ := hshown.openScripted
  have hbuffered : Buffered compareBufferBytes (Scripted content) ⟨reader, [], compareBufferBytes⟩ (.bytes content) :=
    ⟨⟨show 0 < compareBufferBytes by decide, le_refl _⟩, _, hreader, rfl⟩
  have hbuffer : ((zeros compareBufferBytes).take asset.len).length = asset.len := by
    rw [List.length_take, length_zeros]
    exact min_eq_left hsmall.le
  have hcontent : content.length = asset.len := hfile.length.trans hlen.symm
  obtain ⟨cursor, hcursor⟩ := readExact_whole hpos hbuffer (hsmall.trans compareBufferBytes_lt) hok hbytes hbyteslen
  rcases (Streams.scripted compareBufferBytes content).buffered.readExact_bytes
    (show ((zeros compareBufferBytes).take asset.len).length ≤ compareBufferBytes by omega) hbuffered with
      ⟨-, hok', hread, -⟩ | ⟨hshort, -⟩
  · rw [hbuffer, List.take_of_length_le hcontent.le] at hread
    have hsource : Read.readExact (⟨reader, [], compareBufferBytes⟩ : BufReader ScriptedReader)
        ((zeros compareBufferBytes).take asset.len) = (.ok (), content, _) := Prod.ext hok' (Prod.ext hread rfl)
    have hloop : ∃ out, matchLoop source.len.toNat (⟨reader, [], compareBufferBytes⟩ : BufReader ScriptedReader)
        (⟨.new asset, s⟩ : CursorReader p) source.len.toNat (zeros compareBufferBytes) (zeros compareBufferBytes) =
          .ok (false, out) := by
      obtain ⟨n, hn⟩ : ∃ n, asset.len = n + 1 := ⟨asset.len - 1, by omega⟩
      have hstep : matchLoop (n + 1) (⟨reader, [], compareBufferBytes⟩ : BufReader ScriptedReader)
          (⟨.new asset, s⟩ : CursorReader p) asset.len (zeros compareBufferBytes) (zeros compareBufferBytes) = _ :=
        matchLoop_step hpos
          (show min asset.len (zeros compareBufferBytes).length = asset.len by rw [length_zeros]; exact min_eq_left hsmall.le)
          (hsmall.trans compareBufferBytes_lt)
          (show asset.len ≤ (zeros compareBufferBytes).length by rw [length_zeros]; exact hsmall.le) hsource hcursor
      rw [← hlen, hn]
      rw [if_pos hdiffer, hn] at hstep
      exact ⟨_, hstep⟩
    obtain ⟨⟨expected, actual, _, cursor'⟩, hloop⟩ := hloop
    refine ⟨⟨expected, actual, cursor'.shared⟩, ?_⟩
    rw [assetMatchesSource]
    simp only [hscripted, ok_bind, coreResult_eq_ok.2 hasset]
    show (matchLoop _ _ (⟨.new asset, s⟩ : CursorReader p) _ (zeros _) (zeros _) >>= _) = _
    rw [hloop]
    rfl
  · omega

/-- The plan of one source against a release of one asset, where the comparison says that they differ. -/
theorem planDirectory_mismatch {p : PackageInner} {files : ReleaseFiles} {info : AssetInfo} {c : Comparison}
    (hincremental : options.incremental = true) (hopen : openRelease keys files = .ok p) (hassets : p.listAssets = .ok [info])
    (hpath : info.path = source.logicalPath) (hlen : info.len = source.len)
    (hmatch : assetMatchesSource p host (.new (.new .memoryConstrained faults)) source = .ok (false, c)) :
    planDirectory options keys (.ok [source]) (some files) host faults = .ok {
      previousRelease := some p.header.releaseSequence
      assets := [source.planned options (some source.len) .modified]
      sourceBytes := source.len
      changedSourceBytes := source.len } := by
  have hactive : activeRelease options keys (some files) = .ok (some p) := by
    rw [activeRelease, hincremental]
    exact openReleases_some.2 ⟨p, hopen, rfl⟩
  have hadd (overflow : String) : addLen overflow 0 source = .ok source.len := addLen_eq_ok.2 (Nat.zero_add _).symm
  have hfind : ([info].find? fun asset => asset.path = source.logicalPath) = some info := by
    simp [hpath]
  have hleft : ([info].filter fun asset => asset.path ≠ source.logicalPath) = [] := by
    rw [List.filter_eq_nil_iff]
    simp [hpath]
  have hchange : sourceChange (some p) host (.new (.new .memoryConstrained faults)) source (some info) =
      .ok (.modified, c) := by
    rw [sourceChange]
    simp only [if_pos hlen, hmatch, ok_bind]
    rfl
  have hsource : planSource options (some p) host ⟨[info], .new (.new .memoryConstrained faults), [], 0⟩ source =
      .ok ⟨[], c, [source.planned options (some source.len) .modified], source.len⟩ := by
    rw [planSource]
    simp only [hfind, hchange, ok_bind, hleft, hadd, Option.map_some, hlen]
    rfl
  rw [planDirectory, ok_bind]
  simp only [List.foldlM_cons, List.foldlM_nil, hadd, hactive, releasedAssets, coreResult_eq_ok.2 hassets, ok_bind]
  show ([source].foldlM (planSource options (some p) host) ⟨[info], _, [], 0⟩ >>= _) = _
  simp only [List.foldlM_cons, List.foldlM_nil, hsource, ok_bind]
  rfl

end

/-- The runtime keys of the sample releases. -/
def sampleKeys : RuntimeKeyMaterial where
  projectId := ⟨.replicate 16 9⟩
  keyShareA := .replicate 32 8
  keyShareB := .replicate 32 0
  publicKey := .replicate 32 6

def sampleOptions : PackOptions where
  incremental := true
  releaseSequenceFloor := 1
  developmentCache := false
  compressionLevel := 3
  segmentTargetBytes := 1024 * 1024
  deferredPrefixes := []

theorem openRelease_sample [Crypto] [Target] {P : PackageInner} {snapshot : Bytes}
    (hopen : PackageInner.open ideal snapshot P.source (.replicate 32 8) (.replicate 32 6) .memoryConstrained
      .trustFirstRelease = .ok P) (hproject : P.header.projectId = ⟨.replicate 16 9⟩) :
    openRelease sampleKeys ⟨snapshot, P.source⟩ = .ok P := by
  have hroot : sampleKeys.rootKey = .replicate 32 8 := by decide +kernel
  rw [openRelease, hroot]
  show (coreResult (PackageInner.open ideal snapshot P.source (.replicate 32 8) (.replicate 32 6) .memoryConstrained
    .trustFirstRelease) >>= _) = _
  rw [coreResult_eq_ok.2 hopen, ok_bind]
  exact if_neg (not_not.2 hproject)

/-- The twins are planned as modified although the release holds the bytes of the source. -/
theorem twins_replanned : letI := twins.crypto; letI := target64
    openRelease sampleKeys ⟨twins.snapshot, twins.package.source⟩ = .ok twins.package ∧
      twins.package.listAssets = .ok [⟨"a", 8, .hot⟩] ∧
      (sampleHost [1, 2, 3, 4, 5, 6, 7, 8]).Shows (sampleSource 8) [1, 2, 3, 4, 5, 6, 7, 8] ∧
      twins.package.Holds "a" [1, 2, 3, 4, 5, 6, 7, 8] ∧
      planDirectory sampleOptions sampleKeys (.ok [sampleSource 8]) (some ⟨twins.snapshot, twins.package.source⟩)
          (sampleHost [1, 2, 3, 4, 5, 6, 7, 8]) [] = .ok {
        previousRelease := some 1
        assets := [(sampleSource 8).planned sampleOptions (some 8) .modified]
        sourceBytes := 8
        changedSourceBytes := 8 } := by
  let _ := twins.crypto
  let _ := target64
  have hopen : openRelease sampleKeys ⟨twins.snapshot, twins.package.source⟩ = .ok twins.package :=
    openRelease_sample twins_open (by decide +kernel)
  have hassets : twins.package.listAssets = .ok [⟨"a", 8, .hot⟩] := by decide +kernel
  have hasset : twins.package.asset "a" = .ok twinsAsset := asset_of_findFile twinsAsset (by decide +kernel)
  have hshows : (sampleHost [1, 2, 3, 4, 5, 6, 7, 8]).Shows (sampleSource 8) [1, 2, 3, 4, 5, 6, 7, 8] :=
    sampleHost_shows (by decide) (by decide)
  obtain ⟨c, hmatch⟩ := assetMatchesSource_mismatch (s := .new .memoryConstrained []) twinsAsset [1, 2, 3, 4, 1, 2, 3, 4]
    hshows hasset (by decide +kernel) (by decide +kernel) (by decide +kernel) (by decide +kernel) (by decide +kernel)
    (by decide +kernel) (by decide)
  refine ⟨hopen, hassets, hshows, ⟨twinsAsset, hasset, by decide +kernel⟩, ?_⟩
  exact planDirectory_mismatch rfl hopen hassets rfl rfl hmatch

theorem plans_exact [Crypto] [Target] (options : PackOptions) (keys : RuntimeKeyMaterial) (sources : List SourceFile)
    (hsources : Inventory sources) (contents : SourceFile → Bytes) (host : Host)
    (hshown : ∀ source ∈ sources, host.Shows source (contents source)) (release : Option ReleaseFiles)
    (P : Option PackageInner) (hopen : openReleases keys release = .ok P) (hP : ∀ p ∈ P, p.Coherent)
    (assets : List AssetInfo) (hassets : releasedAssets P = .ok assets) (hpaths : (assets.map AssetInfo.path).Nodup)
    (faults : List (Option Fault)) (hfaults : ∀ fault, some fault ∉ faults) :
    (options.incremental = true →
      (∀ plan, planDirectory options keys (.ok sources) release host faults = .ok plan →
        plan.Exact options P assets sources contents) ∧
      ((∀ source ∈ sources, Comparable P assets source) → (sources.map fun source => source.len.toNat).sum < u64Size →
        ∃ plan, planDirectory options keys (.ok sources) release host faults = .ok plan) ∧
      ∀ plan, planDirectoryAfterPack options keys (.ok sources) release = .ok plan →
        (∀ source ∈ sources, ∃ p ∈ P, p.Holds source.logicalPath (contents source)) →
        planDirectory options keys (.ok sources) release host faults = .ok plan) ∧
    ((∃ path, ¬ (path ∈ sources.map SourceFile.logicalPath ↔ path ∈ assets.map AssetInfo.path)) ∨
      (∃ source ∈ sources, ∃ asset ∈ assets, asset.path = source.logicalPath ∧
        (asset.len ≠ source.len ∨ asset.access ≠ (classify source).access)) →
      ∃ e, planDirectoryAfterPack options keys (.ok sources) release = fail e) := by
  refine ⟨fun hincremental => ?_, planDirectoryAfterPack_fails hsources hopen hassets hpaths⟩
  have hactive : activeRelease options keys release = .ok P := by
    rw [activeRelease, hincremental]
    cases release with
    | none => exact hopen
    | some files => exact hopen
  have hperm := assetMap_perm hpaths
  have hlisted := Listed.of_assets hP hassets hpaths
  obtain ⟨hspec, hends⟩ := planDirectory_spec hP hactive hassets hpaths hfaults hshown hsources.once
  refine ⟨fun plan hplan => ?_, fun hreadable hfits => ?_, fun plan hfast hholds => ?_⟩
  · obtain ⟨rfl, hfits, hchanged⟩ := hspec plan hplan
    exact expectedPlan_exact hlisted hperm hsources.once hfits hchanged
  · refine ⟨_, hends (fun source hsource p hp asset hasset => ?_) hfits⟩
    exact hreadable source hsource p hp asset (hperm.mem_iff.1 hasset)
  · exact planDirectory_eq_afterPack hsources hincremental hopen hP hassets hpaths hshown hfaults hfast hholds

/-- The plan of a release whose one asset is unchanged. -/
theorem plans_exact_sample : letI := oneBlock.crypto; letI := target64
    planDirectory sampleOptions sampleKeys (.ok [sampleSource 4]) (some ⟨oneBlock.snapshot, oneBlock.package.source⟩)
      (sampleHost [1, 2, 3, 4]) [none] = .ok {
        previousRelease := some 1
        assets := [(sampleSource 4).planned sampleOptions (some 4) .unchanged]
        sourceBytes := 4
        changedSourceBytes := 0 } := by
  let _ := oneBlock.crypto
  let _ := target64
  have hopen : PackageInner.open ideal oneBlock.snapshot oneBlock.package.source (.replicate 32 8) (.replicate 32 6)
      .memoryConstrained .trustFirstRelease = .ok oneBlock.package :=
    open_of_steps (slice oneBlock.snapshot 0 snapshotHeaderSize) oneBlock.catalogCiphertext oneBlock.header
      oneBlock.catalog.view 144 (by decide +kernel) (by decide +kernel) (by decide +kernel) (by decide +kernel)
      (by decide +kernel) (by decide +kernel) (by decide +kernel)
  have hrelease := openRelease_sample hopen (by decide +kernel)
  have hassets : oneBlock.package.listAssets = .ok [⟨"a", 4, .hot⟩] := by decide +kernel
  have hasset : oneBlock.package.asset "a" = .ok oneBlockAsset := asset_of_findFile oneBlockAsset (by decide +kernel)
  have hshows : (sampleHost [1, 2, 3, 4]).Shows (sampleSource 4) [1, 2, 3, 4] := sampleHost_shows (by decide) (by decide)
  have hinventory : Inventory [sampleSource 4] := ⟨List.pairwise_singleton _ _, List.nodup_singleton _⟩
  have h := plans_exact sampleOptions sampleKeys [sampleSource 4] hinventory (fun _ => [1, 2, 3, 4]) (sampleHost [1, 2, 3, 4])
    (List.forall_mem_singleton.2 hshows) (some ⟨oneBlock.snapshot, oneBlock.package.source⟩) (some oneBlock.package)
    (openReleases_some.2 ⟨_, hrelease, rfl⟩) (fun p hp => Option.some.inj hp ▸ oneBlock_coherent) [⟨"a", 4, .hot⟩]
    (releasedAssets_some.2 hassets) (List.nodup_singleton _) [none] (by simp)
  refine (h.1 rfl).2.2 _ ?_ (List.forall_mem_singleton.2 ⟨_, rfl, oneBlockAsset, hasset, by decide +kernel⟩)
  refine (planDirectoryAfterPack_eq_ok hrelease hassets (List.nodup_singleton _) hinventory.once).2 ⟨?_, ?_, ?_, ?_⟩
  · exact List.forall_mem_singleton.2 ⟨_, List.mem_singleton.2 rfl, rfl, rfl, by decide⟩
  · exact List.forall_mem_singleton.2 (List.mem_singleton.2 rfl)
  · exact (show 4 < u64Size by decide)
  · rfl

end Hakutaku
