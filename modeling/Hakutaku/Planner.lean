import Hakutaku.Comparers
import Hakutaku.KeyFiles
import Hakutaku.Builder

/-!
# Release plans (`planner.rs`)

`plan_directory` merges the sources with the assets of the active release by taking each source's path out of a map, and
compares the bytes where the lengths are equal. `plan_directory_after_pack` looks at the metadata only.
-/

namespace Hakutaku

/-- Relationship between one source asset and the active packaged release. -/
inductive AssetChange
  | added | modified | unchanged | removed
deriving DecidableEq, Repr

/-- One resource shown in a publisher build preview. -/
structure PlannedAsset where
  path : String
  sourceLen : Option UInt64
  releasedLen : Option UInt64
  access : AccessClass
  availability : Availability
  change : AssetChange
deriving DecidableEq

structure ReleasePlan where
  previousRelease : Option UInt64
  assets : List PlannedAsset
  sourceBytes : UInt64
  changedSourceBytes : UInt64
deriving DecidableEq

/-! ### The released assets by path -/

/-- `BTreeMap::insert`, on the values in the order of their paths. -/
def insertAsset (map : List AssetInfo) (asset : AssetInfo) : List AssetInfo :=
  (map.filter fun other => other.path ≠ asset.path).orderedInsert (fun a b => strBytes a.path ≤ strBytes b.path) asset

def assetMap (assets : List AssetInfo) : List AssetInfo := assets.foldl insertAsset []

/-! ### `plan_directory` -/

/-- `checked_add`, from the left. -/
def addLen (overflow : String) (total : UInt64) (source : SourceFile) : PackResult UInt64 :=
  tryU64 (total.toNat + source.len.toNat) overflow

/-- The entry of a source. -/
def SourceFile.planned (source : SourceFile) (options : PackOptions) (releasedLen : Option UInt64) (change : AssetChange) :
    PlannedAsset where
  path := source.logicalPath
  sourceLen := some source.len
  releasedLen := releasedLen
  access := (classify source).access
  availability := options.availability source.logicalPath
  change := change

def removedAsset (options : PackOptions) (asset : AssetInfo) : PlannedAsset where
  path := asset.path
  sourceLen := none
  releasedLen := some asset.len
  access := asset.access
  availability := options.availability asset.path
  change := .removed

/-- What the loop over the sources goes on with. -/
structure Planning where
  released : List AssetInfo
  comparison : Comparison
  assets : List PlannedAsset
  changedSourceBytes : UInt64

/-- The active release: the content of `game.haku`, and the segments of `data`. -/
structure ReleaseFiles where
  snapshot : Bytes
  segments : SegmentSource

section
variable [Crypto] [Target]

def openRelease (keys : RuntimeKeyMaterial) (release : ReleaseFiles) : PackResult PackageInner := do
  let P ← coreResult (PackageInner.open ideal release.snapshot release.segments keys.rootKey keys.publicKey
    .memoryConstrained .trustFirstRelease)
  if P.header.projectId ≠ keys.projectId then fail (.core .projectMismatch)
  return P

def openReleases (keys : RuntimeKeyMaterial) : Option ReleaseFiles → PackResult (Option PackageInner)
  | some release => (openRelease keys release).map some
  | none => .ok none

/-- The release the plan is compared with, if there is one. -/
def activeRelease (options : PackOptions) (keys : RuntimeKeyMaterial) (release : Option ReleaseFiles) :
    PackResult (Option PackageInner) :=
  openReleases keys (release.filter fun _ => options.incremental)

def releasedAssets : Option PackageInner → PackResult (List AssetInfo)
  | some P => coreResult P.listAssets
  | none => .ok []

/-- The relation of one source to what is released under its path. -/
def sourceChange (P : Option PackageInner) (host : Host) (c : Comparison) (source : SourceFile) :
    Option AssetInfo → PackResult (AssetChange × Comparison)
  | none => .ok (.added, c)
  | some previous =>
    match P with
    | none => .ok (.modified, c)
    | some P =>
      if previous.len = source.len then do
        let (same, c) ← assetMatchesSource P host c source
        return (if same then .unchanged else .modified, c)
      else .ok (.modified, c)

/-- One pass of the loop over the sources. -/
def planSource (options : PackOptions) (P : Option PackageInner) (host : Host) (p : Planning) (source : SourceFile) :
    PackResult Planning := do
  let previous := p.released.find? fun asset => asset.path = source.logicalPath
  let (change, comparison) ← sourceChange P host p.comparison source previous
  let changedSourceBytes ←
    if change = .added ∨ change = .modified then addLen "changed size overflow" p.changedSourceBytes source
    else .ok p.changedSourceBytes
  return {
    released := p.released.filter fun asset => asset.path ≠ source.logicalPath
    comparison, changedSourceBytes
    assets := p.assets ++ [source.planned options (previous.map AssetInfo.len) change] }

/-- `plan_directory`. The inventory is what `validate_options` and `collect_files` come to; `faults` are the failures of
the package's backend behind the opening. -/
def planDirectory (options : PackOptions) (keys : RuntimeKeyMaterial) (inventory : PackResult (List SourceFile))
    (release : Option ReleaseFiles) (host : Host) (faults : List (Option Fault)) : PackResult ReleasePlan := do
  let sources ← inventory
  let sourceBytes ← sources.foldlM (addLen "input size overflow") 0
  let P ← activeRelease options keys release
  let released ← releasedAssets P
  let p ← sources.foldlM (planSource options P host)
    ⟨assetMap released, .new (.new .memoryConstrained faults), [], 0⟩
  return {
    previousRelease := P.map fun P => P.header.releaseSequence
    assets := (p.assets ++ p.released.map (removedAsset options)).insertionSort fun a b => strBytes a.path ≤ strBytes b.path
    sourceBytes
    changedSourceBytes := p.changedSourceBytes }

/-! ### `plan_directory_after_pack` -/

/-- One pass of the loop over the sources: the assets left and the plan so far. -/
def planPacked (options : PackOptions) (p : List AssetInfo × List PlannedAsset) (source : SourceFile) :
    PackResult (List AssetInfo × List PlannedAsset) := do
  match p.1.find? fun asset => asset.path = source.logicalPath with
  | none => fail (.invalidInput ("built release is missing source asset: " ++ source.logicalPath))
  | some released =>
    if released.len ≠ source.len ∨ released.access ≠ (classify source).access then
      fail (.invalidInput ("source changed after pack: " ++ source.logicalPath))
    return (p.1.filter fun asset => asset.path ≠ source.logicalPath,
      p.2 ++ [source.planned options (some released.len) .unchanged])

/-- `plan_directory_after_pack`. -/
def planDirectoryAfterPack (options : PackOptions) (keys : RuntimeKeyMaterial) (inventory : PackResult (List SourceFile))
    (release : Option ReleaseFiles) : PackResult ReleasePlan := do
  let sources ← inventory
  let sourceBytes ← sources.foldlM (addLen "input size overflow") 0
  let release ← okOr release (.core (.io .notFound))
  let P ← openRelease keys release
  let released ← coreResult P.listAssets
  let (released, assets) ← sources.foldlM (planPacked options) (assetMap released, [])
  if let some removed := released.head? then
    fail (.invalidInput ("built release contains stale asset: " ++ removed.path))
  return { previousRelease := some P.header.releaseSequence, assets, sourceBytes, changedSourceBytes := 0 }

end

/-! ### Lists with a key -/

section
variable {α κ : Type} [DecidableEq κ] {key : α → κ} {l gone : List α} {k : κ} {a : α}

theorem find?_key_eq_some (h : (l.map key).Nodup) : l.find? (fun a => key a = k) = some a ↔ a ∈ l ∧ key a = k := by
  constructor
  · intro hfind
    exact ⟨List.mem_of_find?_eq_some hfind, by simpa using List.find?_some hfind⟩
  · rintro ⟨hmem, rfl⟩
    rcases hfind : l.find? (fun b => key b = key a) with _ | b
    · have hnone := List.find?_eq_none.1 hfind a hmem
      simp at hnone
    · have hkey : key b = key a := by simpa using List.find?_some hfind
      rw [List.inj_on_of_nodup_map h (List.mem_of_find?_eq_some hfind) hmem hkey]

/-- Taking other keys out does not change what is found. -/
theorem find?_key_filter {keys : List κ} (hk : k ∉ keys) :
    (l.filter fun a => key a ∉ keys).find? (fun a => key a = k) = l.find? fun a => key a = k := by
  rw [List.find?_filter]
  refine List.find?_congr fun a _ => ?_
  by_cases heq : key a = k
  · simp [heq, hk]
  · simp [heq]

end

/-- Assets under different paths are all in the map. -/
theorem assetMap_perm {assets : List AssetInfo} (h : (assets.map AssetInfo.path).Nodup) : (assetMap assets).Perm assets := by
  have hfold : ∀ (assets map : List AssetInfo), ((map ++ assets).map AssetInfo.path).Nodup →
      (assets.foldl insertAsset map).Perm (map ++ assets) := by
    intro assets
    induction assets with
    | nil =>
      intro map _
      rw [List.append_nil]
      exact .refl _
    | cons asset assets ih =>
      intro map hnodup
      have hfresh : (map.filter fun other => other.path ≠ asset.path) = map := by
        rw [List.filter_eq_self]
        intro other hother
        rw [List.map_append, List.nodup_append] at hnodup
        exact decide_eq_true (hnodup.2.2 _ (List.mem_map_of_mem hother) _ (List.mem_map_of_mem (List.mem_cons_self ..)))
      have hinsert : (insertAsset map asset).Perm (map ++ [asset]) := by
        rw [insertAsset, hfresh]
        exact (List.perm_orderedInsert _ _ _).trans (List.perm_append_singleton ..).symm
      have hall : (insertAsset map asset ++ assets).Perm (map ++ asset :: assets) := by
        have happend := hinsert.append_right assets
        rwa [List.append_assoc] at happend
      exact (ih _ ((hall.map _).nodup_iff.2 hnodup)).trans hall
  exact hfold assets [] h

/-! ### What a plan says -/

section
variable [Crypto] [Target]

open Classical in
/-- The change of a source, by its path and its bytes. -/
noncomputable def expectedChange (P : Option PackageInner) (released : List AssetInfo) (source : SourceFile) (content : Bytes) :
    AssetChange :=
  if ∀ asset ∈ released, asset.path ≠ source.logicalPath then .added
  else if ∃ p ∈ P, p.Holds source.logicalPath content then .unchanged
  else .modified

/-- The entry of a source in a plan against what is released. -/
noncomputable def expectedEntry (options : PackOptions) (P : Option PackageInner) (released : List AssetInfo) (source : SourceFile)
    (content : Bytes) : PlannedAsset :=
  source.planned options ((released.find? fun asset => asset.path = source.logicalPath).map AssetInfo.len)
    (expectedChange P released source content)

/-- What is released, and the package it is listed from, if there is one. -/
structure Listed (P : Option PackageInner) (released : List AssetInfo) : Prop where
  nodup : (released.map AssetInfo.path).Nodup
  first : P = none → released = []
  opened : ∀ p ∈ P, p.Coherent ∧ ∃ assets, p.listAssets = .ok assets ∧ released.Perm assets

variable {P : Option PackageInner} {released : List AssetInfo} {options : PackOptions} {host : Host} {source : SourceFile}
  {content : Bytes} {c : Comparison}

/-- An asset that is found is listed with its length. -/
theorem Listed.of_asset {p : PackageInner} (h : Listed (some p) released) {path : String} {asset : Asset p}
    (hasset : p.asset path = .ok asset) : ∃ info ∈ released, info.path = path ∧ info.len = asset.record.logicalLen := by
  obtain ⟨hP, assets, hassets, hperm⟩ := h.opened p rfl
  have hpath : p.catalog.path asset.fileIndex = .ok path := by
    obtain ⟨found, hfind, hrest⟩ := bind_eq_ok.1 hasset
    rcases found with _ | index
    · cases hrest
    · dsimp only at hrest
      split at hrest
      · cases hrest
        exact hP.wf.findFile_sound hfind
      · cases hrest
  obtain ⟨hlen, hlisted⟩ := mapM_range_eq_ok.1 hassets
  have hindex : asset.fileIndex < assets.length := hlen.symm ▸ (hP.wf.toLayout.file_eq_ok.1 asset.found).1
  have hinfo := hlisted asset.fileIndex _ (List.getElem?_eq_getElem hindex)
  rw [asset.found, ok_bind, hpath, ok_bind] at hinfo
  refine ⟨assets[asset.fileIndex], hperm.mem_iff.2 (List.getElem_mem hindex), ?_⟩
  rw [← Except.ok.inj hinfo]
  exact ⟨rfl, rfl⟩

theorem length_contents {p : PackageInner} {asset : Asset p} (h : asset.contents = .ok content) : content.length = asset.len := by
  rw [Asset.contents] at h
  rcases hbytes : asset.bytesFrom 0 asset.len (none, none) with e | ⟨bytes, v⟩
  · rw [hbytes] at h
    cases h
  · rw [hbytes] at h
    obtain rfl := Except.ok.inj h
    exact Asset.length_bytesFrom hbytes

/-- One source against what is released under its path: the right change, whenever there is one; and there is, unless an
asset of the same length cannot be read. -/
theorem sourceChange_spec (h : Listed P released) (hc : ∀ p ∈ P, c.Ok p) (hsource : host.Shows source content) :
    (∀ change c', sourceChange P host c source (released.find? fun asset => asset.path = source.logicalPath) =
        .ok (change, c') → change = expectedChange P released source content ∧ ∀ p ∈ P, c'.Ok p) ∧
      ((∀ p ∈ P, ∀ asset ∈ released, asset.path = source.logicalPath → asset.len = source.len →
        ∃ bytes, p.Holds source.logicalPath bytes) →
        ∃ out, sourceChange P host c source (released.find? fun asset => asset.path = source.logicalPath) = .ok out) := by
  rcases hfind : released.find? (fun asset => asset.path = source.logicalPath) with _ | previous
  · have hnew : ∀ asset ∈ released, asset.path ≠ source.logicalPath := by
      simpa using List.find?_eq_none.1 hfind
    rw [hfind]
    refine ⟨?_, fun _ => ⟨(.added, c), rfl⟩⟩
    rintro change c' ⟨⟩
    exact ⟨(if_pos hnew).symm, hc⟩
  · obtain ⟨hmem, hpath⟩ := (find?_key_eq_some h.nodup).1 hfind
    have hold : ¬ ∀ asset ∈ released, asset.path ≠ source.logicalPath := fun hnew => hnew previous hmem hpath
    rcases P with _ | p
    · rw [h.first rfl] at hmem
      cases hmem
    · have hunchanged (hholds : p.Holds source.logicalPath content) :
          expectedChange (some p) released source content = .unchanged :=
        (if_neg hold).trans (if_pos ⟨p, rfl, hholds⟩)
      have hmodified (hdiffers : ¬ p.Holds source.logicalPath content) :
          expectedChange (some p) released source content = .modified := by
        refine (if_neg hold).trans (if_neg ?_)
        rintro ⟨_, ⟨⟩, hholds⟩
        exact hdiffers hholds
      have hlength {asset : Asset p} (hasset : p.asset source.logicalPath = .ok asset) :
          previous.len = asset.record.logicalLen := by
        obtain ⟨info, hinfo, hinfopath, hinfolen⟩ := h.of_asset hasset
        rw [← hinfolen, List.inj_on_of_nodup_map h.nodup hmem hinfo (hpath.trans hinfopath.symm)]
      simp only [hfind, sourceChange]
      by_cases hlen : previous.len = source.len
      · simp only [if_pos hlen, bind_eq_ok, pure_eq_ok, Except.ok.injEq, Prod.mk.injEq]
        have hspec {asset : Asset p} (hasset : p.asset source.logicalPath = .ok asset) :=
          assetMatchesSource_spec (h.opened p rfl).1 (hc p rfl) hsource hasset
            (show asset.record.logicalLen.toNat = _ by rw [← hlength hasset, hlen])
        constructor
        · rintro change c' ⟨⟨same, c₁⟩, hmatch, rfl, rfl⟩
          obtain ⟨asset, hasset⟩ : ∃ asset, p.asset source.logicalPath = .ok asset := by
            obtain ⟨⟨file, reader⟩, -, hrest⟩ := bind_eq_ok.1 hmatch
            obtain ⟨asset, hasset, -⟩ := bind_eq_ok.1 hrest
            exact ⟨asset, coreResult_eq_ok.1 hasset⟩
          obtain ⟨hok, hverdict⟩ := (hspec hasset).1 same c₁ hmatch
          refine ⟨?_, fun q hq => Option.some.inj hq ▸ hok⟩
          cases same with
          | true => exact (hunchanged ⟨asset, hasset, hverdict.1 rfl⟩).symm
          | false =>
            refine (hmodified ?_).symm
            rintro ⟨asset', hasset', hcontents⟩
            obtain rfl : asset = asset' := Except.ok.inj (hasset.symm.trans hasset')
            cases hverdict.2 hcontents
        · intro hreadable
          obtain ⟨bytes, asset, hasset, hcontents⟩ := hreadable p rfl previous hmem hpath hlen
          obtain ⟨out, hmatch⟩ := (hspec hasset).2 ⟨bytes, hcontents⟩
          exact ⟨_, out, hmatch, rfl⟩
      · simp only [if_neg hlen, Except.ok.injEq, Prod.mk.injEq]
        refine ⟨?_, fun _ => ⟨(.modified, c), rfl⟩⟩
        rintro change c' ⟨rfl, rfl⟩
        refine ⟨(hmodified ?_).symm, hc⟩
        rintro ⟨asset, hasset, hcontents⟩
        refine hlen (UInt64.toNat_inj.1 ?_)
        obtain ⟨file, -, hshown⟩ := hsource
        rw [hlength hasset, ← hshown.length, length_contents hcontents]
        rfl

variable {p p' : Planning} {sources : List SourceFile} {contents : SourceFile → Bytes} {done : List String}

/-- The bytes of the sources that are added or modified. -/
noncomputable def changedBytes (P : Option PackageInner) (released : List AssetInfo) (contents : SourceFile → Bytes)
    (sources : List SourceFile) : Nat :=
  (sources.map fun source =>
    if expectedChange P released source (contents source) = .unchanged then 0 else source.len.toNat).sum

/-- Every released asset under a source's path and of its length can be read. -/
def Comparable (P : Option PackageInner) (released : List AssetInfo) (source : SourceFile) : Prop :=
  ∀ p ∈ P, ∀ asset ∈ released, asset.path = source.logicalPath → asset.len = source.len →
    ∃ bytes, p.Holds source.logicalPath bytes

theorem expectedChange_cases (P : Option PackageInner) (released : List AssetInfo) (source : SourceFile) (content : Bytes) :
    (expectedChange P released source content = .added ∨ expectedChange P released source content = .modified) ↔
      expectedChange P released source content ≠ .unchanged := by
  rw [expectedChange]
  split
  · simp
  · split
    · simp
    · simp

omit [Crypto] [Target] in
theorem addLen_eq_ok {overflow : String} {total total' : UInt64} :
    addLen overflow total source = .ok total' ↔ total'.toNat = total.toNat + source.len.toNat := by
  rw [addLen, tryU64_eq_ok]
  constructor
  · rintro ⟨hlt, rfl⟩
    exact UInt64.toNat_ofNat_of_lt' hlt
  · intro heq
    refine ⟨heq.symm.trans_lt total'.toNat_lt, ?_⟩
    rw [← heq, UInt64.ofNat_toNat]

omit [Crypto] [Target] in
/-- The changed bytes behind one source. -/
theorem addChanged_eq_ok (overflow : String) {change : AssetChange} {total total' : UInt64}
    (hchange : (change = .added ∨ change = .modified) ↔ change ≠ .unchanged) :
    (if change = .added ∨ change = .modified then addLen overflow total source else .ok total) = .ok total' ↔
      total'.toNat = total.toNat + (if change = .unchanged then 0 else source.len.toNat) := by
  by_cases hsame : change = .unchanged
  · rw [if_neg (fun hor => hchange.1 hor hsame), if_pos hsame, Nat.add_zero, Except.ok.injEq, UInt64.toNat_inj, eq_comm]
  · rw [if_pos (hchange.2 hsame), if_neg hsame, addLen_eq_ok]

omit [Crypto] [Target] in
theorem addLens_eq_ok {overflow : String} {sources : List SourceFile} {total total' : UInt64} :
    sources.foldlM (addLen overflow) total = .ok total' ↔
      total'.toNat = total.toNat + (sources.map fun source => source.len.toNat).sum := by
  induction sources generalizing total with
  | nil => rw [List.foldlM_nil, pure_eq_ok, Except.ok.injEq, ← UInt64.toNat_inj, eq_comm, List.map_nil, List.sum_nil, Nat.add_zero]
  | cons source sources ih =>
    simp only [List.foldlM_cons, bind_eq_ok, addLen_eq_ok, ih, List.map_cons, List.sum_cons]
    constructor
    · rintro ⟨middle, hmiddle, htotal⟩
      omega
    · intro htotal
      have hlt := total'.toNat_lt
      refine ⟨UInt64.ofNat (total.toNat + source.len.toNat), ?_, ?_⟩
      · exact UInt64.toNat_ofNat_of_lt' (show _ < 2 ^ 64 by omega)
      · rw [UInt64.toNat_ofNat_of_lt' (show _ < 2 ^ 64 by omega)]
        omega

/-- The loop over the sources: the entries in order, what is left of the release, and the sum. -/
theorem planSources_spec (options : PackOptions) (h : Listed P released) (hsources : ∀ source ∈ sources, host.Shows source (contents source))
    (hnodup : (done ++ sources.map SourceFile.logicalPath).Nodup)
    (hp : p.released = released.filter fun asset => asset.path ∉ done) (hc : ∀ q ∈ P, p.comparison.Ok q) :
    (∀ p', sources.foldlM (planSource options P host) p = .ok p' →
      p'.released = (released.filter fun asset => asset.path ∉ done ++ sources.map SourceFile.logicalPath) ∧
        p'.assets = p.assets ++ sources.map (fun source => expectedEntry options P released source (contents source)) ∧
        p'.changedSourceBytes.toNat = p.changedSourceBytes.toNat + changedBytes P released contents sources) ∧
      ((∀ source ∈ sources, Comparable P released source) →
        p.changedSourceBytes.toNat + changedBytes P released contents sources < u64Size →
        ∃ p', sources.foldlM (planSource options P host) p = .ok p') := by
  induction sources generalizing p done with
  | nil =>
    refine ⟨?_, fun _ _ => ⟨p, rfl⟩⟩
    rintro p' ⟨⟩
    simp [hp, changedBytes]
  | cons source sources ih =>
    rw [List.forall_mem_cons] at hsources
    have hsplit : (done ++ [source.logicalPath] ++ sources.map SourceFile.logicalPath) =
        done ++ (source :: sources).map SourceFile.logicalPath := by
      rw [List.append_assoc]
      rfl
    have hfresh : source.logicalPath ∉ done := fun hmem =>
      (List.nodup_append.1 hnodup).2.2 _ hmem _ (List.mem_map_of_mem (List.mem_cons_self ..)) rfl
    have hfind : (p.released.find? fun asset => asset.path = source.logicalPath) =
        released.find? fun asset => asset.path = source.logicalPath := by
      rw [hp]
      exact find?_key_filter hfresh
    have hleft : (p.released.filter fun asset => asset.path ≠ source.logicalPath) =
        released.filter fun asset => asset.path ∉ done ++ [source.logicalPath] := by
      rw [hp, List.filter_filter]
      refine List.filter_congr fun asset _ => ?_
      simp [and_comm]
    have hunfold : planSource options P host p source =
        sourceChange P host p.comparison source (released.find? fun asset => asset.path = source.logicalPath) >>= fun x =>
          (if x.1 = .added ∨ x.1 = .modified then addLen "changed size overflow" p.changedSourceBytes source
            else .ok p.changedSourceBytes) >>= fun total => .ok {
              released := p.released.filter fun asset => asset.path ≠ source.logicalPath
              comparison := x.2
              assets := p.assets ++ [source.planned options
                ((released.find? fun asset => asset.path = source.logicalPath).map AssetInfo.len) x.1]
              changedSourceBytes := total } := by
      rw [planSource, hfind]
      refine bind_congr_ok fun ⟨change, c'⟩ _ => ?_
      dsimp only
      split
      · rfl
      · rfl
    obtain ⟨hspec, hends⟩ := sourceChange_spec h hc hsources.1
    have hcases := expectedChange_cases P released source (contents source)
    have hbytes : changedBytes P released contents (source :: sources) =
        (if expectedChange P released source (contents source) = .unchanged then 0 else source.len.toNat) +
          changedBytes P released contents sources := rfl
    rw [List.foldlM_cons, hunfold]
    constructor
    · intro p' hloop
      obtain ⟨p₁, hfirst, hrest⟩ := bind_eq_ok.1 hloop
      obtain ⟨⟨change, c'⟩, hchange, hfirst⟩ := bind_eq_ok.1 hfirst
      obtain ⟨total, htotal, hfirst⟩ := bind_eq_ok.1 hfirst
      obtain ⟨rfl, hc'⟩ := hspec change c' hchange
      obtain rfl := Except.ok.inj hfirst
      obtain ⟨hreleased, hassets, hsum⟩ := (ih hsources.2 (hsplit.symm ▸ hnodup) hleft hc').1 p' hrest
      refine ⟨hsplit ▸ hreleased, ?_, ?_⟩
      · rw [hassets, List.append_assoc]
        rfl
      · rw [hsum, (addChanged_eq_ok _ hcases).1 htotal, hbytes, Nat.add_assoc]
    · intro hreadable hfits
      rw [List.forall_mem_cons] at hreadable
      obtain ⟨⟨change, c'⟩, hchange⟩ := hends hreadable.1
      obtain ⟨rfl, hc'⟩ := hspec change c' hchange
      rw [hbytes] at hfits
      have htotal := UInt64.toNat_ofNat_of_lt' (show p.changedSourceBytes.toNat +
        (if expectedChange P released source (contents source) = .unchanged then 0 else source.len.toNat) < 2 ^ 64 from
          (Nat.add_le_add_left (Nat.le_add_right _ _) _).trans_lt hfits)
      have hadded := (addChanged_eq_ok "changed size overflow" hcases).2 htotal
      obtain ⟨p', hrest⟩ := (ih (p := ⟨_, c', _, _⟩) hsources.2 (hsplit.symm ▸ hnodup) hleft hc').2 hreadable.2 (by
        rw [htotal, Nat.add_assoc]
        exact hfits)
      exact ⟨p', bind_eq_ok.2 ⟨_, bind_eq_ok.2 ⟨_, hchange, bind_eq_ok.2 ⟨_, hadded, rfl⟩⟩, hrest⟩⟩

/-! ### Whole plans -/

variable {keys : RuntimeKeyMaterial} {release : Option ReleaseFiles} {faults : List (Option Fault)} {assets : List AssetInfo}
  {plan : ReleasePlan}

/-- The entries of a plan, before they are sorted. -/
noncomputable def expectedEntries (options : PackOptions) (P : Option PackageInner) (released : List AssetInfo)
    (contents : SourceFile → Bytes) (sources : List SourceFile) : List PlannedAsset :=
  sources.map (fun source => expectedEntry options P released source (contents source)) ++
    (released.filter fun asset => asset.path ∉ sources.map SourceFile.logicalPath).map (removedAsset options)

/-- The plan of these sources against what is released. -/
noncomputable def expectedPlan (options : PackOptions) (P : Option PackageInner) (released : List AssetInfo)
    (contents : SourceFile → Bytes) (sources : List SourceFile) : ReleasePlan where
  previousRelease := P.map fun P => P.header.releaseSequence
  assets := (expectedEntries options P released contents sources).insertionSort fun a b => strBytes a.path ≤ strBytes b.path
  sourceBytes := UInt64.ofNat (sources.map fun source => source.len.toNat).sum
  changedSourceBytes := UInt64.ofNat (changedBytes P released contents sources)

theorem Listed.of_assets (hP : ∀ p ∈ P, p.Coherent) (hassets : releasedAssets P = .ok assets)
    (hnodup : (assets.map AssetInfo.path).Nodup) : Listed P (assetMap assets) where
  nodup := ((assetMap_perm hnodup).map _).nodup_iff.2 hnodup
  first := by
    rintro rfl
    cases hassets
    rfl
  opened p hp := by
    obtain rfl : P = some p := hp
    exact ⟨hP p rfl, assets, coreResult_eq_ok.1 hassets, assetMap_perm hnodup⟩

/-- A plan that succeeds is the expected one; and one does, unless an asset as long as its source cannot be read or a sum
does not fit. -/
theorem planDirectory_spec (hP : ∀ p ∈ P, p.Coherent) (hactive : activeRelease options keys release = .ok P)
    (hassets : releasedAssets P = .ok assets) (hpaths : (assets.map AssetInfo.path).Nodup) (hfaults : ∀ fault, some fault ∉ faults)
    (hsources : ∀ source ∈ sources, host.Shows source (contents source))
    (hnodup : (sources.map SourceFile.logicalPath).Nodup) :
    (∀ plan, planDirectory options keys (.ok sources) release host faults = .ok plan →
      plan = expectedPlan options P (assetMap assets) contents sources ∧
        (sources.map fun source => source.len.toNat).sum < u64Size ∧
        changedBytes P (assetMap assets) contents sources < u64Size) ∧
      ((∀ source ∈ sources, Comparable P (assetMap assets) source) → (sources.map fun source => source.len.toNat).sum < u64Size →
        planDirectory options keys (.ok sources) release host faults =
          .ok (expectedPlan options P (assetMap assets) contents sources)) := by
  have hlisted := Listed.of_assets hP hassets hpaths
  have hleft : (assetMap assets) = (assetMap assets).filter fun asset => asset.path ∉ ([] : List String) := by simp
  obtain ⟨hspec, hends⟩ := planSources_spec options
    (p := ⟨assetMap assets, .new (.new .memoryConstrained faults), [], 0⟩) hlisted hsources
    (show ([] ++ sources.map SourceFile.logicalPath).Nodup from hnodup) hleft
    (fun q _ => .new (.new q _ fun fault hmem => hfaults fault hmem))
  have hle : changedBytes P (assetMap assets) contents sources ≤ (sources.map fun source => source.len.toNat).sum := by
    refine List.sum_le_sum fun source _ => ?_
    split
    · exact Nat.zero_le _
    · exact le_refl _
  rw [planDirectory, ok_bind, hactive]
  constructor
  · intro plan hplan
    obtain ⟨total, htotal, hplan⟩ := bind_eq_ok.1 hplan
    rw [ok_bind, hassets, ok_bind] at hplan
    obtain ⟨p', hloop, hplan⟩ := bind_eq_ok.1 hplan
    obtain ⟨hreleased, hentries, hsum⟩ := hspec p' hloop
    rw [addLens_eq_ok, UInt64.toNat_zero, Nat.zero_add] at htotal
    rw [UInt64.toNat_zero, Nat.zero_add] at hsum
    cases hplan
    refine ⟨?_, htotal.symm.trans_lt total.toNat_lt, hsum.symm.trans_lt p'.changedSourceBytes.toNat_lt⟩
    rw [hentries, hreleased, expectedPlan, ← htotal, ← hsum, UInt64.ofNat_toNat, UInt64.ofNat_toNat]
    rfl
  · intro hreadable hfits
    have htotal : sources.foldlM (addLen "input size overflow") 0 =
        .ok (UInt64.ofNat (sources.map fun source => source.len.toNat).sum) := by
      rw [addLens_eq_ok, UInt64.toNat_ofNat_of_lt' hfits]
      exact (Nat.zero_add _).symm
    obtain ⟨p', hloop⟩ := hends hreadable (by
      rw [UInt64.toNat_zero, Nat.zero_add]
      exact hle.trans_lt hfits)
    obtain ⟨hreleased, hentries, hsum⟩ := hspec p' hloop
    rw [UInt64.toNat_zero, Nat.zero_add] at hsum
    rw [htotal, ok_bind, ok_bind, hassets, ok_bind, hloop, ok_bind, pure_eq_ok, hentries, hreleased, expectedPlan, ← hsum,
      UInt64.ofNat_toNat]
    rfl

/-! ### The fast plan -/

theorem openReleases_some {files : ReleaseFiles} :
    openReleases keys (some files) = .ok P ↔ ∃ p, openRelease keys files = .ok p ∧ some p = P := by
  rw [openReleases]
  rcases openRelease keys files with e | p
  · exact iff_of_false nofun nofun
  · exact ⟨fun h => ⟨p, rfl, Except.ok.inj h⟩, fun ⟨_, hp, h⟩ => Except.ok.inj hp ▸ congrArg Except.ok h⟩

theorem planDirectoryAfterPack_none : planDirectoryAfterPack options keys (.ok sources) none ≠ .ok plan := by
  intro hfast
  obtain ⟨_, -, hfast⟩ := bind_eq_ok.1 hfast
  obtain ⟨_, -, hfast⟩ := bind_eq_ok.1 hfast
  cases hfast

/-- A source whose path is released with its length and its class. -/
def Packed (released : List AssetInfo) (source : SourceFile) : Prop :=
  ∃ asset ∈ released, asset.path = source.logicalPath ∧ asset.len = source.len ∧ asset.access = (classify source).access

section
variable {done : List String} {planned : List PlannedAsset} {out : List AssetInfo × List PlannedAsset}

omit [Crypto] [Target] in
theorem planPacked_eq_ok (hreleased : (released.map AssetInfo.path).Nodup) :
    planPacked options (released, planned) source = .ok out ↔ Packed released source ∧
      out = (released.filter fun asset => asset.path ≠ source.logicalPath,
        planned ++ [source.planned options (some source.len) .unchanged]) := by
  rw [planPacked]
  rcases hfind : released.find? (fun asset => asset.path = source.logicalPath) with _ | asset
  · simp only [hfind]
    refine iff_of_false fail_ne_ok ?_
    rintro ⟨⟨asset, hasset, hpath, -⟩, -⟩
    simpa [hpath] using List.find?_eq_none.1 hfind asset hasset
  · obtain ⟨hmem, hpath⟩ := (find?_key_eq_some hreleased).1 hfind
    simp only [hfind]
    by_cases hdiffers : asset.len ≠ source.len ∨ asset.access ≠ (classify source).access
    · rw [if_pos hdiffers]
      refine iff_of_false fail_ne_ok ?_
      rintro ⟨⟨other, hother, hotherpath, hlen, haccess⟩, -⟩
      obtain rfl := List.inj_on_of_nodup_map hreleased hmem hother (hpath.trans hotherpath.symm)
      exact hdiffers.elim (· hlen) (· haccess)
    · rw [if_neg hdiffers]
      rw [not_or, not_ne_iff, not_ne_iff] at hdiffers
      rw [pure_eq_ok, Except.ok.injEq, hdiffers.1, eq_comm]
      exact (and_iff_right ⟨asset, hmem, hpath, hdiffers⟩).symm

omit [Crypto] [Target] in
theorem Packed.filter_iff (hfresh : source.logicalPath ∉ done) :
    Packed (released.filter fun asset => asset.path ∉ done) source ↔ Packed released source := by
  refine exists_congr fun asset => ?_
  rw [List.mem_filter, and_assoc]
  refine and_congr_right fun _ => and_iff_right_of_imp ?_
  rintro ⟨hpath, -⟩
  exact decide_eq_true (hpath ▸ hfresh)

omit [Crypto] [Target] in
/-- The loop of the fast plan ends iff each source is packed. -/
theorem planPackeds_eq_ok (hreleased : (released.map AssetInfo.path).Nodup)
    (hnodup : (done ++ sources.map SourceFile.logicalPath).Nodup) :
    sources.foldlM (planPacked options) (released.filter fun asset => asset.path ∉ done, planned) = .ok out ↔
      (∀ source ∈ sources, Packed released source) ∧
        out = (released.filter fun asset => asset.path ∉ done ++ sources.map SourceFile.logicalPath,
          planned ++ sources.map fun source => source.planned options (some source.len) .unchanged) := by
  induction sources generalizing done planned with
  | nil => simp [eq_comm]
  | cons source sources ih =>
    have hsplit : (done ++ [source.logicalPath] ++ sources.map SourceFile.logicalPath) =
        done ++ (source :: sources).map SourceFile.logicalPath := by
      rw [List.append_assoc]
      rfl
    have hfresh : source.logicalPath ∉ done := fun hmem =>
      (List.nodup_append.1 hnodup).2.2 _ hmem _ (List.mem_map_of_mem (List.mem_cons_self ..)) rfl
    have hleft : ((released.filter fun asset => asset.path ∉ done).filter fun asset => asset.path ≠ source.logicalPath) =
        released.filter fun asset => asset.path ∉ done ++ [source.logicalPath] := by
      rw [List.filter_filter]
      refine List.filter_congr fun asset _ => ?_
      simp [and_comm]
    have hdone : ((released.filter fun asset => asset.path ∉ done).map AssetInfo.path).Nodup :=
      hreleased.sublist (List.filter_sublist.map _)
    simp only [List.foldlM_cons, bind_eq_ok, planPacked_eq_ok hdone, Packed.filter_iff hfresh, List.forall_mem_cons]
    constructor
    · rintro ⟨_, ⟨hpacked, rfl⟩, hrest⟩
      rw [hleft, ih (hsplit ▸ hnodup), hsplit, List.append_assoc] at hrest
      exact ⟨⟨hpacked, hrest.1⟩, hrest.2⟩
    · rintro ⟨⟨hpacked, hrest⟩, rfl⟩
      refine ⟨_, ⟨hpacked, rfl⟩, ?_⟩
      rw [hleft, ih (hsplit ▸ hnodup), hsplit, List.append_assoc]
      exact ⟨hrest, rfl⟩

end

/-- When the fast plan succeeds, and what it is. -/
theorem planDirectoryAfterPack_eq_ok {p : PackageInner} {files : ReleaseFiles} (hopen : openRelease keys files = .ok p)
    (hassets : p.listAssets = .ok assets) (hpaths : (assets.map AssetInfo.path).Nodup)
    (hnodup : (sources.map SourceFile.logicalPath).Nodup) :
    planDirectoryAfterPack options keys (.ok sources) (some files) = .ok plan ↔
      (∀ source ∈ sources, Packed assets source) ∧ (∀ asset ∈ assets, asset.path ∈ sources.map SourceFile.logicalPath) ∧
        (sources.map fun source => source.len.toNat).sum < u64Size ∧
        plan = {
          previousRelease := some p.header.releaseSequence
          assets := sources.map fun source => source.planned options (some source.len) .unchanged
          sourceBytes := UInt64.ofNat (sources.map fun source => source.len.toNat).sum
          changedSourceBytes := 0 } := by
  have hperm := assetMap_perm hpaths
  have hpacked : (∀ source ∈ sources, Packed (assetMap assets) source) ↔ ∀ source ∈ sources, Packed assets source := by
    simp only [Packed, hperm.mem_iff]
  have hstale : ((assetMap assets).filter fun asset => asset.path ∉ [] ++ sources.map SourceFile.logicalPath) = [] ↔
      ∀ asset ∈ assets, asset.path ∈ sources.map SourceFile.logicalPath := by
    simp only [List.nil_append, List.filter_eq_nil_iff, hperm.mem_iff, decide_eq_true_eq, not_not]
  have hall : ((assetMap assets).filter fun asset => asset.path ∉ ([] : List String)) = assetMap assets := by simp
  have hfold {out : List AssetInfo × List PlannedAsset} :
      sources.foldlM (planPacked options) (assetMap assets, []) = .ok out ↔
        (∀ source ∈ sources, Packed (assetMap assets) source) ∧
          out = ((assetMap assets).filter fun asset => asset.path ∉ [] ++ sources.map SourceFile.logicalPath,
            [] ++ sources.map fun source => source.planned options (some source.len) .unchanged) := by
    rw [← planPackeds_eq_ok ((hperm.map _).nodup_iff.2 hpaths)
      (show ([] ++ sources.map SourceFile.logicalPath).Nodup from hnodup), hall]
  have hunfold : planDirectoryAfterPack options keys (.ok sources) (some files) =
      sources.foldlM (addLen "input size overflow") 0 >>= fun sourceBytes =>
        sources.foldlM (planPacked options) (assetMap assets, []) >>= fun out =>
          out.1.head?.elim
            (.ok {
              previousRelease := some p.header.releaseSequence
              assets := out.2
              sourceBytes, changedSourceBytes := 0 })
            fun removed => fail (.invalidInput ("built release contains stale asset: " ++ removed.path)) := by
    rw [planDirectoryAfterPack, ok_bind]
    refine bind_congr_ok fun sourceBytes _ => ?_
    simp only [okOr, ok_bind, hopen, coreResult_eq_ok.2 hassets]
    refine bind_congr_ok fun out _ => ?_
    obtain ⟨left, entries⟩ := out
    rcases left with _ | ⟨removed, left⟩
    · rfl
    · rfl
  simp only [hunfold, bind_eq_ok, addLens_eq_ok, hfold, hpacked, List.nil_append]
  constructor
  · rintro ⟨total, htotal, _, ⟨hsources, rfl⟩, hplan⟩
    dsimp only at hplan
    rcases hhead : ((assetMap assets).filter fun asset => asset.path ∉ sources.map SourceFile.logicalPath).head? with _ | removed
    · rw [hhead] at hplan
      rw [UInt64.toNat_zero, Nat.zero_add] at htotal
      refine ⟨hsources, hstale.1 (List.head?_eq_none_iff.1 hhead), htotal.symm.trans_lt total.toNat_lt, ?_⟩
      rw [← htotal, UInt64.ofNat_toNat]
      exact (Except.ok.inj hplan).symm
    · rw [hhead] at hplan
      exact absurd hplan fail_ne_ok
  · rintro ⟨hsources, hnone, hfits, rfl⟩
    have htotal := UInt64.toNat_ofNat_of_lt' hfits
    refine ⟨_, htotal.trans (Nat.zero_add _).symm, _, ⟨hsources, rfl⟩, ?_⟩
    rw [List.nil_append] at hstale
    rw [hstale.2 hnone]
    rfl

omit [Crypto] [Target] in
theorem NoPanic.foldlM {α β ε : Type} {f : β → α → Outcome ε β} (hf : ∀ b a, NoPanic (f b a)) (l : List α) (b : β) :
    NoPanic (l.foldlM f b) := by
  induction l generalizing b with
  | nil => exact .ok _
  | cons a l ih =>
    rw [List.foldlM_cons]
    exact .bind (hf b a) fun _ _ => ih _

/-- Behind the opening the fast plan does not panic. -/
theorem planDirectoryAfterPack_noPanic (hopen : openReleases keys release = .ok P) (hassets : releasedAssets P = .ok assets) :
    NoPanic (planDirectoryAfterPack options keys (.ok sources) release) := by
  refine .bind (.ok _) fun _ _ => .bind (.foldlM (fun total source => ?_) _ _) fun _ _ => ?_
  · exact .ite (fun _ => .ok _) fun _ => .fail _
  · rcases release with _ | files
    · exact .fail _
    · obtain ⟨p, hp, rfl⟩ := openReleases_some.1 hopen
      refine .bind (.ok _) fun _ hfound => ?_
      obtain rfl := Except.ok.inj hfound
      refine .bind (.of_eq_ok hp) fun _ hfound => ?_
      obtain rfl := Except.ok.inj (hp.symm.trans hfound)
      refine .bind (.of_eq_ok hassets) fun _ _ => .bind (.foldlM (fun left source => ?_) _ _) fun ⟨left, entries⟩ _ => ?_
      · unfold planPacked
        split
        · exact .fail _
        · exact .failIf fun _ => .ok _
      · dsimp only
        split
        · exact .bind (.fail _) fun _ _ => .ok _
        · exact .ok _

end

end Hakutaku
