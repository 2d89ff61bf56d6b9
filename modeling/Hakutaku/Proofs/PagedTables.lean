import Hakutaku.SealedPages
import Hakutaku.CatalogCodec
import Hakutaku.ReaderSpec

/-!
# The paged tables round trip

What `build_pages` makes of `n` references and `n` chunk ids passes the page rules of `Catalog::parse`, and the readers
of the tables return the references and the pairs. Map pages and reuse pages cut the same index range differently; both
cuts are at the multiples of a page's capacity.
-/

namespace Hakutaku
open Wire Act

namespace CatalogData
variable {d : CatalogData}

/-- The rules of `Catalog::parse` about the page directory. -/
structure PageRules (d : CatalogData) : Prop where
  count : d.pages.length ≤ maxPages
  kinds : d.mapPageCount.toNat + d.reusePageCount.toNat = d.pages.length
  mapPages : d.mapPageCount.toNat = divCeil d.totalBlocks.toNat blocksPerMapPage
  reusePages : d.reusePageCount.toNat = divCeil d.totalBlocks.toNat reusePerPage
  pages : ∀ i r, d.pages[i]? = some r → r.Valid ∧ r.kind = d.view.pageKind i ∧ r.nonceOrdinal.toNat = i + 1 ∧
    r.plainLen.toNat = pageHeaderSize + d.view.recordCount i * (d.view.pageKind i).recordSize ∧
    r.relativeOffset.toNat = d.pageStart i ∧ d.pageStart i + r.storedLen.toNat < u64Size

/-- Its rules about the other tables. -/
structure TableRules (d : CatalogData) : Prop where
  segments : ∀ r ∈ d.segments, r.fileLen.toNat = segmentHeaderSize + r.payloadLen.toNat
  files : ∀ r ∈ d.files, r.Valid ∧ r.pathLen.toNat ≠ 0 ∧ r.pathOffset.toNat + r.pathLen.toNat ≤ d.pathPool.length ∧
    r.firstBlock.toNat + r.blockCount.toNat ≤ d.totalBlocks.toNat ∧
    ∃ p, slice d.pathPool r.pathOffset.toNat r.pathLen.toNat = strBytes p ∧ Canonical p
  slots : ∀ r ∈ d.pathSlots, r.fileIndex ≠ emptyPathSlot → r.fileIndex.toNat < d.files.length

theorem Encodable.valid_iff (h : d.Encodable) : d.Valid ↔ d.PageRules ∧ d.TableRules := by
  constructor
  · intro hv
    exact ⟨⟨h.pages, h.kinds, hv.mapPages, hv.reusePages, hv.pages⟩, hv.segments, hv.files, hv.slots⟩
  · rintro ⟨hp, ht⟩
    exact ⟨hp.mapPages, hp.reusePages, ht.segments, ht.files, ht.slots, hp.pages⟩

/-- The parser accepts a catalog exactly if both sets of rules hold. -/
theorem Encodable.parse_iff [Target] (h : d.Encodable) :
    (∃ c, Catalog.parse d.wire = .ok c) ↔ d.PageRules ∧ d.TableRules := by
  rw [← h.valid_iff]
  constructor
  · rintro ⟨c, hc⟩
    exact (Catalog.eq_view_of_parse h hc).2
  · intro hv
    exact ⟨_, parse_wire h hv⟩

/-- A catalog over `blocks` blocks with the directory of the pages. -/
structure Lists (d : CatalogData) (blocks : Nat) (pages : EncryptedPages) : Prop where
  directory : d.pages = pages.directory
  totalBlocks : d.totalBlocks.toNat = blocks
  mapCount : d.mapPageCount = pages.mapCount
  reuseCount : d.reusePageCount = pages.reuseCount

end CatalogData

section
variable [Crypto] {w : PageSealer} {blockRefs : List BlockRef} {chunkIds : List (ByteArr 32)} {pages : EncryptedPages}
  {maps reuses : List SealedPage} {d : CatalogData} {i : Nat} {x : SealedPage}

/-! ### The directory -/

omit [Crypto] in
/-- A page is the map page or the reuse page of its index. -/
theorem page_cases (hx : (maps ++ reuses)[i]? = some x) :
    (i < maps.length ∧ maps[i]? = some x) ∨ ∃ j, i = maps.length + j ∧ j < reuses.length ∧ reuses[j]? = some x := by
  rcases Nat.lt_or_ge i maps.length with hlt | hge
  · exact .inl ⟨hlt, by rwa [List.getElem?_append_left hlt] at hx⟩
  · rw [List.getElem?_append_right hge] at hx
    exact .inr ⟨i - maps.length, by omega, (List.getElem?_eq_some_iff.1 hx).1, hx⟩

namespace EncryptedPages.Tables
variable (h : pages.Tables w blockRefs chunkIds maps reuses)
include h

theorem length_le (hlen : chunkIds.length = blockRefs.length) (hmax : blockRefs.length ≤ maxBlocks) :
    (maps ++ reuses).length ≤ maxPages := by
  have hcount := pageCount_le hmax
  rw [List.length_append, h.mapPages, h.reusePages, hlen]
  exact hcount

theorem stop_lt (hlen : chunkIds.length = blockRefs.length) (hmax : blockRefs.length ≤ maxBlocks)
    (hx : (maps ++ reuses)[i]? = some x) :
    SealedPage.start (maps ++ reuses) i + x.record.storedLen.toNat < u64Size := by
  have hi := (List.getElem?_eq_some_iff.1 hx).1
  have hcount := h.length_le hlen hmax
  have hstart := PageRegion.Sealed.start_le h.each (Nat.succ_le_of_lt hi)
  have hmul : (i + 1) * u32Size ≤ 100000 * 2 ^ 32 := Nat.mul_le_mul (by simp only [maxPages] at hcount; omega) le_rfl
  rw [Nat.succ_eq_add_one, SealedPage.start_succ hx, ← (h.each i x hx).storedLen] at hstart
  show _ < 2 ^ 64
  omega

theorem region_lt (hlen : chunkIds.length = blockRefs.length) (hmax : blockRefs.length ≤ maxBlocks) :
    pages.ciphertexts.flatten.length < u64Size := by
  have hcount := h.length_le hlen hmax
  have hstart := PageRegion.Sealed.start_le h.each le_rfl
  have hmul : (maps ++ reuses).length * u32Size ≤ 100000 * 2 ^ 32 := Nat.mul_le_mul hcount le_rfl
  have hall := SealedPage.start_eq_length (maps ++ reuses) (maps ++ reuses).length
  rw [List.take_length] at hall
  rw [h.ciphertexts, ← hall]
  show _ < 2 ^ 64
  omega

variable (hd : d.Lists blockRefs.length pages)
include hd

theorem view_mapPageCount : d.view.mapPageCount.toNat = maps.length := by
  show d.mapPageCount.toNat = _
  rw [hd.mapCount, h.mapCount]

/-- The catalog's kind, local index and record count of a map page. -/
theorem view_mapPage (hi : i < maps.length) :
    d.view.pageKind i = .blockMap ∧ d.view.localPage i = i ∧
      d.view.recordCount i = ((blockRefs.drop (i * blocksPerMapPage)).take blocksPerMapPage).length := by
  have hkind : d.view.pageKind i = .blockMap := Catalog.pageKind_of_lt (by rw [h.view_mapPageCount hd]; exact hi)
  have hlocal : d.view.localPage i = i := by
    unfold Catalog.localPage
    rw [hkind]
  refine ⟨hkind, hlocal, ?_⟩
  unfold Catalog.recordCount
  rw [hkind, hlocal, List.length_take, List.length_drop, min_comm]
  show min _ (d.totalBlocks.toNat - _) = _
  rw [hd.totalBlocks]
  rfl

/-- The same of a reuse page. -/
theorem view_reusePage (hlen : chunkIds.length = blockRefs.length) (j : Nat) :
    d.view.pageKind (maps.length + j) = .reuse ∧ d.view.localPage (maps.length + j) = j ∧
      d.view.recordCount (maps.length + j) = ((chunkIds.drop (j * reusePerPage)).take reusePerPage).length := by
  have hcount := h.view_mapPageCount hd
  have hkind : d.view.pageKind (maps.length + j) = .reuse := Catalog.pageKind_of_ge (by omega)
  have hlocal : d.view.localPage (maps.length + j) = j := by
    unfold Catalog.localPage
    rw [hkind, hcount]
    exact Nat.add_sub_cancel_left _ _
  refine ⟨hkind, hlocal, ?_⟩
  unfold Catalog.recordCount
  rw [hkind, hlocal, List.length_take, List.length_drop, min_comm]
  show min _ (d.totalBlocks.toNat - _) = _
  rw [hd.totalBlocks, hlen]
  rfl

/-- Kind and plaintext length of a page are the ones its index prescribes. -/
theorem shape (hlen : chunkIds.length = blockRefs.length) (hx : (maps ++ reuses)[i]? = some x) :
    x.record.kind = d.view.pageKind i ∧ 0 < d.view.recordCount i ∧ x.plaintext.length ≤ maxPagePlainLen ∧
      x.plaintext.length = pageHeaderSize + d.view.recordCount i * (d.view.pageKind i).recordSize := by
  rcases page_cases hx with ⟨hi, hmap⟩ | ⟨j, rfl, hj, hreuse⟩
  · obtain ⟨hkind, hencode⟩ := h.map i x hmap
    obtain ⟨hne, hle, hplain⟩ := encodeMapPage_eq_ok.1 hencode
    obtain ⟨hpage, -, hrecords⟩ := h.view_mapPage hd hi
    rw [hpage, hrecords, hplain, length_mapPage]
    exact ⟨hkind, List.length_pos_iff.2 hne, mapPage_le hle, rfl⟩
  · obtain ⟨hkind, hencode⟩ := h.reuse j x hreuse
    obtain ⟨hne, hle, hplain⟩ := encodeReusePage_eq_ok.1 hencode
    obtain ⟨hpage, -, hrecords⟩ := h.view_reusePage hd hlen j
    rw [hpage, hrecords, hplain, length_reusePage]
    exact ⟨hkind, List.length_pos_iff.2 hne, reusePage_le hle, rfl⟩

theorem pageStart_eq (hi : i ≤ (maps ++ reuses).length) : d.pageStart i = SealedPage.start (maps ++ reuses) i := by
  induction i with
  | zero => simp [CatalogData.pageStart, SealedPage.start]
  | succ i ih =>
    have hx := List.getElem?_eq_getElem (Nat.lt_of_succ_le hi)
    have hr : d.pages[i]? = some (maps ++ reuses)[i].record := by
      rw [hd.directory, h.directory, List.getElem?_map, hx]
      rfl
    rw [CatalogData.pageStart_succ hr, SealedPage.start_succ hx, ih (Nat.le_of_succ_le hi), (h.each i _ hx).storedLen]

/-- The directory satisfies every page rule. -/
theorem pageRules (hlen : chunkIds.length = blockRefs.length) (hmax : blockRefs.length ≤ maxBlocks) : d.PageRules where
  count := by
    rw [hd.directory, h.directory, List.length_map]
    exact h.length_le hlen hmax
  kinds := by
    rw [hd.mapCount, hd.reuseCount, h.mapCount, h.reuseCount, hd.directory, h.directory, List.length_map,
      List.length_append]
  mapPages := by rw [hd.mapCount, h.mapCount, h.mapPages, hd.totalBlocks]
  reusePages := by rw [hd.reuseCount, h.reuseCount, h.reusePages, hd.totalBlocks, hlen]
  pages i r hr := by
    rw [hd.directory, h.directory, List.getElem?_map, Option.map_eq_some_iff] at hr
    obtain ⟨x, hx, rfl⟩ := hr
    obtain ⟨hkind, -, hmaxLen, hplain⟩ := h.shape hd hlen hx
    have hok := h.each i x hx
    have hstart := h.pageStart_eq hd (List.getElem?_eq_some_iff.1 hx).1.le
    have hstop := h.stop_lt hlen hmax hx
    rw [hstart]
    refine ⟨⟨?_, ?_, ?_⟩, hkind, hok.ordinal, ?_, hok.offset, hstop⟩
    · rw [hok.plainLen, hplain]
      simp only [pageHeaderSize]
      omega
    · rw [hok.plainLen]
      exact hmaxLen
    · rw [hok.storedLen, hok.plainLen]
      exact hok.fits
    · rw [hok.plainLen, hplain]

/-! ### Reading the pages back -/

variable [Target] (hvalid : ∀ r ∈ blockRefs, r.Valid)

omit [Crypto] h hd in
theorem length_lt_usize (hlen : x.plaintext.length ≤ maxPagePlainLen) : x.plaintext.length < usizeSize := by
  have hu := le_usizeSize
  simp only [maxPagePlainLen] at hlen
  omega

include hvalid in
omit hd in
/-- The records of a map page are the references of its index range. -/
theorem mapRecord {p k : Nat} {r : BlockRef} (hx : maps[p]? = some x) (hk : k < blocksPerMapPage)
    (hr : blockRefs[p * blocksPerMapPage + k]? = some r) :
    BlockRef.parse x.plaintext (pageHeaderSize + k * blockRefSize) = .ok r := by
  obtain ⟨hne, hle, hplain⟩ := encodeMapPage_eq_ok.1 (h.map p x hx).2
  have hbound : x.plaintext.length < usizeSize := by
    refine length_lt_usize ?_
    rw [hplain, length_mapPage]
    exact mapPage_le hle
  have hsub : ∀ r ∈ (blockRefs.drop (p * blocksPerMapPage)).take blocksPerMapPage, r.Valid := fun r hr =>
    hvalid r (List.mem_of_mem_drop (List.mem_of_mem_take hr))
  obtain ⟨count, -, hrecords⟩ := bind_eq_ok.1 (parseMapPage_eq_ok.2 ⟨hne, hsub, hbound, hplain⟩)
  have hat : ((blockRefs.drop (p * blocksPerMapPage)).take blocksPerMapPage)[k]? = some r := by
    rw [List.getElem?_take_of_lt hk, List.getElem?_drop]
    exact hr
  have hparse := (mapPageRecords_eq_ok.1 hrecords).2 k r hat
  rwa [Nat.zero_add] at hparse

include hvalid in
/-- What was sealed as page `i` is a correct page `i` of the catalog. -/
theorem decoded (hlen : chunkIds.length = blockRefs.length) (hx : (maps ++ reuses)[i]? = some x) :
    d.view.DecodedPage i x.plaintext := by
  obtain ⟨-, -, -, hplain⟩ := h.shape hd hlen hx
  rcases page_cases hx with ⟨hi, hmap⟩ | ⟨j, rfl, hj, hreuse⟩
  · obtain ⟨hpage, hlocal, hrecords⟩ := h.view_mapPage hd hi
    obtain ⟨-, -, hbytes⟩ := encodeMapPage_eq_ok.1 (h.map i x hmap).2
    refine ⟨?_, hplain, fun _ k hk => ?_⟩
    · rw [hpage, hlocal, hbytes, slice_append_left (by rw [length_pageHeader rfl, Nat.zero_add])]
      exact slice_full _
    · rw [hrecords, List.length_take, List.length_drop] at hk
      have hat : i * blocksPerMapPage + k < blockRefs.length := by omega
      exact ⟨_, h.mapRecord hvalid hmap (by omega) (List.getElem?_eq_getElem hat)⟩
  · obtain ⟨hpage, hlocal, -⟩ := h.view_reusePage hd hlen j
    obtain ⟨-, -, hbytes⟩ := encodeReusePage_eq_ok.1 (h.reuse j x hreuse).2
    refine ⟨?_, hplain, fun hmap => ?_⟩
    · rw [hpage, hlocal, hbytes, slice_append_left (by rw [length_pageHeader rfl, Nat.zero_add])]
      exact slice_full _
    · rw [hpage] at hmap
      cases hmap

omit [Target] hd in
/-- The reuse pages hold the chunk ids, in order. -/
theorem reuseIds_eq {j left : Nat} (hleft : j + left = reuses.length) :
    Catalog.reuseIds (SealedPage.plaintextAt reuses) j left = chunkIds.drop (j * reusePerPage) := by
  induction left generalizing j with
  | zero =>
    have hge : ¬ j < divCeil chunkIds.length reusePerPage := by
      rw [← h.reusePages]
      omega
    rw [lt_divCeil (by decide)] at hge
    rw [Catalog.reuseIds, List.drop_eq_nil_of_le (by omega)]
  | succ left ih =>
    have hx := List.getElem?_eq_getElem (show j < reuses.length by omega)
    obtain ⟨-, -, hplain⟩ := encodeReusePage_eq_ok.1 (h.reuse j _ hx).2
    have hids : chunks32 ((SealedPage.plaintextAt reuses j).drop pageHeaderSize) = (chunkIds.drop (j * reusePerPage)).take reusePerPage := by
      rw [SealedPage.plaintextAt_eq hx, hplain, List.drop_left' (length_pageHeader rfl _ _)]
      exact (chunks32_eq (by rw [length_flatMap_toList, Nat.mul_mod_left])).2 rfl
    rw [Catalog.reuseIds, hids, ih (by omega), Nat.add_mul, Nat.one_mul, ← List.drop_drop]
    exact List.take_append_drop _ _

end EncryptedPages.Tables

variable [Target]

/-- A package opened over the catalog, with the page region in its snapshot and the header fields the pages were sealed
under. -/
structure PackageInner.Serves (P : PackageInner) (w : PageSealer) (d : CatalogData) (pages : EncryptedPages) : Prop where
  encodable : d.Encodable
  catalog : Catalog.parse d.wire = .ok P.catalog
  projectId : P.header.projectId = w.projectId
  releaseSequence : P.header.releaseSequence = w.releaseSequence
  noncePrefix : P.header.noncePrefix = w.noncePrefix
  snapshotKey : P.snapshotKey = w.snapshotKey
  region : P.snapshot.drop P.header.pageRegionOffset.toNat = pages.ciphertexts.flatten
  len : P.snapshot.length < u64Size

/-- `Package::reuse_records`. -/
def PackageInner.reuseRecords (P : PackageInner) : ReadM (List ReuseRecord) := P.catalog.reuseRecords P.loadPage

namespace PackageInner.Serves
variable {P : PackageInner} (hP : P.Serves w d pages) (h : pages.Tables w blockRefs chunkIds maps reuses)
  (hd : d.Lists blockRefs.length pages)
include hP

omit [Crypto] in
theorem catalog_eq : P.catalog = d.view ∧ d.Valid := Catalog.eq_view_of_parse hP.encodable hP.catalog

include h hd

/-- Loading a page returns what was sealed. -/
theorem idealPage (hx : (maps ++ reuses)[i]? = some x) : P.idealPage i x.record.kind = .ok x.plaintext := by
  obtain ⟨hview, hv⟩ := hP.catalog_eq
  have hok := h.each i x hx
  have hr : d.pages[i]? = some x.record := by
    rw [hd.directory, h.directory, List.getElem?_map, hx]
    rfl
  have hpage : P.catalog.page i = .ok x.record := by
    rw [hview]
    exact (CatalogData.page_view hP.encodable).2 ⟨hr, (hv.pages i _ hr).1⟩
  have hkind : P.catalog.pageOfKind i x.record.kind = .ok x.record := by
    unfold Catalog.pageOfKind
    simp only [hpage, ok_bind, ne_eq, not_true, if_false]
    rfl
  have hend := SealedPage.start_add_le hx
  rw [← h.ciphertexts, ← hP.region, List.length_drop] at hend
  have hlen := hP.len
  obtain ⟨stored, hopen, hdecode⟩ := hok.opens
  have hfits := hok.fits.le.1
  have hoffset : checkedOffset P.header.pageRegionOffset.toNat x.record.relativeOffset.toNat =
      .ok (P.header.pageRegionOffset.toNat + SealedPage.start (maps ++ reuses) i) := by
    unfold checkedOffset
    rw [okOr_eq_ok, checkedAdd_eq_some, hok.offset]
    exact ⟨by omega, rfl⟩
  have hread : readExact P.snapshot (P.header.pageRegionOffset.toNat + SealedPage.start (maps ++ reuses) i)
      x.record.storedLen.toNat = .ok x.ciphertext := by
    rw [readExact_eq_ok, hok.storedLen]
    refine ⟨.inr (by omega), ?_⟩
    have hslice := SealedPage.slice_ciphertexts hx
    rw [← h.ciphertexts, ← hP.region, slice, List.drop_drop] at hslice
    exact hslice.symm
  unfold PackageInner.idealPage fetchPage decodePage
  simp only [Catalog.liftM_result, hkind, ok_bind, hoffset]
  show (readExact _ _ _ >>= fun ciphertext => _) = _
  rw [hread, ok_bind, hP.projectId, hP.releaseSequence, hP.noncePrefix, hP.snapshotKey, validateDigest,
    if_pos hok.digest, ok_bind, openAead, hopen, okOr, ok_bind, hok.plainLen]
  exact hdecode

variable (hvalid : ∀ r ∈ blockRefs, r.Valid) (hlen : chunkIds.length = blockRefs.length)

omit [Crypto] h hd in
theorem wellFormed : P.catalog.WellFormed := (Catalog.parse_eq_ok.1 hP.catalog).2.2

omit [Crypto] h in
theorem totalBlocks : P.catalog.totalBlocks.toNat = blockRefs.length := by
  rw [hP.catalog_eq.1]
  exact hd.totalBlocks

theorem mapPageCount : P.catalog.mapPageCount.toNat = maps.length := by
  rw [hP.catalog_eq.1]
  exact h.view_mapPageCount hd

theorem reusePageCount : P.catalog.reusePageCount.toNat = reuses.length := by
  rw [hP.catalog_eq.1]
  show d.reusePageCount.toNat = _
  rw [hd.reuseCount, h.reuseCount]

omit h in
theorem idealRef_of_ge {g : Nat} (hg : blockRefs.length ≤ g) :
    P.idealRef g = fail (.invalidFormat "global block index") := by
  unfold PackageInner.idealRef Catalog.blockRef validateGlobalBlockIndex
  rw [if_pos (by rw [hP.totalBlocks hd]; exact hg)]
  rfl

include hvalid hlen

/-- `block_ref` returns the reference at the index. -/
theorem idealRef {g : Nat} {r : BlockRef} (hr : blockRefs[g]? = some r) : P.idealRef g = .ok r := by
  have hg := (List.getElem?_eq_some_iff.1 hr).1
  have hpos : 0 < blocksPerMapPage := by decide
  have hdm := Nat.div_add_mod g blocksPerMapPage
  have hmod := Nat.mod_lt g hpos
  rw [Nat.mul_comm] at hdm
  have hp : g / blocksPerMapPage < maps.length := by
    rw [h.mapPages, lt_divCeil hpos]
    omega
  have hmap := List.getElem?_eq_getElem hp
  have hx : (maps ++ reuses)[g / blocksPerMapPage]? = some maps[g / blocksPerMapPage] := by
    rw [List.getElem?_append_left hp]
    exact hmap
  have hload := hP.idealPage h hd hx
  rw [(h.map _ _ hmap).1] at hload
  have hdecoded := h.decoded hd hvalid hlen hx
  rw [← hP.catalog_eq.1] at hdecoded
  unfold PackageInner.idealRef
  rw [hP.wellFormed.blockRef_decoded (by rw [hP.totalBlocks hd]; exact hg) hload hdecoded]
  refine h.mapRecord hvalid hmap (by omega) ?_
  rw [Nat.add_sub_cancel' (by omega)]
  exact hr

/-- `reuse_records` returns the pairs in order. -/
theorem idealReuse : P.catalog.reuseRecords P.idealPage = .ok (List.zipWith ReuseRecord.mk chunkIds blockRefs) := by
  have hcount := hP.mapPageCount h hd
  have hreuse := hP.reusePageCount h hd
  have href : P.catalog.RefsOf P.idealPage fun g => blockRefs[g]?.getD default := by
    intro g hg
    rw [hP.totalBlocks hd] at hg
    have hr := List.getElem?_eq_getElem hg
    have href := hP.idealRef h hd hvalid hlen hr
    show P.idealRef g = .ok (blockRefs[g]?.getD default)
    rw [href, hr]
    rfl
  have hat : ∀ j < P.catalog.reusePageCount.toNat, ∃ x, reuses[j]? = some x ∧ (maps ++ reuses)[maps.length + j]? = some x ∧
      SealedPage.plaintextAt reuses j = x.plaintext := by
    intro j hj
    rw [hreuse] at hj
    have hx := List.getElem?_eq_getElem hj
    refine ⟨_, hx, ?_, SealedPage.plaintextAt_eq hx⟩
    rw [List.getElem?_append_right (Nat.le_add_right _ _), Nat.add_sub_cancel_left]
    exact hx
  have hload : ∀ j < P.catalog.reusePageCount.toNat,
      P.idealPage (P.catalog.mapPageCount.toNat + j) .reuse = .ok (SealedPage.plaintextAt reuses j) := by
    intro j hj
    obtain ⟨x, hx, hpage, hplain⟩ := hat j hj
    have hload := hP.idealPage h hd hpage
    rw [(h.reuse j _ hx).1] at hload
    rw [hcount, hload, hplain]
  have hdecoded : ∀ j < P.catalog.reusePageCount.toNat,
      P.catalog.DecodedPage (P.catalog.mapPageCount.toNat + j) (SealedPage.plaintextAt reuses j) := by
    intro j hj
    obtain ⟨x, hx, hpage, hplain⟩ := hat j hj
    have hdecoded := h.decoded hd hvalid hlen hpage
    rw [← hP.catalog_eq.1] at hdecoded
    rw [hcount, hplain]
    exact hdecoded
  obtain ⟨hrecords, -⟩ := hP.wellFormed.reuseRecords_eq href hload hdecoded
  rw [hrecords, hreuse, h.reuseIds_eq (Nat.zero_add _), Nat.zero_mul, List.drop_zero, Except.ok.injEq]
  refine List.ext_getElem? fun j => ?_
  rw [List.getElem?_mapIdx, List.getElem?_zipWith]
  rcases Nat.lt_or_ge j chunkIds.length with hj | hj
  · rw [List.getElem?_eq_getElem hj, List.getElem?_eq_getElem (hlen ▸ hj)]
    rfl
  · rw [List.getElem?_eq_none hj]
    rfl

end PackageInner.Serves

/-! ### Through the caches -/

namespace PackageInner
variable {P : PackageInner} {file : FileRecord} {st : ReadState}

theorem reusePageRecords_reads (hs : P.Valid file st) (first k : Nat) (ids : List (ByteArr 32)) :
    P.Reads file id (P.catalog.reusePageRecords P.loadPage first k ids) (P.catalog.reusePageRecords P.idealPage first k ids)
      st := by
  induction ids generalizing st k with
  | nil => exact .pure hs []
  | cons chunkId rest ih =>
    refine .bind (.lift hs (okOr _ _)) fun g s hs _ _ => ?_
    refine .bind (blockRef_reads hs g) fun r s hs _ _ => ?_
    exact .bind (ih hs (k + 1)) fun records s hs _ _ => .pure hs _

theorem reusePages_reads (hs : P.Valid file st) (i left : Nat) :
    P.Reads file id (P.catalog.reusePages P.loadPage i left) (P.catalog.reusePages P.idealPage i left) st := by
  induction left generalizing st i with
  | zero => exact .pure hs []
  | succ left ih =>
    refine .bind (.lift hs (plainAdd _ _ _)) fun page s hs _ hpage => ?_
    have hkind : P.catalog.pageKind page = .reuse := by
      obtain ⟨-, rfl⟩ := plainAdd_eq_ok.1 hpage
      exact Catalog.pageKind_of_ge (Nat.le_add_right _ _)
    rw [← hkind]
    refine .bind (loadPage_reads hs page) fun bytes s hs _ _ => ?_
    refine .bind (.lift hs (checkedRecordIndex _ _)) fun first s hs _ _ => ?_
    refine .bind (.lift hs (parseReusePage _ _)) fun ids s hs _ _ => ?_
    refine .bind (reusePageRecords_reads hs first 0 ids) fun records s hs _ _ => ?_
    exact .bind (ih hs (i + 1)) fun more s hs _ _ => .pure hs _

/-- `reuse_records` through the caches. -/
theorem reuseRecords_reads (hs : P.Valid file st) :
    P.Reads file id P.reuseRecords (P.catalog.reuseRecords P.idealPage) st := by
  refine .bind (reusePages_reads hs 0 _) fun records s hs _ _ => ?_
  exact .bind (.lift hs (validateRecordTotal _ _)) fun _ s hs _ _ => .pure hs _

end PackageInner

/-! ### The round trip -/

/-- What `build_pages` makes of `n` valid references and `n` chunk ids: a directory that satisfies every page rule over
`n` blocks, and pages from which a package reads the references and the pairs back, through its caches and next to other
readers too. -/
theorem paged_tables_round_trip (ha : AeadLaw) (hz : ZstdLaw) (w : PageSealer) {blockRefs : List BlockRef}
    {chunkIds : List (ByteArr 32)} (hvalid : ∀ r ∈ blockRefs, r.Valid) (hlen : chunkIds.length = blockRefs.length)
    (hmax : blockRefs.length ≤ maxBlocks) (s : BuildContext) :
    (Unfailing → ∃ pages t, (buildPages w blockRefs chunkIds).runOn s = (.ok pages, t)) ∧
    ∀ pages t, (buildPages w blockRefs chunkIds).runOn s = (.ok pages, t) →
      (∀ d : CatalogData, d.Lists blockRefs.length pages →
        d.PageRules ∧ (d.Encodable → d.TableRules → Catalog.parse d.wire = .ok d.view)) ∧
      ∀ (d : CatalogData) (P : PackageInner), d.Lists blockRefs.length pages → P.Serves w d pages →
        (∀ g r, blockRefs[g]? = some r → P.idealRef g = .ok r) ∧
        (∀ g, blockRefs.length ≤ g → P.idealRef g = fail (.invalidFormat "global block index")) ∧
        P.catalog.reuseRecords P.idealPage = .ok (List.zipWith ReuseRecord.mk chunkIds blockRefs) ∧
        ∀ (file : FileRecord) (st : ReadState), P.Valid file st →
          (∀ g r, blockRefs[g]? = some r → P.Reads file id (P.blockRef g) (.ok r) st) ∧
          (∀ g, blockRefs.length ≤ g →
            P.Reads file id (P.blockRef g) (fail (.invalidFormat "global block index") : Result BlockRef) st) ∧
          P.Reads file id P.reuseRecords (.ok (List.zipWith ReuseRecord.mk chunkIds blockRefs)) st := by
  have hspec := buildPages_spec ha hz w hlen hmax s
  constructor
  · intro hu
    rcases hrun : (buildPages w blockRefs chunkIds).runOn s with ⟨e | pages, t⟩
    · exact absurd hu (hspec.error hrun)
    · exact ⟨pages, t, rfl⟩
  · intro pages t hrun
    obtain ⟨maps, reuses, h⟩ := hspec.ok hrun
    refine ⟨fun d hd => ?_, fun d P hd hP => ?_⟩
    · have hrules := h.pageRules hd hlen hmax
      exact ⟨hrules, fun hencodable htables => CatalogData.parse_wire hencodable (hencodable.valid_iff.2 ⟨hrules, htables⟩)⟩
    · have href : ∀ g r, blockRefs[g]? = some r → P.idealRef g = .ok r := fun g r hr => hP.idealRef h hd hvalid hlen hr
      have hout : ∀ g, blockRefs.length ≤ g → P.idealRef g = fail (.invalidFormat "global block index") := fun g hg =>
        hP.idealRef_of_ge hd hg
      have hreuse := hP.idealReuse h hd hvalid hlen
      refine ⟨href, hout, hreuse, fun file st hs => ⟨fun g r hr => ?_, fun g hg => ?_, ?_⟩⟩
      · rw [← href g r hr]
        exact blockRef_reads hs g
      · rw [← hout g hg]
        exact blockRef_reads hs g
      · rw [← hreuse]
        exact PackageInner.reuseRecords_reads hs

end

/-! ### One block -/

theorem exampleCrypto_zstd : letI := exampleCrypto; ZstdLaw := by
  let _ := exampleCrypto
  constructor
  intro level plain packed capacity h hcapacity
  obtain rfl := Option.some.inj h
  exact if_pos hcapacity

theorem exampleCrypto_unfailing : letI := exampleCrypto; Unfailing :=
  letI := exampleCrypto
  ⟨fun _ _ _ _ => ⟨_, rfl⟩, fun _ _ => ⟨_, rfl⟩⟩

def singleRef : BlockRef := ⟨0, 0, 0, 128, 20, 4, .raw, .replicate 16 0⟩

def singleSealer : PageSealer := ⟨⟨.replicate 16 7⟩, 1, .replicate 8 3, .replicate 32 5, 3⟩

def singleContext : BuildContext :=
  .new ⟨false, ∅, []⟩ 0 ⟨[], [], fun _ => ⟨none, [], none⟩, ∅, [], [], []⟩

/-- A catalog of nothing but the pages. -/
def singleCatalog (pages : EncryptedPages) : CatalogData where
  segments := []
  files := []
  pathSlots := [⟨0, emptyPathSlot⟩]
  pathPool := []
  pages := pages.directory
  totalBlocks := 1
  mapPageCount := pages.mapCount
  reusePageCount := pages.reuseCount

/-- A package of nothing but the pages. -/
def singlePackage (pages : EncryptedPages) : PackageInner where
  snapshot := pages.ciphertexts.flatten
  source _ := none
  header := ⟨⟨.replicate 16 7⟩, 1, 0, 0, 0, 0, .replicate 16 0, .replicate 8 3, .replicate 16 0, .replicate 32 0,
    .replicate 64 0⟩
  catalog := (singleCatalog pages).view
  keys := ⟨.replicate 32 0⟩
  snapshotKey := .replicate 32 5
  pathKey := .replicate 32 0
  budget := .memoryConstrained

theorem paged_tables_round_trip_sample : let _ := exampleCrypto; let _ := target64
    ∃ pages t, (buildPages singleSealer [singleRef] [.replicate 32 9]).runOn singleContext = (.ok pages, t) ∧
      (singlePackage pages).idealRef 0 = .ok singleRef ∧
      (singlePackage pages).idealRef 1 = fail (.invalidFormat "global block index") ∧
      (singlePackage pages).catalog.reuseRecords (singlePackage pages).idealPage = .ok [⟨.replicate 32 9, singleRef⟩] := by
  let _ := exampleCrypto
  let _ := target64
  have hvalid : ∀ r ∈ [singleRef], r.Valid := by
    intro r hr
    obtain rfl := List.mem_singleton.1 hr
    exact ⟨by decide, by decide, rfl⟩
  have hlen : [ByteArr.replicate 32 9].length = [singleRef].length := rfl
  obtain ⟨hruns, hall⟩ := paged_tables_round_trip exampleCrypto_aead exampleCrypto_zstd singleSealer
    hvalid hlen (by decide) singleContext
  obtain ⟨pages, t, hrun⟩ := hruns exampleCrypto_unfailing
  obtain ⟨hdirectory, hread⟩ := hall pages t hrun
  obtain ⟨maps, reuses, htables⟩ := (buildPages_spec exampleCrypto_aead exampleCrypto_zstd singleSealer rfl (by decide)
    singleContext).ok hrun
  have hlists : (singleCatalog pages).Lists [singleRef].length pages := ⟨rfl, rfl, rfl, rfl⟩
  obtain ⟨hrules, hparse⟩ := hdirectory _ hlists
  have hpages : pages.directory.length ≤ 2 := by
    rw [htables.directory, List.length_map, List.length_append, htables.mapPages, htables.reusePages]
    decide
  have hencodable : (singleCatalog pages).Encodable := by
    refine ⟨Nat.zero_le _, Nat.zero_le _, by show 1 ≤ maxBlocks; decide, hrules.count, Nat.zero_le _, List.cons_ne_nil _ _,
      by show Nat.isPowerOfTwo 1; decide, hrules.kinds, ?_⟩
    show 64 + 0 * 96 + 0 * 32 + 1 * 8 + 0 + pages.directory.length * 64 ≤ 64 * 1024 * 1024
    omega
  have hserves : (singlePackage pages).Serves singleSealer (singleCatalog pages) pages :=
    ⟨hencodable, hparse hencodable ⟨by simp [singleCatalog], by simp [singleCatalog], by simp [singleCatalog]⟩, rfl, rfl, rfl,
      rfl, rfl, htables.region_lt rfl (by decide)⟩
  obtain ⟨href, hout, hreuse, -⟩ := hread _ _ hlists hserves
  exact ⟨pages, t, hrun, href 0 _ rfl, hout 1 (by decide), hreuse⟩

end Hakutaku
