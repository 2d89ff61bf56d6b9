import Hakutaku.Pages
import Hakutaku.PathIndex

/-!
# An accepted catalog is safe to use

Parsing never panics, and on an accepted catalog the accessors, the path lookup and the readers of
the paged tables have no index, kind or overflow failure left.
-/

namespace Hakutaku
open Wire

namespace Catalog
variable [Target] {c : Catalog} {i : Nat}

/-- Every in-range accessor call succeeds, and path bytes are bytes of the pool. -/
structure AccessorsTotal (c : Catalog) : Prop where
  segment : ∀ i < c.segmentCount.toNat, ∃ r, c.segment i = .ok r
  file : ∀ i < c.fileCount.toNat, ∃ r, c.file i = .ok r
  pathSlot : ∀ i < c.pathSlotCount.toNat, ∃ r, c.pathSlot i = .ok r
  page : ∀ i < c.pageCount.toNat, ∃ r, c.page i = .ok r
  path : ∀ i < c.fileCount.toNat, ∃ r p, c.file i = .ok r ∧ c.path i = .ok p ∧
    r.pathOffset.toNat + r.pathLen.toNat ≤ c.pathPool.length ∧
    strBytes p = slice c.pathPool r.pathOffset.toNat r.pathLen.toNat

/-- The page table: ordinals, contiguous ranges, and the bounds on lengths. -/
structure PagesTiled (c : Catalog) : Prop where
  ordinal : ∀ i r, c.page i = .ok r → r.nonceOrdinal.toNat = i + 1
  first : ∀ r, c.page 0 = .ok r → r.relativeOffset.toNat = 0
  next : ∀ i r r', c.page i = .ok r → c.page (i + 1) = .ok r' →
    r'.relativeOffset.toNat = r.relativeOffset.toNat + r.storedLen.toNat
  storedLen : ∀ i r, c.page i = .ok r → r.storedLen.toNat ≤ r.plainLen.toNat + 16
  plainLen : ∀ i r, c.page i = .ok r → r.plainLen.toNat ≤ 16 * 1024

theorem WellFormed.accessorsTotal (hw : c.WellFormed) : c.AccessorsTotal where
  segment i hi := (hw.segments i hi).imp fun _ h => h.1
  file i hi := (hw.files i hi).imp fun _ h => h.1
  pathSlot i hi := (hw.slots i hi).imp fun _ h => h.1
  page i hi := (hw.pages i hi).imp fun _ h => h.1
  path i hi := by
    obtain ⟨r, hr, hok⟩ := hw.files i hi
    obtain ⟨p, hp, -⟩ := hok.path
    refine ⟨r, p, hr, hp, ?_, ((hw.path_eq_ok hr hok.pathRange).1 hp).symm⟩
    rw [pathPool, length_slice hw.pool_end]
    exact hok.pathRange

theorem WellFormed.pageOk (hw : c.WellFormed) {r : PageRecord} (hr : c.page i = .ok r) : c.PageOk i r := by
  obtain ⟨r', hr', hok⟩ := hw.pages i (hw.page_eq_ok.1 hr).1
  obtain rfl : r = r' := Except.ok.inj (hr.symm.trans hr')
  exact hok

theorem WellFormed.pagesTiled (hw : c.WellFormed) : c.PagesTiled where
  ordinal _ _ hr := (hw.pageOk hr).ordinal
  first _ hr := (hw.pageOk hr).offset
  next i r r' hr hr' := by
    rw [(hw.pageOk hr').offset, pageStart_succ hr, (hw.pageOk hr).offset]
  storedLen _ _ hr := ((hw.page_eq_ok.1 hr).2.2).2.2.le.2
  plainLen i r hr := by
    have hcap : pageHeaderSize + (c.pageKind i).capacity * (c.pageKind i).recordSize ≤ 16 * 1024 := by
      cases c.pageKind i <;> decide
    have hcount : c.recordCount i * (c.pageKind i).recordSize ≤ (c.pageKind i).capacity * (c.pageKind i).recordSize :=
      Nat.mul_le_mul_right _ (min_le_right _ _)
    rw [(hw.pageOk hr).plainLen]
    omega

/-- With every page correctly decoded, each block reference and the reuse table can be read. -/
theorem WellFormed.tables_readable (hw : c.WellFormed) {decoded : Nat → PageRecord → Result Bytes}
    (hdec : ∀ i r, c.page i = .ok r → ∃ b, decoded i r = .ok b ∧ c.DecodedPage i b) :
    (∀ g < c.totalBlocks.toNat, ∃ ref, c.blockRef (c.loadFrom decoded) g = .ok ref) ∧
      ∃ rs, c.reuseRecords (c.loadFrom decoded) = .ok rs ∧ rs.length = c.totalBlocks.toNat := by
  have hload : ∀ i < c.pageCount.toNat, ∃ b, c.loadFrom decoded i (c.pageKind i) = .ok b ∧ c.DecodedPage i b := by
    intro i hi
    obtain ⟨r, hr, hkind, -⟩ := hw.pageOfKind_eq_ok hi rfl
    obtain ⟨b, hb, hd⟩ := hdec i r hr
    exact ⟨b, by simp only [loadFrom, hkind, liftM_result, ok_bind, hb], hd⟩
  have hblock : ∀ g < c.totalBlocks.toNat, ∃ ref, c.blockRef (c.loadFrom decoded) g = .ok ref := by
    intro g hg
    obtain ⟨hlt, hkind, hlocal⟩ := hw.mapPage_of_block hg
    obtain ⟨b, hb, hd⟩ := hload (g / blocksPerMapPage) (by have := hw.kinds; omega)
    rw [hkind] at hb
    rw [hw.blockRef_decoded hg hb hd]
    exact hd.records hkind _ hlocal
  refine ⟨hblock, ?_⟩
  choose! ref href using hblock
  have hreuse : ∀ i < c.reusePageCount.toNat, ∃ b, c.loadFrom decoded (c.mapPageCount.toNat + i) .reuse = .ok b ∧
      c.DecodedPage (c.mapPageCount.toNat + i) b := by
    intro i hi
    obtain ⟨hpage, hkind, -⟩ := hw.reusePage_of_index hi
    exact hkind ▸ hload _ hpage
  choose! page hpage hd using hreuse
  obtain ⟨h, hlen⟩ := hw.reuseRecords_eq href hpage hd
  exact ⟨_, h, by rw [List.length_mapIdx, hlen]⟩

end Catalog

theorem catalog_safety [Target] [Crypto] (bytes : Bytes) :
    NoPanic (Catalog.parse bytes) ∧
    ∀ c, Catalog.parse bytes = .ok c →
      c.AccessorsTotal ∧
      (∀ query pathKey, Canonical query → (∃ answer, c.findFile query pathKey = .ok answer) ∨
        c.findFile query pathKey = fail (.invalidFormat "path index has no empty slot")) ∧
      (∀ g < c.totalBlocks.toNat, ∃ r, c.pageOfKind (g / blocksPerMapPage) .blockMap = .ok r ∧
        r.plainLen.toNat = pageHeaderSize + c.recordCount (g / blocksPerMapPage) * blockRefSize ∧
        g - g / blocksPerMapPage * blocksPerMapPage < c.recordCount (g / blocksPerMapPage)) ∧
      (∀ i < c.reusePageCount.toNat, ∃ r, c.pageOfKind (c.mapPageCount.toNat + i) .reuse = .ok r ∧
        r.plainLen.toNat = pageHeaderSize + min (c.totalBlocks.toNat - i * reusePerPage) reusePerPage * reuseRecordSize) ∧
      (∀ decoded : Nat → PageRecord → Result Bytes,
        (∀ i r, c.page i = .ok r → ∃ b, decoded i r = .ok b ∧ c.DecodedPage i b) →
        (∀ g < c.totalBlocks.toNat, ∃ ref, c.blockRef (c.loadFrom decoded) g = .ok ref) ∧
          ∃ rs, c.reuseRecords (c.loadFrom decoded) = .ok rs ∧ rs.length = c.totalBlocks.toNat) ∧
      c.PagesTiled := by
  refine ⟨.catalogParse bytes, fun c hparse => ?_⟩
  have hw := (Catalog.parse_eq_ok.1 hparse).2.2
  refine ⟨hw.accessorsTotal, fun query pathKey hq => hw.findFile_cases hq pathKey, fun g hg => ?_, fun i hi => ?_,
    fun decoded hdec => hw.tables_readable hdec, hw.pagesTiled⟩
  · obtain ⟨hlt, hkind, hlocal⟩ := hw.mapPage_of_block hg
    obtain ⟨r, -, hr, hok⟩ := hw.pageOfKind_eq_ok (by have := hw.kinds; omega) hkind
    exact ⟨r, hr, by rw [hok.plainLen, hkind]; rfl, hlocal⟩
  · obtain ⟨hpage, hkind, -⟩ := hw.reusePage_of_index hi
    obtain ⟨r, -, hr, hok⟩ := hw.pageOfKind_eq_ok hpage hkind
    refine ⟨r, hr, ?_⟩
    rw [hok.plainLen, Catalog.recordCount, Catalog.localPage, hkind]
    simp only [PageKind.capacity, PageKind.recordSize, Nat.add_sub_cancel_left]

theorem catalog_safety_sample : let _ := target64; let _ := exampleCrypto
    ∃ c, Catalog.parse sampleCatalog.wire = .ok c ∧ c.AccessorsTotal ∧ c.PagesTiled := by
  let _ := target64; let _ := exampleCrypto
  have hp := CatalogData.parse_wire sampleCatalog_encodable sampleCatalog_valid
  obtain ⟨htotal, -, -, -, -, htiled⟩ := (catalog_safety sampleCatalog.wire).2 _ hp
  exact ⟨_, hp, htotal, htiled⟩

end Hakutaku
