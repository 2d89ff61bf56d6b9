import Hakutaku.CatalogCodec

/-!
# The catalog codec is a bijection

`encode` and `parse` are inverse to each other on valid records and accepted byte strings, once the
raw path pool counts as part of the catalog. The accessors alone do not see pool bytes that belong
to no file's path, and `pool_gap` exhibits two accepted byte strings they cannot tell apart.
-/

namespace Hakutaku
open Wire

namespace Catalog
variable [Target]

/-- Both views return the same counts and the same result from every accessor. -/
structure SameAccessors (c c' : Catalog) : Prop where
  segmentCount : c.segmentCount = c'.segmentCount
  fileCount : c.fileCount = c'.fileCount
  totalBlocks : c.totalBlocks = c'.totalBlocks
  pathSlotCount : c.pathSlotCount = c'.pathSlotCount
  pageCount : c.pageCount = c'.pageCount
  mapPageCount : c.mapPageCount = c'.mapPageCount
  reusePageCount : c.reusePageCount = c'.reusePageCount
  segment : ∀ i, c.segment i = c'.segment i
  file : ∀ i, c.file i = c'.file i
  pathSlot : ∀ i, c.pathSlot i = c'.pathSlot i
  page : ∀ i, c.page i = c'.page i
  path : ∀ i, c.path i = c'.path i

/-- Every byte of the path pool lies in some file's path range. -/
def PoolCovered (c : Catalog) : Prop :=
  ∀ k < c.pathPoolLen.toNat, ∃ i r, c.file i = .ok r ∧ r.pathOffset.toNat ≤ k ∧ k < r.pathOffset.toNat + r.pathLen.toNat

variable {c c' : Catalog} {bytes bytes' : Bytes}

/-- The accessors and the pool determine the collected records. -/
theorem SameAccessors.toData_eq (h : c.SameAccessors c') (hpool : c.pathPool = c'.pathPool) : c.toData = c'.toData := by
  have hs : c.segment = c'.segment := funext h.segment
  have hf : c.file = c'.file := funext h.file
  have hsl : c.pathSlot = c'.pathSlot := funext h.pathSlot
  have hp : c.page = c'.page := funext h.page
  simp only [toData, h.segmentCount, h.fileCount, h.pathSlotCount, h.pageCount, h.totalBlocks, h.mapPageCount,
    h.reusePageCount, hs, hf, hsl, hp, hpool]

theorem WellFormed.length_pathPool (hw : c.WellFormed) : c.pathPool.length = c.pathPoolLen.toNat :=
  length_slice hw.pool_end

/-- In a covered pool every byte is a byte of some path. -/
theorem SameAccessors.pathPool_eq (h : c.SameAccessors c') (hw : c.WellFormed) (hw' : c'.WellFormed)
    (hlen : c.pathPoolLen = c'.pathPoolLen) (hcov : c.PoolCovered) : c.pathPool = c'.pathPool := by
  refine List.ext_getElem? fun k => ?_
  rcases Nat.lt_or_ge k c.pathPoolLen.toNat with hk | hk
  · obtain ⟨i, r, hr, hlo, hhi⟩ := hcov k hk
    have hi := (hw.file_eq_ok.1 hr).1
    obtain ⟨r', hr', hok⟩ := hw.files i hi
    obtain rfl : r = r' := Except.ok.inj (hr.symm.trans hr')
    obtain ⟨p, hp, -⟩ := hok.path
    have h1 := (hw.path_eq_ok hr hok.pathRange).1 hp
    have h2 := (hw'.path_eq_ok (h.file i ▸ hr) (hlen ▸ hok.pathRange)).1 (h.path i ▸ hp)
    have hkr : k - r.pathOffset.toNat < r.pathLen.toNat := by omega
    have key : ∀ l : Bytes, (slice l r.pathOffset.toNat r.pathLen.toNat)[k - r.pathOffset.toNat]? = l[k]? := fun l => by
      rw [getElem?_slice, if_pos hkr]
      congr 1; omega
    rw [← key c.pathPool, ← key c'.pathPool, h1, h2]
  · rw [List.getElem?_eq_none (by rw [hw.length_pathPool]; exact hk),
      List.getElem?_eq_none (by rw [hw'.length_pathPool, ← hlen]; exact hk)]

end Catalog

/-- The catalog codec: valid records encode to accepted bytes whose accessors return them; accepted
bytes are the encoding of their collected records; and the accessors with the path pool, or the
accessors alone when the files' paths cover the pool, determine the bytes. -/
theorem catalog_bijection [Target] :
    (∀ d : CatalogData, d.Encodable → d.Valid → ∃ bytes c, d.encode = .ok bytes ∧ Catalog.parse bytes = .ok c ∧
      c.Records d ∧ ∀ i r, d.files[i]? = some r →
        ∃ p, c.path i = .ok p ∧ strBytes p = slice d.pathPool r.pathOffset.toNat r.pathLen.toNat) ∧
    (∀ bytes c, bytes.length ≤ maxCatalogPlainLen → Catalog.parse bytes = .ok c →
      ∃ d, c.toData = .ok d ∧ d.Valid ∧ d.encode = .ok bytes) ∧
    (∀ bytes bytes' c c', bytes.length ≤ maxCatalogPlainLen → bytes'.length ≤ maxCatalogPlainLen →
      Catalog.parse bytes = .ok c → Catalog.parse bytes' = .ok c' → c.SameAccessors c' →
      (c.pathPool = c'.pathPool ∨ c.pathPoolLen = c'.pathPoolLen ∧ c.PoolCovered) → bytes = bytes') := by
  refine ⟨fun d he hv => ?_, fun bytes c hlen hp => ?_, fun bytes bytes' c c' hlen hlen' hp hp' hsame hpool => ?_⟩
  · refine ⟨d.wire, d.view, CatalogData.encode_eq_ok.2 ⟨he, rfl⟩, CatalogData.parse_wire he hv,
      Catalog.records_view he hv, fun i r hr => ?_⟩
    obtain ⟨-, -, -, -, p, hpath, -⟩ := hv.files r (List.mem_of_getElem? hr)
    exact ⟨p, (Catalog.path_view he hv hr).2 hpath, hpath.symm⟩
  · obtain ⟨d, hd, hencode⟩ := Catalog.encode_of_parse hp hlen
    obtain ⟨he, hb⟩ := CatalogData.encode_eq_ok.1 hencode
    rw [hb] at hp
    exact ⟨d, hd, (Catalog.eq_view_of_parse he hp).2, hencode⟩
  · have hw := (Catalog.parse_eq_ok.1 hp).2.2
    have hw' := (Catalog.parse_eq_ok.1 hp').2.2
    have hpool' : c.pathPool = c'.pathPool := by
      rcases hpool with hpool | ⟨hpl, hcov⟩
      · exact hpool
      · exact hsame.pathPool_eq hw hw' hpl hcov
    obtain ⟨d, hd, hencode⟩ := Catalog.encode_of_parse hp hlen
    obtain ⟨d', hd', hencode'⟩ := Catalog.encode_of_parse hp' hlen'
    rw [hsame.toData_eq hpool', hd', Except.ok.injEq] at hd
    rw [hd, hencode, Except.ok.injEq] at hencode'
    exact hencode'

theorem catalog_bijection_sample : let _ := target64
    ∃ bytes c, sampleCatalog.encode = .ok bytes ∧ Catalog.parse bytes = .ok c ∧ c.Records sampleCatalog := by
  let _ := target64
  obtain ⟨bytes, c, he, hp, hr, -⟩ := catalog_bijection.1 sampleCatalog sampleCatalog_encodable sampleCatalog_valid
  exact ⟨bytes, c, he, hp, hr⟩

/-- A catalog of no files whose one-byte path pool belongs to nobody. -/
def gapCatalog (gap : UInt8) : CatalogData where
  segments := []
  files := []
  pathSlots := [⟨0, emptyPathSlot⟩]
  pathPool := [gap]
  pages := []
  totalBlocks := 0
  mapPageCount := 0
  reusePageCount := 0

theorem gapCatalog_encodable (gap : UInt8) : (gapCatalog gap).Encodable where
  segments := Nat.zero_le _
  files := Nat.zero_le _
  totalBlocks := Nat.zero_le _
  pages := Nat.zero_le _
  pathPool := (by decide : 1 ≤ maxPathPoolLen)
  slots_ne := List.cons_ne_nil _ _
  slots_pow := ⟨0, rfl⟩
  kinds := rfl
  encodedLen := (by decide : 73 ≤ maxCatalogPlainLen)

theorem gapCatalog_valid [Target] (gap : UInt8) : (gapCatalog gap).Valid where
  mapPages := by show 0 = divCeil 0 blocksPerMapPage; decide
  reusePages := by show 0 = divCeil 0 reusePerPage; decide
  segments r hr := nomatch hr
  files r hr := nomatch hr
  slots r hr hne := by
    obtain rfl : r = ⟨0, emptyPathSlot⟩ := List.mem_singleton.1 hr
    exact absurd rfl hne
  pages i r hr := nomatch hr

/-- Accepted byte strings that differ only in a path-pool byte outside every path. -/
theorem pool_gap : let _ := target64
    ∃ bytes bytes' c c', bytes ≠ bytes' ∧ Catalog.parse bytes = .ok c ∧ Catalog.parse bytes' = .ok c' ∧
      c.SameAccessors c' := by
  let _ := target64
  have hp : ∀ gap, Catalog.parse (gapCatalog gap).wire = .ok (gapCatalog gap).view := fun gap =>
    CatalogData.parse_wire (gapCatalog_encodable gap) (gapCatalog_valid gap)
  have hslot : ∀ gap i r, (gapCatalog gap).view.pathSlot i = .ok r ↔ [PathSlot.mk 0 emptyPathSlot][i]? = some r :=
    fun gap i r => CatalogData.pathSlot_view (gapCatalog_encodable gap)
  have hsegment : ∀ gap i, (gapCatalog gap).view.segment i = fail (.invalidFormat "segment index") := fun _ i =>
    Catalog.segment_of_ge (Nat.zero_le i)
  have hfile : ∀ gap i, (gapCatalog gap).view.file i = fail (.invalidFormat "file index") := fun _ i =>
    Catalog.file_of_ge (Nat.zero_le i)
  have hpage : ∀ gap i, (gapCatalog gap).view.page i = fail (.invalidFormat "page index") := fun _ i =>
    Catalog.page_of_ge (Nat.zero_le i)
  have hpool : ∀ gap, (gapCatalog gap).view.pathPool = [gap] := fun gap =>
    CatalogData.pathPool_view (gapCatalog_encodable gap)
  refine ⟨_, _, _, _, fun h => ?_, hp 0, hp 1, ?_⟩
  · have h0 := hp 0
    rw [h, hp 1, Except.ok.injEq] at h0
    have h01 : ([0] : Bytes) = [1] := by rw [← hpool 0, ← h0, hpool 1]
    exact absurd h01 (by decide)
  · constructor
    case segment => intro i; rw [hsegment, hsegment]
    case file => intro i; rw [hfile, hfile]
    case page => intro i; rw [hpage, hpage]
    case path => intro i; simp only [Catalog.path, Catalog.pathBytes, hfile, fail_bind]
    case pathSlot =>
      intro i
      cases i with
      | zero => rw [(hslot 0 0 _).2 rfl, (hslot 1 0 _).2 rfl]
      | succ i =>
        have hcount : ∀ gap, (gapCatalog gap).view.pathSlot (i + 1) = fail (.invalidFormat "path slot index") :=
          fun gap => Catalog.pathSlot_of_ge (by show 1 ≤ i + 1; omega)
        rw [hcount, hcount]
    all_goals simp only [CatalogData.view, CatalogData.viewOf, gapCatalog]

end Hakutaku
