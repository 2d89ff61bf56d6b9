import Hakutaku.CatalogSpec

/-!
# Encoding and parsing a catalog

`CatalogData.wire` is what `encode` writes, `CatalogData.view` the reader's view of it. The view's
accessors return the records (`segment_view`, …), a parsed catalog is the view of its own records
(`Catalog.WellFormed.eq_view`), and acceptance is the validity of the records (`wellFormed_view`).
-/

namespace Hakutaku
open Wire

namespace CatalogData

/-- The five tables of the wire form. -/
def tables (d : CatalogData) : Bytes :=
  d.segments.flatMap SegmentRecord.encode ++ d.files.flatMap FileRecord.encode ++
    d.pathSlots.flatMap PathSlot.encode ++ d.pathPool ++ d.pages.flatMap PageRecord.encode

/-- The reader's view of the wire form, over given bytes. -/
def viewOf (d : CatalogData) (bytes : Bytes) : Catalog where
  bytes := bytes
  segmentCount := UInt32.ofNat d.segments.length
  fileCount := UInt32.ofNat d.files.length
  totalBlocks := d.totalBlocks
  pathPoolLen := UInt32.ofNat d.pathPool.length
  pathSlotCount := UInt32.ofNat d.pathSlots.length
  pageCount := UInt32.ofNat d.pages.length
  mapPageCount := d.mapPageCount
  reusePageCount := d.reusePageCount
  segmentOffset := catalogHeaderSize
  fileOffset := catalogHeaderSize + d.segments.length * segmentRecordSize
  pathSlotOffset := catalogHeaderSize + d.segments.length * segmentRecordSize + d.files.length * fileRecordSize
  pathPoolOffset := catalogHeaderSize + d.segments.length * segmentRecordSize + d.files.length * fileRecordSize +
    d.pathSlots.length * pathSlotSize
  pageOffset := catalogHeaderSize + d.segments.length * segmentRecordSize + d.files.length * fileRecordSize +
    d.pathSlots.length * pathSlotSize + d.pathPool.length

/-- The bytes `encode` writes. -/
def wire (d : CatalogData) : Bytes := (d.viewOf []).header ++ d.tables

/-- The reader's view of `wire`. -/
def view (d : CatalogData) : Catalog := d.viewOf d.wire

/-- The encoded size. -/
def encodedLen (d : CatalogData) : Nat :=
  catalogHeaderSize + d.segments.length * segmentRecordSize + d.files.length * fileRecordSize +
    d.pathSlots.length * pathSlotSize + d.pathPool.length + d.pages.length * pageRecordSize

/-- What `encode` checks. -/
structure Encodable (d : CatalogData) : Prop where
  segments : d.segments.length ≤ maxSegments
  files : d.files.length ≤ maxFiles
  totalBlocks : d.totalBlocks.toNat ≤ maxBlocks
  pages : d.pages.length ≤ maxPages
  pathPool : d.pathPool.length ≤ maxPathPoolLen
  slots_ne : d.pathSlots ≠ []
  slots_pow : d.pathSlots.length.isPowerOfTwo
  kinds : d.mapPageCount.toNat + d.reusePageCount.toNat = d.pages.length
  encodedLen : d.encodedLen ≤ maxCatalogPlainLen

end CatalogData

theorem usizeToU32_eq_ok {n : Nat} {v : UInt32} : usizeToU32 n = .ok v ↔ n < u32Size ∧ v = UInt32.ofNat n := by
  rw [usizeToU32, ite_else_fail_eq_ok, Except.ok.injEq, eq_comm (a := v)]

namespace CatalogData
variable [Target] {d : CatalogData} {bytes : Bytes}

omit [Target] in
theorem wire_eq (d : CatalogData) : d.wire = (d.viewOf []).header ++ d.segments.flatMap SegmentRecord.encode ++
    d.files.flatMap FileRecord.encode ++ d.pathSlots.flatMap PathSlot.encode ++ d.pathPool ++
    d.pages.flatMap PageRecord.encode := by
  simp only [wire, tables, List.append_assoc]

theorem encode_eq_ok : d.encode = .ok bytes ↔ d.Encodable ∧ bytes = d.wire := by
  have hu := le_usizeSize
  simp only [encode, bind_eq_ok, validateCount_eq_ok, fail_bind, ite_fail_eq_ok, checkedTableEnd_eq_ok, okOr_eq_ok,
    checkedAdd_eq_some, validateCatalogLen, usizeToU32_eq_ok, pure_eq_ok, Except.ok.injEq,
    and_assoc, exists_and_left, exists_eq_left, exists_const, wire_eq, eq_comm (a := bytes)]
  constructor
  · rintro ⟨h1, h2, h3, h4, h5, h6, h7, -, -, -, -, -, h8, -, -, -, -, -, -, -, -, -, -, hb⟩
    rw [not_or, not_not] at h6
    rw [not_not, checkedAdd_eq_some, Nat.mod_eq_of_lt (h4.trans_lt (by decide))] at h7
    exact ⟨⟨h1, h2, h3, h4, h5, h6.1, h6.2, h7.2.symm, h8⟩, hb⟩
  · rintro ⟨⟨h1, h2, h3, h4, h5, h6, h7, h8, h9⟩, hb⟩
    have hlen : d.encodedLen ≤ 2 ^ 26 := h9
    have hpages : d.pages.length < u32Size := h4.trans_lt (by decide)
    have hkinds : checkedAdd u32Size d.mapPageCount.toNat d.reusePageCount.toNat = some (d.pages.length % u32Size) := by
      rw [checkedAdd_eq_some, Nat.mod_eq_of_lt hpages, h8]
      exact ⟨hpages, rfl⟩
    simp only [encodedLen, segmentRecordSize, fileRecordSize, pathSlotSize, pageRecordSize, catalogHeaderSize] at hlen
    simp only [u32Size, segmentRecordSize, fileRecordSize, pathSlotSize, pageRecordSize, catalogHeaderSize,
      maxCatalogPlainLen, maxSegments, maxFiles, maxPathPoolLen, h6, h7, hkinds] at *
    refine ⟨h1, h2, h3, h4, h5, by simp, by simp, ?_, ?_, ?_, ?_, ?_, ?_, ?_, ?_, ?_, ?_, ?_, ?_, ?_, ?_, ?_, ?_, hb⟩
      <;> omega

/-! ### The view of a wire form -/

section View
variable {i : Nat} (h : d.Encodable)
include h

omit [Target] in
theorem Encodable.toNat_segments : (UInt32.ofNat d.segments.length).toNat = d.segments.length :=
  UInt32.toNat_ofNat_of_lt' (h.segments.trans_lt (by decide))

omit [Target] in
theorem Encodable.toNat_files : (UInt32.ofNat d.files.length).toNat = d.files.length :=
  UInt32.toNat_ofNat_of_lt' (h.files.trans_lt (by decide))

omit [Target] in
theorem Encodable.toNat_pages : (UInt32.ofNat d.pages.length).toNat = d.pages.length :=
  UInt32.toNat_ofNat_of_lt' (h.pages.trans_lt (by decide))

omit [Target] in
theorem Encodable.toNat_pool : (UInt32.ofNat d.pathPool.length).toNat = d.pathPool.length :=
  UInt32.toNat_ofNat_of_lt' (h.pathPool.trans_lt (by decide))

omit [Target] in
theorem Encodable.toNat_slots : (UInt32.ofNat d.pathSlots.length).toNat = d.pathSlots.length := by
  have hlen : d.encodedLen ≤ 2 ^ 26 := h.encodedLen
  simp only [CatalogData.encodedLen, pathSlotSize] at hlen
  exact UInt32.toNat_ofNat_of_lt' (by show _ < 2 ^ 32; omega)

omit [Target] h in
theorem length_wire (d : CatalogData) : d.wire.length = d.encodedLen := by
  rw [wire_eq]
  simp only [List.length_append, Catalog.length_header,
    length_flatMap SegmentRecord.length_encode, length_flatMap FileRecord.length_encode,
    length_flatMap PathSlot.length_encode, length_flatMap PageRecord.length_encode, encodedLen]

theorem layout_view : d.view.Layout := by
  have hu := le_usizeSize
  have hlen : d.encodedLen ≤ 2 ^ 26 := h.encodedLen
  have hw := length_wire d
  constructor
  all_goals
    simp only [view, viewOf, h.toNat_segments, h.toNat_files, h.toNat_pages, h.toNat_pool, h.toNat_slots]
  · exact h.segments
  · exact h.files
  · exact h.totalBlocks
  · exact h.pages
  · exact h.pathPool
  · simpa using h.slots_ne
  · exact h.slots_pow
  · exact h.kinds
  · simp only [encodedLen] at hlen
    show _ < 2 ^ 32
    omega
  · exact hw
  · omega

omit [Target] h in
/-- Row `i` of a table that sits between two parts of the wire form. -/
theorem slice_table {ρ : Type} {encode : ρ → Bytes} {size : Nat} (hsize : ∀ r, (encode r).length = size)
    {rs : List ρ} {r : ρ} (hr : rs[i]? = some r) (pre post : Bytes) {o : Nat} (ho : o = pre.length) :
    slice (pre ++ rs.flatMap encode ++ post) (o + i * size) size = encode r := by
  have hi := (List.getElem?_eq_some_iff.1 hr).1
  have hrow : (i + 1) * size ≤ rs.length * size := Nat.mul_le_mul_right _ hi
  rw [Nat.add_mul, Nat.one_mul] at hrow
  have hlen := length_flatMap hsize rs
  rw [List.append_assoc, slice_append_right (by omega),
    slice_append_left (by rw [ho, Nat.add_sub_cancel_left, hlen]; exact hrow), ho, Nat.add_sub_cancel_left]
  exact slice_flatMap hsize hr

omit [Target] h in
theorem bytes_view (d : CatalogData) : d.view.bytes = d.wire := rfl

theorem segment_view {r : SegmentRecord} : d.view.segment i = .ok r ↔ d.segments[i]? = some r := by
  have hslice : ∀ {r}, d.segments[i]? = some r →
      slice d.wire (catalogHeaderSize + i * segmentRecordSize) segmentRecordSize = r.encode := fun hr => by
    rw [wire_eq]
    simpa only [List.append_assoc] using slice_table SegmentRecord.length_encode hr (d.viewOf []).header
      (d.files.flatMap FileRecord.encode ++ d.pathSlots.flatMap PathSlot.encode ++ d.pathPool ++
        d.pages.flatMap PageRecord.encode) (Catalog.length_header _).symm
  rw [(layout_view h).segment_eq_ok]
  show i < (UInt32.ofNat d.segments.length).toNat ∧ slice d.wire (catalogHeaderSize + _) _ = _ ↔ _
  rw [h.toNat_segments]
  constructor
  · rintro ⟨hi, hr⟩
    rw [hslice (List.getElem?_eq_getElem hi)] at hr
    rw [List.getElem?_eq_getElem hi, SegmentRecord.encode_injective hr]
  · exact fun hr => ⟨(List.getElem?_eq_some_iff.1 hr).1, hslice hr⟩

theorem file_view {r : FileRecord} : d.view.file i = .ok r ↔ d.files[i]? = some r ∧ r.Valid := by
  have hslice : ∀ {r}, d.files[i]? = some r →
      slice d.wire (d.view.fileOffset + i * fileRecordSize) fileRecordSize = r.encode := fun hr => by
    rw [wire_eq]
    simpa only [List.append_assoc] using slice_table FileRecord.length_encode hr
      ((d.viewOf []).header ++ d.segments.flatMap SegmentRecord.encode)
      (d.pathSlots.flatMap PathSlot.encode ++ d.pathPool ++ d.pages.flatMap PageRecord.encode)
      (o := d.view.fileOffset) (by simp [view, viewOf, length_flatMap SegmentRecord.length_encode])
  rw [(layout_view h).file_eq_ok]
  show i < (UInt32.ofNat d.files.length).toNat ∧ slice d.wire (d.view.fileOffset + _) _ = _ ∧ _ ↔ _
  rw [h.toNat_files]
  constructor
  · rintro ⟨hi, hr, hv⟩
    rw [hslice (List.getElem?_eq_getElem hi)] at hr
    rw [List.getElem?_eq_getElem hi, FileRecord.encode_injective hr]
    exact ⟨rfl, hv⟩
  · exact fun hr => ⟨(List.getElem?_eq_some_iff.1 hr.1).1, hslice hr.1, hr.2⟩

theorem pathSlot_view {r : PathSlot} : d.view.pathSlot i = .ok r ↔ d.pathSlots[i]? = some r := by
  have hslice : ∀ {r}, d.pathSlots[i]? = some r →
      slice d.wire (d.view.pathSlotOffset + i * pathSlotSize) pathSlotSize = r.encode := fun hr => by
    rw [wire_eq]
    simpa only [List.append_assoc] using slice_table PathSlot.length_encode hr
      ((d.viewOf []).header ++ d.segments.flatMap SegmentRecord.encode ++ d.files.flatMap FileRecord.encode)
      (d.pathPool ++ d.pages.flatMap PageRecord.encode) (o := d.view.pathSlotOffset)
      (by simp [view, viewOf, length_flatMap SegmentRecord.length_encode, length_flatMap FileRecord.length_encode,
        Nat.add_assoc])
  rw [(layout_view h).pathSlot_eq_ok]
  show i < (UInt32.ofNat d.pathSlots.length).toNat ∧ slice d.wire (d.view.pathSlotOffset + _) _ = _ ↔ _
  rw [h.toNat_slots]
  constructor
  · rintro ⟨hi, hr⟩
    rw [hslice (List.getElem?_eq_getElem hi)] at hr
    rw [List.getElem?_eq_getElem hi, PathSlot.encode_injective hr]
  · exact fun hr => ⟨(List.getElem?_eq_some_iff.1 hr).1, hslice hr⟩

theorem page_view {r : PageRecord} : d.view.page i = .ok r ↔ d.pages[i]? = some r ∧ r.Valid := by
  have hslice : ∀ {r}, d.pages[i]? = some r →
      slice d.wire (d.view.pageOffset + i * pageRecordSize) pageRecordSize = r.encode := fun hr => by
    rw [wire_eq]
    simpa only [List.append_assoc, List.append_nil] using slice_table PageRecord.length_encode hr
      ((d.viewOf []).header ++ d.segments.flatMap SegmentRecord.encode ++ d.files.flatMap FileRecord.encode ++
        d.pathSlots.flatMap PathSlot.encode ++ d.pathPool) [] (o := d.view.pageOffset)
      (by simp [view, viewOf, length_flatMap SegmentRecord.length_encode, length_flatMap FileRecord.length_encode,
        length_flatMap PathSlot.length_encode, Nat.add_assoc])
  rw [(layout_view h).page_eq_ok]
  show i < (UInt32.ofNat d.pages.length).toNat ∧ slice d.wire (d.view.pageOffset + _) _ = _ ∧ _ ↔ _
  rw [h.toNat_pages]
  constructor
  · rintro ⟨hi, hr, hv⟩
    rw [hslice (List.getElem?_eq_getElem hi)] at hr
    rw [List.getElem?_eq_getElem hi, PageRecord.encode_injective hr]
    exact ⟨rfl, hv⟩
  · exact fun hr => ⟨(List.getElem?_eq_some_iff.1 hr.1).1, hslice hr.1, hr.2⟩

omit [Target] in
theorem pathPool_view : d.view.pathPool = d.pathPool := by
  have hlen : ((d.viewOf []).header ++ d.segments.flatMap SegmentRecord.encode ++ d.files.flatMap FileRecord.encode ++
      d.pathSlots.flatMap PathSlot.encode).length = d.view.pathPoolOffset := by
    simp [view, viewOf, length_flatMap SegmentRecord.length_encode, length_flatMap FileRecord.length_encode,
      length_flatMap PathSlot.length_encode, Nat.add_assoc]
  show slice d.wire d.view.pathPoolOffset (UInt32.ofNat d.pathPool.length).toNat = _
  rw [h.toNat_pool, wire_eq, ← hlen, slice_append_left (by simp only [List.length_append]; omega)]
  rw [slice_append_right le_rfl, Nat.sub_self, slice_full]

end View

/-! ### Validity of the records -/

/-- Where page `i` starts in the page region. -/
def pageStart (d : CatalogData) (i : Nat) : Nat := ((d.pages.take i).map fun r => r.storedLen.toNat).sum

/-- The rules `Catalog::parse` checks, on the owned records. -/
structure Valid (d : CatalogData) : Prop where
  mapPages : d.mapPageCount.toNat = divCeil d.totalBlocks.toNat blocksPerMapPage
  reusePages : d.reusePageCount.toNat = divCeil d.totalBlocks.toNat reusePerPage
  segments : ∀ r ∈ d.segments, r.fileLen.toNat = segmentHeaderSize + r.payloadLen.toNat
  files : ∀ r ∈ d.files, r.Valid ∧ r.pathLen.toNat ≠ 0 ∧ r.pathOffset.toNat + r.pathLen.toNat ≤ d.pathPool.length ∧
    r.firstBlock.toNat + r.blockCount.toNat ≤ d.totalBlocks.toNat ∧
    ∃ p, slice d.pathPool r.pathOffset.toNat r.pathLen.toNat = strBytes p ∧ Canonical p
  slots : ∀ r ∈ d.pathSlots, r.fileIndex ≠ emptyPathSlot → r.fileIndex.toNat < d.files.length
  pages : ∀ i r, d.pages[i]? = some r → r.Valid ∧ r.kind = d.view.pageKind i ∧ r.nonceOrdinal.toNat = i + 1 ∧
    r.plainLen.toNat = pageHeaderSize + d.view.recordCount i * (d.view.pageKind i).recordSize ∧
    r.relativeOffset.toNat = d.pageStart i ∧ d.pageStart i + r.storedLen.toNat < u64Size

variable {i : Nat}

omit [Target] in
theorem pageStart_succ {r : PageRecord} (hr : d.pages[i]? = some r) :
    d.pageStart (i + 1) = d.pageStart i + r.storedLen.toNat := by
  obtain ⟨hi, rfl⟩ := List.getElem?_eq_some_iff.1 hr
  simp only [pageStart, List.take_succ_eq_append_getElem hi, List.map_append, List.sum_append, List.map_cons,
    List.map_nil, List.sum_cons, List.sum_nil, Nat.add_zero]

theorem pageStart_view (h : d.Encodable) (hv : ∀ r ∈ d.pages, r.Valid) (hi : i ≤ d.pages.length) :
    d.view.pageStart i = d.pageStart i := by
  induction i with
  | zero => simp [Catalog.pageStart, pageStart]
  | succ i ih =>
    have hr : d.pages[i]? = some d.pages[i] := List.getElem?_eq_getElem (by omega)
    rw [pageStart_succ hr, Catalog.pageStart_succ ((page_view h).2 ⟨hr, hv _ (List.getElem_mem _)⟩), ih (by omega)]

theorem wellFormed_view (h : d.Encodable) : d.view.WellFormed ↔ d.Valid := by
  have hl := layout_view h
  have hsegs : d.view.segmentCount.toNat = d.segments.length := h.toNat_segments
  have hfiles : d.view.fileCount.toNat = d.files.length := h.toNat_files
  have hslots : d.view.pathSlotCount.toNat = d.pathSlots.length := h.toNat_slots
  have hpages : d.view.pageCount.toNat = d.pages.length := h.toNat_pages
  have hpool : d.view.pathPoolLen.toNat = d.pathPool.length := h.toNat_pool
  constructor
  · intro hw
    -- Every record is the accessor's result at its index, where the pass has checked it.
    have hvalid : ∀ i r, d.pages[i]? = some r → r.Valid ∧ d.view.PageOk i r := fun i r hr => by
      obtain ⟨r', hr', hok⟩ := hw.pages i (by rw [hpages]; exact (List.getElem?_eq_some_iff.1 hr).1)
      obtain ⟨hr', hv⟩ := (page_view h).1 hr'
      obtain rfl : r = r' := Option.some.inj (hr.symm.trans hr')
      exact ⟨hv, hok⟩
    have hall : ∀ r ∈ d.pages, r.Valid := fun r hr => by
      obtain ⟨i, hi⟩ := List.getElem?_of_mem hr
      exact (hvalid i r hi).1
    refine ⟨hw.mapPages, hw.reusePages, fun r hr => ?_, fun r hr => ?_, fun r hr => ?_, fun i r hr => ?_⟩
    · obtain ⟨i, hi⟩ := List.getElem?_of_mem hr
      obtain ⟨r', hr', hok⟩ := hw.segments i (by rw [hsegs]; exact (List.getElem?_eq_some_iff.1 hi).1)
      obtain rfl : r = r' := Option.some.inj (hi.symm.trans ((segment_view h).1 hr'))
      exact hok
    · obtain ⟨i, hi⟩ := List.getElem?_of_mem hr
      obtain ⟨r', hr', hok⟩ := hw.files i (by rw [hfiles]; exact (List.getElem?_eq_some_iff.1 hi).1)
      obtain ⟨hr'', hv⟩ := (file_view h).1 hr'
      obtain rfl : r = r' := Option.some.inj (hi.symm.trans hr'')
      obtain ⟨p, hp, hc⟩ := hok.path
      rw [hl.path_eq_ok hr' hok.pathRange, pathPool_view h] at hp
      exact ⟨hv, hok.pathLen, hpool ▸ hok.pathRange, hok.blockRange, p, hp, hc⟩
    · obtain ⟨i, hi⟩ := List.getElem?_of_mem hr
      obtain ⟨r', hr', hok⟩ := hw.slots i (by rw [hslots]; exact (List.getElem?_eq_some_iff.1 hi).1)
      obtain rfl : r = r' := Option.some.inj (hi.symm.trans ((pathSlot_view h).1 hr'))
      exact hfiles ▸ hok
    · obtain ⟨hv, hok⟩ := hvalid i r hr
      have hs := pageStart_view h hall (List.getElem?_eq_some_iff.1 hr).1.le
      exact ⟨hv, hok.kind, hok.ordinal, hok.plainLen, hs ▸ hok.offset, hs ▸ hok.stop⟩
  · intro hv
    have hall : ∀ r ∈ d.pages, r.Valid := fun r hr => by
      obtain ⟨i, hi⟩ := List.getElem?_of_mem hr
      exact (hv.pages i r hi).1
    refine ⟨hl, hv.mapPages, hv.reusePages, fun i hi => ?_, fun i hi => ?_, fun i hi => ?_, fun i hi => ?_⟩
    · have hr := List.getElem?_eq_getElem (hsegs ▸ hi)
      exact ⟨_, (segment_view h).2 hr, hv.segments _ (List.getElem_mem _)⟩
    · have hr := List.getElem?_eq_getElem (hfiles ▸ hi)
      obtain ⟨hrv, h1, h2, h3, p, hp, hc⟩ := hv.files _ (List.getElem_mem (hfiles ▸ hi))
      have hfile := (file_view h).2 ⟨hr, hrv⟩
      exact ⟨_, hfile, h1, hpool.symm ▸ h2, h3, p, (hl.path_eq_ok hfile (hpool.symm ▸ h2)).2 (pathPool_view h ▸ hp), hc⟩
    · have hr := List.getElem?_eq_getElem (hslots ▸ hi)
      exact ⟨_, (pathSlot_view h).2 hr, fun hne => hfiles.symm ▸ hv.slots _ (List.getElem_mem _) hne⟩
    · have hr := List.getElem?_eq_getElem (hpages ▸ hi)
      obtain ⟨hrv, h1, h2, h3, h4, h5⟩ := hv.pages i _ hr
      have hs := pageStart_view h hall (hpages ▸ hi.le)
      exact ⟨_, (page_view h).2 ⟨hr, hrv⟩, h1, h2, h3, hs.symm ▸ h4, hs.symm ▸ h5⟩

omit [Target] in
theorem slice_wire_header (d : CatalogData) : slice d.wire 0 catalogHeaderSize = d.view.header := by
  have hheader : d.view.header = (d.viewOf []).header := by simp only [Catalog.header, view, viewOf]
  rw [wire, hheader, slice_append_left (by simp)]
  simpa using slice_full (d.viewOf []).header

theorem parse_wire (h : d.Encodable) (hv : d.Valid) : Catalog.parse d.wire = .ok d.view :=
  Catalog.parse_eq_ok.2 ⟨rfl, slice_wire_header d, (wellFormed_view h).2 hv⟩

end CatalogData

/-! ### The records of a view -/

section
variable {ρ : Type} {f : Nat → Result ρ} {n : Nat} {rs : List ρ}

theorem mapM_range_eq_ok :
    (List.range n).mapM f = .ok rs ↔ rs.length = n ∧ ∀ i r, rs[i]? = some r → f i = .ok r := by
  induction n generalizing rs with
  | zero =>
    simp only [List.range_zero, List.mapM_nil, pure_eq_ok, Except.ok.injEq]
    constructor
    · rintro rfl; simp
    · rintro ⟨h, -⟩; exact (List.length_eq_zero_iff.1 h).symm
  | succ n ih =>
    rw [List.range_succ, List.mapM_append]
    simp only [List.mapM_cons, List.mapM_nil, bind_eq_ok, ih, pure_eq_ok, Except.ok.injEq]
    constructor
    · rintro ⟨qs, ⟨rfl, hq⟩, _, ⟨r, hr, _, rfl, rfl⟩, rfl⟩
      refine ⟨by simp, fun i q hi => ?_⟩
      rcases Nat.lt_trichotomy i qs.length with hlt | rfl | hgt
      · exact hq i q (by rwa [List.getElem?_append_left hlt] at hi)
      · obtain rfl : r = q := by simpa using hi
        exact hr
      · rw [List.getElem?_eq_none (by simp; omega)] at hi; cases hi
    · rintro ⟨hlen, h⟩
      obtain ⟨qs, r, rfl⟩ : ∃ qs r, rs = qs ++ [r] := by
        refine ⟨rs.dropLast, rs.getLast (by rintro rfl; simp at hlen), (List.dropLast_append_getLast _).symm⟩
      have hqs : qs.length = n := by simpa using hlen
      refine ⟨qs, ⟨hqs, fun i q hi => h i q ?_⟩, _, ⟨r, h n r ?_, _, rfl, rfl⟩, rfl⟩
      · rw [List.getElem?_append_left (List.getElem?_eq_some_iff.1 hi).1, hi]
      · rw [← hqs]; simp

/-- A loop over total reads collects. -/
theorem exists_mapM_range (h : ∀ i < n, ∃ r, f i = .ok r) : ∃ rs, (List.range n).mapM f = .ok rs := by
  induction n with
  | zero => exact ⟨[], rfl⟩
  | succ n ih =>
    obtain ⟨rs, hrs⟩ := ih fun i hi => h i (by omega)
    obtain ⟨r, hr⟩ := h n (by omega)
    refine ⟨rs ++ [r], ?_⟩
    rw [List.range_succ, List.mapM_append, hrs]
    simp [hr, pure, Except.pure]

end

namespace Catalog
variable [Target] {c : Catalog} {bytes : Bytes} {d : CatalogData}

/-- Collects the records of a catalog through its accessors, with the raw path pool. -/
def toData (c : Catalog) : Result CatalogData := do
  let segments ← (List.range c.segmentCount.toNat).mapM c.segment
  let files ← (List.range c.fileCount.toNat).mapM c.file
  let pathSlots ← (List.range c.pathSlotCount.toNat).mapM c.pathSlot
  let pages ← (List.range c.pageCount.toNat).mapM c.page
  return {
    segments, files, pathSlots, pages
    pathPool := c.pathPool
    totalBlocks := c.totalBlocks
    mapPageCount := c.mapPageCount
    reusePageCount := c.reusePageCount }

/-- The owned catalog holds what the accessors return. -/
structure Records (c : Catalog) (d : CatalogData) : Prop where
  segments_length : d.segments.length = c.segmentCount.toNat
  segments : ∀ i r, d.segments[i]? = some r → c.segment i = .ok r
  files_length : d.files.length = c.fileCount.toNat
  files : ∀ i r, d.files[i]? = some r → c.file i = .ok r
  slots_length : d.pathSlots.length = c.pathSlotCount.toNat
  slots : ∀ i r, d.pathSlots[i]? = some r → c.pathSlot i = .ok r
  pages_length : d.pages.length = c.pageCount.toNat
  pages : ∀ i r, d.pages[i]? = some r → c.page i = .ok r
  pathPool : d.pathPool = c.pathPool
  totalBlocks : d.totalBlocks = c.totalBlocks
  mapPageCount : d.mapPageCount = c.mapPageCount
  reusePageCount : d.reusePageCount = c.reusePageCount

theorem toData_eq_ok : c.toData = .ok d ↔ c.Records d := by
  simp only [toData, bind_eq_ok, mapM_range_eq_ok, pure_eq_ok, Except.ok.injEq]
  constructor
  · rintro ⟨ss, ⟨h1, h2⟩, fs, ⟨h3, h4⟩, sl, ⟨h5, h6⟩, ps, ⟨h7, h8⟩, rfl⟩
    exact ⟨h1, h2, h3, h4, h5, h6, h7, h8, rfl, rfl, rfl, rfl⟩
  · intro h
    refine ⟨_, ⟨h.segments_length, h.segments⟩, _, ⟨h.files_length, h.files⟩, _, ⟨h.slots_length, h.slots⟩,
      _, ⟨h.pages_length, h.pages⟩, ?_⟩
    rw [← h.pathPool, ← h.totalBlocks, ← h.mapPageCount, ← h.reusePageCount]

theorem WellFormed.exists_toData (hw : c.WellFormed) : ∃ d, c.toData = .ok d := by
  obtain ⟨ss, h1⟩ := exists_mapM_range fun i hi => (hw.segments i hi).imp fun _ h => h.1
  obtain ⟨fs, h2⟩ := exists_mapM_range fun i hi => (hw.files i hi).imp fun _ h => h.1
  obtain ⟨sl, h3⟩ := exists_mapM_range fun i hi => (hw.slots i hi).imp fun _ h => h.1
  obtain ⟨ps, h4⟩ := exists_mapM_range fun i hi => (hw.pages i hi).imp fun _ h => h.1
  exact ⟨_, by simp only [toData, h1, h2, h3, h4, ok_bind]; rfl⟩

namespace Records
variable (h : c.Records d) (hl : c.Layout)
include h hl

theorem encodedLen_eq : d.encodedLen = c.bytes.length := by
  rw [CatalogData.encodedLen, h.segments_length, h.files_length, h.slots_length, h.pages_length, h.pathPool,
    Catalog.pathPool, length_slice hl.pool_end, hl.length, hl.pageOffset, hl.pathPoolOffset, hl.pathSlotOffset,
    hl.fileOffset, hl.segmentOffset]

theorem encodable (hlen : c.bytes.length ≤ maxCatalogPlainLen) : d.Encodable where
  segments := h.segments_length ▸ hl.segmentCount
  files := h.files_length ▸ hl.fileCount
  totalBlocks := h.totalBlocks ▸ hl.totalBlocks
  pages := h.pages_length ▸ hl.pageCount
  pathPool := by rw [h.pathPool, Catalog.pathPool, length_slice hl.pool_end]; exact hl.pathPoolLen
  slots_ne := by rintro hnil; exact hl.slotCount_pos (by rw [← h.slots_length, hnil]; rfl)
  slots_pow := h.slots_length ▸ hl.slotCount_pow
  kinds := by rw [h.mapPageCount, h.reusePageCount, h.pages_length]; exact hl.kinds
  encodedLen := by rw [h.encodedLen_eq hl]; exact hlen

theorem header_eq : (d.viewOf []).header = c.header := by
  have hpool : d.pathPool.length = c.pathPoolLen.toNat := by rw [h.pathPool, Catalog.pathPool, length_slice hl.pool_end]
  simp only [Catalog.header, CatalogData.viewOf, h.segments_length, h.files_length, h.slots_length, h.pages_length,
    hpool, h.totalBlocks, h.mapPageCount, h.reusePageCount, UInt32.ofNat_toNat, hl.pageOffset, hl.pathPoolOffset,
    hl.pathSlotOffset, hl.fileOffset, hl.segmentOffset]

/-- A catalog's bytes are the wire form of its records. -/
theorem bytes_eq (hheader : slice c.bytes 0 catalogHeaderSize = c.header) : c.bytes = d.wire := by
  have hsegs : slice c.bytes c.segmentOffset (c.segmentCount.toNat * segmentRecordSize) =
      d.segments.flatMap SegmentRecord.encode := by
    refine eq_flatMap_of_slices (by rw [length_slice hl.segments_end, h.segments_length]) fun i r hr => ?_
    obtain ⟨hi, hs⟩ := hl.segment_eq_ok.1 (h.segments i r hr)
    rw [slice_slice (by rw [← Nat.add_one_mul]; exact Nat.mul_le_mul_right _ hi), hs]
  have hfiles : slice c.bytes c.fileOffset (c.fileCount.toNat * fileRecordSize) = d.files.flatMap FileRecord.encode := by
    refine eq_flatMap_of_slices (by rw [length_slice hl.files_end, h.files_length]) fun i r hr => ?_
    obtain ⟨hi, hs, -⟩ := hl.file_eq_ok.1 (h.files i r hr)
    rw [slice_slice (by rw [← Nat.add_one_mul]; exact Nat.mul_le_mul_right _ hi), hs]
  have hslots : slice c.bytes c.pathSlotOffset (c.pathSlotCount.toNat * pathSlotSize) =
      d.pathSlots.flatMap PathSlot.encode := by
    refine eq_flatMap_of_slices (by rw [length_slice hl.slots_end, h.slots_length]) fun i r hr => ?_
    obtain ⟨hi, hs⟩ := hl.pathSlot_eq_ok.1 (h.slots i r hr)
    rw [slice_slice (by rw [← Nat.add_one_mul]; exact Nat.mul_le_mul_right _ hi), hs]
  have hpages : slice c.bytes c.pageOffset (c.pageCount.toNat * pageRecordSize) = d.pages.flatMap PageRecord.encode := by
    refine eq_flatMap_of_slices (by rw [length_slice hl.pages_end, h.pages_length]) fun i r hr => ?_
    obtain ⟨hi, hs, -⟩ := hl.page_eq_ok.1 (h.pages i r hr)
    rw [slice_slice (by rw [← Nat.add_one_mul]; exact Nat.mul_le_mul_right _ hi), hs]
  have hlen : c.bytes.length = catalogHeaderSize + c.segmentCount.toNat * segmentRecordSize +
      c.fileCount.toNat * fileRecordSize + c.pathSlotCount.toNat * pathSlotSize + c.pathPoolLen.toNat +
      c.pageCount.toNat * pageRecordSize := by
    rw [hl.length, hl.pageOffset, hl.pathPoolOffset, hl.pathSlotOffset, hl.fileOffset, hl.segmentOffset]
  rw [CatalogData.wire_eq, h.header_eq hl, ← hheader, ← hsegs, ← hfiles, ← hslots, h.pathPool, ← hpages, Catalog.pathPool]
  simp only [hl.pageOffset, hl.pathPoolOffset, hl.pathSlotOffset, hl.fileOffset, hl.segmentOffset]
  conv_lhs => rw [← slice_full c.bytes, hlen, slice_add, slice_add, slice_add, slice_add, slice_add]
  simp only [Nat.zero_add]

end Records

/-- Parsing, then collecting, then encoding reproduces the bytes. -/
theorem encode_of_parse (hp : Catalog.parse bytes = .ok c) (hlen : bytes.length ≤ maxCatalogPlainLen) :
    ∃ d, c.toData = .ok d ∧ d.encode = .ok bytes := by
  obtain ⟨rfl, hheader, hw⟩ := parse_eq_ok.1 hp
  obtain ⟨d, hd⟩ := hw.exists_toData
  have hr := toData_eq_ok.1 hd
  exact ⟨d, hd, CatalogData.encode_eq_ok.2 ⟨hr.encodable hw.toLayout hlen, hr.bytes_eq hw.toLayout hheader⟩⟩

/-- Two views of the same bytes with the same header are equal. -/
theorem Layout.eq_of_header {c' : Catalog} (hl : c.Layout) (hl' : c'.Layout) (hb : c.bytes = c'.bytes)
    (hh : c.header = c'.header) : c = c' := by
  rw [Catalog.header_eq, Catalog.header_eq] at hh
  have hh := flatten_inj (by simp) hh
  simp only [List.cons.injEq, u32Bytes_injective.eq_iff] at hh
  obtain ⟨-, -, -, h1, h2, h3, h4, h5, h6, h7, h8, -⟩ := hh
  have o1 := hl.segmentOffset.trans hl'.segmentOffset.symm
  have o2 : c.fileOffset = c'.fileOffset := by rw [hl.fileOffset, hl'.fileOffset, o1, h1]
  have o3 : c.pathSlotOffset = c'.pathSlotOffset := by rw [hl.pathSlotOffset, hl'.pathSlotOffset, o2, h2]
  have o4 : c.pathPoolOffset = c'.pathPoolOffset := by rw [hl.pathPoolOffset, hl'.pathPoolOffset, o3, h5]
  have o5 : c.pageOffset = c'.pageOffset := by rw [hl.pageOffset, hl'.pageOffset, o4, h4]
  obtain ⟨⟩ := c
  obtain ⟨⟩ := c'
  simp_all

theorem records_view (h : d.Encodable) (hv : d.Valid) : d.view.Records d where
  segments_length := by rw [CatalogData.view, CatalogData.viewOf, h.toNat_segments]
  segments _ _ := (CatalogData.segment_view h).2
  files_length := by rw [CatalogData.view, CatalogData.viewOf, h.toNat_files]
  files _ r hr := (CatalogData.file_view h).2 ⟨hr, (hv.files r (List.mem_of_getElem? hr)).1⟩
  slots_length := by rw [CatalogData.view, CatalogData.viewOf, h.toNat_slots]
  slots _ _ := (CatalogData.pathSlot_view h).2
  pages_length := by rw [CatalogData.view, CatalogData.viewOf, h.toNat_pages]
  pages i r hr := (CatalogData.page_view h).2 ⟨hr, (hv.pages i r hr).1⟩
  pathPool := (CatalogData.pathPool_view h).symm
  totalBlocks := rfl
  mapPageCount := rfl
  reusePageCount := rfl

theorem path_view (h : d.Encodable) (hv : d.Valid) {i : Nat} {r : FileRecord} {p : String}
    (hr : d.files[i]? = some r) :
    d.view.path i = .ok p ↔ slice d.pathPool r.pathOffset.toNat r.pathLen.toNat = strBytes p := by
  obtain ⟨hrv, -, hrange, -⟩ := hv.files r (List.mem_of_getElem? hr)
  have hpool : d.view.pathPoolLen.toNat = d.pathPool.length := by
    rw [CatalogData.view, CatalogData.viewOf, h.toNat_pool]
  rw [(CatalogData.layout_view h).path_eq_ok ((CatalogData.file_view h).2 ⟨hr, hrv⟩) (hpool ▸ hrange),
    CatalogData.pathPool_view h]

/-- A parsed wire form is the view of the records it was made from, and these are valid. -/
theorem eq_view_of_parse (hd : d.Encodable) (hp : Catalog.parse d.wire = .ok c) : c = d.view ∧ d.Valid := by
  obtain ⟨hb, hheader, hw⟩ := parse_eq_ok.1 hp
  obtain rfl := hw.toLayout.eq_of_header (CatalogData.layout_view hd) hb
    (hheader.symm.trans (CatalogData.slice_wire_header d))
  exact ⟨rfl, (CatalogData.wellFormed_view hd).1 hw⟩

end Catalog

/-! ### A sample catalog -/

def sampleSegment : SegmentRecord where
  id := ⟨ByteArr.replicate 32 7⟩
  uid := ByteArr.replicate 16 1
  salt := ByteArr.replicate 16 2
  noncePrefix := ByteArr.replicate 8 3
  fileLen := 148
  payloadLen := 20
  blockCount := 1
  availability := .required

def samplePage (kind : PageKind) (ordinal : UInt32) (offset : UInt64) (plainLen : UInt32) : PageRecord where
  kind := kind
  codec := .raw
  nonceOrdinal := ordinal
  relativeOffset := offset
  storedLen := plainLen + 16
  plainLen := plainLen
  digest := ByteArr.replicate 32 0

/-- One file `a` of four bytes in one block of one segment. -/
def sampleCatalog : CatalogData where
  segments := [sampleSegment]
  files := [⟨0, 1, .fixed, .normal, 4, 0, 1, 65536⟩]
  pathSlots := [⟨0, emptyPathSlot⟩, ⟨97, 0⟩]
  pathPool := [97]
  pages := [samplePage .blockMap 1 0 64, samplePage .reuse 2 80 48]
  totalBlocks := 1
  mapPageCount := 1
  reusePageCount := 1

theorem sampleCatalog_encodable : sampleCatalog.Encodable := by
  constructor <;> decide

theorem sampleCatalog_valid : sampleCatalog.Valid where
  mapPages := by decide
  reusePages := by decide
  segments := by decide
  files r hr := by
    obtain rfl := List.mem_singleton.1 hr
    exact ⟨by constructor <;> decide, by decide, by decide, by decide, "a", by decide, by decide⟩
  slots := by decide
  pages i r hr := by
    match i with
    | 0 =>
      obtain rfl := Option.some.inj hr
      exact ⟨⟨by decide, by decide, rfl⟩, by decide, by decide, by decide, by decide, by decide⟩
    | 1 =>
      obtain rfl := Option.some.inj hr
      exact ⟨⟨by decide, by decide, rfl⟩, by decide, by decide, by decide, by decide, by decide⟩

end Hakutaku
