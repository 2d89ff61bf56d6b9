import Hakutaku.Catalog

/-!
# What `Catalog.parse` accepts

`parse_eq_ok` splits acceptance into the 64 header bytes, the table layout (`Layout`) and the facts
about the records (`WellFormed`), all stated through the accessors. The accessors themselves are
slices of the byte string (`segment_eq_ok`, …), so both directions of the codec are about slices.
-/

namespace Hakutaku
open Wire

/-! ### Loops -/

section Loop
variable {σ : Type} {body : Nat → σ → Result σ} {s t : σ} {n : Nat}

theorem forUpTo_unit_eq_ok {body : Nat → Unit → Result Unit} {u : Unit} :
    forUpTo body () n = .ok u ↔ ∀ i < n, body i () = .ok () := by
  induction n with
  | zero => simp [forUpTo]
  | succ n ih =>
    simp only [forUpTo, bind_eq_ok, ih]
    constructor
    · rintro ⟨_, h, hn⟩ i hi
      rcases Nat.lt_succ_iff_lt_or_eq.1 hi with hi | rfl
      · exact h i hi
      · exact hn
    · exact fun h => ⟨(), fun i hi => h i (by omega), h n (by omega)⟩

/-- A loop whose body returns a known next state exactly under a condition. -/
theorem forUpTo_eq_ok {P : Nat → Prop} {f : Nat → σ} (hbody : ∀ i t, body i (f i) = .ok t ↔ P i ∧ t = f (i + 1)) :
    forUpTo body (f 0) n = .ok t ↔ (∀ i < n, P i) ∧ t = f n := by
  induction n generalizing t with
  | zero => simp [forUpTo, eq_comm]
  | succ n ih =>
    simp only [forUpTo, bind_eq_ok, ih]
    constructor
    · rintro ⟨_, ⟨h, rfl⟩, hn⟩
      obtain ⟨hP, rfl⟩ := (hbody n t).1 hn
      refine ⟨fun i hi => ?_, rfl⟩
      rcases Nat.lt_succ_iff_lt_or_eq.1 hi with hi | rfl
      · exact h i hi
      · exact hP
    · rintro ⟨h, rfl⟩
      exact ⟨_, ⟨fun i hi => h i (by omega), rfl⟩, (hbody n _).2 ⟨h n (by omega), rfl⟩⟩

theorem NoPanic.forUpTo {I : Nat → σ → Prop} (h0 : I 0 s) (hbody : ∀ i s, i < n → I i s → NoPanic (body i s))
    (hstep : ∀ i s t, i < n → I i s → body i s = .ok t → I (i + 1) t) :
    NoPanic (forUpTo body s n) ∧ ∀ t, Hakutaku.forUpTo body s n = .ok t → I n t := by
  induction n with
  | zero => exact ⟨.ok _, by rintro t ⟨⟩; exact h0⟩
  | succ n ih =>
    obtain ⟨hp, hI⟩ := ih (fun i s hi => hbody i s (by omega)) fun i s t hi => hstep i s t (by omega)
    refine ⟨.bind hp fun t ht => hbody n t (by omega) (hI t ht), fun t ht => ?_⟩
    obtain ⟨u, hu, ht⟩ := bind_eq_ok.1 ht
    exact hstep n u t (by omega) (hI u hu) ht

end Loop

section
variable {n m : Nat} {name : String}

theorem validateCount_eq_ok {u : Unit} : validateCount n m name = .ok u ↔ n ≤ m := by
  simp [validateCount]

theorem NoPanic.validateCount : NoPanic (validateCount n m name) :=
  .ite (fun _ => .fail _) fun _ => .ok _

variable [Target] {start count size stop : Nat}

theorem checkedTableEnd_eq_ok :
    checkedTableEnd start count size = .ok stop ↔ start + count * size < usizeSize ∧ stop = start + count * size := by
  simp only [checkedTableEnd, bind_eq_ok, okOr_eq_ok, checkedMul_eq_some, checkedAdd_eq_some, and_assoc,
    exists_and_left, exists_eq_left]
  constructor
  · rintro ⟨-, h, rfl⟩; exact ⟨h, rfl⟩
  · rintro ⟨h, rfl⟩; exact ⟨by omega, h, rfl⟩

theorem NoPanic.checkedTableEnd : NoPanic (checkedTableEnd start count size) :=
  .bind (.okOr _ _) fun _ _ => .okOr _ _

end

namespace Catalog
variable [Target] {c : Catalog} {bytes : Bytes} {i : Nat}

/-! ### Layout and header -/

/-- The counts within their limits and the five tables back to back after the header. -/
structure Layout (c : Catalog) : Prop where
  segmentCount : c.segmentCount.toNat ≤ maxSegments
  fileCount : c.fileCount.toNat ≤ maxFiles
  totalBlocks : c.totalBlocks.toNat ≤ maxBlocks
  pageCount : c.pageCount.toNat ≤ maxPages
  pathPoolLen : c.pathPoolLen.toNat ≤ maxPathPoolLen
  slotCount_pos : c.pathSlotCount.toNat ≠ 0
  slotCount_pow : c.pathSlotCount.toNat.isPowerOfTwo
  kinds : c.mapPageCount.toNat + c.reusePageCount.toNat = c.pageCount.toNat
  segmentOffset : c.segmentOffset = catalogHeaderSize
  fileOffset : c.fileOffset = c.segmentOffset + c.segmentCount.toNat * segmentRecordSize
  pathSlotOffset : c.pathSlotOffset = c.fileOffset + c.fileCount.toNat * fileRecordSize
  pathPoolOffset : c.pathPoolOffset = c.pathSlotOffset + c.pathSlotCount.toNat * pathSlotSize
  pageOffset : c.pageOffset = c.pathPoolOffset + c.pathPoolLen.toNat
  pageOffset_lt : c.pageOffset < u32Size
  length : c.bytes.length = c.pageOffset + c.pageCount.toNat * pageRecordSize
  addressable : c.bytes.length < usizeSize

/-- The 64 bytes of the header a view stands for. -/
def header (c : Catalog) : Bytes :=
  catalogHeaderBytes c.segmentCount c.fileCount c.totalBlocks c.pathPoolLen c.pathSlotCount c.pageCount
    c.mapPageCount c.reusePageCount (UInt32.ofNat c.segmentOffset) (UInt32.ofNat c.fileOffset)
    (UInt32.ofNat c.pathSlotOffset) (UInt32.ofNat c.pathPoolOffset) (UInt32.ofNat c.pageOffset)

omit [Target] in
theorem header_eq (c : Catalog) : c.header =
    [catalogMagic, u16Bytes formatMajor, u16Bytes 64, u32Bytes c.segmentCount, u32Bytes c.fileCount,
      u32Bytes c.totalBlocks, u32Bytes c.pathPoolLen, u32Bytes c.pathSlotCount, u32Bytes c.pageCount,
      u32Bytes c.mapPageCount, u32Bytes c.reusePageCount, u32Bytes (UInt32.ofNat c.segmentOffset),
      u32Bytes (UInt32.ofNat c.fileOffset), u32Bytes (UInt32.ofNat c.pathSlotOffset),
      u32Bytes (UInt32.ofNat c.pathPoolOffset), u32Bytes (UInt32.ofNat c.pageOffset)].flatten := by
  have hm : catalogMagic.length = 8 := rfl
  simp only [header, catalogHeaderBytes]
  rw [putAt_zeros_nil (by simp [catalogHeaderSize, hm])]
  simp (disch := simp [catalogHeaderSize, hm]) only [putAt_zeros]
  simp [catalogHeaderSize, hm]

omit [Target] in
@[simp] theorem length_header (c : Catalog) : c.header.length = catalogHeaderSize := by
  have hm : catalogMagic.length = 8 := rfl
  simp [header_eq, hm, catalogHeaderSize]

theorem parseHeader_eq_ok :
    parseHeader bytes = .ok c ↔ c.bytes = bytes ∧ slice bytes 0 catalogHeaderSize = c.header ∧ c.Layout := by
  have hu := le_usizeSize
  have hm : catalogMagic.length = 8 := rfl
  simp only [parseHeader, bind_eq_ok, requireLen_eq_ok, requireMagic_eq_ok, readU16_eq_ok, readU32_eq_ok,
    validateCount_eq_ok, fail_bind, ite_fail_eq_ok, plainAdd_eq_ok, plainMul_eq_ok, checkedTableEnd_eq_ok,
    okOr_eq_ok, checkedAdd_eq_some, pure_eq_ok, Except.ok.injEq, header_eq, eq_flatten_iff]
  constructor
  · rintro ⟨-, hle, -, ⟨-, hmag⟩, ma, ⟨-, -, hma⟩, hma', hs, ⟨-, -, hhs⟩, hs', rest⟩
    obtain ⟨sc, ⟨-, -, hsc⟩, fc, ⟨-, -, hfc⟩, tb, ⟨-, -, htb⟩, ppl, ⟨-, -, hppl⟩, rest⟩ := rest
    obtain ⟨psc, ⟨-, -, hpsc⟩, pc, ⟨-, -, hpc⟩, mpc, ⟨-, -, hmpc⟩, rpc, ⟨-, -, hrpc⟩, rest⟩ := rest
    obtain ⟨-, hsc', -, hfc', -, htb', -, hpc', -, hppl', hpow, hkinds, rest⟩ := rest
    obtain ⟨so, ⟨-, -, hso⟩, fo, ⟨-, -, hfo⟩, pso, ⟨-, -, hpso⟩, ppo, ⟨-, -, hppo⟩, po, ⟨-, -, hpo⟩, rest⟩ := rest
    obtain ⟨n1, ⟨-, e1⟩, n2, ⟨-, e2⟩, n3, ⟨-, e3⟩, n4, ⟨-, e4⟩, n5, ⟨-, e5⟩, n6, ⟨-, e6⟩, rest⟩ := rest
    obtain ⟨n7, ⟨hadr, e7⟩, hlay, rfl⟩ := rest
    have hlen := length_slice_zero hle
    obtain rfl : ma = formatMajor := not_not.1 hma'
    obtain rfl : hs = 64 := UInt16.toNat_inj.1 (not_not.1 hs')
    obtain ⟨hso', hfo', hpso', hppo', hpo', hlen'⟩ := not_not.1 hlay
    rw [not_or, not_not] at hpow
    rw [not_not, checkedAdd_eq_some] at hkinds
    refine ⟨rfl, ?_, ?_⟩
    · clear hma' hs' hsc' hfc' htb' hpc' hppl' hpow hkinds hlay hso' hfo' hpso' hppo' hpo' hlen' hadr e1 e2 e3 e4 e5 e6 e7
      simp [Fields, catalogHeaderSize, slice_slice, *] at *
    · refine ⟨hsc', hfc', htb', hpc', hppl', hpow.1, hpow.2, hkinds.2.symm, hso', ?_, ?_, ?_, ?_, po.toNat_lt, ?_, ?_⟩
        <;> simp only <;> omega
  · rintro ⟨rfl, h, hl⟩
    obtain ⟨h1, h2, h3, h4, h5, h6, h7, h8, h9, h10, h11, h12, h13, h14, h15, h16⟩ := hl
    have hle : catalogHeaderSize ≤ c.bytes.length := by omega
    have hlen := length_slice_zero hle
    simp only [Fields, hlen, length_u32Bytes, length_u16Bytes, hm, Nat.zero_add] at h
    obtain ⟨-, hmag, -, hma, -, hhs, -, hsc, -, hfc, -, htb, -, hppl, -, hpsc, -, hpc, -, hmpc, -, hrpc, -, hso,
      -, hfo, -, hpso, -, hppo, -, hpo, -⟩ := h
    simp (disch := simp) only [Nat.reduceAdd, catalogHeaderSize, slice_slice, Nat.zero_add] at *
    have hpc32 := c.pageCount.toNat_lt
    have toNat_offset : ∀ {n}, n ≤ c.pageOffset → (UInt32.ofNat n).toNat = n := fun hn =>
      UInt32.toNat_ofNat_of_lt' (by show _ < u32Size; omega)
    have e1 : (UInt32.ofNat c.segmentOffset).toNat = c.segmentOffset := toNat_offset (by omega)
    have e2 : (UInt32.ofNat c.fileOffset).toNat = c.fileOffset := toNat_offset (by omega)
    have e3 : (UInt32.ofNat c.pathSlotOffset).toNat = c.pathSlotOffset := toNat_offset (by omega)
    have e4 : (UInt32.ofNat c.pathPoolOffset).toNat = c.pathPoolOffset := toNat_offset (by omega)
    have e5 : (UInt32.ofNat c.pageOffset).toNat = c.pageOffset := toNat_offset le_rfl
    refine ⟨(), hle, (), ⟨by omega, hmag⟩, _, ⟨by omega, by omega, hma⟩, by simp, _, ⟨by omega, by omega, hhs⟩, by simp,
      _, ⟨by omega, by omega, hsc⟩, _, ⟨by omega, by omega, hfc⟩, _, ⟨by omega, by omega, htb⟩,
      _, ⟨by omega, by omega, hppl⟩, _, ⟨by omega, by omega, hpsc⟩, _, ⟨by omega, by omega, hpc⟩,
      _, ⟨by omega, by omega, hmpc⟩, _, ⟨by omega, by omega, hrpc⟩,
      (), h1, (), h2, (), h3, (), h4, (), h5, by simp [h6, h7], ?_,
      _, ⟨by omega, by omega, hso⟩, _, ⟨by omega, by omega, hfo⟩, _, ⟨by omega, by omega, hpso⟩,
      _, ⟨by omega, by omega, hppo⟩, _, ⟨by omega, by omega, hpo⟩,
      _, ⟨by omega, rfl⟩, _, ⟨by omega, rfl⟩, _, ⟨by omega, rfl⟩, _, ⟨by omega, rfl⟩, _, ⟨by omega, rfl⟩,
      _, ⟨by omega, rfl⟩, _, ⟨by omega, rfl⟩, ?_, ?_⟩
    · rw [not_not, checkedAdd_eq_some]; exact ⟨h8 ▸ hpc32, h8.symm⟩
    · rw [not_not]; omega
    · rw [e1, e2, e3, e4, e5]

/-! ### Accessors -/

theorem segment_of_ge (h : c.segmentCount.toNat ≤ i) : c.segment i = fail (.invalidFormat "segment index") := by
  rw [segment, if_pos h, fail_bind]

theorem file_of_ge (h : c.fileCount.toNat ≤ i) : c.file i = fail (.invalidFormat "file index") := by
  rw [file, if_pos h, fail_bind]

theorem pathSlot_of_ge (h : c.pathSlotCount.toNat ≤ i) : c.pathSlot i = fail (.invalidFormat "path slot index") := by
  rw [pathSlot, if_pos h, fail_bind]

theorem page_of_ge (h : c.pageCount.toNat ≤ i) : c.page i = fail (.invalidFormat "page index") := by
  rw [page, if_pos h, fail_bind]

namespace Layout
variable (h : c.Layout)
include h

/-- A row of a table whose end lies inside the byte string. -/
theorem row_lt {start count size index : Nat} (hend : start + count * size ≤ c.bytes.length) (hi : index < count) :
    start + index * size + size ≤ c.bytes.length ∧ start + index * size + size < usizeSize := by
  have hrow : (index + 1) * size ≤ count * size := Nat.mul_le_mul_right _ hi
  have := h.addressable
  rw [Nat.add_mul, Nat.one_mul] at hrow
  omega

theorem segments_end : c.segmentOffset + c.segmentCount.toNat * segmentRecordSize ≤ c.bytes.length := by
  have := h.fileOffset; have := h.pathSlotOffset; have := h.pathPoolOffset; have := h.pageOffset; have := h.length
  omega

theorem files_end : c.fileOffset + c.fileCount.toNat * fileRecordSize ≤ c.bytes.length := by
  have := h.pathSlotOffset; have := h.pathPoolOffset; have := h.pageOffset; have := h.length
  omega

theorem slots_end : c.pathSlotOffset + c.pathSlotCount.toNat * pathSlotSize ≤ c.bytes.length := by
  have := h.pathPoolOffset; have := h.pageOffset; have := h.length
  omega

theorem pool_end : c.pathPoolOffset + c.pathPoolLen.toNat ≤ c.bytes.length := by
  have := h.pageOffset; have := h.length
  omega

theorem pages_end : c.pageOffset + c.pageCount.toNat * pageRecordSize ≤ c.bytes.length := h.length.ge

theorem segment_eq_ok {r : SegmentRecord} :
    c.segment i = .ok r ↔ i < c.segmentCount.toNat ∧
      slice c.bytes (c.segmentOffset + i * segmentRecordSize) segmentRecordSize = r.encode := by
  simp only [segment, fail_bind, ite_fail_eq_ok, bind_eq_ok, tableOffset, checkedTableEnd_eq_ok, not_le,
    SegmentRecord.parse_eq_ok]
  constructor
  · rintro ⟨hi, _, ⟨-, rfl⟩, -, -, hr⟩; exact ⟨hi, hr⟩
  · rintro ⟨hi, hr⟩
    have hrow := h.row_lt h.segments_end hi
    exact ⟨hi, _, ⟨by omega, rfl⟩, hrow.2, hrow.1, hr⟩

theorem file_eq_ok {r : FileRecord} :
    c.file i = .ok r ↔ i < c.fileCount.toNat ∧
      slice c.bytes (c.fileOffset + i * fileRecordSize) fileRecordSize = r.encode ∧ r.Valid := by
  simp only [file, fail_bind, ite_fail_eq_ok, bind_eq_ok, tableOffset, checkedTableEnd_eq_ok, not_le,
    FileRecord.parse_eq_ok]
  constructor
  · rintro ⟨hi, _, ⟨-, rfl⟩, -, -, hr⟩; exact ⟨hi, hr⟩
  · rintro ⟨hi, hr⟩
    have hrow := h.row_lt h.files_end hi
    exact ⟨hi, _, ⟨by omega, rfl⟩, hrow.2, hrow.1, hr⟩

theorem pathSlot_eq_ok {r : PathSlot} :
    c.pathSlot i = .ok r ↔ i < c.pathSlotCount.toNat ∧
      slice c.bytes (c.pathSlotOffset + i * pathSlotSize) pathSlotSize = r.encode := by
  simp only [pathSlot, fail_bind, ite_fail_eq_ok, bind_eq_ok, tableOffset, checkedTableEnd_eq_ok, not_le,
    PathSlot.parse_eq_ok]
  constructor
  · rintro ⟨hi, _, ⟨-, rfl⟩, -, -, hr⟩; exact ⟨hi, hr⟩
  · rintro ⟨hi, hr⟩
    have hrow := h.row_lt h.slots_end hi
    exact ⟨hi, _, ⟨by omega, rfl⟩, hrow.2, hrow.1, hr⟩

theorem page_eq_ok {r : PageRecord} :
    c.page i = .ok r ↔ i < c.pageCount.toNat ∧
      slice c.bytes (c.pageOffset + i * pageRecordSize) pageRecordSize = r.encode ∧ r.Valid := by
  simp only [page, fail_bind, ite_fail_eq_ok, bind_eq_ok, tableOffset, checkedTableEnd_eq_ok, not_le,
    PageRecord.parse_eq_ok]
  constructor
  · rintro ⟨hi, _, ⟨-, rfl⟩, -, -, hr⟩; exact ⟨hi, hr⟩
  · rintro ⟨hi, hr⟩
    have hrow := h.row_lt h.pages_end hi
    exact ⟨hi, _, ⟨by omega, rfl⟩, hrow.2, hrow.1, hr⟩

end Layout

/-- The raw path pool of a view. -/
def pathPool (c : Catalog) : Bytes := slice c.bytes c.pathPoolOffset c.pathPoolLen.toNat

/-- A file whose path range lies in the pool: `path` decodes that range. -/
theorem Layout.path_eq_ok (h : c.Layout) {r : FileRecord} {p : String} (hr : c.file i = .ok r)
    (hrange : r.pathOffset.toNat + r.pathLen.toNat ≤ c.pathPoolLen.toNat) :
    c.path i = .ok p ↔ slice c.pathPool r.pathOffset.toNat r.pathLen.toNat = strBytes p := by
  have hend := h.pool_end
  have hadr := h.addressable
  simp only [path, pathBytes, bind_eq_ok, okOr_eq_ok, checkedAdd_eq_some, checkedSlice_eq_ok, fromUtf8_eq_some,
    hr, Except.ok.injEq, pathPool, slice_slice hrange]
  constructor
  · rintro ⟨_, ⟨_, rfl, _, ⟨-, rfl⟩, -, -, rfl⟩, hp⟩; exact hp
  · intro hp
    exact ⟨_, ⟨_, rfl, _, ⟨by omega, rfl⟩, by omega, by omega, rfl⟩, hp⟩

/-! ### Acceptance -/

/-- The stored length of a page, zero past the table. -/
def storedLen (c : Catalog) (i : Nat) : Nat :=
  match c.page i with
  | .ok r => r.storedLen.toNat
  | .error _ => 0

/-- Where page `i` starts in the page region. -/
def pageStart (c : Catalog) : Nat → Nat
  | 0 => 0
  | i + 1 => c.pageStart i + c.storedLen i

/-- The kind of the page with a given index. -/
def pageKind (c : Catalog) (i : Nat) : PageKind := if i < c.mapPageCount.toNat then .blockMap else .reuse

end Catalog

/-- Records held by one page of a kind. -/
def PageKind.capacity : PageKind → Nat
  | .blockMap => blocksPerMapPage
  | .reuse => reusePerPage

def PageKind.recordSize : PageKind → Nat
  | .blockMap => blockRefSize
  | .reuse => reuseRecordSize

namespace Catalog
variable [Target] {c : Catalog} {bytes : Bytes} {i : Nat}

/-- Index of a page among those of its kind. -/
def localPage (c : Catalog) (i : Nat) : Nat := match c.pageKind i with
  | .blockMap => i
  | .reuse => i - c.mapPageCount.toNat

/-- Number of records page `i` holds. -/
def recordCount (c : Catalog) (i : Nat) : Nat :=
  min (c.totalBlocks.toNat - c.localPage i * (c.pageKind i).capacity) (c.pageKind i).capacity

/-- What the validation pass requires of page `i`. -/
structure PageOk (c : Catalog) (i : Nat) (r : PageRecord) : Prop where
  kind : r.kind = c.pageKind i
  ordinal : r.nonceOrdinal.toNat = i + 1
  plainLen : r.plainLen.toNat = pageHeaderSize + c.recordCount i * (c.pageKind i).recordSize
  offset : r.relativeOffset.toNat = c.pageStart i
  stop : c.pageStart i + r.storedLen.toNat < u64Size

/-- What the validation pass requires of file `i`. -/
structure FileOk (c : Catalog) (i : Nat) (r : FileRecord) : Prop where
  pathLen : r.pathLen.toNat ≠ 0
  pathRange : r.pathOffset.toNat + r.pathLen.toNat ≤ c.pathPoolLen.toNat
  blockRange : r.firstBlock.toNat + r.blockCount.toNat ≤ c.totalBlocks.toNat
  path : ∃ p, c.path i = .ok p ∧ Canonical p

/-- The layout together with what the validation pass establishes. -/
structure WellFormed (c : Catalog) : Prop extends c.Layout where
  mapPages : c.mapPageCount.toNat = divCeil c.totalBlocks.toNat blocksPerMapPage
  reusePages : c.reusePageCount.toNat = divCeil c.totalBlocks.toNat reusePerPage
  segments : ∀ i < c.segmentCount.toNat, ∃ r, c.segment i = .ok r ∧
    r.fileLen.toNat = segmentHeaderSize + r.payloadLen.toNat
  files : ∀ i < c.fileCount.toNat, ∃ r, c.file i = .ok r ∧ c.FileOk i r
  slots : ∀ i < c.pathSlotCount.toNat, ∃ r, c.pathSlot i = .ok r ∧
    (r.fileIndex ≠ emptyPathSlot → r.fileIndex.toNat < c.fileCount.toNat)
  pages : ∀ i < c.pageCount.toNat, ∃ r, c.page i = .ok r ∧ c.PageOk i r

theorem validateSegment_eq_ok {u : Unit} :
    c.validateSegment i = .ok u ↔ ∃ r, c.segment i = .ok r ∧ r.fileLen.toNat = segmentHeaderSize + r.payloadLen.toNat := by
  simp only [validateSegment, bind_eq_ok, okOr_eq_ok, checkedAdd_eq_some, ite_fail_eq_ok, pure_eq_ok]
  constructor
  · rintro ⟨r, hr, _, ⟨-, rfl⟩, hl, -⟩; exact ⟨r, hr, not_not.1 hl⟩
  · rintro ⟨r, hr, hl⟩
    have := r.fileLen.toNat_lt
    exact ⟨r, hr, _, ⟨by show _ < 2 ^ 64; omega, rfl⟩, not_not.2 hl, trivial⟩

theorem validateFile_eq_ok {u : Unit} : c.validateFile i = .ok u ↔ ∃ r, c.file i = .ok r ∧ c.FileOk i r := by
  have hu := le_usizeSize
  simp only [validateFile, bind_eq_ok, okOr_eq_ok, checkedAdd_eq_some, fail_bind, ite_fail_eq_ok,
    validateCanonicalPath_eq_ok]
  constructor
  · rintro ⟨r, hr, _, ⟨-, rfl⟩, hp, _, ⟨-, rfl⟩, hb, hc⟩
    rw [not_or, not_lt] at hp
    exact ⟨r, hr, hp.1, hp.2, not_lt.1 hb, hc⟩
  · rintro ⟨r, hr, h1, h2, h3, h4⟩
    have := c.totalBlocks.toNat_lt
    have := c.pathPoolLen.toNat_lt
    exact ⟨r, hr, _, ⟨by omega, rfl⟩, by omega, _, ⟨by show _ < 2 ^ 32; omega, rfl⟩, by omega, h4⟩

theorem validateSlot_eq_ok {u : Unit} :
    c.validateSlot i = .ok u ↔ ∃ r, c.pathSlot i = .ok r ∧
      (r.fileIndex ≠ emptyPathSlot → r.fileIndex.toNat < c.fileCount.toNat) := by
  simp only [validateSlot, bind_eq_ok, ite_fail_eq_ok, pure_eq_ok, not_and, not_le, and_true]

theorem validatePageShape_eq_ok {r : PageRecord} {capacity recordSize localPage start stop : Nat}
    (hfirst : localPage * capacity < u32Size) (hsize : pageHeaderSize + capacity * recordSize < 2 ^ 32) :
    c.validatePageShape r capacity recordSize localPage start = .ok stop ↔
      r.plainLen.toNat = pageHeaderSize + min (c.totalBlocks.toNat - localPage * capacity) capacity * recordSize ∧
      r.relativeOffset.toNat = start ∧ start + r.storedLen.toNat < u64Size ∧ stop = start + r.storedLen.toNat := by
  have hu := le_usizeSize
  have hmin : min (c.totalBlocks.toNat - localPage * capacity) capacity * recordSize ≤ capacity * recordSize :=
    Nat.mul_le_mul_right _ (min_le_right _ _)
  simp only [validatePageShape, bind_eq_ok, okOr_eq_ok, checkedMul_eq_some, checkedAdd_eq_some, fail_bind,
    ite_fail_eq_ok]
  constructor
  · rintro ⟨_, ⟨-, rfl⟩, _, ⟨-, rfl⟩, _, ⟨-, rfl⟩, hp, ho, hs⟩
    exact ⟨not_not.1 hp, not_not.1 ho, hs⟩
  · rintro ⟨hp, ho, hs⟩
    exact ⟨_, ⟨hfirst, rfl⟩, _, ⟨by omega, rfl⟩, _, ⟨by omega, rfl⟩, not_not.2 hp, not_not.2 ho, hs⟩

theorem pageStart_succ {r : PageRecord} (hr : c.page i = .ok r) :
    c.pageStart (i + 1) = c.pageStart i + r.storedLen.toNat := by
  simp [pageStart, storedLen, hr]

omit [Target] in
theorem pageKind_of_lt (hi : i < c.mapPageCount.toNat) : c.pageKind i = .blockMap := if_pos hi

omit [Target] in
theorem pageKind_of_ge (hi : c.mapPageCount.toNat ≤ i) : c.pageKind i = .reuse := if_neg (by omega)

/-- The pass checks a page against the shape its index prescribes. -/
theorem Layout.validatePage_eq (h : c.Layout) {r : PageRecord} (hr : c.page i = .ok r) (e : Nat) :
    c.validatePage i e = if r.kind ≠ c.pageKind i ∨ r.nonceOrdinal.toNat ≠ i + 1 then
        fail (.invalidFormat "non-canonical page ordering")
      else c.validatePageShape r (c.pageKind i).capacity (c.pageKind i).recordSize (c.localPage i) e := by
  have hi := (h.page_eq_ok.1 hr).1
  have hpc := c.pageCount.toNat_lt
  have hadd : plainAdd u32Size i 1 = (.ok (i + 1) : Result Nat) := plainAdd_eq_ok.2 ⟨by show _ < 2 ^ 32; omega, rfl⟩
  simp only [validatePage, hr, hadd, ok_bind, fail_bind]
  rcases Nat.lt_or_ge i c.mapPageCount.toNat with hm | hm
  · simp only [localPage, pageKind_of_lt hm, if_pos hm]
    split
    · rfl
    · rename_i hk; rw [not_or, not_not] at hk; rw [hk.1]; rfl
  · have hsub : plainSub i c.mapPageCount.toNat = (.ok (i - c.mapPageCount.toNat) : Result Nat) := plainSub_eq_ok.2 ⟨hm, rfl⟩
    simp only [localPage, pageKind_of_ge hm, if_neg (Nat.not_lt.2 hm)]
    split
    · rfl
    · rename_i hk; rw [not_or, not_not] at hk; rw [hk.1]; simp only [hsub, ok_bind]; rfl

omit [Target] in
theorem localPage_le (c : Catalog) (i : Nat) : c.localPage i ≤ i := by
  rw [localPage]; split <;> omega

theorem Layout.localPage_mul_lt (h : c.Layout) (hi : i < c.pageCount.toNat) :
    c.localPage i * (c.pageKind i).capacity < u32Size := by
  have hpc := h.pageCount
  have hcap : (c.pageKind i).capacity ≤ 511 := by cases c.pageKind i <;> decide
  have hmul : c.localPage i * (c.pageKind i).capacity ≤ 100000 * 511 := by
    refine Nat.mul_le_mul ((localPage_le c i).trans ?_) hcap
    simp only [maxPages] at hpc; omega
  exact hmul.trans_lt (by decide)

theorem Layout.validatePage_eq_ok (h : c.Layout) {stop : Nat} :
    c.validatePage i (c.pageStart i) = .ok stop ↔
      (∃ r, c.page i = .ok r ∧ c.PageOk i r) ∧ stop = c.pageStart (i + 1) := by
  have hcap : pageHeaderSize + (c.pageKind i).capacity * (c.pageKind i).recordSize < 2 ^ 32 := by
    cases c.pageKind i <;> decide
  constructor
  · intro hv
    obtain ⟨r, hr, -⟩ := bind_eq_ok.1 hv
    rw [h.validatePage_eq hr, ite_fail_eq_ok, not_or, not_not, not_not,
      validatePageShape_eq_ok (h.localPage_mul_lt (h.page_eq_ok.1 hr).1) hcap] at hv
    obtain ⟨⟨hk, ho⟩, hp, hof, hs, rfl⟩ := hv
    exact ⟨⟨r, hr, hk, ho, hp, hof, hs⟩, (pageStart_succ hr).symm⟩
  · rintro ⟨⟨r, hr, hk, ho, hp, hof, hs⟩, rfl⟩
    rw [h.validatePage_eq hr, ite_fail_eq_ok, not_or, not_not, not_not,
      validatePageShape_eq_ok (h.localPage_mul_lt (h.page_eq_ok.1 hr).1) hcap]
    exact ⟨⟨hk, ho⟩, hp, hof, hs, pageStart_succ hr⟩

theorem Layout.validateRecords_eq_ok (h : c.Layout) {u : Unit} : c.validateRecords = .ok u ↔ c.WellFormed := by
  simp only [validateRecords, fail_bind, ite_fail_eq_ok, bind_eq_ok, forUpTo_unit_eq_ok, not_or, not_not,
    validateSegment_eq_ok, validateFile_eq_ok, validateSlot_eq_ok, pure_eq_ok]
  constructor
  · rintro ⟨⟨hm, hr⟩, -, h1, -, h2, -, h3, stop, h4, -⟩
    exact ⟨h, hm, hr, h1, h2, h3, ((forUpTo_eq_ok (f := c.pageStart) fun i t => h.validatePage_eq_ok).1 h4).1⟩
  · rintro ⟨-, hm, hr, h1, h2, h3, h4⟩
    exact ⟨⟨hm, hr⟩, (), h1, (), h2, (), h3, _, (forUpTo_eq_ok (f := c.pageStart) fun i t => h.validatePage_eq_ok).2
      ⟨h4, rfl⟩, trivial⟩

/-- Acceptance: the header bytes, the layout and the record facts. -/
theorem parse_eq_ok :
    Catalog.parse bytes = .ok c ↔ c.bytes = bytes ∧ slice bytes 0 catalogHeaderSize = c.header ∧ c.WellFormed := by
  simp only [parse, bind_eq_ok, parseHeader_eq_ok, pure_eq_ok, Except.ok.injEq]
  constructor
  · rintro ⟨_, ⟨hb, hh, hl⟩, _, hr, rfl⟩
    exact ⟨hb, hh, hl.validateRecords_eq_ok.1 hr⟩
  · rintro ⟨hb, hh, hw⟩
    exact ⟨c, ⟨hb, hh, hw.toLayout⟩, (), hw.toLayout.validateRecords_eq_ok.2 hw, rfl⟩

end Catalog

/-! ### No panic -/

namespace NoPanic
open Catalog
variable [Target] (c : Catalog) (bytes : Bytes) (i : Nat)

theorem catalogSegment : NoPanic (c.segment i) :=
  .failIf fun _ => .bind .checkedTableEnd fun _ _ => .segmentRecordParse

theorem catalogFile : NoPanic (c.file i) :=
  .failIf fun _ => .bind .checkedTableEnd fun _ _ => .fileRecordParse

theorem catalogPathSlot : NoPanic (c.pathSlot i) :=
  .failIf fun _ => .bind .checkedTableEnd fun _ _ => .pathSlotParse

theorem catalogPage : NoPanic (c.page i) :=
  .failIf fun _ => .bind .checkedTableEnd fun _ _ => .pageRecordParse

theorem catalogPath : NoPanic (c.path i) :=
  .bind (.bind (catalogFile c i) fun _ _ => .bind (.okOr _ _) fun _ _ => .checkedSlice) fun _ _ => .okOr _ _

theorem validateSegment : NoPanic (c.validateSegment i) :=
  .bind (catalogSegment c i) fun _ _ => .bind (.okOr _ _) fun _ _ => .ite (fun _ => .fail _) fun _ => .ok _

theorem validateFile : NoPanic (c.validateFile i) :=
  .bind (catalogFile c i) fun _ _ => .bind (.okOr _ _) fun _ _ => .failIf fun _ => .bind (.okOr _ _) fun _ _ =>
    .failIf fun _ => .bind (catalogPath c i) fun _ _ => .validateCanonicalPath

theorem validateSlot : NoPanic (c.validateSlot i) :=
  .bind (catalogPathSlot c i) fun _ _ => .ite (fun _ => .fail _) fun _ => .ok _

theorem validatePage (hl : c.Layout) (e : Nat) : NoPanic (c.validatePage i e) := by
  cases hp : c.page i with
  | error s =>
    have hx : NoPanic (.error s : Result PageRecord) := hp ▸ catalogPage c i
    simp only [Catalog.validatePage, hp, error_bind]
    intro w hw
    exact hx w (by simpa using hw)
  | ok r =>
    rw [hl.validatePage_eq hp]
    exact .ite (fun _ => .fail _) fun _ => .bind (.okOr _ _) fun _ _ => .bind (.okOr _ _) fun _ _ =>
      .bind (.okOr _ _) fun _ _ => .failIf fun _ => .failIf fun _ => .okOr _ _

theorem validateRecords (hl : c.Layout) : NoPanic c.validateRecords := by
  have unitLoop : ∀ {body : Nat → Result Unit}, (∀ i, NoPanic (body i)) → ∀ n,
      NoPanic (Hakutaku.forUpTo (fun i _ => body i) () n) := fun hb n =>
    (NoPanic.forUpTo (I := fun _ _ => True) trivial (fun i _ _ _ => hb i) fun _ _ _ _ _ _ => trivial).1
  exact .failIf fun _ => .bind (unitLoop (validateSegment c) _) fun _ _ => .bind (unitLoop (validateFile c) _)
    fun _ _ => .bind (unitLoop (validateSlot c) _) fun _ _ => .bind
    (NoPanic.forUpTo (I := fun _ _ => True) trivial (fun i e _ _ => validatePage c i hl e)
      fun _ _ _ _ _ _ => trivial).1 fun _ _ => .ok _

theorem catalogParseHeader : NoPanic (parseHeader bytes) := by
  have hu := le_usizeSize
  refine .bind .requireLen fun _ _ => .bind .requireMagic fun _ _ => .bind .readU16 fun _ _ => .failIf fun _ =>
    .bind .readU16 fun _ _ => .failIf fun _ => .bind .readU32 fun sc _ => .bind .readU32 fun fc _ =>
    .bind .readU32 fun _ _ => .bind .readU32 fun _ _ => .bind .readU32 fun _ _ => .bind .readU32 fun _ _ =>
    .bind .readU32 fun _ _ => .bind .readU32 fun _ _ => .bind .validateCount fun _ hsc =>
    .bind .validateCount fun _ hfc => .bind .validateCount fun _ _ => .bind .validateCount fun _ _ =>
    .bind .validateCount fun _ _ => .failIf fun _ => .failIf fun _ => .bind .readU32 fun _ _ =>
    .bind .readU32 fun _ _ => .bind .readU32 fun _ _ => .bind .readU32 fun _ _ => .bind .readU32 fun _ _ => ?_
  -- The unchecked products are bounded by the limits on the two counts.
  have hs : sc.toNat * segmentRecordSize ≤ 65535 * 96 := Nat.mul_le_mul_right _ (validateCount_eq_ok.1 hsc)
  have hf : fc.toNat * fileRecordSize ≤ 1000000 * 32 := Nat.mul_le_mul_right _ (validateCount_eq_ok.1 hfc)
  refine .bind (.plainMul (by omega)) fun a ha => ?_
  obtain ⟨-, rfl⟩ := plainMul_eq_ok.1 ha
  refine .bind (.plainAdd (by simp only [catalogHeaderSize]; omega)) fun b hb => ?_
  obtain ⟨-, rfl⟩ := plainAdd_eq_ok.1 hb
  refine .bind (.plainMul (by omega)) fun d hd => ?_
  obtain ⟨-, rfl⟩ := plainMul_eq_ok.1 hd
  exact .bind (.plainAdd (by simp only [catalogHeaderSize]; omega)) fun _ _ => .bind .checkedTableEnd fun _ _ =>
    .bind (.okOr _ _) fun _ _ => .bind .checkedTableEnd fun _ _ => .failIf fun _ => .ok _

theorem catalogParse : NoPanic (Catalog.parse bytes) :=
  .bind (catalogParseHeader bytes) fun c hc => .bind (validateRecords c (parseHeader_eq_ok.1 hc).2.2) fun _ _ => .ok _

end NoPanic

end Hakutaku
