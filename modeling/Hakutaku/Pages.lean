import Hakutaku.CatalogSpec

/-!
# Metadata pages (`format.rs`, `package.rs`)

The page codecs and the two readers of the paged tables, `block_ref` and `reuse_records`. The readers
are generic in the monad they load pages in: the runtime loads through its caches, the theorems
about indices load from a pure function.
-/

namespace Hakutaku
open Wire

/-! ### Page codecs -/

/-- The 16 bytes before the records of a page. -/
def pageHeader (magic : Bytes) (recordSize : UInt16) (firstRecord : UInt32) : Bytes :=
  let out := zeros pageHeaderSize
  let out := putAt out 0 magic
  let out := putAt out 8 (u16Bytes formatMajor)
  let out := putAt out 10 (u16Bytes recordSize)
  putAt out 12 (u32Bytes firstRecord)

def encodeMapPage (firstRecord : UInt32) (records : List BlockRef) : Result Bytes := do
  if records = [] ∨ blocksPerMapPage < records.length then fail (.invalidFormat "map page record count")
  return pageHeader mapPageMagic 48 firstRecord ++ records.flatMap BlockRef.encode

def encodeReusePage (firstRecord : UInt32) (records : List (ByteArr 32)) : Result Bytes := do
  if records = [] ∨ reusePerPage < records.length then fail (.invalidFormat "reuse page record count")
  return pageHeader reusePageMagic 32 firstRecord ++ records.flatMap ByteArr.toList

section
variable [Target]

/-- Checks a page header and returns the number of records behind it. -/
def parsePageHeader (bytes magic : Bytes) (recordSize expectedFirst : Nat) : Result Nat := do
  requireLen bytes pageHeaderSize "page header"
  requireMagic bytes magic "page magic"
  let major ← readU16 bytes 8
  if major ≠ formatMajor then fail (.invalidFormat "page version or record size")
  if (← readU16 bytes 10).toNat ≠ recordSize then fail (.invalidFormat "page version or record size")
  if (← readU32 bytes 12).toNat ≠ expectedFirst then fail (.invalidFormat "page first record")
  let payload ← plainSub bytes.length pageHeaderSize
  if payload = 0 ∨ payload % recordSize ≠ 0 then fail (.invalidFormat "page payload length")
  return payload / recordSize

def validateMapPage (bytes : Bytes) (expectedFirst : Nat) : Result Nat :=
  parsePageHeader bytes mapPageMagic blockRefSize expectedFirst

def mapPageRecord (bytes : Bytes) (index : Nat) : Result BlockRef := do
  let size ← okOr (checkedMul usizeSize index blockRefSize) (.invalidFormat "map page index overflow")
  let offset ← okOr (checkedAdd usizeSize pageHeaderSize size) (.invalidFormat "map page offset overflow")
  BlockRef.parse bytes offset

/-- The loop of `parse_map_page`, with `left` records to go. -/
def mapPageRecords (bytes : Bytes) : Nat → Nat → Result (List BlockRef)
  | _, 0 => return []
  | index, left + 1 => do
    let size ← plainMul usizeSize index blockRefSize
    let offset ← plainAdd usizeSize pageHeaderSize size
    let record ← BlockRef.parse bytes offset
    return record :: (← mapPageRecords bytes (index + 1) left)

def parseMapPage (bytes : Bytes) (expectedFirst : Nat) : Result (List BlockRef) := do
  let count ← validateMapPage bytes expectedFirst
  mapPageRecords bytes 0 count

/-- The first `n` rows of 32 bytes. -/
def rows32 : Nat → Bytes → List (ByteArr 32)
  | 0, _ => []
  | n + 1, bytes =>
    if h : 32 ≤ bytes.length then ⟨bytes.take 32, by simp [h]⟩ :: rows32 n (bytes.drop 32) else []

/-- `as_chunks::<32>`: the full 32-byte rows of a byte string. -/
def chunks32 (bytes : Bytes) : List (ByteArr 32) := rows32 (bytes.length / 32) bytes

def parseReusePage (bytes : Bytes) (expectedFirst : Nat) : Result (List (ByteArr 32)) := do
  let _ ← parsePageHeader bytes reusePageMagic reuseRecordSize expectedFirst
  return chunks32 (bytes.drop pageHeaderSize)

end

/-! ### Index validators -/

def checkedRecordIndex (page recordsPerPage : Nat) : Result Nat :=
  okOr (checkedMul u32Size page recordsPerPage) (.invalidFormat "reuse record index overflow")

def validateRecordTotal (actual expected : Nat) : Result Unit :=
  if actual = expected then .ok () else fail (.invalidFormat "reuse record total")

/-- The map page that holds a global block index. -/
def validateGlobalBlockIndex (globalIndex total pages : Nat) : Result Nat := do
  if total ≤ globalIndex then fail (.invalidFormat "global block index")
  let page := globalIndex / blocksPerMapPage
  if pages ≤ page then fail (.invalidFormat "map page index") else return page

def validateLocalBlockIndex (localIndex count : Nat) : Result Unit :=
  if localIndex < count then .ok () else fail (.invalidFormat "map page local index")

/-! ### The paged tables -/

/-- Content hash paired with the block that can satisfy it in a later release. -/
structure ReuseRecord where
  chunkId : ByteArr 32
  block : BlockRef
deriving DecidableEq

namespace Catalog
variable [Target] {m : Type → Type} [Monad m] [MonadLiftT Result m]

/-- `PackageInner::block_ref`, over a page loader. -/
def blockRef (c : Catalog) (loadPage : Nat → PageKind → m Bytes) (globalIndex : Nat) : m BlockRef := do
  let pageIndex ← validateGlobalBlockIndex globalIndex c.totalBlocks.toNat c.mapPageCount.toNat
  let expectedFirst ← (plainMul u32Size pageIndex blocksPerMapPage : Result Nat)
  let bytes ← loadPage pageIndex .blockMap
  let count ← validateMapPage bytes expectedFirst
  let localIndex ← (plainSub globalIndex expectedFirst : Result Nat)
  validateLocalBlockIndex localIndex count
  mapPageRecord bytes localIndex

/-- The inner loop of `reuse_records`: the chunk ids of one page, from local index `localIndex` on. -/
def reusePageRecords (c : Catalog) (loadPage : Nat → PageKind → m Bytes) (expectedFirst : Nat) :
    Nat → List (ByteArr 32) → m (List ReuseRecord)
  | _, [] => pure []
  | localIndex, chunkId :: rest => do
    let globalIndex ←
      (okOr (checkedAdd u32Size expectedFirst (localIndex % u32Size)) (.invalidFormat "reuse block index overflow") : Result Nat)
    let block ← c.blockRef loadPage globalIndex
    return ⟨chunkId, block⟩ :: (← reusePageRecords c loadPage expectedFirst (localIndex + 1) rest)

/-- The outer loop of `reuse_records`, with `left` pages to go. -/
def reusePages (c : Catalog) (loadPage : Nat → PageKind → m Bytes) : Nat → Nat → m (List ReuseRecord)
  | _, 0 => pure []
  | reuseIndex, left + 1 => do
    let page ← (plainAdd u32Size c.mapPageCount.toNat reuseIndex : Result Nat)
    let bytes ← loadPage page .reuse
    let expectedFirst ← checkedRecordIndex reuseIndex reusePerPage
    let chunkIds ← parseReusePage bytes expectedFirst
    let records ← c.reusePageRecords loadPage expectedFirst 0 chunkIds
    return records ++ (← reusePages c loadPage (reuseIndex + 1) left)

/-- `Package::reuse_records`, over a page loader. -/
def reuseRecords (c : Catalog) (loadPage : Nat → PageKind → m Bytes) : m (List ReuseRecord) := do
  let records ← c.reusePages loadPage 0 c.reusePageCount.toNat
  validateRecordTotal records.length c.totalBlocks.toNat
  return records

/-- The descriptor checks of `load_page`. -/
def pageOfKind (c : Catalog) (pageIndex : Nat) (expectedKind : PageKind) : Result PageRecord := do
  let page ← c.page pageIndex
  if page.kind ≠ expectedKind then fail (.invalidFormat "page kind at use site")
  return page

/-- `load_page` without its cache, over a source of decoded pages. -/
def loadFrom (c : Catalog) (decoded : Nat → PageRecord → m Bytes) (pageIndex : Nat) (expectedKind : PageKind) :
    m Bytes := do
  let page ← c.pageOfKind pageIndex expectedKind
  decoded pageIndex page

end Catalog

/-! ### What a decoded page provides -/

theorem pageHeader_eq {magic : Bytes} (hm : magic.length = 8) (recordSize : UInt16) (firstRecord : UInt32) :
    pageHeader magic recordSize firstRecord =
      [magic, u16Bytes formatMajor, u16Bytes recordSize, u32Bytes firstRecord].flatten := by
  simp only [pageHeader]
  rw [putAt_zeros_nil (by simp [pageHeaderSize, hm])]
  simp (disch := simp [pageHeaderSize, hm]) only [putAt_zeros]
  simp [pageHeaderSize, hm]

theorem length_pageHeader {magic : Bytes} (hm : magic.length = 8) (recordSize : UInt16) (firstRecord : UInt32) :
    (pageHeader magic recordSize firstRecord).length = pageHeaderSize := by
  simp [pageHeader_eq hm, hm, pageHeaderSize]

section
variable [Target] {bytes magic : Bytes} {n : Nat}

/-- The page header check: the 16 header bytes, and a whole positive number of records behind them. -/
theorem parsePageHeader_eq_ok (hm : magic.length = 8) {recordSize : UInt16} {first : UInt32}
    (hsize : 0 < recordSize.toNat) :
    parsePageHeader bytes magic recordSize.toNat first.toNat = .ok n ↔
      slice bytes 0 pageHeaderSize = pageHeader magic recordSize first ∧
        bytes.length = pageHeaderSize + n * recordSize.toNat ∧ 0 < n := by
  have hu := le_usizeSize
  simp only [parsePageHeader, bind_eq_ok, requireLen_eq_ok, requireMagic_eq_ok, readU16_eq_ok, readU32_eq_ok,
    fail_bind, ite_fail_eq_ok, plainSub_eq_ok, pure_eq_ok, Except.ok.injEq, pageHeader_eq hm, eq_flatten_iff]
  constructor
  · rintro ⟨-, hle, -, ⟨-, hmag⟩, ma, ⟨-, -, hma⟩, hma', rs, ⟨-, -, hrs⟩, hrs', fr, ⟨-, -, hfr⟩, hfr', p, ⟨-, hp⟩, hpay, rfl⟩
    have hlen := length_slice_zero hle
    obtain rfl : ma = formatMajor := not_not.1 hma'
    obtain rfl : rs = recordSize := UInt16.toNat_inj.1 (not_not.1 hrs')
    obtain rfl : fr = first := UInt32.toNat_inj.1 (not_not.1 hfr')
    rw [not_or, not_not] at hpay
    have hdiv := Nat.div_add_mod p rs.toNat
    rw [hpay.2, Nat.add_zero, Nat.mul_comm] at hdiv
    refine ⟨?_, by omega, Nat.div_pos (Nat.le_of_dvd (by omega) (Nat.dvd_of_mod_eq_zero hpay.2)) hsize⟩
    clear hma' hrs' hfr' hpay hdiv hp
    simp [Fields, pageHeaderSize, slice_slice, *] at *
  · rintro ⟨h, hbytes, hn⟩
    have hle : pageHeaderSize ≤ bytes.length := by omega
    have hlen := length_slice_zero hle
    simp only [Fields, hlen, length_u32Bytes, length_u16Bytes, hm, Nat.zero_add] at h
    obtain ⟨-, hmag, -, hma, -, hrs, -, hfr, -⟩ := h
    simp (disch := simp) only [Nat.reduceAdd, pageHeaderSize, slice_slice, Nat.zero_add] at *
    have hpos : 0 < n * recordSize.toNat := Nat.mul_pos hn hsize
    refine ⟨(), hle, (), ⟨by omega, hmag⟩, _, ⟨by omega, by omega, hma⟩, by simp, _, ⟨by omega, by omega, hrs⟩, by simp,
      _, ⟨by omega, by omega, hfr⟩, by simp, _, ⟨hle, rfl⟩, ?_, ?_⟩
    · rw [hbytes, Nat.add_sub_cancel_left, not_or, not_not]
      exact ⟨hpos.ne', Nat.mul_mod_left _ _⟩
    · rw [hbytes, Nat.add_sub_cancel_left, Nat.mul_div_cancel _ hsize]

omit [Target] in
theorem length_rows32 {n : Nat} {bytes : Bytes} (h : n * 32 ≤ bytes.length) : (rows32 n bytes).length = n := by
  induction n generalizing bytes with
  | zero => rfl
  | succ n ih =>
    rw [rows32, dif_pos (by omega), List.length_cons, ih (by rw [List.length_drop]; omega)]

omit [Target] in
theorem length_chunks32 (bytes : Bytes) : (chunks32 bytes).length = bytes.length / 32 :=
  length_rows32 (Nat.div_mul_le_self _ _)

end

/-! ### Indices of an accepted catalog -/

theorem lt_divCeil {i t b : Nat} (hb : 0 < b) : i < divCeil t b ↔ i * b < t := by
  have hdm := Nat.div_add_mod t b
  have hmod := Nat.mod_lt t hb
  rw [Nat.mul_comm] at hdm
  unfold divCeil
  constructor
  · intro h
    split at h
    · have : i * b ≤ t / b * b := Nat.mul_le_mul_right _ (by omega)
      omega
    · have : (i + 1) * b ≤ t / b * b := Nat.mul_le_mul_right _ (by omega)
      rw [Nat.add_mul] at this
      omega
  · intro h
    by_contra hge
    split at hge
    · have : (t / b + 1) * b ≤ i * b := Nat.mul_le_mul_right _ (by omega)
      rw [Nat.add_mul] at this
      omega
    · have : t / b * b ≤ i * b := Nat.mul_le_mul_right _ (by omega)
      omega

namespace Catalog
variable [Target] {c : Catalog} {i g : Nat}

/-- The map page of a block exists and holds it. -/
theorem WellFormed.mapPage_of_block (hw : c.WellFormed) (hg : g < c.totalBlocks.toNat) :
    g / blocksPerMapPage < c.mapPageCount.toNat ∧ c.pageKind (g / blocksPerMapPage) = .blockMap ∧
      g - g / blocksPerMapPage * blocksPerMapPage < c.recordCount (g / blocksPerMapPage) := by
  have hpos : 0 < blocksPerMapPage := by decide
  have hle := Nat.div_mul_le_self g blocksPerMapPage
  have hdm := Nat.div_add_mod g blocksPerMapPage
  have hmod := Nat.mod_lt g hpos
  rw [Nat.mul_comm] at hdm
  have hlt : g / blocksPerMapPage < c.mapPageCount.toNat := by
    rw [hw.mapPages, lt_divCeil hpos]; omega
  have hkind := pageKind_of_lt hlt
  refine ⟨hlt, hkind, ?_⟩
  simp only [recordCount, localPage, hkind, PageKind.capacity]
  omega

/-- The page of a reuse index exists and is a reuse page. -/
theorem WellFormed.reusePage_of_index (hw : c.WellFormed) (hi : i < c.reusePageCount.toNat) :
    c.mapPageCount.toNat + i < c.pageCount.toNat ∧ c.pageKind (c.mapPageCount.toNat + i) = .reuse ∧
      i * reusePerPage < c.totalBlocks.toNat := by
  have hkinds := hw.kinds
  refine ⟨by omega, pageKind_of_ge (by omega), ?_⟩
  rwa [hw.reusePages, lt_divCeil (by decide)] at hi

theorem WellFormed.mapPageCount_le (hw : c.WellFormed) : c.mapPageCount.toNat ≤ maxPages :=
  (by have := hw.kinds; omega : c.mapPageCount.toNat ≤ c.pageCount.toNat).trans hw.pageCount

theorem WellFormed.pageOfKind_eq_ok (hw : c.WellFormed) (hi : i < c.pageCount.toNat) {k : PageKind}
    (hk : c.pageKind i = k) : ∃ r, c.page i = .ok r ∧ c.pageOfKind i k = .ok r ∧ c.PageOk i r := by
  obtain ⟨r, hr, hok⟩ := hw.pages i hi
  refine ⟨r, hr, ?_, hok⟩
  simp only [pageOfKind, hr, ok_bind, hok.kind, hk, ne_eq, not_true, if_false]
  rfl

end Catalog

/-- The magic of a page of a kind. -/
def PageKind.magic : PageKind → Bytes
  | .blockMap => mapPageMagic
  | .reuse => reusePageMagic

theorem PageKind.length_magic (k : PageKind) : k.magic.length = 8 := by cases k <;> rfl

namespace Catalog
variable [Target] {c : Catalog} {i g : Nat} {b : Bytes}

/-- A byte string is a correctly decoded page `i`: its header, its length, and for a map page records
that parse. -/
structure DecodedPage (c : Catalog) (i : Nat) (b : Bytes) : Prop where
  header : slice b 0 pageHeaderSize = pageHeader (c.pageKind i).magic (UInt16.ofNat (c.pageKind i).recordSize)
    (UInt32.ofNat (c.localPage i * (c.pageKind i).capacity))
  length : b.length = pageHeaderSize + c.recordCount i * (c.pageKind i).recordSize
  records : c.pageKind i = .blockMap → ∀ j < c.recordCount i,
    ∃ r, BlockRef.parse b (pageHeaderSize + j * blockRefSize) = .ok r

/-- The header check of a correctly decoded page returns its record count. -/
theorem DecodedPage.parsePageHeader (h : c.DecodedPage i b) (hw : c.WellFormed) (hi : i < c.pageCount.toNat)
    (hpos : 0 < c.recordCount i) :
    Hakutaku.parsePageHeader b (c.pageKind i).magic (c.pageKind i).recordSize (c.localPage i * (c.pageKind i).capacity) =
      .ok (c.recordCount i) := by
  have hsize : (UInt16.ofNat (c.pageKind i).recordSize).toNat = (c.pageKind i).recordSize := by
    cases c.pageKind i <;> rfl
  have hfirst : (UInt32.ofNat (c.localPage i * (c.pageKind i).capacity)).toNat = c.localPage i * (c.pageKind i).capacity :=
    UInt32.toNat_ofNat_of_lt' (hw.localPage_mul_lt hi)
  rw [← hsize, ← hfirst, parsePageHeader_eq_ok (PageKind.length_magic _) (by cases c.pageKind i <;> decide), hsize]
  exact ⟨h.header, h.length, hpos⟩

/-! ### Reading through a pure loader -/

omit [Target] in
@[simp] theorem liftM_result {α : Type} (x : Result α) : (liftM x : Result α) = x := rfl

/-- `block_ref` on a correctly decoded page is the record at the local index. -/
theorem WellFormed.blockRef_decoded (hw : c.WellFormed) {load : Nat → PageKind → Result Bytes}
    (hg : g < c.totalBlocks.toNat) (hload : load (g / blocksPerMapPage) .blockMap = .ok b)
    (hb : c.DecodedPage (g / blocksPerMapPage) b) :
    c.blockRef load g =
      BlockRef.parse b (pageHeaderSize + (g - g / blocksPerMapPage * blocksPerMapPage) * blockRefSize) := by
  have hu := le_usizeSize
  obtain ⟨hlt, hkind, hlocal⟩ := hw.mapPage_of_block hg
  have hpc := hw.mapPageCount_le
  have hi : g / blocksPerMapPage < c.pageCount.toNat := by have := hw.kinds; omega
  have hheader := hb.parsePageHeader hw hi (by omega)
  simp only [hkind, PageKind.magic, PageKind.recordSize, PageKind.capacity, localPage] at hheader
  have hglobal : validateGlobalBlockIndex g c.totalBlocks.toNat c.mapPageCount.toNat = .ok (g / blocksPerMapPage) := by
    rw [validateGlobalBlockIndex, if_neg (Nat.not_le.2 hg), if_neg (Nat.not_le.2 hlt)]
    rfl
  have hfirst : (plainMul u32Size (g / blocksPerMapPage) blocksPerMapPage : Result Nat) =
      .ok (g / blocksPerMapPage * blocksPerMapPage) := by
    have hmul : g / blocksPerMapPage * blocksPerMapPage ≤ 100000 * 341 :=
      Nat.mul_le_mul (hlt.le.trans hpc) (by decide)
    exact plainMul_eq_ok.2 ⟨hmul.trans_lt (by decide), rfl⟩
  have hsub : (plainSub g (g / blocksPerMapPage * blocksPerMapPage) : Result Nat) =
      .ok (g - g / blocksPerMapPage * blocksPerMapPage) := plainSub_of_le (Nat.div_mul_le_self _ _)
  have hcount : c.recordCount (g / blocksPerMapPage) ≤ 341 := by
    simp only [recordCount, hkind, PageKind.capacity]
    exact (min_le_right _ _).trans (by decide)
  have hsize : (g - g / blocksPerMapPage * blocksPerMapPage) * blockRefSize ≤ 341 * 48 :=
    Nat.mul_le_mul (by omega) (by decide)
  have hmul : checkedMul usizeSize (g - g / blocksPerMapPage * blocksPerMapPage) blockRefSize =
      some ((g - g / blocksPerMapPage * blocksPerMapPage) * blockRefSize) :=
    checkedMul_eq_some.2 ⟨by omega, rfl⟩
  have hadd : checkedAdd usizeSize pageHeaderSize ((g - g / blocksPerMapPage * blocksPerMapPage) * blockRefSize) =
      some (pageHeaderSize + (g - g / blocksPerMapPage * blocksPerMapPage) * blockRefSize) :=
    checkedAdd_eq_some.2 ⟨by simp only [pageHeaderSize]; omega, rfl⟩
  simp only [blockRef, liftM_result, hglobal, hfirst, hload, validateMapPage, hheader, hsub,
    validateLocalBlockIndex, if_pos hlocal, mapPageRecord, hmul, hadd, okOr, ok_bind]

/-- The references `block_ref` returns when every block of the catalog can be read. -/
def RefsOf (c : Catalog) (load : Nat → PageKind → Result Bytes) (ref : Nat → BlockRef) : Prop :=
  ∀ g < c.totalBlocks.toNat, c.blockRef load g = .ok (ref g)

variable {load : Nat → PageKind → Result Bytes} {ref : Nat → BlockRef}

theorem reusePageRecords_eq (hl : c.Layout) (href : c.RefsOf load ref) (ids : List (ByteArr 32)) (first k : Nat)
    (hlen : first + k + ids.length ≤ c.totalBlocks.toNat) :
    c.reusePageRecords load first k ids = .ok (ids.mapIdx fun j id => ⟨id, ref (first + k + j)⟩) := by
  induction ids generalizing k with
  | nil => rfl
  | cons id ids ih =>
    have ht := hl.totalBlocks
    simp only [maxBlocks] at ht
    rw [List.length_cons] at hlen
    have hmod : k % u32Size = k := Nat.mod_eq_of_lt (by show k < 2 ^ 32; omega)
    have hadd : checkedAdd u32Size first k = some (first + k) :=
      checkedAdd_eq_some.2 ⟨by show _ < 2 ^ 32; omega, rfl⟩
    simp only [reusePageRecords, hmod, hadd, okOr, liftM_result, ok_bind, href (first + k) (by omega),
      ih (k + 1) (by omega), List.mapIdx_cons, Nat.add_zero]
    simp only [Nat.add_assoc, Nat.add_comm 1]
    rfl

/-- The chunk ids of `left` reuse pages from the `i`-th on. -/
def reuseIds (page : Nat → Bytes) : Nat → Nat → List (ByteArr 32)
  | _, 0 => []
  | i, left + 1 => chunks32 ((page i).drop pageHeaderSize) ++ reuseIds page (i + 1) left

/-- The outer loop returns the rows of the remaining reuse pages, each with its reference. -/
theorem WellFormed.reusePages_eq (hw : c.WellFormed) (href : c.RefsOf load ref) {page : Nat → Bytes}
    (hload : ∀ i < c.reusePageCount.toNat, load (c.mapPageCount.toNat + i) .reuse = .ok (page i))
    (hdec : ∀ i < c.reusePageCount.toNat, c.DecodedPage (c.mapPageCount.toNat + i) (page i)) {i left : Nat}
    (hleft : i + left = c.reusePageCount.toNat) :
    c.reusePages load i left =
        .ok ((reuseIds page i left).mapIdx fun j id => ⟨id, ref (i * reusePerPage + j)⟩) ∧
      (reuseIds page i left).length = c.totalBlocks.toNat - i * reusePerPage := by
  induction left generalizing i with
  | zero =>
    refine ⟨rfl, ?_⟩
    have hge : ¬ i < divCeil c.totalBlocks.toNat reusePerPage := by rw [← hw.reusePages]; omega
    rw [lt_divCeil (by decide)] at hge
    rw [reuseIds, List.length_nil]; omega
  | succ left ih =>
    have hi : i < c.reusePageCount.toNat := by omega
    obtain ⟨hpage, hkind, hfirst⟩ := hw.reusePage_of_index hi
    obtain ⟨hrest, hlen⟩ := ih (by omega : i + 1 + left = _)
    have hpc := hw.pageCount
    have ht := hw.totalBlocks
    simp only [maxPages] at hpc
    simp only [maxBlocks] at ht
    have hlocal : c.localPage (c.mapPageCount.toNat + i) = i := by
      simp only [localPage, hkind, Nat.add_sub_cancel_left]
    have hcount : c.recordCount (c.mapPageCount.toNat + i) = min (c.totalBlocks.toNat - i * reusePerPage) reusePerPage := by
      simp only [recordCount, hlocal, hkind, PageKind.capacity]
    have hcap : 0 < reusePerPage := by decide
    have hheader := (hdec i hi).parsePageHeader hw hpage (by rw [hcount]; omega)
    have hbytes := (hdec i hi).length
    simp only [hkind, PageKind.magic, PageKind.recordSize, PageKind.capacity, hlocal] at hheader hbytes
    have hadd : (plainAdd u32Size c.mapPageCount.toNat i : Result Nat) = .ok (c.mapPageCount.toNat + i) :=
      plainAdd_of_lt (by show _ < 2 ^ 32; omega)
    have hmul : checkedMul u32Size i reusePerPage = some (i * reusePerPage) :=
      checkedMul_eq_some.2 ⟨by show _ < 2 ^ 32; omega, rfl⟩
    have hids : (chunks32 ((page i).drop pageHeaderSize)).length = min (c.totalBlocks.toNat - i * reusePerPage) reusePerPage := by
      rw [length_chunks32, List.length_drop, hbytes, Nat.add_sub_cancel_left, hcount]
      exact Nat.mul_div_cancel _ (by decide)
    have hrecords := reusePageRecords_eq hw.toLayout href (chunks32 ((page i).drop pageHeaderSize))
      (i * reusePerPage) 0 (by rw [hids]; omega)
    constructor
    · simp only [Catalog.reusePages, liftM_result, hadd, ok_bind, hload i hi, checkedRecordIndex, hmul, okOr, parseReusePage,
        hheader, pure_eq_ok, hrecords, hrest, reuseIds, List.mapIdx_append, Nat.add_zero, Except.ok.injEq,
        List.append_cancel_left_eq, hids]
      -- A page that is not full is the last one.
      rcases Nat.le_total reusePerPage (c.totalBlocks.toNat - i * reusePerPage) with hfull | hpart
      · rw [min_eq_right hfull]
        refine List.mapIdx_eq_mapIdx_iff.2 fun j hj => ?_
        have hindex : (i + 1) * reusePerPage + j = i * reusePerPage + (j + reusePerPage) := by ring
        rw [hindex]
      · have hnil : reuseIds page (i + 1) left = [] := List.length_eq_zero_iff.1 (by rw [hlen, Nat.add_mul]; omega)
        rw [hnil, List.mapIdx_nil, List.mapIdx_nil]
    · rw [reuseIds, List.length_append, hids, hlen, Nat.add_mul]
      omega

/-- `reuse_records` on correctly decoded pages pairs every chunk id with the reference at its index. -/
theorem WellFormed.reuseRecords_eq (hw : c.WellFormed) (href : c.RefsOf load ref) {page : Nat → Bytes}
    (hload : ∀ i < c.reusePageCount.toNat, load (c.mapPageCount.toNat + i) .reuse = .ok (page i))
    (hdec : ∀ i < c.reusePageCount.toNat, c.DecodedPage (c.mapPageCount.toNat + i) (page i)) :
    c.reuseRecords load = .ok ((reuseIds page 0 c.reusePageCount.toNat).mapIdx fun j id => ⟨id, ref j⟩) ∧
      (reuseIds page 0 c.reusePageCount.toNat).length = c.totalBlocks.toNat := by
  obtain ⟨h, hlen⟩ := hw.reusePages_eq href hload hdec (Nat.zero_add c.reusePageCount.toNat)
  simp only [Nat.zero_mul, Nat.zero_add, Nat.sub_zero] at h hlen
  refine ⟨?_, hlen⟩
  simp only [reuseRecords, h, ok_bind, List.length_mapIdx, hlen, validateRecordTotal, if_true, liftM_result]
  rfl

end Catalog

end Hakutaku
