import Hakutaku.WindowSpec

/-!
# The content of an asset

`plaintext` puts the blocks of an asset one behind the other, as the specification decodes them. On
an asset tiled by its blocks, a read that succeeds returns a piece of it.
-/

namespace Hakutaku
open Wire

section
variable [Crypto] [Target] {P : PackageInner}

/-- What a block holds; zeros when it cannot be decoded. -/
def PackageInner.blockBytes (P : PackageInner) (r : BlockRef) : Bytes :=
  match P.idealBlock r with
  | .ok bytes => bytes
  | .error _ => zeros r.plainLen.toNat

theorem length_blockBytes (r : BlockRef) : (P.blockBytes r).length = r.plainLen.toNat := by
  unfold PackageInner.blockBytes
  split
  · exact length_idealBlock ‹_›
  · exact length_zeros _

namespace Asset
variable (asset : Asset P)

/-- The bytes of the asset's block `i`. -/
def piece (i : Nat) : Bytes :=
  match P.idealRef (asset.record.firstBlock.toNat + i) with
  | .ok r => P.blockBytes r
  | .error _ => []

def plaintext : Bytes := (List.range asset.record.blockCount.toNat).flatMap asset.piece

variable {asset} {start : Nat → Nat}

theorem piece_eq {i : Nat} {r : BlockRef} (hr : P.idealRef (asset.record.firstBlock.toNat + i) = .ok r) :
    asset.piece i = P.blockBytes r := by
  unfold piece
  rw [hr]

theorem start_add_length_piece (h : asset.record.Tiled P.idealRef start) (i : Nat)
    (hi : i < asset.record.blockCount.toNat) : start i + (asset.piece i).length = start (i + 1) := by
  obtain ⟨r, hr, -, hnext⟩ := h.block i hi
  rw [piece_eq hr, length_blockBytes, hnext]

theorem length_plaintext (h : asset.record.Tiled P.idealRef start) : asset.plaintext.length = asset.len := by
  rw [plaintext, length_flatMap_range h.zero (start_add_length_piece h), h.last]
  rfl

/-- What the blocks hold at a position is the byte of the content there. -/
theorem ByteAt.getElem? (h : asset.record.Tiled P.idealRef start) {position : Nat} {byte : UInt8}
    (hb : asset.ByteAt position byte) : asset.plaintext[position]? = some byte := by
  obtain ⟨⟨r, data⟩, ⟨i, hi, hr, hdata⟩, hle, hbyte⟩ := hb
  dsimp only at hr hdata hle hbyte
  obtain ⟨r', hr', hstart, hnext⟩ := h.block i hi
  obtain rfl : r = r' := Except.ok.inj (hr.symm.trans hr')
  have hpiece : asset.piece i = data := by rw [piece_eq hr, PackageInner.blockBytes, hdata]
  have hlt := (List.getElem?_eq_some_iff.1 hbyte).1
  have hfound := getElem?_flatMap_range h.zero (start_add_length_piece h) hi (hpiece.symm ▸ hlt)
  rw [← hstart, Nat.add_sub_cancel' hle, hpiece, hbyte] at hfound
  exact hfound

theorem Holds.eq_slice (h : asset.record.Tiled P.idealRef start) {position : Nat} {bytes : Bytes}
    (hb : asset.Holds position bytes) : bytes = slice asset.plaintext position bytes.length := by
  refine List.ext_getElem? fun k => ?_
  rw [getElem?_slice]
  split
  · rename_i hk
    rw [List.getElem?_eq_getElem hk]
    exact ((hb k _ (List.getElem?_eq_getElem hk)).getElem? h).symm
  · rename_i hk
    exact List.getElem?_eq_none (Nat.not_lt.1 hk)

/-- How a read at `offset` may end that starts with one window and ends with another: as the window
without buffers says, or with an error. -/
structure Reading (asset : Asset P) (offset : UInt64) (w : Window) (result : Result Nat) (w' : Window) : Prop where
  window : asset.WindowOk w
  ok : ∀ n, result = .ok n → Runs (asset.idealReadAt offset) w n w'
  beyond : asset.len < offset.toNat → ∃ e, result = fail e

/-- How a read at `offset` into `destination` may end: with the bytes there are and fit, the rest of the
destination untouched, or with an error. -/
def Answers (asset : Asset P) (offset : Nat) (destination : Bytes) (result : Result Nat) (destination' : Bytes) : Prop :=
  (∀ n, result = .ok n → offset ≤ asset.len ∧ n = min (asset.len - offset) destination.length ∧
    destination' = slice asset.plaintext offset n ++ destination.drop n) ∧
  (asset.len < offset → ∃ e, result = fail e)

/-- Whatever is cached, fails or goes on at the same time, `read_at_buffered` reads as specified. -/
theorem readAtBuffered_reading (hP : P.Coherent) {st : ReadState} (hs : P.Valid asset.record st) (offset : UInt64) :
    ((asset.readAtBuffered offset).run.run st).Tolerant P.Sound fun r =>
      P.Valid asset.record r.2 ∧ asset.Reading offset st.view r.1 r.2.view := by
  refine (readAtBuffered_follows hP hs offset).mono ?_
  rintro ⟨result, st'⟩ ⟨hs', hspec⟩
  refine ⟨hs', ⟨hs.current, hs.previous⟩, fun n hn => ?_, fun hlt => ?_⟩
  · rcases hspec with hspec | ⟨e, -, he⟩
    · rw [Runs, ← hspec, ← hn]
    · rw [hn] at he
      cases he
  · rcases hspec with hspec | ⟨e, ⟨kind, -, rfl⟩, he⟩
    · have hfail : ((asset.idealReadAt offset).run.run st.view).1 = fail .invalidRange := by
        unfold idealReadAt
        rw [if_pos hlt]
        rfl
      exact ⟨_, (congrArg Prod.fst hspec).trans hfail⟩
    · exact ⟨_, he⟩

variable {offset : UInt64} {n : Nat} {w w' : Window} {result : Result Nat}

theorem Reading.le_len (h : asset.Reading offset w result w') (hn : result = .ok n) :
    offset.toNat + n ≤ asset.len ∧ n ≤ w.destination.length := by
  obtain ⟨hle, hmin, -⟩ := runs_idealReadAt h.window (h.ok n hn)
  omega

/-- On a tiled asset a read returns a piece of the content. -/
theorem Reading.answers (h : asset.Reading offset w result w') (htiled : asset.record.Tiled P.idealRef start) :
    asset.Answers offset.toNat w.destination result w'.destination := by
  refine ⟨fun n hn => ?_, h.beyond⟩
  obtain ⟨hle, hmin, -, bytes, hlen, hdest, hholds⟩ := runs_idealReadAt h.window (h.ok n hn)
  refine ⟨hle, hmin, ?_⟩
  rw [← hlen, ← hholds.eq_slice htiled, hlen]
  exact hdest

/-- The window of a one-shot read. -/
abbrev freshWindow (destination : Bytes) : Window := ⟨none, none, destination⟩

/-- `Asset::read` reads the whole asset into a fresh destination, as specified. -/
theorem read_reading (hP : P.Coherent) {st : ReadState} (hs : P.Valid asset.record st) :
    (asset.read.run.run st).Tolerant P.Sound fun r => P.Valid asset.record r.2 ∧ ∀ bytes, r.1 = .ok bytes →
      ∃ w', asset.Reading 0 { st.view with destination := zeros asset.len } (.ok asset.len) w' ∧
        bytes = w'.destination := by
  unfold read
  split
  · exact ⟨hs, fun _ h => by cases h⟩
  · show ((asset.readAtBuffered 0 >>= _).run.run { st with destination := zeros asset.len }).Tolerant _ _
    refine (readAtBuffered_reading hP (hs.withDestination _) 0).bind_except (fun n st' hread => ?_) fun e st' hread =>
      ⟨hread.1, fun _ h => by cases h⟩
    obtain ⟨hs', hreading⟩ := hread
    rcases eq_or_ne n asset.len with rfl | hn
    · have hcheck : validateCompleteRead asset.len asset.len = .ok () := if_pos rfl
      rw [hcheck]
      refine ⟨hs', ?_⟩
      rintro bytes ⟨⟩
      exact ⟨st'.view, hreading, rfl⟩
    · have hcheck : validateCompleteRead n asset.len = fail (.invalidFormat "short complete asset read") := if_neg hn
      rw [hcheck]
      exact ⟨hs', fun _ h => by cases h⟩

/-- A complete read of a tiled asset returns its content. -/
theorem Reading.eq_plaintext (h : asset.Reading 0 w (.ok asset.len) w') (hw : w.destination = zeros asset.len)
    (htiled : asset.record.Tiled P.idealRef start) : w'.destination = asset.plaintext := by
  obtain ⟨-, -, hdest⟩ := (h.answers htiled).1 asset.len rfl
  rw [hdest, hw]
  simp [slice, zeros, ← length_plaintext htiled]

end Asset
end

/-! ### A sample package -/

/-- A release of one file `a`, its blocks all in one segment, under the example profile. -/
structure SampleRelease where
  file : FileRecord
  refs : List BlockRef
  segmentBlocks : UInt32
  payload : Bytes

namespace SampleRelease
variable (s : SampleRelease)

def segment : SegmentRecord where
  id := ⟨.replicate 32 7⟩
  uid := .replicate 16 1
  salt := .replicate 16 2
  noncePrefix := .replicate 8 3
  fileLen := UInt64.ofNat (segmentHeaderSize + s.payload.length)
  payloadLen := UInt64.ofNat s.payload.length
  blockCount := s.segmentBlocks
  availability := .required

def segmentFile : Bytes :=
  SegmentHeader.encode ⟨⟨.replicate 16 9⟩, s.segment.uid, s.segment.salt, s.segment.noncePrefix, s.segment.blockCount,
    s.segment.payloadLen, s.segment.fileLen⟩ ++ s.payload

def mapPage : Bytes := pageHeader mapPageMagic 48 0 ++ s.refs.flatMap BlockRef.encode ++ zeros 16

def reusePage : Bytes := pageHeader reusePageMagic 32 0 ++ zeros (32 * s.refs.length) ++ zeros 16

def pageRecord (kind : PageKind) (ordinal : UInt32) (offset : UInt64) (bytes : Bytes) : PageRecord where
  kind := kind
  codec := .raw
  nonceOrdinal := ordinal
  relativeOffset := offset
  storedLen := UInt32.ofNat bytes.length
  plainLen := UInt32.ofNat (bytes.length - 16)
  digest := let _ := exampleCrypto; Crypto.hash bytes

def catalog : CatalogData where
  segments := [s.segment]
  files := [s.file]
  pathSlots := [⟨0, emptyPathSlot⟩, ⟨97, 0⟩]
  pathPool := [97]
  pages := [pageRecord .blockMap 1 0 s.mapPage, pageRecord .reuse 2 (UInt64.ofNat s.mapPage.length) s.reusePage]
  totalBlocks := UInt32.ofNat s.refs.length
  mapPageCount := 1
  reusePageCount := 1

def catalogCiphertext : Bytes := s.catalog.wire ++ zeros 16

def header : SnapshotHeader where
  projectId := ⟨.replicate 16 9⟩
  releaseSequence := 1
  catalogStoredLen := UInt64.ofNat s.catalogCiphertext.length
  catalogPlainLen := UInt64.ofNat s.catalog.wire.length
  pageRegionOffset := UInt64.ofNat (snapshotHeaderSize + s.catalogCiphertext.length)
  pageCount := 2
  snapshotSalt := .replicate 16 4
  noncePrefix := .replicate 8 5
  signingKeyId := .replicate 16 6
  sourceFingerprint := .replicate 32 0
  signature := .replicate 64 0

def snapshot : Bytes := s.header.encode false ++ s.catalogCiphertext ++ s.mapPage ++ s.reusePage

def package : PackageInner :=
  let _ := exampleCrypto
  let _ := target64
  let keys := ProjectKeys.new (.replicate 32 8) s.header.projectId
  { snapshot := s.snapshot
    source := fun id => if id = s.segment.id then some s.segmentFile else none
    header := s.header
    catalog := s.catalog.view
    keys := keys
    snapshotKey := keys.snapshotKey s.header.snapshotSalt
    pathKey := keys.pathKey
    budget := .memoryConstrained }

end SampleRelease

theorem length_firstDigest : ([1, 2, 3, 4] ++ zeros 12).length = 16 := rfl

def oneBlock : SampleRelease where
  file := ⟨0, 1, .fixed, .hot, 4, 0, 1, 65536⟩
  refs := [⟨0, 0, 0, 128, 20, 4, .raw, ⟨[1, 2, 3, 4] ++ zeros 12, length_firstDigest⟩⟩]
  segmentBlocks := 1
  payload := [1, 2, 3, 4] ++ zeros 16

theorem oneBlock_encodable : oneBlock.catalog.Encodable := by
  constructor <;> decide +kernel

theorem oneBlock_valid : oneBlock.catalog.Valid where
  mapPages := by decide
  reusePages := by decide
  segments := by decide +kernel
  files r hr := by
    obtain rfl := List.mem_singleton.1 hr
    exact ⟨by constructor <;> decide, by decide, by decide, by decide, "a", by decide, by decide⟩
  slots := by decide
  pages i r hr := by
    match i with
    | 0 =>
      obtain rfl := Option.some.inj hr
      exact ⟨⟨by decide, by decide, rfl⟩, by decide, by decide, by decide, by decide, by decide⟩
    | 1 =>
      obtain rfl := Option.some.inj hr
      exact ⟨⟨by decide, by decide, rfl⟩, by decide, by decide, by decide, by decide, by decide⟩

theorem oneBlock_coherent [Crypto] : letI := target64; oneBlock.package.Coherent := by
  let _ := target64
  have hsegment : ∀ {i r}, oneBlock.package.catalog.segment i = .ok r → i = 0 := fun {i r} h => by
    have h' := (CatalogData.segment_view oneBlock_encodable).1 h
    exact Nat.lt_one_iff.1 (List.getElem?_eq_some_iff.1 h').1
  have href : ∀ {g r}, oneBlock.package.idealRef g = .ok r → g = 0 := fun {g r} h =>
    Nat.lt_one_iff.1 (idealRef_lt h)
  refine ⟨(CatalogData.wellFormed_view oneBlock_encodable).2 oneBlock_valid, fun i j r r' hi hj _ => ?_,
    fun g g' r r' hg hg' _ => ?_⟩
  · rw [hsegment hi, hsegment hj]
  · obtain rfl := href hg
    obtain rfl := href hg'
    obtain rfl : r = r' := Except.ok.inj (hg.symm.trans hg')
    rfl

/-- The file of the sample package. -/
def oneBlockAsset : letI := target64; Asset oneBlock.package :=
  letI := target64
  ⟨0, oneBlock.file, by decide +kernel⟩

theorem oneBlock_tiled : letI := exampleCrypto; letI := target64
    ∀ asset : Asset oneBlock.package, ∃ start, asset.record.Tiled oneBlock.package.idealRef start := by
  let _ := exampleCrypto
  let _ := target64
  rintro ⟨i, record, found⟩
  have hrecord : record = oneBlock.file :=
    List.mem_singleton.1 (List.mem_of_getElem? ((CatalogData.file_view oneBlock_encodable).1 found).1)
  have hblock : oneBlock.package.idealRef 0 = .ok (oneBlock.refs.head (by decide)) := by decide +kernel
  refine ⟨fun i => i * 4, ?_⟩
  dsimp only
  rw [hrecord]
  refine ⟨by decide, rfl, by decide, fun i hi => ?_⟩
  obtain rfl : i = 0 := Nat.lt_one_iff.1 hi
  exact ⟨_, hblock, by decide, by decide⟩

end Hakutaku
