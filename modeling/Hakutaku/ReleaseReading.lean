import Hakutaku.ReleaseSnapshot
import Hakutaku.Comparers

/-!
# Reading a release back

An asset whose blocks tile it and can all be decoded reads as these blocks one behind the other (`Whole.contents`). The
block a reference names decodes to what was written, where the file of its segment is served (`SegmentLayout.idealBlock`).
-/

namespace Hakutaku
open Wire Act BuildContext

section
variable [Crypto] [Target] {P : PackageInner}

/-! ### Assets in one piece -/

namespace Asset
variable {asset : Asset P} {start : Nat → Nat} {v v' : Blocks} {position count i : Nat}

/-- No block of the window reaches further than the position. -/
def Behind (position : Nat) (v : Blocks) : Prop :=
  ∀ b, v.1 = some b ∨ v.2 = some b → b.1.logicalOffset.toNat + b.1.plainLen.toNat ≤ position

omit [Crypto] [Target] in
theorem Behind.nil (position : Nat) : Behind position (none, none) := by
  rintro b (h | h) <;> cases h

/-- At a position behind its window, a walk takes the block of the position. -/
theorem Behind.fillBlocks (hv : Behind position v) {r : BlockRef} {data : Bytes}
    (href : asset.record.referenceForOffset P.idealRef position = .ok r) (hdata : P.idealBlock r = .ok data) :
    ∃ previous, (previous = v.1 ∨ previous = v.2) ∧ asset.fillBlocks position v = .ok (some (r, data), previous) := by
  have hnone {o : Option (BlockRef × Bytes)} (ho : v.1 = o ∨ v.2 = o) : (o.any fun b => b.1.covers position) = false := by
    rcases o with _ | b
    · rfl
    · have hle := hv b ho
      refine decide_eq_false fun hcovers => ?_
      have hlt := hcovers.2
      simp only [saturatingAdd] at hlt
      omega
  refine ⟨if asset.record.access = .streaming then v.1 else v.2, ?_, ?_⟩
  · split
    · exact .inl rfl
    · exact .inr rfl
  · unfold Asset.fillBlocks
    rw [hnone (.inl rfl), hnone (.inr rfl), href, ok_bind, hdata]
    rfl

/-- Only the block a walk starts in depends on the window before it. -/
theorem bytesFrom_fill (hv : asset.fillBlocks position v = .ok v') (hv' : asset.fillBlocks position v' = .ok v')
    (hcount : 0 < count) : asset.bytesFrom position count v = asset.bytesFrom position count v' := by
  obtain ⟨count, rfl⟩ := Nat.exists_eq_succ_of_ne_zero hcount.ne'
  have hbyte : asset.byteFrom position v = asset.byteFrom position v' := by
    unfold byteFrom
    rw [hv, hv']
  unfold bytesFrom
  rw [hbyte]

/-- The blocks of the asset tile it, as its layout wants it, and can all be decoded. -/
structure Whole (asset : Asset P) (start : Nat → Nat) : Prop where
  tiled : asset.record.Tiled P.idealRef start
  positive : asset.record.Positive P.idealRef
  fixed : asset.record.layout = .fixed → asset.record.FixedTiles start
  readable : ∀ i < asset.record.blockCount.toNat, ∃ r data, P.idealRef (asset.record.firstBlock.toNat + i) = .ok r ∧
    P.idealBlock r = .ok data

namespace Whole
variable (h : asset.Whole start)
include h

/-- The block at the start of a block is this one. -/
theorem reference (hi : i < asset.record.blockCount.toNat) {r : BlockRef}
    (hr : P.idealRef (asset.record.firstBlock.toNat + i) = .ok r) :
    asset.record.referenceForOffset P.idealRef (start i) = .ok r := by
  have hlt := h.tiled.start_lt h.positive hi
  have hend : start i < asset.record.logicalLen.toNat := by
    rw [← h.tiled.last]
    exact hlt.trans_le (h.tiled.mono (Nat.succ_le_of_lt hi) le_rfl)
  obtain ⟨j, hj, hle, hgt, r', hr', href⟩ := h.tiled.referenceForOffset_eq h.positive h.fixed hend
  obtain rfl := h.tiled.unique hi hj le_rfl hlt hle hgt
  rw [href, hr'.symm.trans hr]

/-- A walk through the first blocks takes them one behind the other. -/
theorem bytesFrom (hi : i ≤ asset.record.blockCount.toNat) : ∃ v, Behind (start i) v ∧
    asset.bytesFrom 0 (start i) (none, none) = .ok ((List.range i).flatMap asset.piece, v) := by
  induction i with
  | zero =>
    rw [h.tiled.zero]
    exact ⟨(none, none), .nil 0, rfl⟩
  | succ i ih =>
    obtain ⟨v, hv, hbytes⟩ := ih (Nat.le_of_succ_le hi)
    obtain ⟨r, data, hr, hdata⟩ := h.readable i hi
    obtain ⟨r', hr', hoffset, hnext⟩ := h.tiled.block i hi
    obtain rfl := Except.ok.inj (hr'.symm.trans hr)
    obtain ⟨previous, hprevious, hfill⟩ := hv.fillBlocks (h.reference hi hr) hdata
    have hlen := length_idealBlock hdata
    have hpos := h.tiled.start_lt h.positive hi
    have hend : start (i + 1) < u64Size := by
      have hle := h.tiled.mono hi le_rfl
      rw [h.tiled.last] at hle
      exact hle.trans_lt asset.record.logicalLen.toNat_lt
    have hstay : asset.fillBlocks (start i) (some (r', data), previous) = .ok (some (r', data), previous) :=
      fillBlocks_current rfl hlen hoffset.le (by omega) (by omega)
    have hin : start i - r'.logicalOffset.toNat + r'.plainLen.toNat ≤ data.length := by omega
    have hblock : asset.bytesFrom (start i) r'.plainLen.toNat (some (r', data), previous) =
        .ok (slice data (start i - r'.logicalOffset.toNat) r'.plainLen.toNat, some (r', data), previous) :=
      bytesFrom_current rfl hlen hoffset.le hin (by omega)
    have hpiece : asset.piece i = data := by rw [piece_eq hr, PackageInner.blockBytes, hdata]
    refine ⟨(some (r', data), previous), ?_, ?_⟩
    · rintro b (hb | hb)
      · obtain rfl := Option.some.inj hb
        show r'.logicalOffset.toNat + r'.plainLen.toNat ≤ _
        omega
      · refine (hv b ?_).trans hpos.le
        rcases hprevious with rfl | rfl
        · exact .inl hb
        · exact .inr hb
    · have hstep : asset.bytesFrom (start i) r'.plainLen.toNat v = .ok (data, some (r', data), previous) := by
        rw [bytesFrom_fill hfill hstay (by omega), hblock, hoffset, Nat.sub_self, ← hlen, slice_full]
      rw [← hnext, bytesFrom_add, hbytes, ok_bind]
      dsimp only
      rw [Nat.zero_add, hstep, List.range_succ, List.flatMap_append, List.flatMap_singleton, hpiece]
      rfl

theorem contents : asset.contents = .ok asset.plaintext := by
  obtain ⟨v, -, hbytes⟩ := h.bytesFrom le_rfl
  rw [h.tiled.last] at hbytes
  unfold Asset.contents
  rw [show asset.len = asset.record.logicalLen.toNat from rfl, hbytes]
  rfl

end Whole
end Asset

/-! ### Blocks of served segments -/

/-- A package over the keys of a project, with the record and the file of a finished segment in their places. -/
structure SegmentLayout.Served (P : PackageInner) (identity : Identity) (l : SegmentLayout) (ordinal : Nat) : Prop where
  segment : P.catalog.segment ordinal = .ok l.writer.record
  source : P.source l.writer.record.id = some l.writer.content
  projectId : P.header.projectId = identity.projectId
  keys : P.keys = identity.keys

omit [Crypto] [Target] in
/-- Piece by piece, the whole file behind an offset. -/
theorem PackageInner.readWhole_ideal {file : Bytes} {fileLen : Nat} (hlen : file.length = fileLen) {offset left : Nat}
    (hoffset : offset ≤ fileLen) (hleft : fileLen ≤ left + offset) :
    PackageInner.readWhole ideal file fileLen offset left = .ok (file.drop offset) := by
  induction left generalizing offset with
  | zero =>
    rw [List.drop_eq_nil_of_le (by omega)]
    rfl
  | succ left ih =>
    unfold PackageInner.readWhole
    split
    · rename_i hlt
      have hread : ideal.readExactAt file offset (min (fileLen - offset) (1024 * 1024)) =
          .ok (slice file offset (min (fileLen - offset) (1024 * 1024))) := readExact_eq_ok.2 ⟨.inr (by omega), rfl⟩
      dsimp only
      rw [hread, ok_bind, ih (by omega) (by omega)]
      refine congrArg Except.ok ?_
      rw [slice, ← List.drop_drop, List.take_append_drop]
    · rw [List.drop_eq_nil_of_le (by omega)]
      rfl

omit [Crypto] [Target] in
/-- A loop whose passes all succeed. -/
theorem forM_eq_ok {α : Type} {f : α → Result Unit} {l : List α} (h : ∀ a ∈ l, f a = .ok ()) : l.forM f = .ok () := by
  induction l with
  | nil => rfl
  | cons a l ih =>
    show (f a >>= fun _ => l.forM f) = _
    rw [h a List.mem_cons_self, ok_bind]
    exact ih fun b hb => h b (List.mem_cons_of_mem _ hb)

namespace SegmentLayout.Genuine
variable {identity : Identity} {l : SegmentLayout} (h : l.Genuine identity) {b r : BlockRef}
include h

omit [Target] in
/-- The place of a block, in the units of its reference. -/
theorem place (hb : b ∈ l.blocks) : b.segmentBlockOrdinal < l.writer.record.blockCount ∧
    segmentHeaderSize ≤ b.physicalOffset.toNat ∧
    b.physicalOffset.toNat + b.storedLen.toNat ≤ l.writer.record.fileLen.toNat ∧
    l.writer.record.fileLen.toNat = l.writer.content.length := by
  have hlen : l.writer.record.fileLen.toNat = segmentHeaderSize + l.writer.payloadLen.toNat :=
    UInt64.toNat_ofNat_of_lt' h.fits
  obtain ⟨hle, hend⟩ := h.tiles.within (List.mem_map_of_mem hb)
  obtain ⟨i, hi⟩ := List.mem_iff_getElem?.1 hb
  refine ⟨?_, hle, hlen.ge.trans' hend, hlen.trans h.length_content.symm⟩
  rw [UInt32.lt_iff_toNat_lt, h.ordinals i b hi]
  exact (List.getElem?_eq_some_iff.1 hi).1.trans_eq h.count.symm

/-- A finished segment opens under its record. -/
theorem fetchSegment {ordinal : Nat} (hP : l.Served P identity ordinal) :
    P.fetchSegment ideal l.writer.record = .ok ⟨l.writer.content, l.writer.key⟩ := by
  have hlen : l.writer.record.fileLen.toNat = l.writer.content.length :=
    (UInt64.toNat_ofNat_of_lt' h.fits).trans h.length_content.symm
  have hopen : openFrom P.source l.writer.record.id = .ok l.writer.content := okOr_eq_ok.2 hP.source
  have hheader : 0 + segmentHeaderSize ≤ l.writer.content.length := by
    rw [h.length_content, Nat.zero_add]
    exact Nat.le_add_right _ _
  have hread := readExact_eq_ok.2 ⟨.inr hheader, rfl⟩
  have hmatch : P.segmentHeaderMatches l.writer.header l.writer.record = true := by
    simp [PackageInner.segmentHeaderMatches, NewSegment.header, NewSegment.record, hP.projectId, h.project]
  have hkey : P.keys.segmentKey l.writer.header = l.writer.key := by
    rw [hP.keys, h.key]
    rfl
  have hne : ¬ l.writer.content.length ≠ l.writer.record.fileLen.toNat := not_not.2 hlen.symm
  unfold PackageInner.fetchSegment
  simp only [Catalog.liftM_result, ideal, hopen, ok_bind, if_neg hne, pure_eq_ok, hread, l.writer.parse_content h.fits,
    hmatch, Bool.not_true, Bool.false_eq_true, if_false, hkey]

/-- A reference to a block of a served segment decodes to what was written there. -/
theorem idealBlock (haead : AeadLaw) (hb : b ∈ l.blocks) (hnames : r.Names b) {plaintext : Bytes}
    (hopens : l.writer.Opens r plaintext) (hP : l.Served P identity r.segmentOrdinal.toNat) :
    P.idealBlock r = .ok plaintext := by
  obtain ⟨hordinal, hoffset, hend, hlen⟩ := h.place hb
  obtain ⟨_, -, hdigest⟩ := h.holds b hb
  obtain ⟨encoded, hsealed, hdecode⟩ := hopens.sealed
  have hslice := h.slice_content hb
  have hsame : r.segmentBlockOrdinal = b.segmentBlockOrdinal ∧ r.physicalOffset = b.physicalOffset ∧
      r.storedLen = b.storedLen ∧ r.cipherDigest = b.cipherDigest := by
    unfold BlockRef.Names at hnames
    rw [hnames]
    exact ⟨rfl, rfl, rfl, rfl⟩
  obtain ⟨hordinal', hphysical, hstored, hdigest'⟩ := hsame
  rw [← hordinal'] at hordinal
  rw [← hphysical] at hoffset hend hdigest hslice
  rw [← hstored] at hend hdigest hslice
  rw [← hdigest', ← hslice] at hdigest
  rw [← hslice] at hsealed
  have hlocate : P.locateBlock r = .ok l.writer.record := by
    have hfits : checkedAdd u64Size r.physicalOffset.toNat r.storedLen.toNat =
        some (r.physicalOffset.toNat + r.storedLen.toNat) :=
      checkedAdd_eq_some.2 ⟨hend.trans_lt l.writer.record.fileLen.toNat_lt, rfl⟩
    unfold PackageInner.locateBlock
    rw [hP.segment, ok_bind, if_neg (UInt32.not_le.2 hordinal), hfits, okOr, ok_bind,
      if_neg (not_or.2 ⟨Nat.not_lt.2 hoffset, Nat.not_lt.2 hend⟩)]
    rfl
  have hread := readExact_eq_ok.2 ⟨.inr (hend.trans_eq hlen), rfl⟩
  have hopen : P.openBlock l.writer.record l.writer.key r
      (slice l.writer.content r.physicalOffset.toNat r.storedLen.toNat) = .ok encoded := by
    unfold PackageInner.openBlock
    rw [if_neg (not_not.2 hdigest), hP.projectId, ← h.project]
    exact okOr_eq_ok.2 (haead.aeadOpen_aeadSeal hsealed)
  unfold PackageInner.idealBlock PackageInner.fetchBlock
  rw [hlocate]
  simp only [Catalog.liftM_result, ok_bind, h.fetchSegment hP]
  simp only [ideal, hread, ok_bind, hopen, hdecode]

/-- A served segment has its content id. -/
theorem verifySegment {ordinal : Nat} (hP : l.Served P identity ordinal) :
    P.verifySegment ideal (P.fetchSegment ideal) ordinal = .ok () := by
  have hlen : l.writer.record.fileLen.toNat = l.writer.content.length :=
    (UInt64.toNat_ofNat_of_lt' h.fits).trans h.length_content.symm
  have hread := PackageInner.readWhole_ideal hlen.symm (Nat.zero_le _) (Nat.le_add_right l.writer.record.fileLen.toNat 0)
  rw [List.drop_zero] at hread
  have hid : contentId l.writer.content = l.writer.record.id := rfl
  have hsegment : (liftM (P.catalog.segment ordinal) : Result SegmentRecord) = .ok l.writer.record := hP.segment
  unfold PackageInner.verifySegment
  rw [hsegment, ok_bind, h.fetchSegment hP, ok_bind]
  simp only [hread, ok_bind, hid, ne_eq, not_true, if_false]
  rfl

end SegmentLayout.Genuine

/-! ### The blocks of a file -/

/-- The blocks of a file are those of the chunks, in order. -/
structure FileRecord.Recalls (f : FileRecord) (blockRef : Nat → Result BlockRef) (chunks : List CachedChunk) : Prop where
  count : f.blockCount.toNat = chunks.length
  range : f.firstBlock.toNat + chunks.length ≤ u32Size
  block : ∀ i (hi : i < chunks.length), ∃ r, blockRef (f.firstBlock.toNat + i) = .ok r ∧
    r.logicalOffset = chunks[i].logicalOffset ∧ r.plainLen = chunks[i].plainLen

namespace FileRecord.Recalls
variable {f : FileRecord} {blockRef : Nat → Result BlockRef} {chunks : List CachedChunk} (h : f.Recalls blockRef chunks)
include h
omit [Crypto] [Target]

theorem tiled (htile : ChunksTile chunks f.logicalLen.toNat) : f.Tiled blockRef (chunkStart chunks) := by
  refine ⟨h.count ▸ h.range, chunkStart_zero chunks, h.count ▸ htile.total, fun i hi => ?_⟩
  rw [h.count] at hi
  obtain ⟨r, hr, hoffset, hlen⟩ := h.block i hi
  exact ⟨r, hr, hoffset ▸ (htile.chunk i hi).1, by rw [hlen, chunkStart_succ hi]⟩

theorem positive (htile : ChunksTile chunks f.logicalLen.toNat) : f.Positive blockRef := by
  rintro g r ⟨hfirst, hg, -⟩ hr
  obtain ⟨i, rfl⟩ := Nat.exists_eq_add_of_le hfirst
  have hi : i < chunks.length := h.count ▸ Nat.lt_of_add_lt_add_left hg
  obtain ⟨r', hr', -, hlen⟩ := h.block i hi
  obtain rfl := Except.ok.inj (hr.symm.trans hr')
  exact hlen ▸ (htile.chunk i hi).2

theorem fixedTiles (hfixed : FixedChunks f.fixedBlockLen.toNat chunks) : f.FixedTiles (chunkStart chunks) := by
  refine ⟨fun i hi => ?_, .inr fun i hi => ?_⟩
  · rw [h.count] at hi
    rw [chunkStart_succ (Nat.lt_of_succ_lt hi), hfixed.1 i _ hi]
  · rw [h.count] at hi
    rw [chunkStart_succ (hi ▸ Nat.lt_succ_self i)]
    exact Nat.add_le_add_left (hfixed.2 i _ hi) _

end FileRecord.Recalls

variable [FastCdc] {sources : String → SourceView} {source : SourceFile}

omit [Target] in
theorem SourceFile.chunks_tile (hcdc : FastCdcLaw) (source : SourceFile) (sources : String → SourceView) :
    ChunksTile (source.chunks sources) (source.content sources).length :=
  sourceChunks_tile hcdc source (source.length_content_lt sources)

omit [Target] in
/-- The chunk at an index is that of the piece there. -/
theorem SourceFile.chunk_eq {i : Nat} (hi : i < (source.chunks sources).length) :
    ∃ piece, (sourcePieces (classify source) (source.content sources))[i]? = some piece ∧
      (source.chunks sources)[i] = chunkOf piece.1 piece.2 := by
  have hlen : i < (sourcePieces (classify source) (source.content sources)).length := by
    have hlt := hi
    unfold SourceFile.chunks sourceChunks at hlt
    rwa [List.length_map] at hlt
  refine ⟨_, List.getElem?_eq_getElem hlen, ?_⟩
  simp only [SourceFile.chunks, sourceChunks, List.getElem_map]

omit [Target] in
theorem SourceFile.chunk_plainLen (hcdc : FastCdcLaw) {i : Nat} (hi : i < (source.chunks sources).length) :
    (source.chunks sources)[i].plainLen.toNat ≤ maxBlockPlainLen := by
  obtain ⟨piece, hpiece, hchunk⟩ := source.chunk_eq hi
  have hle := length_sourcePieces_le hcdc source _ _ (List.mem_of_getElem? hpiece)
  rw [hchunk]
  exact (toNat_blockLen hle).trans_le hle

/-- No block of the package has the hash of a piece of the sources without being this piece. -/
def PackageInner.NoCollision (P : PackageInner) (sources : String → SourceView) (files : List SourceFile) : Prop :=
  ∀ g r data, P.idealRef g = .ok r → P.idealBlock r = .ok data → ∀ source ∈ files,
    ∀ piece ∈ sourcePieces (classify source) (source.content sources), Crypto.hash data = Crypto.hash piece.2 → data = piece.2

/-- The blocks of an asset open to plaintexts with the ids of the chunks. -/
def Asset.Decodes (asset : Asset P) (chunks : List CachedChunk) : Prop :=
  ∀ i (hi : i < chunks.length), ∃ r data, P.idealRef (asset.record.firstBlock.toNat + i) = .ok r ∧
    P.idealBlock r = .ok data ∧ Crypto.hash data = chunks[i].chunkId

/-- An asset over the chunks of a source reads as its content. -/
theorem Asset.contents_eq_content (hcdc : FastCdcLaw) {asset : Asset P} {files : List SourceFile} (hsource : source ∈ files)
    (hlayout : asset.record.layout = (classify source).layout)
    (hblockLen : asset.record.fixedBlockLen = (classify source).fixedBlockLen)
    (hlen : asset.record.logicalLen.toNat = (source.content sources).length)
    (hrecalls : asset.record.Recalls P.idealRef (source.chunks sources)) (hdecodes : asset.Decodes (source.chunks sources))
    (hcollision : P.NoCollision sources files) : asset.contents = .ok (source.content sources) := by
  have htile : ChunksTile (source.chunks sources) asset.record.logicalLen.toNat := hlen ▸ source.chunks_tile hcdc sources
  have hwhole : asset.Whole (chunkStart (source.chunks sources)) := by
    refine ⟨hrecalls.tiled htile, hrecalls.positive htile, fun hfixed => hrecalls.fixedTiles ?_, fun i hi => ?_⟩
    · rw [hblockLen]
      exact sourceChunks_fixed hcdc source _ (hlayout.symm.trans hfixed)
    · obtain ⟨r, data, hr, hdata, -⟩ := hdecodes i (hrecalls.count ▸ hi)
      exact ⟨r, data, hr, hdata⟩
  have hcuts := (sourcePieces_cuts hcdc source (source.content sources)).flatMap_eq
  rw [hwhole.contents, ← hcuts, Asset.plaintext, hrecalls.count, List.flatMap_def, List.flatMap_def]
  refine congrArg (fun l => Except.ok (List.flatten l)) (List.ext_getElem? fun i => ?_)
  rcases Nat.lt_or_ge i (source.chunks sources).length with hi | hi
  · obtain ⟨piece, hpiece, hchunk⟩ := source.chunk_eq hi
    obtain ⟨r, data, hr, hdata, hid⟩ := hdecodes i hi
    have hsame : data = piece.2 := by
      refine hcollision _ r data hr hdata source hsource piece (List.mem_of_getElem? hpiece) ?_
      rw [hid, hchunk]
      rfl
    rw [List.getElem?_map, List.getElem?_map, List.getElem?_range hi, hpiece]
    show some (asset.piece i) = some piece.2
    rw [Asset.piece_eq hr, PackageInner.blockBytes, hdata, hsame]
  · have hcount : (source.chunks sources).length = (sourcePieces (classify source) (source.content sources)).length :=
      List.length_map _
    rw [List.getElem?_eq_none (by rwa [List.length_map, List.length_range]),
      List.getElem?_eq_none (by rwa [List.length_map, ← hcount])]

end

end Hakutaku
