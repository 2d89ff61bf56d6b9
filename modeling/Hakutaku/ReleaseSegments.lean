import Hakutaku.SegmentLayout
import Hakutaku.Snapshot
import Mathlib.Data.List.ReduceOption

/-!
# The segments of a release

The segments a release lists are those a block of it can lie in, and the references of its blocks name them by their
place in the list. With distinct identities, and content ids that differ for different files, no two segments have one id.
-/

namespace Hakutaku
open Wire

/-! ### Places in the list -/

/-- A segment that is listed has an ordinal, which is that of a segment with its id. -/
theorem exists_segmentOrdinal {segments : List SegmentRecord} (hlen : segments.length ≤ 2 ^ 16) {record : SegmentRecord}
    (hrecord : record ∈ segments) :
    ∃ (ordinal : UInt16) (named : SegmentRecord), segmentOrdinal segments record.id = some ordinal ∧
      segments[ordinal.toNat]? = some named ∧ named.id = record.id := by
  obtain ⟨k, hk⟩ := List.mem_iff_getElem?.1 hrecord
  rcases hfind : (List.range segments.length).reverse.find? fun i => (segments[i]?).any fun r => r.id = record.id with _ | i
  · have hnone := List.find?_eq_none.1 hfind k
      (List.mem_reverse.2 (List.mem_range.2 (List.getElem?_eq_some_iff.1 hk).1))
    rw [hk] at hnone
    exact absurd (decide_eq_true rfl) hnone
  · have hi := List.mem_range.1 (List.mem_reverse.1 (List.mem_of_find?_eq_some hfind))
    have hany := List.find?_some hfind
    rw [List.getElem?_eq_getElem hi] at hany
    refine ⟨UInt16.ofNat i, segments[i], congrArg (Option.map UInt16.ofNat) hfind, ?_, of_decide_eq_true hany⟩
    rw [UInt16.toNat_ofNat_of_lt' (lt_of_lt_of_le hi hlen)]
    exact List.getElem?_eq_getElem hi

/-- The record of the segment a block lies in. -/
def BuildContext.segmentOf (s : BuildContext) : SegmentLocator → Option SegmentRecord
  | .existing id => s.usedExistingSegments.lookup id
  | .new i => (s.newSegmentRecords[i]?).join

theorem mem_releaseSegments {s : BuildContext} {record : SegmentRecord} :
    record ∈ releaseSegments s ↔ ∃ locator, s.segmentOf locator = some record := by
  unfold releaseSegments
  rw [List.mem_insertionSort, List.mem_append, List.mem_map, List.reduceOption_mem_iff]
  constructor
  · rintro (⟨⟨id, _⟩, hentry, rfl⟩ | hnew)
    · exact ⟨.existing id, AList.mem_lookup_iff.2 hentry⟩
    · obtain ⟨i, hi⟩ := List.mem_iff_getElem?.1 hnew
      exact ⟨.new i, by rw [BuildContext.segmentOf, hi]; rfl⟩
  · rintro ⟨id | i, hlocator⟩
    · exact .inl ⟨⟨id, record⟩, AList.mem_lookup_iff.1 hlocator, rfl⟩
    · exact .inr (List.mem_iff_getElem?.2 ⟨i, Option.join_eq_some_iff.1 hlocator⟩)

/-! ### References -/

/-- A resolved reference is that of a block but for its place in the file it was added for and the ordinal of its
segment. -/
def BlockRef.Names (r b : BlockRef) : Prop :=
  r = { b with logicalOffset := r.logicalOffset, segmentOrdinal := r.segmentOrdinal }

theorem BlockRef.Copies.names {r b : BlockRef} (h : r.Copies b) (segmentOrdinal : UInt16) :
    ({ r with segmentOrdinal } : BlockRef).Names b := by
  unfold BlockRef.Copies at h
  unfold BlockRef.Names
  rw [h]

/-- A reference of the release: that of the block, with the ordinal of a segment that has the id of the one it lies in. -/
def Resolved (s : BuildContext) (pending : PendingBlock) (ref : BlockRef) : Prop :=
  ref = { pending.reference with segmentOrdinal := ref.segmentOrdinal } ∧
    ∃ record named, s.segmentOf pending.locator = some record ∧
      (releaseSegments s)[ref.segmentOrdinal.toNat]? = some named ∧ named.id = record.id

theorem resolveBlock_spec {s : BuildContext} (hlen : (releaseSegments s).length ≤ 2 ^ 16) {pending : PendingBlock}
    {record : SegmentRecord} (hrecord : s.segmentOf pending.locator = some record)
    (hkept : ∀ id, pending.locator = .existing id → record.id = id) :
    ∃ ref, resolveBlock s (releaseSegments s) pending = .ok ref ∧ Resolved s pending ref := by
  obtain ⟨ordinal, named, hordinal, hnamed, hid⟩ := exists_segmentOrdinal hlen (mem_releaseSegments.2 ⟨_, hrecord⟩)
  refine ⟨{ pending.reference with segmentOrdinal := ordinal }, ?_, rfl, record, named, hrecord, hnamed, hid⟩
  have hlocate : locate s pending.locator = .ok record.id := by
    rcases hlocator : pending.locator with id | i
    · rw [hkept id hlocator]
      rfl
    · rw [hlocator] at hrecord
      simp only [locate, Option.join_eq_some_iff.1 hrecord]
  unfold resolveBlock
  rw [hlocate]
  show (okOr (segmentOrdinal (releaseSegments s) record.id) _ >>= _) = _
  rw [hordinal]
  rfl

/-- The ordinal is that of the block's own segment if no other has its id. -/
theorem Resolved.segmentOf_eq {s : BuildContext} {pending : PendingBlock} {ref : BlockRef} (h : Resolved s pending ref)
    (hids : ((releaseSegments s).map SegmentRecord.id).Nodup) :
    (releaseSegments s)[ref.segmentOrdinal.toNat]? = s.segmentOf pending.locator := by
  obtain ⟨-, record, named, hrecord, hnamed, hid⟩ := h
  rw [hrecord, hnamed]
  exact congrArg some
    (List.inj_on_of_nodup_map hids (List.mem_of_getElem? hnamed) (mem_releaseSegments.2 ⟨_, hrecord⟩) hid)

theorem resolveBlocks_eq_ok {s : BuildContext} {segments : List SegmentRecord} {blocks : List PendingBlock}
    {refs : List BlockRef} :
    resolveBlocks s segments blocks = .ok refs ↔
      List.Forall₂ (fun pending ref => resolveBlock s segments pending = .ok ref) blocks refs := by
  induction blocks generalizing refs with
  | nil =>
    rw [List.forall₂_nil_left_iff]
    exact ⟨fun h => (Except.ok.inj h).symm, fun h => h ▸ rfl⟩
  | cons pending rest ih =>
    unfold resolveBlocks
    simp only [bind_eq_ok, pure_eq_ok]
    rw [List.forall₂_cons_left_iff]
    constructor
    · rintro ⟨ref, href, others, hothers, heq⟩
      exact ⟨ref, others, href, ih.1 hothers, (Except.ok.inj heq).symm⟩
    · rintro ⟨ref, others, href, hothers, rfl⟩
      exact ⟨ref, href, others, ih.2 hothers, rfl⟩

/-! ### The files of the segments -/

section
variable [Crypto] [Target] {l l' : SegmentLayout}

omit [Crypto] [Target] in
/-- Behind its header the finished file is as it was written. -/
theorem NewSegment.content_eq (w : NewSegment) : w.content = w.header.encode ++ w.file.drop segmentHeaderSize := by
  unfold NewSegment.content putAt
  rw [List.take_zero, List.nil_append, SegmentHeader.length_encode, Nat.zero_add]

omit [Crypto] [Target] in
theorem NewSegment.slice_header (w : NewSegment) : slice w.content 0 segmentHeaderSize = w.header.encode := by
  rw [w.content_eq, slice_append_left (by simp), slice_of_le (by simp), List.drop_zero]

omit [Crypto] in
/-- The header of the finished file is that of its writer. -/
theorem NewSegment.parse_content (w : NewSegment) (hlen : segmentHeaderSize + w.payloadLen.toNat < u64Size) :
    SegmentHeader.parse (slice w.content 0 segmentHeaderSize) = .ok w.header := by
  rw [w.slice_header]
  exact SegmentHeader.parse_eq_ok.2 ⟨by simp, slice_of_le (by simp), UInt64.toNat_ofNat_of_lt' hlen⟩

namespace SegmentLayout.Sound
omit [Target]

theorem length_content (h : l.Sound) : l.writer.content.length = segmentHeaderSize + l.writer.payloadLen.toNat := by
  rw [l.writer.content_eq, List.length_append, List.length_drop, h.file, SegmentHeader.length_encode]
  omega

/-- The place of a block is behind the header. -/
theorem slice_content (h : l.Sound) {b : BlockRef} (hb : b ∈ l.blocks) :
    slice l.writer.content b.physicalOffset.toNat b.storedLen.toNat =
      slice l.writer.file b.physicalOffset.toNat b.storedLen.toNat := by
  have hge : segmentHeaderSize ≤ b.physicalOffset.toNat := (h.tiles.within (List.mem_map_of_mem hb)).1
  rw [l.writer.content_eq, slice_append_right (by simpa using hge), SegmentHeader.length_encode]
  unfold slice
  rw [List.drop_drop, Nat.add_sub_cancel' hge]

end SegmentLayout.Sound

omit [Crypto] in
/-- Segments of one file have one identity. -/
theorem SegmentLayout.identity_eq_of_content (hlen : segmentHeaderSize + l.writer.payloadLen.toNat < u64Size)
    (hlen' : segmentHeaderSize + l'.writer.payloadLen.toNat < u64Size) (h : l.writer.content = l'.writer.content) :
    l.identity = l'.identity := by
  have hparse := l.writer.parse_content hlen
  rw [h, l'.writer.parse_content hlen'] at hparse
  have hheader : l'.writer.header = l.writer.header := Except.ok.inj hparse
  exact Prod.ext (congrArg SegmentHeader.segmentUid hheader).symm (congrArg SegmentHeader.salt hheader).symm

/-! ### Distinct ids -/

/-- Among these segments, files with one content id are one file. -/
def ContentIdsDiffer (ls : List SegmentLayout) : Prop :=
  ∀ l ∈ ls, ∀ l' ∈ ls, contentId l.writer.content = contentId l'.writer.content → l.writer.content = l'.writer.content

omit [Target] in
/-- `made` are segments that earlier builds finished, each under an identity drawn before, and those of the previous
release are among them. -/
structure Earlier (before : List (ByteArr 16 × ByteArr 16)) (segments : List SegmentRecord) (made : List SegmentLayout) :
    Prop where
  drawn : ∀ l ∈ made, l.identity ∈ before
  fits : ∀ l ∈ made, segmentHeaderSize + l.writer.payloadLen.toNat < u64Size
  records : ∀ record ∈ segments, ∃ l ∈ made, record = l.writer.record

variable {job : Job} {before : List (ByteArr 16 × ByteArr 16)} {s : BuildContext} {ls made : List SegmentLayout}
  {classes : List SegmentClass}

namespace Laid
omit [Target]

/-- When no segment is open, every slot holds the record of its segment. -/
theorem records_eq (h : Laid job before s ls classes) (hactive : s.activeSegments = []) :
    s.newSegmentRecords = ls.map fun l => some l.writer.record := by
  refine List.ext_getElem? fun i => ?_
  rcases lt_or_ge i s.newSegmentRecords.length with hi | hi
  · obtain ⟨record, hrecord⟩ := h.filled hactive hi
    obtain ⟨-, l, hl, rfl, -⟩ := h.finished i record hrecord
    rw [hrecord, List.getElem?_map, hl]
    rfl
  · rw [List.getElem?_eq_none hi, List.getElem?_eq_none (by rwa [List.length_map, h.records])]

/-- When no segment is open, all have been finished. -/
theorem fits (h : Laid job before s ls classes) (hactive : s.activeSegments = []) {l : SegmentLayout} (hl : l ∈ ls) :
    segmentHeaderSize + l.writer.payloadLen.toNat < u64Size := by
  obtain ⟨i, hi⟩ := List.mem_iff_getElem?.1 hl
  have hrecord : s.newSegmentRecords[i]? = some (some l.writer.record) := by
    rw [h.records_eq hactive, List.getElem?_map, hi]
    rfl
  obtain ⟨-, l', hl', -, hlen⟩ := h.finished i _ hrecord
  obtain rfl := Option.some.inj (hi.symm.trans hl')
  exact hlen

/-- The record of the segment a block was placed in. -/
theorem exists_segmentOf (h : Laid job before s ls classes) (hactive : s.activeSegments = []) {cls : SegmentClass}
    {pending : PendingBlock} (hplaced : Placed s ls cls pending) :
    ∃ record, s.segmentOf pending.locator = some record ∧ ∀ id, pending.locator = .existing id → record.id = id := by
  unfold Placed at hplaced
  split at hplaced
  · rename_i i hlocator
    obtain ⟨l, hl, -, -⟩ := hplaced
    refine ⟨l.writer.record, ?_, fun id hid => absurd (hlocator.symm.trans hid) nofun⟩
    rw [hlocator, BuildContext.segmentOf, h.records_eq hactive, List.getElem?_map, hl]
    rfl
  · rename_i id hlocator
    obtain ⟨record, hrecord⟩ := Option.isSome_iff_exists.1 hplaced.1
    rw [hlocator]
    refine ⟨record, hrecord, fun id' hid' => ?_⟩
    obtain rfl := SegmentLocator.existing.inj hid'
    exact (h.kept _ record hrecord).1

/-- Every block of the build is resolved. -/
theorem resolveBlocks_eq (h : Laid job before s ls classes) (hactive : s.activeSegments = [])
    (hlen : (releaseSegments s).length ≤ 2 ^ 16) :
    ∃ refs, resolveBlocks s (releaseSegments s) s.pendingBlocks = .ok refs ∧
      List.Forall₂ (Resolved s) s.pendingBlocks refs := by
  have hblocks {classes : List SegmentClass} {blocks : List PendingBlock} (hb : List.Forall₂ (Placed s ls) classes blocks) :
      ∃ refs, resolveBlocks s (releaseSegments s) blocks = .ok refs ∧ List.Forall₂ (Resolved s) blocks refs := by
    induction hb with
    | nil => exact ⟨[], rfl, .nil⟩
    | cons hplaced _ ih =>
      obtain ⟨refs, hrefs, hresolved⟩ := ih
      obtain ⟨record, hrecord, hkept⟩ := h.exists_segmentOf hactive hplaced
      obtain ⟨ref, href, hone⟩ := resolveBlock_spec hlen hrecord hkept
      exact ⟨ref :: refs, resolveBlocks_eq_ok.2 (.cons href (resolveBlocks_eq_ok.1 hrefs)), .cons hone hresolved⟩
  exact hblocks h.blocks

theorem nodup_identity (h : Laid job before s ls classes) (hdrawn : s.world.drawn.Nodup) :
    (ls.map SegmentLayout.identity).Nodup ∧ ∀ l ∈ ls, l.identity ∉ before := by
  rw [h.drawn, List.nodup_append] at hdrawn
  exact ⟨hdrawn.2.1, fun l hl hin => hdrawn.2.2 _ hin _ (List.mem_map_of_mem hl) rfl⟩

end Laid

/-- No two segments of the release have one id. -/
theorem Laid.nodup_ids (h : Laid job before s ls classes) (hactive : s.activeSegments = [])
    (hdrawn : s.world.drawn.Nodup) (hmade : Earlier before s.reuseSegments made) (hids : ContentIdsDiffer (made ++ ls)) :
    ((releaseSegments s).map SegmentRecord.id).Nodup := by
  obtain ⟨hidentity, hfresh⟩ := h.nodup_identity hdrawn
  have hnew : s.newSegmentRecords.reduceOption = ls.map fun l => l.writer.record := by
    rw [h.records_eq hactive]
    exact List.filterMap_map.trans (congrFun List.filterMap_eq_map' ls)
  have hkept : s.usedExistingSegments.entries.map (SegmentRecord.id ∘ Sigma.snd) = s.usedExistingSegments.keys := by
    refine List.map_congr_left fun x hx => ?_
    exact (h.kept x.1 x.2 (AList.mem_lookup_iff.2 hx)).1
  have hperm : ((releaseSegments s).map SegmentRecord.id).Perm
      (s.usedExistingSegments.keys ++ ls.map fun l => l.writer.record.id) := by
    refine ((List.perm_insertionSort _ _).map SegmentRecord.id).trans ?_
    rw [hnew, List.map_append, List.map_map, List.map_map, hkept]
    exact .refl _
  refine hperm.nodup_iff.2 (List.nodup_append.2 ⟨s.usedExistingSegments.keys_nodup, ?_, ?_⟩)
  · refine (List.Nodup.of_map _ hidentity).map_on fun l hl l' hl' heq => ?_
    refine List.inj_on_of_nodup_map hidentity hl hl' ?_
    refine SegmentLayout.identity_eq_of_content (h.fits hactive hl) (h.fits hactive hl') ?_
    exact hids l (List.mem_append_right _ hl) l' (List.mem_append_right _ hl') heq
  · intro id hid id' hid' heq
    obtain ⟨x, hx, rfl⟩ := List.mem_map.1 hid
    obtain ⟨l, hl, rfl⟩ := List.mem_map.1 hid'
    obtain ⟨hid, hin⟩ := h.kept x.1 x.2 (AList.mem_lookup_iff.2 hx)
    obtain ⟨l', hl', hrecord⟩ := hmade.records _ hin
    have hcontent : l'.writer.content = l.writer.content := by
      refine hids l' (List.mem_append_left _ hl') l (List.mem_append_right _ hl) ?_
      calc l'.writer.record.id = x.2.id := by rw [hrecord]
        _ = l.writer.record.id := hid.trans heq
    refine hfresh l hl ?_
    rw [← SegmentLayout.identity_eq_of_content (hmade.fits l' hl') (h.fits hactive hl) hcontent]
    exact hmade.drawn l' hl'

end

end Hakutaku
