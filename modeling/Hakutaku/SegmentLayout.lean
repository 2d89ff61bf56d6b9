import Hakutaku.Lib.Tiling
import Hakutaku.Package
import Hakutaku.PackingSteps
import Hakutaku.RecordCodec
import Hakutaku.ReuseIndex

/-!
# Where the blocks of a build lie

A segment of a build by the references of its blocks, in the order they were written (`SegmentLayout`). `Ok`: they are
numbered from 0 on, tile the file behind its header, and the file holds them. `Laid`: the segments of a build at any
point of its packing loop, and where each block it has added so far lies.
-/

namespace Hakutaku
open Wire Act

/-- The place of a block in its segment file. -/
def BlockRef.range (b : BlockRef) : Nat × Nat := (b.physicalOffset.toNat, b.storedLen.toNat)

structure SegmentLayout where
  cls : SegmentClass
  writer : NewSegment
  blocks : List BlockRef

section
variable [Crypto]

/-- The bytes at the place of a reference are a seal of what it describes. -/
def NewSegment.Holds (w : NewSegment) (b : BlockRef) : Prop :=
  ∃ encoded,
    Crypto.aeadSeal w.key (nonce w.noncePrefix b.segmentBlockOrdinal)
      (blockAad w.projectId w.uid b.segmentBlockOrdinal b.codec b.storedLen b.plainLen) encoded =
        some (slice w.file b.physicalOffset.toNat b.storedLen.toNat) ∧
    (Crypto.hash (slice w.file b.physicalOffset.toNat b.storedLen.toNat)).prefixOf 16 half_le_hash = b.cipherDigest

/-- The blocks are numbered from 0 on and tile the file, which holds them. -/
structure SegmentLayout.Sound (l : SegmentLayout) : Prop where
  count : l.writer.blockCount.toNat = l.blocks.length
  ordinals : ∀ k (b : BlockRef), l.blocks[k]? = some b → b.segmentBlockOrdinal.toNat = k
  tiles : Tiles segmentHeaderSize (l.blocks.map BlockRef.range) (segmentHeaderSize + l.writer.payloadLen.toNat)
  file : l.writer.file.length = segmentHeaderSize + l.writer.payloadLen.toNat
  holds : ∀ b ∈ l.blocks, l.writer.Holds b

structure SegmentLayout.Ok (job : Job) (l : SegmentLayout) : Prop extends l.Sound where
  project : l.writer.projectId = job.identity.projectId
  key : l.writer.key = Crypto.keyedHash job.keys.master (segmentInput (l.writer.uid, l.writer.salt))
  availability : l.writer.availability = l.cls.availability
  target : l.writer.payloadLen ≤ l.cls.targetBytes job.options.segmentTargetBytes ∨ l.blocks.length ≤ 1

/-- What the segment drew to be told apart from all others. -/
def SegmentLayout.identity (l : SegmentLayout) : ByteArr 16 × ByteArr 16 := (l.writer.uid, l.writer.salt)

/-- The place of a block stays the same while the file grows. -/
theorem SegmentLayout.Sound.slice_append {l : SegmentLayout} (h : l.Sound) {b : BlockRef} (hb : b ∈ l.blocks) (more : Bytes) :
    slice (l.writer.file ++ more) b.physicalOffset.toNat b.storedLen.toNat =
      slice l.writer.file b.physicalOffset.toNat b.storedLen.toNat := by
  have hle := (h.tiles.within (List.mem_map_of_mem hb)).2
  unfold slice
  rw [List.drop_append_of_le_length (by rw [h.file]; exact le_trans (Nat.le_add_right _ _) hle),
    List.take_append_of_le_length]
  rw [List.length_drop, h.file]
  exact Nat.le_sub_of_add_le' hle

namespace SegmentLayout.Ok
variable {job : Job} {cls : SegmentClass} {l : SegmentLayout}

/-- A segment just started. -/
theorem start {w w' : World} {writer : NewSegment} (h : Created job cls.availability w w' writer) :
    SegmentLayout.Ok job ⟨cls, writer, []⟩ := by
  obtain ⟨hcount, hpayload, hfile⟩ := h.empty
  refine ⟨⟨?_, nofun, ?_, ?_, nofun⟩, h.project, h.key, h.availability_eq, .inr (Nat.zero_le _)⟩
  · rw [hcount]
    rfl
  · rw [hpayload]
    exact .nil _
  · rw [hfile, hpayload, length_zeros]
    rfl

/-- One more block. -/
theorem write (haead : AeadLaw) (h : l.Ok job) {logicalOffset : UInt64} {plainLen : Nat} {codec : Codec}
    {encoded encrypted : Bytes} {reference : BlockRef} {writer : NewSegment}
    (hroom : ActiveSegment.Room job ⟨l.cls, 0, l.writer⟩ (encoded.length + 16))
    (hw : Wrote l.writer logicalOffset plainLen codec encoded encrypted reference writer) :
    SegmentLayout.Ok job ⟨l.cls, writer, l.blocks ++ [reference]⟩ := by
  have hlen := haead.length_aeadSeal hw.sealed
  have hstored : reference.storedLen.toNat = encrypted.length := by
    rw [hw.reference_eq, hlen]
    exact UInt32.toNat_ofNat_of_lt' hw.stored
  have hoffset : reference.physicalOffset.toNat = segmentHeaderSize + l.writer.payloadLen.toNat := by
    rw [hw.reference_eq]
    exact UInt64.toNat_ofNat_of_lt' hw.offset
  have hordinal : reference.segmentBlockOrdinal = l.writer.blockCount := by rw [hw.reference_eq]
  have hpayload : writer.payloadLen.toNat = l.writer.payloadLen.toNat + encrypted.length := by
    rw [hw.writer_eq]
    exact UInt64.toNat_ofNat_of_lt' hw.payload
  have hfile : writer.file = l.writer.file ++ encrypted := by rw [hw.writer_eq]
  have hplace : slice writer.file reference.physicalOffset.toNat reference.storedLen.toNat = encrypted := by
    rw [hfile, hoffset, hstored, ← h.file]
    unfold slice
    rw [List.drop_left, List.take_length]
  have hsame : writer.projectId = l.writer.projectId ∧ writer.uid = l.writer.uid ∧ writer.salt = l.writer.salt ∧
      writer.noncePrefix = l.writer.noncePrefix ∧ writer.key = l.writer.key ∧ writer.availability = l.writer.availability := by
    rw [hw.writer_eq]
    exact ⟨rfl, rfl, rfl, rfl, rfl, rfl⟩
  obtain ⟨hproject, huid, hsalt, hnonces, hkey, havailability⟩ := hsame
  refine ⟨⟨?_, ?_, ?_, ?_, ?_⟩, hproject.trans h.project, ?_, havailability.trans h.availability, ?_⟩
  · rw [hw.writer_eq, List.length_append, List.length_singleton, ← h.count]
    exact UInt32.toNat_ofNat_of_lt' hw.count
  · intro k b hk
    rcases Nat.lt_or_ge k l.blocks.length with hlt | hge
    · rw [List.getElem?_append_left hlt] at hk
      exact h.ordinals k b hk
    · rw [List.getElem?_append_right hge, List.getElem?_singleton] at hk
      split at hk
      · obtain rfl := Option.some.inj hk
        rw [hordinal, h.count]
        omega
      · cases hk
  · have hrange : reference.range = (segmentHeaderSize + l.writer.payloadLen.toNat, encrypted.length) :=
      Prod.ext hoffset hstored
    rw [List.map_append, List.map_singleton, hrange, hpayload, ← Nat.add_assoc]
    exact h.tiles.snoc _
  · rw [hfile, List.length_append, h.file, hpayload, Nat.add_assoc]
  · intro b hb
    rcases List.mem_append.1 hb with hb | hb
    · obtain ⟨plain, hseal, hdigest⟩ := h.holds b hb
      have hslice := h.slice_append hb encrypted
      refine ⟨plain, ?_, ?_⟩
      · rw [hkey, hnonces, hproject, huid, hfile, hslice]
        exact hseal
      · rw [hfile, hslice]
        exact hdigest
    · obtain rfl := List.mem_singleton.1 hb
      refine ⟨encoded, ?_, ?_⟩
      · rw [hplace, hkey, hnonces, hproject, huid, hw.reference_eq]
        exact hw.sealed
      · rw [hplace, hw.reference_eq]
  · rw [hkey, huid, hsalt]
    exact h.key
  · rcases hroom with hfirst | hfits
    · right
      have hnone : l.blocks.length = 0 := by
        rw [← h.count]
        exact congrArg UInt32.toNat hfirst
      rw [List.length_append, hnone]
      exact le_refl 1
    · left
      have hstored' : (UInt64.ofNat (encoded.length + 16)).toNat = encrypted.length := by
        rw [hlen]
        exact UInt64.toNat_ofNat_of_lt' (lt_trans hw.stored (by decide))
      have hsum : satAdd64 l.writer.payloadLen (UInt64.ofNat (encoded.length + 16)) = writer.payloadLen := by
        unfold satAdd64
        rw [if_pos (by rw [hstored']; exact hw.payload)]
        refine UInt64.toNat_inj.1 ?_
        rw [UInt64.toNat_add, hstored', hpayload]
        exact Nat.mod_eq_of_lt hw.payload
      rwa [hsum] at hfits

end SegmentLayout.Ok

/-! ### The blocks of a build -/

omit [Crypto] in
/-- A reference is that of a block but for its place in the file it was added for. -/
def BlockRef.Copies (r b : BlockRef) : Prop := r = { b with logicalOffset := r.logicalOffset }

omit [Crypto] in
/-- Where a block of the class lies: in a segment of the build of this class, or in one of the previous release. -/
def Placed (s : BuildContext) (ls : List SegmentLayout) (cls : SegmentClass) (pending : PendingBlock) : Prop :=
  match pending.locator with
  | .new i => ∃ l : SegmentLayout, ls[i]? = some l ∧ l.cls = cls ∧ ∃ b ∈ l.blocks, pending.reference.Copies b
  | .existing id => (s.usedExistingSegments.lookup id).isSome ∧
    ∃ (key : ByteArr 32 × Availability) (reused : ReusableBlock) (segment : SegmentRecord),
      s.reuseIndex.lookup key = some reused ∧ s.reuseSegments[reused.segmentOrdinal.toNat]? = some segment ∧
        segment.id = id ∧ pending.reference.Copies reused.block

/-- The segments of a build and its blocks, each of its class. `before` are the identities drawn before the build. -/
structure Laid (job : Job) (before : List (ByteArr 16 × ByteArr 16)) (s : BuildContext) (ls : List SegmentLayout) (classes : List SegmentClass) : Prop
    extends Slots s where
  records : ls.length = s.newSegmentRecords.length
  drawn : s.world.drawn = before ++ ls.map SegmentLayout.identity
  ok : ∀ l ∈ ls, l.Ok job
  active : ∀ a ∈ s.activeSegments, ∃ blocks, ls[a.index]? = some ⟨a.cls, a.writer, blocks⟩
  finished : ∀ (i : Nat) (record : SegmentRecord), s.newSegmentRecords[i]? = some (some record) →
    s.world.Stored record.id ∧ ∃ l : SegmentLayout, ls[i]? = some l ∧ record = l.writer.record ∧
      segmentHeaderSize + l.writer.payloadLen.toNat < u64Size
  kept : ∀ id record, s.usedExistingSegments.lookup id = some record → record.id = id ∧ record ∈ s.reuseSegments
  blocks : List.Forall₂ (Placed s ls) classes s.pendingBlocks
  current : ∀ chunkId cls pending, s.currentReuse.lookup (chunkId, cls) = some pending → Placed s ls cls pending
  written : ∀ (i : Nat) (l : SegmentLayout), ls[i]? = some l →
    (l.blocks.map fun b => (⟨.new i, b⟩ : PendingBlock)).Sublist s.pendingBlocks

/-- The segments of a later state: none is lost, and each has the blocks it had. -/
def Outgrown (ls ls' : List SegmentLayout) : Prop :=
  ∀ (i : Nat) (l : SegmentLayout), ls[i]? = some l → ∃ l' : SegmentLayout, ls'[i]? = some l' ∧ l'.cls = l.cls ∧ l.blocks ⊆ l'.blocks

omit [Crypto] in
theorem Outgrown.refl (ls : List SegmentLayout) : Outgrown ls ls := fun _ l hl => ⟨l, hl, rfl, List.Subset.refl _⟩

variable {job : Job} {before : List (ByteArr 16 × ByteArr 16)} {s t : BuildContext} {ls ls' : List SegmentLayout} {classes : List SegmentClass} {cls : SegmentClass}
  {pending : PendingBlock}

omit [Crypto] in
/-- Another reference to the same block. -/
theorem Placed.copy (h : Placed s ls cls pending) (logicalOffset : UInt64) :
    Placed s ls cls { pending with reference := { pending.reference with logicalOffset } } := by
  have hcopies {b : BlockRef} (hb : pending.reference.Copies b) :
      ({ pending.reference with logicalOffset } : BlockRef).Copies b := by
    unfold BlockRef.Copies at hb ⊢
    rw [hb]
  unfold Placed at h ⊢
  split
  · rename_i i hi
    rw [show pending.locator = .new i from hi] at h
    obtain ⟨l, hl, hcls, b, hb, hb'⟩ := h
    exact ⟨l, hl, hcls, b, hb, hcopies hb'⟩
  · rename_i id hid
    rw [show pending.locator = .existing id from hid] at h
    obtain ⟨hkept, key, reused, segment, hreused, hsegment, hid', hb'⟩ := h
    exact ⟨hkept, key, reused, segment, hreused, hsegment, hid', hcopies hb'⟩

omit [Crypto] in
/-- A block stays where it is. -/
theorem Placed.mono (h : Placed s ls cls pending) (hls : Outgrown ls ls')
    (hkept : ∀ id, (s.usedExistingSegments.lookup id).isSome → (t.usedExistingSegments.lookup id).isSome)
    (hindex : t.reuseIndex = s.reuseIndex) (hsegments : t.reuseSegments = s.reuseSegments) : Placed t ls' cls pending := by
  unfold Placed at h ⊢
  split
  · rename_i i hi
    rw [hi] at h
    obtain ⟨l, hl, hcls, b, hb, hcopies⟩ := h
    obtain ⟨l', hl', hcls', hsub⟩ := hls i l hl
    exact ⟨l', hl', hcls'.trans hcls, b, hsub hb, hcopies⟩
  · rename_i id hid
    rw [hid] at h
    rw [hindex, hsegments]
    exact ⟨hkept id h.1, h.2⟩

namespace Laid

theorem new (job : Job) (reuse : ReuseIndex) (fileCount : Nat) (world : World) :
    Laid job world.drawn (.new reuse fileCount world) [] [] where
  toSlots := .new reuse fileCount world
  records := rfl
  drawn := (List.append_nil _).symm
  ok := nofun
  active := nofun
  finished := nofun
  kept id record h := by
    rw [show (BuildContext.new reuse fileCount world).usedExistingSegments = ∅ from rfl, AList.lookup_empty] at h
    cases h
  blocks := .nil
  current chunkId cls pending h := by
    rw [show (BuildContext.new reuse fileCount world).currentReuse = ∅ from rfl, AList.lookup_empty] at h
    cases h
  written := nofun

theorem outside (h : Laid job before s ls classes) (ht : Outside s t) : Laid job before t ls classes := by
  have hslots := (Step.outside ht : Step job s [] t).slots h.toSlots
  obtain ⟨_, _, _, _, _, _, w, rfl, hw⟩ := ht
  refine ⟨hslots, h.records, hw.drawn.trans h.drawn, h.ok, h.active, fun i record hi => ?_, h.kept, h.blocks, h.current, h.written⟩
  obtain ⟨hstored, hrest⟩ := h.finished i record hi
  exact ⟨hstored.idle hw, hrest⟩

omit [Crypto] in
/-- One more block, added to the list. -/
theorem blocks_snoc {blocks : List PendingBlock} (h : List.Forall₂ (Placed s ls) classes blocks)
    (hp : Placed s ls cls pending) : List.Forall₂ (Placed s ls) (classes ++ [cls]) (blocks ++ [pending]) :=
  List.rel_append h (.cons hp .nil)

theorem share (h : Laid job before s ls classes) {chunkId : ByteArr 32} {plainLen : UInt32} {policy : CompressionPolicy}
    {reused : PendingBlock} (hreused : s.currentBlock chunkId cls plainLen policy = some reused) (logicalOffset : UInt64) :
    Laid job before (s.shareBlock reused logicalOffset) ls (classes ++ [cls]) := by
  have hplaced := (h.current _ _ _ (BuildContext.currentBlock_eq_some.1 hreused).1).copy logicalOffset
  exact ⟨⟨h.opened, h.distinct, h.unfilled⟩, h.records, h.drawn, h.ok, h.active, h.finished, h.kept,
    blocks_snoc h.blocks hplaced, h.current,
    fun i l hl => (h.written i l hl).trans (List.sublist_append_left _ _)⟩

theorem keep (h : Laid job before s ls classes) {chunkId : ByteArr 32} {plainLen : UInt32} {policy : CompressionPolicy}
    {reused : ReusableBlock} {segment : SegmentRecord}
    (hreused : s.existingBlock chunkId cls.availability plainLen policy = some reused)
    (hsegment : s.reuseSegments[reused.segmentOrdinal.toNat]? = some segment) (logicalOffset : UInt64) :
    Laid job before (s.keepExisting chunkId cls segment reused.block logicalOffset) ls (classes ++ [cls]) := by
  have hkept : ∀ id record, (s.keepExisting chunkId cls segment reused.block logicalOffset).usedExistingSegments.lookup id =
      some record → record.id = id ∧ record ∈ s.reuseSegments := by
    intro id record hrecord
    unfold BuildContext.keepExisting at hrecord
    dsimp only at hrecord
    split at hrecord
    · exact h.kept id record hrecord
    · rcases eq_or_ne id segment.id with rfl | hne
      · rw [AList.lookup_insert] at hrecord
        obtain rfl := Option.some.inj hrecord
        exact ⟨rfl, List.mem_of_getElem? hsegment⟩
      · rw [AList.lookup_insert_ne hne] at hrecord
        exact h.kept id record hrecord
  have hgrow : ∀ id, (s.usedExistingSegments.lookup id).isSome →
      ((s.keepExisting chunkId cls segment reused.block logicalOffset).usedExistingSegments.lookup id).isSome := by
    intro id hid
    unfold BuildContext.keepExisting
    dsimp only
    split
    · exact hid
    · rcases eq_or_ne id segment.id with rfl | hne
      · rw [AList.lookup_insert]
        rfl
      · rw [AList.lookup_insert_ne hne]
        exact hid
  have hin : ((s.keepExisting chunkId cls segment reused.block logicalOffset).usedExistingSegments.lookup segment.id).isSome := by
    unfold BuildContext.keepExisting
    dsimp only
    split
    · assumption
    · rw [AList.lookup_insert]
      rfl
  have hmono {c : SegmentClass} {p : PendingBlock} (hp : Placed s ls c p) :
      Placed (s.keepExisting chunkId cls segment reused.block logicalOffset) ls c p := hp.mono (.refl ls) hgrow rfl rfl
  have hplaced : Placed (s.keepExisting chunkId cls segment reused.block logicalOffset) ls cls
      ⟨.existing segment.id, { reused.block with logicalOffset }⟩ :=
    ⟨hin, _, reused, segment, (BuildContext.existingBlock_eq_some.1 hreused).1, hsegment, rfl, rfl⟩
  refine ⟨⟨h.opened, h.distinct, h.unfilled⟩, h.records, h.drawn, h.ok, h.active, h.finished, hkept,
    blocks_snoc (h.blocks.imp fun _ _ => hmono) hplaced, fun id c p hp => ?_,
    fun i l hl => (h.written i l hl).trans (List.sublist_append_left _ _)⟩
  rcases eq_or_ne (id, c) (chunkId, cls) with heq | hne
  · obtain ⟨rfl, rfl⟩ := Prod.mk.inj heq
    rw [BuildContext.keepExisting, AList.lookup_insert] at hp
    obtain rfl := Option.some.inj hp
    exact hplaced
  · rw [BuildContext.keepExisting, AList.lookup_insert_ne hne] at hp
    exact hmono (h.current id c p hp)

/-- A segment is started. -/
theorem start (h : Laid job before s ls classes) {writer : NewSegment} {world : World}
    (hcreated : Created job cls.availability s.world world writer) :
    Laid job before { s with
      world := world
      newSegmentRecords := s.newSegmentRecords ++ [none]
      activeSegments := s.activeSegments ++ [⟨cls, s.newSegmentRecords.length, writer⟩] }
      (ls ++ [⟨cls, writer, []⟩]) classes := by
  have hgrown : Outgrown ls (ls ++ [⟨cls, writer, []⟩]) := fun i l hl =>
    ⟨l, by rw [List.getElem?_append_left (List.getElem?_eq_some_iff.1 hl).1, hl], rfl, List.Subset.refl _⟩
  have hmono {c : SegmentClass} {p : PendingBlock} (hp : Placed s ls c p) :
      Placed { s with
        world := world
        newSegmentRecords := s.newSegmentRecords ++ [none]
        activeSegments := s.activeSegments ++ [⟨cls, s.newSegmentRecords.length, writer⟩] }
        (ls ++ [⟨cls, writer, []⟩]) c p := hp.mono hgrown (fun _ hid => hid) rfl rfl
  refine ⟨h.toSlots.start cls writer, ?_, ?_, ?_, ?_, ?_, h.kept, h.blocks.imp fun _ _ => hmono,
    fun id c p hp => hmono (h.current id c p hp), ?_⟩
  · rw [List.length_append, List.length_append, h.records]
    rfl
  · rw [List.map_append, ← List.append_assoc, ← h.drawn]
    exact hcreated.drawn
  · intro l hl
    rcases List.mem_append.1 hl with hl | hl
    · exact h.ok l hl
    · obtain rfl := List.mem_singleton.1 hl
      exact .start hcreated
  · intro a ha
    rcases List.mem_append.1 ha with ha | ha
    · obtain ⟨blocks, hblocks⟩ := h.active a ha
      exact ⟨blocks, by rw [List.getElem?_append_left (List.getElem?_eq_some_iff.1 hblocks).1, hblocks]⟩
    · obtain rfl := List.mem_singleton.1 ha
      refine ⟨[], ?_⟩
      rw [← h.records]
      exact List.getElem?_concat_length
  · intro i record hi
    rcases lt_or_ge i s.newSegmentRecords.length with hlen | hlen
    · rw [List.getElem?_append_left hlen] at hi
      obtain ⟨hstored, l, hl, hrest⟩ := h.finished i record hi
      refine ⟨?_, l, ?_, hrest⟩
      · obtain ⟨content, hlookup, hid⟩ := hstored
        exact ⟨content, hcreated.data _ _ hlookup, hid⟩
      · rw [List.getElem?_append_left (List.getElem?_eq_some_iff.1 hl).1, hl]
    · rw [List.getElem?_append_right hlen, List.getElem?_singleton] at hi
      split at hi <;> cases hi
  · intro i l hl
    rcases lt_or_ge i ls.length with hlen | hlen
    · rw [List.getElem?_append_left hlen] at hl
      exact h.written i l hl
    · rw [List.getElem?_append_right hlen, List.getElem?_singleton] at hl
      split at hl
      · obtain rfl := Option.some.inj hl
        exact List.nil_sublist _
      · cases hl

/-- A segment is finished. -/
theorem finish (h : Laid job before s ls classes) {a : ActiveSegment} {position : Nat} {world : World}
    (hget : s.activeSegments[position]? = some a) (hlen : segmentHeaderSize + a.writer.payloadLen.toNat < u64Size)
    (hworld : s.world.Idle world) (hstored : world.Stored a.writer.record.id) (bytes : UInt64) :
    Laid job before { s with
      world := world
      activeSegments := swapRemove s.activeSegments position
      newSegmentBytes := bytes
      newSegmentRecords := s.newSegmentRecords.set a.index (some a.writer.record) } ls classes := by
  refine ⟨h.toSlots.finish hget bytes _, ?_, hworld.drawn.trans h.drawn, h.ok, fun b hb => h.active b (mem_swapRemove hget hb), ?_, h.kept, h.blocks,
    h.current, h.written⟩
  · rw [List.length_set]
    exact h.records
  · intro i record hi
    rcases eq_or_ne a.index i with rfl | hne
    · rw [List.getElem?_set_self (h.index_lt (List.mem_of_getElem? hget))] at hi
      obtain rfl := Option.some.inj (Option.some.inj hi)
      obtain ⟨blocks, hblocks⟩ := h.active a (List.mem_of_getElem? hget)
      exact ⟨hstored, _, hblocks, rfl, hlen⟩
    · rw [List.getElem?_set_ne hne] at hi
      obtain ⟨hstored', hrest⟩ := h.finished i record hi
      exact ⟨hstored'.idle hworld, hrest⟩

/-- A block is written. -/
theorem write (haead : AeadLaw) (h : Laid job before s ls classes) {a : ActiveSegment} {position : Nat} {world : World}
    {logicalOffset : UInt64} {plainLen : Nat} {codec : Codec} {encoded encrypted : Bytes} {reference : BlockRef}
    {writer : NewSegment} (hget : s.activeSegments[position]? = some a)
    (hroom : a.Room job (encoded.length + 16)) (hworld : s.world.Sealed world a.writer.nextSeal)
    (hw : Wrote a.writer logicalOffset plainLen codec encoded encrypted reference writer) (chunkId : ByteArr 32) :
    ∃ blocks, ls[a.index]? = some ⟨a.cls, a.writer, blocks⟩ ∧ Laid job before
      (BuildContext.appendNew { s with world := world } chunkId a.cls position { a with writer := writer } reference)
      (ls.set a.index ⟨a.cls, writer, blocks ++ [reference]⟩) (classes ++ [a.cls]) := by
  obtain ⟨blocks, hblocks⟩ := h.active a (List.mem_of_getElem? hget)
  have hlt := (List.getElem?_eq_some_iff.1 hblocks).1
  have hnext : (ls.set a.index ⟨a.cls, writer, blocks ++ [reference]⟩)[a.index]? =
      some ⟨a.cls, writer, blocks ++ [reference]⟩ := List.getElem?_set_self hlt
  have hgrown : Outgrown ls (ls.set a.index ⟨a.cls, writer, blocks ++ [reference]⟩) := by
    intro i l hl
    rcases eq_or_ne a.index i with rfl | hne
    · obtain rfl := Option.some.inj (hblocks.symm.trans hl)
      exact ⟨_, hnext, rfl, List.subset_append_left _ _⟩
    · exact ⟨l, by rw [List.getElem?_set_ne hne, hl], rfl, List.Subset.refl _⟩
  have hmono {c : SegmentClass} {p : PendingBlock} (hp : Placed s ls c p) :
      Placed (BuildContext.appendNew { s with world := world } chunkId a.cls position { a with writer := writer } reference)
        (ls.set a.index ⟨a.cls, writer, blocks ++ [reference]⟩) c p := hp.mono hgrown (fun _ hid => hid) rfl rfl
  have hplaced : Placed
      (BuildContext.appendNew { s with world := world } chunkId a.cls position { a with writer := writer } reference)
      (ls.set a.index ⟨a.cls, writer, blocks ++ [reference]⟩) a.cls ⟨.new a.index, reference⟩ :=
    ⟨_, hnext, rfl, reference, List.mem_append_right _ (List.mem_singleton_self _), rfl⟩
  refine ⟨blocks, hblocks, h.toSlots.write hget chunkId writer reference,
    ?_, ?_, ?_, ?_, ?_, h.kept, blocks_snoc (h.blocks.imp fun _ _ => hmono) hplaced, ?_, ?_⟩
  · rw [List.length_set]
    exact h.records
  · have hsame : (ls.set a.index ⟨a.cls, writer, blocks ++ [reference]⟩).map SegmentLayout.identity =
        ls.map SegmentLayout.identity := map_set_of_eq hblocks (by rw [hw.writer_eq]; rfl)
    rw [hsame]
    exact hworld.drawn.trans h.drawn
  · intro l hl
    rcases List.mem_or_eq_of_mem_set hl with hl | rfl
    · exact h.ok l hl
    · exact (h.ok _ (List.mem_of_getElem? hblocks)).write haead hroom hw
  · intro b hb
    rcases mem_set_of_nodup hget h.distinct hb with rfl | ⟨hb, hne⟩
    · exact ⟨_, hnext⟩
    · obtain ⟨blocks', hblocks'⟩ := h.active b hb
      exact ⟨blocks', by rw [List.getElem?_set_ne hne.symm, hblocks']⟩
  · intro i record hi
    obtain ⟨hstored, l, hl, hrest⟩ := h.finished i record hi
    refine ⟨?_, l, ?_, hrest⟩
    · obtain ⟨content, hlookup, hid⟩ := hstored
      exact ⟨content, hworld.data _ _ hlookup, hid⟩
    · have hne : a.index ≠ i := by
        rintro rfl
        exact absurd ((h.opened a (List.mem_of_getElem? hget)).symm.trans hi) nofun
      rw [List.getElem?_set_ne hne, hl]
  · intro id c p hp
    rcases eq_or_ne (id, c) (chunkId, a.cls) with heq | hne
    · obtain ⟨rfl, rfl⟩ := Prod.mk.inj heq
      rw [BuildContext.appendNew, AList.lookup_insert] at hp
      obtain rfl := Option.some.inj hp
      exact hplaced
    · rw [BuildContext.appendNew, AList.lookup_insert_ne hne] at hp
      exact hmono (h.current id c p hp)
  · intro i l hl
    rcases eq_or_ne a.index i with rfl | hne
    · obtain rfl := Option.some.inj (hnext.symm.trans hl)
      rw [List.map_append]
      exact (h.written _ _ hblocks).append (List.Sublist.refl _)
    · rw [List.getElem?_set_ne hne] at hl
      exact (h.written i l hl).trans (List.sublist_append_left _ _)

/-- Every step of the packing loop keeps the layout, and appends blocks of the classes it says. -/
theorem step (haead : AeadLaw) {cs : List SegmentClass} (h : Laid job before s ls classes) (hstep : Step job s cs t) :
    ∃ ls', Laid job before t ls' (classes ++ cs) := by
  cases hstep with
  | outside ht =>
    rw [List.append_nil]
    exact ⟨ls, h.outside ht⟩
  | share hreused logicalOffset => exact ⟨ls, h.share hreused logicalOffset⟩
  | keep hreused hsegment logicalOffset => exact ⟨ls, h.keep hreused hsegment logicalOffset⟩
  | start hnew hcreated =>
    rw [List.append_nil]
    exact ⟨_, h.start hcreated⟩
  | finish hget hopen hlen hworld hstored =>
    rw [List.append_nil]
    exact ⟨ls, h.finish hget hlen hworld hstored _⟩
  | write hget hcompress hroom hworld hwrote =>
    obtain ⟨blocks, -, h'⟩ := h.write haead hget hroom hworld hwrote _
    exact ⟨_, h'⟩

theorem steps (haead : AeadLaw) {cs : List SegmentClass} (h : Laid job before s ls classes) (hsteps : Steps job s cs t) :
    ∃ ls', Laid job before t ls' (classes ++ cs) := by
  induction hsteps with
  | refl =>
    rw [List.append_nil]
    exact ⟨ls, h⟩
  | tail _ hstep ih =>
    obtain ⟨_, h'⟩ := ih
    rw [← List.append_assoc]
    exact h'.step haead hstep

end Laid

end

end Hakutaku
