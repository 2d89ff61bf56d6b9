import Hakutaku.SealedPages
import Hakutaku.SegmentLayout

/-!
# What the blocks of a build hold

`NewSegment.Opens`: the bytes at the place of a block open to a plaintext. `Stands`: a block stands for a chunk of a class,
either because it opens to a plaintext with the id of the chunk in a segment of the class, or because it is the block of the
reuse index for the id and the availability. Every block that a build appends stands for its chunk (`Filed`).
-/

namespace Hakutaku
open Wire Act BuildContext

section
variable [Crypto]

/-- What is stored at the place of a block opens to a plaintext. -/
structure NewSegment.Opens (w : NewSegment) (b : BlockRef) (plaintext : Bytes) : Prop where
  sealed : ∃ encoded,
    Crypto.aeadSeal w.key (nonce w.noncePrefix b.segmentBlockOrdinal)
      (blockAad w.projectId w.uid b.segmentBlockOrdinal b.codec b.storedLen b.plainLen) encoded =
        some (slice w.file b.physicalOffset.toNat b.storedLen.toNat) ∧
    decodeOwned b.codec encoded b.plainLen.toNat = .ok plaintext
  fits : b.codec.Fits b.storedLen.toNat b.plainLen.toNat

theorem NewSegment.Opens.length {w : NewSegment} {b : BlockRef} {plaintext : Bytes} (h : w.Opens b plaintext) :
    plaintext.length = b.plainLen.toNat := by
  obtain ⟨encoded, -, hdecode⟩ := h.sealed
  exact length_of_decodeOwned hdecode

theorem compressBlock_spec (hz : ZstdLaw) {level : Int} {plaintext encoded : Bytes} {policy : CompressionPolicy}
    {codec : Codec} (h : compressBlock level plaintext policy = .ok (codec, encoded)) :
    codec.Fits (encoded.length + 16) plaintext.length ∧ decodeOwned codec encoded plaintext.length = .ok plaintext := by
  cases policy with
  | auto => exact compressBytes_spec hz h
  | raw =>
    cases h
    refine ⟨rfl, ?_⟩
    simp [decodeOwned]

namespace Wrote
variable {l : SegmentLayout} {logicalOffset : UInt64} {plaintext encoded encrypted : Bytes} {codec : Codec}
  {reference : BlockRef} {writer : NewSegment}

/-- A new block is at the end of the file. -/
theorem place (haead : AeadLaw) (h : l.Sound)
    (hw : Wrote l.writer logicalOffset plaintext.length codec encoded encrypted reference writer) :
    slice writer.file reference.physicalOffset.toNat reference.storedLen.toNat = encrypted := by
  have hstored : reference.storedLen.toNat = encrypted.length := by
    rw [hw.reference_eq, haead.length_aeadSeal hw.sealed]
    exact UInt32.toNat_ofNat_of_lt' hw.stored
  have hoffset : reference.physicalOffset.toNat = l.writer.file.length := by
    rw [hw.reference_eq, h.file]
    exact UInt64.toNat_ofNat_of_lt' hw.offset
  rw [hstored, hoffset, hw.writer_eq]
  unfold slice
  rw [List.drop_left, List.take_length]

theorem opens_new (haead : AeadLaw) (hz : ZstdLaw) (h : l.Sound) {level : Int} {policy : CompressionPolicy}
    (hcompress : compressBlock level plaintext policy = .ok (codec, encoded))
    (hw : Wrote l.writer logicalOffset plaintext.length codec encoded encrypted reference writer) :
    writer.Opens reference plaintext := by
  obtain ⟨hfits, hdecode⟩ := compressBlock_spec hz hcompress
  have hplace := hw.place haead h
  refine ⟨⟨encoded, ?_, ?_⟩, ?_⟩
  · rw [hplace, hw.writer_eq, hw.reference_eq]
    exact hw.sealed
  · rw [hw.reference_eq]
    show decodeOwned codec encoded (UInt32.ofNat plaintext.length).toNat = .ok plaintext
    rw [UInt32.toNat_ofNat_of_lt' hw.plain]
    exact hdecode
  · rw [hw.reference_eq]
    show codec.Fits (UInt32.ofNat (encoded.length + 16)).toNat (UInt32.ofNat plaintext.length).toNat
    rw [UInt32.toNat_ofNat_of_lt' hw.plain, UInt32.toNat_ofNat_of_lt' hw.stored]
    exact hfits

/-- The blocks that were there open as before. -/
theorem opens_old (h : l.Sound) (hw : Wrote l.writer logicalOffset plaintext.length codec encoded encrypted reference writer)
    {b : BlockRef} (hb : b ∈ l.blocks) {plain : Bytes} (hopens : l.writer.Opens b plain) : writer.Opens b plain := by
  obtain ⟨⟨encoded', hseal, hdecode⟩, hfits⟩ := hopens
  refine ⟨⟨encoded', ?_, hdecode⟩, hfits⟩
  rw [hw.writer_eq]
  show Crypto.aeadSeal l.writer.key _ _ encoded' = some (slice (l.writer.file ++ encrypted) _ _)
  rw [h.slice_append hb encrypted]
  exact hseal

end Wrote

/-! ### Blocks and chunks -/

/-- The block stands for the chunk of a class. -/
def Stands (s : BuildContext) (ls : List SegmentLayout) (chunkId : ByteArr 32) (cls : SegmentClass) (pending : PendingBlock) :
    Prop :=
  match pending.locator with
  | .new i => ∃ l : SegmentLayout, ls[i]? = some l ∧ l.cls = cls ∧ ∃ b ∈ l.blocks, pending.reference.Copies b ∧
    ∃ plaintext, l.writer.Opens b plaintext ∧ Crypto.hash plaintext = chunkId
  | .existing id => (s.usedExistingSegments.lookup id).isSome ∧ ∃ (reused : ReusableBlock) (segment : SegmentRecord),
    s.reuseIndex.lookup (chunkId, cls.availability) = some reused ∧
      s.reuseSegments[reused.segmentOrdinal.toNat]? = some segment ∧ segment.id = id ∧
      pending.reference.Copies reused.block

/-- The segments of a later state: each has the blocks it had, which open as before. -/
def Overgrown (ls ls' : List SegmentLayout) : Prop :=
  ∀ (i : Nat) (l : SegmentLayout), ls[i]? = some l → ∃ l' : SegmentLayout, ls'[i]? = some l' ∧ l'.cls = l.cls ∧
    ∀ b ∈ l.blocks, b ∈ l'.blocks ∧ ∀ plaintext, l.writer.Opens b plaintext → l'.writer.Opens b plaintext

theorem Overgrown.refl (ls : List SegmentLayout) : Overgrown ls ls := fun _ l hl => ⟨l, hl, rfl, fun _ hb => ⟨hb, fun _ h => h⟩⟩

/-- What stands for a chunk goes on standing for it. -/
def Keeps (s : BuildContext) (ls : List SegmentLayout) (t : BuildContext) (ls' : List SegmentLayout) : Prop :=
  ∀ chunkId cls pending, Stands s ls chunkId cls pending → Stands t ls' chunkId cls pending

variable {job : Job} {before : List (ByteArr 16 × ByteArr 16)} {s t : BuildContext} {ls ls' : List SegmentLayout}
  {classes : List SegmentClass} {cls : SegmentClass} {pending : PendingBlock} {chunkId : ByteArr 32}

/-- Another reference to the same block. -/
theorem Stands.copy (h : Stands s ls chunkId cls pending) (logicalOffset : UInt64) :
    Stands s ls chunkId cls { pending with reference := { pending.reference with logicalOffset } } := by
  have hcopies {b : BlockRef} (hb : pending.reference.Copies b) :
      ({ pending.reference with logicalOffset } : BlockRef).Copies b := by
    unfold BlockRef.Copies at hb ⊢
    rw [hb]
  unfold Stands at h ⊢
  rcases hlocator : pending.locator with id | i
  · rw [hlocator] at h
    obtain ⟨hused, reused, segment, hreused, hsegment, hid, hb⟩ := h
    exact ⟨hused, reused, segment, hreused, hsegment, hid, hcopies hb⟩
  · rw [hlocator] at h
    obtain ⟨l, hl, hcls, b, hb, hb', hopens⟩ := h
    exact ⟨l, hl, hcls, b, hb, hcopies hb', hopens⟩

theorem Keeps.of_grown (hls : Overgrown ls ls')
    (hused : ∀ id, (s.usedExistingSegments.lookup id).isSome → (t.usedExistingSegments.lookup id).isSome)
    (hindex : t.reuseIndex = s.reuseIndex) (hsegments : t.reuseSegments = s.reuseSegments) : Keeps s ls t ls' := by
  intro chunkId cls pending h
  unfold Stands at h ⊢
  rcases hlocator : pending.locator with id | i
  · rw [hlocator] at h
    rw [hindex, hsegments]
    exact ⟨hused id h.1, h.2⟩
  · rw [hlocator] at h
    obtain ⟨l, hl, hcls, b, hb, hcopies, plaintext, hopens, hid⟩ := h
    obtain ⟨l', hl', hcls', hblocks⟩ := hls i l hl
    obtain ⟨hb', hopens'⟩ := hblocks b hb
    exact ⟨l', hl', hcls'.trans hcls, b, hb', hcopies, plaintext, hopens' _ hopens, hid⟩

/-- Only the blocks of the build differ. -/
theorem Keeps.of_same (hused : t.usedExistingSegments = s.usedExistingSegments) (hindex : t.reuseIndex = s.reuseIndex)
    (hsegments : t.reuseSegments = s.reuseSegments) : Keeps s ls t ls :=
  .of_grown (.refl ls) (fun id h => by rwa [hused]) hindex hsegments

theorem Keeps.trans {u : BuildContext} {ls'' : List SegmentLayout} (h : Keeps s ls t ls') (h' : Keeps t ls' u ls'') :
    Keeps s ls u ls'' := fun _ _ _ hp => h' _ _ _ (h _ _ _ hp)

/-- The segments of a build, whose blocks for the next chunks stand for them. -/
structure Stocked (job : Job) (before : List (ByteArr 16 × ByteArr 16)) (s : BuildContext) (ls : List SegmentLayout)
    (classes : List SegmentClass) : Prop extends Laid job before s ls classes where
  stands : ∀ chunkId cls pending, s.currentReuse.lookup (chunkId, cls) = some pending → Stands s ls chunkId cls pending

namespace Stocked

theorem new (job : Job) (reuse : ReuseIndex) (fileCount : Nat) (world : World) :
    Stocked job world.drawn (.new reuse fileCount world) [] [] where
  toLaid := .new job reuse fileCount world
  stands chunkId cls pending h := by
    rw [show (BuildContext.new reuse fileCount world).currentReuse = ∅ from rfl, AList.lookup_empty] at h
    cases h

omit [Crypto] in
theorem isSome_keepExisting {segment : SegmentRecord} {block : BlockRef} {logicalOffset : UInt64} {id : SegmentId}
    (h : (s.usedExistingSegments.lookup id).isSome ∨ id = segment.id) :
    ((s.keepExisting chunkId cls segment block logicalOffset).usedExistingSegments.lookup id).isSome := by
  unfold keepExisting
  dsimp only
  by_cases hused : (s.usedExistingSegments.lookup segment.id).isSome
  · rw [if_pos hused]
    rcases h with h | rfl
    · exact h
    · exact hused
  · rw [if_neg hused]
    by_cases hid : id = segment.id
    · rw [hid, AList.lookup_insert]
      rfl
    · rw [AList.lookup_insert_ne hid]
      exact h.resolve_right hid

/-- A step keeps what the blocks stand for. -/
theorem step (haead : AeadLaw) (hz : ZstdLaw) {cs : List SegmentClass} (h : Stocked job before s ls classes)
    (hstep : Step job s cs t) : ∃ ls', Stocked job before t ls' (classes ++ cs) ∧ Keeps s ls t ls' := by
  cases hstep with
  | outside ht =>
    have hlaid := h.toLaid.outside ht
    obtain ⟨_, _, _, _, _, _, world, rfl, -⟩ := ht
    rw [List.append_nil]
    have hkeeps {t : BuildContext} (hused : t.usedExistingSegments = s.usedExistingSegments) (hindex : t.reuseIndex = s.reuseIndex)
        (hsegments : t.reuseSegments = s.reuseSegments) : Keeps s ls t ls := .of_same hused hindex hsegments
    exact ⟨ls, ⟨hlaid, fun id c p hp => hkeeps rfl rfl rfl id c p (h.stands id c p hp)⟩, hkeeps rfl rfl rfl⟩
  | share hreused logicalOffset =>
    have hkeeps {reused : PendingBlock} : Keeps s ls (s.shareBlock reused logicalOffset) ls := .of_same rfl rfl rfl
    exact ⟨ls, ⟨h.toLaid.share hreused logicalOffset, fun id c p hp => hkeeps id c p (h.stands id c p hp)⟩, hkeeps⟩
  | @keep chunkId cls plainLen policy reused segment hreused hsegment logicalOffset =>
    have hkeeps : Keeps s ls (s.keepExisting chunkId cls segment reused.block logicalOffset) ls :=
      .of_grown (.refl ls) (fun id hid => isSome_keepExisting (.inl hid)) rfl rfl
    refine ⟨ls, ⟨h.toLaid.keep hreused hsegment logicalOffset, fun id c p hp => ?_⟩, hkeeps⟩
    by_cases heq : (id, c) = (chunkId, cls)
    · obtain ⟨rfl, rfl⟩ := Prod.mk.inj heq
      rw [keepExisting, AList.lookup_insert] at hp
      obtain rfl := Option.some.inj hp
      exact ⟨isSome_keepExisting (.inr rfl), reused, segment, (existingBlock_eq_some.1 hreused).1, hsegment, rfl, rfl⟩
    · rw [keepExisting, AList.lookup_insert_ne heq] at hp
      exact hkeeps id c p (h.stands id c p hp)
  | @start cls world writer hnew hcreated =>
    rw [List.append_nil]
    have hgrown : Overgrown ls (ls ++ [⟨cls, writer, []⟩]) := by
      intro i l hl
      refine ⟨l, ?_, rfl, fun b hb => ⟨hb, fun _ h => h⟩⟩
      rw [List.getElem?_append_left (List.getElem?_eq_some_iff.1 hl).1, hl]
    have hkeeps {t : BuildContext} (hused : t.usedExistingSegments = s.usedExistingSegments) (hindex : t.reuseIndex = s.reuseIndex)
        (hsegments : t.reuseSegments = s.reuseSegments) : Keeps s ls t (ls ++ [⟨cls, writer, []⟩]) :=
      .of_grown hgrown (fun id hid => by rwa [hused]) hindex hsegments
    exact ⟨_, ⟨h.toLaid.start hcreated, fun id c p hp => hkeeps rfl rfl rfl id c p (h.stands id c p hp)⟩, hkeeps rfl rfl rfl⟩
  | finish hget hopen hlen hworld hstored =>
    rw [List.append_nil]
    have hkeeps {t : BuildContext} (hused : t.usedExistingSegments = s.usedExistingSegments) (hindex : t.reuseIndex = s.reuseIndex)
        (hsegments : t.reuseSegments = s.reuseSegments) : Keeps s ls t ls := .of_same hused hindex hsegments
    exact ⟨ls, ⟨h.toLaid.finish hget hlen hworld hstored _, fun id c p hp => hkeeps rfl rfl rfl id c p (h.stands id c p hp)⟩,
      hkeeps rfl rfl rfl⟩
  | @write position a world logicalOffset plaintext encoded encrypted policy codec reference writer hget hcompress hroom
      hworld hwrote =>
    obtain ⟨blocks, hblocks, hlaid⟩ := h.toLaid.write haead hget hroom hworld hwrote (Crypto.hash plaintext)
    have hsound : (⟨a.cls, a.writer, blocks⟩ : SegmentLayout).Sound := (h.ok _ (List.mem_of_getElem? hblocks)).toSound
    have hnext : (ls.set a.index ⟨a.cls, writer, blocks ++ [reference]⟩)[a.index]? =
        some ⟨a.cls, writer, blocks ++ [reference]⟩ := List.getElem?_set_self (List.getElem?_eq_some_iff.1 hblocks).1
    have hgrown : Overgrown ls (ls.set a.index ⟨a.cls, writer, blocks ++ [reference]⟩) := by
      intro i l hl
      rcases eq_or_ne a.index i with rfl | hne
      · obtain rfl := Option.some.inj (hblocks.symm.trans hl)
        refine ⟨_, hnext, rfl, fun b hb => ⟨List.mem_append_left _ hb, fun plain hopens => ?_⟩⟩
        exact hwrote.opens_old hsound hb hopens
      · exact ⟨l, by rw [List.getElem?_set_ne hne, hl], rfl, fun b hb => ⟨hb, fun _ h => h⟩⟩
    have hkeeps : Keeps s ls
        (appendNew { s with world := world } (Crypto.hash plaintext) a.cls position { a with writer := writer } reference)
        (ls.set a.index ⟨a.cls, writer, blocks ++ [reference]⟩) := .of_grown hgrown (fun id hid => hid) rfl rfl
    refine ⟨_, ⟨hlaid, fun id c p hp => ?_⟩, hkeeps⟩
    by_cases heq : (id, c) = (Crypto.hash plaintext, a.cls)
    · obtain ⟨rfl, rfl⟩ := Prod.mk.inj heq
      rw [appendNew, AList.lookup_insert] at hp
      obtain rfl := Option.some.inj hp
      exact ⟨_, hnext, rfl, reference, List.mem_append_right _ (List.mem_singleton_self _), rfl, plaintext,
        hwrote.opens_new haead hz hsound hcompress, rfl⟩
    · rw [appendNew, AList.lookup_insert_ne heq] at hp
      exact hkeeps id c p (h.stands id c p hp)

theorem steps (haead : AeadLaw) (hz : ZstdLaw) {cs : List SegmentClass} (h : Stocked job before s ls classes)
    (hsteps : Steps job s cs t) : ∃ ls', Stocked job before t ls' (classes ++ cs) ∧ Keeps s ls t ls' := by
  induction hsteps with
  | refl =>
    rw [List.append_nil]
    exact ⟨ls, h, fun _ _ _ hp => hp⟩
  | tail _ hstep ih =>
    obtain ⟨_, h', hkeeps⟩ := ih
    rw [← List.append_assoc]
    obtain ⟨ls'', h'', hkeeps'⟩ := h'.step haead hz hstep
    exact ⟨ls'', h'', hkeeps.trans hkeeps'⟩

end Stocked

end

end Hakutaku
