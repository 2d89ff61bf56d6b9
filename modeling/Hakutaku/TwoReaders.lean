import Hakutaku.ReaderSystem

/-!
# Two readers of one signed snapshot

Two packages opened from different storages under the same signed message. What they read from pages
and segments is checked against digests the message fixes, so wherever both succeed they have read the
same bytes.
-/

namespace Hakutaku
open Wire

/-- Two computations that both succeed have the same value. -/
def Agree {ε α : Type} (x y : Outcome ε α) : Prop := ∀ a b, x = .ok a → y = .ok b → a = b

namespace Agree
variable {ε α β : Type} {x y : Outcome ε α} {f g : α → Outcome ε β}

theorem refl (x : Outcome ε α) : Agree x x := fun _ _ ha hb => Except.ok.inj (ha.symm.trans hb)

theorem bind (h : Agree x y) (hfg : ∀ a, x = .ok a → y = .ok a → Agree (f a) (g a)) : Agree (x >>= f) (y >>= g) := by
  intro b b' hb hb'
  obtain ⟨a, hx, hf⟩ := bind_eq_ok.1 hb
  obtain ⟨a', hy, hg⟩ := bind_eq_ok.1 hb'
  obtain rfl := h a a' hx hy
  exact hfg a hx hy b b' hf hg

theorem ite {c : Prop} [Decidable c] {x' y' : Outcome ε α} (h : c → Agree x y) (h' : ¬ c → Agree x' y') :
    Agree (if c then x else x') (if c then y else y') := by
  split
  · exact h ‹_›
  · exact h' ‹_›

/-- `if c { return Err(e) }` on both sides. -/
theorem failIf {c : Prop} [Decidable c] {e : ε} {k k' : PUnit → Outcome ε α} (h : ¬ c → Agree x y) :
    Agree (if c then (fail e : Outcome ε PUnit) >>= k else x) (if c then (fail e : Outcome ε PUnit) >>= k' else y) :=
  ite (fun _ _ _ h => absurd h fail_ne_ok) h

end Agree

section
variable [Target]

/-! ### Block lookup -/

namespace FileRecord
variable {f : FileRecord} {blockRef blockRef' : Nat → Result BlockRef}

omit [Target] in
theorem searchBlock_agree (h : ∀ g, Agree (blockRef g) (blockRef' g)) (offset left low high : Nat) :
    Agree (f.searchBlock blockRef offset left low high) (f.searchBlock blockRef' offset left low high) := by
  induction left generalizing low high with
  | zero => exact .refl _
  | succ left ih =>
    refine .ite (fun _ => ?_) fun _ => .refl _
    refine .bind (.refl (plainSub high low)) fun span _ _ => ?_
    refine .bind (.refl (plainAdd u32Size low (span / 2))) fun mid _ _ => ?_
    refine .bind (.refl (okOr (checkedAdd u32Size f.firstBlock.toNat mid) Error.invalidRange)) fun g _ _ => ?_
    refine .bind (h g) fun r _ _ => .ite (fun _ => ?_) fun _ => ih _ _
    exact .bind (.refl (plainAdd u32Size mid 1)) fun next _ _ => ih _ _

omit [Target] in
theorem localIndex_agree (h : ∀ g, Agree (blockRef g) (blockRef' g)) (offset : Nat) :
    Agree (f.localIndex blockRef offset) (f.localIndex blockRef' offset) := by
  unfold localIndex
  cases f.layout with
  | fixed => exact .refl _
  | contentDefined => exact .bind (searchBlock_agree h _ _ _ _) fun _ _ _ => .refl _

omit [Target] in
theorem referenceForOffset_agree (h : ∀ g, Agree (blockRef g) (blockRef' g)) (offset : Nat) :
    Agree (f.referenceForOffset blockRef offset) (f.referenceForOffset blockRef' offset) := by
  refine .failIf fun _ => .bind (localIndex_agree h offset) fun i _ _ => .failIf fun _ => ?_
  refine .bind (.refl (okOr (checkedAdd u32Size f.firstBlock.toNat i) Error.invalidRange)) fun g _ _ => ?_
  exact .bind (h g) fun r _ _ => .refl _

end FileRecord

variable [Crypto] {P P' : PackageInner}

/-- The packages were opened under the same signed message and keys. -/
structure PackageInner.SameSigned (P P' : PackageInner) : Prop where
  header : { P'.header with signature := P.header.signature } = P.header
  catalog : P'.catalog = P.catalog
  keys : P'.keys = P.keys
  snapshotKey : P'.snapshotKey = P.snapshotKey
  pathKey : P'.pathKey = P.pathKey

/-- The stored form of a page of the package. -/
def PackageInner.PageBytes (P : PackageInner) (bytes : Bytes) : Prop :=
  ∃ i page, P.catalog.page i = .ok page ∧
    bytes = slice P.snapshot (P.header.pageRegionOffset.toNat + page.relativeOffset.toNat) page.storedLen.toNat

/-- The stored form of a block of the package. -/
def PackageInner.BlockBytes (P : PackageInner) (bytes : Bytes) : Prop :=
  ∃ g r segment file, P.idealRef g = .ok r ∧ P.catalog.segment r.segmentOrdinal.toNat = .ok segment ∧
    P.source segment.id = some file ∧ bytes = slice file r.physicalOffset.toNat r.storedLen.toNat

/-- The hash separates the pages of the two packages, and its first 16 bytes their blocks. -/
structure PackageInner.CollisionFree (P P' : PackageInner) : Prop where
  pages : ∀ c c', P.PageBytes c → P'.PageBytes c' → Crypto.hash c = Crypto.hash c' → c = c'
  blocks : ∀ c c', P.BlockBytes c → P'.BlockBytes c' →
    (Crypto.hash c).prefixOf 16 (by decide) = (Crypto.hash c').prefixOf 16 (by decide) → c = c'

namespace PackageInner

omit [Target] in
theorem decodePage_eq_ok {page : PageRecord} {ciphertext out : Bytes} (h : P.decodePage page ciphertext = .ok out) :
    Crypto.hash ciphertext = page.digest := by
  unfold decodePage validateDigest at h
  obtain ⟨_, hdigest, -⟩ := bind_eq_ok.1 h
  exact (ite_else_fail_eq_ok.1 hdigest).1

omit [Target] in
theorem SameSigned.decodePage (h : P.SameSigned P') (page : PageRecord) (ciphertext : Bytes) :
    P'.decodePage page ciphertext = P.decodePage page ciphertext := by
  unfold PackageInner.decodePage
  rw [← h.header, h.snapshotKey]

theorem idealPage_eq_ok {i : Nat} {k : PageKind} {out : Bytes} (h : P.idealPage i k = .ok out) :
    ∃ page bytes, P.catalog.page i = .ok page ∧ P.PageBytes bytes ∧ P.decodePage page bytes = .ok out := by
  unfold idealPage fetchPage Catalog.pageOfKind checkedOffset at h
  simp only [Catalog.liftM_result, fail_bind, bind_eq_ok, ite_fail_eq_ok, pure_eq_ok, Except.ok.injEq, okOr_eq_ok,
    checkedAdd_eq_some] at h
  obtain ⟨page, ⟨page', hpage, -, rfl⟩, offset, ⟨-, rfl⟩, bytes, hread, hdecode⟩ := h
  obtain ⟨-, rfl⟩ := readExact_eq_ok.1 hread
  exact ⟨page', _, hpage, ⟨i, page', hpage, rfl⟩, hdecode⟩

theorem idealPage_agree (h : P.SameSigned P') (hc : P.CollisionFree P') (i : Nat) (k : PageKind) :
    Agree (P.idealPage i k) (P'.idealPage i k) := by
  intro out out' hout hout'
  obtain ⟨page, bytes, hpage, hbytes, hdecode⟩ := idealPage_eq_ok hout
  obtain ⟨page', bytes', hpage', hbytes', hdecode'⟩ := idealPage_eq_ok hout'
  rw [h.catalog] at hpage'
  obtain rfl : page = page' := Except.ok.inj (hpage.symm.trans hpage')
  have hdigest := (decodePage_eq_ok hdecode).trans (decodePage_eq_ok hdecode').symm
  obtain rfl := hc.pages bytes bytes' hbytes hbytes' hdigest
  rw [h.decodePage] at hdecode'
  exact Except.ok.inj (hdecode.symm.trans hdecode')

theorem idealRef_agree (h : P.SameSigned P') (hc : P.CollisionFree P') (g : Nat) :
    Agree (P.idealRef g) (P'.idealRef g) := by
  unfold idealRef Catalog.blockRef
  rw [h.catalog]
  refine .bind (.refl (validateGlobalBlockIndex g P.catalog.totalBlocks.toNat P.catalog.mapPageCount.toNat)) fun i _ _ => ?_
  refine .bind (.refl (plainMul u32Size i blocksPerMapPage)) fun first _ _ => ?_
  exact .bind (idealPage_agree h hc i .blockMap) fun bytes _ _ => .refl _

/-- The key of a segment is fixed by its record. -/
def segmentKeyOf (P : PackageInner) (record : SegmentRecord) : ByteArr 32 :=
  P.keys.derive (ascii "segment".toList) [record.uid.toList, record.salt.toList]

theorem fetchSegment_eq_ok {record : SegmentRecord} {handle : SegmentHandle} (h : P.fetchSegment ideal record = .ok handle) :
    P.source record.id = some handle.file ∧ handle.key = P.segmentKeyOf record := by
  unfold fetchSegment at h
  simp only [Catalog.liftM_result, fail_bind, bind_eq_ok, ite_fail_eq_ok, pure_eq_ok, Except.ok.injEq] at h
  obtain ⟨file, hopen, _, -, -, _, -, header, -, hmatch, rfl⟩ := h
  refine ⟨okOr_eq_ok.1 hopen, ?_⟩
  simp only [segmentHeaderMatches, Bool.not_eq_true', Bool.not_eq_false, Bool.and_eq_true, decide_eq_true_eq] at hmatch
  simp only [ProjectKeys.segmentKey, segmentKeyOf, hmatch]

omit [Crypto] in
theorem locateBlock_eq_ok {r : BlockRef} {segment : SegmentRecord} (h : P.locateBlock r = .ok segment) :
    P.catalog.segment r.segmentOrdinal.toNat = .ok segment := by
  unfold locateBlock at h
  simp only [fail_bind, bind_eq_ok, ite_fail_eq_ok, pure_eq_ok, Except.ok.injEq] at h
  obtain ⟨segment', hsegment, -, _, -, -, rfl⟩ := h
  exact hsegment

theorem idealBlock_eq_ok {g : Nat} {r : BlockRef} {out : Bytes} (hr : P.idealRef g = .ok r) (h : P.idealBlock r = .ok out) :
    ∃ segment bytes, P.catalog.segment r.segmentOrdinal.toNat = .ok segment ∧ P.BlockBytes bytes ∧
      (P.openBlock segment (P.segmentKeyOf segment) r bytes >>= fun stored =>
        decodeOwned r.codec stored r.plainLen.toNat) = .ok out := by
  unfold idealBlock fetchBlock at h
  obtain ⟨segment, hlocate, h⟩ := bind_eq_ok.1 h
  obtain ⟨handle, hfetch, h⟩ := bind_eq_ok.1 h
  obtain ⟨bytes, hread, h⟩ := bind_eq_ok.1 h
  have hsegment := locateBlock_eq_ok hlocate
  obtain ⟨hfile, hkey⟩ := fetchSegment_eq_ok hfetch
  obtain ⟨-, rfl⟩ := readExact_eq_ok.1 hread
  rw [hkey] at h
  exact ⟨segment, _, hsegment, ⟨g, r, segment, handle.file, hr, hsegment, hfile, rfl⟩, h⟩

omit [Target] in
theorem openBlock_eq_ok {segment : SegmentRecord} {key : ByteArr 32} {r : BlockRef} {bytes out : Bytes}
    (h : P.openBlock segment key r bytes = .ok out) :
    (Crypto.hash bytes).prefixOf 16 (by decide) = r.cipherDigest := by
  unfold openBlock at h
  simp only [fail_bind, ite_fail_eq_ok] at h
  exact not_not.1 h.1

omit [Target] in
theorem SameSigned.openBlock (h : P.SameSigned P') (segment : SegmentRecord) (key : ByteArr 32) (r : BlockRef)
    (bytes : Bytes) : P'.openBlock segment key r bytes = P.openBlock segment key r bytes := by
  unfold PackageInner.openBlock
  rw [← h.header]

theorem idealBlock_agree (h : P.SameSigned P') (hc : P.CollisionFree P') {g g' : Nat} {r : BlockRef}
    (hr : P.idealRef g = .ok r) (hr' : P'.idealRef g' = .ok r) : Agree (P.idealBlock r) (P'.idealBlock r) := by
  intro out out' hout hout'
  obtain ⟨segment, bytes, hsegment, hbytes, hdecode⟩ := idealBlock_eq_ok hr hout
  obtain ⟨segment', bytes', hsegment', hbytes', hdecode'⟩ := idealBlock_eq_ok hr' hout'
  rw [h.catalog] at hsegment'
  obtain rfl : segment = segment' := Except.ok.inj (hsegment.symm.trans hsegment')
  have hkey : P'.segmentKeyOf segment = P.segmentKeyOf segment := by rw [segmentKeyOf, segmentKeyOf, h.keys]
  obtain ⟨stored, hopen, -⟩ := bind_eq_ok.1 hdecode
  obtain ⟨stored', hopen', -⟩ := bind_eq_ok.1 hdecode'
  have hdigest := (openBlock_eq_ok hopen).trans (openBlock_eq_ok hopen').symm
  obtain rfl := hc.blocks bytes bytes' hbytes hbytes' hdigest
  rw [hkey, h.openBlock] at hdecode'
  exact Except.ok.inj (hdecode.symm.trans hdecode')

end PackageInner

/-! ### Reads -/

/-- Two calls on windows that both succeed on the same window do the same. -/
def SpecAgree {α : Type} (q q' : SpecM α) : Prop :=
  ∀ w a v a' v', Runs q w a v → Runs q' w a' v' → a = a' ∧ v = v'

namespace SpecAgree
variable {α β : Type} {q q' : SpecM α} {k k' : α → SpecM β}

omit [Crypto] [Target] in
theorem refl (q : SpecM α) : SpecAgree q q := by
  intro w a v a' v' h h'
  have heq : ((.ok a, v) : Except (Stop Error) α × Window) = (.ok a', v') := h.symm.trans h'
  cases heq
  exact ⟨rfl, rfl⟩

omit [Crypto] [Target] in
theorem bind (h : SpecAgree q q') (hk : ∀ a, SpecAgree (k a) (k' a)) : SpecAgree (q >>= k) (q' >>= k') := by
  intro w b v b' v' hb hb'
  obtain ⟨a, u, hq, hk₁⟩ := runs_bind.1 hb
  obtain ⟨a', u', hq', hk₂⟩ := runs_bind.1 hb'
  obtain ⟨rfl, rfl⟩ := h w a u a' u' hq hq'
  exact hk a u b v b' v' hk₁ hk₂

omit [Crypto] [Target] in
theorem lift_bind {x x' : Result α} (h : Agree x x') (hk : ∀ a, x = .ok a → x' = .ok a → SpecAgree (k a) (k' a)) :
    SpecAgree (liftM x >>= k) (liftM x' >>= k') := by
  intro w b v b' v' hb hb'
  obtain ⟨a, u, hq, hk₁⟩ := runs_bind.1 hb
  obtain ⟨a', u', hq', hk₂⟩ := runs_bind.1 hb'
  obtain ⟨hx, rfl⟩ := runs_lift.1 hq
  obtain ⟨hx', rfl⟩ := runs_lift.1 hq'
  obtain rfl := h a a' hx hx'
  exact hk a hx hx' _ b v b' v' hk₁ hk₂

omit [Crypto] [Target] in
theorem get_bind {k k' : Window → SpecM β} (hk : ∀ w, SpecAgree (k w) (k' w)) : SpecAgree (get >>= k) (get >>= k') :=
  fun w b v b' v' hb hb' => hk w w b v b' v' hb hb'

omit [Crypto] [Target] in
theorem ite {c : Prop} [Decidable c] {p p' : SpecM α} (h : c → SpecAgree q q') (h' : ¬ c → SpecAgree p p') :
    SpecAgree (if c then q else p) (if c then q' else p') := by
  split
  · exact h ‹_›
  · exact h' ‹_›

omit [Crypto] [Target] in
theorem failIf {c : Prop} [Decidable c] {e : Error} {k k' : PUnit → SpecM α} (h : ¬ c → SpecAgree q q') :
    SpecAgree (if c then (liftM (fail e : Result PUnit) : SpecM PUnit) >>= k else q)
      (if c then (liftM (fail e : Result PUnit) : SpecM PUnit) >>= k' else q') := by
  refine .ite (fun _ => ?_) h
  exact .lift_bind (x := fail e) (.refl _) fun _ hx => absurd hx fail_ne_ok

end SpecAgree

section
variable {asset : Asset P} {asset' : Asset P'} (h : P.SameSigned P') (hc : P.CollisionFree P')
  (hrecord : asset'.record = asset.record)
include h hc hrecord

theorem idealFill_agree (logical : Nat) : SpecAgree (asset.idealFill logical) (asset'.idealFill logical) := by
  unfold Asset.idealFill
  rw [hrecord]
  refine .get_bind fun w => .ite (fun _ => .refl _) fun _ => .ite (fun _ => .refl _) fun _ => ?_
  refine .lift_bind (FileRecord.referenceForOffset_agree (PackageInner.idealRef_agree h hc) logical) fun r hr hr' => ?_
  obtain ⟨⟨i, -, -, hi⟩, -⟩ := FileRecord.referenceForOffset_eq_ok hr
  obtain ⟨⟨i', -, -, hi'⟩, -⟩ := FileRecord.referenceForOffset_eq_ok hr'
  refine .bind (.refl _) fun _ => ?_
  exact .lift_bind (PackageInner.idealBlock_agree h hc hi hi') fun data _ _ => .refl _

theorem idealReadLoop_agree (requested left written logical : Nat) :
    SpecAgree (asset.idealReadLoop requested left written logical)
      (asset'.idealReadLoop requested left written logical) := by
  induction left generalizing written logical with
  | zero => exact .refl _
  | succ left ih =>
    refine .ite (fun _ => ?_) fun _ => .refl _
    refine .bind ?_ fun amount => ih _ _
    exact .bind (idealFill_agree h hc hrecord logical) fun _ => .refl _

/-- A read that succeeds in both packages from the same window returns the same in both. -/
theorem idealReadAt_agree (offset : UInt64) : SpecAgree (asset.idealReadAt offset) (asset'.idealReadAt offset) := by
  have hlen : asset'.len = asset.len := by rw [Asset.len, Asset.len, hrecord]
  unfold Asset.idealReadAt
  rw [hlen]
  refine .failIf fun _ => .get_bind fun w => .failIf fun _ => .ite (fun _ => .refl _) fun _ => ?_
  exact idealReadLoop_agree h hc hrecord _ _ _ _

end

end
end Hakutaku
