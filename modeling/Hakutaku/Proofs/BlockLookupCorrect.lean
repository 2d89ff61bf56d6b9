import Hakutaku.Reader
import Hakutaku.BlockLookup

/-!
# Block lookup is correct and total

On a tiling the lookup returns the block that contains the offset, in both layouts. On any map it
ends, asks only for the file's own blocks, does not overflow, and returns only a block that covers the
offset, so the loops built on it end as well.
-/

namespace Hakutaku
open Wire

section
variable [Crypto] [Target] {P : PackageInner}

/-- A pass of the loop of `read_at_buffered` copies at least one byte, and not more than is wanted. -/
theorem copyPass_yields (asset : Asset P) {requested written logical : Nat} (hlt : written < requested) :
    Yields (asset.copyPass requested written logical) fun amount => 0 < amount ∧ amount ≤ requested - written := by
  refine .bind (.trivial _) fun _ _ => .bind (.trivial _) fun st _ => ?_
  rcases st.current with _ | block
  · exact .lift fun _ h => absurd h panicked_ne_ok
  · refine .bind (.trivial _) fun within _ => .ite (fun _ => ?_) fun _ => ?_
    · exact .bind (.lift fun _ h => absurd h fail_ne_ok) fun _ (h : False) => h.elim
    refine .bind (Q := fun _ => within < block.data.bytes.length) (.lift fun _ h => ?_) fun _ hwithin => ?_
    · unfold validateBlockCoverage at h
      exact (ite_else_fail_eq_ok.1 h).1
    · exact .bind (.trivial _) fun _ _ => .pure ⟨by omega, min_le_right _ _⟩

/-- The loop of `read_at_buffered` ends within `requested - written` passes. -/
theorem readLoop_passes (asset : Asset P) {requested left left' written logical : Nat}
    (hleft : requested - written ≤ left) (hleft' : requested - written ≤ left') :
    asset.readLoop requested left written logical = asset.readLoop requested left' written logical := by
  induction left generalizing left' written logical with
  | zero =>
    cases left' with
    | zero => rfl
    | succ left' => rw [Asset.readLoop, Asset.readLoop, if_neg (by omega)]
  | succ left ih =>
    cases left' with
    | zero => rw [Asset.readLoop, Asset.readLoop, if_neg (by omega)]
    | succ left' =>
      unfold Asset.readLoop
      split
      · exact (copyPass_yields asset ‹_›).bind_congr fun amount hpos => ih (by omega) (by omega)
      · rfl

end

/-- One block of ten bytes, under a block length of four. -/
def oversizedFile : FileRecord := ⟨0, 1, .fixed, .normal, 10, 0, 1, 4⟩

def oversizedBlock (_ : Nat) : Result BlockRef := .ok ⟨0, 0, 0, 128, 26, 10, .raw, .replicate 16 0⟩

/-- A last block longer than the block length is not found at its end. -/
theorem oversized_tail : oversizedFile.Positive oversizedBlock ∧ (∃ start, oversizedFile.Tiled oversizedBlock start ∧
      ∀ i, i + 1 < oversizedFile.blockCount.toNat → start (i + 1) = start i + oversizedFile.fixedBlockLen.toNat) ∧
    5 < oversizedFile.logicalLen.toNat ∧
    oversizedFile.referenceForOffset oversizedBlock 5 = fail (.invalidFormat "file block index") := by
  refine ⟨?_, ⟨fun i => i * 10, ⟨by decide, rfl, rfl, fun i hi => ?_⟩, fun i hi => ?_⟩, by decide, by decide⟩
  · rintro g r - ⟨⟩
    decide
  · match i with
    | 0 => exact ⟨_, rfl, rfl, rfl⟩
  · change i + 1 < 1 at hi
    omega

theorem blockLookup_correct [Crypto] [Target] :
    (∀ (f : FileRecord) (blockRef : Nat → Result BlockRef) (start : Nat → Nat), f.Tiled blockRef start →
      f.Positive blockRef → (f.layout = .fixed → f.FixedTiles start) → ∀ offset < f.logicalLen.toNat,
        ∃ i r, (i < f.blockCount.toNat ∧ start i ≤ offset ∧ offset < start (i + 1)) ∧
          (∀ j, j < f.blockCount.toNat → start j ≤ offset → offset < start (j + 1) → j = i) ∧
          blockRef (f.firstBlock.toNat + i) = .ok r ∧ f.referenceForOffset blockRef offset = .ok r) ∧
    (∀ (f : FileRecord) (blockRef : Nat → Result BlockRef) (start : Nat → Nat), f.Tiled blockRef start →
      f.Positive blockRef → f.FixedTiles start → ∀ offset < f.logicalLen.toNat,
        { f with layout := .fixed }.referenceForOffset blockRef offset =
          { f with layout := .contentDefined }.referenceForOffset blockRef offset) ∧
    (∀ (f : FileRecord) (blockRef : Nat → Result BlockRef) (offset : Nat),
      (∀ left low high, high < u32Size → high - low ≤ left →
        f.searchBlock blockRef offset left low high = f.searchBlock blockRef offset (high - low) low high) ∧
      ((∀ g, f.Owns g → NoPanic (blockRef g)) → NoPanic (f.referenceForOffset blockRef offset)) ∧
      (∀ blockRef' : Nat → Result BlockRef, (∀ g, f.Owns g → blockRef g = blockRef' g) →
        f.referenceForOffset blockRef offset = f.referenceForOffset blockRef' offset) ∧
      ∀ r, f.referenceForOffset blockRef offset = .ok r →
        r.logicalOffset.toNat ≤ offset ∧ offset < r.logicalOffset.toNat + r.plainLen.toNat) ∧
    (∀ (P : PackageInner) (asset : Asset P),
      (∀ offset left low high, high < u32Size → high - low ≤ left →
        asset.record.searchBlock P.blockRef offset left low high =
          asset.record.searchBlock P.blockRef offset (high - low) low high) ∧
      (∀ requested written logical, written < requested →
        Yields (asset.copyPass requested written logical) fun amount => 0 < amount ∧ amount ≤ requested - written) ∧
      (∀ requested left written logical, requested - written ≤ left →
        asset.readLoop requested left written logical =
          asset.readLoop requested (requested - written) written logical) ∧
      (∀ logical, Yields (asset.referenceForOffset logical) fun r =>
        logical < r.logicalOffset.toNat + r.plainLen.toNat) ∧
      ∀ (prefetch : BlockRef → ReadM Unit) (stop left logical : Nat), stop - logical ≤ left →
        FileRecord.prefetchLoop asset.referenceForOffset prefetch stop left logical =
          FileRecord.prefetchLoop asset.referenceForOffset prefetch stop (stop - logical) logical) := by
  refine ⟨fun f blockRef start htiled hpos hfixed offset hoffset => ?_, fun f blockRef start htiled hpos hfixed offset hoffset => ?_,
    fun f blockRef offset => ⟨fun left low high hhigh hleft => ?_, ?_, fun blockRef' hmap => ?_, fun r hr => ?_⟩,
    fun P asset => ⟨fun offset left low high hhigh hleft => ?_, ?_, ?_, fun logical => ?_, ?_⟩⟩
  · obtain ⟨i, hi, hio, hoi, r, hr, hfound⟩ := htiled.referenceForOffset_eq hpos hfixed hoffset
    exact ⟨i, r, ⟨hi, hio, hoi⟩, fun j hj hjo hoj => htiled.unique hj hi hjo hoj hio hoi, hr, hfound⟩
  · have hone : ∀ layout, FileRecord.Tiled { f with layout := layout } blockRef start :=
      fun layout => ⟨htiled.range, htiled.zero, htiled.last, htiled.block⟩
    obtain ⟨i, hi, hio, hoi, r, hr, hfound⟩ :=
      (hone .fixed).referenceForOffset_eq hpos (fun _ => ⟨hfixed.full, hfixed.tail⟩) hoffset
    obtain ⟨j, hj, hjo, hoj, r', hr', hfound'⟩ :=
      (hone .contentDefined).referenceForOffset_eq hpos (fun h => by cases h) hoffset
    obtain rfl : i = j := htiled.unique hi hj hio hoi hjo hoj
    obtain rfl : r = r' := Except.ok.inj (hr.symm.trans hr')
    rw [hfound, hfound']
  · exact FileRecord.searchBlock_rounds (fun _ _ => rfl) blockRef hhigh hleft le_rfl
  · exact FileRecord.referenceForOffset_noPanic
  · exact FileRecord.referenceForOffset_congr hmap
  · obtain ⟨-, hlo, hhi, -⟩ := FileRecord.referenceForOffset_eq_ok hr
    exact ⟨hlo, hhi⟩
  · exact FileRecord.searchBlock_rounds (fun _ _ => rfl) P.blockRef hhigh hleft le_rfl
  · exact fun requested written logical hlt => copyPass_yields asset hlt
  · exact fun requested left written logical hleft => readLoop_passes asset hleft le_rfl
  · exact fun s => (FileRecord.referenceForOffset_yields _ _ _ s).mono fun _ h a ha => (h a ha).2
  · exact fun prefetch stop left logical hleft => FileRecord.prefetchLoop_passes _ prefetch hleft le_rfl

/-- Seven bytes in blocks of four and three. -/
def twoBlockFile : FileRecord := ⟨0, 1, .fixed, .normal, 7, 0, 2, 4⟩

def twoBlocks (g : Nat) : Result BlockRef :=
  if g = 0 then .ok ⟨0, 0, 0, 128, 20, 4, .raw, .replicate 16 0⟩
  else .ok ⟨4, 0, 1, 148, 19, 3, .raw, .replicate 16 0⟩

theorem blockLookup_correct_sample :
    twoBlockFile.referenceForOffset twoBlocks 5 = twoBlocks 1 ∧
      { twoBlockFile with layout := .contentDefined }.referenceForOffset twoBlocks 5 = twoBlocks 1 := by
  let _ := target64; let _ := exampleCrypto
  have htiled : twoBlockFile.Tiled twoBlocks fun i => if i = 0 then 0 else if i = 1 then 4 else 7 := by
    refine ⟨by decide, rfl, rfl, fun i hi => ?_⟩
    match i with
    | 0 => exact ⟨_, rfl, rfl, rfl⟩
    | 1 => exact ⟨_, rfl, rfl, rfl⟩
  have hpos : twoBlockFile.Positive twoBlocks := by
    rintro g r - hr
    unfold twoBlocks at hr
    split at hr <;> cases hr <;> decide
  have hfixed : twoBlockFile.FixedTiles fun i => if i = 0 then 0 else if i = 1 then 4 else 7 := by
    refine ⟨fun i hi => ?_, .inr fun i hi => ?_⟩
    · match i with
      | 0 => rfl
    · match i with
      | 1 => decide
  obtain ⟨i, r, ⟨hi, hio, hoi⟩, hunique, hr, hfound⟩ :=
    blockLookup_correct.1 twoBlockFile twoBlocks _ htiled hpos (fun _ => hfixed) 5 (by decide)
  have hsame := blockLookup_correct.2.1 twoBlockFile twoBlocks _ htiled hpos hfixed 5 (by decide)
  obtain rfl : 1 = i := hunique 1 (by decide) (by decide) (by decide)
  exact ⟨hfound.trans hr.symm, hsame.symm.trans (hfound.trans hr.symm)⟩

end Hakutaku
