import Hakutaku.Package
import Hakutaku.Lib.Prog

/-!
# Block lookup by offset

`reference_for_offset` over an arbitrary map from global indices to references: what it returns on
any map, and that on a map whose blocks tile the file it finds the block that contains the offset,
with the division of the fixed layout as with the binary search of the content-defined one.
-/

namespace Hakutaku
namespace FileRecord
variable {f : FileRecord} {blockRef blockRef' : Nat → Result BlockRef} {start : Nat → Nat} {offset : Nat}

/-- The blocks of the file lie one behind the other from 0 to its length: block `i` is the range from
`start i` to `start (i + 1)`. -/
structure Tiled (f : FileRecord) (blockRef : Nat → Result BlockRef) (start : Nat → Nat) : Prop where
  range : f.firstBlock.toNat + f.blockCount.toNat ≤ u32Size
  zero : start 0 = 0
  last : start f.blockCount.toNat = f.logicalLen.toNat
  block : ∀ i < f.blockCount.toNat, ∃ r, blockRef (f.firstBlock.toNat + i) = .ok r ∧
    r.logicalOffset.toNat = start i ∧ start i + r.plainLen.toNat = start (i + 1)

/-- The global indices of the file's blocks. -/
def Owns (f : FileRecord) (g : Nat) : Prop :=
  f.firstBlock.toNat ≤ g ∧ g < f.firstBlock.toNat + f.blockCount.toNat ∧ g < u32Size

/-- No block of the file is empty. -/
def Positive (f : FileRecord) (blockRef : Nat → Result BlockRef) : Prop :=
  ∀ g r, f.Owns g → blockRef g = .ok r → 0 < r.plainLen.toNat

/-- The rule of the fixed layout: all blocks but the last have the length of the record, and the last
one is not longer. -/
structure FixedTiles (f : FileRecord) (start : Nat → Nat) : Prop where
  full : ∀ i, i + 1 < f.blockCount.toNat → start (i + 1) = start i + f.fixedBlockLen.toNat
  tail : f.fixedBlockLen.toNat = 0 ∨
    ∀ i, i + 1 = f.blockCount.toNat → start (i + 1) ≤ start i + f.fixedBlockLen.toNat

/-! ### Tilings -/

section Tiled

theorem Tiled.mono (h : f.Tiled blockRef start) {i j : Nat} (hij : i ≤ j) (hj : j ≤ f.blockCount.toNat) :
    start i ≤ start j := by
  induction j with
  | zero => rw [Nat.le_zero.1 hij]
  | succ j ih =>
    rcases Nat.lt_or_eq_of_le hij with hlt | rfl
    · obtain ⟨r, -, -, hnext⟩ := h.block j hj
      exact (ih (Nat.le_of_lt_succ hlt) (by omega)).trans (hnext ▸ Nat.le_add_right _ _)
    · exact le_rfl

theorem Tiled.start_lt (h : f.Tiled blockRef start) (hpos : f.Positive blockRef) {i : Nat} (hi : i < f.blockCount.toNat) :
    start i < start (i + 1) := by
  obtain ⟨r, hr, -, hnext⟩ := h.block i hi
  have hrange := h.range
  have := hpos _ r ⟨Nat.le_add_right _ _, by omega, by omega⟩ hr
  omega

/-- Two blocks that contain the offset are the same. -/
theorem Tiled.unique (h : f.Tiled blockRef start) {i j : Nat} (hi : i < f.blockCount.toNat)
    (hj : j < f.blockCount.toNat) (hio : start i ≤ offset) (hoi : offset < start (i + 1)) (hjo : start j ≤ offset)
    (hoj : offset < start (j + 1)) : i = j := by
  rcases Nat.lt_trichotomy i j with hlt | heq | hgt
  · exact absurd (hoi.trans_le (h.mono (Nat.succ_le_of_lt hlt) hj.le)) (Nat.not_lt.2 hjo)
  · exact heq
  · exact absurd (hoj.trans_le (h.mono (Nat.succ_le_of_lt hgt) hi.le)) (Nat.not_lt.2 hio)

/-- What the lookup needs to know of the block it takes. -/
theorem Tiled.referenceForOffset_of_localIndex (h : f.Tiled blockRef start) {i : Nat} (hi : i < f.blockCount.toNat)
    (hio : start i ≤ offset) (hoi : offset < start (i + 1)) (hlocal : f.localIndex blockRef offset = .ok i) :
    ∃ r, blockRef (f.firstBlock.toNat + i) = .ok r ∧ f.referenceForOffset blockRef offset = .ok r := by
  obtain ⟨r, hr, hlo, hlen⟩ := h.block i hi
  have hstop : start (i + 1) < u64Size := by
    have hle := h.mono (Nat.succ_le_of_lt hi) le_rfl
    rw [h.last] at hle
    exact hle.trans_lt f.logicalLen.toNat_lt
  refine ⟨r, hr, ?_⟩
  unfold referenceForOffset
  simp only [Catalog.liftM_result, fail_bind, ite_fail_eq_ok, bind_eq_ok, okOr_eq_ok, checkedAdd_eq_some, pure_eq_ok,
    Except.ok.injEq]
  have hrange := h.range
  refine ⟨?_, i, hlocal, Nat.not_le.2 hi, _, ⟨by omega, rfl⟩, r, hr, _, ⟨by omega, rfl⟩, by omega, rfl⟩
  intro hzero
  rw [hzero] at hi
  cases hi

/-! ### The binary search -/

/-- One round of the search, when the map answers. -/
theorem searchBlock_succ {left low high : Nat} (hlt : low < high) (hhigh : high < u32Size)
    (hrange : f.firstBlock.toNat + high ≤ u32Size)
    {r : BlockRef} (hr : blockRef (f.firstBlock.toNat + (low + (high - low) / 2)) = .ok r) :
    f.searchBlock blockRef offset (left + 1) low high =
      if r.logicalOffset.toNat ≤ offset then f.searchBlock blockRef offset left (low + (high - low) / 2 + 1) high
      else f.searchBlock blockRef offset left low (low + (high - low) / 2) := by
  have hmid : low + (high - low) / 2 < high := by omega
  have hadd : checkedAdd u32Size f.firstBlock.toNat (low + (high - low) / 2) =
      some (f.firstBlock.toNat + (low + (high - low) / 2)) := checkedAdd_eq_some.2 ⟨by omega, rfl⟩
  have hnext : (plainAdd u32Size (low + (high - low) / 2) 1 : Result Nat) = .ok (low + (high - low) / 2 + 1) :=
    plainAdd_of_lt ((Nat.succ_le_of_lt hmid).trans_lt hhigh)
  rw [searchBlock, if_pos hlt]
  simp only [Catalog.liftM_result, plainSub_of_le hlt.le, ok_bind, plainAdd_of_lt (hmid.trans hhigh), hadd, okOr, hr,
    hnext]

/-- Blocks before `low` start at or before the offset, blocks from `high` on start behind it; the
search keeps that and closes the gap. -/
theorem Tiled.searchBlock_eq (h : f.Tiled blockRef start) (offset : Nat) {left low high : Nat} (hle : low ≤ high)
    (hhigh : high ≤ f.blockCount.toNat) (hleft : high - low ≤ left) (hbelow : ∀ j < low, start j ≤ offset)
    (habove : ∀ j, high ≤ j → j < f.blockCount.toNat → offset < start j) :
    ∃ k ≤ f.blockCount.toNat, f.searchBlock blockRef offset left low high = .ok k ∧ (∀ j < k, start j ≤ offset) ∧
      ∀ j, k ≤ j → j < f.blockCount.toNat → offset < start j := by
  induction left generalizing low high with
  | zero =>
    obtain rfl : low = high := by omega
    exact ⟨low, hhigh, rfl, hbelow, habove⟩
  | succ left ih =>
    rcases Nat.lt_or_ge low high with hlt | hge
    · have hmid : low + (high - low) / 2 < high := by omega
      obtain ⟨r, hr, hlo, -⟩ := h.block _ (hmid.trans_le hhigh)
      have hrange := h.range
      rw [searchBlock_succ hlt (hhigh.trans_lt f.blockCount.toNat_lt) (by omega) hr, hlo]
      split
      · rename_i hstart
        refine ih hmid hhigh (by omega) (fun j hj => ?_) habove
        exact (h.mono (Nat.le_of_lt_succ hj) (by omega)).trans hstart
      · rename_i hstart
        refine ih (by omega) (by omega) (by omega) hbelow fun j hj hcount => ?_
        exact (Nat.lt_of_not_le hstart).trans_le (h.mono hj hcount.le)
    · obtain rfl : low = high := by omega
      refine ⟨low, hhigh, ?_, hbelow, habove⟩
      rw [searchBlock, if_neg (lt_irrefl _)]
      rfl

/-- Both layouts find a block that contains the offset. -/
theorem Tiled.localIndex_eq (h : f.Tiled blockRef start) (hpos : f.Positive blockRef) (hfixed : f.layout = .fixed → f.FixedTiles start)
    (hoffset : offset < f.logicalLen.toNat) :
    ∃ i < f.blockCount.toNat, f.localIndex blockRef offset = .ok i ∧ start i ≤ offset ∧ offset < start (i + 1) := by
  have hzero := h.zero
  have hlast := h.last
  unfold localIndex
  cases hlayout : f.layout with
  | contentDefined =>
    obtain ⟨k, hk, hsearch, hbelow, habove⟩ := h.searchBlock_eq offset (Nat.zero_le _) le_rfl (Nat.sub_le _ _)
      (fun j hj => by cases hj) fun j hj hlt => absurd hlt (Nat.not_lt.2 hj)
    have hpos : 0 < k := by
      by_contra hk0
      obtain rfl : k = 0 := by omega
      rcases Nat.eq_zero_or_pos f.blockCount.toNat with hcount | hcount
      · rw [hcount] at hlast; omega
      · have := habove 0 le_rfl hcount
        omega
    refine ⟨k - 1, by omega, ?_, hbelow _ (by omega), ?_⟩
    · dsimp only
      rw [hsearch]
      rfl
    · rw [Nat.sub_add_cancel hpos]
      rcases Nat.lt_or_eq_of_le hk with hlt | rfl
      · exact habove k le_rfl hlt
      · omega
  | fixed =>
    obtain ⟨hfull, htail⟩ := hfixed hlayout
    have hstart : ∀ i, i < f.blockCount.toNat → start i = i * f.fixedBlockLen.toNat := by
      intro i
      induction i with
      | zero => intro _; omega
      | succ i ih =>
        intro hi
        rw [hfull i hi, ih (by omega), Nat.succ_mul]
    obtain ⟨last, hcount⟩ : ∃ last, last + 1 = f.blockCount.toNat := by
      refine ⟨f.blockCount.toNat - 1, Nat.sub_add_cancel (Nat.pos_of_ne_zero fun hcount => ?_)⟩
      rw [hcount] at hlast
      omega
    have hlt : offset < start (last + 1) := by rwa [hcount, hlast]
    obtain ⟨q, hq⟩ : ∃ q, q = offset / f.fixedBlockLen.toNat := ⟨_, rfl⟩
    have hindex : q ≤ last := by
      rcases htail with hzero | htail
      · rw [hq, hzero, Nat.div_zero]
        exact Nat.zero_le _
      · have hend := htail last hcount
        rw [hstart last (by omega), ← Nat.succ_mul, Nat.mul_comm] at hend
        rw [hq]
        exact Nat.le_of_lt_succ (Nat.div_lt_of_lt_mul (hlt.trans_le hend))
    have hquotient : ¬ u32Size ≤ q := Nat.not_le.2 ((show q < f.blockCount.toNat by omega).trans f.blockCount.toNat_lt)
    refine ⟨q, by omega, ?_, ?_, ?_⟩
    · dsimp only
      rw [← hq, if_neg hquotient]
      rfl
    · rw [hstart q (by omega), hq]
      exact Nat.div_mul_le_self _ _
    · rcases Nat.lt_or_eq_of_le hindex with hlt' | heq
      · rw [hfull q (by omega), hstart q (by omega), ← Nat.succ_mul]
        refine Nat.lt_mul_of_div_lt (hq ▸ Nat.lt_succ_self _) (Nat.pos_of_ne_zero fun hz => ?_)
        have hlt := h.start_lt hpos (i := 0) (by omega)
        rw [hfull 0 (by omega), hz] at hlt
        exact lt_irrefl _ hlt
      · rwa [heq]

/-- On a tiling the lookup finds the block that contains the offset. -/
theorem Tiled.referenceForOffset_eq (h : f.Tiled blockRef start) (hpos : f.Positive blockRef)
    (hfixed : f.layout = .fixed → f.FixedTiles start) (hoffset : offset < f.logicalLen.toNat) :
    ∃ i < f.blockCount.toNat, start i ≤ offset ∧ offset < start (i + 1) ∧
      ∃ r, blockRef (f.firstBlock.toNat + i) = .ok r ∧ f.referenceForOffset blockRef offset = .ok r := by
  obtain ⟨i, hi, hlocal, hio, hoi⟩ := h.localIndex_eq hpos hfixed hoffset
  exact ⟨i, hi, hio, hoi, h.referenceForOffset_of_localIndex hi hio hoi hlocal⟩

end Tiled

/-! ### Any map -/

/-- A reference found for an offset is one of the file's, and covers the offset. -/
theorem referenceForOffset_eq_ok {r : BlockRef} (h : f.referenceForOffset blockRef offset = .ok r) :
    (∃ i < f.blockCount.toNat, f.firstBlock.toNat + i < u32Size ∧ blockRef (f.firstBlock.toNat + i) = .ok r) ∧
      r.logicalOffset.toNat ≤ offset ∧ offset < r.logicalOffset.toNat + r.plainLen.toNat ∧
      r.logicalOffset.toNat + r.plainLen.toNat < u64Size := by
  unfold referenceForOffset at h
  simp only [Catalog.liftM_result, fail_bind, ite_fail_eq_ok, bind_eq_ok, okOr_eq_ok, checkedAdd_eq_some, pure_eq_ok,
    Except.ok.injEq] at h
  obtain ⟨-, i, -, hi, g, ⟨hg, rfl⟩, r', hr, stop, ⟨hstop, rfl⟩, hcover, rfl⟩ := h
  rw [not_or, Nat.not_lt, Nat.not_le] at hcover
  exact ⟨⟨i, Nat.lt_of_not_le hi, hg, hr⟩, hcover.1, hcover.2, hstop⟩

theorem owns_of_checkedAdd {i g : Nat} (hi : i < f.blockCount.toNat)
    (hg : checkedAdd u32Size f.firstBlock.toNat i = some g) : f.Owns g := by
  obtain ⟨hlt, rfl⟩ := checkedAdd_eq_some.1 hg
  exact ⟨Nat.le_add_right _ _, Nat.add_lt_add_left hi _, hlt⟩

theorem searchBlock_noPanic (hmap : ∀ g, f.Owns g → NoPanic (blockRef g)) {left low high : Nat}
    (hhigh : high ≤ f.blockCount.toNat) : NoPanic (f.searchBlock blockRef offset left low high) := by
  have hcount := f.blockCount.toNat_lt
  induction left generalizing low high with
  | zero => exact .ok _
  | succ left ih =>
    refine .ite (fun hlt => ?_) fun _ => .ok _
    refine .bind (.plainSub hlt.le) fun span hspan => ?_
    obtain ⟨-, rfl⟩ := plainSub_eq_ok.1 hspan
    have hmid : low + (high - low) / 2 < high := by omega
    refine .bind (.plainAdd ((hmid.trans_le hhigh).trans hcount)) fun mid hadd => ?_
    obtain ⟨-, rfl⟩ := plainAdd_eq_ok.1 hadd
    refine .bind (.okOr _ _) fun g hg => ?_
    refine .bind (hmap g (owns_of_checkedAdd (hmid.trans_le hhigh) (okOr_eq_ok.1 hg))) fun r _ => ?_
    refine .ite (fun _ => ?_) fun _ => ih (hmid.le.trans hhigh)
    refine .bind (.plainAdd (((Nat.succ_le_of_lt hmid).trans hhigh).trans_lt hcount)) fun next hnext => ?_
    obtain ⟨-, rfl⟩ := plainAdd_eq_ok.1 hnext
    exact ih hhigh

/-- The lookup asks only for the file's own blocks, and none of its operators overflows. -/
theorem referenceForOffset_noPanic (hmap : ∀ g, f.Owns g → NoPanic (blockRef g)) :
    NoPanic (f.referenceForOffset blockRef offset) := by
  refine .failIf fun _ => ?_
  refine .bind ?_ fun i _ => ?_
  · unfold localIndex
    cases f.layout with
    | fixed => exact .failIf fun _ => .ok _
    | contentDefined => exact .bind (searchBlock_noPanic hmap le_rfl) fun _ _ => .ok _
  · refine .failIf fun hi => ?_
    refine .bind (.okOr _ _) fun g hg => ?_
    refine .bind (hmap g (owns_of_checkedAdd (Nat.lt_of_not_le hi) (okOr_eq_ok.1 hg))) fun r _ => ?_
    exact .bind (.okOr _ _) fun _ _ => .failIf fun _ => .ok _

theorem searchBlock_congr (hmap : ∀ g, f.Owns g → blockRef g = blockRef' g) {left low high : Nat}
    (hhigh : high ≤ f.blockCount.toNat) :
    f.searchBlock blockRef offset left low high = f.searchBlock blockRef' offset left low high := by
  induction left generalizing low high with
  | zero => rfl
  | succ left ih =>
    unfold searchBlock
    split
    · rename_i hlt
      refine bind_congr_ok fun span hspan => bind_congr_ok fun mid hadd => bind_congr_ok fun g hg => ?_
      obtain ⟨-, rfl⟩ := plainSub_eq_ok.1 hspan
      obtain ⟨-, rfl⟩ := plainAdd_eq_ok.1 hadd
      have hmid : low + (high - low) / 2 < high := by omega
      rw [← hmap g (owns_of_checkedAdd (hmid.trans_le hhigh) (okOr_eq_ok.1 hg))]
      refine bind_congr_ok fun r _ => if_congr Iff.rfl (bind_congr_ok fun next hnext => ?_) ?_
      · exact ih hhigh
      · exact ih (hmid.le.trans hhigh)
    · rfl

/-- The answer depends on the file's own blocks only. -/
theorem referenceForOffset_congr (hmap : ∀ g, f.Owns g → blockRef g = blockRef' g) :
    f.referenceForOffset blockRef offset = f.referenceForOffset blockRef' offset := by
  have hlocal : f.localIndex blockRef offset = f.localIndex blockRef' offset := by
    unfold localIndex
    rw [searchBlock_congr hmap le_rfl]
  unfold referenceForOffset
  rw [hlocal]
  refine if_congr Iff.rfl rfl (bind_congr_ok fun i _ => ?_)
  split
  · rfl
  · rename_i hi
    refine bind_congr_ok fun g hg => ?_
    rw [hmap g (owns_of_checkedAdd (Nat.lt_of_not_le hi) (okOr_eq_ok.1 hg))]

/-! ### The loops end -/

section Loops
variable {m : Type → Type} [Monad m] [MonadLiftT Result m]

/-- The search ends within `high - low` rounds: more of them change nothing. -/
theorem searchBlock_rounds (hlift : ∀ {α β : Type} (a : α) (k : α → m β), (liftM (.ok a : Result α) : m α) >>= k = k a)
    (map : Nat → m BlockRef) {left left' low high : Nat} (hhigh : high < u32Size) (hleft : high - low ≤ left)
    (hleft' : high - low ≤ left') :
    f.searchBlock map offset left low high = f.searchBlock map offset left' low high := by
  induction left generalizing left' low high with
  | zero =>
    cases left' with
    | zero => rfl
    | succ left' =>
      rw [searchBlock, searchBlock, if_neg (by omega)]
  | succ left ih =>
    cases left' with
    | zero => rw [searchBlock, searchBlock, if_neg (by omega)]
    | succ left' =>
      unfold searchBlock
      split
      · rename_i hlt
        have hmid : low + (high - low) / 2 < high := by omega
        rw [plainSub_of_le hlt.le, hlift, hlift, plainAdd_of_lt (hmid.trans hhigh), hlift, hlift,
          plainAdd_of_lt ((Nat.succ_le_of_lt hmid).trans_lt hhigh)]
        refine congrArg _ (funext fun g => congrArg _ (funext fun r => ?_))
        rw [hlift, hlift]
        refine if_congr Iff.rfl ?_ ?_
        · exact ih hhigh (by omega) (by omega)
        · exact ih (hmid.trans hhigh) (by omega) (by omega)
      · rfl

end Loops

section Prog
variable {σ l : Type}

/-- What the lookup returns covers the offset, whatever the map is. -/
theorem referenceForOffset_yields (f : FileRecord) (map : Nat → ExceptT (Stop Error) (StateT l (Prog σ)) BlockRef)
    (offset : Nat) :
    Yields (f.referenceForOffset map offset) fun r => r.logicalOffset.toNat ≤ offset ∧
      offset < r.logicalOffset.toNat + r.plainLen.toNat := by
  have hfail : ∀ {e : Error} {k : PUnit → ExceptT (Stop Error) (StateT l (Prog σ)) BlockRef} {Q : BlockRef → Prop},
      Yields ((liftM (fail e : Result PUnit) : ExceptT (Stop Error) (StateT l (Prog σ)) PUnit) >>= k) Q :=
    .bind (.lift fun _ h => absurd h fail_ne_ok) fun _ (h : False) => h.elim
  refine .ite (fun _ => hfail) fun _ => .bind (.trivial _) fun i _ => .ite (fun _ => hfail) fun _ => ?_
  refine .bind (.trivial _) fun g _ => .bind (.trivial _) fun r _ => ?_
  refine .bind (Q := fun stop => stop = r.logicalOffset.toNat + r.plainLen.toNat) (.lift fun stop h => ?_) ?_
  · exact (checkedAdd_eq_some.1 (okOr_eq_ok.1 h)).2
  · rintro stop rfl
    refine .ite (fun _ => hfail) fun hcover => .pure ?_
    rw [not_or, Nat.not_lt, Nat.not_le] at hcover
    exact hcover

/-- The loop of `prefetch_range` ends within `stop - logical` passes. -/
theorem prefetchLoop_passes [Target] (map : Nat → ExceptT (Stop Error) (StateT l (Prog σ)) BlockRef)
    (prefetch : BlockRef → ExceptT (Stop Error) (StateT l (Prog σ)) Unit) {stop left left' logical : Nat}
    (hleft : stop - logical ≤ left) (hleft' : stop - logical ≤ left') :
    prefetchLoop (f.referenceForOffset map) prefetch stop left logical =
      prefetchLoop (f.referenceForOffset map) prefetch stop left' logical := by
  induction left generalizing left' logical with
  | zero =>
    cases left' with
    | zero => rfl
    | succ left' => rw [prefetchLoop, prefetchLoop, if_neg (by omega)]
  | succ left ih =>
    cases left' with
    | zero => rw [prefetchLoop, prefetchLoop, if_neg (by omega)]
    | succ left' =>
      unfold prefetchLoop
      split
      · refine (referenceForOffset_yields f map logical).bind_congr fun r hr => congrArg _ (funext fun _ => ?_)
        have hnext : Yields (liftM (okOr (checkedAdd u64Size r.logicalOffset.toNat r.plainLen.toNat) .invalidRange :
            Result Nat) : ExceptT (Stop Error) (StateT l (Prog σ)) Nat) fun next => logical < next :=
          .lift fun next h => (checkedAdd_eq_some.1 (okOr_eq_ok.1 h)).2 ▸ hr.2
        exact hnext.bind_congr fun next hlt => ih (by omega) (by omega)
      · rfl

end Prog
end FileRecord
end Hakutaku
