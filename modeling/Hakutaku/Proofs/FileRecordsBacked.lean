import Hakutaku.CatalogCodec
import Mathlib.Data.UInt

/-!
# File lengths and the blocks behind them

`Catalog::parse` relates the block range of a file to the block table, and its length to nothing. So the length is
backed by the blocks exactly where the record can be cut into as many blocks as it claims.
-/

namespace Hakutaku

/-- The length of a file is one its blocks can have. `Asset::read` allocates this many bytes. -/
structure FileRecord.Backed (r : FileRecord) : Prop where
  some : 0 < r.logicalLen.toNat → 0 < r.blockCount.toNat
  limit : r.logicalLen.toNat ≤ r.blockCount.toNat * maxBlockPlainLen
  fixed : r.layout = .fixed → 0 < r.logicalLen.toNat →
    r.blockCount.toNat = divCeil r.logicalLen.toNat r.fixedBlockLen.toNat

/-- The content of a file can be cut into its blocks: into `block_count` pieces of at most 1 MiB, and under the fixed
layout into `block_count` pieces of which all but the last, which is not empty, fill `fixed_block_len`. -/
structure FileRecord.Cuttable (r : FileRecord) : Prop where
  pieces : ∃ lens : List Nat, lens.length = r.blockCount.toNat ∧ (∀ n ∈ lens, n ≤ 1024 * 1024) ∧
    lens.sum = r.logicalLen.toNat
  fixed : r.layout = .fixed → 0 < r.logicalLen.toNat → ∃ full last, (full ++ [last]).length = r.blockCount.toNat ∧
    (∀ n ∈ full, n = r.fixedBlockLen.toNat) ∧ 0 < last ∧ last ≤ r.fixedBlockLen.toNat ∧
    (full ++ [last]).sum = r.logicalLen.toNat

/-- Any length up to `count` maxima can be cut into `count` pieces. -/
theorem exists_pieces (limit count len : Nat) (h : len ≤ count * limit) :
    ∃ lens : List Nat, lens.length = count ∧ (∀ n ∈ lens, n ≤ limit) ∧ lens.sum = len := by
  induction count generalizing len with
  | zero =>
    rw [Nat.zero_mul] at h
    exact ⟨[], rfl, fun n hn => absurd hn List.not_mem_nil, (Nat.le_zero.1 h).symm⟩
  | succ count ih =>
    rw [Nat.succ_mul] at h
    obtain ⟨lens, hlen, hle, hsum⟩ := ih (len - min len limit) (by omega)
    refine ⟨min len limit :: lens, congrArg Nat.succ hlen, fun n hn => ?_, ?_⟩
    · rcases List.mem_cons.1 hn with rfl | hn
      · exact min_le_right _ _
      · exact hle n hn
    · rw [List.sum_cons, hsum]
      omega

theorem sum_le_of_pieces {limit : Nat} {lens : List Nat} (h : ∀ n ∈ lens, n ≤ limit) : lens.sum ≤ lens.length * limit := by
  rw [← smul_eq_mul]
  exact List.sum_le_card_nsmul _ _ h

/-- The number of blocks a fixed layout needs, by the last of them. -/
theorem eq_divCeil_iff {n len block : Nat} (hblock : 0 < block) (hlen : 0 < len) :
    n = divCeil len block ↔ ∃ last, 0 < last ∧ last ≤ block ∧ 0 < n ∧ len = (n - 1) * block + last := by
  have hmod := Nat.mod_lt len hblock
  have hdiv := Nat.div_add_mod' len block
  unfold divCeil
  constructor
  · rintro rfl
    by_cases hrest : 0 < len % block
    · rw [if_pos hrest]
      exact ⟨len % block, hrest, hmod.le, Nat.succ_pos _, hdiv.symm⟩
    · rw [if_neg hrest, Nat.add_zero]
      have hzero : len % block = 0 := Nat.eq_zero_of_not_pos hrest
      rw [hzero, Nat.add_zero] at hdiv
      have hpos : 0 < len / block := by
        by_contra hnone
        rw [Nat.eq_zero_of_not_pos hnone, Nat.zero_mul] at hdiv
        omega
      refine ⟨block, hblock, le_refl _, hpos, ?_⟩
      rw [Nat.sub_one_mul, Nat.sub_add_cancel (Nat.le_mul_of_pos_left block hpos)]
      exact hdiv.symm
  · rintro ⟨last, hpos, hle, hn, heq⟩
    obtain ⟨m, rfl⟩ : ∃ m, n = m + 1 := ⟨n - 1, by omega⟩
    rw [Nat.add_sub_cancel] at heq
    subst heq
    rcases Nat.lt_or_eq_of_le hle with hlt | rfl
    · have hrest : (m * block + last) % block = last := by
        rw [Nat.add_comm, Nat.add_mul_mod_self_right, Nat.mod_eq_of_lt hlt]
      rw [hrest, if_pos hpos, Nat.mul_comm, Nat.mul_add_div hblock, Nat.div_eq_of_lt hlt]
    · rw [← Nat.succ_mul, Nat.mul_mod_left, if_neg (lt_irrefl 0), Nat.mul_div_cancel _ hblock]

theorem FileRecord.backed_iff {r : FileRecord} (hv : r.Valid) : r.Backed ↔ r.Cuttable := by
  have hblock (hfixed : r.layout = .fixed) (hlen : 0 < r.logicalLen.toNat) : 0 < r.fixedBlockLen.toNat :=
    Nat.pos_of_ne_zero fun hzero => hv.1 ⟨hfixed, hlen, hzero⟩
  constructor
  · intro h
    refine ⟨exists_pieces _ _ _ h.limit, fun hfixed hlen => ?_⟩
    obtain ⟨last, hpos, hle, hn, heq⟩ := (eq_divCeil_iff (hblock hfixed hlen) hlen).1 (h.fixed hfixed hlen)
    refine ⟨.replicate (r.blockCount.toNat - 1) r.fixedBlockLen.toNat, last, ?_, fun n hmem => List.eq_of_mem_replicate hmem,
      hpos, hle, ?_⟩
    · rw [List.length_append, List.length_replicate, List.length_singleton, Nat.sub_add_cancel hn]
    · rw [List.sum_append, List.sum_replicate, List.sum_singleton, smul_eq_mul, heq]
  · intro h
    obtain ⟨lens, hlens, hle, hsum⟩ := h.pieces
    have hlimit : r.logicalLen.toNat ≤ r.blockCount.toNat * maxBlockPlainLen := by
      rw [← hsum, ← hlens]
      exact sum_le_of_pieces hle
    refine ⟨fun hlen => Nat.pos_of_ne_zero fun hzero => ?_, hlimit, fun hfixed hlen => ?_⟩
    · rw [hzero, Nat.zero_mul] at hlimit
      omega
    · obtain ⟨full, last, hcount, hfull, hpos, hlast, htotal⟩ := h.fixed hfixed hlen
      refine (eq_divCeil_iff (hblock hfixed hlen) hlen).2 ⟨last, hpos, hlast, ?_, ?_⟩
      · rw [← hcount, List.length_append]
        exact Nat.succ_pos _
      · rw [List.length_append, List.length_singleton] at hcount
        rw [← htotal, ← hcount, Nat.add_sub_cancel, List.sum_append, List.sum_singleton, List.sum_eq_card_nsmul _ _ hfull,
          smul_eq_mul]

/-- A file of 2^40 bytes and no blocks. -/
def hollowCatalog : CatalogData where
  segments := []
  files := [⟨0, 1, .fixed, .normal, 2 ^ 40, 0, 0, 65536⟩]
  pathSlots := [⟨0, emptyPathSlot⟩, ⟨97, 0⟩]
  pathPool := [97]
  pages := []
  totalBlocks := 0
  mapPageCount := 0
  reusePageCount := 0

theorem hollowCatalog_encodable : hollowCatalog.Encodable := by
  constructor <;> decide

theorem hollowCatalog_valid [Target] : hollowCatalog.Valid where
  mapPages := by show 0 = divCeil 0 blocksPerMapPage; decide
  reusePages := by show 0 = divCeil 0 reusePerPage; decide
  segments r hr := nomatch hr
  files r hr := by
    obtain rfl := List.mem_singleton.1 hr
    exact ⟨by constructor <;> decide, by decide, by decide, by decide, "a", by decide, by decide⟩
  slots := by decide
  pages i r hr := nomatch hr

end Hakutaku
