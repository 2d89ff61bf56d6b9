import Hakutaku.Lib.Cuts
import Hakutaku.Proofs.CachedFileReadable

/-!
# The chunks of a source

The pieces a class cuts a content into make up the content (`sourcePieces_cuts`), each is a block of at most 1 MiB, and
their chunks tile the file as its layout wants it (`sourceChunks_tile`, `sourceChunks_fixed`).
-/

namespace Hakutaku
open Wire Act BuildContext

/-- The largest chunk of the gear-hash chunker. -/
def fastCdcMax : Nat := 512 * 1024

/-- What the packer relies on of the chunker: the chunks tile the content, and none is empty or longer than the largest. -/
structure FastCdcLaw [FastCdc] : Prop where
  tiles : ∀ bytes, Tiles 0 (FastCdc.chunks bytes) bytes.length
  sizes : ∀ bytes, ∀ x ∈ FastCdc.chunks bytes, 0 < x.2 ∧ x.2 ≤ fastCdcMax

/-! ### A chunker for closed examples -/

/-- The ranges of the largest chunk size from `offset` on, for at most `left` chunks. -/
def largestRanges : Nat → Nat → Nat → List (Nat × Nat)
  | 0, _, _ => []
  | left + 1, offset, len =>
    if len = 0 then []
    else (offset, min len fastCdcMax) :: largestRanges left (offset + min len fastCdcMax) (len - min len fastCdcMax)

/-- A chunker that finds no place to cut before the largest chunk size. -/
@[reducible] def largestFastCdc : FastCdc := ⟨fun bytes => largestRanges bytes.length 0 bytes.length⟩

theorem largestRanges_tiles {left offset len : Nat} (h : len ≤ left) :
    Tiles offset (largestRanges left offset len) (offset + len) := by
  induction left generalizing offset len with
  | zero =>
    obtain rfl : len = 0 := by omega
    exact .nil offset
  | succ left ih =>
    unfold largestRanges
    split
    · rename_i hzero
      rw [hzero]
      exact .nil offset
    · have hmax : 0 < fastCdcMax := by decide
      refine ⟨rfl, ?_⟩
      have hrec := @ih (offset + min len fastCdcMax) (len - min len fastCdcMax) (by omega)
      rwa [show offset + min len fastCdcMax + (len - min len fastCdcMax) = offset + len by omega] at hrec

theorem largestRanges_sizes {left offset len : Nat} :
    ∀ x ∈ largestRanges left offset len, 0 < x.2 ∧ x.2 ≤ fastCdcMax := by
  induction left generalizing offset len with
  | zero => simp [largestRanges]
  | succ left ih =>
    have hmax : 0 < fastCdcMax := by decide
    unfold largestRanges
    split
    · simp
    · intro x hx
      rcases List.mem_cons.1 hx with rfl | hx
      · dsimp only
        omega
      · exact ih x hx

theorem largestFastCdc_law : @FastCdcLaw largestFastCdc := by
  let _ := largestFastCdc
  refine ⟨fun bytes => ?_, fun bytes => largestRanges_sizes⟩
  have htiles := @largestRanges_tiles bytes.length 0 bytes.length (le_refl _)
  rwa [Nat.zero_add] at htiles

/-! ### Pieces -/

theorem classify_blockLen_le (source : SourceFile) : (classify source).fixedBlockLen.toNat ≤ maxBlockPlainLen := by
  have hmedia : ∀ audio : Bool, (UInt32.ofNat (if audio then audioBlock else streamBlock)).toNat ≤ maxBlockPlainLen := by decide
  simp only [classify]
  split
  · exact hmedia _
  · split
    · rename_i hlen
      have hlt : max source.len.toNat 1 < 2 ^ 32 := by
        simp only [hotFileLimit] at hlen
        omega
      show (UInt32.ofNat (max source.len.toNat 1)).toNat ≤ _
      rw [UInt32.toNat_ofNat_of_lt' hlt]
      simp only [hotFileLimit, maxBlockPlainLen] at hlen ⊢
      omega
    · split
      · exact Nat.zero_le _
      · show (UInt32.ofNat bulkBlock).toNat ≤ maxBlockPlainLen
        decide

section
variable {blockSize left offset : Nat} {bytes : Bytes}

theorem fixedPieces_cuts (hsize : 0 < blockSize) (hleft : bytes.length < left) :
    Cuts offset (fixedPieces blockSize left offset bytes) bytes := by
  induction left generalizing offset bytes with
  | zero => omega
  | succ left ih =>
    unfold fixedPieces
    split
    · rename_i hnil
      rcases List.take_eq_nil_iff.1 hnil with hzero | hnil
      · omega
      · exact hnil
    · rename_i hne
      refine ⟨rfl, hne, bytes.drop blockSize, (List.take_append_drop blockSize bytes).symm, ih ?_⟩
      have hbytes : bytes ≠ [] := by
        rintro rfl
        exact hne List.take_nil
      have hpos := List.length_pos_of_ne_nil hbytes
      rw [List.length_drop]
      omega

theorem length_fixedPieces_le : ∀ x ∈ fixedPieces blockSize left offset bytes, x.2.length ≤ blockSize := by
  induction left generalizing offset bytes with
  | zero => simp [fixedPieces]
  | succ left ih =>
    unfold fixedPieces
    split
    · simp
    · intro x hx
      rcases List.mem_cons.1 hx with rfl | hx
      · exact List.length_take_le _ _
      · exact ih x hx

/-- Only the last piece is short. -/
theorem length_fixedPieces_eq {i : Nat} (hi : i + 1 < (fixedPieces blockSize left offset bytes).length) :
    (fixedPieces blockSize left offset bytes)[i].2.length = blockSize := by
  induction left generalizing offset bytes i with
  | zero => simp [fixedPieces] at hi
  | succ left ih =>
    unfold fixedPieces at hi ⊢
    split at hi
    · simp at hi
    · rename_i hne
      simp only [hne, ↓reduceIte]
      cases i with
      | succ i => exact ih (Nat.lt_of_succ_lt_succ hi)
      | zero =>
        rw [List.getElem_cons_zero, List.length_take, Nat.min_eq_left]
        -- Something follows the first piece, so the buffer was filled.
        by_contra hshort
        have hnone : fixedPieces blockSize left (offset + (bytes.take blockSize).length) (bytes.drop blockSize) = [] := by
          rw [List.drop_eq_nil_of_le (by omega)]
          cases left <;> simp [fixedPieces]
        rw [hnone] at hi
        simp at hi

end

section
variable [FastCdc] {source : SourceFile} {bytes : Bytes}

/-- The pieces of a source make up its content. -/
theorem sourcePieces_cuts (hcdc : FastCdcLaw) (source : SourceFile) (bytes : Bytes) :
    Cuts 0 (sourcePieces (classify source) bytes) bytes := by
  unfold sourcePieces
  rcases classify_fixedBlockLen source with ⟨hlayout, hpos⟩ | ⟨hlayout, -⟩
  · rw [hlayout]
    exact fixedPieces_cuts hpos (Nat.lt_succ_self _)
  · rw [hlayout]
    exact .of_tiles (hcdc.tiles bytes) (fun x hx => (hcdc.sizes bytes x hx).1) bytes rfl

theorem length_sourcePieces_le (hcdc : FastCdcLaw) (source : SourceFile) (bytes : Bytes) :
    ∀ x ∈ sourcePieces (classify source) bytes, x.2.length ≤ maxBlockPlainLen := by
  unfold sourcePieces
  intro x hx
  split at hx
  · exact (length_fixedPieces_le x hx).trans (classify_blockLen_le source)
  · obtain ⟨range, hrange, rfl⟩ := List.mem_map.1 hx
    have hmax : fastCdcMax ≤ maxBlockPlainLen := by decide
    have hsize := (hcdc.sizes bytes range hrange).2
    have hlen : (slice bytes range.1 range.2).length ≤ range.2 := List.length_take_le _ _
    dsimp only
    omega

/-! ### Chunks -/

variable [Crypto]

omit [FastCdc] [Crypto] in
theorem toNat_blockLen {n : Nat} (h : n ≤ maxBlockPlainLen) : (UInt32.ofNat n).toNat = n := by
  have hmax : maxBlockPlainLen < UInt32.size := by decide
  exact UInt32.toNat_ofNat_of_lt' (Nat.lt_of_le_of_lt h hmax)

omit [FastCdc] in
theorem chunkStart_map {pieces : List (Nat × Bytes)} (hlen : ∀ x ∈ pieces, x.2.length ≤ maxBlockPlainLen) (i : Nat) :
    chunkStart (pieces.map fun x => chunkOf x.1 x.2) i = ((pieces.take i).map fun x => x.2.length).sum := by
  unfold chunkStart
  rw [← List.map_take, List.map_map]
  exact congrArg List.sum (List.map_congr_left fun x hx => toNat_blockLen (hlen x (List.mem_of_mem_take hx)))

theorem sourceChunks_total (hcdc : FastCdcLaw) (source : SourceFile) (bytes : Bytes) :
    chunkStart (sourceChunks (classify source) bytes) (sourceChunks (classify source) bytes).length = bytes.length := by
  unfold sourceChunks
  rw [chunkStart_map (length_sourcePieces_le hcdc source bytes), List.length_map, List.take_length,
    (sourcePieces_cuts hcdc source bytes).length_eq]

/-- The chunks of a source tile it. -/
theorem sourceChunks_tile (hcdc : FastCdcLaw) (source : SourceFile) (hbytes : bytes.length < u64Size) :
    ChunksTile (sourceChunks (classify source) bytes) bytes.length := by
  have hcuts := sourcePieces_cuts hcdc source bytes
  have hle := length_sourcePieces_le hcdc source bytes
  unfold sourceChunks
  refine ⟨sourceChunks_total hcdc source bytes, fun i hi => ?_⟩
  · rw [List.length_map] at hi
    have hplace := hcuts.place hi
    have hpiece := hle _ (List.getElem_mem hi)
    have htotal := hcuts.length_eq
    have hbefore : ((List.take i (sourcePieces (classify source) bytes)).map fun x => x.2.length).sum ≤ bytes.length := by
      rw [← htotal]
      exact ((List.take_sublist i _).map _).sum_le_sum fun _ _ => Nat.zero_le _
    rw [Nat.zero_add] at hplace
    rw [List.getElem_map, chunkStart_map hle]
    refine ⟨?_, ?_⟩
    · show (UInt64.ofNat (sourcePieces (classify source) bytes)[i].1).toNat = _
      rw [hplace]
      exact UInt64.toNat_ofNat_of_lt' (Nat.lt_of_le_of_lt hbefore hbytes)
    · show 0 < (UInt32.ofNat (sourcePieces (classify source) bytes)[i].2.length).toNat
      rw [toNat_blockLen hpiece]
      exact List.length_pos_of_ne_nil (hcuts.nonempty (List.getElem_mem hi))

/-- The chunks of a fixed layout fill their blocks. -/
theorem sourceChunks_fixed (hcdc : FastCdcLaw) (source : SourceFile) (bytes : Bytes)
    (hlayout : (classify source).layout = .fixed) :
    FixedChunks (classify source).fixedBlockLen.toNat (sourceChunks (classify source) bytes) := by
  have hle := length_sourcePieces_le hcdc source bytes
  have hlen : ∀ i (hi : i < (sourcePieces (classify source) bytes).length),
      (chunkOf (sourcePieces (classify source) bytes)[i].1 (sourcePieces (classify source) bytes)[i].2).plainLen.toNat =
        (sourcePieces (classify source) bytes)[i].2.length := fun i hi => toNat_blockLen (hle _ (List.getElem_mem hi))
  unfold sourceChunks
  refine ⟨fun i hi hnext => ?_, fun i hi _ => ?_⟩
  · rw [List.length_map] at hi hnext
    rw [List.getElem_map, hlen i hi]
    simp only [sourcePieces, hlayout] at hnext ⊢
    exact length_fixedPieces_eq hnext
  · rw [List.length_map] at hi
    rw [List.getElem_map, hlen i hi]
    have hmem := List.getElem_mem hi
    simp only [sourcePieces, hlayout] at hmem ⊢
    exact length_fixedPieces_le _ hmem

/-! ### Content -/

/-- What the packer takes of a source. -/
def SourceFile.content (source : SourceFile) (sources : String → SourceView) : Bytes :=
  (sources source.hostPath).bytes.take source.len.toNat

/-- The chunks of a source. -/
def SourceFile.chunks (source : SourceFile) (sources : String → SourceView) : List CachedChunk :=
  sourceChunks (classify source) (source.content sources)

omit [FastCdc] [Crypto] in
theorem SourceFile.length_content_lt (source : SourceFile) (sources : String → SourceView) :
    (source.content sources).length < u64Size :=
  Nat.lt_of_le_of_lt (List.length_take_le _ _) source.len.toNat_lt

omit [FastCdc] [Crypto] in
theorem SourceFile.content_of_length {source : SourceFile} {sources : String → SourceView}
    (h : (sources source.hostPath).bytes.length = source.len.toNat) :
    source.content sources = (sources source.hostPath).bytes ∧ (source.content sources).length = source.len.toNat := by
  have htake : source.content sources = (sources source.hostPath).bytes := List.take_of_length_le h.le
  exact ⟨htake, by rw [htake, h]⟩

end

end Hakutaku
