import Hakutaku.Lib.Greedy
import Hakutaku.ReuseIndex

/-!
# What a consolidation costs

`live`: the bytes of the blocks of a segment that a release references, each physical block counted once. The tally
of `compaction_segments` computes it, without an overflow, and its selection is the greedy one.
-/

namespace Hakutaku
open Wire

/-! ### Live bytes -/

/-- The physical block of a record. -/
def ReuseRecord.key (r : ReuseRecord) : UInt16 × UInt32 := (r.block.segmentOrdinal, r.block.segmentBlockOrdinal)

/-- The first record of a physical block. -/
def firstOf (records : List ReuseRecord) (key : UInt16 × UInt32) : Option ReuseRecord :=
  records.find? fun r => r.key = key

/-- A length of a physical block, as its first record gives it. -/
def lengthOf (len : BlockRef → UInt32) (records : List ReuseRecord) (key : UInt16 × UInt32) : Nat :=
  (firstOf records key).elim 0 fun r => (len r.block).toNat

/-- The physical blocks of a segment that are not among `seen`. -/
def blocksOf (records : List ReuseRecord) (seen : List (UInt16 × UInt32)) (i : Nat) : Finset (UInt16 × UInt32) :=
  {key ∈ (records.map ReuseRecord.key).toFinset | key ∉ seen ∧ key.1.toNat = i}

def liveBut (len : BlockRef → UInt32) (records : List ReuseRecord) (seen : List (UInt16 × UInt32)) (i : Nat) : Nat :=
  ∑ key ∈ blocksOf records seen i, lengthOf len records key

/-- The referenced bytes of a segment, each physical block once. -/
def live (len : BlockRef → UInt32) (records : List ReuseRecord) (i : Nat) : Nat := liveBut len records [] i

section
variable {len : BlockRef → UInt32} {r : ReuseRecord} {records records' : List ReuseRecord}
  {seen : List (UInt16 × UInt32)} {key : UInt16 × UInt32} {i : Nat}

theorem mem_blocksOf : key ∈ blocksOf records seen i ↔
    (∃ r ∈ records, r.key = key) ∧ key ∉ seen ∧ key.1.toNat = i := by
  unfold blocksOf
  rw [Finset.mem_filter, List.mem_toFinset, List.mem_map]

theorem lengthOf_cons_self : lengthOf len (r :: records) r.key = (len r.block).toNat := by
  unfold lengthOf firstOf
  rw [List.find?_cons_of_pos (by simp)]
  rfl

theorem lengthOf_cons_of_ne (h : r.key ≠ key) : lengthOf len (r :: records) key = lengthOf len records key := by
  unfold lengthOf firstOf
  rw [List.find?_cons_of_neg (by simpa using h)]

/-- The sums of one segment fit 64 bits: it has at most 2^32 blocks of less than 2^32 bytes. -/
theorem liveBut_lt (len : BlockRef → UInt32) (records : List ReuseRecord) (seen : List (UInt16 × UInt32)) (i : Nat) :
    liveBut len records seen i < u64Size := by
  have hcard : (blocksOf records seen i).card ≤ 2 ^ 32 := by
    rw [← Finset.card_range (2 ^ 32)]
    refine Finset.card_le_card_of_injOn (fun key => key.2.toNat) (fun key _ => ?_) fun a ha b hb hab => ?_
    · exact Finset.mem_coe.2 (Finset.mem_range.2 key.2.toNat_lt)
    · have hfst := (mem_blocksOf.1 ha).2.2.trans (mem_blocksOf.1 hb).2.2.symm
      exact Prod.ext (UInt16.toNat_inj.1 hfst) (UInt32.toNat_inj.1 hab)
  have hle : ∀ key ∈ blocksOf records seen i, lengthOf len records key ≤ 2 ^ 32 - 1 := by
    intro key _
    unfold lengthOf
    rcases firstOf records key with _ | r
    · exact Nat.zero_le _
    · exact Nat.le_sub_one_of_lt (len r.block).toNat_lt
  calc liveBut len records seen i ≤ (blocksOf records seen i).card • (2 ^ 32 - 1) := Finset.sum_le_card_nsmul _ _ _ hle
    _ ≤ 2 ^ 32 * (2 ^ 32 - 1) := Nat.mul_le_mul_right _ hcard
    _ < u64Size := by decide

/-- A record of a block already seen adds nothing. -/
theorem liveBut_cons_seen (h : r.key ∈ seen) (i : Nat) : liveBut len (r :: records) seen i = liveBut len records seen i := by
  have hset : blocksOf (r :: records) seen i = blocksOf records seen i := by
    ext key
    rw [mem_blocksOf, mem_blocksOf]
    refine and_congr_left fun hkey => ?_
    rw [List.exists_mem_cons_iff, or_iff_right]
    rintro rfl
    exact hkey.1 h
  unfold liveBut
  rw [hset]
  refine Finset.sum_congr rfl fun key hkey => lengthOf_cons_of_ne ?_
  rintro rfl
  exact (mem_blocksOf.1 hkey).2.1 h

/-- The first record of a block adds its length to its segment. -/
theorem liveBut_cons_new (h : r.key ∉ seen) (i : Nat) :
    liveBut len (r :: records) seen i =
      (if r.block.segmentOrdinal.toNat = i then (len r.block).toNat else 0) + liveBut len records (r.key :: seen) i := by
  have hrest : ∑ key ∈ blocksOf records (r.key :: seen) i, lengthOf len (r :: records) key =
      liveBut len records (r.key :: seen) i := by
    refine Finset.sum_congr rfl fun key hkey => lengthOf_cons_of_ne ?_
    rintro rfl
    exact (mem_blocksOf.1 hkey).2.1 List.mem_cons_self
  split
  · rename_i hi
    have hset : blocksOf (r :: records) seen i = insert r.key (blocksOf records (r.key :: seen) i) := by
      ext key
      rw [Finset.mem_insert, mem_blocksOf, mem_blocksOf, List.exists_mem_cons_iff, List.mem_cons, not_or]
      by_cases hkey : key = r.key
      · subst hkey
        simp only [true_or, h, not_false_eq_true, true_and, not_true_eq_false, false_and, and_false, or_false, iff_true]
        exact hi
      · simp only [hkey, Ne.symm hkey, false_or, not_false_eq_true, true_and]
    have hnot : r.key ∉ blocksOf records (r.key :: seen) i := fun hmem => (mem_blocksOf.1 hmem).2.1 List.mem_cons_self
    unfold liveBut at hrest ⊢
    rw [hset, Finset.sum_insert hnot, lengthOf_cons_self, hrest]
  · rename_i hi
    have hset : blocksOf (r :: records) seen i = blocksOf records (r.key :: seen) i := by
      ext key
      rw [mem_blocksOf, mem_blocksOf, List.exists_mem_cons_iff, List.mem_cons, not_or]
      by_cases hkey : key = r.key
      · subst hkey
        have hi' : ¬ r.key.1.toNat = i := hi
        simp only [hi', and_false]
      · simp only [hkey, Ne.symm hkey, false_or, not_false_eq_true, true_and]
    unfold liveBut at hrest ⊢
    rw [hset, Nat.zero_add, hrest]

/-- A sum depends on the set of the physical blocks and their lengths only. -/
theorem live_congr (hagree : ∀ r ∈ records, ∀ r' ∈ records', r.key = r'.key → len r.block = len r'.block)
    (hkeys : ∀ key, (∃ r ∈ records, r.key = key) ↔ ∃ r ∈ records', r.key = key) (i : Nat) :
    live len records i = live len records' i := by
  have hset : blocksOf records [] i = blocksOf records' [] i := by
    ext key
    rw [mem_blocksOf, mem_blocksOf, hkeys]
  unfold live liveBut
  rw [← hset]
  refine Finset.sum_congr rfl fun key hkey => ?_
  have hfind : ∀ l : List ReuseRecord, (∃ r ∈ l, r.key = key) → ∃ r ∈ l, r.key = key ∧ firstOf l key = some r := by
    rintro l ⟨r, hr, hkey⟩
    rcases hfirst : firstOf l key with _ | r'
    · exact absurd (List.find?_eq_none.1 hfirst r hr) (by simpa using hkey)
    · exact ⟨r', List.mem_of_find?_eq_some hfirst, by simpa using List.find?_some hfirst, rfl⟩
  obtain ⟨r, hr, hrkey, hfirst⟩ := hfind records (mem_blocksOf.1 hkey).1
  obtain ⟨r', hr', hrkey', hfirst'⟩ := hfind records' ((hkeys key).1 (mem_blocksOf.1 hkey).1)
  unfold lengthOf
  rw [hfirst, hfirst']
  exact congrArg UInt32.toNat (hagree r hr r' hr' (hrkey.trans hrkey'.symm))

theorem liveBut_nil (i : Nat) : liveBut len [] seen i = 0 := rfl

/-! ### The tally -/

/-- Whether every record names a segment of the release. -/
def InRange (segments : List SegmentRecord) (records : List ReuseRecord) : Prop :=
  ∀ r ∈ records, r.block.segmentOrdinal.toNat < segments.length

instance (segments : List SegmentRecord) (records : List ReuseRecord) : Decidable (InRange segments records) :=
  inferInstanceAs (Decidable (∀ _ ∈ _, _))

/-- The sums of a tally with more bytes for every segment. -/
def Tally.plus (tally : Tally) (n : Nat) (stored plain : Nat → Nat) : Tally where
  stored := (List.range n).map fun i => tally.stored.getD i 0 + stored i
  plain := (List.range n).map fun i => tally.plain.getD i 0 + plain i

theorem map_getD_range {l : List Nat} {n : Nat} (h : l.length = n) : ((List.range n).map fun i => l.getD i 0) = l := by
  refine List.ext_getElem (by simpa using h.symm) fun i hi hi' => ?_
  rw [List.getElem_map, List.getElem_range, List.getD_eq_getElem?_getD, List.getElem?_eq_getElem hi', Option.getD_some]

theorem getD_set {l : List Nat} {j : Nat} (hj : j < l.length) (v i : Nat) :
    (l.set j v).getD i 0 = if j = i then v else l.getD i 0 := by
  rw [List.getD_eq_getElem?_getD, List.getD_eq_getElem?_getD, List.getElem?_set]
  split
  · rename_i hji
    rfl
  · rfl

/-- The tally is the sum of what is live, and nothing in it overflows. -/
theorem tallyBlocks_eq {segments : List SegmentRecord} (records : List ReuseRecord) {tally : Tally}
    {seen : List (UInt16 × UInt32)} (hstored : tally.stored.length = segments.length)
    (hplain : tally.plain.length = segments.length)
    (hfits : ∀ i, tally.stored.getD i 0 + liveBut BlockRef.storedLen records seen i < u64Size ∧
      tally.plain.getD i 0 + liveBut BlockRef.plainLen records seen i < u64Size) :
    tallyBlocks segments records tally seen = if InRange segments records then
        .ok (tally.plus segments.length (liveBut BlockRef.storedLen records seen) (liveBut BlockRef.plainLen records seen))
      else fail (.invalidInput "reuse segment ordinal") := by
  induction records generalizing tally seen with
  | nil =>
    rw [if_pos (show InRange segments [] from fun r hr => absurd hr List.not_mem_nil)]
    unfold tallyBlocks Tally.plus
    simp only [liveBut_nil, Nat.add_zero]
    rw [map_getD_range hstored, map_getD_range hplain]
  | cons r records ih =>
    unfold tallyBlocks
    dsimp only
    by_cases hrange : segments.length ≤ r.block.segmentOrdinal.toNat
    · rw [if_pos hrange, if_neg fun h => Nat.not_lt.2 hrange (h r List.mem_cons_self)]
    · have hlt := Nat.not_le.1 hrange
      have hinRange : InRange segments (r :: records) ↔ InRange segments records :=
        ⟨fun h x hx => h x (List.mem_cons_of_mem _ hx), fun h x hx => by
          rcases List.mem_cons.1 hx with rfl | hx
          · exact hlt
          · exact h x hx⟩
      rw [if_neg hrange]
      by_cases hseen : r.key ∈ seen
      · rw [if_pos (show (r.block.segmentOrdinal, r.block.segmentBlockOrdinal) ∈ seen from hseen)]
        simp only [liveBut_cons_seen hseen] at hfits
        rw [ih hstored hplain hfits]
        simp only [hinRange, funext (liveBut_cons_seen hseen)]
      · rw [if_neg (show (r.block.segmentOrdinal, r.block.segmentBlockOrdinal) ∉ seen from hseen)]
        obtain ⟨hs, hp⟩ := hfits r.block.segmentOrdinal.toNat
        rw [liveBut_cons_new hseen, if_pos rfl] at hs hp
        have hsum (l : List Nat) (hl : l.length = segments.length) (len : BlockRef → UInt32) (i : Nat) :
            (l.set r.block.segmentOrdinal.toNat (l.getD r.block.segmentOrdinal.toNat 0 + (len r.block).toNat)).getD i 0 +
              liveBut len records (r.key :: seen) i = l.getD i 0 + liveBut len (r :: records) seen i := by
          rw [getD_set (hl ▸ hlt), liveBut_cons_new hseen]
          split
          · rename_i hi
            subst hi
            rw [Nat.add_assoc]
          · rw [Nat.zero_add]
        rw [plainAdd_of_lt (by omega), plainAdd_of_lt (by omega)]
        show tallyBlocks segments records ⟨_, _⟩ (r.key :: seen) = _
        rw [ih ((List.length_set).trans hstored) ((List.length_set).trans hplain) fun i => ?_]
        · simp only [hinRange, Tally.plus, hsum _ hstored, hsum _ hplain]
        · simp only [hsum _ hstored, hsum _ hplain]
          exact hfits i

/-- What `compaction_segments` counts. -/
def liveTally (segments : List SegmentRecord) (records : List ReuseRecord) : Tally where
  stored := (List.range segments.length).map (live BlockRef.storedLen records)
  plain := (List.range segments.length).map (live BlockRef.plainLen records)

theorem getD_replicate (n i : Nat) : (List.replicate n 0).getD i 0 = 0 := by
  rw [List.getD_eq_getElem?_getD, List.getElem?_replicate]
  split <;> rfl

theorem tallyBlocks_zero (segments : List SegmentRecord) (records : List ReuseRecord) :
    tallyBlocks segments records ⟨.replicate segments.length 0, .replicate segments.length 0⟩ [] =
      if InRange segments records then .ok (liveTally segments records)
      else fail (.invalidInput "reuse segment ordinal") := by
  rw [tallyBlocks_eq records List.length_replicate List.length_replicate fun i => ?_]
  · unfold Tally.plus liveTally live
    simp only [getD_replicate, Nat.zero_add]
  · simp only [getD_replicate, Nat.zero_add]
    exact ⟨liveBut_lt _ _ _ _, liveBut_lt _ _ _ _⟩

theorem getD_live {n i : Nat} (hi : i < n) (f : Nat → Nat) : ((List.range n).map f).getD i 0 = f i := by
  rw [List.getD_eq_getElem?_getD, List.getElem?_map, List.getElem?_range hi]
  rfl

/-! ### Candidates -/

/-- A segment worth rewriting: one of at least 64 small ones, or one with at least 1 MiB dead and at most half of its
payload live. -/
def Eligible (segments : List SegmentRecord) (records : List ReuseRecord) (i : Nat) : Prop :=
  ∃ segment, segments[i]? = some segment ∧
    (64 ≤ segments.countP (fun segment => segment.fileLen.toNat ≤ 64 * 1024) ∧ segment.fileLen.toNat ≤ 64 * 1024 ∨
      live BlockRef.storedLen records i + 1024 * 1024 ≤ segment.payloadLen.toNat ∧
        2 * live BlockRef.storedLen records i ≤ segment.payloadLen.toNat)

theorem isCandidate_iff {segments : List SegmentRecord} {segment : SegmentRecord} {stored : Nat} :
    isCandidate (isFragmented segments) segment stored = true ↔
      64 ≤ segments.countP (fun segment => segment.fileLen.toNat ≤ 64 * 1024) ∧ segment.fileLen.toNat ≤ 64 * 1024 ∨
        stored + 1024 * 1024 ≤ segment.payloadLen.toNat ∧ 2 * stored ≤ segment.payloadLen.toNat := by
  unfold isCandidate isFragmented compactionMinFragments compactionSmall
  simp only [Bool.or_eq_true, Bool.and_eq_true, decide_eq_true_eq]
  refine or_congr_right ⟨?_, ?_⟩
  · rintro ⟨hdead, hhalf⟩
    omega
  · rintro ⟨hdead, hhalf⟩
    omega

/-- No segment is referenced for more bytes than it has. -/
def Covered (segments : List SegmentRecord) (records : List ReuseRecord) : Prop :=
  ∀ i segment, segments[i]? = some segment → live BlockRef.storedLen records i ≤ segment.payloadLen.toNat

/-- The eligible segments from `index` on. -/
def eligibleFrom (fragmented : Bool) (stored : Nat → Nat) : List SegmentRecord → Nat → List Nat
  | [], _ => []
  | segment :: rest, index =>
    if isCandidate fragmented segment (stored index) then index :: eligibleFrom fragmented stored rest (index + 1)
    else eligibleFrom fragmented stored rest (index + 1)

section
variable {fragmented : Bool} {stored : Nat → Nat} {tally : Tally}

theorem eligibleFrom_cons (segment : SegmentRecord) (rest : List SegmentRecord) (index : Nat) :
    eligibleFrom fragmented stored (segment :: rest) index =
      if isCandidate fragmented segment (stored index) then index :: eligibleFrom fragmented stored rest (index + 1)
      else eligibleFrom fragmented stored rest (index + 1) := rfl

theorem mem_eligibleFrom {segments : List SegmentRecord} {index i : Nat} :
    i ∈ eligibleFrom fragmented stored segments index ↔
      ∃ j segment, segments[j]? = some segment ∧ i = index + j ∧ isCandidate fragmented segment (stored i) = true := by
  induction segments generalizing index with
  | nil => simp [eligibleFrom]
  | cons segment rest ih =>
    have hsplit : (∃ j s, (segment :: rest)[j]? = some s ∧ i = index + j ∧ isCandidate fragmented s (stored i) = true) ↔
        (i = index ∧ isCandidate fragmented segment (stored i) = true) ∨
          ∃ j s, rest[j]? = some s ∧ i = index + 1 + j ∧ isCandidate fragmented s (stored i) = true := by
      constructor
      · rintro ⟨_ | j, s, hs, hi, hc⟩
        · cases hs
          exact .inl ⟨hi, hc⟩
        · exact .inr ⟨j, s, hs, by omega, hc⟩
      · rintro (⟨hi, hc⟩ | ⟨j, s, hs, hi, hc⟩)
        · exact ⟨0, segment, rfl, hi, hc⟩
        · exact ⟨j + 1, s, hs, by omega, hc⟩
    rw [hsplit, ← ih, eligibleFrom_cons]
    split
    · rename_i hc
      rw [List.mem_cons, and_iff_left_of_imp]
      rintro rfl
      exact hc
    · rename_i hc
      rw [or_iff_right]
      rintro ⟨rfl, hc'⟩
      exact hc hc'

theorem eligibleFrom_nodup (segments : List SegmentRecord) (index : Nat) :
    (eligibleFrom fragmented stored segments index).Nodup := by
  induction segments generalizing index with
  | nil => exact List.nodup_nil
  | cons segment rest ih =>
    unfold eligibleFrom
    split
    · refine List.nodup_cons.2 ⟨fun hmem => ?_, ih _⟩
      obtain ⟨j, -, -, hi, -⟩ := mem_eligibleFrom.1 hmem
      omega
    · exact ih _

theorem compactionCandidates_covered {segments : List SegmentRecord} {index : Nat}
    (hstored : ∀ j, j < segments.length → tally.stored.getD (index + j) 0 = stored (index + j))
    (hcovered : ∀ j segment, segments[j]? = some segment → stored (index + j) ≤ segment.payloadLen.toNat) :
    compactionCandidates fragmented tally segments index = .ok (eligibleFrom fragmented stored segments index) := by
  induction segments generalizing index with
  | nil => rfl
  | cons segment rest ih =>
    have hfirst : tally.stored.getD index 0 = stored index := hstored 0 (Nat.succ_pos _)
    have hrest := @ih (index + 1) (fun j hj => by
      rw [Nat.add_right_comm, Nat.add_assoc]
      exact hstored (j + 1) (Nat.succ_lt_succ hj)) fun j s hs => by
      rw [Nat.add_right_comm, Nat.add_assoc]
      exact hcovered (j + 1) s hs
    have hle : ¬ segment.payloadLen.toNat < stored index := Nat.not_lt.2 (hcovered 0 segment rfl)
    unfold compactionCandidates
    dsimp only
    rw [hfirst, if_neg hle, hrest, eligibleFrom_cons]
    show (if _ then _ else _ : PackResult (List Nat)) = _
    split <;> rfl

theorem compactionCandidates_uncovered {segments : List SegmentRecord} {index : Nat}
    (hstored : ∀ j, j < segments.length → tally.stored.getD (index + j) 0 = stored (index + j))
    (hcovered : ¬ ∀ j segment, segments[j]? = some segment → stored (index + j) ≤ segment.payloadLen.toNat) :
    compactionCandidates fragmented tally segments index =
      fail (.invalidInput "referenced bytes exceed segment payload") := by
  induction segments generalizing index with
  | nil => exact absurd (fun j segment h => by cases h) hcovered
  | cons segment rest ih =>
    have hfirst : tally.stored.getD index 0 = stored index := hstored 0 (Nat.succ_pos _)
    unfold compactionCandidates
    rw [hfirst]
    by_cases hlt : segment.payloadLen.toNat < stored index
    · rw [if_pos hlt]
      rfl
    · have hrest := @ih (index + 1) (fun j hj => by
        rw [Nat.add_right_comm, Nat.add_assoc]
        exact hstored (j + 1) (Nat.succ_lt_succ hj)) fun h => hcovered fun j s hs => by
        rcases j with _ | j
        · cases hs
          exact Nat.not_lt.1 hlt
        · have hle := h j s hs
          rwa [Nat.add_right_comm, Nat.add_assoc] at hle
      rw [if_neg hlt, hrest]
      rfl

end

/-! ### The selection -/

/-- The order in which candidates are paid for. -/
def Cheaper (plain : Nat → Nat) (a b : Nat) : Prop := plain a < plain b ∨ plain a = plain b ∧ a ≤ b

instance (plain : Nat → Nat) : DecidableRel (Cheaper plain) := fun _ _ => inferInstanceAs (Decidable (_ ∨ _))

/-- The eligible segments, the cheapest first. -/
def eligibleSorted (segments : List SegmentRecord) (records : List ReuseRecord) : List Nat :=
  (eligibleFrom (isFragmented segments) (live BlockRef.storedLen records) segments 0).insertionSort
    (Cheaper (live BlockRef.plainLen records))

/-- The segments a consolidation rewrites. -/
def chosen (segments : List SegmentRecord) (records : List ReuseRecord) : List Nat :=
  Greedy.select (live BlockRef.plainLen records) (eligibleSorted segments records) rewriteBudget

theorem selectCandidates_eq (plain : List Nat) (candidates : List Nat) (remaining : Nat) :
    selectCandidates plain candidates remaining =
      if ∀ i ∈ Greedy.select (fun i => plain.getD i 0) candidates remaining, i < 2 ^ 16 then
        .ok ((Greedy.select (fun i => plain.getD i 0) candidates remaining).map UInt16.ofNat)
      else fail (.invalidInput "compaction segment ordinal") := by
  induction candidates generalizing remaining with
  | nil => rfl
  | cons index rest ih =>
    unfold selectCandidates Greedy.select
    split
    · by_cases hindex : 2 ^ 16 ≤ index
      · rw [if_pos hindex, if_neg fun h => Nat.not_lt.2 hindex (h index List.mem_cons_self)]
        rfl
      · rw [if_neg hindex, ih]
        simp only [List.forall_mem_cons, Nat.not_le.1 hindex, true_and]
        split <;> rfl
    · exact ih remaining

section
variable {segments : List SegmentRecord} {records : List ReuseRecord}

theorem mem_eligibleSorted {i : Nat} : i ∈ eligibleSorted segments records ↔ Eligible segments records i := by
  unfold eligibleSorted
  rw [List.mem_insertionSort, mem_eligibleFrom]
  constructor
  · rintro ⟨j, segment, hsegment, hi, hc⟩
    rw [Nat.zero_add] at hi
    subst hi
    exact ⟨segment, hsegment, isCandidate_iff.1 hc⟩
  · rintro ⟨segment, hsegment, hc⟩
    exact ⟨i, segment, hsegment, (Nat.zero_add i).symm, isCandidate_iff.2 hc⟩

theorem eligibleSorted_nodup : (eligibleSorted segments records).Nodup :=
  (List.perm_insertionSort _ _).nodup_iff.2 (eligibleFrom_nodup _ _)

theorem eligibleSorted_pairwise :
    (eligibleSorted segments records).Pairwise (Cheaper (live BlockRef.plainLen records)) := by
  have : Std.Total (Cheaper (live BlockRef.plainLen records)) := ⟨fun a b => by unfold Cheaper; omega⟩
  have : IsTrans Nat (Cheaper (live BlockRef.plainLen records)) := ⟨fun a b c h h' => by unfold Cheaper at *; omega⟩
  exact List.pairwise_insertionSort _ _

theorem eligibleSorted_sorted : Greedy.Sorted (live BlockRef.plainLen records) (eligibleSorted segments records) :=
  eligibleSorted_pairwise.imp fun {a b} h => by
    rcases h with h | h
    · exact h.le
    · exact h.1.le

theorem chosen_longestPrefix :
    Greedy.LongestPrefix (live BlockRef.plainLen records) (eligibleSorted segments records) rewriteBudget
      (chosen segments records) := Greedy.select_longestPrefix eligibleSorted_sorted _

/-- Nothing is live in segments the release does not have. -/
theorem live_eq_zero {len : BlockRef → UInt32} (h : InRange segments records) {i : Nat} (hi : segments.length ≤ i) :
    live len records i = 0 := by
  unfold live liveBut
  refine Finset.sum_eq_zero fun key hkey => ?_
  obtain ⟨⟨r, hr, rfl⟩, -, hkey⟩ := mem_blocksOf.1 hkey
  exact absurd (h r hr) (Nat.not_lt.2 (hi.trans hkey.ge))

theorem liveTally_stored (segments : List SegmentRecord) (records : List ReuseRecord) (j : Nat) (hj : j < segments.length) :
    (liveTally segments records).stored.getD (0 + j) 0 = live BlockRef.storedLen records (0 + j) := by
  rw [Nat.zero_add]
  exact getD_live hj _

theorem liveTally_plain (h : InRange segments records) (i : Nat) :
    (liveTally segments records).plain.getD i 0 = live BlockRef.plainLen records i := by
  unfold liveTally
  rcases lt_or_ge i segments.length with hi | hi
  · exact getD_live hi _
  · rw [live_eq_zero h hi, List.getD_eq_getElem?_getD, List.getElem?_eq_none (by simpa using hi)]
    rfl

theorem compactionSegments_outOfRange (h : ¬ InRange segments records) :
    compactionSegments segments records = fail (.invalidInput "reuse segment ordinal") := by
  unfold compactionSegments
  dsimp only
  rw [tallyBlocks_zero, if_neg h]
  rfl

theorem compactionSegments_uncovered (h : InRange segments records) (hcovered : ¬ Covered segments records) :
    compactionSegments segments records = fail (.invalidInput "referenced bytes exceed segment payload") := by
  have hcov : ¬ ∀ j segment, segments[j]? = some segment →
      live BlockRef.storedLen records (0 + j) ≤ segment.payloadLen.toNat := by
    simp only [Nat.zero_add]
    exact hcovered
  unfold compactionSegments
  dsimp only
  rw [tallyBlocks_zero, if_pos h, ok_bind, compactionCandidates_uncovered (liveTally_stored _ _) hcov]
  rfl

theorem compactionSegments_eq (h : InRange segments records) (hcovered : Covered segments records) :
    compactionSegments segments records = if ∀ i ∈ chosen segments records, i < 2 ^ 16 then
        .ok ((chosen segments records).map UInt16.ofNat)
      else fail (.invalidInput "compaction segment ordinal") := by
  have hcov : ∀ j segment, segments[j]? = some segment →
      live BlockRef.storedLen records (0 + j) ≤ segment.payloadLen.toNat := by
    simp only [Nat.zero_add]
    exact hcovered
  unfold compactionSegments
  dsimp only
  rw [tallyBlocks_zero, if_pos h, ok_bind, compactionCandidates_covered (liveTally_stored _ _) hcov, ok_bind,
    selectCandidates_eq]
  simp only [liveTally_plain h]
  rfl

end

end

end Hakutaku
