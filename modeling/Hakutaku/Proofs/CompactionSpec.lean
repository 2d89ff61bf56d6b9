import Hakutaku.Compaction

/-!
# What `compaction_segments` selects

It fails exactly on bad references, on overfull segments and on ordinals past 16 bits, and selects the longest prefix of
the eligible segments, the cheapest first, that the budget pays for. No other selection within the budget is larger,
and only the physical blocks of the records count.
-/

namespace Hakutaku

/-- The same physical blocks with the same lengths, whatever the order and the repetitions. -/
def SameBlocks (records records' : List ReuseRecord) : Prop :=
  (∀ key, (∃ r ∈ records, r.key = key) ↔ ∃ r ∈ records', r.key = key) ∧
    ∀ r ∈ records, ∀ r' ∈ records', r.key = r'.key →
      r.block.storedLen = r'.block.storedLen ∧ r.block.plainLen = r'.block.plainLen

section
variable {segments : List SegmentRecord} {records records' : List ReuseRecord}

theorem SameBlocks.live_stored (h : SameBlocks records records') :
    live BlockRef.storedLen records = live BlockRef.storedLen records' :=
  funext (live_congr (fun r hr r' hr' hkey => (h.2 r hr r' hr' hkey).1) h.1)

theorem SameBlocks.live_plain (h : SameBlocks records records') :
    live BlockRef.plainLen records = live BlockRef.plainLen records' :=
  funext (live_congr (fun r hr r' hr' hkey => (h.2 r hr r' hr' hkey).2) h.1)

theorem SameBlocks.inRange (h : SameBlocks records records') : InRange segments records ↔ InRange segments records' := by
  constructor
  · intro hrange r' hr'
    obtain ⟨r, hr, hkey⟩ := (h.1 r'.key).2 ⟨r', hr', rfl⟩
    have hord : r.block.segmentOrdinal = r'.block.segmentOrdinal := congrArg Prod.fst hkey
    exact hord ▸ hrange r hr
  · intro hrange r hr
    obtain ⟨r', hr', hkey⟩ := (h.1 r.key).1 ⟨r, hr, rfl⟩
    have hord : r'.block.segmentOrdinal = r.block.segmentOrdinal := congrArg Prod.fst hkey
    exact hord ▸ hrange r' hr'

theorem SameBlocks.compactionSegments (h : SameBlocks records records') :
    compactionSegments segments records' = Hakutaku.compactionSegments segments records := by
  by_cases hrange : InRange segments records
  · have hcov : Covered segments records ↔ Covered segments records' := by
      unfold Covered
      rw [h.live_stored]
    by_cases hcovered : Covered segments records
    · have hchosen : chosen segments records' = chosen segments records := by
        unfold chosen eligibleSorted
        simp only [h.live_plain, h.live_stored]
      rw [compactionSegments_eq hrange hcovered, compactionSegments_eq (h.inRange.1 hrange) (hcov.1 hcovered), hchosen]
    · rw [compactionSegments_uncovered hrange hcovered,
        compactionSegments_uncovered (h.inRange.1 hrange) fun h' => hcovered (hcov.2 h')]
  · rw [compactionSegments_outOfRange hrange, compactionSegments_outOfRange fun h' => hrange (h.inRange.2 h')]

/-- A failure names one of the three reasons. -/
theorem compactionSegments_fails : (∃ stop, compactionSegments segments records = .error stop) ↔
    (∃ r ∈ records, segments.length ≤ r.block.segmentOrdinal.toNat) ∨
      (∃ (i : Nat) (segment : SegmentRecord), segments[i]? = some segment ∧
        segment.payloadLen.toNat < live BlockRef.storedLen records i) ∨
      ∃ i ∈ chosen segments records, 2 ^ 16 ≤ i := by
  have hrange : (∃ r ∈ records, segments.length ≤ r.block.segmentOrdinal.toNat) ↔ ¬ InRange segments records := by
    unfold InRange
    push Not
    rfl
  have hcovered : (∃ (i : Nat) (segment : SegmentRecord), segments[i]? = some segment ∧
      segment.payloadLen.toNat < live BlockRef.storedLen records i) ↔ ¬ Covered segments records := by
    unfold Covered
    push Not
    rfl
  rw [hrange, hcovered]
  by_cases h : InRange segments records
  · by_cases h' : Covered segments records
    · rw [compactionSegments_eq h h']
      by_cases hall : ∀ i ∈ chosen segments records, i < 2 ^ 16
      · rw [if_pos hall]
        constructor
        · rintro ⟨_, hstop⟩
          cases hstop
        · rintro (hnot | hnot | ⟨i, hi, hle⟩)
          · exact absurd h hnot
          · exact absurd h' hnot
          · exact absurd (hall i hi) (Nat.not_lt.2 hle)
      · rw [if_neg hall]
        push Not at hall
        exact ⟨fun _ => .inr (.inr hall), fun _ => ⟨_, rfl⟩⟩
    · rw [compactionSegments_uncovered h h']
      exact ⟨fun _ => .inr (.inl h'), fun _ => ⟨_, rfl⟩⟩
  · rw [compactionSegments_outOfRange h]
    exact ⟨fun _ => .inl h, fun _ => ⟨_, rfl⟩⟩

theorem compactionSegments_ok {selected : List UInt16} (h : compactionSegments segments records = .ok selected) :
    selected.map UInt16.toNat = chosen segments records := by
  have hno : ¬ ∃ stop, compactionSegments segments records = .error stop := by
    rintro ⟨stop, hstop⟩
    rw [hstop] at h
    cases h
  rw [compactionSegments_fails, not_or, not_or] at hno
  obtain ⟨hrange, hcovered, hall⟩ := hno
  push Not at hrange hcovered hall
  rw [compactionSegments_eq hrange hcovered, if_pos hall] at h
  cases h
  rw [List.map_map]
  refine (List.map_congr_left fun i hi => ?_).trans (List.map_id _)
  exact UInt16.toNat_ofNat_of_lt' (hall i hi)

end

theorem compaction_spec (segments : List SegmentRecord) (records : List ReuseRecord) :
    ∃ ordered selection : List Nat,
      (∀ i, i ∈ ordered ↔ Eligible segments records i) ∧ ordered.Nodup ∧
      ordered.Pairwise (Cheaper (live BlockRef.plainLen records)) ∧
      Greedy.LongestPrefix (live BlockRef.plainLen records) ordered (64 * 1024 * 1024) selection ∧
      ((∃ stop, compactionSegments segments records = .error stop) ↔
        (∃ r ∈ records, segments.length ≤ r.block.segmentOrdinal.toNat) ∨
          (∃ (i : Nat) (segment : SegmentRecord), segments[i]? = some segment ∧
            segment.payloadLen.toNat < live BlockRef.storedLen records i) ∨
          ∃ i ∈ selection, 2 ^ 16 ≤ i) ∧
      (∀ stop, compactionSegments segments records = .error stop → ∃ reason, stop = .err (.invalidInput reason)) ∧
      (∀ selected, compactionSegments segments records = .ok selected → selected.map UInt16.toNat = selection) ∧
      Greedy.total (live BlockRef.plainLen records) selection ≤ 64 * 1024 * 1024 ∧
      (∀ set : Finset Nat, (∀ i ∈ set, Eligible segments records i) →
        ∑ i ∈ set, live BlockRef.plainLen records i ≤ 64 * 1024 * 1024 → set.card ≤ selection.length) ∧
      ∀ records', SameBlocks records records' → compactionSegments segments records' = compactionSegments segments records := by
  refine ⟨eligibleSorted segments records, chosen segments records, fun i => mem_eligibleSorted, eligibleSorted_nodup,
    eligibleSorted_pairwise, chosen_longestPrefix, compactionSegments_fails, ?_, fun _ => compactionSegments_ok,
    chosen_longestPrefix.fits, ?_, fun _ h => h.compactionSegments⟩
  · intro stop hstop
    by_cases h : InRange segments records
    · by_cases h' : Covered segments records
      · rw [compactionSegments_eq h h'] at hstop
        split at hstop
        · cases hstop
        · cases hstop
          exact ⟨_, rfl⟩
      · rw [compactionSegments_uncovered h h'] at hstop
        cases hstop
        exact ⟨_, rfl⟩
    · rw [compactionSegments_outOfRange h] at hstop
      cases hstop
      exact ⟨_, rfl⟩
  · intro set hset hfits
    exact chosen_longestPrefix.card_le eligibleSorted_sorted eligibleSorted_nodup
      (fun i hi => mem_eligibleSorted.2 (hset i hi)) hfits

/-- A segment with nothing in it. -/
def emptySegment : SegmentRecord where
  id := ⟨.replicate 32 1⟩
  uid := .replicate 16 1
  salt := .replicate 16 1
  noncePrefix := .replicate 8 1
  fileLen := 128
  payloadLen := 0
  blockCount := 0
  availability := .required

/-- The last of 65537 empty segments has no 16-bit ordinal. -/
theorem compaction_wideOrdinal :
    ¬ ((∃ stop, compactionSegments (.replicate 65537 emptySegment) [] = .error stop) ↔
      (∃ r ∈ ([] : List ReuseRecord), (List.replicate 65537 emptySegment).length ≤ r.block.segmentOrdinal.toNat) ∨
        ∃ (i : Nat) (segment : SegmentRecord), (List.replicate 65537 emptySegment)[i]? = some segment ∧
          segment.payloadLen.toNat < live BlockRef.storedLen [] i) := by
  have hzero (len : BlockRef → UInt32) (i : Nat) : live len [] i = 0 := liveBut_nil i
  have hmem : 65536 ∈ eligibleSorted (.replicate 65537 emptySegment) [] := by
    refine mem_eligibleSorted.2 ⟨emptySegment, List.getElem?_replicate_of_lt (by decide), .inl ⟨?_, by decide⟩⟩
    rw [List.countP_replicate, if_pos (by decide)]
    decide
  have hall : 65536 ∈ chosen (.replicate 65537 emptySegment) [] := by
    obtain ⟨k, hk, -, hmax⟩ := @chosen_longestPrefix (.replicate 65537 emptySegment) []
    rw [hk]
    by_cases hlen : (eligibleSorted (.replicate 65537 emptySegment) []).length ≤ k
    · rw [List.take_of_length_le hlen]
      exact hmem
    · have hover := hmax _ (Nat.not_le.1 hlen) (le_refl _)
      rw [Greedy.total, List.sum_eq_zero] at hover
      · cases hover
      · intro x hx
        obtain ⟨i, -, rfl⟩ := List.mem_map.1 hx
        exact hzero _ i
  intro h
  rcases h.1 (compactionSegments_fails.2 (.inr (.inr ⟨65536, hall, le_refl _⟩))) with ⟨r, hr, -⟩ | ⟨i, segment, -, hlt⟩
  · cases hr
  · rw [hzero] at hlt
    cases hlt

end Hakutaku
