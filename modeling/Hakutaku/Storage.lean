import Hakutaku.Lib.Ledger
import Hakutaku.Snapshot

/-!
# What a release stores (`storage_stats`)

The statistics are those of the segments and of the set of physical blocks referenced from them: they succeed for the lists
that can be counted (`Countable`), and neither the order of the references nor a repeated one matters.
-/

namespace Hakutaku
open Wire Ledger

/-- The physical block of a reference, and the bytes stored there. -/
def BlockRef.booking (b : BlockRef) : (UInt16 × UInt32) × UInt32 := ((b.segmentOrdinal, b.segmentBlockOrdinal), b.storedLen)

/-- The bytes stored for the references, each physical block counted once. -/
def storedBytes (blocks : List BlockRef) : Nat := total UInt32.toNat (blocks.map BlockRef.booking)

def fileBytes (segments : List SegmentRecord) : Nat := (segments.map fun r => r.fileLen.toNat).sum

def payloadBytes (segments : List SegmentRecord) : Nat := (segments.map fun r => r.payloadLen.toNat).sum

/-- Every reference names a block of a listed segment, those of one block agree on its length, and the sums fit. -/
structure Countable (segments : List SegmentRecord) (blocks : List BlockRef) : Prop where
  present : ∀ b ∈ blocks, ∃ record, segments[b.segmentOrdinal.toNat]? = some record ∧ b.segmentBlockOrdinal < record.blockCount
  agree : ∀ a ∈ blocks, ∀ b ∈ blocks, a.segmentOrdinal = b.segmentOrdinal → a.segmentBlockOrdinal = b.segmentBlockOrdinal →
    a.storedLen = b.storedLen
  retained : fileBytes segments < u64Size
  payload : payloadBytes segments < u64Size
  referenced : storedBytes blocks ≤ payloadBytes segments

variable {segments : List SegmentRecord} {blocks : List BlockRef}

theorem sumLengths_eq_ok {reason : String} {lens : List Nat} {start n : Nat} (hstart : start < u64Size) :
    sumLengths reason lens start = .ok n ↔ start + lens.sum < u64Size ∧ n = start + lens.sum := by
  induction lens generalizing start with
  | nil =>
    rw [List.sum_nil, Nat.add_zero]
    exact ⟨fun h => ⟨hstart, (Except.ok.inj h).symm⟩, fun h => congrArg Except.ok h.2.symm⟩
  | cons len rest ih =>
    rw [List.sum_cons, ← Nat.add_assoc]
    unfold sumLengths
    simp only [bind_eq_ok, okOr_eq_ok, checkedAdd_eq_some]
    constructor
    · rintro ⟨_, ⟨hlt, rfl⟩, hrest⟩
      exact (ih hlt).1 hrest
    · rintro ⟨hlt, rfl⟩
      have hfirst : start + len < u64Size := by omega
      exact ⟨_, ⟨hfirst, rfl⟩, (ih hfirst).2 ⟨hlt, rfl⟩⟩

/-- The table of the blocks walked so far grows by those that are left. -/
theorem uniqueBlocks_eq_ok (segments : List SegmentRecord) (blocks : List BlockRef) {unique : AList fun _ : UInt16 × UInt32 => UInt32} {entries : List ((UInt16 × UInt32) × UInt32)}
    (hbooks : Books unique entries) :
    (∀ table, uniqueBlocks segments blocks unique = .ok table → Books table (entries ++ blocks.map BlockRef.booking)) ∧
    ((∃ table, uniqueBlocks segments blocks unique = .ok table) ↔
      (∀ b ∈ blocks, ∃ record, segments[b.segmentOrdinal.toNat]? = some record ∧ b.segmentBlockOrdinal < record.blockCount) ∧
        Consistent (entries ++ blocks.map BlockRef.booking)) := by
  induction blocks generalizing unique entries with
  | nil =>
    rw [List.map_nil, List.append_nil]
    refine ⟨fun table h => ?_, ⟨fun _ => ⟨nofun, hbooks.consistent⟩, fun _ => ⟨unique, rfl⟩⟩⟩
    obtain rfl := Except.ok.inj h
    exact hbooks
  | cons b rest ih =>
    have hassoc : entries ++ (b :: rest).map BlockRef.booking = (entries ++ [b.booking]) ++ rest.map BlockRef.booking := by
      rw [List.map_cons, List.append_assoc]
      rfl
    rw [hassoc]
    have hstop {e : Stop PackError} (hrun : uniqueBlocks segments (b :: rest) unique = .error e)
        (hno : ¬ ((∀ b' ∈ b :: rest, ∃ record, segments[b'.segmentOrdinal.toNat]? = some record ∧
          b'.segmentBlockOrdinal < record.blockCount) ∧ Consistent ((entries ++ [b.booking]) ++ rest.map BlockRef.booking))) :
        (∀ table, uniqueBlocks segments (b :: rest) unique = .ok table →
          Books table ((entries ++ [b.booking]) ++ rest.map BlockRef.booking)) ∧
        ((∃ table, uniqueBlocks segments (b :: rest) unique = .ok table) ↔
          (∀ b' ∈ b :: rest, ∃ record, segments[b'.segmentOrdinal.toNat]? = some record ∧
            b'.segmentBlockOrdinal < record.blockCount) ∧ Consistent ((entries ++ [b.booking]) ++ rest.map BlockRef.booking)) := by
      rw [hrun]
      exact ⟨nofun, iff_of_false (fun h => nomatch h) hno⟩
    rcases hsegment : segments[b.segmentOrdinal.toNat]? with _ | record
    · refine hstop (by unfold uniqueBlocks; rw [hsegment]; rfl) fun h => ?_
      obtain ⟨record, hrecord, -⟩ := h.1 b List.mem_cons_self
      exact absurd (hsegment.symm.trans hrecord) nofun
    · by_cases hcount : record.blockCount ≤ b.segmentBlockOrdinal
      · refine hstop (by unfold uniqueBlocks; simp only [hsegment, if_pos hcount]; rfl) fun h => ?_
        obtain ⟨record', hrecord, hlt⟩ := h.1 b List.mem_cons_self
        obtain rfl := Option.some.inj (hsegment.symm.trans hrecord)
        exact absurd hcount (UInt32.not_le.2 hlt)
      · by_cases hother : (unique.lookup (b.segmentOrdinal, b.segmentBlockOrdinal)).any (· ≠ b.storedLen) = true
        · refine hstop (by unfold uniqueBlocks; simp only [hsegment, if_neg hcount, if_pos hother]; rfl) fun h => ?_
          obtain ⟨len, hlen, hne⟩ := (Option.any_eq_true_iff_get _ _).1 hother |>.elim fun hsome hget =>
            (⟨_, (Option.some_get hsome).symm, of_decide_eq_true hget⟩ : ∃ len, unique.lookup _ = some len ∧ len ≠ b.storedLen)
          exact hbooks.inconsistent hlen hne (h.2.of_subset (List.subset_append_left _ _))
        · have hstep : uniqueBlocks segments (b :: rest) unique = uniqueBlocks segments rest
              (unique.insert (b.segmentOrdinal, b.segmentBlockOrdinal) b.storedLen) := by
            rw [uniqueBlocks]
            simp only [hsegment, if_neg hcount, if_neg hother]
          have hsame : ∀ len, unique.lookup (b.segmentOrdinal, b.segmentBlockOrdinal) = some len → len = b.storedLen := by
            intro len hlen
            by_contra hne
            refine hother ?_
            rw [hlen]
            exact decide_eq_true hne
          obtain ⟨htable, hiff⟩ := ih (hbooks.insert hsame)
          rw [hstep]
          refine ⟨htable, hiff.trans (and_congr_left fun _ => ?_)⟩
          rw [List.forall_mem_cons]
          exact (and_iff_right ⟨record, hsegment, UInt32.not_le.1 hcount⟩).symm

theorem consistent_booking : Consistent (blocks.map BlockRef.booking) ↔
    ∀ a ∈ blocks, ∀ b ∈ blocks, a.segmentOrdinal = b.segmentOrdinal → a.segmentBlockOrdinal = b.segmentBlockOrdinal →
      a.storedLen = b.storedLen := by
  constructor
  · intro h a ha b hb hsegment hblock
    exact h _ (List.mem_map_of_mem ha) _ (List.mem_map_of_mem hb) (Prod.ext hsegment hblock)
  · rintro h _ hx _ hy heq
    obtain ⟨a, ha, rfl⟩ := List.mem_map.1 hx
    obtain ⟨b, hb, rfl⟩ := List.mem_map.1 hy
    exact h a ha b hb (Prod.mk.inj heq).1 (Prod.mk.inj heq).2

/-- The statistics of the lists that can be counted. -/
theorem storageStats_eq_ok {storage : StorageStats} :
    storageStats segments blocks = .ok storage ↔ Countable segments blocks ∧
      storage = ⟨UInt64.ofNat (fileBytes segments), UInt64.ofNat (storedBytes blocks),
        UInt64.ofNat (payloadBytes segments - storedBytes blocks)⟩ := by
  have hzero : 0 < u64Size := by decide
  obtain ⟨htable, hiff⟩ := uniqueBlocks_eq_ok segments blocks Books.empty
  unfold storageStats
  simp only [bind_eq_ok, sumLengths_eq_ok hzero, Nat.zero_add, ite_fail_bind_eq_ok, pure_eq_ok,
    Except.ok.injEq]
  constructor
  · rintro ⟨_, ⟨hretained, rfl⟩, _, ⟨hpayload, rfl⟩, table, hunique, _, ⟨-, rfl⟩, hle, rfl⟩
    obtain ⟨hpresent, hconsistent⟩ := hiff.1 ⟨table, hunique⟩
    have htotal : (table.entries.map fun x => x.2.toNat).sum = storedBytes blocks := (htable table hunique).total_eq
    rw [htotal] at hle ⊢
    exact ⟨⟨hpresent, consistent_booking.1 hconsistent, hretained, hpayload, Nat.not_lt.1 hle⟩, rfl⟩
  · rintro ⟨hcount, rfl⟩
    obtain ⟨table, hunique⟩ := hiff.2 ⟨hcount.present, consistent_booking.2 hcount.agree⟩
    have htotal : (table.entries.map fun x => x.2.toNat).sum = storedBytes blocks := (htable table hunique).total_eq
    refine ⟨_, ⟨hcount.retained, rfl⟩, _, ⟨hcount.payload, rfl⟩, table, hunique, _, ⟨?_, rfl⟩, ?_, ?_⟩
    · rw [htotal]
      exact hcount.referenced.trans_lt hcount.payload
    · rw [htotal]
      exact Nat.not_lt.2 hcount.referenced
    · rw [htotal]
      rfl

/-! ### Bytes of one segment -/

/-- The bytes stored for the references to the segment at an ordinal. -/
def storedOn (blocks : List BlockRef) (k : Nat) : Nat := storedBytes (blocks.filter fun r => r.segmentOrdinal.toNat = k)

theorem storedBytes_eq_sum {n : Nat} (h : ∀ r ∈ blocks, r.segmentOrdinal.toNat < n) :
    storedBytes blocks = ∑ k ∈ Finset.range n, storedOn blocks k := by
  have howner : ∀ x ∈ blocks.map BlockRef.booking, x.1.1.toNat < n := by
    intro x hx
    obtain ⟨r, hr, rfl⟩ := List.mem_map.1 hx
    exact h r hr
  refine (total_eq_sum (fun key : UInt16 × UInt32 => key.1.toNat) howner).trans ?_
  refine Finset.sum_congr rfl fun k _ => ?_
  rw [List.filter_map]
  rfl

/-- The statistics of a list of references are those of every other list that references the same blocks. -/
theorem Countable.congr {blocks' : List BlockRef} (h : Countable segments blocks)
    (hsame : ∀ x, x ∈ blocks.map BlockRef.booking ↔ x ∈ blocks'.map BlockRef.booking) : Countable segments blocks' := by
  have hfrom : ∀ b' ∈ blocks', ∃ b ∈ blocks, b.booking = b'.booking := by
    intro b' hb'
    exact List.mem_map.1 ((hsame _).2 (List.mem_map_of_mem hb'))
  refine ⟨fun b' hb' => ?_, ?_, h.retained, h.payload, ?_⟩
  · obtain ⟨b, hb, heq⟩ := hfrom b' hb'
    obtain ⟨hkey, -⟩ := Prod.mk.inj heq
    obtain ⟨hsegment, hblock⟩ := Prod.mk.inj hkey
    obtain ⟨record, hrecord, hlt⟩ := h.present b hb
    exact ⟨record, hsegment ▸ hrecord, hblock ▸ hlt⟩
  · exact consistent_booking.1 ((consistent_booking.2 h.agree).of_subset fun x hx => (hsame x).2 hx)
  · exact (total_congr hsame).symm.trans_le h.referenced

end Hakutaku
