import Hakutaku.Base
import Mathlib.Data.List.AList

/-!
# The CLOCK cache (`cache.rs`)

A byte-budgeted cache with second-chance eviction. `Rep` is its representation invariant: the index
maps exactly the keys of the occupied slots to their slots, and the byte count is exact. What a reader
relies on is `Has`: a hit returns a value that was inserted under that key.
-/

namespace Hakutaku

structure Entry (K : Type) where
  key : K
  value : Bytes
  referenced : Bool

/-- Bytes held by a slot. -/
def slotBytes {K : Type} (slot : Option (Entry K)) : Nat := slot.elim 0 fun e => e.value.length

structure ClockCache (K : Type) where
  budget : Nat
  used : Nat
  hand : Nat
  entries : List (Option (Entry K))
  index : AList fun _ : K => Nat
  /-- A stack; its top is the head. -/
  vacant : List Nat

namespace ClockCache
variable {K : Type} [DecidableEq K]

omit [DecidableEq K] in
def new (budget : Nat) : ClockCache K where
  budget := budget
  used := 0
  hand := 0
  entries := []
  index := ∅
  vacant := []

def get (c : ClockCache K) (key : K) : Option Bytes × ClockCache K :=
  match c.index.lookup key with
  | none => (none, c)
  | some i =>
    match c.entries[i]? with
    | some (some entry) =>
      (some entry.value, { c with entries := c.entries.set i (some { entry with referenced := true }) })
    | _ => (none, c)

omit [DecidableEq K] in
/-- The slot under the hand. -/
def slot (c : ClockCache K) : Nat := c.hand % c.entries.length

omit [DecidableEq K] in
/-- The hand one slot further. -/
def nextHand (c : ClockCache K) : Nat := (c.slot + 1) % c.entries.length

/-- The scan of `evict_one` with `left` probes to go. -/
def evictScan : Nat → ClockCache K → Option Nat × ClockCache K
  | 0, c => (none, c)
  | left + 1, c =>
    match c.entries[c.slot]? with
    | some (some entry) =>
      if entry.referenced then
        evictScan left
          { c with entries := c.entries.set c.slot (some { entry with referenced := false }), hand := c.nextHand }
      else
        (some c.slot, { c with
          entries := c.entries.set c.slot none
          used := c.used - entry.value.length
          index := c.index.erase entry.key
          hand := c.nextHand })
    | _ => evictScan left { c with hand := c.nextHand }

/-- Evicts one live entry and returns its vacant slot. -/
def evictOne (c : ClockCache K) : Option Nat × ClockCache K :=
  if c.index.keys = [] ∨ c.entries = [] then (none, c)
  else evictScan (max (c.entries.length * 2) 1) c

/-- The eviction loop of `insert`: whether `len` more bytes fit in the end. Every round empties an
occupied slot, so there are at most `left` rounds when `left` is above the number of these. The sum
of lengths is not saturated: the values are in memory together. -/
def makeRoom : Nat → Nat → ClockCache K → Bool × ClockCache K
  | 0, _, c => (false, c)
  | left + 1, len, c =>
    if c.budget < c.used + len then
      match c.evictOne with
      | (none, c) => (false, c)
      | (some slot, c) => makeRoom left len { c with vacant := slot :: c.vacant }
    else (true, c)

/-- `vacant.pop()`, or a new slot. -/
def takeSlot (c : ClockCache K) : Nat × ClockCache K :=
  match c.vacant with
  | slot :: rest => (slot, { c with vacant := rest })
  | [] => (c.entries.length, { c with entries := c.entries ++ [none] })

def insert (c : ClockCache K) (key : K) (value : Bytes) : ClockCache K :=
  if c.budget = 0 ∨ c.budget < value.length ∨ (c.index.lookup key).isSome then c
  else
    match c.makeRoom (c.entries.countP Option.isSome + 1) value.length with
    | (false, c) => c
    | (true, c) =>
      let (slot, c) := c.takeSlot
      { c with
        used := c.used + value.length
        index := c.index.insert key slot
        entries := c.entries.set slot (some ⟨key, value, true⟩) }

omit [DecidableEq K] in
def clear (c : ClockCache K) : ClockCache K :=
  { c with used := 0, hand := 0, entries := [], index := ∅, vacant := [] }

/-! ### The representation invariant -/

/-- The index and the byte count describe the slots, and `empty` lists the empty ones. -/
structure Rep (c : ClockCache K) (empty : List Nat) : Prop where
  indexed : ∀ k i, c.index.lookup k = some i ↔ ∃ e : Entry K, c.entries[i]? = some (some e) ∧ e.key = k
  empties : ∀ i, i ∈ empty ↔ c.entries[i]? = some none
  nodup : empty.Nodup
  used : c.used = (c.entries.map slotBytes).sum
  budget : c.used ≤ c.budget

/-- The cache between two calls. -/
def Ok (c : ClockCache K) : Prop := c.Rep c.vacant

/-- The cache would answer `key` with `value`. -/
def Has (c : ClockCache K) (key : K) (value : Bytes) : Prop :=
  ∃ (i : Nat) (e : Entry K), c.entries[i]? = some (some e) ∧ e.key = key ∧ e.value = value

variable {c : ClockCache K} {empty : List Nat} {i : Nat} {e x : Entry K} {k : K} {v : Bytes}

theorem Ok.new (budget : Nat) : (new budget : ClockCache K).Ok where
  indexed k i := by simp [ClockCache.new]
  empties i := by simp [ClockCache.new]
  nodup := List.nodup_nil
  used := rfl
  budget := Nat.zero_le _

theorem Ok.clear (c : ClockCache K) : c.clear.Ok where
  indexed k i := by simp [ClockCache.clear]
  empties i := by simp [ClockCache.clear]
  nodup := List.nodup_nil
  used := rfl
  budget := Nat.zero_le _

omit [DecidableEq K] in
@[simp] theorem not_has_clear : ¬ c.clear.Has k v := by simp [Has, clear]

omit [DecidableEq K] in
@[simp] theorem not_has_new (budget : Nat) : ¬ (new budget : ClockCache K).Has k v := by simp [Has, new]

omit [DecidableEq K] in
/-- An occupied slot may be rewritten with the same key and value. -/
theorem getElem?_set_entry (hi : c.entries[i]? = some (some e)) (hk : x.key = e.key) (hv : x.value = e.value)
    (P : K → Bytes → Prop) (j : Nat) :
    (∃ y, (c.entries.set i (some x))[j]? = some (some y) ∧ P y.key y.value) ↔
      ∃ y, c.entries[j]? = some (some y) ∧ P y.key y.value := by
  rw [List.getElem?_set]
  split_ifs with hij hlt
  · subst hij
    simp only [hi, Option.some.injEq, exists_eq_left', hk, hv]
  · subst hij
    rw [List.getElem?_eq_none (Nat.not_lt.1 hlt)] at hi
    cases hi
  · rfl

omit [DecidableEq K] in
theorem sum_slotBytes_set (hi : i < c.entries.length) (slot : Option (Entry K)) :
    ((c.entries.set i slot).map slotBytes).sum + slotBytes c.entries[i] =
      (c.entries.map slotBytes).sum + slotBytes slot := by
  conv_rhs => rw [← List.set_getElem_self hi]
  simp only [List.map_set]
  rw [List.sum_set, List.sum_set, if_pos (by simpa), if_pos (by simpa)]
  omega

/-- Changing a reference bit keeps the representation. -/
theorem Rep.touch (h : c.Rep empty) (hi : c.entries[i]? = some (some e)) (hk : x.key = e.key) (hv : x.value = e.value)
    (hand : Nat) : ({ c with entries := c.entries.set i (some x), hand := hand } : ClockCache K).Rep empty where
  indexed k j := by
    rw [h.indexed, ← getElem?_set_entry hi hk hv fun k' _ => k' = k]
  empties j := by
    rw [h.empties, List.getElem?_set]
    split_ifs with hij hlt
    · subst hij; simp [hi]
    · subst hij
      rw [List.getElem?_eq_none (Nat.not_lt.1 hlt)] at hi
      cases hi
    · rfl
  nodup := h.nodup
  used := by
    obtain ⟨hlt, hget⟩ := List.getElem?_eq_some_iff.1 hi
    have hsum := sum_slotBytes_set hlt (some x)
    simp only [hget, slotBytes, Option.elim, hv, add_left_inj] at hsum
    exact h.used.trans hsum.symm
  budget := h.budget

omit [DecidableEq K] in
theorem has_touch (hi : c.entries[i]? = some (some e)) (hk : x.key = e.key) (hv : x.value = e.value) (hand : Nat) :
    ({ c with entries := c.entries.set i (some x), hand := hand } : ClockCache K).Has k v ↔ c.Has k v :=
  exists_congr fun j => getElem?_set_entry hi hk hv (fun k' v' => k' = k ∧ v' = v) j

/-! ### The operations -/

theorem Ok.get (h : c.Ok) (k : K) : (c.get k).2.Ok := by
  unfold ClockCache.get
  split
  · exact h
  · split
    · rename_i entry hentry
      exact Rep.touch h (x := { entry with referenced := true }) hentry rfl rfl c.hand
    · exact h

theorem has_get {k' : K} : (c.get k').2.Has k v ↔ c.Has k v := by
  unfold ClockCache.get
  split
  · rfl
  · split
    · rename_i entry hentry
      exact has_touch (x := { entry with referenced := true }) hentry rfl rfl c.hand
    · rfl

/-- A hit returns a value held under the key. -/
theorem Ok.has_of_get (h : c.Ok) (hget : (c.get k).1 = some v) : c.Has k v := by
  unfold ClockCache.get at hget
  split at hget
  · cases hget
  · rename_i i hi
    obtain ⟨e, he, hk⟩ := (h.indexed k i).1 hi
    simp only [he, Option.some.injEq] at hget
    exact ⟨i, e, he, hk, hget⟩

/-- A key has at most one value. -/
theorem Ok.has_unique {v' : Bytes} (h : c.Ok) (hv : c.Has k v) (hv' : c.Has k v') : v = v' := by
  obtain ⟨i, e, hi, hk, rfl⟩ := hv
  obtain ⟨j, e', hj, hk', rfl⟩ := hv'
  have hij : some i = some j := by
    rw [← (h.indexed k i).2 ⟨e, hi, hk⟩, ← (h.indexed k j).2 ⟨e', hj, hk'⟩]
  obtain rfl := Option.some.inj hij
  rw [hi] at hj
  obtain rfl : e = e' := by simpa using hj
  rfl

theorem Ok.not_has_of_lookup (h : c.Ok) (hk : c.index.lookup k = none) : ¬ c.Has k v := by
  rintro ⟨i, e, hi, hkey, -⟩
  rw [(h.indexed k i).2 ⟨e, hi, hkey⟩] at hk
  cases hk

theorem Ok.lookup_eq_none (h : c.Ok) (hk : ∀ v, ¬ c.Has k v) : c.index.lookup k = none := by
  rcases hl : c.index.lookup k with _ | i
  · rfl
  · obtain ⟨e, hi, hkey⟩ := (h.indexed k i).1 hl
    exact absurd ⟨i, e, hi, hkey, rfl⟩ (hk e.value)

/-- Emptying a slot. -/
theorem Rep.evict (h : c.Rep empty) (hi : c.entries[i]? = some (some e)) (hand : Nat) :
    ({ c with entries := c.entries.set i none, used := c.used - e.value.length, index := c.index.erase e.key,
              hand := hand } : ClockCache K).Rep (i :: empty) where
  indexed k j := by
    have hei := (h.indexed e.key i).2 ⟨e, hi, rfl⟩
    have hlt := (List.getElem?_eq_some_iff.1 hi).1
    show AList.lookup k (c.index.erase e.key) = some j ↔ ∃ x, (c.entries.set i none)[j]? = some (some x) ∧ x.key = k
    rcases eq_or_ne k e.key with rfl | hk
    · rw [AList.lookup_erase]
      simp only [reduceCtorEq, false_iff, not_exists, not_and]
      intro x hx hkey
      rw [List.getElem?_set] at hx
      split_ifs at hx with hij
      · cases hx
      · have hej := (h.indexed e.key j).2 ⟨x, hx, hkey⟩
        rw [hei] at hej
        exact hij (Option.some.inj hej)
    · rw [AList.lookup_erase_ne hk, h.indexed, List.getElem?_set]
      split_ifs with hij
      · subst hij
        simp only [hi, reduceCtorEq, false_and, exists_false, iff_false, not_exists, not_and, Option.some.injEq]
        rintro x rfl hkey
        exact hk hkey.symm
      · rfl
  empties j := by
    have hlt := (List.getElem?_eq_some_iff.1 hi).1
    rw [List.mem_cons, h.empties, List.getElem?_set]
    split_ifs with hij
    · simp [hij]
    · simp [Ne.symm hij]
  nodup := by
    refine List.nodup_cons.2 ⟨fun hmem => ?_, h.nodup⟩
    rw [(h.empties i).1 hmem] at hi
    cases hi
  used := by
    obtain ⟨hlt, hget⟩ := List.getElem?_eq_some_iff.1 hi
    have hsum := sum_slotBytes_set hlt none
    simp only [hget, slotBytes, Option.elim] at hsum
    refine Nat.sub_eq_of_eq_add ?_
    rw [h.used]
    exact hsum.symm
  budget := (Nat.sub_le _ _).trans h.budget

omit [DecidableEq K] in
/-- Emptying a slot adds no answer. -/
theorem has_of_evict {used : Nat} {index : AList fun _ : K => Nat} {hand : Nat}
    (h : ({ c with entries := c.entries.set i none, used := used, index := index, hand := hand } : ClockCache K).Has k v) :
    c.Has k v := by
  obtain ⟨j, x, hx, hk⟩ := h
  simp only [List.getElem?_set] at hx
  split_ifs at hx
  · cases hx
  · exact ⟨j, x, hx, hk⟩

/-- What the scan keeps: the representation, the vacant stack, the budget, and no new answers. -/
theorem Rep.evictScan (left : Nat) (h : c.Rep empty) :
    (c.evictScan left).2.Rep ((c.evictScan left).1.toList ++ empty) ∧ (c.evictScan left).2.vacant = c.vacant ∧
      (c.evictScan left).2.budget = c.budget ∧ ∀ k v, (c.evictScan left).2.Has k v → c.Has k v := by
  induction left generalizing c with
  | zero => exact ⟨h, rfl, rfl, fun _ _ hv => hv⟩
  | succ left ih =>
    unfold ClockCache.evictScan
    split
    · rename_i entry hentry
      split
      · obtain ⟨hrep, hvac, hbud, hhas⟩ := ih (h.touch (x := { entry with referenced := false }) hentry rfl rfl
          c.nextHand)
        exact ⟨hrep, hvac, hbud, fun k v hv => (has_touch (x := { entry with referenced := false }) hentry rfl rfl _).1 (hhas k v hv)⟩
      · exact ⟨h.evict hentry _, rfl, rfl, fun k v hv => has_of_evict hv⟩
    · exact ih (c := { c with hand := c.nextHand })
        ⟨h.indexed, h.empties, h.nodup, h.used, h.budget⟩

theorem Rep.evictOne (h : c.Rep empty) :
    c.evictOne.2.Rep (c.evictOne.1.toList ++ empty) ∧ c.evictOne.2.vacant = c.vacant ∧
      c.evictOne.2.budget = c.budget ∧ ∀ k v, c.evictOne.2.Has k v → c.Has k v := by
  unfold ClockCache.evictOne
  split
  · exact ⟨h, rfl, rfl, fun _ _ hv => hv⟩
  · exact h.evictScan _

theorem Ok.makeRoom (left len : Nat) (h : c.Ok) :
    (c.makeRoom left len).2.Ok ∧ (c.makeRoom left len).2.budget = c.budget ∧
      ((c.makeRoom left len).1 = true → (c.makeRoom left len).2.used + len ≤ c.budget) ∧
      ∀ k v, (c.makeRoom left len).2.Has k v → c.Has k v := by
  induction left generalizing c with
  | zero => exact ⟨h, rfl, nofun, fun _ _ hv => hv⟩
  | succ left ih =>
    unfold ClockCache.makeRoom
    have hevict := Rep.evictOne h
    split
    · split
      · rename_i c' heq
        rw [heq] at hevict
        obtain ⟨hrep, hvac, hbud, hhas⟩ := hevict
        exact ⟨by rw [Ok, hvac]; exact hrep, hbud, nofun, hhas⟩
      · rename_i slot c' heq
        rw [heq] at hevict
        obtain ⟨hrep, hvac, hbud, hhas⟩ := hevict
        have hok : ({ c' with vacant := slot :: c'.vacant } : ClockCache K).Ok := by
          simp only [Option.toList, List.singleton_append, ← hvac] at hrep
          exact ⟨hrep.indexed, hrep.empties, hrep.nodup, hrep.used, hrep.budget⟩
        obtain ⟨hok', hbud', hfits, hhas'⟩ := ih hok
        exact ⟨hok', hbud'.trans hbud, fun hf => (hfits hf).trans_eq hbud, fun k v hv => hhas k v (hhas' k v hv)⟩
    · exact ⟨h, rfl, fun _ => by dsimp only; omega, fun _ _ hv => hv⟩

/-- The slot an insertion uses is empty and no longer listed as vacant. -/
theorem Ok.takeSlot (h : c.Ok) :
    c.takeSlot.2.Rep (c.takeSlot.1 :: c.takeSlot.2.vacant) ∧ c.takeSlot.2.index = c.index ∧
      c.takeSlot.2.used = c.used ∧ c.takeSlot.2.budget = c.budget ∧ ∀ k v, c.takeSlot.2.Has k v → c.Has k v := by
  unfold ClockCache.takeSlot
  split
  · rename_i slot rest hvac
    rw [Ok, hvac] at h
    exact ⟨⟨h.indexed, h.empties, h.nodup, h.used, h.budget⟩, rfl, rfl, rfl, fun _ _ hv => hv⟩
  · rename_i hvac
    rw [Ok, hvac] at h
    have hget : ∀ (j : Nat) (x : Entry K), (c.entries ++ [none])[j]? = some (some x) ↔ c.entries[j]? = some (some x) := by
      intro j x
      rw [List.getElem?_append]
      split_ifs with hj
      · rfl
      · rw [List.getElem?_eq_none (Nat.not_lt.1 hj)]
        rcases Nat.lt_or_ge (j - c.entries.length) 1 with hz | hz
        · simp [Nat.lt_one_iff.1 hz]
        · simp [List.getElem?_eq_none (l := [(none : Option (Entry K))]) (i := j - c.entries.length) hz]
    refine ⟨⟨fun k j => ?_, fun j => ?_, ?_, ?_, h.budget⟩, rfl, rfl, rfl, ?_⟩
    · simp only [hget]; exact h.indexed k j
    · have hnone : ¬ c.entries[j]? = some none := fun hj => List.not_mem_nil ((h.empties j).2 hj)
      rw [hvac, List.mem_singleton, List.getElem?_append]
      split_ifs with hj
      · simp [hnone, hj.ne]
      · constructor
        · rintro rfl; simp
        · intro heq
          have := (List.getElem?_eq_some_iff.1 heq).1
          simp only [List.length_singleton] at this
          omega
    · rw [hvac]; exact List.nodup_singleton _
    · show c.used = _
      rw [List.map_append, List.sum_append, h.used]
      rfl
    · rintro k v ⟨j, x, hx, hk⟩
      exact ⟨j, x, (hget j x).1 hx, hk⟩

/-- Filling an empty slot under a key that is not indexed. -/
theorem Rep.fill (h : c.Rep (i :: empty)) (hk : c.index.lookup k = none) (hfits : c.used + v.length ≤ c.budget) :
    ({ c with used := c.used + v.length, index := c.index.insert k i,
              entries := c.entries.set i (some ⟨k, v, true⟩) } : ClockCache K).Rep empty := by
  have hi : c.entries[i]? = some none := (h.empties i).1 List.mem_cons_self
  obtain ⟨hlt, hget⟩ := List.getElem?_eq_some_iff.1 hi
  have hnotin : i ∉ empty := (List.nodup_cons.1 h.nodup).1
  refine ⟨fun k' j => ?_, fun j => ?_, (List.nodup_cons.1 h.nodup).2, ?_, hfits⟩
  · rcases eq_or_ne k' k with rfl | hne
    · rw [AList.lookup_insert, List.getElem?_set]
      split_ifs with hij
      · simp [hij]
      · simp only [Option.some.injEq, hij, false_iff, not_exists, not_and]
        intro x hx hkey
        rw [(h.indexed k' j).2 ⟨x, hx, hkey⟩] at hk
        cases hk
    · rw [AList.lookup_insert_ne hne, h.indexed, List.getElem?_set]
      split_ifs with hij
      · subst hij
        simp [hi, Ne.symm hne]
      · rfl
  · have hiff := h.empties j
    rw [List.mem_cons] at hiff
    rw [List.getElem?_set]
    split_ifs with hij
    · subst hij; simp [hnotin]
    · rw [← hiff]; simp [Ne.symm hij]
  · have hsum := sum_slotBytes_set hlt (some ⟨k, v, true⟩)
    simp only [hget, slotBytes, Option.elim, Nat.add_zero] at hsum
    show c.used + v.length = _
    rw [h.used]
    exact hsum.symm

omit [DecidableEq K] in
theorem has_of_fill {used : Nat} {index : AList fun _ : K => Nat} {k' : K} {v' : Bytes}
    (h : ({ c with used := used, index := index, entries := c.entries.set i (some ⟨k, v, true⟩) } : ClockCache K).Has k' v') :
    c.Has k' v' ∨ (k' = k ∧ v' = v) := by
  obtain ⟨j, x, hx, hkx, hvx⟩ := h
  simp only [List.getElem?_set] at hx
  split_ifs at hx
  · obtain rfl : _ = x := by simpa using hx
    exact .inr ⟨hkx.symm, hvx.symm⟩
  · exact .inl ⟨j, x, hx, hkx, hvx⟩

theorem Ok.insert (h : c.Ok) (k : K) (v : Bytes) : (c.insert k v).Ok := by
  unfold ClockCache.insert
  split
  · exact h
  · rename_i hguard
    have hnone : c.index.lookup k = none := by simpa using (not_or.1 (not_or.1 hguard).2).2
    have hroom := h.makeRoom (c.entries.countP Option.isSome + 1) v.length
    split
    · rename_i c' heq
      rw [heq] at hroom
      exact hroom.1
    · rename_i c' heq
      rw [heq] at hroom
      obtain ⟨hok, hbud, hfits, hhas⟩ := hroom
      obtain ⟨hrep, hidx, hused, hbud', hhas'⟩ := hok.takeSlot
      refine hrep.fill ?_ ?_
      · rw [hidx]
        exact hok.lookup_eq_none fun v hv => h.not_has_of_lookup hnone (hhas k v hv)
      · rw [hused, hbud', hbud]
        exact hfits rfl

/-- An insertion adds at most the answer it was given. -/
theorem Ok.has_insert (h : c.Ok) {k' : K} {v' : Bytes} (hhas : (c.insert k v).Has k' v') :
    c.Has k' v' ∨ (k' = k ∧ v' = v) := by
  unfold ClockCache.insert at hhas
  split at hhas
  · exact .inl hhas
  · have hroom := h.makeRoom (c.entries.countP Option.isSome + 1) v.length
    split at hhas
    · rename_i c' heq
      rw [heq] at hroom
      exact .inl (hroom.2.2.2 _ _ hhas)
    · rename_i c' heq
      rw [heq] at hroom
      exact (has_of_fill hhas).imp_left fun hv => hroom.2.2.2 _ _ (hroom.1.takeSlot.2.2.2.2 _ _ hv)

end ClockCache

end Hakutaku
