import Hakutaku.ClockCache

/-!
# The CLOCK cache over whole runs

The scan of `evict_one` meets an unreferenced entry within two sweeps of the hand, and within the first one if there
was any at its start. So an insertion that fits the budget always ends with its key resident, and every hit can be
traced to the insertion that made its key resident.
-/

namespace Hakutaku
namespace ClockCache
variable {K : Type} [DecidableEq K] {c d : ClockCache K} {k : K} {v : Bytes} {i j left : Nat} {e : Entry K}

/-! ### The scan -/

section
omit [DecidableEq K]

/-- A slot with an entry. -/
def Occupied (c : ClockCache K) (i : Nat) : Prop := ∃ e, c.entries[i]? = some (some e)

/-- A slot with an entry whose reference bit is clear. -/
def Clear (c : ClockCache K) (i : Nat) : Prop := ∃ e, c.entries[i]? = some (some e) ∧ e.referenced = false

/-- The slot of the `j`-th probe from here. -/
def probe (c : ClockCache K) (j : Nat) : Nat := (c.slot + j) % c.entries.length

/-- The state after a probe that evicts nothing. -/
def pass (c : ClockCache K) : ClockCache K :=
  match c.entries[c.slot]? with
  | some (some entry) =>
    { c with entries := c.entries.set c.slot (some { entry with referenced := false }), hand := c.nextHand }
  | _ => { c with hand := c.nextHand }

@[simp] theorem pass_length : c.pass.entries.length = c.entries.length := by
  unfold pass
  split
  · exact List.length_set
  · rfl

theorem pass_hand : c.pass.hand = c.nextHand := by
  unfold pass
  split <;> rfl

theorem slot_lt (hn : 0 < c.entries.length) : c.slot < c.entries.length := Nat.mod_lt _ hn

theorem probe_zero (hn : 0 < c.entries.length) : c.probe 0 = c.slot := Nat.mod_eq_of_lt (slot_lt hn)

theorem pass_probe : c.pass.probe j = c.probe (j + 1) := by
  unfold probe slot
  rw [pass_hand, pass_length]
  unfold nextHand slot
  rw [Nat.mod_mod, Nat.add_mod, Nat.mod_mod, ← Nat.add_mod, Nat.add_assoc, Nat.add_comm 1 j]

theorem probe_ne_slot (hj : 0 < j) (hlt : j < c.entries.length) : c.probe j ≠ c.slot := by
  have hslot := slot_lt (hj.trans hlt)
  unfold probe
  rcases Nat.lt_or_ge (c.slot + j) c.entries.length with h | h
  · rw [Nat.mod_eq_of_lt h]
    omega
  · rw [Nat.mod_eq_sub_mod h, Nat.mod_eq_of_lt (by omega)]
    omega

/-- The last probe of a sweep comes back to the slot just passed. -/
theorem pass_probe_last (hn : 0 < c.entries.length) : c.pass.probe (c.entries.length - 1) = c.slot := by
  have hslot := slot_lt hn
  rw [pass_probe, Nat.sub_add_cancel hn]
  unfold probe
  rw [Nat.add_mod_right, Nat.mod_eq_of_lt hslot]

/-- A slot is reached within one sweep. -/
theorem exists_probe (hi : i < c.entries.length) : ∃ j < c.entries.length, c.probe j = i := by
  have hn : 0 < c.entries.length := Nat.zero_lt_of_lt hi
  have hslot := slot_lt hn
  unfold probe
  rcases Nat.lt_or_ge i c.slot with h | h
  · refine ⟨i + c.entries.length - c.slot, by omega, ?_⟩
    have hsum : c.slot + (i + c.entries.length - c.slot) = i + c.entries.length := by omega
    rw [hsum, Nat.add_mod_right, Nat.mod_eq_of_lt hi]
  · refine ⟨i - c.slot, by omega, ?_⟩
    have hsum : c.slot + (i - c.slot) = i := by omega
    rw [hsum, Nat.mod_eq_of_lt hi]

theorem pass_entries_of_ne (h : i ≠ c.slot) : c.pass.entries[i]? = c.entries[i]? := by
  unfold pass
  split
  · exact List.getElem?_set_ne (Ne.symm h)
  · rfl

theorem Clear.pass_iff (h : i ≠ c.slot) : c.pass.Clear i ↔ c.Clear i := by
  unfold Clear
  rw [pass_entries_of_ne h]

theorem Occupied.pass_iff (h : i ≠ c.slot) : c.pass.Occupied i ↔ c.Occupied i := by
  unfold Occupied
  rw [pass_entries_of_ne h]

/-- A passed entry has lost its reference bit. -/
theorem Occupied.pass_slot (h : c.Occupied c.slot) : c.pass.Clear c.slot := by
  obtain ⟨e, he⟩ := h
  have hlt := (List.getElem?_eq_some_iff.1 he).1
  refine ⟨{ e with referenced := false }, ?_, rfl⟩
  unfold pass
  rw [he]
  exact List.getElem?_set_self hlt

theorem Clear.occupied (h : c.Clear i) : c.Occupied i := by
  obtain ⟨e, he, -⟩ := h
  exact ⟨e, he⟩

theorem Occupied.lt (h : c.Occupied i) : i < c.entries.length := by
  obtain ⟨e, he⟩ := h
  exact (List.getElem?_eq_some_iff.1 he).1

end

/-- A probe of an unreferenced entry evicts it. -/
theorem evictScan_clear (he : c.entries[c.slot]? = some (some e)) (hclear : e.referenced = false) :
    c.evictScan (left + 1) = (some c.slot, { c with
      entries := c.entries.set c.slot none
      used := c.used - e.value.length
      index := c.index.erase e.key
      hand := c.nextHand }) := by
  unfold evictScan
  simp only [he, hclear, Bool.false_eq_true, if_false]

theorem evictScan_pass (h : ¬ c.Clear c.slot) : c.evictScan (left + 1) = c.pass.evictScan left := by
  rcases hget : c.entries[c.slot]? with _ | _ | entry
  · conv_lhs => unfold evictScan
    simp only [pass, hget]
  · conv_lhs => unfold evictScan
    simp only [pass, hget]
  · have href : entry.referenced = true := by
      rw [← Bool.not_eq_false]
      exact fun hclear => h ⟨entry, hget, hclear⟩
    conv_lhs => unfold evictScan
    simp only [pass, hget, href, if_true]

/-- An unreferenced entry within reach: the scan stops there or at an earlier one. -/
theorem evictScan_of_clear (hj : j < c.entries.length) (hleft : j < left) (h : c.Clear (c.probe j)) :
    ∃ i ≤ j, c.Clear (c.probe i) ∧ (c.evictScan left).1 = some (c.probe i) := by
  induction left generalizing c j with
  | zero => exact absurd hleft (Nat.not_lt_zero _)
  | succ left ih =>
    have hn : 0 < c.entries.length := Nat.zero_lt_of_lt hj
    by_cases hslot : c.Clear c.slot
    · refine ⟨0, Nat.zero_le _, ?_⟩
      rw [probe_zero hn]
      obtain ⟨e, he, hclear⟩ := hslot
      exact ⟨⟨e, he, hclear⟩, by rw [evictScan_clear he hclear]⟩
    · rcases j with _ | j
      · rw [probe_zero hn] at h
        exact absurd h hslot
      · have hnext : c.pass.Clear (c.pass.probe j) := by
          rw [pass_probe]
          exact (Clear.pass_iff (probe_ne_slot (Nat.succ_pos _) hj)).2 h
        obtain ⟨i, hi, hclear, hscan⟩ := ih (pass_length.symm ▸ (Nat.lt_of_succ_lt hj)) (Nat.lt_of_succ_lt_succ hleft) hnext
        rw [pass_probe] at hclear hscan
        refine ⟨i + 1, Nat.succ_le_succ hi, ?_, ?_⟩
        · exact (Clear.pass_iff (probe_ne_slot (Nat.succ_pos _) ((Nat.succ_le_succ hi).trans_lt hj))).1 hclear
        · rw [evictScan_pass hslot, hscan]

/-- Any entry within reach of the second sweep is enough. -/
theorem evictScan_of_occupied (hj : j < c.entries.length) (hleft : j + c.entries.length < left)
    (h : c.Occupied (c.probe j)) : ∃ s, (c.evictScan left).1 = some s := by
  induction left generalizing c j with
  | zero => exact absurd hleft (Nat.not_lt_zero _)
  | succ left ih =>
    have hn : 0 < c.entries.length := Nat.zero_lt_of_lt hj
    by_cases hslot : c.Clear c.slot
    · obtain ⟨e, he, hclear⟩ := hslot
      exact ⟨_, by rw [evictScan_clear he hclear]⟩
    · rw [evictScan_pass hslot]
      rcases j with _ | j
      · rw [probe_zero hn] at h
        have hlast : c.pass.Clear (c.pass.probe (c.entries.length - 1)) := by
          rw [pass_probe_last hn]
          exact h.pass_slot
        have hreach : c.entries.length - 1 < c.pass.entries.length := by rw [pass_length]; omega
        obtain ⟨i, -, -, hscan⟩ := evictScan_of_clear hreach (by omega : c.entries.length - 1 < left) hlast
        exact ⟨_, hscan⟩
      · refine ih (show j < c.pass.entries.length by rw [pass_length]; omega)
          (show j + c.pass.entries.length < left by rw [pass_length]; omega) ?_
        rw [pass_probe]
        exact (Occupied.pass_iff (probe_ne_slot (Nat.succ_pos _) hj)).2 h

/-! ### One eviction -/

/-- The entries of all slots but one. -/
def HasBut (c : ClockCache K) (s : Nat) (key : K) (value : Bytes) : Prop :=
  ∃ i ≠ s, ∃ e, c.entries[i]? = some (some e) ∧ e.key = key ∧ e.value = value

omit [DecidableEq K] in
theorem pass_entry (he : c.pass.entries[i]? = some (some e)) :
    ∃ x, c.entries[i]? = some (some x) ∧ x.key = e.key ∧ x.value = e.value := by
  by_cases hi : i = c.slot
  · subst hi
    rcases hget : c.entries[c.slot]? with _ | _ | entry
    · simp only [pass, hget] at he
      cases he
    · simp only [pass, hget] at he
      cases he
    · have hlt := (List.getElem?_eq_some_iff.1 hget).1
      simp only [pass, hget] at he
      rw [List.getElem?_set_self hlt] at he
      cases he
      exact ⟨entry, rfl, rfl, rfl⟩
  · rw [pass_entries_of_ne hi] at he
    exact ⟨e, he, rfl, rfl⟩

omit [DecidableEq K] in
theorem entry_pass (he : c.entries[i]? = some (some e)) :
    ∃ x, c.pass.entries[i]? = some (some x) ∧ x.key = e.key ∧ x.value = e.value := by
  by_cases hi : i = c.slot
  · subst hi
    have hlt := (List.getElem?_eq_some_iff.1 he).1
    refine ⟨{ e with referenced := false }, ?_, rfl, rfl⟩
    simp only [pass, he]
    exact List.getElem?_set_self hlt
  · exact ⟨e, by rw [pass_entries_of_ne hi, he], rfl, rfl⟩

omit [DecidableEq K] in
theorem hasBut_pass {s : Nat} : c.pass.HasBut s k v ↔ c.HasBut s k v := by
  constructor
  · rintro ⟨i, hi, e, he, rfl, rfl⟩
    obtain ⟨x, hx, hkey, hvalue⟩ := pass_entry he
    exact ⟨i, hi, x, hx, hkey, hvalue⟩
  · rintro ⟨i, hi, e, he, rfl, rfl⟩
    obtain ⟨x, hx, hkey, hvalue⟩ := entry_pass he
    exact ⟨i, hi, x, hx, hkey, hvalue⟩

omit [DecidableEq K] in
theorem countP_pass : c.pass.entries.countP Option.isSome = c.entries.countP Option.isSome := by
  rcases hget : c.entries[c.slot]? with _ | _ | entry
  · simp only [pass, hget]
  · simp only [pass, hget]
  · obtain ⟨hlt, hentry⟩ := List.getElem?_eq_some_iff.1 hget
    have hpos : 0 < c.entries.countP Option.isSome :=
      List.countP_pos_iff.2 ⟨_, List.mem_of_getElem? hget, rfl⟩
    simp only [pass, hget]
    rw [List.countP_set hlt, hentry]
    simp only [Option.isSome_some, if_true]
    exact Nat.sub_add_cancel hpos

/-- What a successful scan leaves: one entry less, and the others as they were. -/
theorem evictScan_result {s : Nat} (h : (c.evictScan left).1 = some s) :
    c.Occupied s ∧ (∀ k v, (c.evictScan left).2.Has k v ↔ c.HasBut s k v) ∧
      (c.evictScan left).2.entries.countP Option.isSome + 1 = c.entries.countP Option.isSome := by
  induction left generalizing c with
  | zero => cases h
  | succ left ih =>
    by_cases hslot : c.Clear c.slot
    · obtain ⟨e, he, hclear⟩ := hslot
      rw [evictScan_clear he hclear] at h ⊢
      cases h
      obtain ⟨hlt, hentry⟩ := List.getElem?_eq_some_iff.1 he
      refine ⟨⟨e, he⟩, fun k v => ?_, ?_⟩
      · constructor
        · rintro ⟨i, x, hx, hkey, hvalue⟩
          have hne : i ≠ c.slot := by
            rintro rfl
            rw [show (c.entries.set c.slot none)[c.slot]? = some none from List.getElem?_set_self hlt] at hx
            cases hx
          rw [show (c.entries.set c.slot none)[i]? = _ from List.getElem?_set_ne (Ne.symm hne)] at hx
          exact ⟨i, hne, x, hx, hkey, hvalue⟩
        · rintro ⟨i, hne, x, hx, hkey, hvalue⟩
          exact ⟨i, x, (List.getElem?_set_ne (Ne.symm hne)).trans hx, hkey, hvalue⟩
      · have hpos : 0 < c.entries.countP Option.isSome :=
          List.countP_pos_iff.2 ⟨_, List.mem_of_getElem? he, rfl⟩
        show (c.entries.set c.slot none).countP Option.isSome + 1 = _
        rw [List.countP_set hlt, hentry]
        simp only [Option.isSome_some, Option.isSome_none, if_true, Bool.false_eq_true, if_false, Nat.add_zero]
        exact Nat.sub_add_cancel hpos
    · rw [evictScan_pass hslot] at h ⊢
      obtain ⟨⟨e, he⟩, hhas, hcount⟩ := ih h
      obtain ⟨x, hx, -, -⟩ := pass_entry he
      exact ⟨⟨x, hx⟩, fun k v => (hhas k v).trans hasBut_pass, hcount.trans countP_pass⟩

/-- `evict_one` succeeds on a cache with an entry, and spares the referenced ones while there are others. -/
theorem evictOne_spec (h : c.index.keys ≠ []) (hn : c.Occupied i) :
    ∃ s, c.evictOne.1 = some s ∧ c.Occupied s ∧ ((∃ i, c.Clear i) → c.Clear s) ∧
      (∀ k v, c.evictOne.2.Has k v ↔ c.HasBut s k v) ∧
      c.evictOne.2.entries.countP Option.isSome + 1 = c.entries.countP Option.isSome := by
  have hpos : 0 < c.entries.length := Nat.zero_lt_of_lt hn.lt
  have hne : ¬ (c.index.keys = [] ∨ c.entries = []) := by
    rintro (hkeys | hentries)
    · exact h hkeys
    · rw [hentries] at hpos
      cases hpos
  unfold evictOne
  rw [if_neg hne, Nat.max_eq_left (by omega)]
  have hsome : ∃ s, (c.evictScan (c.entries.length * 2)).1 = some s := by
    obtain ⟨j, hj, hprobe⟩ := exists_probe hn.lt
    exact evictScan_of_occupied hj (by omega) (hprobe.symm ▸ hn)
  obtain ⟨s, hs⟩ := hsome
  obtain ⟨hocc, hhas, hcount⟩ := evictScan_result hs
  refine ⟨s, hs, hocc, ?_, hhas, hcount⟩
  rintro ⟨i, hclear⟩
  obtain ⟨j, hj, hprobe⟩ := exists_probe hclear.occupied.lt
  obtain ⟨j', -, hclear', hscan⟩ := evictScan_of_clear (c := c) hj (by omega : j < c.entries.length * 2)
    (hprobe.symm ▸ hclear)
  rw [hscan] at hs
  cases hs
  exact hclear'

/-! ### One insertion -/

/-- Evictions, one by one, each while `len` more bytes do not fit. -/
inductive Evictions (len : Nat) : ClockCache K → ClockCache K → Prop
  | done (c : ClockCache K) : Evictions len c c
  | evict {c d e : ClockCache K} {s : Nat} (hfull : c.budget < c.used + len) (hevict : c.evictOne = (some s, d))
      (hrest : Evictions len { d with vacant := s :: d.vacant } e) : Evictions len c e

theorem Ok.evicted (h : c.Ok) {s : Nat} (hevict : c.evictOne = (some s, d)) :
    ({ d with vacant := s :: d.vacant } : ClockCache K).Ok ∧ d.budget = c.budget := by
  have hrep := Rep.evictOne h
  rw [hevict] at hrep
  obtain ⟨hrep, hvacant, hbudget, -⟩ := hrep
  rw [← hvacant] at hrep
  exact ⟨⟨hrep.indexed, hrep.empties, hrep.nodup, hrep.used, hrep.budget⟩, hbudget⟩

/-- A cache that holds bytes has an entry. -/
theorem Ok.exists_occupied (h : c.Ok) (hused : 0 < c.used) : c.index.keys ≠ [] ∧ ∃ i, c.Occupied i := by
  rw [h.used] at hused
  have hex : ∃ slot ∈ c.entries, slotBytes slot ≠ 0 := by
    by_contra hnone
    push Not at hnone
    have hzero : (c.entries.map slotBytes).sum = 0 := List.sum_eq_zero fun x hx => by
      obtain ⟨slot, hslot, rfl⟩ := List.mem_map.1 hx
      exact hnone slot hslot
    omega
  obtain ⟨_ | e, hslot, hbytes⟩ := hex
  · exact absurd rfl hbytes
  · obtain ⟨i, hi⟩ := List.mem_iff_getElem?.1 hslot
    refine ⟨fun hkeys => ?_, i, e, hi⟩
    have hlookup := (h.indexed e.key i).2 ⟨e, hi, rfl⟩
    have hmem : e.key ∈ c.index := AList.lookup_isSome.1 (Option.isSome_iff_exists.2 ⟨i, hlookup⟩)
    rw [AList.mem_keys, hkeys] at hmem
    cases hmem

/-- Room is made for every value that fits the budget, by evictions that are each needed. -/
theorem Ok.makeRoom_spec (h : c.Ok) {len : Nat} (hlen : len ≤ c.budget) (hleft : c.entries.countP Option.isSome < left) :
    (c.makeRoom left len).1 = true ∧ Evictions len c (c.makeRoom left len).2 := by
  induction left generalizing c with
  | zero => exact absurd hleft (Nat.not_lt_zero _)
  | succ left ih =>
    unfold ClockCache.makeRoom
    by_cases hfull : c.budget < c.used + len
    · rw [if_pos hfull]
      obtain ⟨hkeys, i, hocc⟩ := h.exists_occupied (by omega)
      obtain ⟨s, hs, -, -, -, hcount⟩ := evictOne_spec hkeys hocc
      rcases hevict : c.evictOne with ⟨_ | s', d⟩
      · rw [hevict] at hs
        cases hs
      · obtain ⟨hok, hbudget⟩ := h.evicted hevict
        rw [hevict] at hcount
        obtain ⟨htrue, hrest⟩ := ih hok (hlen.trans hbudget.ge) (by dsimp only at hcount ⊢; omega)
        exact ⟨htrue, .evict hfull hevict hrest⟩
    · rw [if_neg hfull]
      exact ⟨rfl, .done c⟩

omit [DecidableEq K] in
theorem has_takeSlot : c.takeSlot.2.Has k v ↔ c.Has k v := by
  unfold ClockCache.takeSlot
  split
  · rfl
  · constructor
    · rintro ⟨j, x, hx, hk⟩
      rw [List.getElem?_append] at hx
      split_ifs at hx with hj
      · exact ⟨j, x, hx, hk⟩
      · rw [List.getElem?_singleton] at hx
        split at hx <;> cases hx
    · rintro ⟨j, x, hx, hk⟩
      exact ⟨j, x, (List.getElem?_append_left (List.getElem?_eq_some_iff.1 hx).1).trans hx, hk⟩

/-- A new key that fits the budget becomes resident, beside what its evictions left. -/
theorem Ok.insert_spec (h : c.Ok) (hbudget : c.budget ≠ 0) (hlen : v.length ≤ c.budget)
    (hnew : c.index.lookup k = none) :
    ∃ d, Evictions v.length c d ∧ d.used + v.length ≤ c.budget ∧
      ∀ k' v', (c.insert k v).Has k' v' ↔ d.Has k' v' ∨ (k' = k ∧ v' = v) := by
  have hguard : ¬ (c.budget = 0 ∨ c.budget < v.length ∨ (c.index.lookup k).isSome) := by
    rw [hnew]
    rintro (hzero | hover | hsome)
    · exact hbudget hzero
    · exact absurd hlen (Nat.not_le.2 hover)
    · cases hsome
  obtain ⟨htrue, hevictions⟩ := h.makeRoom_spec hlen (Nat.lt_succ_self (c.entries.countP Option.isSome))
  have hroom := h.makeRoom (c.entries.countP Option.isSome + 1) v.length
  unfold ClockCache.insert
  rw [if_neg hguard]
  rcases hmake : c.makeRoom (c.entries.countP Option.isSome + 1) v.length with ⟨_ | _, d⟩
  · rw [hmake] at htrue
    cases htrue
  · rw [hmake] at hevictions hroom
    obtain ⟨hok, -, hfits, -⟩ := hroom
    refine ⟨d, hevictions, hfits rfl, fun k' v' => ?_⟩
    obtain ⟨hrep, -⟩ := hok.takeSlot
    have hempty := (hrep.empties d.takeSlot.1).1 List.mem_cons_self
    have hlt := (List.getElem?_eq_some_iff.1 hempty).1
    constructor
    · intro hhas
      exact (has_of_fill hhas).imp_left has_takeSlot.1
    · rintro (hhas | ⟨rfl, rfl⟩)
      · obtain ⟨j, x, hx, hk⟩ := has_takeSlot.2 hhas
        have hne : d.takeSlot.1 ≠ j := by
          rintro rfl
          rw [hempty] at hx
          cases hx
        exact ⟨j, x, (List.getElem?_set_ne hne).trans hx, hk⟩
      · exact ⟨_, _, List.getElem?_set_self hlt, rfl, rfl⟩

/-- An insertion that does not apply leaves the cache alone. -/
theorem insert_eq_self (h : c.budget = 0 ∨ c.budget < v.length ∨ (c.index.lookup k).isSome) : c.insert k v = c := by
  unfold ClockCache.insert
  rw [if_pos h]

/-! ### Runs -/

/-- A call on a cache. -/
inductive Op (K : Type)
  | get (key : K)
  | insert (key : K) (value : Bytes)
  | clear

def apply (c : ClockCache K) : Op K → ClockCache K
  | .get key => (c.get key).2
  | .insert key value => c.insert key value
  | .clear => c.clear

/-- The cache after calls on a new one. -/
def run (budget : Nat) (ops : List (Op K)) : ClockCache K := ops.foldl apply (.new budget)

variable {budget : Nat} {ops : List (Op K)} {op : Op K}

theorem run_concat : run budget (ops ++ [op]) = (run budget ops).apply op := List.foldl_concat ..

theorem Ok.apply (h : c.Ok) : (c.apply op).Ok := by
  cases op with
  | get key => exact h.get key
  | insert key value => exact h.insert key value
  | clear => exact .clear c

theorem Ok.run (budget : Nat) (ops : List (Op K)) : (run budget ops).Ok := by
  induction ops using List.reverseRecOn with
  | nil => exact .new budget
  | append_singleton ops op ih =>
    rw [run_concat]
    exact ih.apply

theorem get_budget : (c.get k).2.budget = c.budget := by
  unfold ClockCache.get
  split
  · rfl
  · split <;> rfl

omit [DecidableEq K] in
theorem takeSlot_budget : c.takeSlot.2.budget = c.budget := by
  unfold ClockCache.takeSlot
  split <;> rfl

theorem Ok.insert_budget (h : c.Ok) : (c.insert k v).budget = c.budget := by
  have hroom := h.makeRoom (c.entries.countP Option.isSome + 1) v.length
  unfold ClockCache.insert
  split
  · rfl
  · rcases hmake : c.makeRoom (c.entries.countP Option.isSome + 1) v.length with ⟨_ | _, d⟩
    · rw [hmake] at hroom
      exact hroom.2.1
    · rw [hmake] at hroom
      exact takeSlot_budget.trans hroom.2.1

theorem run_budget : (run budget ops).budget = budget := by
  induction ops using List.reverseRecOn with
  | nil => rfl
  | append_singleton ops op ih =>
    rw [run_concat]
    cases op with
    | get key => exact get_budget.trans ih
    | insert key value => exact (Ok.run budget ops).insert_budget.trans ih
    | clear => exact ih

/-- An insertion adds only the answer of a key that had none. -/
theorem Ok.has_apply (h : c.Ok) (hhas : (c.apply op).Has k v) :
    c.Has k v ∨ op = .insert k v ∧ c.index.lookup k = none := by
  cases op with
  | get key => exact .inl (has_get.1 hhas)
  | insert key value =>
    by_cases hguard : c.budget = 0 ∨ c.budget < value.length ∨ (c.index.lookup key).isSome
    · rw [ClockCache.apply, insert_eq_self hguard] at hhas
      exact .inl hhas
    · rcases h.has_insert hhas with hhas | ⟨rfl, rfl⟩
      · exact .inl hhas
      · exact .inr ⟨rfl, by simpa using (not_or.1 (not_or.1 hguard).2).2⟩
  | clear => exact absurd hhas not_has_clear

/-- The insertion an answer comes from, with its key resident ever since. -/
theorem has_origin (hhas : (run budget ops).Has k v) :
    ∃ before after, ops = before ++ .insert k v :: after ∧ (run budget before).index.lookup k = none ∧
      ∀ mid rest, after = mid ++ rest → (run budget (before ++ .insert k v :: mid)).Has k v := by
  induction ops using List.reverseRecOn with
  | nil => exact absurd hhas (not_has_new budget)
  | append_singleton ops op ih =>
    have hlast := hhas
    rw [run_concat] at hhas
    rcases (Ok.run budget ops).has_apply hhas with hold | ⟨rfl, hnone⟩
    · obtain ⟨before, after, rfl, hnone, hsince⟩ := ih hold
      refine ⟨before, after ++ [op], by rw [List.append_assoc, List.cons_append], hnone, fun mid rest hmid => ?_⟩
      rcases List.eq_nil_or_concat' rest with rfl | ⟨init, last, rfl⟩
      · rw [List.append_nil] at hmid
        subst hmid
        rw [← List.cons_append, ← List.append_assoc]
        exact hlast
      · rw [← List.append_assoc] at hmid
        exact hsince mid init (List.append_inj' hmid rfl).1
    · refine ⟨ops, [], rfl, hnone, fun mid rest hmid => ?_⟩
      obtain ⟨rfl, -⟩ := List.append_eq_nil_iff.1 hmid.symm
      exact hlast

theorem Ok.get_eq_some (h : c.Ok) : (c.get k).1 = some v ↔ c.Has k v := by
  refine ⟨h.has_of_get, ?_⟩
  rintro ⟨i, e, hi, hkey, rfl⟩
  unfold ClockCache.get
  rw [(h.indexed k i).2 ⟨e, hi, hkey⟩]
  simp only [hi]

end ClockCache

open ClockCache in
/-- After any calls on a new cache of any budget. -/
theorem clockCache_correct {K : Type} [DecidableEq K] (budget : Nat) (ops : List (Op K)) :
    let c := run budget ops
    (∀ k i, c.index.lookup k = some i ↔ ∃ e : Entry K, c.entries[i]? = some (some e) ∧ e.key = k) ∧
    (∀ i, i ∈ c.vacant ↔ c.entries[i]? = some none) ∧ c.vacant.Nodup ∧
    c.used = (c.entries.map slotBytes).sum ∧ c.used ≤ budget ∧
    (∀ k v, (c.get k).1 = some v →
      ∃ before after, ops = before ++ .insert k v :: after ∧ (run budget before).index.lookup k = none ∧
        ∀ mid rest, after = mid ++ rest → ((run budget (before ++ .insert k v :: mid)).get k).1 = some v) ∧
    (∀ k v, budget ≠ 0 → v.length ≤ budget → c.index.lookup k = none →
      ((c.insert k v).get k).1 = some v ∧
      ∃ d, Evictions v.length c d ∧ d.used + v.length ≤ budget ∧
        ∀ k' v', (c.insert k v).Has k' v' ↔ d.Has k' v' ∨ (k' = k ∧ v' = v)) ∧
    (c.index.keys ≠ [] → ∃ s, c.evictOne.1 = some s ∧ c.Occupied s ∧ ((∃ i, c.Clear i) → c.Clear s) ∧
      ∀ k v, c.evictOne.2.Has k v ↔ c.HasBut s k v) := by
  have hok := Ok.run budget ops
  have hbudget : (run budget ops).budget = budget := run_budget
  refine ⟨hok.indexed, hok.empties, hok.nodup, hok.used, hok.budget.trans hbudget.le, ?_, ?_, ?_⟩
  · intro k v hget
    obtain ⟨before, after, hops, hnone, hsince⟩ := has_origin (hok.get_eq_some.1 hget)
    exact ⟨before, after, hops, hnone, fun mid rest hmid => (Ok.run budget _).get_eq_some.2 (hsince mid rest hmid)⟩
  · intro k v hne hlen hnew
    obtain ⟨d, hevictions, hfits, hhas⟩ := hok.insert_spec (hbudget.symm ▸ hne) (hlen.trans hbudget.ge) hnew
    exact ⟨(hok.insert k v).get_eq_some.2 ((hhas k v).2 (.inr ⟨rfl, rfl⟩)), d, hevictions, hfits.trans hbudget.le, hhas⟩
  · intro hkeys
    obtain ⟨k, hk⟩ := List.exists_mem_of_ne_nil _ hkeys
    obtain ⟨i, hi⟩ := Option.isSome_iff_exists.1 (AList.lookup_isSome.2 (AList.mem_keys.2 hk))
    obtain ⟨e, he, -⟩ := (hok.indexed k i).1 hi
    obtain ⟨s, hs, hocc, hclear, hhas, -⟩ := evictOne_spec hkeys (⟨e, he⟩ : Occupied _ i)
    exact ⟨s, hs, hocc, hclear, hhas⟩

end Hakutaku
