import Hakutaku.Reader

/-!
# The cache of segment handles

`HandleCache` keeps its keys in the order of their last use. `Recent` ties the queue to the history of the uses: hits, and
handles that are stored.
-/

namespace Hakutaku

/-- The last use of `a` is before the last use of `b`. -/
def UsedBefore (uses : List SegmentId) (a b : SegmentId) : Prop := ∃ x y, uses = x ++ a :: y ∧ a ∉ y ∧ b ∈ y

theorem exists_last_use {uses : List SegmentId} {a : SegmentId} (h : a ∈ uses) : ∃ x y, uses = x ++ a :: y ∧ a ∉ y := by
  obtain ⟨y, x, heq, hy⟩ := List.eq_append_cons_of_mem (List.mem_reverse.2 h)
  refine ⟨x.reverse, y.reverse, ?_, by simpa using hy⟩
  rw [← List.reverse_reverse uses, heq]
  simp

/-- A use of something else comes later. -/
theorem UsedBefore.concat {uses : List SegmentId} {a b id : SegmentId} (h : UsedBefore uses a b) (hne : a ≠ id) :
    UsedBefore (uses ++ [id]) a b := by
  obtain ⟨x, y, rfl, ha, hb⟩ := h
  refine ⟨x, y ++ [id], by simp, ?_, List.mem_append_left _ hb⟩
  rw [List.mem_append, List.mem_singleton, not_or]
  exact ⟨ha, hne⟩

/-- The newest use is after all others. -/
theorem usedBefore_last {uses : List SegmentId} {a id : SegmentId} (h : a ∈ uses) (hne : a ≠ id) :
    UsedBefore (uses ++ [id]) a id := by
  obtain ⟨x, y, rfl, ha⟩ := exists_last_use h
  refine ⟨x, y ++ [id], by simp, ?_, List.mem_append_right _ List.mem_cons_self⟩
  rw [List.mem_append, List.mem_singleton, not_or]
  exact ⟨ha, hne⟩

namespace HandleCache
variable {c : HandleCache} {id : SegmentId} {value : SegmentHandle} {uses : List SegmentId}

/-- The queue lists the keys, and there are at most `capacity` of them. -/
structure Ok (c : HandleCache) : Prop where
  order : c.order.Perm c.values.keys
  size : c.values.keys.length ≤ c.capacity

/-- The queue is in the order of the last uses. -/
structure Recent (c : HandleCache) (uses : List SegmentId) : Prop where
  used : ∀ id ∈ c.order, id ∈ uses
  sorted : c.order.Pairwise (UsedBefore uses)

theorem Ok.new (capacity : Nat) : (new capacity).Ok := ⟨.refl _, Nat.zero_le _⟩

theorem Recent.new (capacity : Nat) : (new capacity).Recent [] := ⟨nofun, .nil⟩

theorem Ok.clear (c : HandleCache) : c.clear.Ok := ⟨.refl _, Nat.zero_le _⟩

theorem Recent.clear (c : HandleCache) (uses : List SegmentId) : c.clear.Recent uses := ⟨nofun, .nil⟩

theorem Ok.nodup (h : c.Ok) : c.order.Nodup := h.order.nodup_iff.2 c.values.nodupKeys

theorem Ok.mem_order (h : c.Ok) : id ∈ c.order ↔ (c.values.lookup id).isSome := by
  rw [h.order.mem_iff, AList.lookup_isSome]
  exact AList.mem_keys

/-- The queue after a use of `id`. -/
theorem Recent.use (h : c.Recent uses) {order : List SegmentId} (hsub : order.Sublist c.order) (hid : id ∉ order) :
    (∀ a ∈ order ++ [id], a ∈ uses ++ [id]) ∧ (order ++ [id]).Pairwise (UsedBefore (uses ++ [id])) := by
  have hne : ∀ a ∈ order, a ≠ id := fun a ha heq => hid (heq ▸ ha)
  constructor
  · intro a ha
    rcases List.mem_append.1 ha with ha | ha
    · exact List.mem_append_left _ (h.used a (hsub.subset ha))
    · exact List.mem_append_right _ ha
  · refine List.pairwise_append.2 ⟨?_, List.pairwise_singleton _ _, fun a ha b hb => ?_⟩
    · exact (h.sorted.sublist hsub).imp_of_mem fun ha _ hab => hab.concat (hne _ ha)
    · obtain rfl := List.mem_singleton.1 hb
      exact usedBefore_last (h.used a (hsub.subset ha)) (hne a ha)

/-! ### Hits -/

theorem get_capacity : (c.get id).2.capacity = c.capacity := by
  unfold get
  split <;> rfl

theorem get_of_mem (h : (c.values.lookup id).isSome) : (c.get id).2 = { c with order := c.order.erase id ++ [id] } := by
  unfold get
  split
  · rename_i hnone
    rw [hnone] at h
    cases h
  · rfl

theorem get_of_not_mem (h : ¬ (c.values.lookup id).isSome) : (c.get id).2 = c := by
  unfold get
  split
  · rfl
  · rename_i hsome
    rw [hsome] at h
    exact absurd rfl h

theorem Ok.get (h : c.Ok) (id : SegmentId) : (c.get id).2.Ok := by
  by_cases hmem : (c.values.lookup id).isSome
  · rw [get_of_mem hmem]
    refine ⟨?_, h.size⟩
    have hback : (c.order.erase id ++ [id]).Perm c.order :=
      (List.perm_append_singleton _ _).trans (List.perm_cons_erase (h.mem_order.2 hmem)).symm
    exact hback.trans h.order
  · rw [get_of_not_mem hmem]
    exact h

/-! ### Stored handles -/

theorem makeRoom_of_lt {capacity : Nat} {values : AList fun _ : SegmentId => SegmentHandle} (order : List SegmentId)
    (h : values.keys.length < capacity) : makeRoom capacity values order = ⟨capacity, values, order⟩ := by
  cases order with
  | nil => rfl
  | cons oldest rest =>
    unfold makeRoom
    rw [if_neg (Nat.not_le.2 h)]

/-- What is stored where there is room. -/
theorem insert_of_lt (hnew : ¬ (c.values.lookup id).isSome) (hroom : c.values.keys.length < c.capacity) :
    c.insert id value = { c with values := c.values.insert id value, order := c.order ++ [id] } := by
  unfold insert
  rw [if_neg (not_or.2 ⟨by omega, hnew⟩), makeRoom_of_lt _ hroom]

theorem length_keys_erase {oldest : SegmentId} (h : oldest ∈ c.values.keys) :
    (c.values.erase oldest).keys.length + 1 = c.values.keys.length := by
  have hpos := List.length_pos_of_mem h
  rw [AList.keys_erase, List.length_erase_of_mem h]
  omega

/-- A full cache gives up the head of its queue. -/
theorem Ok.insert_of_full (h : c.Ok) (value : SegmentHandle) (hne : c.capacity ≠ 0) (hnew : ¬ (c.values.lookup id).isSome)
    (hfull : c.values.keys.length = c.capacity) :
    ∃ oldest rest, c.order = oldest :: rest ∧ oldest ∈ c.values.keys ∧
      c.insert id value = { c with values := (c.values.erase oldest).insert id value, order := rest ++ [id] } := by
  rcases horder : c.order with _ | ⟨oldest, rest⟩
  · have hlen := h.order.length_eq
    rw [horder, List.length_nil] at hlen
    omega
  · have hmem : oldest ∈ c.values.keys := h.order.mem_iff.1 (by rw [horder]; exact List.mem_cons_self)
    have herase := length_keys_erase hmem
    refine ⟨oldest, rest, rfl, hmem, ?_⟩
    unfold insert
    rw [if_neg (not_or.2 ⟨hne, hnew⟩), horder]
    unfold makeRoom
    rw [if_pos hfull.ge, makeRoom_of_lt _ (by omega)]

/-- The queue after a handle is stored: what was dropped is its head. -/
theorem Ok.insert_cases (h : c.Ok) (value : SegmentHandle) (hne : c.capacity ≠ 0) (hnew : ¬ (c.values.lookup id).isSome) :
    ∃ (order : List SegmentId) (values : AList fun _ : SegmentId => SegmentHandle), order.Sublist c.order ∧ id ∉ order ∧
      order.Perm values.keys ∧ values.keys.length < c.capacity ∧
      c.insert id value = { c with values := values.insert id value, order := order ++ [id] } := by
  have hid : id ∉ c.order := fun hmem => hnew (h.mem_order.1 hmem)
  rcases Nat.lt_or_ge c.values.keys.length c.capacity with hroom | hge
  · exact ⟨c.order, c.values, .refl _, hid, h.order, hroom, insert_of_lt hnew hroom⟩
  · obtain ⟨oldest, rest, horder, hmem, hinsert⟩ := h.insert_of_full value hne hnew (le_antisymm h.size hge)
    have herase := length_keys_erase hmem
    have hsize := h.size
    refine ⟨rest, c.values.erase oldest, ?_, fun hr => hid ?_, ?_, by omega, hinsert⟩
    · rw [horder]
      exact List.sublist_cons_self _ _
    · rw [horder]
      exact List.mem_cons_of_mem _ hr
    · rw [AList.keys_erase]
      have hperm := h.order.erase oldest
      rw [horder, List.erase_cons_head] at hperm
      exact hperm

theorem insert_eq_self (h : c.capacity = 0 ∨ (c.values.lookup id).isSome) : c.insert id value = c := if_pos h

theorem Ok.insert (h : c.Ok) (id : SegmentId) (value : SegmentHandle) : (c.insert id value).Ok := by
  by_cases hskip : c.capacity = 0 ∨ (c.values.lookup id).isSome
  · rw [insert_eq_self hskip]
    exact h
  · obtain ⟨hne, hnew⟩ := not_or.1 hskip
    obtain ⟨order, values, -, hid, hperm, hroom, hinsert⟩ := h.insert_cases value hne hnew
    have hkeys : id ∉ values.keys := fun hmem => hid (hperm.mem_iff.2 hmem)
    rw [hinsert]
    refine ⟨?_, ?_⟩
    · show (order ++ [id]).Perm (values.insert id value).keys
      rw [AList.keys_insert, List.erase_of_not_mem hkeys]
      exact (List.perm_append_singleton _ _).trans (hperm.cons id)
    · show (values.insert id value).keys.length ≤ c.capacity
      rw [AList.keys_insert, List.erase_of_not_mem hkeys, List.length_cons]
      exact hroom

theorem Ok.insert_capacity (h : c.Ok) : (c.insert id value).capacity = c.capacity := by
  by_cases hskip : c.capacity = 0 ∨ (c.values.lookup id).isSome
  · rw [insert_eq_self hskip]
  · obtain ⟨hne, hnew⟩ := not_or.1 hskip
    obtain ⟨order, values, -, -, -, -, hinsert⟩ := h.insert_cases value hne hnew
    rw [hinsert]

/-! ### The history -/

theorem Recent.get (hr : c.Recent uses) (h : c.Ok) (id : SegmentId) :
    (c.get id).2.Recent (uses ++ if (c.values.lookup id).isSome then [id] else []) := by
  by_cases hmem : (c.values.lookup id).isSome
  · rw [get_of_mem hmem, if_pos hmem]
    have huse := hr.use (List.erase_sublist (a := id)) h.nodup.not_mem_erase
    exact ⟨huse.1, huse.2⟩
  · rw [get_of_not_mem hmem, if_neg hmem, List.append_nil]
    exact hr

theorem Recent.insert (hr : c.Recent uses) (h : c.Ok) (id : SegmentId) (value : SegmentHandle) :
    (c.insert id value).Recent (uses ++ if c.capacity = 0 ∨ (c.values.lookup id).isSome then [] else [id]) := by
  by_cases hskip : c.capacity = 0 ∨ (c.values.lookup id).isSome
  · rw [insert_eq_self hskip, if_pos hskip, List.append_nil]
    exact hr
  · obtain ⟨hne, hnew⟩ := not_or.1 hskip
    obtain ⟨order, values, hsub, hid, -, -, hinsert⟩ := h.insert_cases value hne hnew
    rw [if_neg hskip, hinsert]
    have huse := hr.use hsub hid
    exact ⟨huse.1, huse.2⟩

/-- An insertion into a full cache drops the key that was used least recently. -/
theorem Ok.evicts_oldest (h : c.Ok) (hr : c.Recent uses) (value : SegmentHandle) (hne : c.capacity ≠ 0) (hnew : ¬ (c.values.lookup id).isSome)
    (hfull : c.values.keys.length = c.capacity) :
    ∃ oldest ∈ c.values.keys, (∀ other ∈ c.values.keys, other ≠ oldest → UsedBefore uses oldest other) ∧
      (c.insert id value).values = (c.values.erase oldest).insert id value := by
  obtain ⟨oldest, rest, horder, hmem, hinsert⟩ := h.insert_of_full value hne hnew hfull
  refine ⟨oldest, hmem, fun other hother hne' => ?_, by rw [hinsert]⟩
  have hsorted := hr.sorted
  rw [horder] at hsorted
  have hin := h.order.mem_iff.2 hother
  rw [horder] at hin
  rcases List.mem_cons.1 hin with heq | hin
  · exact absurd heq hne'
  · exact (List.pairwise_cons.1 hsorted).1 other hin

end HandleCache

end Hakutaku
