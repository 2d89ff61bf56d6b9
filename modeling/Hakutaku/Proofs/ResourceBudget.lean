import Hakutaku.HandleCache
import Hakutaku.Proofs.ClockCacheCorrect
import Hakutaku.ReaderSections

/-!
# The runtime state obeys its budget

Readers of one package that run at the same time, each on its way through a block load, a page load, a segment open, a
prefetch or a trim. The bounds of `ResourceBudget` hold between any two lock sections (`Bounded`), whoever takes the next
one.
-/

namespace Hakutaku
open Wire

/-! ### Bounds between the sections -/

/-- The bytes a cache holds. -/
def ClockCache.data {K : Type} (c : ClockCache K) : Nat := (c.entries.map slotBytes).sum

/-- A cache between two calls, with its budget. -/
structure ClockCache.Within {K : Type} [DecidableEq K] (c : ClockCache K) (budget : Nat) : Prop where
  ok : c.Ok
  budget : c.budget = budget

namespace ClockCache.Within
variable {K : Type} [DecidableEq K] {c : ClockCache K} {budget : Nat}

theorem new (budget : Nat) : (ClockCache.new budget : ClockCache K).Within budget := ⟨.new budget, rfl⟩

theorem get (h : c.Within budget) (k : K) : (c.get k).2.Within budget := ⟨h.ok.get k, get_budget.trans h.budget⟩

theorem insert (h : c.Within budget) (k : K) (v : Bytes) : (c.insert k v).Within budget :=
  ⟨h.ok.insert k v, h.ok.insert_budget.trans h.budget⟩

theorem clear (h : c.Within budget) : c.clear.Within budget := ⟨.clear c, h.budget⟩

theorem data_le (h : c.Within budget) : c.data ≤ budget := by
  unfold data
  rw [← h.ok.used, ← h.budget]
  exact h.ok.budget

end ClockCache.Within

/-- A lookup in a cache without slots changes nothing. -/
theorem ClockCache.entries_get {K : Type} [DecidableEq K] {c : ClockCache K} (h : c.entries = []) (k : K) :
    (c.get k).2.entries = [] := by
  unfold ClockCache.get
  split
  · exact h
  · rename_i i _
    have hnone : c.entries[i]? = none := by rw [h]; rfl
    rw [hnone]
    exact h

/-- What the budget promises of the shared state. -/
structure Shared.Bounded (budget : ResourceBudget) (uses : List SegmentId) (s : Shared) : Prop where
  pages : s.pageCache.Within budget.mapPageCacheBytes
  blocks : s.blockCache.Within budget.plaintextCacheBytes
  prefetch : s.prefetchCache.Within budget.prefetchCacheBytes
  hint : s.prefetchPopulated = false → s.prefetchCache.entries = []
  probation : s.probation.length ≤ budget.normalProbationEntries
  distinct : s.probation.Nodup
  capacity : s.handles.capacity = budget.idleSegmentHandles
  handles : s.handles.Ok
  recent : s.handles.Recent uses

/-- The handles a section uses: a hit, or a handle that is stored. -/
def LockSection.uses (c : HandleCache) : LockSection → List SegmentId
  | handleGet id => if (c.values.lookup id).isSome then [id] else []
  | handleInsert id _ => if c.capacity = 0 ∨ (c.values.lookup id).isSome then [] else [id]
  | _ => []

namespace Shared.Bounded
variable {budget : ResourceBudget} {uses : List SegmentId} {s : Shared}

theorem new (budget : ResourceBudget) (faults : List (Option Fault)) : Bounded budget [] (.new budget faults) where
  pages := .new _
  blocks := .new _
  prefetch := .new _
  hint _ := rfl
  probation := Nat.zero_le _
  distinct := .nil
  capacity := rfl
  handles := .new _
  recent := .new _

/-- The probation queue after an access: never longer than its bound, never with a key twice. -/
theorem recordAccess (h : s.Bounded budget uses) (hroom : budget.normalProbationEntries ≠ 0) (key : BlockKey) :
    (PackageInner.recordAccess budget.normalProbationEntries key s).2.Bounded budget uses := by
  have hlen := h.probation
  unfold PackageInner.recordAccess
  split
  · refine { h with probation := ?_, distinct := h.distinct.erase key }
    exact (List.erase_sublist.length_le).trans hlen
  · rename_i hnew
    refine { h with probation := ?_, distinct := ?_ }
    · show (s.probation.drop _ ++ [key]).length ≤ _
      rw [List.length_append, List.length_drop, List.length_singleton]
      omega
    · have hdrop := h.distinct.sublist (List.drop_sublist (s.probation.length + 1 - budget.normalProbationEntries) _)
      refine List.nodup_append.2 ⟨hdrop, List.nodup_singleton _, fun a ha b hb => ?_⟩
      obtain rfl := List.mem_singleton.1 hb
      exact fun heq => hnew (heq ▸ List.mem_of_mem_drop ha)

/-- Every section keeps the bounds. -/
theorem step (h : s.Bounded budget uses) (x : LockSection) (hfits : x.Fits budget) :
    (x.apply budget s).Bounded budget (uses ++ x.uses s.handles) := by
  have quiet : x.uses s.handles = [] → (x.apply budget s).Bounded budget uses →
      (x.apply budget s).Bounded budget (uses ++ x.uses s.handles) := fun hnone hb => by
    rw [hnone, List.append_nil]
    exact hb
  cases x with
  | handleGet id =>
    exact { h with
      capacity := HandleCache.get_capacity.trans h.capacity, handles := h.handles.get id, recent := h.recent.get h.handles id }
  | handleInsert id handle =>
    exact { h with
      capacity := h.handles.insert_capacity.trans h.capacity, handles := h.handles.insert id handle
      recent := h.recent.insert h.handles id handle }
  | handleClear =>
    exact quiet rfl { h with handles := .clear _, recent := .clear _ _ }
  | recordAccess key =>
    exact quiet rfl (h.recordAccess hfits key)
  | prefetchGet key =>
    exact quiet rfl { h with prefetch := h.prefetch.get key, hint := fun hfalse => ClockCache.entries_get (h.hint hfalse) key }
  | prefetchInsert key block =>
    exact quiet rfl { h with prefetch := h.prefetch.insert key block, hint := nofun }
  | prefetchClear =>
    exact quiet rfl { h with prefetch := h.prefetch.clear, hint := fun _ => rfl }
  | pageGet i =>
    exact quiet rfl { h with pages := h.pages.get i }
  | pageInsert i page =>
    exact quiet rfl { h with pages := h.pages.insert i page }
  | pageClear =>
    exact quiet rfl { h with pages := h.pages.clear }
  | blockGet key =>
    exact quiet rfl { h with blocks := h.blocks.get key }
  | blockInsert key block =>
    exact quiet rfl { h with blocks := h.blocks.insert key block }
  | blockClear =>
    exact quiet rfl { h with blocks := h.blocks.clear }
  | probationClear =>
    exact quiet rfl { h with probation := Nat.zero_le _, distinct := .nil }
  | loadHint =>
    exact quiet rfl h
  | backendCall =>
    refine quiet rfl ?_
    show s.nextFault.2.Bounded budget uses
    unfold Shared.nextFault
    split
    · exact h
    · exact { h with }

end Shared.Bounded

/-- The sections besides the insertion and the clearing keep every entry of the block cache. -/
theorem LockSection.KeepsBlocks.has_iff {x : LockSection} (hx : x.KeepsBlocks) (budget : ResourceBudget) (s : Shared)
    (key : BlockKey) (block : Bytes) : (x.apply budget s).blockCache.Has key block ↔ s.blockCache.Has key block := by
  cases x with
  | blockGet k => exact ClockCache.has_get
  | blockInsert => exact hx.elim
  | blockClear => exact hx.elim
  | recordAccess k =>
    show (PackageInner.recordAccess budget.normalProbationEntries k s).2.blockCache.Has key block ↔ _
    unfold PackageInner.recordAccess
    split <;> rfl
  | backendCall =>
    show s.nextFault.2.blockCache.Has key block ↔ _
    unfold Shared.nextFault
    split <;> rfl
  | _ => exact Iff.rfl

/-! ### Readers at the same time -/

section
variable [Crypto] [Target]

/-- What a reader does to a package. -/
inductive Operation
  | loadBlock (reference : BlockRef) (access : AccessClass)
  | loadPage (pageIndex : Nat) (expectedKind : PageKind)
  | openSegment (record : SegmentRecord)
  | prefetchBlock (reference : BlockRef) (access : AccessClass)
  | trim

namespace Operation

/-- The steps of an operation of a reader, and what is left of the reader. -/
def program (P : PackageInner) (st : ReadState) : Operation → Prog Shared ReadState
  | loadBlock reference access => (P.loadBlockBuffered reference access).run.run st >>= fun r => .ret r.2
  | loadPage i kind => (P.loadPage i kind).run.run st >>= fun r => .ret r.2
  | openSegment record => (P.openSegment record).run.run st >>= fun r => .ret r.2
  | prefetchBlock reference access => (P.prefetchBlock reference access).run.run st >>= fun r => .ret r.2
  | trim => PackageInner.trim.run.run st >>= fun r => .ret r.2

/-- The loads that are never admitted to the block cache, and the prefetches of them. -/
def Bypasses : Operation → Prop
  | loadBlock _ access => access = .streaming ∨ access = .transient
  | prefetchBlock _ access => access = .streaming ∨ access = .transient
  | _ => False

/-- The sections an operation may come to. -/
def May (op : Operation) (x : LockSection) : Prop := op.Bypasses → x.KeepsBlocks

theorem program_takes (P : PackageInner) (st : ReadState) (op : Operation) :
    (op.program P st).Takes (Sections P.budget op.May) := by
  have hkeep : ∀ (op : Operation) (x : LockSection), x.KeepsBlocks → op.May x := fun _ _ hx _ => hx
  have hcached : ∀ {access : AccessClass}, access = .hot ∨ access = .normal → ¬ (access = .streaming ∨ access = .transient) := by
    rintro access (rfl | rfl) (h | h)
    all_goals cases h
  cases op with
  | loadBlock reference access =>
    have hload : Touches (Sections P.budget (loadBlock reference access).May) (P.loadBlockBuffered reference access) :=
      touches_loadBlockBuffered (hkeep _) reference fun _ h hb => absurd hb (hcached h)
    exact (hload st).bind fun _ => trivial
  | loadPage i kind => exact (touches_loadPage (hkeep _) i kind st).bind fun _ => trivial
  | openSegment record => exact (touches_openSegment (hkeep _) record st).bind fun _ => trivial
  | prefetchBlock reference access =>
    have hprefetch : Touches (Sections P.budget (prefetchBlock reference access).May) (P.prefetchBlock reference access) :=
      touches_prefetchBlock (hkeep _) reference fun _ h hb => absurd hb (hcached h)
    exact (hprefetch st).bind fun _ => trivial
  | trim => exact (touches_trim (fun _ => nofun) st).bind fun _ => trivial

end Operation

/-- An operation on its way. -/
structure Activity where
  op : Operation
  program : Prog Shared ReadState

/-- The shared state of a package, its readers, and the handles that were used so far. -/
structure Runtime where
  shared : Shared
  uses : List SegmentId
  activities : List Activity

namespace Runtime

/-- A package just opened. -/
def opened (P : PackageInner) (faults : List (Option Fault)) : Runtime := ⟨.new P.budget faults, [], []⟩

/-- A reader begins an operation, takes one section of it, or ends it. -/
inductive Step (P : PackageInner) : Runtime → Runtime → Prop
  | start {s : Runtime} (op : Operation) (st : ReadState) :
      Step P s { s with activities := ⟨op, op.program P st⟩ :: s.activities }
  | advance {s : Runtime} {before after : List Activity} {op : Operation} {k : Shared → Prog Shared ReadState}
      (x : LockSection) (hfits : x.Fits P.budget)
      (h : s.activities = before ++ ⟨op, .step (fun t => x.apply P.budget t) k⟩ :: after) :
      Step P s ⟨x.apply P.budget s.shared, s.uses ++ x.uses s.shared.handles, before ++ ⟨op, k s.shared⟩ :: after⟩
  | finish {s : Runtime} {before after : List Activity} {op : Operation} {st : ReadState}
      (h : s.activities = before ++ ⟨op, .ret st⟩ :: after) : Step P s { s with activities := before ++ after }

/-- The bounds, and every operation on its way through sections it may come to. -/
structure Ok (P : PackageInner) (s : Runtime) : Prop where
  shared : s.shared.Bounded P.budget s.uses
  activities : ∀ a ∈ s.activities, a.program.Takes (Sections P.budget a.op.May)

variable {P : PackageInner} {s s' : Runtime}

omit [Crypto] [Target] in
theorem Ok.opened (faults : List (Option Fault)) : (opened P faults).Ok P := ⟨.new _ _, nofun⟩

theorem Ok.step (h : s.Ok P) (hstep : Step P s s') : s'.Ok P := by
  cases hstep with
  | start op st => exact { h with activities := List.forall_mem_cons.2 ⟨op.program_takes P st, h.activities⟩ }
  | advance x hfits hx =>
    have hall := h.activities
    rw [hx, List.forall_mem_append, List.forall_mem_cons] at hall
    obtain ⟨hbefore, ⟨-, hnext⟩, hafter⟩ := hall
    exact ⟨h.shared.step x hfits, List.forall_mem_append.2 ⟨hbefore, List.forall_mem_cons.2 ⟨hnext _, hafter⟩⟩⟩
  | finish hx =>
    have hall := h.activities
    rw [hx, List.forall_mem_append, List.forall_mem_cons] at hall
    exact { h with activities := List.forall_mem_append.2 ⟨hall.1, hall.2.2⟩ }

theorem Ok.run (h : s.Ok P) (hrun : Relation.ReflTransGen (Step P) s s') : s'.Ok P := by
  induction hrun with
  | refl => exact h
  | tail _ hstep ih => exact ih.step hstep

omit [Crypto] [Target] in
/-- What an operation on its way does next. -/
theorem Ok.next (h : s.Ok P) {a : Activity} (ha : a ∈ s.activities) :
    (∃ st, a.program = .ret st) ∨ ∃ (x : LockSection) (k : Shared → Prog Shared ReadState),
      x.Fits P.budget ∧ a.op.May x ∧ a.program = .step (fun t => x.apply P.budget t) k := by
  obtain ⟨op, program⟩ := a
  have htakes := h.activities _ ha
  cases program with
  | ret st => exact .inl ⟨st, rfl⟩
  | step f k =>
    obtain ⟨⟨x, hmay, hfits, rfl⟩, -⟩ := htakes
    exact .inr ⟨x, k, hfits, hmay, rfl⟩

omit [Crypto] [Target] in
/-- No step of a load that bypasses the block cache adds, evicts or replaces an entry of it. -/
theorem Ok.keeps_blocks (h : s.Ok P) {a : Activity} (ha : a ∈ s.activities) (hop : a.op.Bypasses) (key : BlockKey)
    (block : Bytes) : (a.program.advance s.shared).2.blockCache.Has key block ↔ s.shared.blockCache.Has key block := by
  rcases h.next ha with ⟨st, hret⟩ | ⟨x, k, -, hmay, hstep⟩
  · rw [hret]
    exact Iff.rfl
  · rw [hstep]
    exact (hmay hop).has_iff P.budget s.shared key block

end Runtime

omit [Crypto] [Target] in
/-- `second_normal_access` answers whether the key is on probation. -/
theorem secondNormalAccess_run {P : PackageInner} {s : Shared} (h : s.probation.length ≤ P.budget.normalProbationEntries)
    (key : BlockKey) (st : ReadState) :
    (((P.secondNormalAccess key).run.run st).run s).1 = (.ok (decide (key ∈ s.probation)), st) := by
  unfold PackageInner.secondNormalAccess
  by_cases hroom : P.budget.normalProbationEntries = 0
  · have hnil : s.probation = [] := List.length_eq_zero_iff.1 (by omega)
    rw [if_pos hroom, hnil]
    rfl
  · rw [if_neg hroom]
    show ((.ok (PackageInner.recordAccess P.budget.normalProbationEntries key s).1, st) : Result Bool × ReadState) = _
    unfold PackageInner.recordAccess
    split
    · rename_i hmem
      rw [decide_eq_true hmem]
    · rename_i hmem
      rw [decide_eq_false hmem]

/-- In every state that readers of a package reach together, between any two of their lock sections, the runtime state is
within the budget. -/
theorem resource_budget (P : PackageInner) (faults : List (Option Fault)) {s : Runtime}
    (hrun : Relation.ReflTransGen (Runtime.Step P) (.opened P faults) s) :
    (s.shared.pageCache.data ≤ P.budget.mapPageCacheBytes ∧ s.shared.blockCache.data ≤ P.budget.plaintextCacheBytes ∧
      s.shared.prefetchCache.data ≤ P.budget.prefetchCacheBytes) ∧
    (s.shared.handles.values.keys.length ≤ P.budget.idleSegmentHandles ∧
      s.shared.handles.order.Perm s.shared.handles.values.keys ∧
      (∀ id value, id ∉ s.shared.handles.values →
        s.shared.handles.values.keys.length < P.budget.idleSegmentHandles →
        (s.shared.handles.insert id value).values = s.shared.handles.values.insert id value) ∧
      ∀ id value, P.budget.idleSegmentHandles ≠ 0 → id ∉ s.shared.handles.values →
        s.shared.handles.values.keys.length = P.budget.idleSegmentHandles →
        ∃ oldest ∈ s.shared.handles.values.keys,
          (∀ other ∈ s.shared.handles.values.keys, other ≠ oldest → UsedBefore s.uses oldest other) ∧
          (s.shared.handles.insert id value).values = (s.shared.handles.values.erase oldest).insert id value) ∧
    (s.shared.probation.length ≤ P.budget.normalProbationEntries ∧ s.shared.probation.Nodup ∧
      ∀ key st, (((P.secondNormalAccess key).run.run st).run s.shared).1 = (.ok (decide (key ∈ s.shared.probation)), st)) ∧
    (∀ a ∈ s.activities, a.op.Bypasses → ∀ key block,
      (a.program.advance s.shared).2.blockCache.Has key block ↔ s.shared.blockCache.Has key block) ∧
    (s.shared.prefetchPopulated = false → s.shared.prefetchCache.entries = []) ∧
    ∀ a ∈ s.activities, (∃ st, a.program = .ret st) ∨ ∃ (x : LockSection) (k : Shared → Prog Shared ReadState),
      x.Fits P.budget ∧ a.program = .step (fun t => x.apply P.budget t) k := by
  have hok := (Runtime.Ok.opened (P := P) faults).run hrun
  have hshared := hok.shared
  have hcapacity := hshared.capacity
  refine ⟨⟨hshared.pages.data_le, hshared.blocks.data_le, hshared.prefetch.data_le⟩,
    ⟨hshared.handles.size.trans hcapacity.le, hshared.handles.order,
      fun id value hnew hroom => ?_, fun id value hne hnew hfull => ?_⟩,
    ⟨hshared.probation, hshared.distinct, secondNormalAccess_run hshared.probation⟩,
    fun a ha hop => hok.keeps_blocks ha hop, hshared.hint, fun a ha => ?_⟩
  · rw [← hcapacity] at hroom
    rw [HandleCache.insert_of_lt (fun hmem => hnew (AList.lookup_isSome.1 hmem)) hroom]
  · rw [← hcapacity] at hne hfull
    refine hshared.handles.evicts_oldest hshared.recent value hne (fun hmem => hnew ?_) hfull
    exact AList.lookup_isSome.1 hmem
  · rcases hok.next ha with hret | ⟨x, k, hfits, -, hstep⟩
    · exact .inl hret
    · exact .inr ⟨x, k, hfits, hstep⟩

end

/-! ### Two sections of a reader -/

/-- A package with the tight budget, without content. -/
def barePackage : PackageInner where
  snapshot := []
  source _ := none
  header := ⟨⟨.replicate 16 7⟩, 1, 0, 0, 0, 0, .replicate 16 0, .replicate 8 3, .replicate 16 0, .replicate 32 0,
    .replicate 64 0⟩
  catalog := ⟨[], 0, 0, 0, 0, 0, 0, 0, 0, 0, 0, 0, 0, 0⟩
  keys := ⟨.replicate 32 0⟩
  snapshotKey := .replicate 32 0
  pathKey := .replicate 32 0
  budget := .memoryConstrained

/-- A page load that looked into the page cache. -/
theorem resource_budget_sample : let _ := exampleCrypto; let _ := target64
    ∃ s : Runtime, Relation.ReflTransGen (Runtime.Step barePackage) (.opened barePackage []) s ∧ s.activities ≠ [] ∧
      s.shared.blockCache.data ≤ 16 * 1024 * 1024 ∧ s.shared.handles.order.Perm s.shared.handles.values.keys := by
  let _ := exampleCrypto
  let _ := target64
  let load : Activity := ⟨.loadPage 0 .reuse, (Operation.loadPage 0 .reuse).program barePackage (.new [])⟩
  have hstart := Runtime.Step.start (P := barePackage) (s := .opened barePackage []) (.loadPage 0 .reuse) (.new [])
  have hget : ∃ s, Runtime.Step barePackage { Runtime.opened barePackage [] with activities := [load] } s ∧
      s.activities ≠ [] :=
    ⟨_, @Runtime.Step.advance _ _ _ _ [] [] _ _ (.pageGet 0) trivial rfl, List.cons_ne_nil _ _⟩
  obtain ⟨s, hstep, hne⟩ := hget
  have hrun := (Relation.ReflTransGen.single hstart).tail hstep
  have hbounds := resource_budget barePackage [] hrun
  exact ⟨s, hrun, hne, hbounds.1.2.1, hbounds.2.1.2.1⟩

end Hakutaku
