import Hakutaku.Reader

/-!
# The lock sections of a package

Everything a reader does to the shared state of a package happens in one of a few sections, each under one lock
(`LockSection`). The programs of the reader are checked section by section: which ones a call can come to does not depend
on what other readers do.
-/

namespace Hakutaku
open Wire

/-- What is done under one lock, by one load of the prefetch hint, or in one call of the backend. -/
inductive LockSection
  | pageGet (pageIndex : Nat)
  | pageInsert (pageIndex : Nat) (page : Bytes)
  | pageClear
  | blockGet (key : BlockKey)
  | blockInsert (key : BlockKey) (block : Bytes)
  | blockClear
  | loadHint
  | prefetchGet (key : BlockKey)
  | prefetchInsert (key : BlockKey) (block : Bytes)
  | prefetchClear
  | recordAccess (key : BlockKey)
  | probationClear
  | handleGet (id : SegmentId)
  | handleInsert (id : SegmentId) (handle : SegmentHandle)
  | handleClear
  | backendCall

namespace LockSection

def apply (budget : ResourceBudget) (s : Shared) : LockSection → Shared
  | pageGet i => { s with pageCache := (s.pageCache.get i).2 }
  | pageInsert i page => { s with pageCache := s.pageCache.insert i page }
  | pageClear => { s with pageCache := s.pageCache.clear }
  | blockGet key => { s with blockCache := (s.blockCache.get key).2 }
  | blockInsert key block => { s with blockCache := s.blockCache.insert key block }
  | blockClear => { s with blockCache := s.blockCache.clear }
  | loadHint => s
  | prefetchGet key => { s with prefetchCache := (s.prefetchCache.get key).2 }
  | prefetchInsert key block => { s with prefetchCache := s.prefetchCache.insert key block, prefetchPopulated := true }
  | prefetchClear => { s with prefetchCache := s.prefetchCache.clear, prefetchPopulated := false }
  | recordAccess key => (PackageInner.recordAccess budget.normalProbationEntries key s).2
  | probationClear => { s with probation := [] }
  | handleGet id => { s with handles := (s.handles.get id).2 }
  | handleInsert id handle => { s with handles := s.handles.insert id handle }
  | handleClear => { s with handles := s.handles.clear }
  | backendCall => s.nextFault.2

/-- No entry of the block cache comes or goes. -/
def KeepsBlocks : LockSection → Prop
  | blockInsert _ _ => False
  | blockClear => False
  | _ => True

/-- A page or a probation entry is only recorded where the budget has room for one. -/
def Fits (budget : ResourceBudget) : LockSection → Prop
  | recordAccess _ => budget.normalProbationEntries ≠ 0
  | _ => True

end LockSection

/-- The updates of the sections with `allowed`. -/
def Sections (budget : ResourceBudget) (allowed : LockSection → Prop) (f : Shared → Shared) : Prop :=
  ∃ x : LockSection, allowed x ∧ x.Fits budget ∧ f = fun s => x.apply budget s

/-- The sections a block load of an access class may come to: only the classes that are admitted change the entries of the
block cache. -/
def LockSection.OfLoad (access : AccessClass) (x : LockSection) : Prop :=
  x.KeepsBlocks ∨ access = .hot ∨ access = .normal

section
variable {allowed : LockSection → Prop} {budget : ResourceBudget}

theorem Sections.mono {allowed' : LockSection → Prop} (h : ∀ x, allowed x → allowed' x) {f : Shared → Shared}
    (hf : Sections budget allowed f) : Sections budget allowed' f := by
  obtain ⟨x, hx, hfits, rfl⟩ := hf
  exact ⟨x, h x hx, hfits, rfl⟩

/-- The step of one section. -/
theorem touches_section {α : Type} {g : Shared → α × Shared} (x : LockSection) (hx : allowed x) (hfits : x.Fits budget)
    (hg : ∀ s, (g s).2 = x.apply budget s) : Touches (Sections budget allowed) (atomically g : ReadM α) :=
  .access ⟨x, hx, hfits, funext hg⟩

/-! ### Backend calls -/

theorem touches_nextFault (h : allowed .backendCall) : Touches (Sections budget allowed) (atomically Shared.nextFault) :=
  touches_section .backendCall h trivial fun _ => rfl

theorem touches_readInto (h : allowed .backendCall) (file : Bytes) (offset : Nat) (destination : Bytes) :
    Touches (Sections budget allowed) (readInto file offset destination) := by
  refine .bind (touches_nextFault h) fun fault => ?_
  cases fault with
  | some fault => exact .pure _
  | none =>
    dsimp only
    cases readExact file offset destination.length with
    | ok bytes => exact .pure _
    | error stop => exact .pure _

theorem touches_len (h : allowed .backendCall) (file : Bytes) : Touches (Sections budget allowed) (runtime.len file) := by
  refine .bind (touches_nextFault h) fun fault => ?_
  cases fault with
  | some fault => exact .lift _
  | none => exact .pure _

theorem touches_readExactAt (h : allowed .backendCall) (file : Bytes) (offset len : Nat) :
    Touches (Sections budget allowed) (runtime.readExactAt file offset len) :=
  .bind (touches_readInto h file offset _) fun r => .bind (.lift r.1) fun _ => .pure _

theorem touches_openSource (h : allowed .backendCall) (source : SegmentSource) (id : SegmentId) :
    Touches (Sections budget allowed) (runtime.openSource source id) := by
  refine .bind (touches_nextFault h) fun fault => ?_
  cases fault with
  | some fault => exact .lift _
  | none => exact .lift _

/-! ### Pages, segments and blocks -/

variable [Crypto] [Target] {P : PackageInner} (h : ∀ x, LockSection.KeepsBlocks x → allowed x)
include h

theorem touches_loadPage (i : Nat) (kind : PageKind) : Touches (Sections P.budget allowed) (P.loadPage i kind) := by
  refine .bind (touches_section (.pageGet i) (h _ trivial) trivial fun _ => rfl) fun cached => ?_
  cases cached with
  | some value => exact .pure value
  | none =>
    refine .bind (.bind (.lift _) fun page => ?_) fun decoded => ?_
    · exact .bind (.lift _) fun offset => .bind (touches_readExactAt (h _ trivial) _ _ _) fun _ => .lift _
    · exact .bind (touches_section (.pageInsert i decoded) (h _ trivial) trivial fun _ => rfl) fun _ => .pure _

theorem touches_openSegment (record : SegmentRecord) : Touches (Sections P.budget allowed) (P.openSegment record) := by
  refine .bind (touches_section (.handleGet record.id) (h _ trivial) trivial fun _ => rfl) fun cached => ?_
  cases cached with
  | some handle => exact .pure handle
  | none =>
    refine .bind ?_ fun handle => ?_
    · refine .bind (touches_openSource (h _ trivial) _ _) fun file => ?_
      refine .bind (touches_len (h _ trivial) _) fun len => ?_
      refine .ite (fun _ => .bind (.lift _) fun _ => ?_) fun _ => ?_
      all_goals
        refine .bind (touches_readExactAt (h _ trivial) _ _ _) fun bytes => ?_
        refine .bind (.lift _) fun header => ?_
        exact .ite (fun _ => .bind (.lift _) fun _ => .pure _) fun _ => .pure _
    · exact .bind (touches_section (.handleInsert record.id handle) (h _ trivial) trivial fun _ => rfl) fun _ => .pure _

theorem touches_segmentHandle (ordinal : UInt16) (record : SegmentRecord) :
    Touches (Sections P.budget allowed) (P.segmentHandle ordinal record) := by
  have hmiss : Touches (Sections P.budget allowed) (do
      let handle ← P.openSegment record
      modify fun st : ReadState => { st with reader := { st.reader with segment := some ⟨ordinal, handle⟩ } }
      return handle) :=
    .bind (touches_openSegment h record) fun handle => .bind (.update _) fun _ => .pure _
  refine .bind .get fun st => ?_
  split
  · exact .ite (fun _ => .pure _) fun _ => hmiss
  · exact hmiss

theorem touches_readStoredBlock (reference : BlockRef) :
    Touches (Sections P.budget allowed) (P.readStoredBlock reference) := by
  refine .bind (.lift _) fun segment => .bind (touches_segmentHandle h _ _) fun handle => ?_
  refine .bind (.bind (.update _) fun _ => .bind .get fun st => ?_) fun ciphertext => ?_
  · exact .bind (touches_readInto (h _ trivial) _ _ _) fun r => .bind (.update _) fun _ => .bind (.lift _) fun _ => .pure _
  · refine .bind (.lift _) fun stored => .bind (.update _) fun _ => ?_
    exact .bind .get fun st => .bind (.set _) fun _ => .lift _

omit [Crypto] [Target] in
theorem touches_blockCacheHit (key : BlockKey) (access : AccessClass) :
    Touches (Sections P.budget allowed) (PackageInner.blockCacheHit key access) :=
  .ite (fun _ => touches_section (.blockGet key) (h _ trivial) trivial fun _ => rfl) fun _ => .pure none

omit [Crypto] [Target] in
theorem touches_prefetchHit (key : BlockKey) : Touches (Sections P.budget allowed) (PackageInner.prefetchHit key) := by
  refine .bind (touches_section .loadHint (h _ trivial) trivial fun _ => rfl) fun populated => ?_
  refine .ite (fun _ => ?_) fun _ => .pure none
  exact touches_section (.prefetchGet key) (h _ trivial) trivial fun _ => rfl

omit [Crypto] [Target] in
theorem touches_secondNormalAccess (key : BlockKey) :
    Touches (Sections P.budget allowed) (P.secondNormalAccess key) :=
  .ite (fun _ => .pure false) fun hroom => touches_section (.recordAccess key) (h _ trivial) hroom fun _ => rfl

/-- A block load comes to a section that changes the entries of the block cache only if its class is admitted. -/
theorem touches_loadBlockBuffered (reference : BlockRef) {access : AccessClass}
    (hcached : ∀ block, access = .hot ∨ access = .normal → allowed (.blockInsert reference.key block)) :
    Touches (Sections P.budget allowed) (P.loadBlockBuffered reference access) := by
  have hdone : ∀ (plaintext : Buffer) (admitted : Bool), (admitted = true → access = .hot ∨ access = .normal) →
      Touches (Sections P.budget allowed) (if admitted then do
        atomically fun s => ((), { s with blockCache := s.blockCache.insert reference.key plaintext.bytes })
        return .shared plaintext.bytes
      else return .owned plaintext : ReadM BlockData) := by
    intro plaintext admitted hclass
    refine .ite (fun ha => ?_) fun _ => .pure _
    exact .bind (touches_section (.blockInsert reference.key plaintext.bytes) (hcached _ (hclass ha)) trivial fun _ => rfl)
      fun _ => .pure _
  refine .bind (touches_blockCacheHit h _ _) fun hit => ?_
  cases hit with
  | some value => exact .lift _
  | none =>
    refine .bind (touches_prefetchHit h _) fun hit => ?_
    cases hit with
    | some value => exact .lift _
    | none =>
      refine .bind (touches_readStoredBlock h reference) fun plaintext => ?_
      cases access with
      | hot => exact hdone plaintext true fun _ => .inl rfl
      | normal => exact .bind (touches_secondNormalAccess h _) fun admitted => hdone plaintext admitted fun _ => .inr rfl
      | streaming => exact hdone plaintext false nofun
      | transient => exact hdone plaintext false nofun

theorem touches_prefetchBlock (reference : BlockRef) {access : AccessClass}
    (hcached : ∀ block, access = .hot ∨ access = .normal → allowed (.blockInsert reference.key block)) :
    Touches (Sections P.budget allowed) (P.prefetchBlock reference access) := by
  refine .ite (fun _ => .pure _) fun _ => ?_
  refine .bind (touches_section (.blockGet reference.key) (h _ trivial) trivial fun _ => rfl) fun cached => ?_
  refine .ite (fun _ => .pure _) fun _ => ?_
  refine .bind (touches_prefetchHit h _) fun hit => ?_
  refine .ite (fun _ => .pure _) fun _ => ?_
  refine .bind (touches_loadBlockBuffered h reference hcached) fun plaintext => ?_
  refine .bind (touches_section (.blockGet reference.key) (h _ trivial) trivial fun _ => rfl) fun cached => ?_
  refine .ite (fun _ => ?_) fun _ => .pure _
  exact touches_section (.prefetchInsert reference.key plaintext.bytes) (h _ trivial) trivial fun _ => rfl

omit h [Crypto] [Target] in
theorem touches_trim (hall : ∀ x, allowed x) : Touches (Sections budget allowed) PackageInner.trim := by
  refine .bind (touches_section .pageClear (hall _) trivial fun _ => rfl) fun _ => ?_
  refine .bind (touches_section .blockClear (hall _) trivial fun _ => rfl) fun _ => ?_
  refine .bind (touches_section .prefetchClear (hall _) trivial fun _ => rfl) fun _ => ?_
  refine .bind (touches_section .probationClear (hall _) trivial fun _ => rfl) fun _ => ?_
  exact touches_section .handleClear (hall _) trivial fun _ => rfl

end

end Hakutaku
