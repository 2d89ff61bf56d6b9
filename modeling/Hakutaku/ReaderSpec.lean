import Hakutaku.BlockLookup
import Hakutaku.Reader

/-!
# The reader against its specification

`fetchPage`, `blockRef` and `fetchBlock` over the backend `ideal` are functions of the package alone.
Every call of the runtime computes what they say, or reports a failure of the backend, whatever the
caches hold and whatever other readers do in between, as long as the shared state is `Sound`: every
cached value is the one the specification gives. The streaming window of a reader is compared step by
step to a window without buffers.
-/

namespace Hakutaku
open Wire

section
variable [Crypto] [Target]

namespace PackageInner
variable (P : PackageInner)

def idealPage (pageIndex : Nat) (expectedKind : PageKind) : Result Bytes := P.fetchPage ideal pageIndex expectedKind

def idealRef (globalIndex : Nat) : Result BlockRef := P.catalog.blockRef P.idealPage globalIndex

def idealBlock (reference : BlockRef) : Result Bytes := P.fetchBlock ideal reference

/-- What prefetching a block reports. -/
def idealPrefetch (reference : BlockRef) : Result Unit :=
  if P.budget.prefetchCacheBytes = 0 ∨ P.budget.prefetchCacheBytes < reference.plainLen.toNat then .ok ()
  else P.idealBlock reference >>= fun _ => .ok ()

/-- What the caches rely on: one record for each segment id, and one stored block for each key. -/
structure Coherent : Prop where
  wf : P.catalog.WellFormed
  distinct : ∀ i j r r', P.catalog.segment i = .ok r → P.catalog.segment j = .ok r' → r.id = r'.id → i = j
  agree : ∀ g g' r r', P.idealRef g = .ok r → P.idealRef g' = .ok r' → r.key = r'.key → r.SameBlock r'

/-- A cached block is the specified one. -/
def BlockOf (key : BlockKey) (bytes : Bytes) : Prop :=
  ∃ g r, P.idealRef g = .ok r ∧ r.key = key ∧ P.idealBlock r = .ok bytes

/-- A segment handle is the one of the record with that ordinal. -/
def HandleOf (ordinal : Nat) (handle : SegmentHandle) : Prop :=
  ∃ r, P.catalog.segment ordinal = .ok r ∧ P.fetchSegment ideal r = .ok handle

/-- Every cached value is the one the specification gives, and the backend only fails in the ways `K`. -/
structure SoundFor (K : IoKind → Prop) (s : Shared) : Prop where
  pagesOk : s.pageCache.Ok
  pages : ∀ i b, s.pageCache.Has i b → P.idealPage i (P.catalog.pageKind i) = .ok b
  blocksOk : s.blockCache.Ok
  blocks : ∀ k b, s.blockCache.Has k b → P.BlockOf k b
  prefetchOk : s.prefetchCache.Ok
  prefetch : ∀ k b, s.prefetchCache.Has k b → P.BlockOf k b
  handles : ∀ id h, s.handles.values.lookup id = some h →
    ∃ i r, P.catalog.segment i = .ok r ∧ r.id = id ∧ P.fetchSegment ideal r = .ok h
  faults : ∀ fault, some fault ∈ s.faults → K fault.kind

/-- Whatever way the backend fails. -/
abbrev Sound (s : Shared) : Prop := P.SoundFor (fun _ => True) s

theorem SoundFor.new {K : IoKind → Prop} (budget : ResourceBudget) {faults : List (Option Fault)}
    (hfaults : ∀ fault, some fault ∈ faults → K fault.kind) : P.SoundFor K (.new budget faults) where
  pagesOk := .new _
  pages _ _ h := absurd h (ClockCache.not_has_new _)
  blocksOk := .new _
  blocks _ _ h := absurd h (ClockCache.not_has_new _)
  prefetchOk := .new _
  prefetch _ _ h := absurd h (ClockCache.not_has_new _)
  handles _ _ h := by cases h
  faults := hfaults

theorem Sound.new (budget : ResourceBudget) (faults : List (Option Fault)) : P.Sound (.new budget faults) :=
  SoundFor.new P budget fun _ _ => trivial

end PackageInner

/-- The visible part of a reader: its window, without the buffers behind it. -/
structure Window where
  current : Option (BlockRef × Bytes)
  previous : Option (BlockRef × Bytes)
  destination : Bytes

def CursorBlock.view (b : CursorBlock) : BlockRef × Bytes := (b.reference, b.data.bytes)

def ReadState.view (st : ReadState) : Window := ⟨st.current.map CursorBlock.view, st.previous.map CursorBlock.view, st.destination⟩

variable {P : PackageInner}

/-- A block of the window is a block of the file, with its specified content. -/
def PackageInner.InWindow (P : PackageInner) (file : FileRecord) (b : BlockRef × Bytes) : Prop :=
  ∃ i < file.blockCount.toNat, P.idealRef (file.firstBlock.toNat + i) = .ok b.1 ∧ P.idealBlock b.1 = .ok b.2

/-- What a reader of a file keeps across its calls, whether they succeed or fail. -/
structure PackageInner.Valid (P : PackageInner) (file : FileRecord) (st : ReadState) : Prop where
  current : ∀ b ∈ st.view.current, P.InWindow file b
  previous : ∀ b ∈ st.view.previous, P.InWindow file b
  segment : ∀ s ∈ st.reader.segment, P.HandleOf s.ordinal.toNat s.handle

theorem PackageInner.Valid.new (file : FileRecord) (destination : Bytes) : P.Valid file (.new destination) where
  current _ h := by cases h
  previous _ h := by cases h
  segment _ h := by cases h

/-- The buffers may change. -/
theorem PackageInner.Valid.withReader {file : FileRecord} {st : ReadState} (h : P.Valid file st) {r : BlockReader}
    (hr : r.segment = st.reader.segment) : P.Valid file { st with reader := r } :=
  ⟨h.current, h.previous, fun s hs => h.segment s (hr ▸ hs)⟩

theorem PackageInner.Valid.withCiphertext {file : FileRecord} {st : ReadState} (h : P.Valid file st) (bytes : Bytes) :
    P.Valid file { st with reader := { st.reader with ciphertext := { st.reader.ciphertext with bytes } } } :=
  h.withReader rfl

theorem PackageInner.Valid.withDestination {file : FileRecord} {st : ReadState} (h : P.Valid file st) (destination : Bytes) :
    P.Valid file { st with destination := destination } :=
  ⟨h.current, h.previous, h.segment⟩

/-- The failures of a backend that fails in the ways `K`. -/
def IoFault (K : IoKind → Prop) (e : Stop Error) : Prop := ∃ kind, K kind ∧ e = .err (.io kind)

/-- A call that leaves the window alone computes a result of the specification, or fails in one of the ways `K`. -/
abbrev PackageInner.ReadsFor (P : PackageInner) (K : IoKind → Prop) (file : FileRecord) {α β : Type} (f : α → β)
    (p : ReadM α) (x : Result β) (st : ReadState) : Prop :=
  Computes (P.SoundFor K) (P.Valid file) ReadState.view (IoFault K) f p x st

abbrev PackageInner.Reads (P : PackageInner) (file : FileRecord) {α β : Type} (f : α → β) (p : ReadM α) (x : Result β)
    (st : ReadState) : Prop :=
  P.ReadsFor (fun _ => True) file f p x st

variable {K : IoKind → Prop} {file : FileRecord} {st : ReadState}

/-- `if c { return Err(e) }` on both sides. -/
theorem reads_failIf {α β : Type} {c : Prop} [Decidable c] {e : Error} {k : PUnit → ReadM α} {p : ReadM α}
    {f : α → β} {y : PUnit → Result β} {x : Result β} (hs : P.Valid file st) (hp : ¬ c → P.ReadsFor K file f p x st) :
    P.ReadsFor K file f (if c then (liftM (fail e : Result PUnit) : ReadM PUnit) >>= k else p)
      (if c then (fail e : Result PUnit) >>= y else x) st :=
  Computes.ite (fun _ => Computes.throw hs (Stop.err e)) hp

/-! ### Backend calls -/

theorem Shared.nextFault_sound {s : Shared} (h : P.SoundFor K s) :
    P.SoundFor K s.nextFault.2 ∧ ∀ fault ∈ s.nextFault.1, K fault.kind := by
  unfold nextFault
  split
  · exact ⟨h, nofun⟩
  · rename_i fault rest hfaults
    have hkinds := h.faults
    rw [hfaults] at hkinds
    refine ⟨⟨h.pagesOk, h.pages, h.blocksOk, h.blocks, h.prefetchOk, h.prefetch, h.handles, fun f hf => ?_⟩, ?_⟩
    · exact hkinds f (List.mem_cons_of_mem _ hf)
    · rintro f ⟨⟩
      exact hkinds f (List.mem_cons_self ..)

theorem nextFault_bind {α β : Type} {k : Option Fault → ReadM α} {f : α → β} {x : Result β} (hs : P.Valid file st)
    (hfault : ∀ fault, k (some fault) = liftM (fail (.io fault.kind) : Result α))
    (hnone : P.ReadsFor K file f (k none) x st) : P.ReadsFor K file f (atomically Shared.nextFault >>= k) x st := by
  refine Computes.access_bind (Q := fun a : Option Fault => ∀ fault ∈ a, K fault.kind) (fun t ht => Shared.nextFault_sound ht) fun a ha => ?_
  cases a with
  | none => exact hnone
  | some fault =>
    rw [hfault]
    exact Computes.fault hs ⟨fault.kind, ha fault rfl, rfl⟩

theorem runtime_len (hs : P.Valid file st) (bytes : Bytes) : P.ReadsFor K file id (runtime.len bytes) (ideal.len bytes) st :=
  nextFault_bind hs (fun _ => rfl) (Computes.pure hs _)

theorem runtime_openSource (hs : P.Valid file st) (source : SegmentSource) (id' : SegmentId) :
    P.ReadsFor K file id (runtime.openSource source id') (ideal.openSource source id') st :=
  nextFault_bind hs (fun _ => rfl) (Computes.lift hs _)

omit [Crypto] [Target] in
theorem readExact_eq_ok {bytes out : Bytes} {offset len : Nat} :
    readExact bytes offset len = .ok out ↔ (len = 0 ∨ offset + len ≤ bytes.length) ∧ out = slice bytes offset len := by
  unfold readExact
  split
  · simp [*, eq_comm]
  · simp [*]

/-- The rest of a read, behind what the system says of it. -/
def readIntoRest (bytes : Bytes) (offset : Nat) (destination : Bytes) : Option Fault → ReadM (Result Unit × Bytes)
  | some fault => pure (fail (.io fault.kind), overlay fault.torn destination)
  | none =>
    match readExact bytes offset destination.length with
    | .ok out => pure (.ok (), out)
    | .error stop => pure (.error stop, overlay (bytes.drop offset) destination)

/-- A positioned read into a destination. -/
theorem readInto_reads {α β : Type} {k : Result Unit × Bytes → ReadM α} {f : α → β} {x : Bytes → Result β}
    (bytes : Bytes) (offset : Nat) {destination : Bytes} {len : Nat} (hlen : destination.length = len)
    (hok : ∀ out, readExact bytes offset len = .ok out → P.ReadsFor K file f (k (.ok (), out)) (x out) st)
    (herr : ∀ stop out, P.ReadsFor K file f (k (.error stop, out)) (.error stop) st)
    (hfault : ∀ kind out, K kind → P.ReadsFor K file f (k (fail (.io kind), out)) (readExact bytes offset len >>= x) st) :
    P.ReadsFor K file f (readInto bytes offset destination >>= k) (readExact bytes offset len >>= x) st := by
  subst hlen
  refine Computes.access_bind (k := fun a => readIntoRest bytes offset destination a >>= k)
    (Q := fun a : Option Fault => ∀ fault ∈ a, K fault.kind) (fun t ht => Shared.nextFault_sound ht) fun a ha => ?_
  cases a with
  | none =>
    unfold readIntoRest
    cases hr : readExact bytes offset destination.length with
    | ok out => exact hok out hr
    | error stop => exact herr stop _
  | some fault => exact hfault fault.kind _ (ha fault rfl)

theorem runtime_readExactAt (hs : P.Valid file st) (bytes : Bytes) (offset len : Nat) :
    P.ReadsFor K file id (runtime.readExactAt bytes offset len) (ideal.readExactAt bytes offset len) st := by
  have h : P.ReadsFor K file id (readInto bytes offset (zeros len) >>= fun r => do r.1; return r.2)
      (readExact bytes offset len >>= fun out => .ok out) st :=
    readInto_reads bytes offset (length_zeros len) (fun out _ => Computes.pure hs out)
      (fun stop _ => Computes.throw hs stop) fun kind _ hkind => Computes.fault hs ⟨kind, hkind, rfl⟩
  have hid : (readExact bytes offset len >>= fun out => (.ok out : Result Bytes)) = readExact bytes offset len := by
    cases readExact bytes offset len <;> rfl
  rw [hid] at h
  exact h

/-! ### Pages and block references -/

theorem fetchPage_reads (hs : P.Valid file st) (i : Nat) (k : PageKind) :
    P.ReadsFor K file id (P.fetchPage runtime i k) (P.idealPage i k) st := by
  refine .bind (.lift hs (P.catalog.pageOfKind i k)) fun page s hs _ _ => ?_
  refine .bind (.lift hs (checkedOffset _ _)) fun offset s hs _ _ => ?_
  refine .bind (runtime_readExactAt hs _ _ _) fun ciphertext s hs _ _ => ?_
  exact .lift hs _

/-- `load_page` with the kind the catalog gives the page. -/
theorem loadPage_reads (hs : P.Valid file st) (i : Nat) :
    P.ReadsFor K file id (P.loadPage i (P.catalog.pageKind i)) (P.idealPage i (P.catalog.pageKind i)) st := by
  refine .access_bind (Q := fun hit => ∀ b, hit = some b → P.idealPage i (P.catalog.pageKind i) = .ok b) ?_ ?_
  · intro t ht
    refine ⟨{ ht with pagesOk := ht.pagesOk.get i, pages := fun j b hb => ht.pages j b (ClockCache.has_get.1 hb) }, ?_⟩
    exact fun b hb => ht.pages i b (ht.pagesOk.has_of_get hb)
  · intro hit hQ
    cases hit with
    | some b =>
      rw [hQ b rfl]
      exact .pure hs b
    | none =>
      have hid : P.idealPage i (P.catalog.pageKind i) = P.idealPage i (P.catalog.pageKind i) >>= fun b => .ok b := by
        cases P.idealPage i (P.catalog.pageKind i) <;> rfl
      rw [hid]
      refine .bind (fetchPage_reads hs i _) fun b s hs _ hb => ?_
      refine .access_bind (Q := fun _ => True) (fun t ht => ⟨?_, trivial⟩) fun _ _ => .pure hs b
      refine { ht with pagesOk := ht.pagesOk.insert i b, pages := fun j b' hj => ?_ }
      rcases ht.pagesOk.has_insert hj with hold | ⟨rfl, rfl⟩
      · exact ht.pages j b' hold
      · exact hb

theorem blockRef_reads (hs : P.Valid file st) (g : Nat) : P.ReadsFor K file id (P.blockRef g) (P.idealRef g) st := by
  refine .bind (.lift hs (validateGlobalBlockIndex _ _ _)) fun page s hs _ hpage => ?_
  refine .bind (.lift hs (plainMul _ _ _)) fun first s hs _ _ => ?_
  have hkind : P.catalog.pageKind page = .blockMap := by
    have hpage' : validateGlobalBlockIndex g P.catalog.totalBlocks.toNat P.catalog.mapPageCount.toNat = .ok page := hpage
    simp only [validateGlobalBlockIndex, fail_bind, ite_fail_eq_ok, pure_eq_ok, Except.ok.injEq] at hpage'
    obtain ⟨-, hle, rfl⟩ := hpage'
    exact Catalog.pageKind_of_lt (Nat.lt_of_not_le hle)
  rw [← hkind]
  refine .bind (loadPage_reads hs page) fun bytes s hs _ _ => ?_
  refine .bind (.lift hs (validateMapPage _ _)) fun count s hs _ _ => ?_
  refine .bind (.lift hs (plainSub _ _)) fun localIndex s hs _ _ => ?_
  refine .bind (.lift hs (validateLocalBlockIndex _ _)) fun _ s hs _ _ => ?_
  exact .lift hs _

theorem idealRef_lt {g : Nat} {r : BlockRef} (h : P.idealRef g = .ok r) : g < P.catalog.totalBlocks.toNat := by
  unfold PackageInner.idealRef Catalog.blockRef validateGlobalBlockIndex at h
  simp only [Catalog.liftM_result, fail_bind, bind_eq_ok, ite_fail_eq_ok] at h
  obtain ⟨_, ⟨hlt, -⟩, -⟩ := h
  exact Nat.lt_of_not_le hlt

theorem searchBlock_reads (hs : P.Valid file st) (f : FileRecord) (offset left low high : Nat) :
    P.ReadsFor K file id (f.searchBlock P.blockRef offset left low high) (f.searchBlock P.idealRef offset left low high) st := by
  induction left generalizing st low high with
  | zero => exact .pure hs low
  | succ left ih =>
    refine .ite (fun _ => ?_) fun _ => .pure hs low
    refine .bind (.lift hs (plainSub _ _)) fun span s hs _ _ => ?_
    refine .bind (.lift hs (plainAdd _ _ _)) fun mid s hs _ _ => ?_
    refine .bind (.lift hs (okOr _ _)) fun g s hs _ _ => ?_
    refine .bind (blockRef_reads hs g) fun r s hs _ _ => ?_
    refine .ite (fun _ => ?_) fun _ => ih hs _ _
    exact .bind (.lift hs (plainAdd _ _ _)) fun next s hs _ _ => ih hs _ _

theorem localIndex_reads (hs : P.Valid file st) (f : FileRecord) (offset : Nat) :
    P.ReadsFor K file id (f.localIndex P.blockRef offset) (f.localIndex P.idealRef offset) st := by
  unfold FileRecord.localIndex
  cases f.layout with
  | fixed => exact .ite (fun _ => .bind (.lift hs (fail _)) fun _ s hs _ _ => .pure hs _) fun _ => .pure hs _
  | contentDefined => exact .bind (searchBlock_reads hs f _ _ _ _) fun low s hs _ _ => .pure hs _

theorem referenceForOffset_reads (hs : P.Valid file st) (f : FileRecord) (offset : Nat) :
    P.ReadsFor K file id (f.referenceForOffset P.blockRef offset) (f.referenceForOffset P.idealRef offset) st := by
  refine reads_failIf hs fun _ => ?_
  refine .bind (localIndex_reads hs f offset) fun i s hs _ _ => ?_
  refine reads_failIf hs fun _ => ?_
  refine .bind (.lift hs (okOr _ _)) fun g s hs _ _ => ?_
  refine .bind (blockRef_reads hs g) fun r s hs _ _ => ?_
  refine .bind (.lift hs (okOr _ _)) fun stop s hs _ _ => ?_
  exact reads_failIf hs fun _ => .pure hs r

/-! ### Segments -/

omit [Crypto] [Target] in
theorem HandleCache.lookup_makeRoom {capacity : Nat} {values : AList fun _ : SegmentId => SegmentHandle}
    {order : List SegmentId} {i : SegmentId} {h : SegmentHandle}
    (hl : (makeRoom capacity values order).values.lookup i = some h) : values.lookup i = some h := by
  induction order generalizing values with
  | nil => exact hl
  | cons oldest rest ih =>
    rw [makeRoom] at hl
    split at hl
    · have herase := ih hl
      rcases eq_or_ne i oldest with rfl | hne
      · rw [AList.lookup_erase] at herase
        cases herase
      · rwa [AList.lookup_erase_ne hne] at herase
    · exact hl

omit [Crypto] [Target] in
theorem HandleCache.lookup_insert {c : HandleCache} {i j : SegmentId} {h h' : SegmentHandle}
    (hl : (c.insert i h).values.lookup j = some h') : c.values.lookup j = some h' ∨ (j = i ∧ h' = h) := by
  unfold insert at hl
  split at hl
  · exact .inl hl
  · rcases eq_or_ne j i with rfl | hne
    · exact .inr ⟨rfl, by simpa [eq_comm] using hl⟩
    · exact .inl (lookup_makeRoom (by simpa [AList.lookup_insert_ne hne] using hl))

omit [Crypto] [Target] in
theorem HandleCache.get_spec (c : HandleCache) (i : SegmentId) :
    (c.get i).1 = c.values.lookup i ∧ (c.get i).2.values = c.values := by
  unfold get
  cases h : c.values.lookup i with
  | none => exact ⟨rfl, rfl⟩
  | some value => exact ⟨rfl, rfl⟩

theorem fetchSegment_reads (hs : P.Valid file st) (record : SegmentRecord) :
    P.ReadsFor K file id (P.fetchSegment runtime record) (P.fetchSegment ideal record) st := by
  refine .bind (runtime_openSource hs _ _) fun bytes s hs _ _ => ?_
  refine .bind (runtime_len hs _) fun len s hs _ _ => ?_
  refine reads_failIf hs fun _ => ?_
  refine .bind (runtime_readExactAt hs _ _ _) fun header s hs _ _ => ?_
  refine .bind (.lift hs (SegmentHeader.parse _)) fun header s hs _ _ => ?_
  exact reads_failIf hs fun _ => .pure hs _

theorem openSegment_reads (hP : P.Coherent) (hs : P.Valid file st) {i : Nat} {record : SegmentRecord}
    (hrecord : P.catalog.segment i = .ok record) :
    P.ReadsFor K file id (P.openSegment record) (P.fetchSegment ideal record) st := by
  refine .access_bind (Q := fun hit => ∀ h, hit = some h → P.fetchSegment ideal record = .ok h) ?_ ?_
  · intro t ht
    obtain ⟨hget, hvalues⟩ := t.handles.get_spec record.id
    refine ⟨{ ht with handles := fun i h hl => ht.handles i h (hvalues ▸ hl) }, fun h hh => ?_⟩
    obtain ⟨j, r, hr, hid, hfetch⟩ := ht.handles record.id h (hget ▸ hh)
    obtain rfl := hP.distinct j i r record hr hrecord hid
    rw [hrecord, Except.ok.injEq] at hr
    rwa [hr]
  · intro hit hQ
    cases hit with
    | some h =>
      rw [hQ h rfl]
      exact .pure hs h
    | none =>
      have hid : P.fetchSegment ideal record = P.fetchSegment ideal record >>= fun h => .ok h := by
        cases P.fetchSegment ideal record <;> rfl
      rw [hid]
      refine .bind (fetchSegment_reads hs record) fun h s hs _ hh => ?_
      refine .access_bind (Q := fun _ => True) (fun t ht => ⟨?_, trivial⟩) fun _ _ => .pure hs h
      refine { ht with handles := fun j h' hl => ?_ }
      rcases HandleCache.lookup_insert hl with hold | ⟨rfl, rfl⟩
      · exact ht.handles j h' hold
      · exact ⟨i, record, hrecord, rfl, hh⟩

theorem segmentHandle_reads (hP : P.Coherent) (hs : P.Valid file st) {ordinal : UInt16} {record : SegmentRecord}
    (hrecord : P.catalog.segment ordinal.toNat = .ok record) :
    P.ReadsFor K file id (P.segmentHandle ordinal record) (P.fetchSegment ideal record) st := by
  have hid : P.fetchSegment ideal record = P.fetchSegment ideal record >>= fun h => .ok h := by
    cases P.fetchSegment ideal record <;> rfl
  have hmiss : P.ReadsFor K file id (do
      let handle ← P.openSegment record
      modify fun st : ReadState => { st with reader := { st.reader with segment := some ⟨ordinal, handle⟩ } }
      return handle) (P.fetchSegment ideal record) st := by
    rw [hid]
    refine .bind (openSegment_reads hP hs hrecord) fun h s hs _ hh => ?_
    refine .modify_bind rfl (.pure ⟨hs.current, hs.previous, ?_⟩ h)
    rintro _ ⟨⟩
    exact ⟨record, hrecord, hh⟩
  refine .get_bind ?_
  split
  · rename_i segment hsegment
    split
    · rename_i hordinal
      obtain ⟨r, hr, hfetch⟩ := hs.segment segment hsegment
      rw [hordinal, hrecord, Except.ok.injEq] at hr
      rw [hr, hfetch]
      exact .pure hs _
    · exact hmiss
  · exact hmiss

/-! ### Blocks -/

omit [Crypto] [Target] in
theorem Buffer.length_resize (b : Buffer) (len : Nat) : (b.resize len).bytes.length = len := by
  simp only [resize, List.length_append, List.length_take, length_zeros]
  omega

omit [Crypto] [Target] in
theorem BlockReader.prepareCiphertext_spec (r : BlockReader) (len : Nat) :
    (r.prepareCiphertext len).ciphertext.bytes.length = len ∧ (r.prepareCiphertext len).segment = r.segment := by
  unfold prepareCiphertext
  dsimp only
  split
  · exact ⟨Buffer.length_resize _ _, rfl⟩
  · exact ⟨Buffer.length_resize _ _, rfl⟩

omit [Target] in
/-- Decoding in the reader's buffers is decoding. -/
theorem decodeBuffered_spec (codec : Codec) (r : BlockReader) (n : Nat) :
    (decodeBuffered codec r n).1.map Buffer.bytes = decodeOwned codec r.ciphertext.bytes n ∧
      (decodeBuffered codec r n).2.segment = r.segment := by
  cases codec with
  | raw =>
    simp only [decodeBuffered, decodeOwned]
    split
    · exact ⟨rfl, rfl⟩
    · exact ⟨rfl, rfl⟩
  | zstd =>
    have hlen := r.plaintext.length_resize n
    simp only [decodeBuffered, decodeOwned, decompressZstdExact, decompressZstdExactInto, hlen]
    cases Crypto.decompress r.ciphertext.bytes n with
    | none => exact ⟨rfl, rfl⟩
    | some written =>
      dsimp only
      simp only [okOr, ok_bind]
      by_cases hw : written.length = n
      · have hover : overlay written (r.plaintext.resize n).bytes = written := by
          have hle : (r.plaintext.resize n).bytes.length ≤ written.length := by omega
          rw [overlay, List.take_of_length_le (by omega), List.drop_of_length_le hle, List.append_nil]
        rw [if_neg (not_not.2 hw), if_neg (not_not.2 hw), hover]
        exact ⟨rfl, rfl⟩
      · rw [if_pos hw, if_pos hw]
        exact ⟨rfl, rfl⟩

theorem decodeStored_reads (hs : P.Valid file st) {codec : Codec} {n : Nat} {stored : Bytes}
    (hstored : st.reader.ciphertext.bytes = stored) :
    P.ReadsFor K file Buffer.bytes (PackageInner.decodeStored codec n) (decodeOwned codec stored n) st := by
  obtain ⟨hdecode, hseg⟩ := decodeBuffered_spec codec st.reader n
  rw [← hstored, ← hdecode]
  have hset := hs.withReader hseg
  unfold PackageInner.decodeStored
  refine .get_bind ?_
  generalize decodeBuffered codec st.reader n = decoded at hset
  exact .set_bind rfl (.liftMap hset _)

theorem setCiphertext_bind {α β : Type} {k : PUnit → ReadM α} {f : α → β} {x : Result β} {bytes : Bytes}
    (h : P.ReadsFor K file f (k ⟨⟩) x
      { st with reader := { st.reader with ciphertext := { st.reader.ciphertext with bytes } } }) :
    P.ReadsFor K file f (PackageInner.setCiphertext bytes >>= k) x st := .modify_bind rfl h

theorem fillCiphertext_reads (hs : P.Valid file st) (bytes : Bytes) (offset len : Nat) :
    P.ReadsFor K file id (PackageInner.fillCiphertext bytes offset len) (readExact bytes offset len) st := by
  obtain ⟨hlen, hseg⟩ := st.reader.prepareCiphertext_spec len
  have hprep := hs.withReader hseg
  have hid : readExact bytes offset len = readExact bytes offset len >>= fun out => .ok out := by
    cases readExact bytes offset len <;> rfl
  rw [hid]
  unfold PackageInner.fillCiphertext
  refine .modify_bind rfl (.get_bind ?_)
  generalize st.reader.prepareCiphertext len = r at hprep hlen
  refine readInto_reads _ _ hlen (fun out _ => ?_) (fun stop out => ?_) fun kind out hkind => ?_
  · exact setCiphertext_bind (.ok_bind (.pure (hprep.withCiphertext out) out))
  · exact setCiphertext_bind (.throw (hprep.withCiphertext out) stop)
  · exact setCiphertext_bind (.fault (hprep.withCiphertext out) ⟨kind, hkind, rfl⟩)

/-- Reading a stored block through the reader's buffers. -/
theorem readStoredBlock_reads (hP : P.Coherent) (hs : P.Valid file st) (r : BlockRef) :
    P.ReadsFor K file Buffer.bytes (P.readStoredBlock r) (P.idealBlock r) st := by
  refine .bind (.lift hs (P.locateBlock r)) fun segment s hs _ hsegment => ?_
  have hrecord : P.catalog.segment r.segmentOrdinal.toNat = .ok segment := by
    have hlocate : P.locateBlock r = .ok segment := hsegment
    simp only [PackageInner.locateBlock, bind_eq_ok] at hlocate
    obtain ⟨record, hrecord, hrest⟩ := hlocate
    simp only [fail_bind, ite_fail_eq_ok, bind_eq_ok, pure_eq_ok, Except.ok.injEq] at hrest
    obtain ⟨-, -, -, -, rfl⟩ := hrest
    exact hrecord
  refine .bind (segmentHandle_reads hP hs hrecord) fun handle s hs _ _ => ?_
  refine .bind (fillCiphertext_reads hs _ _ _) fun ciphertext s hs _ _ => ?_
  refine .bind (.lift hs (P.openBlock segment handle.key r ciphertext)) fun stored s hs _ _ => ?_
  exact setCiphertext_bind (decodeStored_reads (hs.withCiphertext stored) rfl)

theorem length_idealBlock {r : BlockRef} {b : Bytes} (h : P.idealBlock r = .ok b) : b.length = r.plainLen.toNat := by
  unfold PackageInner.idealBlock PackageInner.fetchBlock at h
  simp only [bind_eq_ok] at h
  obtain ⟨_, -, _, -, _, -, _, -, hdecode⟩ := h
  exact length_of_decodeOwned hdecode

/-- The content of a block does not depend on where the file uses it. -/
theorem idealBlock_congr {r r' : BlockRef} (h : r.SameBlock r') : P.idealBlock r = P.idealBlock r' := by
  have hr : P.idealBlock r = P.idealBlock { r with logicalOffset := 0 } := rfl
  have hr' : P.idealBlock r' = P.idealBlock { r' with logicalOffset := 0 } := rfl
  rw [hr, hr']
  exact congrArg P.idealBlock h

/-- A cached block is the one every reference with its key asks for. -/
theorem PackageInner.Coherent.idealBlock_eq (hP : P.Coherent) {g : Nat} {r : BlockRef} (hr : P.idealRef g = .ok r)
    {b : Bytes} (hb : P.BlockOf r.key b) : P.idealBlock r = .ok b := by
  obtain ⟨g', r', hr', hkey, hblock⟩ := hb
  rw [← idealBlock_congr (hP.agree g' g r' r hr' hr hkey)]
  exact hblock

/-- The hit of a cache of blocks. -/
theorem cachedBlock_reads (hP : P.Coherent) (hs : P.Valid file st) {g : Nat} {r : BlockRef} (hr : P.idealRef g = .ok r)
    {b : Bytes} (hb : P.BlockOf r.key b) (reason : String) :
    P.ReadsFor K file BlockData.bytes (liftM (PackageInner.cachedBlock r b reason) : ReadM BlockData) (P.idealBlock r) st := by
  have hblock := hP.idealBlock_eq hr hb
  have hcached : PackageInner.cachedBlock r b reason = .ok (.shared b) := by
    rw [PackageInner.cachedBlock, if_neg (not_not.2 (length_idealBlock hblock))]
    rfl
  rw [hcached, hblock]
  exact .pure hs (BlockData.shared b)

theorem blockCache_get (t : Shared) (k : BlockKey) (ht : P.SoundFor K t) :
    P.SoundFor K { t with blockCache := (t.blockCache.get k).2 } ∧ ∀ b, (t.blockCache.get k).1 = some b → P.BlockOf k b :=
  ⟨{ ht with blocksOk := ht.blocksOk.get k, blocks := fun j b hb => ht.blocks j b (ClockCache.has_get.1 hb) },
    fun b hb => ht.blocks k b (ht.blocksOk.has_of_get hb)⟩

theorem prefetchCache_get (t : Shared) (k : BlockKey) (ht : P.SoundFor K t) :
    P.SoundFor K { t with prefetchCache := (t.prefetchCache.get k).2 } ∧
      ∀ b, (t.prefetchCache.get k).1 = some b → P.BlockOf k b :=
  ⟨{ ht with prefetchOk := ht.prefetchOk.get k, prefetch := fun j b hb => ht.prefetch j b (ClockCache.has_get.1 hb) },
    fun b hb => ht.prefetch k b (ht.prefetchOk.has_of_get hb)⟩

/-- The lookup in the block cache, before anything else. -/
theorem blockCacheHit_bind {α β : Type} {key : BlockKey} {access : AccessClass} {k : Option Bytes → ReadM α} {f : α → β}
    {x : Result β} (hk : ∀ hit, (∀ b, hit = some b → P.BlockOf key b) → P.ReadsFor K file f (k hit) x st) :
    P.ReadsFor K file f (PackageInner.blockCacheHit key access >>= k) x st := by
  unfold PackageInner.blockCacheHit
  split
  · exact .access_bind (fun t ht => blockCache_get t key ht) hk
  · exact hk none nofun

/-- The rest of `prefetch_hit`, behind its first section. -/
def PackageInner.prefetchHitRest (key : BlockKey) (populated : Bool) : ReadM (Option Bytes) :=
  if populated then atomically fun s => let (hit, c) := s.prefetchCache.get key; (hit, { s with prefetchCache := c })
  else return none

theorem prefetchHit_bind {α β : Type} {key : BlockKey} {k : Option Bytes → ReadM α} {f : α → β} {x : Result β}
    (hk : ∀ hit, (∀ b, hit = some b → P.BlockOf key b) → P.ReadsFor K file f (k hit) x st) :
    P.ReadsFor K file f (PackageInner.prefetchHit key >>= k) x st := by
  refine Computes.access_bind (g := fun s : Shared => (s.prefetchPopulated, s))
    (k := fun populated : Bool => PackageInner.prefetchHitRest key populated >>= k) (Q := fun _ => True)
    (fun t ht => ⟨ht, trivial⟩) fun populated _ => ?_
  cases populated with
  | true => exact .access_bind (fun t ht => prefetchCache_get t key ht) hk
  | false => exact hk none nofun

theorem secondNormalAccess_bind {α β : Type} {key : BlockKey} {k : Bool → ReadM α} {f : α → β} {x : Result β}
    (hk : ∀ admitted, P.ReadsFor K file f (k admitted) x st) : P.ReadsFor K file f (P.secondNormalAccess key >>= k) x st := by
  unfold PackageInner.secondNormalAccess
  split
  · exact hk false
  · refine .access_bind (Q := fun _ => True) (fun t ht => ⟨?_, trivial⟩) fun admitted _ => hk admitted
    unfold PackageInner.recordAccess
    split
    · exact { ht with }
    · exact { ht with }

/-- `load_block_buffered` computes the content of the block, whatever is cached. -/
theorem loadBlockBuffered_reads (hP : P.Coherent) (hs : P.Valid file st) {g : Nat} {r : BlockRef}
    (hr : P.idealRef g = .ok r) (access : AccessClass) :
    P.ReadsFor K file BlockData.bytes (P.loadBlockBuffered r access) (P.idealBlock r) st := by
  unfold PackageInner.loadBlockBuffered
  refine blockCacheHit_bind fun hit hhit => ?_
  cases hit with
  | some b => exact cachedBlock_reads hP hs hr (hhit b rfl) _
  | none =>
    refine prefetchHit_bind fun hit hhit => ?_
    cases hit with
    | some b => exact cachedBlock_reads hP hs hr (hhit b rfl) _
    | none =>
      have hid : P.idealBlock r = P.idealBlock r >>= fun b => .ok b := by cases P.idealBlock r <;> rfl
      rw [hid]
      refine .bind (readStoredBlock_reads hP hs r) fun plaintext s hs _ hplain => ?_
      have hdone : ∀ admitted : Bool, P.ReadsFor K file BlockData.bytes (if admitted then do
            atomically fun s => ((), { s with blockCache := s.blockCache.insert r.key plaintext.bytes })
            return .shared plaintext.bytes
          else return .owned plaintext) (.ok plaintext.bytes) s := by
        intro admitted
        cases admitted with
        | false => exact .pure hs (BlockData.owned plaintext)
        | true =>
          refine .access_bind (Q := fun _ => True) (fun t ht => ⟨?_, trivial⟩) fun _ _ =>
            .pure hs (BlockData.shared plaintext.bytes)
          refine { ht with blocksOk := ht.blocksOk.insert r.key plaintext.bytes, blocks := fun k b hb => ?_ }
          rcases ht.blocksOk.has_insert hb with hold | ⟨rfl, rfl⟩
          · exact ht.blocks k b hold
          · exact ⟨g, r, hr, rfl, hplain⟩
      cases access with
      | hot => exact hdone true
      | normal => exact secondNormalAccess_bind hdone
      | streaming => exact hdone false
      | transient => exact hdone false

theorem prefetchBlock_reads (hP : P.Coherent) (hs : P.Valid file st) {g : Nat} {r : BlockRef}
    (hr : P.idealRef g = .ok r) (access : AccessClass) :
    P.ReadsFor K file id (P.prefetchBlock r access) (P.idealPrefetch r) st := by
  refine .ite (fun _ => .pure hs ()) fun _ => ?_
  have hcached : (∃ b, P.BlockOf r.key b) → (P.idealBlock r >>= fun _ => .ok ()) = (.ok () : Result Unit) := by
    rintro ⟨b, hb⟩
    rw [hP.idealBlock_eq hr hb]
    rfl
  refine .access_bind (Q := fun hit => ∀ b, hit = some b → P.BlockOf r.key b) (fun t ht => blockCache_get t r.key ht)
    fun hit hhit => ?_
  cases hit with
  | some b =>
    rw [hcached ⟨b, hhit b rfl⟩]
    exact .pure hs ()
  | none =>
    refine prefetchHit_bind fun hit hhit => ?_
    cases hit with
    | some b =>
      rw [hcached ⟨b, hhit b rfl⟩]
      exact .pure hs ()
    | none =>
      refine .bind (loadBlockBuffered_reads hP hs hr access) fun data s hs _ hdata => ?_
      refine .access_bind (Q := fun _ => True) (fun t ht => ⟨(blockCache_get t r.key ht).1, trivial⟩) fun hit _ => ?_
      cases hit with
      | some b => exact .pure hs ()
      | none =>
        refine .access_bind (Q := fun _ => True) (fun t ht => ⟨?_, trivial⟩) fun _ _ => .pure hs ()
        refine { ht with prefetchOk := ht.prefetchOk.insert r.key data.bytes, prefetch := fun k b hb => ?_ }
        rcases ht.prefetchOk.has_insert hb with hold | ⟨rfl, rfl⟩
        · exact ht.prefetch k b hold
        · exact ⟨g, r, hr, rfl, hdata⟩

/-- `trim` empties what it empties, one lock after the other. -/
theorem trim_reads (hs : P.Valid file st) : P.ReadsFor K file id PackageInner.trim (.ok ()) st := by
  refine .access_bind (Q := fun _ => True) (fun t ht => ⟨?_, trivial⟩) fun _ _ => ?_
  · exact { ht with pagesOk := .clear _, pages := fun _ _ h => absurd h ClockCache.not_has_clear }
  refine .access_bind (Q := fun _ => True) (fun t ht => ⟨?_, trivial⟩) fun _ _ => ?_
  · exact { ht with blocksOk := .clear _, blocks := fun _ _ h => absurd h ClockCache.not_has_clear }
  refine .access_bind (Q := fun _ => True) (fun t ht => ⟨?_, trivial⟩) fun _ _ => ?_
  · exact { ht with prefetchOk := .clear _, prefetch := fun _ _ h => absurd h ClockCache.not_has_clear }
  refine .access_bind (Q := fun _ => True) (fun t ht => ⟨{ ht with }, trivial⟩) fun _ _ => ?_
  refine .access_bind (Q := fun _ => True) (fun t ht => ⟨?_, trivial⟩) fun _ _ => .pure hs ()
  exact { ht with handles := fun _ _ h => by cases h }

/-! ### Segment verification -/

theorem readWhole_reads (hs : P.Valid file st) (bytes : Bytes) (fileLen offset left : Nat) :
    P.ReadsFor K file id (PackageInner.readWhole runtime bytes fileLen offset left)
      (PackageInner.readWhole ideal bytes fileLen offset left) st := by
  induction left generalizing st offset with
  | zero => exact .pure hs []
  | succ left ih =>
    refine .ite (fun _ => ?_) fun _ => .pure hs []
    refine .bind (runtime_readExactAt hs _ _ _) fun _ s hs _ _ => ?_
    exact .bind (ih hs _) fun _ s hs _ _ => .pure hs _

theorem verifySegment_reads (hP : P.Coherent) (hs : P.Valid file st) (i : Nat) :
    P.ReadsFor K file id (P.verifySegment runtime P.openSegment i) (P.verifySegment ideal (P.fetchSegment ideal) i) st := by
  refine .bind (.lift hs (P.catalog.segment i)) fun record s hs _ hrecord => ?_
  refine .bind (openSegment_reads hP hs (i := i) hrecord) fun handle s hs _ _ => ?_
  refine .bind (readWhole_reads hs _ _ _ _) fun content s hs _ _ => ?_
  exact .ite (fun _ => .throw hs (Stop.err _)) fun _ => .pure hs ()

theorem forM_reads {ι : Type} {body : ι → ReadM Unit} {spec : ι → Result Unit}
    (hbody : ∀ i st, P.Valid file st → P.ReadsFor K file id (body i) (spec i) st) (hs : P.Valid file st) (l : List ι) :
    P.ReadsFor K file id (l.forM body) (l.forM spec) st := by
  induction l generalizing st with
  | nil => exact .pure hs ()
  | cons i l ih => exact .bind (hbody i st hs) fun _ s hs _ _ => ih hs

theorem verifySegments_reads (hP : P.Coherent) (hs : P.Valid file st) :
    P.ReadsFor K file id (P.verifySegments runtime P.openSegment) (P.verifySegments ideal (P.fetchSegment ideal)) st :=
  forM_reads (fun i _ hs => verifySegment_reads hP hs i) hs _

/-! ### Block lookup -/

theorem prefetchLoop_reads (hP : P.Coherent) (hs : P.Valid file st) (f : FileRecord) (access : AccessClass)
    (stop left logical : Nat) :
    P.ReadsFor K file id
      (FileRecord.prefetchLoop (f.referenceForOffset P.blockRef) (fun r => P.prefetchBlock r access) stop left logical)
      (FileRecord.prefetchLoop (f.referenceForOffset P.idealRef) P.idealPrefetch stop left logical) st := by
  induction left generalizing st logical with
  | zero => exact .pure hs ()
  | succ left ih =>
    refine .ite (fun _ => ?_) fun _ => .pure hs ()
    refine .bind (referenceForOffset_reads hs f logical) fun r s hs _ hr => ?_
    obtain ⟨⟨i, -, -, hi⟩, -⟩ := FileRecord.referenceForOffset_eq_ok hr
    refine .bind (prefetchBlock_reads hP hs hi access) fun _ s hs _ _ => ?_
    exact .bind (.lift hs (okOr _ _)) fun next s hs _ _ => ih hs next

/-- `prefetch_range` reports what reading the blocks of the range would report. -/
theorem prefetchRange_reads (hP : P.Coherent) (hs : P.Valid file st) (asset : Asset P) (offset : UInt64) (len : Nat) :
    P.ReadsFor K file id (asset.prefetchRange offset len)
      (asset.record.prefetchRange (asset.record.referenceForOffset P.idealRef) P.idealPrefetch offset.toNat len) st := by
  refine reads_failIf hs fun _ => ?_
  refine reads_failIf hs fun _ => ?_
  refine reads_failIf hs fun _ => ?_
  refine .ite (fun _ => .pure hs ()) fun _ => ?_
  exact .bind (.lift hs (okOr _ _)) fun stop s hs _ _ => prefetchLoop_reads hP hs asset.record _ _ _ _

end

end Hakutaku
