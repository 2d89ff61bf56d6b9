import Hakutaku.PackerSpec
import Hakutaku.PageCodec
import Hakutaku.ReuseIndex

/-!
# The source fingerprint

The inventory of a build and the bytes it feeds to the fingerprint hasher. A chunk count stands behind the
ids it counts, so the bytes are read from the end; what separates a path from the bytes before it is that a
path has no zero byte and the length in front of it ends in one.
-/

namespace Hakutaku
open Wire Act

/-- A source file as the fingerprint sees it. -/
structure InventoryEntry where
  path : String
  len : UInt64
  cls : SourceClass
  availability : Availability
  chunkIds : List (ByteArr 32)
  canonical : Canonical path
  short : (strBytes path).length < 2 ^ 16
  countable : chunkIds.length < u32Size

namespace InventoryEntry

def bytes (e : InventoryEntry) : Bytes :=
  u64Bytes (UInt64.ofNat (strBytes e.path).length) ++ strBytes e.path ++ u64Bytes e.len ++
    [e.cls.layout.toByte, e.cls.access.toByte, e.availability.toByte, e.cls.compression.toByte] ++
    u32Bytes e.cls.fixedBlockLen ++ e.chunkIds.flatMap ByteArr.toList ++ u32Bytes (UInt32.ofNat e.chunkIds.length)

end InventoryEntry

/-- The bytes the hasher is fed for an inventory. -/
def fingerprintStream (inventory : List InventoryEntry) : Bytes :=
  fingerprintDomain ++ u64Bytes (UInt64.ofNat inventory.length) ++ inventory.flatMap InventoryEntry.bytes

/-! ### Reading from the end -/

theorem CompressionPolicy.toByte_injective : Function.Injective CompressionPolicy.toByte := by
  rintro (_ | _) (_ | _) h <;> cases h <;> rfl

/-- The length in front of a short path ends in a zero byte. -/
theorem u64Bytes_of_short {n : Nat} (h : n < 2 ^ 16) : ∃ low, u64Bytes (UInt64.ofNat n) = low ++ [0] := by
  refine ⟨leBytes 7 n, ?_⟩
  have hlt : n < 2 ^ 64 := h.trans (by decide)
  rw [u64Bytes, UInt64.toNat_ofNat_of_lt' hlt]
  exact leBytes_succ_of_lt (h.trans (by decide))

namespace InventoryEntry
variable {x y : InventoryEntry} {before before' : Bytes}

theorem ext' (hpath : x.path = y.path) (hlen : x.len = y.len) (hcls : x.cls = y.cls)
    (havailability : x.availability = y.availability) (hids : x.chunkIds = y.chunkIds) : x = y := by
  cases x
  cases y
  cases hpath; cases hlen; cases hcls; cases havailability; cases hids
  rfl

/-- The last entry of a stream, and the bytes before it. -/
theorem append_bytes_inj (h : before ++ x.bytes = before' ++ y.bytes) : before = before' ∧ x = y := by
  unfold bytes at h
  simp only [← List.append_assoc] at h
  obtain ⟨h, hcount⟩ := List.append_inj' h (by rw [length_u32Bytes, length_u32Bytes])
  have hcount : x.chunkIds.length = y.chunkIds.length := by
    have hnat := congrArg UInt32.toNat (u32Bytes_injective hcount)
    rwa [UInt32.toNat_ofNat_of_lt' x.countable, UInt32.toNat_ofNat_of_lt' y.countable] at hnat
  obtain ⟨h, hids⟩ := List.append_inj' h (by rw [length_flatMap_toList, length_flatMap_toList, hcount])
  have hids : x.chunkIds = y.chunkIds := by rw [← rows32_flatMap x.chunkIds, hcount, hids, rows32_flatMap]
  obtain ⟨h, hblockLen⟩ := List.append_inj' h (by rw [length_u32Bytes, length_u32Bytes])
  obtain ⟨h, hclass⟩ := List.append_inj' h rfl
  obtain ⟨h, hlen⟩ := List.append_inj' h (by rw [length_u64Bytes, length_u64Bytes])
  obtain ⟨low, hlow⟩ := u64Bytes_of_short x.short
  obtain ⟨low', hlow'⟩ := u64Bytes_of_short y.short
  rw [hlow, hlow', ← List.append_assoc, ← List.append_assoc] at h
  obtain ⟨h, hpath⟩ := append_inj_of_last x.canonical.zero_not_mem y.canonical.zero_not_mem h
  have hlows : low = low' := by
    rw [hpath, hlow'] at hlow
    exact (List.append_left_injective _ hlow).symm
  rw [hlows] at h
  simp only [List.cons.injEq, and_true] at hclass
  obtain ⟨hlayout, haccess, havailability, hcompression⟩ := hclass
  refine ⟨List.append_left_injective _ h, ext' (strBytes_injective hpath) (u64Bytes_injective hlen) ?_
    (Availability.toByte_injective havailability) hids⟩
  cases hx : x.cls
  cases hy : y.cls
  simp only [hx, hy] at hlayout haccess hcompression hblockLen
  rw [LayoutKind.toByte_injective hlayout, AccessClass.toByte_injective haccess,
    CompressionPolicy.toByte_injective hcompression, u32Bytes_injective hblockLen]

/-- Two inventories of one length are told apart by the bytes of their entries. -/
theorem flatMap_bytes_inj {n : Nat} {xs ys : List InventoryEntry} (hxs : xs.length = n) (hys : ys.length = n)
    (h : xs.flatMap bytes = ys.flatMap bytes) : xs = ys := by
  induction n generalizing xs ys with
  | zero => rw [List.length_eq_zero_iff.1 hxs, List.length_eq_zero_iff.1 hys]
  | succ n ih =>
    rcases List.eq_nil_or_concat' xs with rfl | ⟨xs, x, rfl⟩
    · cases hxs
    rcases List.eq_nil_or_concat' ys with rfl | ⟨ys, y, rfl⟩
    · cases hys
    rw [List.flatMap_append, List.flatMap_append, List.flatMap_singleton, List.flatMap_singleton] at h
    obtain ⟨hbefore, rfl⟩ := append_bytes_inj h
    rw [List.length_append, List.length_singleton] at hxs hys
    rw [ih (Nat.succ.inj hxs) (Nat.succ.inj hys) hbefore]

end InventoryEntry

/-! ### The inventory of a build -/

/-- The catalog records of an inventory whose paths and blocks begin at the given positions. -/
def catalogRecords : Nat → Nat → List InventoryEntry → List FileRecord
  | _, _, [] => []
  | pathOffset, firstBlock, e :: rest => {
      pathOffset := UInt32.ofNat pathOffset, pathLen := UInt16.ofNat (strBytes e.path).length
      layout := e.cls.layout, access := e.cls.access, logicalLen := e.len
      firstBlock := UInt32.ofNat firstBlock, blockCount := UInt32.ofNat e.chunkIds.length
      fixedBlockLen := e.cls.fixedBlockLen } ::
    catalogRecords (pathOffset + (strBytes e.path).length) (firstBlock + e.chunkIds.length) rest

namespace BuildContext
variable [Crypto] [Target] [FastCdc]

/-- The entry of a file: its path, length and class, and the ids of the chunks its content has or its cache
entry lists. -/
def Describes (job : Job) (sources : String → SourceView) (file : SourceFile × Option CachedEntry)
    (e : InventoryEntry) : Prop :=
  e.path = file.1.logicalPath ∧ e.len = file.1.len ∧ e.cls = classify file.1 ∧
    e.availability = job.options.availability file.1.logicalPath ∧
    if file.1.len = 0 then e.chunkIds = []
    else (∃ entry, file.2 = some entry ∧ entry.stamp = file.1.stamp ∧ e.chunkIds = entry.chunks.map CachedChunk.chunkId) ∨
      e.chunkIds = (sourceChunks (classify file.1) (sources file.1.hostPath).bytes).map CachedChunk.chunkId

/-- What the packing loop records of its files. -/
structure Recorded (job : Job) (files : List (SourceFile × Option CachedEntry)) (s t : BuildContext)
    (inventory : List InventoryEntry) : Prop where
  files : List.Forall₂ (Describes job s.world.sources) files inventory
  fingerprint : t.fingerprint = s.fingerprint ++ inventory.flatMap InventoryEntry.bytes
  chunkIds : t.chunkIds = s.chunkIds ++ inventory.flatMap InventoryEntry.chunkIds
  filePaths : t.filePaths = s.filePaths ++ inventory.map InventoryEntry.path
  fileRecords : t.fileRecords = s.fileRecords ++ catalogRecords s.pathPool.length s.pendingBlocks.length inventory
  sources : t.world.sources = s.world.sources

omit [Target] in
/-- The chunk ids of an added file are those of its entry. -/
theorem ChunksOf.chunkIds {s : BuildContext} {source : SourceFile} {cached : Option CachedEntry} {cls : SourceClass}
    {availability : Availability} {chunks : List CachedChunk} (h : ChunksOf s source cached cls availability chunks) :
    if source.len = 0 then chunks.map CachedChunk.chunkId = []
    else (∃ entry, cached = some entry ∧ entry.stamp = source.stamp ∧
        chunks.map CachedChunk.chunkId = entry.chunks.map CachedChunk.chunkId) ∨
      chunks.map CachedChunk.chunkId = (sourceChunks cls (s.world.sources source.hostPath).bytes).map CachedChunk.chunkId := by
  unfold ChunksOf at h
  split at h
  · rename_i hzero
    rw [if_pos hzero, h, List.map_nil]
  · rename_i hzero
    rw [if_neg hzero]
    rcases h with ⟨entry, hcached, husable, rfl⟩ | ⟨-, rfl⟩
    · simp only [cachedEntryUsable, Bool.and_eq_true, decide_eq_true_eq] at husable
      obtain ⟨⟨⟨⟨⟨⟨hstamp, -⟩, -⟩, -⟩, -⟩, -⟩, -⟩ := husable
      exact .inl ⟨entry, hcached, hstamp, rfl⟩
    · exact .inr rfl

omit [Target] [FastCdc] [Crypto] in
/-- The inventory entry of an added file. -/
theorem FileAdded.entry {job : Job} {source : SourceFile} {s t : BuildContext}
    {added : List (CachedChunk × PendingBlock)} (h : FileAdded job source s t added)
    (hcanonical : Canonical source.logicalPath) :
    ∃ e : InventoryEntry, e.path = source.logicalPath ∧ e.len = source.len ∧ e.cls = classify source ∧
      e.availability = job.options.availability source.logicalPath ∧ e.chunkIds = added.map (fun x => x.1.chunkId) ∧
      e.bytes = fingerprintHeader source (classify source) (job.options.availability source.logicalPath) ++
        (added.flatMap fun x => x.1.chunkId.toList) ++ u32Bytes (UInt32.ofNat added.length) := by
  obtain ⟨-, hcount, -, hshort⟩ := h.bounds
  refine ⟨⟨source.logicalPath, source.len, classify source, job.options.availability source.logicalPath,
    added.map fun x => x.1.chunkId, hcanonical, hshort, by rwa [List.length_map]⟩, rfl, rfl, rfl, rfl, rfl, ?_⟩
  unfold InventoryEntry.bytes fingerprintHeader
  simp only [List.flatMap_map, List.length_map]

theorem addFiles_spec (job : Job) (files : List (SourceFile × Option CachedEntry))
    (hcanonical : ∀ file ∈ files, Canonical file.1.logicalPath) (s : BuildContext) :
    ensures (addFiles job files) (fun _ t => ∃ inventory, Recorded job files s t inventory) s := by
  induction files generalizing s with
  | nil =>
    refine ⟨[], .nil, ?_, ?_, ?_, ?_, rfl⟩ <;> exact (List.append_nil _).symm
  | cons file rest ih =>
    obtain ⟨source, cached⟩ := file
    unfold addFiles
    refine wp_bind.2 ((addFile_spec job source cached).mono ?_)
    rintro _ s₁ ⟨added, h, hchunks⟩
    refine (ih (fun file hfile => hcanonical file (List.mem_cons_of_mem _ hfile)) s₁).mono ?_
    rintro _ t ⟨inventory, hrest⟩
    have hids := hchunks.chunkIds
    rw [List.map_map] at hids
    obtain ⟨entry, hpath, hlen, hcls, havailability, hentry, hbytes⟩ := h.entry (hcanonical (source, cached) List.mem_cons_self)
    refine ⟨entry :: inventory, .cons ⟨hpath, hlen, hcls, havailability, ?_⟩ ?_, ?_, ?_, ?_, ?_, ?_⟩
    · rw [hentry]
      exact hids
    · rw [← h.sources]
      exact hrest.files
    · rw [hrest.fingerprint, h.fingerprint, List.flatMap_cons, hbytes, List.append_assoc]
    · rw [hrest.chunkIds, h.chunkIds, List.flatMap_cons, hentry, List.append_assoc]
    · rw [hrest.filePaths, h.filePaths, List.map_cons, hpath, List.append_assoc]
      rfl
    · have hcount : entry.chunkIds.length = added.length := by rw [hentry, List.length_map]
      rw [hrest.fileRecords, h.record, h.pathPool, h.pendingBlocks, List.length_append, List.length_append, List.length_map,
        List.append_assoc, catalogRecords, hpath, hlen, hcls, hcount]
      rfl
    · rw [hrest.sources, h.sources]

end BuildContext

end Hakutaku
