import Hakutaku.BuildCache
import Hakutaku.PackerSpec
import Hakutaku.ReuseIndex
import Hakutaku.BlockLookup

/-!
# Files from the development cache

What `cached_entry_usable` says of the chunks it accepts, and what the blocks packed for them give the
reader: they tile the file, but nothing relates their lengths to the block length of a fixed layout.
-/

namespace Hakutaku
open Wire Act BuildContext

/-- Where chunk `i` of a list begins. -/
def chunkStart (chunks : List CachedChunk) (i : Nat) : Nat := ((chunks.take i).map fun c => c.plainLen.toNat).sum

theorem chunkStart_zero (chunks : List CachedChunk) : chunkStart chunks 0 = 0 := rfl

theorem chunkStart_succ {chunks : List CachedChunk} {i : Nat} (h : i < chunks.length) :
    chunkStart chunks (i + 1) = chunkStart chunks i + chunks[i].plainLen.toNat := by
  unfold chunkStart
  rw [List.take_succ_eq_append_getElem h, List.map_append, List.sum_append]
  rfl

theorem chunkStart_cons (chunk : CachedChunk) (chunks : List CachedChunk) (i : Nat) :
    chunkStart (chunk :: chunks) (i + 1) = chunk.plainLen.toNat + chunkStart chunks i := rfl

/-- The chunks lie one behind the other from 0 to `len`, and none is empty. -/
structure ChunksTile (chunks : List CachedChunk) (len : Nat) : Prop where
  total : chunkStart chunks chunks.length = len
  chunk : ∀ i (h : i < chunks.length), chunks[i].logicalOffset.toNat = chunkStart chunks i ∧ 0 < chunks[i].plainLen.toNat

/-- The rule of the fixed layout, for a list of chunks: all but the last have the block length, and the last
one is not longer. -/
def FixedChunks (blockLen : Nat) (chunks : List CachedChunk) : Prop :=
  (∀ i (h : i < chunks.length), i + 1 < chunks.length → chunks[i].plainLen.toNat = blockLen) ∧
    ∀ i (h : i < chunks.length), i + 1 = chunks.length → chunks[i].plainLen.toNat ≤ blockLen

section
variable {s s' : BuildContext} {source : SourceFile} {cls : SourceClass} {availability : Availability}

theorem usableChunks_tile {chunks : List CachedChunk} {offset : Nat}
    (h : cachedEntryUsable.go s source cls availability chunks offset) :
    offset + chunkStart chunks chunks.length = source.len.toNat ∧ ∀ i (h : i < chunks.length),
      chunks[i].logicalOffset.toNat = offset + chunkStart chunks i ∧ 0 < chunks[i].plainLen.toNat := by
  induction chunks generalizing offset with
  | nil => exact ⟨of_decide_eq_true h, fun i hi => absurd hi (Nat.not_lt_zero i)⟩
  | cons chunk rest ih =>
    simp only [cachedEntryUsable.go, Bool.and_eq_true, decide_eq_true_eq] at h
    obtain ⟨⟨⟨⟨hoffset, hlen⟩, -⟩, -⟩, hrest⟩ := h
    obtain ⟨htotal, hchunks⟩ := ih hrest
    refine ⟨?_, ?_⟩
    · rw [List.length_cons, chunkStart_cons, ← Nat.add_assoc]
      exact htotal
    · intro i hi
      cases i with
      | zero => exact ⟨hoffset, Nat.pos_of_ne_zero fun hzero => hlen (UInt32.toNat_inj.1 hzero)⟩
      | succ i =>
        rw [chunkStart_cons, ← Nat.add_assoc]
        exact hchunks i (Nat.lt_of_succ_lt_succ hi)

/-- The chunks of a usable entry tile the source. -/
theorem cachedEntryUsable_tile {entry : CachedEntry} (h : s.cachedEntryUsable source entry cls availability) :
    ChunksTile entry.chunks source.len.toNat := by
  unfold cachedEntryUsable at h
  obtain ⟨htotal, hchunks⟩ := usableChunks_tile (Bool.and_eq_true_iff.1 h).2
  rw [Nat.zero_add] at htotal
  refine ⟨htotal, fun i hi => ?_⟩
  have hchunk := hchunks i hi
  rwa [Nat.zero_add] at hchunk

/-- In a tiling by blocks of one length, the block count is the length over the block length, rounded up. -/
theorem FixedChunks.start {chunks : List CachedChunk} {blockLen i : Nat} (h : FixedChunks blockLen chunks)
    (hi : i < chunks.length) : chunkStart chunks i = i * blockLen := by
  induction i with
  | zero => rw [chunkStart_zero, Nat.zero_mul]
  | succ i ih => rw [chunkStart_succ (Nat.lt_of_succ_lt hi), ih (Nat.lt_of_succ_lt hi), h.1 i _ hi, Nat.succ_mul]

end

/-! ### What the reader needs -/

/-- The references of a build by global index. -/
def pendingRef (blocks : List PendingBlock) (g : Nat) : Result BlockRef :=
  okOr (blocks[g]?.map PendingBlock.reference) (.invalidFormat "block reference")

/-- The blocks of a file start at 0 and lie one behind the other up to its length. -/
def Contiguous (f : FileRecord) (blocks : List PendingBlock) : Prop :=
  ∃ start : Nat → Nat, start 0 = 0 ∧ start f.blockCount.toNat = f.logicalLen.toNat ∧ ∀ i < f.blockCount.toNat,
    ∃ r, pendingRef blocks (f.firstBlock.toNat + i) = .ok r ∧ r.logicalOffset.toNat = start i ∧
      start i + r.plainLen.toNat = start (i + 1)

/-- What the reader needs of the blocks of a file. -/
structure Readable (f : FileRecord) (blocks : List PendingBlock) : Prop where
  contiguous : Contiguous f blocks
  fixed : f.layout = .fixed →
    (∀ i < f.blockCount.toNat, ∃ r, pendingRef blocks (f.firstBlock.toNat + i) = .ok r ∧
      r.logicalOffset.toNat = i * f.fixedBlockLen.toNat) ∧
    f.blockCount.toNat = (f.logicalLen.toNat + f.fixedBlockLen.toNat - 1) / f.fixedBlockLen.toNat
  found : ∀ offset < f.logicalLen.toNat, ∃ r, f.referenceForOffset (pendingRef blocks) offset = .ok r

/-- The blocks of a file stand for the chunks of a list, one for each. -/
structure Emitted (f : FileRecord) (blocks : List PendingBlock) (chunks : List CachedChunk) : Prop where
  count : f.blockCount.toNat = chunks.length
  block : ∀ i (h : i < chunks.length), ∃ r, pendingRef blocks (f.firstBlock.toNat + i) = .ok r ∧
    r.logicalOffset = chunks[i].logicalOffset ∧ r.plainLen = chunks[i].plainLen

namespace Emitted
variable {f : FileRecord} {blocks : List PendingBlock} {chunks : List CachedChunk}

/-- The block of a chunk, where the chunks tile the file. -/
theorem block_tile (h : Emitted f blocks chunks) (htile : ChunksTile chunks f.logicalLen.toNat) {i : Nat}
    (hi : i < f.blockCount.toNat) :
    ∃ r, pendingRef blocks (f.firstBlock.toNat + i) = .ok r ∧ r.logicalOffset.toNat = chunkStart chunks i ∧
      chunkStart chunks i + r.plainLen.toNat = chunkStart chunks (i + 1) := by
  rw [h.count] at hi
  obtain ⟨r, hr, hoffset, hlen⟩ := h.block i hi
  refine ⟨r, hr, ?_, ?_⟩
  · rw [hoffset]
    exact (htile.chunk i hi).1
  · rw [hlen, chunkStart_succ hi]

theorem contiguous (h : Emitted f blocks chunks) (htile : ChunksTile chunks f.logicalLen.toNat) :
    Contiguous f blocks := by
  refine ⟨chunkStart chunks, chunkStart_zero chunks, ?_, fun i hi => h.block_tile htile hi⟩
  rw [h.count]
  exact htile.total

theorem tiled (h : Emitted f blocks chunks) (htile : ChunksTile chunks f.logicalLen.toNat)
    (hrange : f.firstBlock.toNat + chunks.length ≤ u32Size) : f.Tiled (pendingRef blocks) (chunkStart chunks) := by
  refine ⟨h.count.symm ▸ hrange, chunkStart_zero chunks, ?_, fun i hi => h.block_tile htile hi⟩
  rw [h.count]
  exact htile.total

theorem positive (h : Emitted f blocks chunks) (htile : ChunksTile chunks f.logicalLen.toNat) :
    f.Positive (pendingRef blocks) := by
  rintro g r ⟨hfirst, hg, -⟩ hr
  obtain ⟨i, rfl⟩ := Nat.exists_eq_add_of_le hfirst
  have hi : i < chunks.length := h.count ▸ Nat.lt_of_add_lt_add_left hg
  obtain ⟨r', hr', -, hlen⟩ := h.block i hi
  obtain rfl : r = r' := Except.ok.inj (hr.symm.trans hr')
  rw [hlen]
  exact (htile.chunk i hi).2

theorem fixedTiles (h : Emitted f blocks chunks) (hfixed : FixedChunks f.fixedBlockLen.toNat chunks) :
    f.FixedTiles (chunkStart chunks) := by
  refine ⟨fun i hi => ?_, .inr fun i hi => ?_⟩
  · rw [h.count] at hi
    rw [chunkStart_succ (Nat.lt_of_succ_lt hi), hfixed.1 i _ hi]
  · rw [h.count] at hi
    rw [chunkStart_succ (hi ▸ Nat.lt_succ_self i)]
    exact Nat.add_le_add_left (hfixed.2 i _ hi) _

/-- A file whose last byte is found has all its blocks within the 32-bit block indices. -/
theorem range_of_found (h : Emitted f blocks chunks) (htile : ChunksTile chunks f.logicalLen.toNat)
    (hfound : ∀ offset < f.logicalLen.toNat, ∃ r, f.referenceForOffset (pendingRef blocks) offset = .ok r) :
    f.firstBlock.toNat + chunks.length ≤ u32Size := by
  rcases Nat.eq_zero_or_pos chunks.length with hnone | hsome
  · rw [hnone]
    exact f.firstBlock.toNat_lt.le
  obtain ⟨last, hlast⟩ : ∃ last, last + 1 = chunks.length := ⟨_, Nat.sub_add_cancel hsome⟩
  have hlt : last < chunks.length := hlast ▸ Nat.lt_succ_self last
  have htotal := htile.total
  rw [← hlast, chunkStart_succ hlt] at htotal
  have hpos := (htile.chunk last hlt).2
  obtain ⟨r, hr⟩ := hfound (f.logicalLen.toNat - 1) (by omega)
  obtain ⟨⟨i, hi, hrange, hblock⟩, -, hcover, -⟩ := FileRecord.referenceForOffset_eq_ok hr
  obtain ⟨r', hr', hstart, hstop⟩ := h.block_tile htile hi
  obtain rfl : r = r' := Except.ok.inj (hblock.symm.trans hr')
  rw [h.count] at hi
  rcases Nat.lt_or_eq_of_le (Nat.le_of_lt_succ (hlast ▸ hi)) with hbefore | rfl
  · -- An earlier block ends before the last one begins.
    have hmono : chunkStart chunks (i + 1) ≤ chunkStart chunks last := by
      unfold chunkStart
      exact ((List.take_sublist_take_left hbefore).map _).sum_le_sum fun _ _ => Nat.zero_le _
    omega
  · omega

/-- The blocks of a file serve the reader exactly when they have 32-bit indices and, under the fixed layout,
their chunks follow its rule. -/
theorem readable_iff (h : Emitted f blocks chunks) (htile : ChunksTile chunks f.logicalLen.toNat)
    (hlayout : f.layout = .fixed → 0 < f.fixedBlockLen.toNat) :
    Readable f blocks ↔ f.firstBlock.toNat + chunks.length ≤ u32Size ∧
      (f.layout = .fixed → FixedChunks f.fixedBlockLen.toNat chunks) := by
  constructor
  · intro hread
    refine ⟨h.range_of_found htile hread.found, fun hfixed => ?_⟩
    obtain ⟨hstarts, hcount⟩ := hread.fixed hfixed
    have hpos := hlayout hfixed
    have hstart : ∀ i < chunks.length, chunkStart chunks i = i * f.fixedBlockLen.toNat := by
      intro i hi
      rw [← h.count] at hi
      obtain ⟨r, hr, hoffset⟩ := hstarts i hi
      obtain ⟨r', hr', hoffset', -⟩ := h.block_tile htile hi
      obtain rfl : r = r' := Except.ok.inj (hr.symm.trans hr')
      rw [← hoffset', hoffset]
    refine ⟨fun i hi hnext => ?_, fun i hi hlast => ?_⟩
    · have hsucc := chunkStart_succ hi
      rw [hstart _ hnext, hstart i hi, Nat.succ_mul] at hsucc
      omega
    · have htotal := htile.total
      rw [← hlast, chunkStart_succ hi, hstart i hi] at htotal
      have hceil : f.logicalLen.toNat + f.fixedBlockLen.toNat - 1 < (i + 1 + 1) * f.fixedBlockLen.toNat := by
        rw [← Nat.div_lt_iff_lt_mul hpos, ← hcount, h.count]
        omega
      rw [Nat.succ_mul, Nat.succ_mul] at hceil
      omega
  · rintro ⟨hrange, hfixed⟩
    have htiled := h.tiled htile hrange
    refine ⟨h.contiguous htile, fun hlay => ⟨fun i hi => ?_, ?_⟩, fun offset hoffset => ?_⟩
    · obtain ⟨r, hr, hstart, -⟩ := h.block_tile htile hi
      rw [h.count] at hi
      exact ⟨r, hr, by rw [hstart, (hfixed hlay).start hi]⟩
    · have hpos := hlayout hlay
      have htotal := htile.total
      rw [h.count]
      rcases Nat.eq_zero_or_pos chunks.length with hnone | hsome
      · rw [hnone, chunkStart_zero] at htotal
        rw [hnone, ← htotal, Nat.zero_add, Nat.div_eq_of_lt (Nat.sub_lt hpos Nat.one_pos)]
      obtain ⟨last, hlast⟩ : ∃ last, last + 1 = chunks.length := ⟨_, Nat.sub_add_cancel hsome⟩
      have hlt : last < chunks.length := hlast ▸ Nat.lt_succ_self last
      have hshort := (hfixed hlay).2 last hlt hlast
      have hchunk := (htile.chunk last hlt).2
      rw [← hlast, chunkStart_succ hlt, (hfixed hlay).start hlt] at htotal
      rw [← hlast]
      refine (Nat.div_eq_of_lt_le ?_ ?_).symm
      · rw [Nat.succ_mul]
        omega
      · rw [Nat.succ_mul, Nat.succ_mul]
        omega
    · obtain ⟨i, -, -, -, r, -, hr⟩ :=
        htiled.referenceForOffset_eq (h.positive htile) (fun hlay => h.fixedTiles (hfixed hlay)) hoffset
      exact ⟨r, hr⟩

end Emitted

/-! ### Files added to a build -/

/-- A file added to a build has one block for each of its chunks. -/
theorem emitted_of_fileAdded {job : Job} {source : SourceFile} {s s' : BuildContext}
    {added : List (CachedChunk × PendingBlock)} (h : FileAdded job source s s' added) :
    ∃ f, s'.fileRecords = s.fileRecords ++ [f] ∧ f.layout = (classify source).layout ∧
      f.fixedBlockLen = (classify source).fixedBlockLen ∧ f.logicalLen = source.len ∧
      f.firstBlock.toNat = s.pendingBlocks.length ∧ Emitted f s'.pendingBlocks (added.map Prod.fst) := by
  obtain ⟨hfirst, hcount, -, -⟩ := h.bounds
  have hfirst' : (UInt32.ofNat s.pendingBlocks.length).toNat = s.pendingBlocks.length := UInt32.toNat_ofNat_of_lt' hfirst
  refine ⟨_, h.record, rfl, rfl, rfl, hfirst', ?_, fun i hi => ?_⟩
  · rw [List.length_map]
    exact UInt32.toNat_ofNat_of_lt' hcount
  · rw [List.length_map] at hi
    obtain ⟨hoffset, hlen, -⟩ := h.fits _ (List.getElem_mem hi)
    refine ⟨added[i].2.reference, ?_, ?_, ?_⟩
    · show pendingRef s'.pendingBlocks ((UInt32.ofNat s.pendingBlocks.length).toNat + i) = _
      rw [hfirst', pendingRef, h.pendingBlocks, List.getElem?_append_right (Nat.le_add_right _ _), Nat.add_sub_cancel_left,
        List.getElem?_map, List.getElem?_eq_getElem hi]
      rfl
    · rw [List.getElem_map]
      exact hoffset
    · rw [List.getElem_map]
      exact hlen

theorem cached_file_readable [Crypto] [Target] [FastCdc] (job : Job) (source : SourceFile) (s s' : BuildContext) (bytes : Bytes)
    (projectId : ProjectId) (releaseSequence : UInt64) (cache : BuildCache) (entry : CachedEntry)
    (_hparse : BuildCache.parse bytes projectId releaseSequence = .ok cache)
    (_hentry : cache.lookup source.logicalPath = some entry)
    (husable : s.cachedEntryUsable source entry (classify source) (job.options.availability source.logicalPath))
    (hrun : (addFile job source (some entry)).runOn s = (.ok (), s')) :
    ∃ f, s'.fileRecords = s.fileRecords ++ [f] ∧ f.layout = (classify source).layout ∧
      f.fixedBlockLen = (classify source).fixedBlockLen ∧ f.logicalLen = source.len ∧
      Contiguous f s'.pendingBlocks ∧
      (Readable f s'.pendingBlocks ↔ s.pendingBlocks.length + entry.chunks.length ≤ u32Size ∧
        ((classify source).layout = .fixed → FixedChunks (classify source).fixedBlockLen.toNat entry.chunks)) := by
  obtain ⟨added, hadded, hchunks⟩ := (addFile_spec job source (some entry)).ok hrun
  obtain ⟨f, hrecord, hlayout, hblockLen, hlen, hfirst, hemitted⟩ := emitted_of_fileAdded hadded
  have htile := cachedEntryUsable_tile husable
  have hentry : added.map Prod.fst = entry.chunks := by
    unfold ChunksOf at hchunks
    split at hchunks
    · rename_i hzero
      -- A usable entry of an empty file has no chunks either.
      rw [hchunks, eq_comm, List.eq_nil_iff_length_eq_zero]
      by_contra hne
      have hpos := (htile.chunk 0 (Nat.pos_of_ne_zero hne)).2
      have hle : chunkStart entry.chunks 1 ≤ chunkStart entry.chunks entry.chunks.length := by
        unfold chunkStart
        exact ((List.take_sublist_take_left (Nat.pos_of_ne_zero hne)).map _).sum_le_sum fun _ _ => Nat.zero_le _
      rw [htile.total, hzero, chunkStart_succ (Nat.pos_of_ne_zero hne)] at hle
      exact absurd hle (by rw [UInt64.toNat_zero]; omega)
    · rcases hchunks with ⟨_, ⟨⟩, -, hchunks⟩ | ⟨hunusable, -⟩
      · exact hchunks
      · rw [hunusable entry rfl] at husable
        cases husable
  rw [hentry] at hemitted
  rw [← hlen] at htile
  refine ⟨f, hrecord, hlayout, hblockLen, hlen, hemitted.contiguous htile, ?_⟩
  rw [← hfirst, ← hlayout, ← hblockLen]
  refine hemitted.readable_iff htile fun hfixed => ?_
  rw [hlayout] at hfixed
  rcases classify_fixedBlockLen source with ⟨-, hpos⟩ | ⟨hdefined, -⟩
  · exact hblockLen ▸ hpos
  · rw [hfixed] at hdefined
    cases hdefined

/-! ### A file of eight bytes -/

def eightBytes : SourceFile := ⟨"in/a", "a", 8, ⟨8, none, 0, 0⟩⟩

def eightByteEntry (chunks : List CachedChunk) : CachedEntry := ⟨eightBytes.stamp, .fixed, 8, .hot, .required, .auto, chunks⟩

/-- The cache file of a project with the one entry. -/
def eightByteCache (chunks : List CachedChunk) : Bytes :=
  letI := exampleCrypto
  match BuildCache.encode ⟨.replicate 16 7⟩ 1 [("a", eightByteEntry chunks)] with
  | .ok bytes => bytes
  | .error _ => []

/-- A block of the previous release. -/
def eightByteBlock (ordinal plainLen : UInt32) : ReusableBlock :=
  ⟨⟨0, 0, ordinal, 128, plainLen + 16, plainLen, .raw, .replicate 16 0⟩, 0⟩

/-- The previous release has blocks of four, four and eight bytes. -/
def eightByteReuse : ReuseIndex where
  compacting := false
  blocks := ((AList.singleton (.replicate 32 1, .required) (eightByteBlock 0 4)).insert
    (.replicate 32 2, .required) (eightByteBlock 1 4)).insert (.replicate 32 3, .required) (eightByteBlock 2 8)
  segments := [⟨⟨.replicate 32 9⟩, .replicate 16 0, .replicate 16 0, .replicate 8 0, 192, 64, 3, .required⟩]

def eightByteWorld : World := ⟨[], [], fun _ => ⟨none, [], none⟩, ∅, [], [], []⟩

def eightByteBuild : BuildContext := .new eightByteReuse 1 eightByteWorld

def evenChunks : List CachedChunk := [⟨0, 8, .replicate 32 3⟩]

def unevenChunks : List CachedChunk := [⟨0, 4, .replicate 32 1⟩, ⟨4, 4, .replicate 32 2⟩]

/-- The build after the file was added from a cache entry with the chunks. -/
def eightByteAdded (chunks : List CachedChunk) : BuildContext :=
  letI := exampleCrypto; letI := target64; letI := exampleFastCdc
  ((addFile exampleJob eightBytes (some (eightByteEntry chunks))).runOn eightByteBuild).2

/-- The cache file is accepted, its entry is usable, and the file is added. -/
structure EightByteRun (chunks : List CachedChunk) : Prop where
  parse : letI := exampleCrypto; letI := target64
    (BuildCache.parse (eightByteCache chunks) ⟨.replicate 16 7⟩ 1).map (·.lookup "a") = .ok (some (eightByteEntry chunks))
  usable : eightByteBuild.cachedEntryUsable eightBytes (eightByteEntry chunks) (classify eightBytes) .required
  run : letI := exampleCrypto; letI := target64; letI := exampleFastCdc
    ((addFile exampleJob eightBytes (some (eightByteEntry chunks))).runOn eightByteBuild).1 = .ok ()

theorem EightByteRun.cache {chunks : List CachedChunk} (h : EightByteRun chunks) :
    letI := exampleCrypto; letI := target64
    ∃ cache, BuildCache.parse (eightByteCache chunks) ⟨.replicate 16 7⟩ 1 = .ok cache ∧
      cache.lookup "a" = some (eightByteEntry chunks) := by
  let _ := exampleCrypto; let _ := target64
  have hparse := h.parse
  rcases hresult : BuildCache.parse (eightByteCache chunks) ⟨.replicate 16 7⟩ 1 with e | cache
  · rw [hresult] at hparse
    cases hparse
  · rw [hresult] at hparse
    exact ⟨cache, rfl, Except.ok.inj hparse⟩

theorem evenChunks_run : EightByteRun evenChunks := by
  constructor <;> decide +kernel

/-- Two chunks of four bytes are accepted for a file with a block length of eight, and its second half is not
found. -/
theorem unevenChunks_unreadable : EightByteRun unevenChunks ∧ ∃ f, (eightByteAdded unevenChunks).fileRecords = [f] ∧
    f.layout = .fixed ∧ f.logicalLen = 8 ∧ f.blockCount = 2 ∧ f.fixedBlockLen = 8 ∧
    f.referenceForOffset (pendingRef (eightByteAdded unevenChunks).pendingBlocks) 5 =
      fail (.invalidFormat "block logical coverage") := by
  refine ⟨?_, ?_⟩
  · constructor <;> decide +kernel
  · refine ⟨⟨0, 1, .fixed, .hot, 8, 0, 2, 8⟩, ?_⟩
    decide +kernel

theorem cached_file_readable_sample : ∃ f, (eightByteAdded evenChunks).fileRecords = [f] ∧
    Readable f (eightByteAdded evenChunks).pendingBlocks := by
  let _ := exampleCrypto; let _ := target64; let _ := exampleFastCdc
  obtain ⟨cache, hparse, hentry⟩ := evenChunks_run.cache
  obtain ⟨f, hrecord, -, -, -, -, hreadable⟩ := cached_file_readable exampleJob eightBytes eightByteBuild
    (eightByteAdded evenChunks) (eightByteCache evenChunks) _ 1 cache _ hparse hentry evenChunks_run.usable
    (Prod.ext evenChunks_run.run rfl)
  refine ⟨f, hrecord, hreadable.2 ⟨by decide, fun _ => ?_⟩⟩
  unfold FixedChunks
  decide

end Hakutaku
