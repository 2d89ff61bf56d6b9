import Hakutaku.CachedChunks
import Hakutaku.ReuseIndex

/-!
# A development-cache build equals a strict build

A file taken from a usable cache entry leaves the state that reading its source would have left, and the
cache branch does not run out of blocks on the way; hence builds that differ in the use of the cache only end
in the same state.
-/

namespace Hakutaku
open Wire Act BuildContext

/-- The error of a cache branch that finds no block for a chunk. -/
def lostBlock : Stop PackError := .err (.invalidInput "development cache lost a reusable block")

section
variable {s : BuildContext} {job : Job} {source : SourceFile} {entry : CachedEntry} {cls : SourceClass}
  {availability : Availability}

theorem tryU32_ne_lostBlock {n : Nat} {reason : String} (hreason : reason ≠ "development cache lost a reusable block")
    {e : Stop PackError} (h : tryU32 n reason = .error e) : e ≠ lostBlock := by
  unfold tryU32 at h
  split at h
  · cases h
  · cases h
    intro hlost
    cases hlost
    exact hreason rfl

theorem tryU64_ne_lostBlock {n : Nat} {reason : String} (hreason : reason ≠ "development cache lost a reusable block")
    {e : Stop PackError} (h : tryU64 n reason = .error e) : e ≠ lostBlock := by
  unfold tryU64 at h
  split at h
  · cases h
  · cases h
    intro hlost
    cases hlost
    exact hreason rfl

theorem checkedPathLen_ne_lostBlock {path : String} {e : Stop PackError} (h : checkedPathLen path = .error e) :
    e ≠ lostBlock := by
  unfold checkedPathLen at h
  split at h
  · cases h
  · cases h
    intro hlost
    injection hlost with hlost
    injection hlost with hlost
    have hhead := congrArg (fun reason => reason.toList.head?) hlost
    have hpath : ("path is too long: ".toList ++ path.toList).head? = some 'p' := rfl
    rw [String.toList_append, hpath] at hhead
    exact absurd hhead (by decide)

variable [Crypto] [Target] [FastCdc]

/-- The cache branch serves every chunk of a usable entry. -/
theorem addFileChunks_cached (husable : s.cachedEntryUsable source entry cls availability)
    (hids : IdsFixLengths entry.chunks) (hlen : source.len ≠ 0) :
    (addFileChunks job source (some entry) cls availability).runOn s =
      (.ok (), entry.chunks.foldl (fun s => s.serve ⟨availability, cls.access⟩ cls.compression) s) := by
  unfold addFileChunks
  rw [runOn_bind_ok runOn_get, if_neg hlen, Option.filter_some, if_pos husable]
  exact addCachedChunks_runOn (servable_of_usable husable) hids

/-- The source branch serves the same chunks, where they are those of the entry. -/
theorem addFileChunks_source (husable : s.cachedEntryUsable source entry cls availability)
    (hids : IdsFixLengths entry.chunks) (hlen : source.len ≠ 0)
    (hchunks : entry.chunks = sourceChunks cls (s.world.sources source.hostPath).bytes) :
    ensures (addFileChunks job source none cls availability) (fun _ t =>
      OnlyFaults (entry.chunks.foldl (fun s => s.serve ⟨availability, cls.access⟩ cls.compression) s) t) s := by
  have hserved := servable_of_usable husable
  unfold addFileChunks
  refine wp_bind.2 (wp_get.2 ?_)
  rw [if_neg hlen]
  simp only [Option.filter_none]
  rw [hchunks] at hserved hids ⊢
  unfold sourceChunks sourcePieces at hserved hids ⊢
  split
  · rename_i hlayout
    simp only [hlayout] at hserved hids ⊢
    unfold addFixedFile
    refine wp_bind.2 (((openVerified_onlyFaults source s).and (openVerified_spec source)).mono ?_)
    rintro _ _ ⟨⟨faults, rfl⟩, -, rfl⟩
    refine wp_bind.2 ((addFixedChunks_served (s := s.withFaults faults) job _ ⟨availability, cls.access⟩ _ 0 _ hserved
      hids).mono ?_)
    rintro _ _ ⟨faults', rfl⟩
    refine wp_bind.2 ((wp_lift _).2 ⟨fun _ _ => ?_, fun _ _ => trivial⟩)
    refine (validateOpenFile_onlyFaults source _ _).mono ?_
    rintro _ _ ⟨faults'', rfl⟩
    rw [foldl_serve_withFaults]
    exact ⟨faults'', rfl⟩
  · rename_i hlayout
    simp only [hlayout, List.map_map] at hserved hids ⊢
    unfold addContentDefinedFile
    refine wp_bind.2 (((openVerified_onlyFaults source s).and (openVerified_spec source)).mono ?_)
    rintro _ _ ⟨⟨faults, rfl⟩, -, rfl⟩
    split
    · trivial
    refine wp_bind.2 (wp_bind.2 ((syscall_onlyFaults _).mono ?_))
    rintro _ _ ⟨faults', rfl⟩
    refine wp_bind.2 ((wp_lift _).2 ⟨fun _ hvalid => ?_, fun _ _ => trivial⟩)
    refine wp_bind.2 ((validateOpenFile_onlyFaults source _ _).mono ?_)
    rintro _ _ ⟨faults'', rfl⟩
    have htake : (s.world.sources source.hostPath).bytes.take (source.len.toNat + 1) =
        (s.world.sources source.hostPath).bytes := by
      have hlen := validateSourceLen_eq_ok.1 hvalid
      rw [List.length_take] at hlen
      exact List.take_of_length_le (by omega)
    rw [htake]
    refine (addDefinedChunks_served (s := s.withFaults faults'') job _ ⟨availability, cls.access⟩ _ hserved hids).mono ?_
    rintro _ _ rfl
    rw [foldl_serve_withFaults]
    exact ⟨faults'', rfl⟩

/-- Where the chunks from the cache leave what those from the source leave, so does the whole file. -/
theorem addFile_branches {t : BuildContext} (hrun : (addFile job source none).runOn s = (.ok (), t))
    (hbranch : ∀ u, (addFileChunks job source none (classify source) (job.options.availability source.logicalPath)).runOn
        (s.beginFile source (classify source) (job.options.availability source.logicalPath)) = (.ok (), u) →
      ∃ u', (addFileChunks job source (some entry) (classify source) (job.options.availability source.logicalPath)).runOn
        (s.beginFile source (classify source) (job.options.availability source.logicalPath)) = (.ok (), u') ∧
          OnlyFaults u' u) :
    ∃ t', (addFile job source (some entry)).runOn s = (.ok (), t') ∧ OnlyFaults t' t := by
  unfold addFile at hrun ⊢
  simp only [runOn_get_bind, runOn_modify_bind, runOn_lift_bind_eq_ok] at hrun ⊢
  obtain ⟨firstBlock, hfirst, pathOffset, hoffset, pathLen, hpath, hrun⟩ := hrun
  obtain ⟨_, u, hchunks, hrun⟩ := runOn_bind_eq_ok.1 hrun
  simp only [runOn_get_bind, runOn_modify_bind, runOn_lift_bind_eq_ok] at hrun
  obtain ⟨blockCount, hcount, completed, hcompleted, hrun⟩ := hrun
  obtain ⟨u', hchunks', faults, rfl⟩ := hbranch u hchunks
  rw [runOn_modify] at hrun
  cases hrun
  let record : FileRecord := {
    pathOffset, pathLen, layout := (classify source).layout, access := (classify source).access, logicalLen := source.len
    firstBlock, blockCount, fixedBlockLen := (classify source).fixedBlockLen }
  refine ⟨{ u'.endFile record with completedBytes := completed }, ⟨firstBlock, hfirst, pathOffset, hoffset, pathLen, hpath,
    runOn_bind_eq_ok.2 ⟨(), u', hchunks', ?_⟩⟩, faults, rfl⟩
  simp only [runOn_get_bind, runOn_modify_bind, runOn_lift_bind_eq_ok]
  exact ⟨blockCount, hcount, completed, hcompleted, rfl⟩

omit [Target] in
/-- What an unchanged stamp means for an entry: its chunks are those of the content, and an id stands for one
length. -/
structure FaithfulEntry (sources : String → SourceView) (source : SourceFile) (entry : CachedEntry) : Prop where
  chunks : entry.chunks = sourceChunks (classify source) (sources source.hostPath).bytes
  lengths : IdsFixLengths entry.chunks

theorem addFile_usable {t : BuildContext}
    (husable : s.cachedEntryUsable source entry (classify source) (job.options.availability source.logicalPath))
    (hentry : FaithfulEntry s.world.sources source entry) (hrun : (addFile job source none).runOn s = (.ok (), t)) :
    ∃ t', (addFile job source (some entry)).runOn s = (.ok (), t') ∧ OnlyFaults t' t := by
  refine addFile_branches hrun fun u hu => ?_
  have hbegun : (s.beginFile source (classify source) (job.options.availability source.logicalPath)).cachedEntryUsable source
      entry (classify source) (job.options.availability source.logicalPath) := by
    rwa [cachedEntryUsable_beginFile]
  by_cases hlen : source.len = 0
  · unfold addFileChunks at hu ⊢
    rw [runOn_get_bind, if_pos hlen] at hu ⊢
    exact ⟨u, hu, u.world.faults, rfl⟩
  · exact ⟨_, addFileChunks_cached hbegun hentry.lengths hlen,
      (addFileChunks_source hbegun hentry.lengths hlen hentry.chunks).ok hu⟩

theorem addFile_unusable {t : BuildContext}
    (hunusable : s.cachedEntryUsable source entry (classify source) (job.options.availability source.logicalPath) = false)
    (hrun : (addFile job source none).runOn s = (.ok (), t)) :
    ∃ t', (addFile job source (some entry)).runOn s = (.ok (), t') ∧ OnlyFaults t' t := by
  refine addFile_branches hrun fun u hu => ⟨u, ?_, u.world.faults, rfl⟩
  have hbegun : (s.beginFile source (classify source) (job.options.availability source.logicalPath)).cachedEntryUsable source
      entry (classify source) (job.options.availability source.logicalPath) = false := by
    rwa [cachedEntryUsable_beginFile]
  unfold addFileChunks at hu ⊢
  rw [runOn_get_bind] at hu ⊢
  rw [Option.filter_some, hbegun]
  exact hu

/-- The cache branch of a file does not run out of blocks. -/
theorem addFile_ne_lostBlock
    (husable : s.cachedEntryUsable source entry (classify source) (job.options.availability source.logicalPath))
    (hids : IdsFixLengths entry.chunks) :
    wp (addFile job source (some entry)) (fun _ _ => True) (fun e _ => e ≠ lostBlock) s := by
  have hbegun : (s.beginFile source (classify source) (job.options.availability source.logicalPath)).cachedEntryUsable source
      entry (classify source) (job.options.availability source.logicalPath) := by
    rwa [cachedEntryUsable_beginFile]
  have hchunks : ∃ u, (addFileChunks job source (some entry) (classify source)
      (job.options.availability source.logicalPath)).runOn
        (s.beginFile source (classify source) (job.options.availability source.logicalPath)) = (.ok (), u) := by
    by_cases hlen : source.len = 0
    · unfold addFileChunks
      rw [runOn_get_bind, if_pos hlen]
      exact ⟨_, runOn_pure ()⟩
    · exact ⟨_, addFileChunks_cached hbegun hids hlen⟩
  obtain ⟨u, hu⟩ := hchunks
  unfold addFile
  refine wp_bind.2 (wp_get.2 (wp_bind.2 ((wp_lift _).2 ⟨fun _ _ => ?_, fun e he => tryU32_ne_lostBlock (by decide) he⟩)))
  refine wp_bind.2 (wp_get.2 (wp_bind.2 ((wp_lift _).2 ⟨fun _ _ => ?_, fun e he => tryU32_ne_lostBlock (by decide) he⟩)))
  refine wp_bind.2 ((wp_lift _).2 ⟨fun _ _ => ?_, fun e he => checkedPathLen_ne_lostBlock he⟩)
  refine wp_bind.2 ((wp_modify _).2 (wp_bind.2 (wp_get.2 (wp_bind.2 ?_))))
  unfold wp
  rw [hu]
  refine wp_bind.2 (wp_get.2 (wp_bind.2 ((wp_lift _).2 ⟨fun _ _ => ?_, fun e he => tryU32_ne_lostBlock (by decide) he⟩)))
  refine wp_bind.2 ((wp_modify _).2 (wp_bind.2 (wp_get.2 (wp_bind.2 ((wp_lift _).2 ⟨fun _ _ => trivial, fun e he => ?_⟩)))))
  exact tryU64_ne_lostBlock (by decide) he

/-! ### Whole builds -/

/-- Each file as a strict build takes it. -/
def strictFiles (files : List (SourceFile × Option CachedEntry)) : List (SourceFile × Option CachedEntry) :=
  files.map fun file => (file.1, none)

/-- Every entry that can be taken for its file is faithful. -/
def FaithfulCache (sources : String → SourceView) (files : List (SourceFile × Option CachedEntry)) : Prop :=
  ∀ file ∈ files, ∀ entry, file.2 = some entry → entry.stamp = file.1.stamp → entry.layout = (classify file.1).layout →
    entry.fixedBlockLen = (classify file.1).fixedBlockLen → FaithfulEntry sources file.1 entry

theorem addFile_cached {t : BuildContext} (cached : Option CachedEntry)
    (hentry : ∀ entry, cached = some entry → entry.stamp = source.stamp → entry.layout = (classify source).layout →
      entry.fixedBlockLen = (classify source).fixedBlockLen → FaithfulEntry s.world.sources source entry)
    (hrun : (addFile job source none).runOn s = (.ok (), t)) :
    ∃ t', (addFile job source cached).runOn s = (.ok (), t') ∧ OnlyFaults t' t := by
  rcases cached with _ | entry
  · exact ⟨t, hrun, t.world.faults, rfl⟩
  rcases husable : s.cachedEntryUsable source entry (classify source) (job.options.availability source.logicalPath)
  · exact addFile_unusable husable hrun
  · refine addFile_usable husable ?_ hrun
    have hchecks := husable
    simp only [cachedEntryUsable, Bool.and_eq_true, decide_eq_true_eq] at hchecks
    obtain ⟨⟨⟨⟨⟨⟨hstamp, hlayout⟩, hblockLen⟩, -⟩, -⟩, -⟩, -⟩ := hchecks
    exact hentry entry rfl hstamp hlayout hblockLen

/-- In a calm world the two packing loops end in one state. -/
theorem addFiles_cached {files : List (SourceFile × Option CachedEntry)} {t t' : BuildContext} (hcalm : s.calm = s)
    (hfaithful : FaithfulCache s.world.sources files) (hrun : (addFiles job files).runOn s = (.ok (), t))
    (hrun' : (addFiles job (strictFiles files)).runOn s = (.ok (), t')) : t = t' := by
  induction files generalizing s with
  | nil =>
    change (addFiles job []).runOn s = _ at hrun'
    rw [hrun] at hrun'
    exact (Prod.mk.inj hrun').2
  | cons file rest ih =>
    obtain ⟨source, cached⟩ := file
    unfold addFiles at hrun
    rw [strictFiles, List.map_cons] at hrun'
    unfold addFiles at hrun'
    obtain ⟨_, u, hfile, hrun⟩ := runOn_bind_eq_ok.1 hrun
    obtain ⟨_, u', hfile', hrun'⟩ := runOn_bind_eq_ok.1 hrun'
    obtain ⟨v, hv, faults, hfaults⟩ := addFile_cached cached (hfaithful (source, cached) List.mem_cons_self) hfile'
    have huv : v = u := by
      rw [hfile] at hv
      exact (Prod.mk.inj hv).2.symm
    have huu : u = u' := by
      rw [huv] at hfaults
      rw [← (Calm.addFile job source none).ends hcalm hfile', hfaults, ← (Calm.addFile job source cached).ends hcalm hfile]
      rfl
    obtain ⟨added, hadded, -⟩ := (addFile_spec job source none).ok hfile'
    rw [huu] at hrun
    refine ih ((Calm.addFile job source none).ends hcalm hfile') ?_ hrun hrun'
    rw [hadded.sources]
    exact fun file hmem => hfaithful file (List.mem_cons_of_mem _ hmem)

end

theorem cached_build_equal [Crypto] [Target] [FastCdc] :
    (∀ (job : Job) (s : BuildContext) (source : SourceFile) (entry : CachedEntry),
      s.cachedEntryUsable source entry (classify source) (job.options.availability source.logicalPath) →
      FaithfulEntry s.world.sources source entry →
      (∀ e t, (addFile job source (some entry)).runOn s = (.error e, t) → e ≠ lostBlock) ∧
      ∀ t, (addFile job source none).runOn s = (.ok (), t) →
        ∃ t', (addFile job source (some entry)).runOn s = (.ok (), t') ∧ t = t'.withFaults t.world.faults) ∧
    ∀ (job : Job) (files : List (SourceFile × Option CachedEntry)) (reuse : ReuseIndex) (world : World)
      (faults : List (Option IoKind)) (t t' : BuildContext), FaithfulCache world.sources files →
      (packFiles job files).runOn (.new reuse files.length world) = (.ok (), t) →
      (packFiles job (strictFiles files)).runOn (.new reuse files.length { world with faults }) = (.ok (), t') →
      t' = t.withFaults t'.world.faults := by
  refine ⟨?_, ?_⟩
  · intro job s source entry husable hentry
    refine ⟨fun e t hrun => (addFile_ne_lostBlock husable hentry.lengths).error hrun, fun t hrun => ?_⟩
    obtain ⟨t', hrun', faults, rfl⟩ := addFile_usable husable hentry hrun
    exact ⟨t', hrun', rfl⟩
  · intro job files reuse world faults t t' hfaithful hrun hrun'
    have hcalm := Calm.packFiles job files _ _ _ hrun
    have hcalm' := Calm.packFiles job (strictFiles files) _ _ _ hrun'
    obtain ⟨_, u, hfiles, hfinish⟩ := runOn_bind_eq_ok.1 hcalm
    obtain ⟨_, u', hfiles', hfinish'⟩ := runOn_bind_eq_ok.1 hcalm'
    obtain rfl : u = u' := addFiles_cached (s := (BuildContext.new reuse files.length world).calm) rfl hfaithful hfiles hfiles'
    rw [hfinish] at hfinish'
    have hsame := (Prod.mk.inj hfinish').2
    calc t' = t'.calm.withFaults t'.world.faults := rfl
      _ = t.calm.withFaults t'.world.faults := by rw [hsame]
      _ = t.withFaults t'.world.faults := rfl

/-! ### A rebuild of one byte -/

def cachedByte : SourceFile := ⟨"in/b", "b", 1, ⟨1, none, 0, 0⟩⟩

def cachedByteWorld : World := ⟨[], [], fun _ => ⟨some cachedByte.stamp, [9], some cachedByte.stamp⟩, ∅, [], [], []⟩

def cachedByteId : ByteArr 32 :=
  letI := exampleCrypto
  Crypto.hash [9]

def cachedByteEntry : CachedEntry := ⟨cachedByte.stamp, .fixed, 1, .hot, .required, .auto, [⟨0, 1, cachedByteId⟩]⟩

def cachedByteReuse : ReuseIndex where
  compacting := false
  blocks := AList.singleton (cachedByteId, .required) ⟨⟨0, 0, 0, 128, 17, 1, .raw, .replicate 16 0⟩, 0⟩
  segments := [⟨⟨.replicate 32 9⟩, .replicate 16 0, .replicate 16 0, .replicate 8 0, 145, 17, 1, .required⟩]

/-- The build with the given use of the cache. -/
def cachedByteBuilt (cached : Option CachedEntry) : Except (Stop PackError) Unit × BuildContext :=
  letI := exampleCrypto; letI := target64; letI := exampleFastCdc
  (packFiles exampleJob [(cachedByte, cached)]).runOn (.new cachedByteReuse 1 cachedByteWorld)

theorem cachedByte_runs : (cachedByteBuilt (some cachedByteEntry)).1 = .ok () ∧ (cachedByteBuilt none).1 = .ok () := by
  decide +kernel

theorem cached_build_equal_sample :
    (cachedByteBuilt none).2 = (cachedByteBuilt (some cachedByteEntry)).2.withFaults (cachedByteBuilt none).2.world.faults := by
  let _ := exampleCrypto; let _ := target64; let _ := exampleFastCdc
  refine cached_build_equal.2 exampleJob [(cachedByte, some cachedByteEntry)] cachedByteReuse cachedByteWorld [] _ _ ?_
    (Prod.ext cachedByte_runs.1 rfl) (Prod.ext cachedByte_runs.2 rfl)
  intro file hfile entry hentry _ _ _
  obtain rfl := List.mem_singleton.1 hfile
  obtain rfl := Option.some.inj hentry
  refine ⟨by decide +kernel, ?_⟩
  unfold IdsFixLengths
  decide +kernel

end Hakutaku
