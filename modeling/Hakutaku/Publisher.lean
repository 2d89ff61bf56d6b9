import Hakutaku.Lib.Rescue
import Hakutaku.BuildCache
import Hakutaku.BuildOptions
import Hakutaku.Comparers
import Hakutaku.Snapshot

/-!
# Publishing a release (`packer.rs`)

What `pack_directory_with_progress` does around the packing loop: the lock of the output directory, the recovery from a
build that was interrupted, the verification of the staged snapshot, its commit, and the cleanup of the segments nothing
references any more. Every call on the file system may fail, and the process may be stopped at every call.
-/

namespace Hakutaku
open Wire Act

/-! ### The machine -/

/-- What stands under a name of a directory: a regular file, or something else. -/
inductive DirEntry
  | file (content : Bytes)
  | other
deriving DecidableEq

abbrev Directory := AList fun _ : String => DirEntry

def Directory.isFile (directory : Directory) (name : String) : Bool :=
  match directory.lookup name with
  | some (.file _) => true
  | _ => false

/-- A file that is only created where nothing stands. -/
def Directory.putNew (directory : Directory) (name : String) (content : Bytes) : Directory :=
  if (directory.lookup name).isSome then directory else directory.insert name (.file content)

/-- How a call ends. A write that fails, or that the process does not survive, has put down some of its bytes. -/
inductive Fate
  | done
  | fails (kind : IoKind) (written : Nat)
  | stops (written : Nat)

/-- The machine of a publisher. `output` is the output directory besides `data/`. In `data/`, the regular files that have
names of segments are those of `world`, and all else is in `beside`. `finished` is a history: the segments the builds wrote. -/
structure Machine where
  fates : List Fate
  output : Directory
  hasData : Bool
  beside : Directory
  world : World
  finished : List SegmentRecord

abbrev PublisherM := Act (Halt (Stop PackError)) Machine

/-- What a build is given: besides its job, the paths and the process it runs under, what the host shows it of the input
directory and of the sources when they are verified, and what is left of its temporary files if packing does not succeed. -/
structure Build where
  job : Job
  paths : BuildPaths
  pid : Nat
  listing : Listing
  listingFaults : List (Option IoKind)
  host : Host
  readFaults : List (Option Fault)
  leftSnapshot : Option Bytes
  leftSegments : List (Nat × Bytes)

def snapshotName : String := "game.haku"
def previousName : String := "game.haku.previous"
def stagedName (pid : Nat) : String := "game.haku.part-" ++ toString pid
def lockName : String := ".hakutaku.lock"
def cacheName : String := ".hakutaku-build-cache"
def stagedCacheName (pid : Nat) : String := ".hakutaku-build-cache.cache.part-" ++ toString pid
def temporaryName (pid index : Nat) : String := ".segment-" ++ toString pid ++ "-" ++ toString index ++ ".taku.part"

/-! ### Calls -/

def ioError (kind : IoKind) : Halt (Stop PackError) := .failed (.err (.io kind))

def nextFate : PublisherM Fate := do
  match (← get).fates with
  | [] => return .done
  | fate :: rest =>
    modify fun m => { m with fates := rest }
    return fate

/-- A call, up to what it changes. -/
def call : PublisherM Unit := do
  match ← nextFate with
  | .done => pure ()
  | .fails kind _ => throw (ioError kind)
  | .stops _ => throw .stopped

def putOutput (name : String) (content : Bytes) : PublisherM Unit :=
  modify fun m => { m with output := m.output.insert name (.file content) }

/-- `write_all` on a file of the output directory that was just created. -/
def writeOutput (name : String) (content : Bytes) : PublisherM Unit := do
  match ← nextFate with
  | .done => putOutput name content
  | .fails kind written =>
    putOutput name (content.take written)
    throw (ioError kind)
  | .stops written =>
    putOutput name (content.take written)
    throw .stopped

/-- `std::fs::remove_file` in the output directory. -/
def removeOutput (name : String) : PublisherM Unit := do
  call
  match (← get).output.lookup name with
  | some (.file _) => modify fun m => { m with output := m.output.erase name }
  | some .other => throw (ioError .other)
  | none => throw (ioError .notFound)

/-- `std::fs::rename` in the output directory. -/
def renameOutput (source target : String) : PublisherM Unit := do
  call
  let m ← get
  match m.output.lookup source with
  | none => throw (ioError .notFound)
  | some entry =>
    if m.output.lookup target = some .other then throw (ioError .other)
    modify fun m => { m with output := (m.output.erase source).insert target entry }

/-- `sync_directory`. -/
def syncDirectory : PublisherM Unit := do
  call
  call

/-! ### The names in `data/` -/

namespace Machine

/-- The segment file of a name. -/
def segmentNamed (m : Machine) (name : String) : Option SegmentId :=
  m.world.data.keys.find? fun id => segmentFileName id = name

def dataNames (m : Machine) : List String := m.world.data.keys.map segmentFileName ++ m.beside.keys

def isDataFile (m : Machine) (name : String) : Bool := (m.segmentNamed name).isSome || m.beside.isFile name

def withoutSegment (m : Machine) (id : SegmentId) : Machine :=
  { m with world := { m.world with data := m.world.data.erase id } }

def segment (m : Machine) (id : SegmentId) : Option Bytes := m.world.data.lookup id

end Machine

/-- `std::fs::remove_file` in `data/`. -/
def removeData (name : String) : PublisherM Unit := do
  call
  let m ← get
  match m.segmentNamed name with
  | some id => modify fun m => m.withoutSegment id
  | none =>
    if m.beside.isFile name then modify fun m => { m with beside := m.beside.erase name }
    else throw (ioError .notFound)

/-- A loop that removes the regular files with unwanted names from the entries of a directory, and reports whether there was
one. -/
def sweep (isFile : Machine → String → Bool) (unwanted : String → Bool) (remove : String → PublisherM Unit) :
    List String → Bool → PublisherM Bool
  | [], changed => return changed
  | name :: rest, changed => do
    call -- the entry
    call -- its type
    if isFile (← get) name && unwanted name then
      remove name
      sweep isFile unwanted remove rest true
    else sweep isFile unwanted remove rest changed

def hasPrefix (name start : String) : Bool := start.toList.isPrefixOf name.toList

def hasSuffix (name ending : String) : Bool := ending.toList.isSuffixOf name.toList

/-! ### The lock -/

def lockHeld (b : Build) : Halt (Stop PackError) :=
  .failed (.err (.invalidInput
    ("another build may be active; remove stale lock if necessary: " ++ joinPath b.paths.outputShown lockName)))

/-- `BuildLock::acquire`. -/
def acquireLock (b : Build) : PublisherM Unit := do
  match ← nextFate with
  | .stops _ => throw .stopped
  | .fails kind _ => throw (if kind = .alreadyExists then lockHeld b else ioError kind)
  | .done =>
    if ((← get).output.lookup lockName).isSome then throw (lockHeld b)
    putOutput lockName []
    writeOutput lockName (strBytes (toString b.pid ++ "\n"))
    call -- `sync_all`

/-! ### Recovery and cleanup -/

def isStagedSnapshot (name : String) : Bool := hasPrefix name "game.haku.part-"

def isTemporarySegment (name : String) : Bool := hasPrefix name ".segment-" && hasSuffix name ".taku.part"

/-- `recover_interrupted_release`. -/
def recoverInterruptedRelease : PublisherM Unit := do
  let m ← get
  let restored := (m.output.lookup snapshotName).isNone && (m.output.lookup previousName).isSome
  if restored then renameOutput previousName snapshotName
  call -- `read_dir`
  let names := (← get).output.keys
  let changed ← sweep (fun m => m.output.isFile) isStagedSnapshot removeOutput names restored
  if changed then syncDirectory
  if (← get).hasData then
    call -- `read_dir`
    let names := (← get).dataNames
    let changed ← sweep Machine.isDataFile isTemporarySegment removeData names false
    if changed then syncDirectory

def isHexDigit (c : Char) : Bool := c.isDigit || 'a' ≤ c && c ≤ 'f' || 'A' ≤ c && c ≤ 'F'

/-- Whether a name in `data/` is that of a segment which is not active. -/
def isUnreferenced (active : List SegmentId) (name : String) : Bool :=
  let stem := name.toList.take (name.toList.length - ".taku".toList.length)
  hasSuffix name ".taku" && stem.length = 64 && stem.all isHexDigit && !(active.map segmentFileName).contains name

/-- `cleanup_unreferenced_segments`. -/
def cleanupUnreferencedSegments (active : List SegmentId) : PublisherM Unit := do
  call -- `read_dir`
  let names := (← get).dataNames
  let removed ← sweep Machine.isDataFile (isUnreferenced active) removeData names false
  if removed then syncDirectory

section
variable [Crypto] [Target]

/-! ### The development cache -/

def maxCacheBytes : Nat := 256 * 1024 * 1024

/-- `BuildCache::load`. -/
def loadBuildCache (b : Build) (releaseSequence : UInt64) : PublisherM (Option BuildCache) := do
  match ← nextFate with
  | .stops _ => throw .stopped
  | .fails kind _ => if kind = .notFound then return none else throw (ioError kind)
  | .done =>
    match (← get).output.lookup cacheName with
    | none => return none
    | some .other => throw (ioError .other)
    | some (.file content) =>
      call -- its metadata
      if maxCacheBytes < content.length then return none
      call -- reading it
      match BuildCache.parse content b.job.identity.projectId releaseSequence with
      | .ok cache => return some cache
      | .error (.err ()) => return none
      | .error (.panic what) => throw (.failed (.panic what))

/-- What `save_build_cache` keeps of a file. -/
def cacheEntry (options : PackOptions) (t : BuildContext) (source : SourceFile) (record : FileRecord) :
    PackResult (String × CachedEntry) := do
  let start := record.firstBlock.toNat
  let stop ← okOr (checkedAdd usizeSize start record.blockCount.toNat) (PackError.invalidInput "build-cache block range")
  if t.chunkIds.length < stop then fail (.invalidInput "build-cache chunk range")
  if t.pendingBlocks.length < stop then fail (.invalidInput "build-cache block range")
  let chunks := List.zipWith
    (fun chunkId (pending : PendingBlock) => ⟨pending.reference.logicalOffset, pending.reference.plainLen, chunkId⟩)
    ((t.chunkIds.drop start).take record.blockCount.toNat) ((t.pendingBlocks.drop start).take record.blockCount.toNat)
  return (source.logicalPath, {
    stamp := source.stamp, layout := record.layout, fixedBlockLen := record.fixedBlockLen, access := record.access
    availability := options.availability source.logicalPath, compression := (classify source).compression, chunks })

def cacheEntries (options : PackOptions) (t : BuildContext) :
    List (SourceFile × FileRecord) → PackResult (List (String × CachedEntry))
  | [] => return []
  | (source, record) :: rest => do return (← cacheEntry options t source record) :: (← cacheEntries options t rest)

/-- The bytes of the cache of a build. -/
def encodeBuildCache (b : Build) (releaseSequence : UInt64) (sources : List SourceFile) (t : BuildContext) :
    PackResult Bytes := do
  if sources.length ≠ t.fileRecords.length then fail (.invalidInput "build-cache file record mismatch")
  let entries ← cacheEntries b.job.options t (sources.zip t.fileRecords)
  BuildCache.encode b.job.identity.projectId releaseSequence entries

/-- `save_build_cache`. -/
def saveBuildCache (b : Build) (releaseSequence : UInt64) (sources : List SourceFile) (t : BuildContext) :
    PublisherM Unit := do
  let bytes ← encodeBuildCache b releaseSequence sources t
  call -- creating the file
  if (← get).output.lookup (stagedCacheName b.pid) = some .other then throw (ioError .other)
  putOutput (stagedCacheName b.pid) []
  writeOutput (stagedCacheName b.pid) bytes
  onError (fun _ => true) (renameOutput (stagedCacheName b.pid) cacheName) (removeOutput (stagedCacheName b.pid))

/-! ### The release before -/

/-- What a build reads of the release before it, once the snapshot is open. -/
def PackageInner.oldRelease (P : PackageInner) : Result OldRelease := do
  let segments ← (List.range P.catalog.segmentCount.toNat).mapM P.catalog.segment
  let records ← P.catalog.reuseRecords P.idealPage
  return ⟨P.header.releaseSequence, P.header.sourceFingerprint, segments, records⟩

/-- A build that reuses nothing takes the place in the order only. -/
def PackageInner.previousRelease (P : PackageInner) (incremental : Bool) : Result OldRelease :=
  if incremental then P.oldRelease else return ⟨P.header.releaseSequence, P.header.sourceFingerprint, [], []⟩

/-- The package of the release before, if there is one. -/
def openOldPackage (b : Build) : PublisherM (Option PackageInner) := do
  let m ← get
  match m.output.lookup snapshotName with
  | some (.file snapshot) =>
    call -- reading it
    let P ← coreResult (PackageInner.open ideal snapshot m.segment b.job.identity.rootKey
      (Crypto.publicKey b.job.identity.signingKey) .memoryConstrained .trustFirstRelease)
    return some P
  | _ => return none

def loadOldRelease (b : Build) : Option PackageInner → PublisherM (Option OldRelease)
  | none => return none
  | some P => do
    call -- reading its tables
    let old ← coreResult (P.previousRelease b.job.options.incremental)
    return some old

def loadOldCache (b : Build) : Option PackageInner → PublisherM (Option BuildCache)
  | none => return none
  | some P => if b.job.options.developmentCache then loadBuildCache b P.header.releaseSequence else return none

/-! ### Packing -/

/-- What is left under the temporary names of a build that does not come through its packing loop. -/
def Machine.leave (m : Machine) (b : Build) : Machine := { m with
  output := match b.leftSnapshot with
    | some content => Directory.putNew m.output (stagedName b.pid) content
    | none => m.output
  beside := b.leftSegments.foldl (fun d left => Directory.putNew d (temporaryName b.pid left.1) left.2) m.beside }

/-- The machine behind a packing loop. -/
def Machine.packed (m : Machine) (t : BuildContext) : Machine :=
  { m with world := t.world, finished := m.finished ++ t.newSegmentRecords.reduceOption }

/-- The packing loop and the snapshot behind it. Where one of its calls fails, the process may have been stopped there. -/
def pack [FastCdc] (b : Build) (old : Option OldRelease) (files : List (SourceFile × Option CachedEntry)) :
    PublisherM (BuildResult × BuildContext) := do
  let (result, t) ← packDirectory b.job old files (← get).world
  modify fun m => m.packed t
  match result with
  | .ok built => return (built, t)
  | .error stop =>
    modify fun m => m.leave b
    match ← nextFate with
    | .stops _ => throw .stopped
    | _ => throw (.failed stop)

/-! ### Publishing -/

/-- The new segments and the ones a build keeps. -/
def BuildContext.activeSegmentIds (t : BuildContext) : List SegmentId :=
  t.usedExistingSegments.keys ++ t.newSegmentRecords.reduceOption.map SegmentRecord.id

def isError : Stop PackError → Bool
  | .err _ => true
  | .panic _ => false

/-- The staged snapshot, which is created anew. -/
def stage (b : Build) (release : StagedRelease) : PublisherM Unit := do
  if ((← get).output.lookup (stagedName b.pid)).isSome then throw (ioError .alreadyExists)
  putOutput (stagedName b.pid) release.snapshot

/-- `verify_staged_release`, of the staged snapshot. -/
def verifyStaged (b : Build) (sources : List SourceFile) : PublisherM Unit := do
  call
  let m ← get
  match m.output.lookup (stagedName b.pid) with
  | some (.file snapshot) =>
    verifyStagedRelease snapshot m.segment b.job.identity.rootKey (Crypto.publicKey b.job.identity.signingKey) b.host
      b.readFaults sources (!b.job.options.developmentCache)
  | _ => throw (ioError .notFound)

/-- `commit_snapshot`. -/
def commitSnapshot (b : Build) : PublisherM Unit := do
  renameOutput (stagedName b.pid) snapshotName
  syncDirectory

/-- The end of a build whose sources are those of the release before it. -/
def keepRelease (b : Build) (old : Option OldRelease) (sources : List SourceFile) (t : BuildContext) (report : PackReport) :
    PublisherM PackReport := do
  if b.job.options.developmentCache then saveBuildCache b report.releaseSequence sources t
  cleanupUnreferencedSegments (old.elim [] fun old => old.segments.map SegmentRecord.id)
  return report

/-- The end of a build that makes a new release. -/
def replaceRelease (b : Build) (sources : List SourceFile) (t : BuildContext) (release : StagedRelease) :
    PublisherM PackReport := do
  stage b release
  onError isError (verifyStaged b sources) (removeOutput (stagedName b.pid))
  if b.job.options.developmentCache then saveBuildCache b release.report.releaseSequence sources t
  onError isError (commitSnapshot b) (removeOutput (stagedName b.pid))
  cleanupUnreferencedSegments t.activeSegmentIds
  return release.report

/-- What a build does under its lock. -/
def packLocked [FastCdc] (b : Build) : PublisherM PackReport := do
  recoverInterruptedRelease
  call -- `create_dir_all` of `data/`
  modify fun m => { m with hasData := true }
  call -- listing the input directory, with the calls of its own
  let sources ← ((collectFiles b.paths.inputShown b.listing).runOn b.listingFaults).1
  let _ ← sumLengths "input size overflow" (sources.map fun source => source.len.toNat) 0
  let package ← openOldPackage b
  let cache ← loadOldCache b package
  let old ← loadOldRelease b package
  call -- the compressor
  let (built, t) ← pack b old (sources.map fun source => (source, cache.bind fun cache => cache.lookup source.logicalPath))
  match built with
  | .unchanged report => keepRelease b old sources t report
  | .staged release => replaceRelease b sources t release

/-- `pack_directory_with_progress`. -/
def packDirectoryWithProgress [FastCdc] (b : Build) : PublisherM PackReport := do
  validateOptions b.paths b.job.options
  validateIdentityLocation b.paths
  call -- `create_dir_all`
  acquireLock b
  guarded (packLocked b) (removeOutput lockName)

end

end Hakutaku
