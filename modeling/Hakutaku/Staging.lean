import Hakutaku.NonceHistory

/-!
# What staging a release does

Behind the packing loop a build only changes the system. `Staged`: what `write_snapshot` returns. `build_pages` seals
page `i` under ordinal `i + 1`, whatever its kind, and `write_snapshot` the catalog under ordinal 0 behind all of
them. `World.Grew`: what a call adds to the histories of the system.
-/

namespace Hakutaku
open Wire Act

/-- The derivation inputs and the seals between two states. No identity was drawn. -/
structure World.Grew (w w' : World) (inputs : List Bytes) (entries : List Seal) : Prop where
  drawn : w'.drawn = w.drawn
  derived : w'.derived = w.derived ++ inputs
  seals : w'.seals = w.seals ++ entries

namespace World.Grew
variable {w w' w'' : World} {inputs inputs' : List Bytes} {entries entries' : List Seal}

theorem refl (w : World) : w.Grew w [] [] := ⟨rfl, (List.append_nil _).symm, (List.append_nil _).symm⟩

theorem of_idle (h : w.Idle w') : w.Grew w' [] [] := by
  refine ⟨h.drawn, ?_, ?_⟩
  · rw [h.derived, List.append_nil]
  · rw [h.seals, List.append_nil]

theorem trans (h : w.Grew w' inputs entries) (h' : w'.Grew w'' inputs' entries') :
    w.Grew w'' (inputs ++ inputs') (entries ++ entries') := by
  refine ⟨h'.drawn.trans h.drawn, ?_, ?_⟩
  · rw [h'.derived, h.derived, List.append_assoc]
  · rw [h'.seals, h.seals, List.append_assoc]

theorem idle (h : w.Grew w' inputs entries) (h' : w'.Idle w'') : w.Grew w'' inputs entries := by
  have hall := h.trans (of_idle h')
  rwa [List.append_nil, List.append_nil] at hall

end World.Grew

/-- Only the system differs. -/
def SystemOnly (s t : BuildContext) : Prop := ∃ world, t = { s with world := world }

theorem SystemOnly.refl (s : BuildContext) : SystemOnly s s := ⟨_, rfl⟩

theorem SystemOnly.trans {s t u : BuildContext} (h : SystemOnly s t) (h' : SystemOnly t u) : SystemOnly s u := by
  obtain ⟨_, rfl⟩ := h
  obtain ⟨world, rfl⟩ := h'
  exact ⟨world, rfl⟩

theorem Idle.systemOnly {s t : BuildContext} (h : Idle s t) : SystemOnly s t := by
  obtain ⟨world, rfl, -⟩ := h
  exact ⟨world, rfl⟩

section
variable [Crypto]

/-- The seal of a snapshot's part under an ordinal. -/
def snapshotSeal (key : ByteArr 32) (noncePrefix : ByteArr 8) (ordinal : Nat) : Seal :=
  ⟨key, nonce noncePrefix (UInt32.ofNat ordinal)⟩

/-- The seals of `count` pages behind the first `done`. -/
def pageSeals (key : ByteArr 32) (noncePrefix : ByteArr 8) (done count : Nat) : List Seal :=
  (List.range' (done + 1) count).map (snapshotSeal key noncePrefix)

/-- The ordinals of the pages behind the first `done` are those of 32 bits. -/
def Numberable (done count : Nat) : Prop := 0 < count → done + count < u32Size

omit [Crypto] in
theorem Numberable.zero (done : Nat) : Numberable done 0 := fun h => absurd h (lt_irrefl 0)

omit [Crypto] in
theorem Numberable.add {done m n : Nat} (h : Numberable done m) (h' : Numberable (done + m) n) : Numberable done (m + n) := by
  intro hpos
  rcases Nat.eq_zero_or_pos n with rfl | hn
  · exact h hpos
  · rw [← Nat.add_assoc]
    exact h' hn

/-- Every page carries the ordinal behind its position. -/
def Numbered (directory : List PageRecord) : Prop :=
  ∀ i (r : PageRecord), directory[i]? = some r → r.nonceOrdinal.toNat = i + 1

omit [Crypto] in
theorem pageSeals_add (key : ByteArr 32) (noncePrefix : ByteArr 8) (done m n : Nat) :
    pageSeals key noncePrefix done m ++ pageSeals key noncePrefix (done + m) n = pageSeals key noncePrefix done (m + n) := by
  unfold pageSeals
  rw [← List.map_append, Nat.add_right_comm, List.range'_append_1]

variable {w : PageSealer} {pages : PageRegion} {s : BuildContext}

/-- The pages sealed since `s`, behind those of a region. -/
def SealedPages (w : PageSealer) (done count : Nat) (s t : BuildContext) : Prop :=
  Numberable done count ∧ s.world.Grew t.world [] (pageSeals w.snapshotKey w.noncePrefix done count)

omit [Crypto] in
theorem SealedPages.none (done : Nat) (h : s.world.Idle t.world) : SealedPages w done 0 s t := ⟨.zero done, .of_idle h⟩

theorem encryptPage_seals (w : PageSealer) (kind : PageKind) (plaintext : Bytes) (pages : PageRegion) (s : BuildContext) :
    wp (encryptPage w kind plaintext pages)
      (fun pages' t => (∃ record : PageRecord, pages'.directory = pages.directory ++ [record] ∧
        record.nonceOrdinal.toNat = pages.directory.length + 1) ∧ SystemOnly s t ∧
        SealedPages w pages.directory.length 1 s t)
      (fun _ t => ∃ count, SealedPages w pages.directory.length count s t) s := by
  have hnone : ∃ count, SealedPages w pages.directory.length count s s := ⟨0, .none _ (.refl _)⟩
  unfold encryptPage
  refine wp_bind.2 ((wp_lift _).2 ⟨fun plainLen _ => ?_, fun _ _ => hnone⟩)
  refine wp_bind.2 ((wp_lift _).2 ⟨fun r _ => ?_, fun _ _ => hnone⟩)
  refine wp_bind.2 ((wp_lift _).2 ⟨fun storedLen _ => ?_, fun _ _ => hnone⟩)
  refine wp_bind.2 ((wp_lift _).2 ⟨fun ordinal hordinal => ?_, fun _ _ => hnone⟩)
  obtain ⟨hlt, rfl⟩ := BuildContext.tryU32_eq_ok.1 hordinal
  have hsealed {t : BuildContext} (h : s.world.Sealed t.world ⟨w.snapshotKey, nonce w.noncePrefix (UInt32.ofNat (pages.directory.length + 1))⟩) :
      SealedPages w pages.directory.length 1 s t :=
    ⟨fun _ => hlt, h.drawn, h.derived.trans (List.append_nil _).symm, h.seals⟩
  refine wp_bind.2 ((sealBytes_spec _ _ _ _ s).mono ?_ fun _ t ht => ⟨1, hsealed ht⟩)
  rintro encrypted _ ⟨-, world, rfl, ht⟩
  refine wp_bind.2 ((wp_lift _).2 ⟨fun offset _ => ?_, fun _ _ => ⟨1, hsealed ht⟩⟩)
  exact ⟨⟨_, rfl, UInt32.toNat_ofNat_of_lt' hlt⟩, ⟨_, rfl⟩, hsealed ht⟩

omit [Crypto] in
theorem Numbered.snoc {directory : List PageRecord} {record : PageRecord} (h : Numbered directory)
    (hrecord : record.nonceOrdinal.toNat = directory.length + 1) : Numbered (directory ++ [record]) := by
  intro i r hi
  rcases Nat.lt_or_ge i directory.length with hlt | hge
  · rw [List.getElem?_append_left hlt] at hi
    exact h i r hi
  · rw [List.getElem?_append_right hge, List.getElem?_singleton] at hi
    split at hi
    · obtain rfl := Option.some.inj hi
      rw [hrecord]
      omega
    · cases hi

variable [Target]

theorem encryptPages_seals {α : Type} (w : PageSealer) (kind : PageKind) (encodePage : UInt32 → List α → Result Bytes)
    (perPage : Nat) (reason : String) (chunks : List (List α)) (pageIndex : Nat) (pages : PageRegion) (s : BuildContext)
    (hpages : Numbered pages.directory) :
    wp (encryptPages w kind encodePage perPage reason chunks pageIndex pages)
      (fun pages' t => Numbered pages'.directory ∧ SystemOnly s t ∧
        ∃ count, pages'.directory.length = pages.directory.length + count ∧ SealedPages w pages.directory.length count s t)
      (fun _ t => ∃ count, SealedPages w pages.directory.length count s t) s := by
  induction chunks generalizing pageIndex pages s with
  | nil => exact ⟨hpages, .refl s, 0, rfl, .none _ (.refl _)⟩
  | cons records rest ih =>
    have hnone : ∃ count, SealedPages w pages.directory.length count s s := ⟨0, .none _ (.refl _)⟩
    unfold encryptPages
    refine wp_bind.2 ((wp_lift _).2 ⟨fun first _ => ?_, fun _ _ => hnone⟩)
    refine wp_bind.2 ((wp_lift _).2 ⟨fun first _ => ?_, fun _ _ => hnone⟩)
    refine wp_bind.2 ((wp_lift _).2 ⟨fun plaintext _ => ?_, fun _ _ => hnone⟩)
    refine wp_bind.2 ((encryptPage_seals w kind plaintext pages s).mono ?_ fun _ _ h => h)
    rintro pages₁ t ⟨⟨record, hdirectory, hrecord⟩, honly, hone, ht⟩
    have hlen : pages₁.directory.length = pages.directory.length + 1 := by
      rw [hdirectory, List.length_append, List.length_singleton]
    have hpages₁ : Numbered pages₁.directory := by
      rw [hdirectory]
      exact hpages.snoc hrecord
    have hjoin {count : Nat} {u : BuildContext} (hu : SealedPages w pages₁.directory.length count t u) :
        SealedPages w pages.directory.length (1 + count) s u := by
      rw [hlen] at hu
      refine ⟨hone.add hu.1, ?_⟩
      rw [← pageSeals_add]
      exact ht.trans hu.2
    refine (ih (pageIndex + 1) pages₁ t hpages₁).mono ?_ ?_
    · rintro pages₂ u ⟨hnumbered, honly', count, hcount, hu⟩
      refine ⟨hnumbered, honly.trans honly', 1 + count, ?_, hjoin hu⟩
      rw [hcount, hlen, Nat.add_assoc]
    · rintro _ u ⟨count, hu⟩
      exact ⟨1 + count, hjoin hu⟩

/-- Both tables share the ordinals from 1 on. -/
theorem buildPages_seals (w : PageSealer) (blockRefs : List BlockRef) (chunkIds : List (ByteArr 32)) (s : BuildContext) :
    wp (buildPages w blockRefs chunkIds)
      (fun pages t => Numbered pages.directory ∧ SystemOnly s t ∧ SealedPages w 0 pages.directory.length s t)
      (fun _ t => ∃ count, SealedPages w 0 count s t) s := by
  have hnone : ∃ count, SealedPages w 0 count s s := ⟨0, .none _ (.refl _)⟩
  unfold buildPages
  refine wp_bind.2 ((wp_lift _).2 ⟨fun _ _ => ?_, fun _ _ => hnone⟩)
  refine wp_bind.2 ((encryptPages_seals w .blockMap _ _ _ _ 0 ⟨0, [], []⟩ s nofun).mono ?_ fun _ _ h => h)
  rintro pages₁ t₁ ⟨hnumbered₁, honly₁, m, hm, h₁⟩
  have h₁ : SealedPages w 0 m s t₁ := h₁
  rw [List.length_nil, Nat.zero_add] at hm
  refine wp_bind.2 ((wp_lift _).2 ⟨fun mapCount _ => ?_, fun _ _ => ⟨m, h₁⟩⟩)
  have hjoin {n : Nat} {u : BuildContext} (hu : SealedPages w pages₁.directory.length n t₁ u) :
      SealedPages w 0 (m + n) s u := by
    rw [hm] at hu
    refine ⟨h₁.1.add ?_, ?_⟩
    · rw [Nat.zero_add]
      exact hu.1
    · have hadd := pageSeals_add w.snapshotKey w.noncePrefix 0 m n
      rw [Nat.zero_add] at hadd
      rw [← hadd]
      exact h₁.2.trans hu.2
  refine wp_bind.2 ((encryptPages_seals w .reuse _ _ _ _ 0 pages₁ t₁ hnumbered₁).mono ?_ ?_)
  · rintro pages₂ t₂ ⟨hnumbered₂, honly₂, n, hn, h₂⟩
    rw [hm] at hn
    refine wp_bind.2 ((wp_lift _).2 ⟨fun pageCount _ => ?_, fun _ _ => ⟨_, hjoin h₂⟩⟩)
    refine wp_bind.2 ((wp_lift _).2 ⟨fun reuseCount _ => ?_, fun _ _ => ⟨_, hjoin h₂⟩⟩)
    exact ⟨hnumbered₂, honly₁.trans honly₂, hn ▸ hjoin h₂⟩
  · rintro _ u ⟨n, hu⟩
    exact ⟨_, hjoin hu⟩

/-! ### The snapshot -/

/-- How far a build came with its snapshot: the keys it derived, and the parts it sealed. -/
inductive SnapshotSeals (keys : ProjectKeys) : List Bytes → List Seal → Prop
  | none : SnapshotSeals keys [] []
  | path : SnapshotSeals keys [pathInput] []
  | pages (salt : ByteArr 16) (noncePrefix : ByteArr 8) {count : Nat} (h : Numberable 0 count) :
      SnapshotSeals keys [pathInput, snapshotInput salt] (pageSeals (keys.snapshotKey salt) noncePrefix 0 count)
  | all (salt : ByteArr 16) (noncePrefix : ByteArr 8) {count : Nat} (h : Numberable 0 count) :
      SnapshotSeals keys [pathInput, snapshotInput salt]
        (pageSeals (keys.snapshotKey salt) noncePrefix 0 count ++ [snapshotSeal (keys.snapshotKey salt) noncePrefix 0])

omit [Crypto] [Target] in
theorem Idle.writePageFiles (ciphertexts : List Bytes) : Always Idle (writePageFiles ciphertexts) := by
  induction ciphertexts with
  | nil => exact .pure _
  | cons _ rest ih => exact .bind Idle.syscall fun _ => ih

omit [Crypto] [Target] in
theorem validatePairCount_eq_ok {blocks reuse : Nat} {u : Unit} : validatePairCount blocks reuse = .ok u ↔ blocks = reuse := by
  unfold validatePairCount
  split
  · exact ⟨fun _ => ‹_›, fun _ => rfl⟩
  · rename_i hne
    exact ⟨fun h => absurd h fail_ne_ok, fun h => absurd h hne⟩

/-- A staged release, as it follows from the state behind the packing loop. -/
structure Staged (job : Job) (releaseSequence : UInt64) (s : BuildContext) (release : StagedRelease) : Prop where
  segments : release.segments = releaseSegments s
  few : release.segments.length ≤ 2 ^ 16
  blockRefs : resolveBlocks s release.segments s.pendingBlocks = .ok release.blockRefs
  pairs : release.blockRefs.length = s.chunkIds.length
  blocks : release.blockRefs.length < u32Size
  catalog : ∃ pathSlots catalog, CatalogData.encode {
    segments := release.segments, files := s.fileRecords, pathSlots, pathPool := s.pathPool
    pages := release.pages.directory, totalBlocks := UInt32.ofNat release.blockRefs.length
    mapPageCount := release.pages.mapCount, reusePageCount := release.pages.reuseCount } = .ok catalog
  report : ∃ storage fileCount newSegments, storageStats release.segments release.blockRefs = .ok storage ∧
    tryU32 s.fileRecords.length "too many files" = .ok fileCount ∧
    tryU32 s.newSegmentRecords.reduceOption.length "too many new segments" = .ok newSegments ∧
    release.report = {
      changed := true, releaseSequence, fileCount, blockCount := UInt32.ofNat release.blockRefs.length
      reusedBlocks := s.reusedBlocks, newBlocks := s.newBlocks, newSegments, newSegmentBytes := s.newSegmentBytes
      retainedSegmentBytes := storage.retained, referencedBlockBytes := storage.referenced
      strandedSegmentBytes := storage.stranded }

/-- The snapshot of a release was sealed under the ordinals its readers take from it. -/
def Resealed (keys : ProjectKeys) (w w' : World) (release : StagedRelease) : Prop :=
  ∃ (header : SnapshotHeader) (catalog : Bytes),
    release.snapshot = header.encode false ++ catalog ++ release.pages.ciphertexts.flatten ∧
    Numbered release.pages.directory ∧ Numberable 0 release.pages.directory.length ∧
    w.Grew w' [pathInput, snapshotInput header.snapshotSalt]
      (pageSeals (keys.snapshotKey header.snapshotSalt) header.noncePrefix 0 release.pages.directory.length ++
        [snapshotSeal (keys.snapshotKey header.snapshotSalt) header.noncePrefix 0])

omit [Crypto] [Target] in
theorem recordDerivation_grew (input : Bytes) (s : BuildContext) :
    wp (recordDerivation input) (fun _ t => SystemOnly s t ∧ s.world.Grew t.world [input] []) (fun _ _ => False) s :=
  ⟨⟨_, rfl⟩, rfl, rfl, (List.append_nil _).symm⟩

theorem writeSnapshot_spec (job : Job) (releaseSequence : UInt64) (sourceFingerprint : ByteArr 32) (s : BuildContext) :
    wp (writeSnapshot job releaseSequence sourceFingerprint)
      (fun release t => Staged job releaseSequence s release ∧ SystemOnly s t ∧
        Resealed job.keys s.world t.world release)
      (fun _ t => ∃ inputs entries, SnapshotSeals job.keys inputs entries ∧ s.world.Grew t.world inputs entries) s := by
  have hnone : ∃ inputs entries, SnapshotSeals job.keys inputs entries ∧ s.world.Grew s.world inputs entries :=
    ⟨_, _, .none, .refl _⟩
  unfold writeSnapshot
  refine wp_bind.2 (wp_get.2 ?_)
  extract_lets segments keys jp
  split
  · exact hnone
  · rename_i hfew
    refine wp_bind.2 ((wp_lift _).2 ⟨fun blockRefs hblockRefs => ?_, fun _ _ => hnone⟩)
    refine wp_bind.2 ((wp_lift _).2 ⟨fun storage hstorage => ?_, fun _ _ => hnone⟩)
    refine wp_bind.2 ((wp_lift _).2 ⟨fun _ hpairs => ?_, fun _ _ => hnone⟩)
    refine wp_bind.2 ((recordDerivation_grew _ s).mono ?_ fun _ _ h => h.elim)
    rintro _ s₁ ⟨honly₁, h₁⟩
    have hpath {t : BuildContext} (ht : Idle s₁ t) :
        ∃ inputs entries, SnapshotSeals job.keys inputs entries ∧ s.world.Grew t.world inputs entries :=
      ⟨_, _, .path, h₁.idle ht.world⟩
    refine wp_bind.2 ((wp_lift _).2 ⟨fun pathSlots _ => ?_, fun _ _ => hpath (Std.Refl.refl _)⟩)
    refine wp_idle_bind (Std.Refl.refl _) (Idle.randomArray 16) (fun _ _ => hpath) fun salt s₂ h₂ => ?_
    refine wp_idle_bind h₂ (Idle.randomArray 8) (fun _ _ => hpath) fun noncePrefix s₃ h₃ => ?_
    refine wp_bind.2 ((recordDerivation_grew _ s₃).mono ?_ fun _ _ h => h.elim)
    rintro _ s₄ ⟨honly₄, h₄⟩
    have h₄ : s.world.Grew s₄.world [pathInput, snapshotInput salt] [] := (h₁.idle h₃.world).trans h₄
    extract_lets snapshotKey
    have hsome {count : Nat} {t u : BuildContext}
        (ht : SealedPages ⟨job.identity.projectId, releaseSequence, noncePrefix, snapshotKey, job.options.compressionLevel⟩
          0 count s₄ t) (hu : Idle t u) :
        ∃ inputs entries, SnapshotSeals job.keys inputs entries ∧ s.world.Grew u.world inputs entries :=
      ⟨_, _, .pages salt noncePrefix ht.1, (h₄.trans ht.2).idle hu.world⟩
    refine wp_bind.2 ((buildPages_seals _ _ _ s₄).mono ?_ ?_)
    · rintro pages s₅ ⟨hnumbered, honly₅, h₅⟩
      have hstop := hsome h₅ (Std.Refl.refl _)
      refine wp_bind.2 ((wp_lift _).2 ⟨fun totalBlocks htotal => ?_, fun _ _ => hstop⟩)
      refine wp_bind.2 ((wp_lift _).2 ⟨fun catalog hcatalog => ?_, fun _ _ => hstop⟩)
      refine wp_bind.2 ((wp_lift _).2 ⟨fun catalogCiphertext _ => ?_, fun _ _ => hstop⟩)
      refine wp_bind.2 ((wp_lift _).2 ⟨fun catalogStoredLen _ => ?_, fun _ _ => hstop⟩)
      refine wp_bind.2 ((wp_lift _).2 ⟨fun pageRegionOffset _ => ?_, fun _ _ => hstop⟩)
      refine wp_bind.2 ((wp_lift _).2 ⟨fun pageCount _ => ?_, fun _ _ => hstop⟩)
      extract_lets header
      have hsealed {t : BuildContext} (ht : s₅.world.Sealed t.world ⟨snapshotKey, nonce noncePrefix 0⟩) :
          s.world.Grew t.world [pathInput, snapshotInput salt]
            (pageSeals snapshotKey noncePrefix 0 pages.directory.length ++ [snapshotSeal snapshotKey noncePrefix 0]) :=
        (h₄.trans h₅.2).trans ⟨ht.drawn, ht.derived.trans (List.append_nil _).symm, ht.seals⟩
      have hall {t u : BuildContext} (ht : s₅.world.Sealed t.world ⟨snapshotKey, nonce noncePrefix 0⟩) (hu : Idle t u) :
          ∃ inputs entries, SnapshotSeals job.keys inputs entries ∧ s.world.Grew u.world inputs entries :=
        ⟨_, _, .all salt noncePrefix h₅.1, (hsealed ht).idle hu.world⟩
      refine wp_bind.2 ((sealBytes_spec _ _ _ _ s₅).mono ?_ fun _ _ ht => hall ht (Std.Refl.refl _))
      rintro ciphertext _ ⟨-, w₆, rfl, h₆⟩
      extract_lets message signed jp'
      split
      · exact hall h₆ (Std.Refl.refl _)
      refine wp_idle_bind (Std.Refl.refl _) Idle.syscall (fun _ _ => hall h₆) fun _ u₁ hu₁ => ?_
      refine wp_idle_bind hu₁ Idle.syscall (fun _ _ => hall h₆) fun _ u₂ hu₂ => ?_
      refine wp_idle_bind hu₂ Idle.syscall (fun _ _ => hall h₆) fun _ u₃ hu₃ => ?_
      refine wp_idle_bind hu₃ (Idle.writePageFiles _) (fun _ _ => hall h₆) fun _ u₄ hu₄ => ?_
      refine wp_idle_bind hu₄ Idle.syscall (fun _ _ => hall h₆) fun _ u₅ hu₅ => ?_
      refine wp_idle_bind hu₅ Idle.syscall (fun _ _ => hall h₆) fun _ u₆ hu₆ => ?_
      refine wp_bind.2 ((wp_lift _).2 ⟨fun fileCount hfiles => ?_, fun _ _ => hall h₆ hu₆⟩)
      refine wp_bind.2 ((wp_lift _).2 ⟨fun newSegments hnew => ?_, fun _ _ => hall h₆ hu₆⟩)
      obtain ⟨hblocks, rfl⟩ := BuildContext.tryU32_eq_ok.1 htotal
      have hpairs' : blockRefs.length = s.chunkIds.length := validatePairCount_eq_ok.1 hpairs
      refine ⟨⟨rfl, Nat.not_lt.1 hfew, hblockRefs, hpairs', hblocks, ⟨pathSlots, catalog, coreResult_eq_ok.1 hcatalog⟩,
        storage, fileCount, newSegments, hstorage, hfiles, hnew, rfl⟩, ?_, signed, ciphertext, rfl, hnumbered, h₅.1, ?_⟩
      · have honly₆ : SystemOnly s₅ { s₅ with world := w₆ } := ⟨w₆, rfl⟩
        exact (((honly₁.trans h₃.systemOnly).trans honly₄).trans honly₅).trans (honly₆.trans hu₆.systemOnly)
      · exact (hsealed h₆).idle hu₆.world
    · rintro _ u ⟨count, hu⟩
      exact hsome hu (Std.Refl.refl _)

/-! ### From the packing loop on -/

/-- How a build ends that has not failed: behind its packing loop, in the system it leaves. -/
def Published (job : Job) (old : Option OldRelease) (releaseSequence : UInt64) (fileCount : Nat) (s t : BuildContext) :
    BuildResult → Prop
  | .unchanged report => t = s ∧ ∃ release, old = some release ∧ unchangedReport release fileCount s = .ok report
  | .staged release => Staged job releaseSequence s release ∧ SystemOnly s t ∧ Resealed job.keys s.world t.world release

/-- The end of a build, behind its packing loop in the state `s`. -/
def publishRest (job : Job) (old : Option OldRelease) (compacting : Bool) (releaseSequence : UInt64) (fileCount : Nat)
    (s : BuildContext) : BuildM BuildResult :=
  match old.filter fun old => unchangedRelease job.options compacting (some old) (Crypto.hash s.fingerprint) with
  | some old => do return .unchanged (← unchangedReport old fileCount s)
  | none => do return .staged (← writeSnapshot job releaseSequence (Crypto.hash s.fingerprint))

theorem publish_spec [FastCdc] (job : Job) (old : Option OldRelease) (compacting : Bool) (releaseSequence : UInt64)
    (files : List (SourceFile × Option CachedEntry)) {s : BuildContext} (hs : OneEach s) :
    wp (publish job old compacting releaseSequence files)
      (fun built t => ∃ cs s' s'', Steps job s cs s' ∧ s'.activeSegments = [] ∧ Idle s' s'' ∧
        Published job old releaseSequence files.length s'' t built)
      (fun _ t => ∃ cs s' w inputs entries, Steps job s cs s' ∧ Halted s' w ∧ SnapshotSeals job.keys inputs entries ∧
        w.Grew t.world inputs entries) s := by
  unfold publish
  refine wp_bind.2 ((packFiles_runs job files hs).mono ?_ ?_)
  · rintro _ s' ⟨hactive, cs, hsteps⟩
    refine wp_bind.2 (wp_get.2 ?_)
    have hrest {s'' : BuildContext} (hidle : Idle s' s'') :
        wp (publishRest job old compacting releaseSequence files.length s')
        (fun built t => ∃ cs s' s'', Steps job s cs s' ∧ s'.activeSegments = [] ∧ Idle s' s'' ∧
          Published job old releaseSequence files.length s'' t built)
        (fun _ t => ∃ cs s' w inputs entries, Steps job s cs s' ∧ Halted s' w ∧ SnapshotSeals job.keys inputs entries ∧
          w.Grew t.world inputs entries) s'' := by
      unfold publishRest
      split
      · rename_i release hrelease
        refine wp_bind.2 ((wp_lift _).2 ⟨fun report hreport => ?_, fun _ _ => ?_⟩)
        · obtain ⟨hold, -⟩ := Option.filter_eq_some_iff.1 hrelease
          obtain ⟨world, rfl, hworld⟩ := hidle
          exact ⟨cs, s', _, hsteps, hactive, ⟨world, rfl, hworld⟩, rfl, release, hold, hreport⟩
        · exact ⟨cs, s', _, _, _, hsteps, .inl hidle.world, .none, .refl _⟩
      · refine wp_bind.2 ((writeSnapshot_spec job releaseSequence _ s'').mono ?_ ?_)
        · exact fun release t ht => ⟨cs, s', s'', hsteps, hactive, hidle, ht⟩
        · rintro _ t ⟨inputs, entries, hseals, hgrew⟩
          exact ⟨cs, s', _, inputs, entries, hsteps, .inl hidle.world, hseals, hgrew⟩
    have hstop {t : BuildContext} (ht : Idle s' t) : ∃ cs s' w inputs entries, Steps job s cs s' ∧ Halted s' w ∧
        SnapshotSeals job.keys inputs entries ∧ w.Grew t.world inputs entries :=
      ⟨cs, s', _, _, _, hsteps, .inl ht.world, .none, .refl _⟩
    split
    · exact wp_idle_bind (Std.Refl.refl s') Idle.syscall (fun _ _ => hstop) fun _ _ => hrest
    · exact hrest (Std.Refl.refl s')
  · rintro _ t ⟨cs, s', hsteps, hhalted⟩
    exact ⟨cs, s', _, _, _, hsteps, hhalted, .none, .refl _⟩

theorem packDirectory_eq_ok [FastCdc] {job : Job} {old : Option OldRelease}
    {files : List (SourceFile × Option CachedEntry)} {world : World}
    {result : Except (Stop PackError) BuildResult} {t : BuildContext} :
    packDirectory job old files world = .ok (result, t) ↔
      ∃ reuse releaseSequence, loadReuseIndex (old.filter fun _ => job.options.incremental) = .ok reuse ∧
        nextSequence job.options old = .ok releaseSequence ∧
        (publish job old reuse.compacting releaseSequence files).runOn (.new reuse files.length world) = (result, t) := by
  unfold packDirectory startBuild
  constructor
  · intro h
    obtain ⟨⟨s, compacting, releaseSequence⟩, hstart, h⟩ := bind_eq_ok.1 h
    obtain ⟨reuse, hreuse, hstart⟩ := bind_eq_ok.1 hstart
    obtain ⟨releaseSequence', hsequence, hstart⟩ := bind_eq_ok.1 hstart
    cases hstart
    exact ⟨reuse, releaseSequence, hreuse, hsequence, Except.ok.inj h⟩
  · rintro ⟨reuse, releaseSequence, hreuse, hsequence, h⟩
    rw [hreuse, hsequence]
    exact congrArg Except.ok h

end

end Hakutaku
