import Hakutaku.Staging

/-!
# No nonce is used twice

A build seals the blocks of each of its segments under 0, 1, 2, …, the catalog under 0 and the pages from 1 on, each
under a key of its own. With distinct identities and a keyed hash without collisions on what the build derives keys
from, all its seals are different, wherever it stops.
-/

namespace Hakutaku
open Wire Act

/-- The system with empty histories. -/
def World.begin (w : World) : World := { w with drawn := [], derived := [], seals := [] }

theorem nonce_injective {noncePrefix noncePrefix' : ByteArr 8} {ordinal ordinal' : UInt32}
    (h : nonce noncePrefix ordinal = nonce noncePrefix' ordinal') : ordinal = ordinal' := by
  have hbytes : noncePrefix.toList ++ u32Bytes ordinal = noncePrefix'.toList ++ u32Bytes ordinal' :=
    congrArg ByteArr.toList h
  refine u32Bytes_injective (List.append_inj_right hbytes ?_)
  rw [ByteArr.length_toList, ByteArr.length_toList]

section
variable [Crypto] {keys : ProjectKeys} {w w' : World} {hist : List SegmentHistory} {inputs : List Bytes} {entries : List Seal}

/-- The keyed hash has no collision on what the system derived keys from. -/
def World.KeysDiffer (keys : ProjectKeys) (w : World) : Prop :=
  ∀ a ∈ w.derived, ∀ b ∈ w.derived, Crypto.keyedHash keys.master a = Crypto.keyedHash keys.master b → a = b

instance (keys : ProjectKeys) (w : World) : Decidable (w.KeysDiffer keys) :=
  inferInstanceAs (Decidable (∀ a ∈ w.derived, ∀ b ∈ w.derived, _ → _))

omit [Crypto] in
/-- Seals of one key under different ordinals differ. -/
theorem nodup_seals {f : Nat → Seal} {noncePrefix : ByteArr 8}
    (hf : ∀ ordinal, (f ordinal).nonce = nonce noncePrefix (UInt32.ofNat ordinal)) {ordinals : List Nat}
    (hdistinct : ordinals.Nodup) (hlt : ∀ ordinal ∈ ordinals, ordinal < u32Size) : (ordinals.map f).Nodup := by
  refine hdistinct.map_on fun a ha b hb hab => ?_
  have hnonce := congrArg Seal.nonce hab
  rw [hf, hf] at hnonce
  have hnat := congrArg UInt32.toNat (nonce_injective hnonce)
  rwa [UInt32.toNat_ofNat_of_lt' (hlt a ha), UInt32.toNat_ofNat_of_lt' (hlt b hb)] at hnat

/-- The derivation inputs of a whole build are distinct. -/
theorem History.nodup_derived (h : History keys w hist) (hw : w.Grew w' inputs entries)
    (hsnapshot : SnapshotSeals keys inputs entries) (hdrawn : w'.drawn.Nodup) : w'.derived.Nodup := by
  have hidentities : (hist.map SegmentHistory.identity).Nodup := by rwa [h.drawn, ← hw.drawn]
  have hsegments : w.derived.Nodup := by
    refine h.derived.nodup ?_
    rw [show hist.map SegmentHistory.input = (hist.map SegmentHistory.identity).map segmentInput by rw [List.map_map]; rfl]
    exact hidentities.map segmentInput_injective
  have hsegment : ∀ input ∈ w.derived, ∃ identity, input = segmentInput identity := by
    intro input hinput
    obtain ⟨k, -, rfl⟩ := List.mem_map.1 (h.derived.subset hinput)
    exact ⟨_, rfl⟩
  rw [hw.derived, List.nodup_append]
  refine ⟨hsegments, ?_, ?_⟩
  · have htwo (salt : ByteArr 16) : [pathInput, snapshotInput salt].Nodup :=
      List.nodup_cons.2 ⟨fun hmem => snapshotInput_ne_pathInput salt (List.mem_singleton.1 hmem).symm, List.nodup_singleton _⟩
    cases hsnapshot with
    | none => exact List.nodup_nil
    | path => exact List.nodup_singleton _
    | pages salt => exact htwo salt
    | all salt => exact htwo salt
  · intro input hinput other hother
    obtain ⟨identity, rfl⟩ := hsegment input hinput
    have htwo (salt : ByteArr 16) (hmem : other ∈ [pathInput, snapshotInput salt]) : segmentInput identity ≠ other := by
      rcases List.mem_cons.1 hmem with rfl | hmem
      · exact segmentInput_ne_pathInput identity
      · obtain rfl := List.mem_singleton.1 hmem
        exact segmentInput_ne_snapshotInput identity salt
    cases hsnapshot with
    | none => exact absurd hother List.not_mem_nil
    | path => exact htwo (.replicate 16 0) (List.mem_cons.2 (.inl (List.mem_singleton.1 hother)))
    | pages salt => exact htwo salt hother
    | all salt => exact htwo salt hother

/-- The seals of a snapshot are distinct, and under the key of its salt. -/
theorem SnapshotSeals.nodup (h : SnapshotSeals keys inputs entries) :
    entries.Nodup ∧ ∀ entry ∈ entries, ∃ salt, snapshotInput salt ∈ inputs ∧ entry.key = keys.snapshotKey salt := by
  have hpages {count : Nat} (hcount : Numberable 0 count) : ∀ ordinal ∈ List.range' 1 count, ordinal < u32Size := by
    intro ordinal hmem
    obtain ⟨hge, hlt⟩ := List.mem_range'_1.1 hmem
    have hlast := hcount (by omega)
    omega
  cases h with
  | none => exact ⟨List.nodup_nil, nofun⟩
  | path => exact ⟨List.nodup_nil, nofun⟩
  | pages salt noncePrefix hcount =>
    refine ⟨nodup_seals (fun _ => rfl) List.nodup_range' (hpages hcount), fun entry hentry => ⟨salt, ?_, ?_⟩⟩
    · exact List.mem_cons_of_mem _ (List.mem_singleton_self _)
    · obtain ⟨_, -, rfl⟩ := List.mem_map.1 hentry
      rfl
  | @all salt noncePrefix count hcount =>
    have hmap : pageSeals (keys.snapshotKey salt) noncePrefix 0 count ++ [snapshotSeal (keys.snapshotKey salt) noncePrefix 0] =
        (List.range' 1 count ++ [0]).map (snapshotSeal (keys.snapshotKey salt) noncePrefix) := by
      rw [List.map_append]
      rfl
    rw [hmap]
    refine ⟨nodup_seals (fun _ => rfl) ?_ ?_, fun entry hentry => ⟨salt, ?_, ?_⟩⟩
    · refine List.nodup_append.2 ⟨List.nodup_range', List.nodup_singleton _, fun a ha b hb => ?_⟩
      obtain rfl := List.mem_singleton.1 hb
      have hge := (List.mem_range'_1.1 ha).1
      omega
    · intro ordinal hmem
      rcases List.mem_append.1 hmem with hmem | hmem
      · exact hpages hcount ordinal hmem
      · obtain rfl := List.mem_singleton.1 hmem
        decide
    · exact List.mem_cons_of_mem _ (List.mem_singleton_self _)
    · obtain ⟨_, -, rfl⟩ := List.mem_map.1 hentry
      rfl

/-- The seals of a whole build are distinct. -/
theorem History.nodup_seals (h : History keys w hist) (hw : w.Grew w' inputs entries)
    (hsnapshot : SnapshotSeals keys inputs entries) (hdrawn : w'.drawn.Nodup) (hkeys : w'.KeysDiffer keys) :
    w'.seals.Nodup := by
  have hsegment : ∀ k ∈ hist, ∀ entry ∈ k.seals keys,
      entry.key = Crypto.keyedHash keys.master k.input ∧ k.input ∈ w'.derived := by
    intro k hk entry hentry
    obtain ⟨ordinal, hordinal, rfl⟩ := List.mem_map.1 hentry
    refine ⟨rfl, ?_⟩
    rw [hw.derived]
    exact List.mem_append_left _ ((h.sealed k hk).2 (Nat.zero_lt_of_lt (List.mem_range.1 hordinal)))
  obtain ⟨hentries, hsalt⟩ := hsnapshot.nodup
  rw [hw.seals, (h.seals.append_right entries).nodup_iff, List.nodup_append]
  refine ⟨List.nodup_flatMap.2 ⟨fun k hk => ?_, ?_⟩, hentries, fun a ha b hb => ?_⟩
  · refine Hakutaku.nodup_seals (fun _ => rfl) List.nodup_range fun ordinal hordinal => ?_
    exact (List.mem_range.1 hordinal).trans_le (h.sealed k hk).1
  · -- Segments of different identities have different keys.
    have hidentities : (hist.map SegmentHistory.identity).Nodup := by rwa [h.drawn, ← hw.drawn]
    refine (List.pairwise_map.1 hidentities).imp_of_mem ?_
    intro k k' hk hk' hne entry hentry hentry'
    obtain ⟨hkey, hinput⟩ := hsegment k hk entry hentry
    obtain ⟨hkey', hinput'⟩ := hsegment k' hk' entry hentry'
    exact hne (segmentInput_injective (hkeys _ hinput _ hinput' (hkey.symm.trans hkey')))
  · rintro rfl
    obtain ⟨k, hk, hak⟩ := List.mem_flatMap.1 ha
    obtain ⟨hkey, hinput⟩ := hsegment k hk a hak
    obtain ⟨salt, hmem, hsnapshotKey⟩ := hsalt a hb
    have hinput' : snapshotInput salt ∈ w'.derived := by
      rw [hw.derived]
      exact List.mem_append_right _ hmem
    exact segmentInput_ne_snapshotInput _ salt (hkeys _ hinput _ hinput' (hkey.symm.trans hsnapshotKey))

/-- A build by its history and the seals of its snapshot. -/
theorem History.differ (h : History keys w hist) (hw : w.Grew w' inputs entries)
    (hsnapshot : SnapshotSeals keys inputs entries) (hdrawn : w'.drawn.Nodup) (hkeys : w'.KeysDiffer keys) :
    w'.seals.Nodup ∧ w'.derived.Nodup ∧ w'.seals.Perm (hist.flatMap (SegmentHistory.seals keys) ++ entries) ∧
      ∀ k ∈ hist, k.sealed ≤ u32Size ∧ (k.seals keys).Sublist w'.seals := by
  refine ⟨h.nodup_seals hw hsnapshot hdrawn hkeys, h.nodup_derived hw hsnapshot hdrawn, ?_, fun k hk =>
    ⟨(h.sealed k hk).1, ?_⟩⟩
  · rw [hw.seals]
    exact h.seals.append_right entries
  · rw [hw.seals]
    exact (h.ordered k hk).trans (List.sublist_append_left _ _)

/-! ### What the reader opens with -/

/-- The key and nonce a reader opens a block with: those of the segment's header and the reference. -/
def openSeal (keys : ProjectKeys) (header : SegmentHeader) (reference : BlockRef) : Seal :=
  ⟨keys.segmentKey header, nonce header.noncePrefix reference.segmentBlockOrdinal⟩

/-- The seals of a finished segment are what a reader opens its blocks with. -/
theorem Tracks.seals_iff {s : BuildContext} (h : Tracks keys s hist) {i : Nat} {record : SegmentRecord}
    (hrecord : s.newSegmentRecords[i]? = some (some record)) {header : SegmentHeader}
    (huid : header.segmentUid = record.uid) (hsalt : header.salt = record.salt)
    (hnonces : header.noncePrefix = record.noncePrefix) :
    ∃ k, hist[i]? = some k ∧ k.sealed = record.blockCount.toNat ∧ ∀ entry, entry ∈ k.seals keys ↔
      ∃ pending ∈ s.pendingBlocks, pending.locator = .new i ∧ entry = openSeal keys header pending.reference := by
  obtain ⟨k, hk, huid', hsalt', hnonces', hcount⟩ := h.finished i record hrecord
  have hseal {reference : BlockRef} {ordinal : Nat} (hordinal : reference.segmentBlockOrdinal.toNat = ordinal) :
      k.seal keys ordinal = openSeal keys header reference := by
    subst hordinal
    unfold SegmentHistory.seal openSeal
    rw [UInt32.ofNat_toNat, hnonces, hnonces']
    refine congrArg (fun key => (⟨key, _⟩ : Seal)) ?_
    show Crypto.keyedHash keys.master (segmentInput (k.uid, k.salt)) =
      Crypto.keyedHash keys.master (segmentInput (header.segmentUid, header.salt))
    rw [huid, hsalt, huid', hsalt']
  refine ⟨k, hk, hcount.symm, fun entry => ⟨fun hentry => ?_, ?_⟩⟩
  · obtain ⟨ordinal, hordinal, rfl⟩ := List.mem_map.1 hentry
    obtain ⟨pending, hp, hlocator, heq⟩ := h.returned i k hk ordinal (List.mem_range.1 hordinal)
    exact ⟨pending, hp, hlocator, hseal heq⟩
  · rintro ⟨pending, hp, hlocator, rfl⟩
    obtain ⟨k', hk', hlt⟩ := h.blocks pending hp i hlocator
    obtain rfl := Option.some.inj (hk.symm.trans hk')
    exact List.mem_map.2 ⟨_, List.mem_range.2 hlt, hseal rfl⟩

omit [Crypto] in
/-- The seals of numbered pages are those their records name. -/
theorem pageSeals_eq (key : ByteArr 32) (noncePrefix : ByteArr 8) {directory : List PageRecord} (h : Numbered directory) :
    pageSeals key noncePrefix 0 directory.length = directory.map fun r => ⟨key, nonce noncePrefix r.nonceOrdinal⟩ := by
  refine List.ext_getElem (by simp only [pageSeals, List.length_map, List.length_range']) fun i hi hi' => ?_
  rw [List.length_map] at hi'
  have hordinal := h i directory[i] (List.getElem?_eq_getElem hi')
  simp only [pageSeals, List.getElem_map, List.getElem_range', snapshotSeal, Nat.one_mul]
  rw [Nat.zero_add, Nat.add_comm, ← hordinal, UInt32.ofNat_toNat]

/-! ### Whole builds -/

variable [Target]

/-- No seal of a build repeats, whether the build succeeds or stops on its way, and the seals of a build that succeeds are
those its readers open. -/
theorem nonces_unique [FastCdc] (job : Job) (old : Option OldRelease) (files : List (SourceFile × Option CachedEntry))
    (world : World) {result : Except (Stop PackError) BuildResult} {t : BuildContext}
    (hrun : packDirectory job old files world.begin = .ok (result, t)) (hdrawn : t.world.drawn.Nodup)
    (hkeys : t.world.KeysDiffer job.keys) :
    t.world.seals.Nodup ∧ t.world.derived.Nodup ∧
    ∃ (segments : List SegmentHistory) (inputs : List Bytes) (snapshot : List Seal),
      t.world.seals.Perm (segments.flatMap (SegmentHistory.seals job.keys) ++ snapshot) ∧
      (∀ h ∈ segments, h.sealed ≤ u32Size ∧ (h.seals job.keys).Sublist t.world.seals) ∧
      SnapshotSeals job.keys inputs snapshot ∧
      ∀ built, result = .ok built →
        (∀ i, i < t.newSegmentRecords.length → ∃ record, t.newSegmentRecords[i]? = some (some record) ∧
          ∀ header : SegmentHeader, header.segmentUid = record.uid → header.salt = record.salt →
            header.noncePrefix = record.noncePrefix → ∃ h, segments[i]? = some h ∧ h.sealed = record.blockCount.toNat ∧
              ∀ entry, entry ∈ h.seals job.keys ↔
                ∃ pending ∈ t.pendingBlocks, pending.locator = .new i ∧ entry = openSeal job.keys header pending.reference) ∧
        ∀ release, built = .staged release → ∃ (header : SnapshotHeader) (catalog : Bytes),
          release.snapshot = header.encode false ++ catalog ++ release.pages.ciphertexts.flatten ∧
          (∀ i (r : PageRecord), release.pages.directory[i]? = some r → r.nonceOrdinal.toNat = i + 1) ∧
          snapshot = (release.pages.directory.map fun r =>
              (⟨job.keys.snapshotKey header.snapshotSalt, nonce header.noncePrefix r.nonceOrdinal⟩ : Seal)) ++
            [⟨job.keys.snapshotKey header.snapshotSalt, nonce header.noncePrefix 0⟩] := by
  obtain ⟨reuse, releaseSequence, -, -, hpublish⟩ := packDirectory_eq_ok.1 hrun
  have hspec := publish_spec job old reuse.compacting releaseSequence files
    (OneEach.new reuse files.length world.begin)
  have hstart : Tracks job.keys (.new reuse files.length world.begin) [] := .new _ reuse files.length rfl rfl rfl
  rcases result with stop | built
  · obtain ⟨cs, s', w, inputs, entries, hsteps, hhalted, hsnapshot, hw⟩ := hspec.error hpublish
    obtain ⟨_, htracks⟩ := hstart.steps hsteps
    obtain ⟨hist, hhist⟩ := htracks.halted hhalted
    obtain ⟨hseals, hderived, hperm, hordered⟩ := hhist.differ hw hsnapshot hdrawn hkeys
    exact ⟨hseals, hderived, hist, inputs, entries, hperm, hordered, hsnapshot, nofun⟩
  · obtain ⟨cs, s', s'', hsteps, hactive, hidle, hbuilt⟩ := hspec.ok hpublish
    obtain ⟨_, htracks⟩ := hstart.steps hsteps
    obtain ⟨hist, htracks⟩ := htracks.step (.outside hidle.outside)
    have hempty : s''.activeSegments = [] := by
      obtain ⟨_, rfl, -⟩ := hidle
      exact hactive
    have hblocks : ∀ i, i < s''.newSegmentRecords.length → ∃ record, s''.newSegmentRecords[i]? = some (some record) ∧
        ∀ header : SegmentHeader, header.segmentUid = record.uid → header.salt = record.salt →
          header.noncePrefix = record.noncePrefix → ∃ h, hist[i]? = some h ∧ h.sealed = record.blockCount.toNat ∧
            ∀ entry, entry ∈ h.seals job.keys ↔
              ∃ pending ∈ s''.pendingBlocks, pending.locator = .new i ∧ entry = openSeal job.keys header pending.reference := by
      intro i hi
      obtain ⟨record, hrecord⟩ := htracks.filled hempty hi
      exact ⟨record, hrecord, fun header huid hsalt hnonces => htracks.seals_iff hrecord huid hsalt hnonces⟩
    cases built with
    | unchanged report =>
      obtain ⟨rfl, -⟩ := hbuilt
      obtain ⟨hseals, hderived, hperm, hordered⟩ := htracks.history.differ (.refl _) .none hdrawn hkeys
      refine ⟨hseals, hderived, hist, [], [], hperm, hordered, .none, fun built hbuilt => ⟨hblocks, fun release hrelease => ?_⟩⟩
      rw [← Except.ok.inj hbuilt] at hrelease
      cases hrelease
    | staged release =>
      obtain ⟨-, ⟨_, rfl⟩, header, catalog, hsnapshot, hnumbered, hnumberable, hw⟩ := hbuilt
      have hall : SnapshotSeals job.keys _ _ := .all header.snapshotSalt header.noncePrefix hnumberable
      obtain ⟨hseals, hderived, hperm, hordered⟩ := htracks.history.differ hw hall hdrawn hkeys
      refine ⟨hseals, hderived, hist, _, _, hperm, hordered, hall, fun built hbuilt => ⟨hblocks, fun release' hrelease => ?_⟩⟩
      rw [← Except.ok.inj hbuilt] at hrelease
      cases hrelease
      refine ⟨header, catalog, hsnapshot, hnumbered, ?_⟩
      rw [pageSeals_eq _ _ hnumbered]
      rfl

end

/-! ### A release of one byte -/

def sealedByte : SourceFile := ⟨"in/c", "c", 1, ⟨1, none, 0, 0⟩⟩

def sealedByteWorld : World :=
  ⟨[], List.replicate 64 5, fun _ => ⟨some sealedByte.stamp, [7], some sealedByte.stamp⟩, ∅, [], [], []⟩

/-- The build of its first release: a block, two pages and the catalog. -/
def sealedByteBuilt : Except (Stop PackError) BuildResult × BuildContext :=
  letI := exampleCrypto; letI := target64; letI := exampleFastCdc
  (publish exampleJob none false 1 [(sealedByte, none)]).runOn (.new ⟨false, ∅, []⟩ 1 sealedByteWorld.begin)

theorem nonces_unique_sample : let _ := exampleCrypto; let _ := target64; let _ := exampleFastCdc
    packDirectory exampleJob none [(sealedByte, none)] sealedByteWorld.begin = .ok (sealedByteBuilt.1, sealedByteBuilt.2) ∧
      sealedByteBuilt.2.world.seals.length = 4 ∧ sealedByteBuilt.2.world.seals.Nodup := by
  let _ := exampleCrypto; let _ := target64; let _ := exampleFastCdc
  have hpublish : (publish exampleJob none false 1 [(sealedByte, none)]).runOn (.new ⟨false, ∅, []⟩ 1 sealedByteWorld.begin) =
      sealedByteBuilt := rfl
  have hrun := packDirectory_eq_ok.2 ⟨⟨false, ∅, []⟩, 1, rfl, rfl, hpublish.trans (Prod.mk.eta (p := sealedByteBuilt)).symm⟩
  have hdrawn : sealedByteBuilt.2.world.drawn.Nodup := by decide +kernel
  have hkeys : sealedByteBuilt.2.world.KeysDiffer exampleJob.keys := by decide +kernel
  exact ⟨hrun, by decide +kernel, (nonces_unique exampleJob none [(sealedByte, none)] sealedByteWorld hrun hdrawn hkeys).1⟩

end Hakutaku
