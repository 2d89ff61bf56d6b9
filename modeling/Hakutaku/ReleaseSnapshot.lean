import Hakutaku.ReleaseContents
import Hakutaku.Proofs.PagedTables
import Hakutaku.Proofs.SignatureCommits

/-!
# The snapshot of a release

What `write_snapshot` puts together (`SnapshotOf`): a catalog over the tables of the build, sealed behind a signed header,
and the pages of the references. The catalog satisfies every rule of its parser (`SnapshotOf.valid`), so that opening the
snapshot gives it back (`SnapshotOf.opened`).
-/

namespace Hakutaku
open Wire Act BuildContext

/-- The catalog of a release over its path index. -/
def StagedRelease.catalog (release : StagedRelease) (s : BuildContext) (pathSlots : List PathSlot) : CatalogData where
  segments := release.segments
  files := s.fileRecords
  pathSlots
  pathPool := s.pathPool
  pages := release.pages.directory
  totalBlocks := UInt32.ofNat release.blockRefs.length
  mapPageCount := release.pages.mapCount
  reusePageCount := release.pages.reuseCount

theorem StagedRelease.catalog_lists {release : StagedRelease} (hblocks : release.blockRefs.length < u32Size)
    (s : BuildContext) (pathSlots : List PathSlot) :
    (release.catalog s pathSlots).Lists release.blockRefs.length release.pages :=
  ⟨rfl, UInt32.toNat_ofNat_of_lt' hblocks, rfl, rfl⟩

/-- What goes into a snapshot besides its pages. -/
structure SnapshotParts where
  header : SnapshotHeader
  pathSlots : List PathSlot
  packed : Bytes
  ciphertext : Bytes

section
variable [Crypto] [Target]

/-- What the pages of a snapshot are sealed with. -/
def SnapshotParts.sealer (x : SnapshotParts) (job : Job) (releaseSequence : UInt64) : PageSealer :=
  ⟨job.identity.projectId, releaseSequence, x.header.noncePrefix, job.keys.snapshotKey x.header.snapshotSalt,
    job.options.compressionLevel⟩

/-- The parts of the snapshot of a release. -/
structure SnapshotOf (job : Job) (releaseSequence : UInt64) (sourceFingerprint : ByteArr 32) (s : BuildContext)
    (release : StagedRelease) (x : SnapshotParts) : Prop where
  slots : buildPathSlots s.filePaths s.fileRecords job.keys.pathKey = .ok x.pathSlots
  encodable : (release.catalog s x.pathSlots).Encodable
  pages : ∃ maps reuses, release.pages.Tables (x.sealer job releaseSequence) release.blockRefs s.chunkIds maps reuses
  projectId : x.header.projectId = job.identity.projectId
  sequence : x.header.releaseSequence = releaseSequence
  fingerprint : x.header.sourceFingerprint = sourceFingerprint
  storedLen : x.header.catalogStoredLen.toNat = x.ciphertext.length
  plainLen : x.header.catalogPlainLen.toNat = (release.catalog s x.pathSlots).wire.length
  pageOffset : x.header.pageRegionOffset.toNat = snapshotHeaderSize + x.ciphertext.length
  pageCount : x.header.pageCount.toNat = release.pages.mapCount.toNat + release.pages.reuseCount.toNat
  keyId : x.header.signingKeyId = signingKeyId (Crypto.publicKey job.identity.signingKey)
  packed : Crypto.compress job.options.compressionLevel (release.catalog s x.pathSlots).wire = some x.packed
  sealed : Crypto.aeadSeal (job.keys.snapshotKey x.header.snapshotSalt) (nonce x.header.noncePrefix 0)
    (catalogAad x.header) x.packed = some x.ciphertext
  signature : x.header.signature =
    Crypto.sign job.identity.signingKey (snapshotSignatureMessage (x.header.encode true) x.ciphertext)
  snapshot : release.snapshot = x.header.encode false ++ x.ciphertext ++ release.pages.ciphertexts.flatten

variable {job : Job} {releaseSequence : UInt64} {sourceFingerprint : ByteArr 32} {s t : BuildContext}
  {release : StagedRelease} {x : SnapshotParts}

omit [Crypto] [Target] in
/-- What is signed does not depend on the signature. -/
theorem encode_signature (h : SnapshotHeader) (signature : ByteArr 64) :
    ({ h with signature } : SnapshotHeader).encode true = h.encode true := by
  simp only [SnapshotHeader.encode_eq, if_true]

omit [Crypto] [Target] in
theorem catalogAad_signature (h : SnapshotHeader) (signature : ByteArr 64) :
    catalogAad ({ h with signature } : SnapshotHeader) = catalogAad h := rfl

theorem writeSnapshot_parts (haead : AeadLaw) (hz : ZstdLaw) (job : Job) (releaseSequence : UInt64)
    (sourceFingerprint : ByteArr 32) (s : BuildContext) :
    ensures (writeSnapshot job releaseSequence sourceFingerprint)
      (fun release _ => ∃ x, SnapshotOf job releaseSequence sourceFingerprint s release x) s := by
  unfold writeSnapshot
  refine wp_bind.2 (wp_get.2 ?_)
  extract_lets segments keys jp
  split
  · trivial
  refine wp_bind.2 ((wp_lift _).2 ⟨fun blockRefs _ => ?_, fun _ _ => trivial⟩)
  refine wp_bind.2 ((wp_lift _).2 ⟨fun storage _ => ?_, fun _ _ => trivial⟩)
  refine wp_bind.2 ((wp_lift _).2 ⟨fun _ hpairs => ?_, fun _ _ => trivial⟩)
  have hpairs : s.chunkIds.length = blockRefs.length := (validatePairCount_eq_ok.1 hpairs).symm
  refine wp_bind.2 (ensures_of_runOn fun _ _ _ => ?_)
  refine wp_bind.2 ((wp_lift _).2 ⟨fun pathSlots hslots => ?_, fun _ _ => trivial⟩)
  refine wp_bind.2 (ensures_of_runOn fun salt _ _ => ?_)
  refine wp_bind.2 (ensures_of_runOn fun noncePrefix _ _ => ?_)
  refine wp_bind.2 (ensures_of_runOn fun _ s₄ _ => ?_)
  extract_lets snapshotKey
  refine wp_bind.2 (ensures_of_runOn fun pages _ hpages => ?_)
  refine wp_bind.2 ((wp_lift _).2 ⟨fun totalBlocks htotal => ?_, fun _ _ => trivial⟩)
  refine wp_bind.2 ((wp_lift _).2 ⟨fun catalog hcatalog => ?_, fun _ _ => trivial⟩)
  refine wp_bind.2 ((wp_lift _).2 ⟨fun packed hpacked => ?_, fun _ _ => trivial⟩)
  refine wp_bind.2 ((wp_lift _).2 ⟨fun catalogStoredLen hstored => ?_, fun _ _ => trivial⟩)
  refine wp_bind.2 ((wp_lift _).2 ⟨fun pageRegionOffset hoffset => ?_, fun _ _ => trivial⟩)
  refine wp_bind.2 ((wp_lift _).2 ⟨fun pageCount hcount => ?_, fun _ _ => trivial⟩)
  obtain ⟨htotal', rfl⟩ := tryU32_eq_ok.1 htotal
  obtain ⟨hcount', rfl⟩ := tryU32_eq_ok.1 hcount
  obtain ⟨hoffset', rfl⟩ := tryU64_eq_ok.1 hoffset
  have hencoded := CatalogData.encode_eq_ok.1 (coreResult_eq_ok.1 hcatalog)
  extract_lets header
  refine wp_bind.2 ((sealBytes_wp _ _ _ _ _).mono (fun ciphertext _ hsealed => ?_) fun _ _ _ => trivial)
  extract_lets message signed jp'
  split
  · trivial
  rename_i hlen
  have hlen := not_not.1 hlen
  refine wp_bind.2 (ensures_of_runOn fun _ _ _ => wp_bind.2 (ensures_of_runOn fun _ _ _ => ?_))
  refine wp_bind.2 (ensures_of_runOn fun _ _ _ => wp_bind.2 (ensures_of_runOn fun _ _ _ => ?_))
  refine wp_bind.2 (ensures_of_runOn fun _ _ _ => wp_bind.2 (ensures_of_runOn fun _ _ _ => ?_))
  refine wp_bind.2 ((wp_lift _).2 ⟨fun fileCount _ => ?_, fun _ _ => trivial⟩)
  refine wp_bind.2 ((wp_lift _).2 ⟨fun newSegments _ => ?_, fun _ _ => trivial⟩)
  have hencodable := hencoded.1
  have hwire := hencoded.2
  have hpacked := okOr_eq_ok.1 hpacked
  rw [hwire] at hpacked
  have hmax := hencodable.totalBlocks
  have hblocks : (UInt32.ofNat blockRefs.length).toNat = blockRefs.length := UInt32.toNat_ofNat_of_lt' htotal'
  rw [hblocks] at hmax
  have hwireLen := hencodable.encodedLen
  rw [← CatalogData.length_wire, ← hwire] at hwireLen
  have hplain : (UInt64.ofNat catalog.length).toNat = catalog.length :=
    UInt64.toNat_ofNat_of_lt' (hwireLen.trans_lt (by decide))
  refine ⟨⟨signed, pathSlots, packed, ciphertext⟩, hslots, hencodable, ?_, rfl, rfl, rfl, hlen.symm, ?_, ?_, ?_, rfl,
    hpacked, ?_, ?_, rfl⟩
  · exact (buildPages_spec haead hz _ hpairs hmax _).ok hpages
  · exact hplain.trans (congrArg List.length hwire)
  · show (UInt64.ofNat _).toNat = _
    rw [hlen]
    exact UInt64.toNat_ofNat_of_lt' hoffset'
  · exact UInt32.toNat_ofNat_of_lt' hcount'
  · exact (catalogAad_signature header signed.signature).symm ▸ hsealed
  · exact congrArg (fun bytes => Crypto.sign _ (snapshotSignatureMessage bytes _)) (encode_signature header signed.signature).symm

/-! ### Opening it -/

/-- `compress` never writes more than zstd's bound for the length. -/
structure ZstdBound : Prop where
  length_compress : ∀ {level plain packed}, Crypto.compress level plain = some packed →
    packed.length ≤ plain.length + plain.length / 256 + 64

/-- The policy accepts releases of the sequence. -/
def OpenPolicy.Accepts (policy : OpenPolicy) (releaseSequence : UInt64) : Prop :=
  match policy with
  | .trustFirstRelease => True
  | .requireAtLeast minimum => minimum ≤ releaseSequence

/-- The package a snapshot opens to. -/
def SnapshotParts.package (x : SnapshotParts) (job : Job) (s : BuildContext) (release : StagedRelease) (source : SegmentSource)
    (budget : ResourceBudget) : PackageInner where
  snapshot := release.snapshot
  source
  header := x.header
  catalog := (release.catalog s x.pathSlots).view
  keys := job.keys
  snapshotKey := job.keys.snapshotKey x.header.snapshotSalt
  pathKey := job.keys.pathKey
  budget

theorem authenticate_of_steps {header : SnapshotHeader} {ciphertext compressed bytes : Bytes}
    {rootKey verifyingKey : ByteArr 32} {policy : OpenPolicy} {catalog : Catalog}
    (hverified : verifySnapshotSignature header ciphertext verifyingKey = .ok ())
    (hpolicy : policy.Accepts header.releaseSequence)
    (hcompressed : openAead ((ProjectKeys.new rootKey header.projectId).snapshotKey header.snapshotSalt)
      (nonce header.noncePrefix 0) (catalogAad header) ciphertext "snapshot catalog" = .ok compressed)
    (hbytes : decompressZstdExact compressed header.catalogPlainLen.toNat = .ok bytes)
    (hparse : Catalog.parse bytes = .ok catalog)
    (hcounts : validatePageCounts catalog.mapPageCount.toNat catalog.reusePageCount.toNat header.pageCount.toNat = .ok ()) :
    authenticate header ciphertext rootKey verifyingKey policy = .ok catalog := by
  unfold authenticate
  rw [hverified, ok_bind]
  cases policy with
  | trustFirstRelease =>
    dsimp only
    rw [hcompressed, ok_bind, hbytes, ok_bind, hparse, ok_bind, hcounts]
    rfl
  | requireAtLeast minimum =>
    dsimp only
    rw [if_neg (UInt64.not_lt.2 hpolicy), hcompressed, ok_bind, hbytes, ok_bind, hparse, ok_bind, hcounts]
    rfl

namespace SnapshotOf
variable (hx : SnapshotOf job releaseSequence sourceFingerprint s release x)
include hx

theorem blocks_le (hblocks : release.blockRefs.length < u32Size) : release.blockRefs.length ≤ maxBlocks := by
  have hmax := hx.encodable.totalBlocks
  rwa [(StagedRelease.catalog_lists hblocks s x.pathSlots).totalBlocks] at hmax

theorem length_snapshot : release.snapshot.length =
    snapshotHeaderSize + x.ciphertext.length + release.pages.ciphertexts.flatten.length := by
  rw [hx.snapshot, List.length_append, List.length_append, SnapshotHeader.length_encode]

/-- A catalog is stored in a little more than 64 MiB at most. -/
theorem stored_le (haead : AeadLaw) (hbound : ZstdBound) :
    16 ≤ x.ciphertext.length ∧ x.ciphertext.length ≤ maxCatalogStoredLen := by
  have hlen := haead.length_aeadSeal hx.sealed
  have hpacked := hbound.length_compress hx.packed
  have hwire := hx.encodable.encodedLen
  rw [← CatalogData.length_wire] at hwire
  generalize (release.catalog s x.pathSlots).wire.length = n at hpacked hwire
  have hplain : maxCatalogPlainLen = 67108864 := rfl
  have hstored : maxCatalogStoredLen = 68157456 := rfl
  omega

theorem valid_header (haead : AeadLaw) (hbound : ZstdBound) : x.header.Valid := by
  have hwire := hx.encodable.encodedLen
  have hpages := hx.encodable.pages
  have hkinds := hx.encodable.kinds
  refine ⟨hx.storedLen ▸ hx.stored_le haead hbound, ⟨?_, ?_⟩, ?_, ?_⟩
  · rw [hx.plainLen, CatalogData.length_wire]
    simp only [CatalogData.encodedLen, catalogHeaderSize]
    omega
  · rw [hx.plainLen, CatalogData.length_wire]
    exact hwire
  · rw [hx.pageOffset, hx.storedLen]
  · rw [hx.pageCount]
    exact hkinds.trans_le hpages

/-- The seal and the packing of the catalog undone. -/
theorem openCatalog_steps (haead : AeadLaw) (hz : ZstdLaw) :
    openAead ((ProjectKeys.new job.identity.rootKey x.header.projectId).snapshotKey x.header.snapshotSalt)
        (nonce x.header.noncePrefix 0) (catalogAad x.header) x.ciphertext "snapshot catalog" = .ok x.packed ∧
      decompressZstdExact x.packed x.header.catalogPlainLen.toNat = .ok (release.catalog s x.pathSlots).wire := by
  have hopen := haead.aeadOpen_aeadSeal hx.sealed
  have hplain := hz.decompress_compress hx.packed hx.plainLen.ge
  have hlen := hx.plainLen
  generalize (release.catalog s x.pathSlots).wire = bytes at hplain hlen
  constructor
  · rw [hx.projectId]
    exact okOr_eq_ok.2 hopen
  · unfold decompressZstdExact
    rw [hplain]
    simp [okOr, hlen]

theorem verified (hsign : SignatureLaw) :
    verifySnapshotSignature x.header x.ciphertext (Crypto.publicKey job.identity.signingKey) = .ok () := by
  unfold verifySnapshotSignature
  simp [hx.keyId, hx.signature, hsign.verify_sign]

theorem pageCounts : validatePageCounts (release.catalog s x.pathSlots).view.mapPageCount.toNat
    (release.catalog s x.pathSlots).view.reusePageCount.toNat x.header.pageCount.toNat = .ok () := by
  have hcount : x.header.pageCount.toNat < u32Size := x.header.pageCount.toNat_lt
  rw [hx.pageCount] at hcount ⊢
  exact if_pos (checkedAdd_eq_some.2 ⟨hcount, rfl⟩)

variable {maps reuses : List SealedPage}

omit hx in
/-- The last page of the directory ends with the region. -/
theorem pageRegionBytes_eq (hencodable : (release.catalog s x.pathSlots).Encodable)
    (hvalid : (release.catalog s x.pathSlots).Valid) {w : PageSealer} {chunkIds : List (ByteArr 32)}
    (hlen : chunkIds.length = release.blockRefs.length) (hmax : release.blockRefs.length ≤ maxBlocks)
    (h : release.pages.Tables w release.blockRefs chunkIds maps reuses) {pageCount : Nat}
    (hcount : pageCount = release.pages.mapCount.toNat + release.pages.reuseCount.toNat) :
    pageRegionBytes (release.catalog s x.pathSlots).view pageCount = .ok release.pages.ciphertexts.flatten.length := by
  have hpages : pageCount = (maps ++ reuses).length := by rw [hcount, h.mapCount, h.reuseCount, List.length_append]
  have hall := SealedPage.start_eq_length (maps ++ reuses) (maps ++ reuses).length
  rw [List.take_length, ← h.ciphertexts] at hall
  unfold pageRegionBytes
  split
  · rename_i hzero
    rw [← hall, ← hpages, hzero]
    rfl
  · obtain ⟨page, hpage⟩ : ∃ page, (maps ++ reuses)[pageCount - 1]? = some page :=
      ⟨_, List.getElem?_eq_getElem (by omega)⟩
    have hr : (release.catalog s x.pathSlots).pages[pageCount - 1]? = some page.record := by
      show release.pages.directory[_]? = _
      rw [h.directory, List.getElem?_map, hpage]
      rfl
    have hview := (CatalogData.page_view hencodable).2 ⟨hr, (hvalid.pages _ _ hr).1⟩
    have hok := h.each _ _ hpage
    have hstop := SealedPage.start_succ hpage
    rw [Nat.sub_add_cancel (by omega), hpages, hall] at hstop
    rw [hview]
    show checkedPageRegionLen _ _ = _
    unfold checkedPageRegionLen
    rw [okOr_eq_ok, checkedAdd_eq_some, hok.offset]
    refine ⟨h.stop_lt hlen hmax hpage, ?_⟩
    rw [hok.storedLen, hpages, hstop]

theorem length_snapshot_lt (haead : AeadLaw) (hbound : ZstdBound) (hlen : s.chunkIds.length = release.blockRefs.length)
    (hblocks : release.blockRefs.length < u32Size) : release.snapshot.length < u64Size := by
  obtain ⟨maps, reuses, htables⟩ := hx.pages
  have hstored := (hx.stored_le haead hbound).2
  have hcount := htables.length_le hlen (hx.blocks_le hblocks)
  have hstart := PageRegion.Sealed.start_le htables.each le_rfl
  have hmul : (maps ++ reuses).length * u32Size ≤ 100000 * 2 ^ 32 := Nat.mul_le_mul hcount le_rfl
  have hall := SealedPage.start_eq_length (maps ++ reuses) (maps ++ reuses).length
  have hmaximum : maxCatalogStoredLen = 68157456 := rfl
  have hheader : snapshotHeaderSize = 256 := rfl
  rw [List.take_length, ← htables.ciphertexts] at hall
  rw [hx.length_snapshot, ← hall]
  show _ < 2 ^ 64
  omega

/-- The header and the ciphertext of the catalog are read back. -/
theorem read_steps (haead : AeadLaw) (hbound : ZstdBound) :
    readExact release.snapshot 0 snapshotHeaderSize = .ok (x.header.encode false) ∧
      SnapshotHeader.parse (x.header.encode false) = .ok x.header ∧ ¬ usizeSize ≤ x.header.catalogStoredLen.toNat ∧
      readExact release.snapshot snapshotHeaderSize x.header.catalogStoredLen.toNat = .ok x.ciphertext := by
  have hu := le_usizeSize
  have hstored := hx.stored_le haead hbound
  have hmaximum : maxCatalogStoredLen = 68157456 := rfl
  have htotal := hx.length_snapshot
  have hheader : (x.header.encode false).length = snapshotHeaderSize := SnapshotHeader.length_encode _ _
  refine ⟨?_, ?_, ?_, ?_⟩
  · refine readExact_eq_ok.2 ⟨.inr (by omega), ?_⟩
    rw [hx.snapshot, List.append_assoc, slice_append_left (by omega), ← hheader, slice_full]
  · exact SnapshotHeader.parse_eq_ok.2 ⟨hheader.ge, by rw [← hheader, slice_full], hx.valid_header haead hbound⟩
  · rw [hx.storedLen]
    omega
  · refine readExact_eq_ok.2 ⟨.inr (by rw [hx.storedLen]; omega), ?_⟩
    rw [hx.snapshot, hx.storedLen, ← hheader, slice_append_mid]

/-- A snapshot that was just written opens, and the package has its catalog. -/
theorem opened (haead : AeadLaw) (hz : ZstdLaw) (hbound : ZstdBound) (hsign : SignatureLaw)
    (hvalid : (release.catalog s x.pathSlots).Valid) (hlen : s.chunkIds.length = release.blockRefs.length)
    (hblocks : release.blockRefs.length < u32Size) {policy : OpenPolicy} (hpolicy : policy.Accepts releaseSequence)
    (source : SegmentSource) (budget : ResourceBudget) :
    PackageInner.open ideal release.snapshot source job.identity.rootKey (Crypto.publicKey job.identity.signingKey) budget
      policy = .ok (x.package job s release source budget) := by
  obtain ⟨maps, reuses, htables⟩ := hx.pages
  obtain ⟨hread, hparse, hfits, hciphertext⟩ := hx.read_steps haead hbound
  obtain ⟨hcompressed, hbytes⟩ := hx.openCatalog_steps haead hz
  have htotal := hx.length_snapshot
  have hcatalog := authenticate_of_steps (hx.verified hsign) (hx.sequence ▸ hpolicy) hcompressed hbytes
    (CatalogData.parse_wire hx.encodable hvalid) hx.pageCounts
  have hpages := pageRegionBytes_eq hx.encodable hvalid hlen (hx.blocks_le hblocks) htables hx.pageCount
  have hend : validateSnapshotLen release.snapshot.length x.header.pageRegionOffset.toNat
      release.pages.ciphertexts.flatten.length = .ok () := by
    have hlt := hx.length_snapshot_lt haead hbound hlen hblocks
    have hsum : checkedAdd u64Size (snapshotHeaderSize + x.ciphertext.length) release.pages.ciphertexts.flatten.length =
        some release.snapshot.length := checkedAdd_eq_some.2 ⟨htotal ▸ hlt, htotal⟩
    unfold validateSnapshotLen
    rw [hx.pageOffset, hsum, okOr, ok_bind, if_pos rfl]
  refine (open_of_steps _ _ _ _ _ hread hparse hfits hciphertext hcatalog hpages hend).trans ?_
  rw [hx.projectId]
  rfl

/-- A reader that requires a later release does not open it. -/
theorem open_rollback (haead : AeadLaw) (hbound : ZstdBound) (hsign : SignatureLaw) {minimum : UInt64}
    (hlt : releaseSequence < minimum) (source : SegmentSource) (budget : ResourceBudget) :
    PackageInner.open ideal release.snapshot source job.identity.rootKey (Crypto.publicKey job.identity.signingKey) budget
      (.requireAtLeast minimum) = fail (.releaseRollback minimum releaseSequence) := by
  obtain ⟨hread, hparse, hfits, hciphertext⟩ := hx.read_steps haead hbound
  have hcatalog : authenticate x.header x.ciphertext job.identity.rootKey (Crypto.publicKey job.identity.signingKey)
      (.requireAtLeast minimum) = fail (.releaseRollback minimum releaseSequence) := by
    unfold authenticate
    rw [hx.verified hsign, ok_bind, hx.sequence]
    simp only [if_pos hlt]
    rfl
  unfold PackageInner.open
  have hread : ideal.readExactAt release.snapshot 0 snapshotHeaderSize = .ok (x.header.encode false) := hread
  have hciphertext : ideal.readExactAt release.snapshot snapshotHeaderSize x.header.catalogStoredLen.toNat =
      .ok x.ciphertext := hciphertext
  simp only [Catalog.liftM_result, hread, ok_bind, hparse, if_neg hfits, pure_eq_ok, hciphertext, hcatalog]
  rfl

/-- The page region of the package. -/
theorem serves (haead : AeadLaw) (hbound : ZstdBound) (hvalid : (release.catalog s x.pathSlots).Valid)
    (hlen : s.chunkIds.length = release.blockRefs.length) (hblocks : release.blockRefs.length < u32Size)
    (source : SegmentSource) (budget : ResourceBudget) :
    (x.package job s release source budget).Serves (x.sealer job releaseSequence) (release.catalog s x.pathSlots)
      release.pages where
  encodable := hx.encodable
  catalog := CatalogData.parse_wire hx.encodable hvalid
  projectId := hx.projectId
  releaseSequence := hx.sequence
  noncePrefix := rfl
  snapshotKey := rfl
  region := by
    have hheader : (x.header.encode false).length = snapshotHeaderSize := SnapshotHeader.length_encode _ _
    show release.snapshot.drop x.header.pageRegionOffset.toNat = _
    rw [hx.snapshot, hx.pageOffset, List.drop_left' (by rw [List.length_append, hheader])]
  len := hx.length_snapshot_lt haead hbound hlen hblocks

end SnapshotOf

/-! ### The rules of the catalog -/

variable [FastCdc] {identity : Identity} {drawn : List (ByteArr 16 × ByteArr 16)} {records : List SegmentRecord}
  {active : Option OldRelease} {made ls : List SegmentLayout} {classes : List SegmentClass}
  {files : List (SourceFile × Option CachedEntry)} {world : World} {reuse : ReuseIndex}

namespace StagedFrom
variable (hfrom : StagedFrom job active files world release t reuse releaseSequence s ls classes)
include hfrom

theorem parts (haead : AeadLaw) (hz : ZstdLaw) :
    ∃ x, SnapshotOf job releaseSequence (Crypto.hash s.fingerprint) s release x :=
  (writeSnapshot_parts haead hz job releaseSequence _ s).ok hfrom.wrote

theorem length_blockRefs : s.pendingBlocks.length = release.blockRefs.length := hfrom.resolved.length_eq

theorem pairs : s.chunkIds.length = release.blockRefs.length := hfrom.staged.pairs.symm

/-- The path index of a release: every path has its slot. -/
theorem indexed (hx : SnapshotOf job releaseSequence sourceFingerprint s release x) :
    ∃ k, k ≤ 32 ∧ s.filePaths.length < 2 ^ k ∧ Indexed job.keys.pathKey s.filePaths k s.filePaths.length x.pathSlots ∧
      s.filePaths.length = s.fileRecords.length := by
  have hlen : s.filePaths.length = s.fileRecords.length := by
    rw [hfrom.paths, List.length_map]
    exact hfrom.classed.length_eq
  have hmax : s.filePaths.length ≤ maxFiles := hlen.trans_le hx.encodable.files
  obtain ⟨k, slots, hslots, hk, hload, hindexed⟩ := buildPathSlots_spec s.filePaths s.fileRecords job.keys.pathKey hlen hmax
  obtain rfl := Except.ok.inj (hslots.symm.trans hx.slots)
  exact ⟨k, hk, hload, hindexed, hlen⟩

/-- The record of a source passes the checks of the parser. -/
theorem file_rules (hcanonical : ∀ file ∈ files, Canonical file.1.logicalPath) :
    ∀ r ∈ s.fileRecords, r.Valid ∧ r.pathLen.toNat ≠ 0 ∧ r.pathOffset.toNat + r.pathLen.toNat ≤ s.pathPool.length ∧
      r.firstBlock.toNat + r.blockCount.toNat ≤ release.blockRefs.length ∧
      ∃ p, slice s.pathPool r.pathOffset.toNat r.pathLen.toNat = strBytes p ∧ Canonical p := by
  intro r hr
  obtain ⟨file, hfile, hclassed⟩ := forall₂_mem_right hfrom.classed hr
  have hpath := hcanonical file hfile
  refine ⟨?_, fun hzero => ?_, hclassed.pathEnd, hfrom.length_blockRefs ▸ hclassed.stop, _, hclassed.path, hpath⟩
  · unfold FileRecord.Valid
    rw [hclassed.layout, hclassed.blockLen]
    rcases classify_fixedBlockLen file.1 with ⟨hlayout, hpos⟩ | ⟨hlayout, hzero⟩
    · rw [hlayout]
      exact ⟨fun h => hpos.ne' h.2.2, fun h => absurd h.1 (by decide)⟩
    · rw [hlayout, hzero]
      exact ⟨fun h => absurd h.1 (by decide), fun h => h.2 rfl⟩
  · have hempty := hclassed.path
    rw [hzero, slice_zero_len] at hempty
    rw [strBytes_eq_nil.1 hempty.symm] at hpath
    exact absurd hpath (by decide)

variable (h : Sourced identity world.drawn records active made) (hjob : job.identity = identity)
  (hdrawn : t.world.drawn.Nodup) (hids : IdsDiffer (records ++ t.newSegmentRecords.reduceOption))
include h hjob hdrawn hids

/-- The segments of the release are finished segments of its history. -/
theorem layouts : ∃ layouts, layouts ⊆ made ++ ls ∧ release.segments = layouts.map (fun l => l.writer.record) ∧
    ∀ l ∈ layouts, l.Genuine identity := by
  have hlineage := hfrom.lineage h hjob hdrawn hids
  obtain ⟨-, layouts, hsub, hbacked⟩ := hlineage.active _ rfl
  exact ⟨layouts, hsub, hbacked.records, fun l hl => hlineage.genuine l (hsub hl)⟩

theorem tableRules (hx : SnapshotOf job releaseSequence sourceFingerprint s release x)
    (hcanonical : ∀ file ∈ files, Canonical file.1.logicalPath) : (release.catalog s x.pathSlots).TableRules where
  segments r hr := by
    obtain ⟨layouts, -, hlayouts, hgenuine⟩ := hfrom.layouts h hjob hdrawn hids
    have hr : r ∈ release.segments := hr
    rw [hlayouts] at hr
    obtain ⟨l, hl, rfl⟩ := List.mem_map.1 hr
    exact UInt64.toNat_ofNat_of_lt' (hgenuine l hl).fits
  files r hr := by
    obtain ⟨hvalid, hlen, hrange, hblocks, hpath⟩ := hfrom.file_rules hcanonical r hr
    have htotal := (StagedRelease.catalog_lists hfrom.staged.blocks s x.pathSlots).totalBlocks
    exact ⟨hvalid, hlen, hrange, htotal.ge.trans' hblocks, hpath⟩
  slots r hr hne := by
    obtain ⟨k, -, -, hindexed, hlen⟩ := hfrom.indexed hx
    obtain ⟨i, hi⟩ := List.mem_iff_getElem?.1 hr
    have hslot := (List.getElem?_eq_some_iff.1 hi).1
    rw [← show s.filePaths.length = (release.catalog s x.pathSlots).files.length from hlen]
    exact hindexed.holds.lt i (hindexed.length ▸ hslot) _ (pathTable_eq_some.2 ⟨r, hi, hne, rfl⟩)

/-- The catalog of a release is one its parser accepts. -/
theorem valid (hx : SnapshotOf job releaseSequence sourceFingerprint s release x)
    (hcanonical : ∀ file ∈ files, Canonical file.1.logicalPath) : (release.catalog s x.pathSlots).Valid := by
  obtain ⟨maps, reuses, htables⟩ := hx.pages
  have hblocks := hfrom.staged.blocks
  have hpages := htables.pageRules (StagedRelease.catalog_lists hblocks s x.pathSlots) hfrom.pairs (hx.blocks_le hblocks)
  exact hx.encodable.valid_iff.2 ⟨hpages, hfrom.tableRules h hjob hdrawn hids hx hcanonical⟩

end StagedFrom

end

end Hakutaku
