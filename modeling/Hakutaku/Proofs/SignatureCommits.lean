import Hakutaku.TwoReaders

/-!
# What the publisher's signature commits

Two storages that open under the same signed message give the same release: the same identity,
sequence, assets and segments, and the same bytes wherever a read succeeds in both.
-/

namespace Hakutaku
open Wire

/-- The signed part of a snapshot: the header with a zeroed signature, and the catalog ciphertext. -/
def signedBytes (header : SnapshotHeader) (snapshot : Bytes) : Bytes :=
  header.encode true ++ slice snapshot snapshotHeaderSize header.catalogStoredLen.toNat

section
variable [Crypto] [Target]

/-- The catalog an accepted snapshot decrypts to. -/
def openCatalog (header : SnapshotHeader) (ciphertext : Bytes) (rootKey : ByteArr 32) : Result Catalog := do
  let compressed ← openAead ((ProjectKeys.new rootKey header.projectId).snapshotKey header.snapshotSalt)
    (nonce header.noncePrefix 0) (catalogAad header) ciphertext "snapshot catalog"
  Catalog.parse (← decompressZstdExact compressed header.catalogPlainLen.toNat)

theorem openCatalog_of_authenticate {header : SnapshotHeader} {ciphertext : Bytes} {rootKey verifyingKey : ByteArr 32}
    {policy : OpenPolicy} {catalog : Catalog}
    (h : authenticate header ciphertext rootKey verifyingKey policy = .ok catalog) :
    openCatalog header ciphertext rootKey = .ok catalog := by
  have hopen : ∀ {f : Catalog → Result Catalog}, (∀ c c', f c = .ok c' → c = c') →
      ((do
        let compressed ← openAead ((ProjectKeys.new rootKey header.projectId).snapshotKey header.snapshotSalt)
          (nonce header.noncePrefix 0) (catalogAad header) ciphertext "snapshot catalog"
        let bytes ← decompressZstdExact compressed header.catalogPlainLen.toNat
        let catalog ← Catalog.parse bytes
        f catalog) = .ok catalog) → openCatalog header ciphertext rootKey = .ok catalog := by
    intro f hf h
    simp only [bind_eq_ok] at h
    obtain ⟨compressed, hopen, bytes, hplain, c, hparse, hlast⟩ := h
    obtain rfl := hf c catalog hlast
    rw [openCatalog, hopen, ok_bind, hplain, ok_bind, hparse]
  have hcounts : ∀ c c' : Catalog, (do
      validatePageCounts c.mapPageCount.toNat c.reusePageCount.toNat header.pageCount.toNat
      return c : Result Catalog) = .ok c' → c = c' := by
    intro c c' h
    obtain ⟨_, -, h⟩ := bind_eq_ok.1 h
    exact Except.ok.inj h
  unfold authenticate at h
  cases policy with
  | trustFirstRelease =>
    obtain ⟨_, -, h⟩ := bind_eq_ok.1 h
    exact hopen hcounts h
  | requireAtLeast minimum =>
    obtain ⟨_, -, h⟩ := bind_eq_ok.1 h
    simp only [fail_bind, ite_fail_eq_ok] at h
    exact hopen hcounts h.2

theorem open_eq_ok {snapshot : Bytes} {source : SegmentSource} {rootKey verifyingKey : ByteArr 32}
    {budget : ResourceBudget} {policy : OpenPolicy} {P : PackageInner}
    (h : PackageInner.open ideal snapshot source rootKey verifyingKey budget policy = .ok P) :
    P.snapshot = snapshot ∧ P.keys = ProjectKeys.new rootKey P.header.projectId ∧
      P.snapshotKey = P.keys.snapshotKey P.header.snapshotSalt ∧ P.pathKey = P.keys.pathKey ∧
      openCatalog P.header (slice snapshot snapshotHeaderSize P.header.catalogStoredLen.toNat) rootKey =
        .ok P.catalog := by
  unfold PackageInner.open at h
  simp only [Catalog.liftM_result, fail_bind, bind_eq_ok, ite_fail_eq_ok, pure_eq_ok, Except.ok.injEq] at h
  obtain ⟨_, -, header, -, -, ciphertext, hread, catalog, hcatalog, _, -, _, -, _, -, rfl⟩ := h
  obtain ⟨-, rfl⟩ := readExact_eq_ok.1 hread
  exact ⟨rfl, rfl, rfl, rfl, openCatalog_of_authenticate hcatalog⟩

/-- Packages opened under the same signed bytes and keys differ in nothing the reader trusts. -/
theorem sameSigned_of_open {snapshot snapshot' : Bytes} {source source' : SegmentSource} {rootKey verifyingKey : ByteArr 32}
    {budget budget' : ResourceBudget} {policy policy' : OpenPolicy} {P P' : PackageInner}
    (h : PackageInner.open ideal snapshot source rootKey verifyingKey budget policy = .ok P)
    (h' : PackageInner.open ideal snapshot' source' rootKey verifyingKey budget' policy' = .ok P')
    (hsigned : signedBytes P.header snapshot = signedBytes P'.header snapshot') : P.SameSigned P' := by
  obtain ⟨-, hkeys, hsnapshotKey, hpathKey, hcatalog⟩ := open_eq_ok h
  obtain ⟨-, hkeys', hsnapshotKey', hpathKey', hcatalog'⟩ := open_eq_ok h'
  have hlen : (P.header.encode true).length = (P'.header.encode true).length := by
    rw [SnapshotHeader.length_encode, SnapshotHeader.length_encode]
  obtain ⟨hheader, hciphertext⟩ := List.append_inj hsigned hlen
  have hheader := SnapshotHeader.encode_true_inj hheader.symm
  have hkeysEq : P'.keys = P.keys := by rw [hkeys, hkeys', ← hheader]
  have hopen : openCatalog P'.header (slice snapshot' snapshotHeaderSize P'.header.catalogStoredLen.toNat) rootKey =
      openCatalog P.header (slice snapshot snapshotHeaderSize P.header.catalogStoredLen.toNat) rootKey := by
    rw [hciphertext, ← hheader]
    rfl
  refine ⟨hheader, ?_, hkeysEq, ?_, by rw [hpathKey, hpathKey', hkeysEq]⟩
  · exact Except.ok.inj (hcatalog'.symm.trans (hopen.trans hcatalog))
  · rw [hsnapshotKey, hsnapshotKey', hkeysEq, ← hheader]

end

/-- The same call on two packages: the same asset, place and destination, and for a session or a cursor the
same blocks in the window. -/
def Call.Same [Crypto] [Target] {P P' : PackageInner} : Call P → Call P' → Prop
  | .read asset, .read asset' => asset'.fileIndex = asset.fileIndex
  | .readAt asset offset destination, .readAt asset' offset' destination' =>
    asset'.fileIndex = asset.fileIndex ∧ offset' = offset ∧ destination' = destination
  | .sessionReadAt session offset destination, .sessionReadAt session' offset' destination' =>
    session'.asset.fileIndex = session.asset.fileIndex ∧ offset' = offset ∧ destination' = destination ∧
      session'.state.view.current = session.state.view.current ∧
      session'.state.view.previous = session.state.view.previous
  | .cursorRead cursor buffer, .cursorRead cursor' buffer' =>
    cursor'.asset.fileIndex = cursor.asset.fileIndex ∧ cursor'.position = cursor.position ∧ buffer' = buffer ∧
      cursor'.state.view.current = cursor.state.view.current ∧
      cursor'.state.view.previous = cursor.state.view.previous
  | _, _ => False

/-- The reply of a call that returned `Ok`. -/
def Reply.Succeeded : Reply → Prop
  | .bytes (.ok _) => True
  | .count (.ok _) _ => True
  | .unit (.ok _) => True
  | _ => False

section
variable [Crypto] [Target] {P P' : PackageInner}

/-- Which file a path names depends on the catalog and the path key only. -/
theorem asset_fileIndex (P : PackageInner) (path : String) :
    (P.asset path).map Asset.fileIndex = (P.catalog.findFile path P.pathKey >>= fun
      | none => fail .assetNotFound
      | some i => (P.catalog.file i).map fun _ => i) := by
  unfold PackageInner.asset
  cases P.catalog.findFile path P.pathKey with
  | error e => rfl
  | ok hit =>
    cases hit with
    | none => rfl
    | some i =>
      dsimp only [okOr, ok_bind]
      split
      · rename_i record hfile
        exact (congrArg (Except.map fun _ => i) hfile).symm
      · rename_i stop hfile
        exact (congrArg (Except.map fun _ => i) hfile).symm

omit [Crypto] in
theorem record_eq (h : P.SameSigned P') {asset : Asset P} {asset' : Asset P'}
    (hindex : asset'.fileIndex = asset.fileIndex) : asset'.record = asset.record := by
  have hfound := asset'.found
  rw [h.catalog, hindex] at hfound
  exact Except.ok.inj (hfound.symm.trans asset.found)

/-- Reads of the same asset, from the same window, that succeed in both packages end alike. -/
theorem reading_agree (h : P.SameSigned P') (hc : P.CollisionFree P') {asset : Asset P} {asset' : Asset P'}
    (hindex : asset'.fileIndex = asset.fileIndex) {offset : UInt64} {w v v' : Window} {n n' : Nat}
    (hread : asset.Reading offset w (.ok n) v) (hread' : asset'.Reading offset w (.ok n') v') : n = n' ∧ v = v' :=
  idealReadAt_agree h hc (record_eq h hindex) offset w n v n' v' (hread.ok n rfl) (hread'.ok n' rfl)

/-- The replies of such reads. -/
theorem count_agree (h : P.SameSigned P') (hc : P.CollisionFree P') {asset : Asset P} {asset' : Asset P'}
    (hindex : asset'.fileIndex = asset.fileIndex) {offset offset' : UInt64} {w w' : Window}
    {result result' : Result Nat} {destination destination' : Bytes} (hoffset : offset' = offset) (hw : w' = w)
    (hspec : ∃ v, asset.Reading offset w result v ∧ destination = v.destination)
    (hspec' : ∃ v, asset'.Reading offset' w' result' v ∧ destination' = v.destination)
    (hok : (Reply.count result destination).Succeeded) (hok' : (Reply.count result' destination').Succeeded) :
    Reply.count result destination = Reply.count result' destination' := by
  subst hoffset hw
  rcases result with _ | n
  · exact hok.elim
  rcases result' with _ | n'
  · exact hok'.elim
  obtain ⟨v, hread, rfl⟩ := hspec
  obtain ⟨v', hread', rfl⟩ := hspec'
  obtain ⟨rfl, rfl⟩ := reading_agree h hc hindex hread hread'
  rfl

/-- The same call, where it succeeds in both packages, has the same reply. -/
theorem reply_agree (h : P.SameSigned P') (hc : P.CollisionFree P') {c : Call P} {c' : Call P'} {reply reply' : Reply}
    (hsame : c.Same c') (hspec : c.Specified reply) (hspec' : c'.Specified reply') (hok : reply.Succeeded)
    (hok' : reply'.Succeeded) : reply = reply' := by
  cases c with
  | read asset =>
    cases c' with
    | read asset' =>
      rcases reply with (_ | bytes) | _ | _ <;> first | exact hok.elim | exact hspec.elim | skip
      rcases reply' with (_ | bytes') | _ | _ <;> first | exact hok'.elim | exact hspec'.elim | skip
      obtain ⟨w, hread, rfl⟩ := hspec bytes rfl
      obtain ⟨w', hread', rfl⟩ := hspec' bytes' rfl
      have hlen : asset'.len = asset.len := by rw [Asset.len, Asset.len, record_eq h hsame]
      rw [hlen] at hread'
      rw [(reading_agree h hc hsame hread hread').2]
    | _ => exact hsame.elim
  | readAt asset offset destination =>
    cases c' with
    | readAt asset' offset' destination' =>
      obtain ⟨hindex, rfl, rfl⟩ := hsame
      rcases reply with _ | _ | _ <;> first | exact hspec.elim | skip
      rcases reply' with _ | _ | _ <;> first | exact hspec'.elim | skip
      exact count_agree h hc hindex rfl rfl hspec hspec' hok hok'
    | _ => exact hsame.elim
  | sessionReadAt session offset destination =>
    cases c' with
    | sessionReadAt session' offset' destination' =>
      obtain ⟨hindex, rfl, rfl, hcurrent, hprevious⟩ := hsame
      rcases reply with _ | _ | _ <;> first | exact hspec.elim | skip
      rcases reply' with _ | _ | _ <;> first | exact hspec'.elim | skip
      exact count_agree h hc hindex rfl (by simp only [hcurrent, hprevious]) hspec hspec' hok hok'
    | _ => exact hsame.elim
  | cursorRead cursor buffer =>
    cases c' with
    | cursorRead cursor' buffer' =>
      obtain ⟨hindex, hposition, rfl, hcurrent, hprevious⟩ := hsame
      rcases reply with _ | _ | _ <;> first | exact hspec.elim | skip
      rcases reply' with _ | _ | _ <;> first | exact hspec'.elim | skip
      exact count_agree h hc hindex hposition (by simp only [hcurrent, hprevious]) hspec hspec' hok hok'
    | _ => exact hsame.elim
  | _ => exact hsame.elim

end

/-- The sample package without any cache. -/
def uncachedBlock : PackageInner := { oneBlock.package with budget := ⟨0, 0, 0, 0, 0⟩ }

theorem open_of_steps [Crypto] [Target] {snapshot : Bytes} {source : SegmentSource} {rootKey verifyingKey : ByteArr 32}
    {budget : ResourceBudget} {policy : OpenPolicy} (headerBytes ciphertext : Bytes) (header : SnapshotHeader)
    (catalog : Catalog) (pageBytes : Nat) (hread : readExact snapshot 0 snapshotHeaderSize = .ok headerBytes)
    (hheader : SnapshotHeader.parse headerBytes = .ok header) (hlen : ¬ usizeSize ≤ header.catalogStoredLen.toNat)
    (hciphertext : readExact snapshot snapshotHeaderSize header.catalogStoredLen.toNat = .ok ciphertext)
    (hcatalog : authenticate header ciphertext rootKey verifyingKey policy = .ok catalog)
    (hpages : pageRegionBytes catalog header.pageCount.toNat = .ok pageBytes)
    (hend : validateSnapshotLen snapshot.length header.pageRegionOffset.toNat pageBytes = .ok ()) :
    PackageInner.open ideal snapshot source rootKey verifyingKey budget policy = .ok {
      snapshot, source, header, catalog, budget
      keys := ProjectKeys.new rootKey header.projectId
      snapshotKey := (ProjectKeys.new rootKey header.projectId).snapshotKey header.snapshotSalt
      pathKey := (ProjectKeys.new rootKey header.projectId).pathKey } := by
  unfold PackageInner.open
  simp only [Catalog.liftM_result, fail_bind, bind_eq_ok, ite_fail_eq_ok, pure_eq_ok, Except.ok.injEq]
  exact ⟨_, hread, _, hheader, hlen, _, hciphertext, _, hcatalog, _, hpages, _, rfl, _, hend, rfl⟩

theorem oneBlock_open (budget : ResourceBudget) : letI := exampleCrypto; letI := target64
    PackageInner.open ideal oneBlock.snapshot oneBlock.package.source (.replicate 32 8) (.replicate 32 6) budget
      .trustFirstRelease = .ok { oneBlock.package with budget := budget } :=
  letI := exampleCrypto
  letI := target64
  open_of_steps (slice oneBlock.snapshot 0 snapshotHeaderSize) oneBlock.catalogCiphertext oneBlock.header
    oneBlock.catalog.view 144 (by decide +kernel) (by decide +kernel) (by decide +kernel) (by decide +kernel)
    (by decide +kernel) (by decide +kernel) (by decide +kernel)

theorem oneBlock_collisionFree : letI := exampleCrypto; letI := target64
    oneBlock.package.CollisionFree uncachedBlock := by
  let _ := exampleCrypto
  let _ := target64
  have hpage : ∀ c, oneBlock.package.PageBytes c → c = oneBlock.mapPage ∨ c = oneBlock.reusePage := by
    rintro c ⟨i, page, hpage, rfl⟩
    have hmem := List.mem_of_getElem? ((CatalogData.page_view oneBlock_encodable).1 hpage).1
    rcases List.mem_cons.1 hmem with rfl | hmem
    · exact .inl (by decide +kernel)
    · obtain rfl := List.mem_singleton.1 hmem
      exact .inr (by decide +kernel)
  constructor
  · intro c c' hc hc' heq
    rcases hpage c hc with rfl | rfl
    · rcases hpage c' hc' with rfl | rfl
      · rfl
      · exact absurd heq (by decide +kernel)
    · rcases hpage c' hc' with rfl | rfl
      · exact absurd heq (by decide +kernel)
      · rfl
  · rintro c c' ⟨g, r, segment, file, hr, hsegment, hfile, rfl⟩ ⟨g', r', segment', file', hr', hsegment', hfile', rfl⟩ -
    obtain rfl : g = 0 := Nat.lt_one_iff.1 (idealRef_lt hr)
    obtain rfl : g' = 0 := Nat.lt_one_iff.1 (idealRef_lt hr')
    obtain rfl : r = r' := Except.ok.inj (hr.symm.trans hr')
    obtain rfl : segment = segment' := Except.ok.inj (hsegment.symm.trans hsegment')
    obtain rfl : file = file' := Option.some.inj (hfile.symm.trans hfile')
    rfl

/-- The reply to a call on a package just opened. -/
def firstReply [Crypto] [Target] {P : PackageInner} (c : Call P) : Reply :=
  (c.program.run (System.opened P []).shared).1.1

end Hakutaku
