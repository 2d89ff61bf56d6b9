import Hakutaku.Comparers
import Hakutaku.Proofs.CursorRefines
import Hakutaku.Proofs.SignatureCommits

/-!
# Comparisons decide equality

On a coherent package whose backend does not fail, both comparers accept a source exactly if the package holds its bytes,
in whatever pieces the readers deliver them.
-/

namespace Hakutaku
open Wire

section
variable [Crypto] [Target] {P : PackageInner}

/-- On a backend that does not fail, `verify_segments` reports what it would without caches. -/
theorem verifySegments_exact (hP : P.Coherent) {s : Shared} (hs : P.SoundFor (fun _ => False) s) :
    P.SoundFor (fun _ => False) (((P.verifySegments runtime P.openSegment).run.run (.new [])).run s).2 ∧
      (((P.verifySegments runtime P.openSegment).run.run (.new [])).run s).1.1 =
        P.verifySegments ideal (P.fetchSegment ideal) := by
  have hvalid : P.Valid ⟨0, 0, .fixed, .normal, 0, 0, 0, 0⟩ (.new []) := .new _ _
  obtain ⟨hs', -, -, hspec | ⟨_, ⟨_, hfalse, -⟩, -⟩⟩ := Prog.Tolerant.run (verifySegments_reads hP hvalid) hs
  · refine ⟨hs', Eq.trans ?_ hspec⟩
    rcases (((P.verifySegments runtime P.openSegment).run.run (.new [])).run s).1.1 with _ | _
    · rfl
    · rfl
  · exact hfalse.elim

variable {snapshot : Bytes} {segments : SegmentSource} {rootKey verifyingKey : ByteArr 32} {host : Host}
  {faults : List (Option Fault)} {files : List SourceFile}

theorem verifyStagedRelease_iff (hopen : PackageInner.open ideal snapshot segments rootKey verifyingKey .memoryConstrained
    .trustFirstRelease = .ok P) (hP : P.Coherent) (hfaults : ∀ fault, some fault ∉ faults) {content : SourceFile → Bytes}
    (hsources : ∀ source ∈ files, host.Shows source (content source)) :
    verifyStagedRelease snapshot segments rootKey verifyingKey host faults files true = .ok () ↔
      P.verifySegments ideal (P.fetchSegment ideal) = .ok () ∧
        ∀ source ∈ files, P.Holds source.logicalPath (content source) := by
  obtain ⟨hshared, hverified⟩ := verifySegments_exact hP (.new P P.budget fun fault hmem => hfaults fault hmem)
  rw [verifyStagedRelease]
  simp only [coreResult_eq_ok.2 hopen, ok_bind, hverified, bind_eq_ok, coreResult_eq_ok]
  rw [← verifySources_iff hP (.new hshared) hsources]
  constructor
  · rintro ⟨_, hsegments, hcompared⟩
    obtain ⟨c', hcompared, -⟩ := bind_eq_ok.1 hcompared
    exact ⟨hsegments, c', hcompared⟩
  · rintro ⟨hsegments, c', hcompared⟩
    exact ⟨(), hsegments, bind_eq_ok.2 ⟨c', hcompared, rfl⟩⟩

end

/-! ### Samples -/

/-- The example profile, with the hash of the segment its identity. -/
@[reducible] def SampleRelease.crypto (s : SampleRelease) : Crypto :=
  { exampleCrypto with hash := fun bytes => if bytes = s.segmentFile then s.segment.id.bytes else exampleCrypto.hash bytes }

/-- A source file `a`. -/
def sampleSource (len : UInt64) : SourceFile := ⟨"in/a", "a", len, ⟨len, none, 1, 2⟩⟩

/-- A file with this content, which is interrupted once and then delivers three bytes at first. -/
def sampleFile (content : Bytes) : OpenSource where
  opened := .ok (some (sampleSource (UInt64.ofNat content.length)).stamp)
  file := ⟨content, [.fail .interrupted, .deliver 3], []⟩
  closed := .ok (some (sampleSource (UInt64.ofNat content.length)).stamp)

def sampleHost (content : Bytes) : Host := fun path => if path = "in/a" then .ok (sampleFile content) else .error .notFound

theorem sampleHost_shows {content : Bytes} (hlen : content.length < u64Size) (hkey : hasKeyMagic content = false) :
    (sampleHost content).Shows (sampleSource (UInt64.ofNat content.length)) content := by
  refine ⟨sampleFile content, if_pos rfl, rfl, rfl, rfl, ?_, (UInt64.toNat_ofNat_of_lt' hlen).symm, hkey⟩
  intro outcome hmem
  rcases List.mem_cons.1 hmem with rfl | hmem
  · exact rfl
  · obtain rfl := List.mem_singleton.1 hmem
    exact Nat.succ_pos 2

section
variable [Crypto] [Target] {P : PackageInner} {asset : Asset P} {offset : UInt64} {st : ReadState}

theorem asset_of_findFile (asset : Asset P) {path : String}
    (hfind : P.catalog.findFile path P.pathKey = .ok (some asset.fileIndex)) : P.asset path = .ok asset := by
  rcases asset with ⟨index, record, found⟩
  rw [PackageInner.asset, hfind, ok_bind]
  dsimp only
  split
  · rename_i record' hrecord
    obtain rfl : record' = record := Except.ok.inj (hrecord.symm.trans found)
    rfl
  · rename_i stop hstop
    exact absurd (hstop.symm.trans found) nofun

theorem readAtBuffered_run (hoffset : offset.toNat ≤ asset.len) {requested : Nat}
    (hrequested : min (asset.len - offset.toNat) st.destination.length = requested) (hsmall : requested < usizeSize) :
    (asset.readAtBuffered offset).run.run st =
      if requested = 0 then .ret (.ok 0, st) else (asset.readLoop requested requested 0 offset.toNat).run.run st := by
  subst hrequested
  unfold Asset.readAtBuffered
  rw [if_neg (Nat.not_lt.2 hoffset)]
  show ((if _ then _ else _ : ReadM Nat)).run.run st = _
  rw [if_neg (Nat.not_le.2 hsmall)]
  split
  · rfl
  · rfl

/-- At its end a cursor delivers nothing. -/
theorem CursorReader.read_end {r : CursorReader P} (hend : r.session.position = r.session.asset.record.logicalLen)
    (buffer : Bytes) : (Read.read r buffer).1 = .ok 0 := by
  have hin : ¬ r.session.asset.record.logicalLen < r.session.position := by
    rw [hend]
    exact UInt64.lt_irrefl _
  have hzero : min (r.session.asset.len - r.session.position.toNat) buffer.length = 0 := by
    rw [hend]
    exact Nat.le_zero.1 ((min_le_left _ _).trans_eq (Nat.sub_self _))
  have hrun : ((r.session.asset.cursorRead r.session.position).run.run { r.session.state with destination := buffer }) =
      .ret (.ok (0, r.session.position + UInt64.ofNat 0), { r.session.state with destination := buffer }) := by
    unfold Asset.cursorRead
    rw [if_neg hin]
    show (r.session.asset.readAtBuffered r.session.position).run.run _ >>= _ = _
    rw [readAtBuffered_run (hend ▸ le_refl _) hzero ((show 0 < 2 ^ 32 by decide).trans_le le_usizeSize)]
    rfl
  show (if _ then _ else _) = _
  rw [if_neg hin, hrun]
  rfl

omit [Crypto] [Target] in
/-- A reader at its end adds nothing to a chunk. -/
theorem readChunkLoop_end {σ : Type} [Read σ] {r : σ} (hend : ∀ buffer, (Read.read r buffer).1 = .ok 0) (left filled : Nat)
    (buffer : Bytes) : ∃ rest reader, readChunkLoop (left + 1) r filled buffer = (.ok filled, rest, reader) := by
  rw [readChunkLoop]
  split
  · exact ⟨_, _, rfl⟩
  · rcases hread : Read.read r buffer with ⟨result, rest, reader⟩
    obtain rfl : result = .ok 0 := (congrArg Prod.fst hread).symm.trans (hend buffer)
    exact ⟨rest, reader, rfl⟩

/-- The first read of a cursor into a buffer that holds the whole asset is one run of the read loop. -/
theorem CursorReader.read_whole {s : Shared} {buffer bytes : Bytes} (hpos : 0 < asset.len) (hlen : asset.len ≤ buffer.length)
    (hsmall : asset.len < usizeSize)
    (hok : (((asset.readLoop asset.len asset.len 0 0).run.run (.new buffer)).run s).1.1 = .ok asset.len)
    (hbytes : (((asset.readLoop asset.len asset.len 0 0).run.run (.new buffer)).run s).1.2.destination.take asset.len = bytes) :
    ∃ rest reader, Read.read (⟨.new asset, s⟩ : CursorReader P) buffer = (.ok asset.len, bytes ++ rest, reader) ∧
      bytes ++ rest = (((asset.readLoop asset.len asset.len 0 0).run.run (.new buffer)).run s).1.2.destination ∧
      reader.session.position = reader.session.asset.record.logicalLen := by
  rcases hrun : ((asset.readLoop asset.len asset.len 0 0).run.run (.new buffer)).run s with ⟨⟨result, st⟩, s'⟩
  rw [hrun] at hok hbytes
  obtain rfl : result = .ok asset.len := hok
  obtain rfl : st.destination.take asset.len = bytes := hbytes
  have hin : ¬ asset.record.logicalLen < 0 := UInt64.not_lt.2 UInt64.zero_le
  have hloop : (asset.readAtBuffered 0).run.run (.new buffer) =
      (asset.readLoop asset.len asset.len 0 0).run.run (.new buffer) := by
    have hrequested : min (asset.len - (0 : UInt64).toNat) (ReadState.new buffer).destination.length = asset.len :=
      min_eq_left hlen
    rw [readAtBuffered_run (Nat.zero_le _) hrequested hsmall, if_neg hpos.ne']
    rfl
  have hcursor : ((asset.cursorRead 0).run.run (.new buffer)).run s =
      ((.ok (asset.len, 0 + UInt64.ofNat asset.len), st), s') := by
    unfold Asset.cursorRead
    rw [if_neg hin]
    show ((asset.readAtBuffered 0).run.run (.new buffer) >>= _).run s = _
    rw [Prog.run_bind, hloop, hrun]
    rfl
  have hread : Read.read (⟨.new asset, s⟩ : CursorReader P) buffer =
      let out := ((asset.cursorRead 0).run.run (.new buffer)).run s
      (if asset.record.logicalLen < 0 then fail .invalidInput else otherError (out.1.1.map Prod.fst),
        out.1.2.destination, ⟨(Session.new asset).afterRead out.1, out.2⟩) := rfl
  have hend : (0 : UInt64) + UInt64.ofNat asset.len = asset.record.logicalLen := by
    rw [UInt64.zero_add]
    exact UInt64.ofNat_toNat
  refine ⟨st.destination.drop asset.len, ⟨⟨asset, st, 0 + UInt64.ofNat asset.len⟩, s'⟩, ?_, ?_, hend⟩
  · rw [hread]
    simp only [if_neg hin, hcursor, List.take_append_drop]
    rfl
  · exact List.take_append_drop ..

/-- A chunk that holds the whole asset is what one run of the read loop puts there. -/
theorem readChunk_whole {s : Shared} {buffer bytes : Bytes} (hpos : 0 < asset.len) (hlen : asset.len ≤ buffer.length)
    (hsmall : asset.len < usizeSize)
    (hok : (((asset.readLoop asset.len asset.len 0 0).run.run (.new buffer)).run s).1.1 = .ok asset.len)
    (hbytes : (((asset.readLoop asset.len asset.len 0 0).run.run (.new buffer)).run s).1.2.destination.take asset.len = bytes)
    (hbyteslen : bytes.length = asset.len) :
    ∃ rest reader, readChunk (⟨.new asset, s⟩ : CursorReader P) buffer = (.ok asset.len, bytes ++ rest, reader) := by
  obtain ⟨rest, reader, hfirst, -, hend⟩ := CursorReader.read_whole hpos hlen hsmall hok hbytes
  obtain ⟨n, hn⟩ : ∃ n, asset.len = n + 1 := ⟨asset.len - 1, by omega⟩
  have hnil : buffer ≠ [] := by
    rintro rfl
    exact absurd hlen (Nat.not_le.2 hpos)
  obtain ⟨left, hleft⟩ : ∃ left, Read.interruptions (⟨.new asset, s⟩ : CursorReader P) + buffer.length = left + 1 :=
    ⟨buffer.length - 1, by
      show 0 + buffer.length = _
      omega⟩
  obtain ⟨rest', reader', hlast⟩ := readChunkLoop_end (CursorReader.read_end hend) left (0 + asset.len) rest
  rw [readChunk, readChunkLoop, if_neg hnil, hfirst, hleft, hn]
  rw [hn] at hlast hbyteslen
  dsimp only
  rw [List.drop_left' hbyteslen, hlast, Nat.zero_add, List.take_left' hbyteslen]
  exact ⟨rest', reader', rfl⟩

/-- And so is a buffer that is as long as the asset. -/
theorem readExact_whole {s : Shared} {buffer bytes : Bytes} (hpos : 0 < asset.len) (hlen : buffer.length = asset.len)
    (hsmall : asset.len < usizeSize)
    (hok : (((asset.readLoop asset.len asset.len 0 0).run.run (.new buffer)).run s).1.1 = .ok asset.len)
    (hbytes : (((asset.readLoop asset.len asset.len 0 0).run.run (.new buffer)).run s).1.2.destination = bytes)
    (hbyteslen : bytes.length = asset.len) :
    ∃ reader, Read.readExact (⟨.new asset, s⟩ : CursorReader P) buffer = (.ok (), bytes, reader) := by
  obtain ⟨rest, reader, hfirst, hwhole, -⟩ := CursorReader.read_whole hpos hlen.ge hsmall hok
    (show _ = bytes by rw [hbytes, ← hbyteslen, List.take_length])
  obtain rfl : rest = [] := List.append_right_eq_self.1 (hwhole.trans hbytes)
  obtain ⟨n, hn⟩ : ∃ n, asset.len = n + 1 := ⟨asset.len - 1, by omega⟩
  have hnil : buffer ≠ [] := by
    rintro rfl
    exact absurd hlen hpos.ne
  have hleft : Read.interruptions (⟨.new asset, s⟩ : CursorReader P) + buffer.length = n + 1 := by
    show 0 + buffer.length = _
    omega
  rw [hn] at hfirst hbyteslen
  rw [Read.readExact, hleft, Read.readExactLoop, if_neg hnil, hfirst]
  dsimp only
  rw [List.append_nil, List.drop_eq_nil_of_le hbyteslen.le, List.take_of_length_le hbyteslen.le]
  exact ⟨reader, by rw [Read.readExactLoop, if_pos rfl, List.append_nil]⟩

/-- Verifying a release of which an asset that fits into the buffer reads otherwise than the source. -/
theorem verifyStagedRelease_mismatch {snapshot : Bytes} {segments : SegmentSource} {rootKey verifyingKey : ByteArr 32}
    {host : Host} {source : SourceFile} {content : Bytes} (asset : Asset P) (bytes : Bytes)
    (hopen : PackageInner.open ideal snapshot segments rootKey verifyingKey .memoryConstrained .trustFirstRelease = .ok P)
    (hverified : (((P.verifySegments runtime P.openSegment).run.run (.new [])).run (.new P.budget [])).1.1 = .ok ())
    (hsource : host.Shows source content) (hasset : P.asset source.logicalPath = .ok asset)
    (hpos : 0 < asset.len) (hlen : asset.len < compareBufferBytes)
    (hok : (((asset.readLoop asset.len asset.len 0 0).run.run (.new (zeros compareBufferBytes))).run
      (((P.verifySegments runtime P.openSegment).run.run (.new [])).run (.new P.budget [])).2).1.1 = .ok asset.len)
    (hbytes : (((asset.readLoop asset.len asset.len 0 0).run.run (.new (zeros compareBufferBytes))).run
      (((P.verifySegments runtime P.openSegment).run.run (.new [])).run (.new P.budget [])).2).1.2.destination.take asset.len =
        bytes) (hbyteslen : bytes.length = asset.len) (hdiffer : content ≠ bytes) :
    verifyStagedRelease snapshot segments rootKey verifyingKey host [] [source] true =
      fail (.invalidInput ("verification mismatch: " ++ source.logicalPath)) := by
  obtain ⟨file, reader, hscripted, hshown, hreader⟩ := hsource.openScripted
  obtain ⟨rest, cursor, hactual⟩ := readChunk_whole hpos (by rw [length_zeros]; exact hlen.le)
    (hlen.trans compareBufferBytes_lt) hok hbytes hbyteslen
  obtain ⟨hn, -, htake, -⟩ := (Streams.scripted compareBufferBytes content).readChunk_bytes (length_zeros _).le hreader
  rw [length_zeros] at hn htake
  have hloop : compareLoop (.invalidInput ("verification mismatch: " ++ source.logicalPath)) (file.file.content.length + 1)
      reader (⟨.new asset, (((P.verifySegments runtime P.openSegment).run.run (.new [])).run (.new P.budget [])).2⟩ :
        CursorReader P) (zeros compareBufferBytes) (zeros compareBufferBytes) =
      fail (.invalidInput ("verification mismatch: " ++ source.logicalPath)) := by
    rw [compareLoop_succ, hn, hactual, ok_bind, ok_bind]
    refine if_pos ?_
    by_contra hsame
    rw [not_or, not_ne_iff, not_ne_iff, htake] at hsame
    obtain ⟨hcount, hequal⟩ := hsame
    have hfits : content.length ≤ compareBufferBytes := by omega
    rw [List.take_of_length_le hfits, List.take_left' hbyteslen] at hequal
    exact hdiffer hequal
  have hfirst : verifySource P host (.new (((P.verifySegments runtime P.openSegment).run.run (.new [])).run (.new P.budget [])).2)
      source = fail (.invalidInput ("verification mismatch: " ++ source.logicalPath)) := by
    rw [verifySource, hscripted, ok_bind]
    show (coreResult (P.asset source.logicalPath) >>= _) = _
    rw [coreResult_eq_ok.2 hasset, ok_bind]
    exact congrArg (· >>= _) hloop
  rw [verifyStagedRelease, coreResult_eq_ok.2 hopen, ok_bind]
  show (coreResult (((P.verifySegments runtime P.openSegment).run.run (.new [])).run (.new P.budget [])).1.1 >>= _) = _
  rw [coreResult_eq_ok.2 hverified, ok_bind]
  show (([source].foldlM (verifySource P host) _ : PackResult Comparison) >>= _) = _
  rw [List.foldlM_cons, hfirst, fail_bind, fail_bind]

end

theorem twins_open : letI := twins.crypto; letI := target64
    PackageInner.open ideal twins.snapshot twins.package.source (.replicate 32 8) (.replicate 32 6) .memoryConstrained
      .trustFirstRelease = .ok twins.package :=
  letI := twins.crypto
  letI := target64
  open_of_steps (slice twins.snapshot 0 snapshotHeaderSize) twins.catalogCiphertext twins.header
    twins.catalog.view 224 (by decide +kernel) (by decide +kernel) (by decide +kernel) (by decide +kernel)
    (by decide +kernel) (by decide +kernel) (by decide +kernel)

/-- Verifying the release of the twins against the bytes of both of them. -/
theorem twins_misjudged : letI := twins.crypto; letI := target64
    PackageInner.open ideal twins.snapshot twins.package.source (.replicate 32 8) (.replicate 32 6) .memoryConstrained
        .trustFirstRelease = .ok twins.package ∧
      twins.package.verifySegments ideal (twins.package.fetchSegment ideal) = .ok () ∧
      (sampleHost [1, 2, 3, 4, 5, 6, 7, 8]).Shows (sampleSource 8) [1, 2, 3, 4, 5, 6, 7, 8] ∧
      twins.package.Holds "a" [1, 2, 3, 4, 5, 6, 7, 8] ∧
      verifyStagedRelease twins.snapshot twins.package.source (.replicate 32 8) (.replicate 32 6)
        (sampleHost [1, 2, 3, 4, 5, 6, 7, 8]) [] [sampleSource 8] true =
          fail (.invalidInput ("verification mismatch: " ++ "a")) := by
  let _ := twins.crypto
  let _ := target64
  have hasset : twins.package.asset "a" = .ok twinsAsset := asset_of_findFile twinsAsset (by decide +kernel)
  have hshows : (sampleHost [1, 2, 3, 4, 5, 6, 7, 8]).Shows (sampleSource 8) [1, 2, 3, 4, 5, 6, 7, 8] :=
    sampleHost_shows (by decide) (by decide)
  refine ⟨twins_open, by decide +kernel, hshows, ⟨twinsAsset, hasset, by decide +kernel⟩, ?_⟩
  exact verifyStagedRelease_mismatch twinsAsset [1, 2, 3, 4, 1, 2, 3, 4] twins_open (by decide +kernel) hshows hasset
    (by decide +kernel) (by decide +kernel) (by decide +kernel) (by decide +kernel) (by decide +kernel) (by decide)

theorem comparers_exact [Crypto] [Target] (snapshot : Bytes) (segments : SegmentSource) (rootKey verifyingKey : ByteArr 32)
    (P : PackageInner) (hopen : PackageInner.open ideal snapshot segments rootKey verifyingKey .memoryConstrained
      .trustFirstRelease = .ok P) (hP : P.Coherent) (host : Host) (faults : List (Option Fault))
    (hfaults : ∀ fault, some fault ∉ faults) (files : List SourceFile) (content : SourceFile → Bytes)
    (hsources : ∀ source ∈ files, host.Shows source (content source)) :
    (verifyStagedRelease snapshot segments rootKey verifyingKey host faults files true = .ok () ↔
      P.verifySegments ideal (P.fetchSegment ideal) = .ok () ∧
        ∀ source ∈ files, P.Holds source.logicalPath (content source)) ∧
    ∀ source ∈ files, ∀ asset, P.asset source.logicalPath = .ok asset → asset.len = source.len.toNat → ∀ c, c.Ok P →
      ((∃ c', assetMatchesSource P host c source = .ok (true, c')) ↔ asset.contents = .ok (content source)) ∧
      ((∃ bytes, asset.contents = .ok bytes) → ∃ same c', assetMatchesSource P host c source = .ok (same, c')) ∧
      (P.verifySegments ideal (P.fetchSegment ideal) = .ok () →
        (verifyStagedRelease snapshot segments rootKey verifyingKey host faults [source] true = .ok () ↔
          ∃ c', assetMatchesSource P host c source = .ok (true, c'))) := by
  refine ⟨verifyStagedRelease_iff hopen hP hfaults hsources, fun source hmem asset hasset hlen c hc => ?_⟩
  obtain ⟨hspec, hends⟩ := assetMatchesSource_spec hP hc (hsources source hmem) hasset hlen
  have hverdict : (∃ c', assetMatchesSource P host c source = .ok (true, c')) ↔ asset.contents = .ok (content source) := by
    constructor
    · rintro ⟨c', hok⟩
      exact (hspec true c' hok).2.1 rfl
    · intro hcontents
      obtain ⟨⟨same, c'⟩, hok⟩ := hends ⟨_, hcontents⟩
      obtain rfl : same = true := (hspec same c' hok).2.2 hcontents
      exact ⟨c', hok⟩
  refine ⟨hverdict, fun hreadable => ?_, fun hsegments => ?_⟩
  · obtain ⟨⟨same, c'⟩, hok⟩ := hends hreadable
    exact ⟨same, c', hok⟩
  · rw [verifyStagedRelease_iff hopen hP hfaults (List.forall_mem_singleton.2 (hsources source hmem)), hverdict,
      and_iff_right hsegments, List.forall_mem_singleton]
    constructor
    · rintro ⟨asset', hasset', hcontents⟩
      obtain rfl : asset = asset' := Except.ok.inj (hasset.symm.trans hasset')
      exact hcontents
    · intro hcontents
      exact ⟨asset, hasset, hcontents⟩

theorem comparers_exact_sample : letI := oneBlock.crypto; letI := target64
    verifyStagedRelease oneBlock.snapshot oneBlock.package.source (.replicate 32 8) (.replicate 32 6)
      (sampleHost [1, 2, 3, 4]) [none] [sampleSource 4] true = .ok () := by
  let _ := oneBlock.crypto
  let _ := target64
  have hopen : PackageInner.open ideal oneBlock.snapshot oneBlock.package.source (.replicate 32 8) (.replicate 32 6)
      .memoryConstrained .trustFirstRelease = .ok oneBlock.package :=
    open_of_steps (slice oneBlock.snapshot 0 snapshotHeaderSize) oneBlock.catalogCiphertext oneBlock.header
      oneBlock.catalog.view 144 (by decide +kernel) (by decide +kernel) (by decide +kernel) (by decide +kernel)
      (by decide +kernel) (by decide +kernel) (by decide +kernel)
  have hasset : oneBlock.package.asset "a" = .ok oneBlockAsset := asset_of_findFile oneBlockAsset (by decide +kernel)
  have hshows : (sampleHost [1, 2, 3, 4]).Shows (sampleSource 4) [1, 2, 3, 4] := sampleHost_shows (by decide) (by decide)
  have h := comparers_exact oneBlock.snapshot oneBlock.package.source (.replicate 32 8) (.replicate 32 6) oneBlock.package
    hopen oneBlock_coherent (sampleHost [1, 2, 3, 4]) [none] (by simp) [sampleSource 4] (fun _ => [1, 2, 3, 4])
    (List.forall_mem_singleton.2 hshows)
  exact h.1.2 ⟨by decide +kernel, List.forall_mem_singleton.2 ⟨oneBlockAsset, hasset, by decide +kernel⟩⟩

end Hakutaku
