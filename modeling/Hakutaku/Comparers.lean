import Hakutaku.CursorStream
import Hakutaku.SourceTree

/-!
# Comparing sources with assets (`packer.rs`, `planner.rs`)

`verify_staged_release` compares a source file with its asset in two buffers that are filled one after the other,
`asset_matches_source` in pieces of a known length. Both over files whose reads are cut into pieces as their scripts say.
-/

namespace Hakutaku
open Wire

/-! ### Open source files -/

/-- A source file while it is open: its metadata when it is opened and at the end (`none`: no regular file), its content
and what the reads of it do. -/
structure OpenSource where
  opened : Except IoKind (Option SourceStamp)
  file : ScriptedFile
  closed : Except IoKind (Option SourceStamp)

/-- What opening a path of the host gives. -/
abbrev Host := String → Except IoKind OpenSource

namespace SourceFile

/-- `validate_open_file`, with the metadata of the file. -/
def validateMetadata (source : SourceFile) : Except IoKind (Option SourceStamp) → PackResult Unit
  | .error kind => fail (.io kind)
  | .ok state => if state ≠ some source.stamp then fail source.sourceChanged else .ok ()

/-- `open_verified`, and the file behind it at its start. -/
def openScripted (source : SourceFile) (host : Host) : PackResult (OpenSource × ScriptedReader) :=
  match host source.hostPath with
  | .error kind => fail (.io kind)
  | .ok file => do
    source.validateMetadata file.opened
    let (result, magic, reader) := Read.readExact (⟨file.file, 0⟩ : ScriptedReader) (zeros 8)
    let isKey ← match result with
      | .ok () => .ok (isHakutakuKeyMagic magic)
      | .error (.err .unexpectedEof) => .ok false
      | .error (.err kind) => fail (.io kind)
      | .error (.panic what) => panicked what
    if isKey then fail source.keyMaterial
    return (file, ⟨reader.file, 0⟩)

end SourceFile

/-! ### The loops -/

section
variable {σ τ : Type} [Read σ] [Read τ]

/-- The loop of `verify_staged_release`: the buffers and the readers behind it. Every pass but the last takes a byte, so one
more than the bytes of the source are enough. -/
def compareLoop (mismatch : PackError) : Nat → σ → τ → Bytes → Bytes → PackResult (Bytes × Bytes × σ × τ)
  | 0, _, _, _, _ => panicked "more passes"
  | left + 1, source, asset, expected, actual => do
    let (result, expected, source) := readChunk source expected
    let expectedLen ← result
    let (result, actual, asset) := readChunk asset actual
    let actualLen ← result
    if expectedLen ≠ actualLen ∨ expected.take expectedLen ≠ actual.take actualLen then fail mismatch
    if expectedLen = 0 then return (expected, actual, source, asset)
    compareLoop mismatch left source asset expected actual

/-- `std::io::Error` as an error of the publisher. -/
def ioResult {α : Type} : Outcome IoKind α → PackResult α
  | .ok a => .ok a
  | .error (.err kind) => fail (.io kind)
  | .error (.panic what) => panicked what

variable [Target]

/-- The loop of `asset_matches_source`: the verdict, the buffers and the readers behind it. Every pass takes a byte, so
`left = remaining` passes are enough. -/
def matchLoop : Nat → σ → τ → Nat → Bytes → Bytes → PackResult (Bool × Bytes × Bytes × σ × τ)
  | 0, source, asset, _, sourceBuffer, releaseBuffer => .ok (true, sourceBuffer, releaseBuffer, source, asset)
  | left + 1, source, asset, remaining, sourceBuffer, releaseBuffer =>
    if 0 < remaining then do
      let chunk := min remaining sourceBuffer.length
      if usizeSize ≤ chunk then fail (.invalidInput "comparison length overflow")
      let (result, expected, source) := Read.readExact source (sourceBuffer.take chunk)
      ioResult result
      if releaseBuffer.length < chunk then panicked "range end index out of range"
      let (result, actual, asset) := Read.readExact asset (releaseBuffer.take chunk)
      ioResult result
      let sourceBuffer := expected ++ sourceBuffer.drop chunk
      let releaseBuffer := actual ++ releaseBuffer.drop chunk
      if expected ≠ actual then return (false, sourceBuffer, releaseBuffer, source, asset)
      matchLoop left source asset (remaining - chunk) sourceBuffer releaseBuffer
    else .ok (true, sourceBuffer, releaseBuffer, source, asset)

end

/-! ### The comparers -/

def compareBufferBytes : Nat := 1024 * 1024

/-- What a comparer goes on with: its two buffers, and the state of the package. -/
structure Comparison where
  expected : Bytes
  actual : Bytes
  shared : Shared

def Comparison.new (shared : Shared) : Comparison := ⟨zeros compareBufferBytes, zeros compareBufferBytes, shared⟩

section
variable [Crypto] [Target]

/-- The comparison of one source in `verify_staged_release`. -/
def verifySource (P : PackageInner) (host : Host) (c : Comparison) (source : SourceFile) : PackResult Comparison := do
  let (file, reader) ← source.openScripted host
  let asset ← coreResult (P.asset source.logicalPath)
  let (expected, actual, _, cursor) ← compareLoop (.invalidInput ("verification mismatch: " ++ source.logicalPath))
    (file.file.content.length + 1) reader (⟨.new asset, c.shared⟩ : CursorReader P) c.expected c.actual
  source.validateMetadata file.closed
  return ⟨expected, actual, cursor.shared⟩

/-- `verify_staged_release`. `faults` are the failures of the package's backend behind the opening. -/
def verifyStagedRelease (snapshot : Bytes) (segments : SegmentSource) (rootKey verifyingKey : ByteArr 32) (host : Host)
    (faults : List (Option Fault)) (files : List SourceFile) (verifySources : Bool) : PackResult Unit := do
  let P ← coreResult (PackageInner.open ideal snapshot segments rootKey verifyingKey .memoryConstrained .trustFirstRelease)
  let out := ((P.verifySegments runtime P.openSegment).run.run (.new [])).run (.new P.budget faults)
  coreResult out.1.1
  if !verifySources then return
  let _ ← files.foldlM (verifySource P host) (.new out.2)

/-- `asset_matches_source`. -/
def assetMatchesSource (P : PackageInner) (host : Host) (c : Comparison) (source : SourceFile) :
    PackResult (Bool × Comparison) := do
  let (file, reader) ← source.openScripted host
  let asset ← coreResult (P.asset source.logicalPath)
  let (same, expected, actual, _, cursor) ← matchLoop source.len.toNat (⟨reader, [], compareBufferBytes⟩ : BufReader _)
    (⟨.new asset, c.shared⟩ : CursorReader P) source.len.toNat c.expected c.actual
  if !same then return (false, ⟨expected, actual, cursor.shared⟩)
  source.validateMetadata file.closed
  return (true, ⟨expected, actual, cursor.shared⟩)

end

/-! ### Two streams in lock step -/

section
variable {σ τ : Type} [Read σ] [Read τ] {bound left : Nat} {D : σ → Rest → Prop} {E : τ → Rest → Prop}
  {mismatch : PackError} {source : σ} {asset : τ} {content other expected actual : Bytes} {rest : Rest}

theorem compareLoop_succ : compareLoop mismatch (left + 1) source asset expected actual =
    (readChunk source expected).1 >>= fun expectedLen => (readChunk asset actual).1 >>= fun actualLen =>
      if expectedLen ≠ actualLen ∨ (readChunk source expected).2.1.take expectedLen ≠
          (readChunk asset actual).2.1.take actualLen then fail mismatch
      else if expectedLen = 0 then .ok ((readChunk source expected).2.1, (readChunk asset actual).2.1,
        (readChunk source expected).2.2, (readChunk asset actual).2.2)
      else compareLoop mismatch left (readChunk source expected).2.2 (readChunk asset actual).2.2
        (readChunk source expected).2.1 (readChunk asset actual).2.1 := rfl

namespace Streams

/-- Equal streams are found equal, whatever pieces either of them comes in. -/
theorem compareLoop_equal (h : Streams bound D) (h' : Streams bound E) (mismatch : PackError) (left : Nat)
    (hD : D source (.bytes content))
    (hE : E asset (.bytes content)) (hlen : actual.length = expected.length) (hpos : 0 < expected.length)
    (hbound : expected.length ≤ bound) (hleft : content.length < left) :
    ∃ expected' actual' source' asset', compareLoop mismatch left source asset expected actual =
        .ok (expected', actual', source', asset') ∧
      expected'.length = expected.length ∧ actual'.length = actual.length ∧ E asset' (.bytes []) := by
  induction left generalizing source asset content expected actual with
  | zero => exact absurd hleft (Nat.not_lt_zero _)
  | succ left ih =>
    obtain ⟨hn, hexpected, htake, hD'⟩ := h.readChunk_bytes hbound hD
    obtain ⟨hm, hactual, htake', hE'⟩ := h'.readChunk_bytes (hlen.trans_le hbound) hE
    rw [hlen] at hm htake' hE'
    rw [compareLoop_succ, hn, ok_bind, hm, ok_bind, htake, htake', if_neg (by simp)]
    by_cases hzero : min content.length expected.length = 0
    · have hnil : content = [] := List.eq_nil_of_length_eq_zero (by omega)
      subst hnil
      simp only [if_pos hzero]
      exact ⟨_, _, _, _, rfl, hexpected, hactual, by simpa using hE'⟩
    · simp only [if_neg hzero]
      obtain ⟨expected', actual', source', asset', hloop, hexpected', hactual', hend⟩ := ih hD' hE'
        ((hactual.trans hlen).trans hexpected.symm) (hpos.trans_eq hexpected.symm) (hexpected.trans_le hbound) (by
          rw [List.length_drop]
          omega)
      exact ⟨expected', actual', source', asset', hloop, hexpected'.trans hexpected, hactual'.trans hactual, hend⟩

/-- Streams that differ are not found equal: neither a prefix, nor one that fails before its end. -/
theorem compareLoop_differ (h : Streams bound D) (h' : Streams bound E) (hD : D source (.bytes content)) (hE : E asset rest)
    (hlen : actual.length = expected.length) (hpos : 0 < expected.length) (hbound : expected.length ≤ bound)
    (hrest : rest ≠ .bytes content) (out : Bytes × Bytes × σ × τ) :
    compareLoop mismatch left source asset expected actual ≠ .ok out := by
  induction left generalizing source asset content rest expected actual with
  | zero => exact panicked_ne_ok
  | succ left ih =>
    obtain ⟨hn, hexpected, htake, hD'⟩ := h.readChunk_bytes hbound hD
    rw [compareLoop_succ, hn, ok_bind, htake]
    cases rest with
    | bytes other =>
      obtain ⟨hm, hactual, htake', hE'⟩ := h'.readChunk_bytes (hlen.trans_le hbound) hE
      rw [hlen] at hm htake' hE'
      rw [hm, ok_bind, htake']
      split
      · exact fail_ne_ok
      · rename_i hsame
        rw [not_or, not_ne_iff, not_ne_iff] at hsame
        have hdiffer : Rest.bytes (other.drop expected.length) ≠ .bytes (content.drop expected.length) := by
          intro heq
          refine hrest (congrArg Rest.bytes ?_)
          rw [← List.take_append_drop expected.length other, Rest.bytes.inj heq, ← hsame.2, List.take_append_drop]
        by_cases hzero : min content.length expected.length = 0
        · -- Both are at their end, so they do not differ.
          refine absurd (congrArg Rest.bytes ?_) hdiffer
          rw [List.drop_eq_nil_of_le (by omega), List.drop_eq_nil_of_le (by omega)]
        · rw [if_neg hzero]
          exact ih hD' hE' ((hactual.trans hlen).trans hexpected.symm) (hpos.trans_eq hexpected.symm)
            (hexpected.trans_le hbound) hdiffer
    | broken count =>
      rcases h'.readChunk_broken (hlen.trans_le hbound) hE with ⟨stop, hstop⟩ | ⟨hm, hactual, count', -, hE'⟩
      · rw [hstop]
        nofun
      · rw [hm, ok_bind]
        split
        · exact fail_ne_ok
        · rename_i hsame
          rw [not_or, not_ne_iff, not_ne_iff] at hsame
          rw [if_neg (by omega)]
          exact ih hD' hE' ((hactual.trans hlen).trans hexpected.symm) (hpos.trans_eq hexpected.symm)
            (hexpected.trans_le hbound) nofun

end Streams

section
variable [Target] {remaining chunk : Nat} {sourceBuffer releaseBuffer : Bytes} {source' : σ} {asset' : τ}

theorem matchLoop_zero : matchLoop left source asset 0 sourceBuffer releaseBuffer =
    .ok (true, sourceBuffer, releaseBuffer, source, asset) := by
  cases left with
  | zero => rfl
  | succ left => rfl

theorem matchLoop_step (hremaining : 0 < remaining) (hchunk : min remaining sourceBuffer.length = chunk)
    (hsmall : chunk < usizeSize) (hle : chunk ≤ releaseBuffer.length)
    (hsource : Read.readExact source (sourceBuffer.take chunk) = (.ok (), expected, source'))
    (hasset : Read.readExact asset (releaseBuffer.take chunk) = (.ok (), actual, asset')) :
    matchLoop (left + 1) source asset remaining sourceBuffer releaseBuffer =
      if expected ≠ actual then
        .ok (false, expected ++ sourceBuffer.drop chunk, actual ++ releaseBuffer.drop chunk, source', asset')
      else matchLoop left source' asset' (remaining - chunk) (expected ++ sourceBuffer.drop chunk)
        (actual ++ releaseBuffer.drop chunk) := by
  subst hchunk
  rw [matchLoop, if_pos hremaining]
  simp only [if_neg (Nat.not_le.2 hsmall), hsource, ioResult, ok_bind, if_neg (Nat.not_lt.2 hle), hasset]
  rfl

theorem matchLoop_failed (hremaining : 0 < remaining) (hchunk : min remaining sourceBuffer.length = chunk) {stop : Stop IoKind}
    (hsource : Read.readExact source (sourceBuffer.take chunk) = (.ok (), expected, source'))
    (hasset : (Read.readExact asset (releaseBuffer.take chunk)).1 = .error stop) (out : Bool × Bytes × Bytes × σ × τ) :
    matchLoop (left + 1) source asset remaining sourceBuffer releaseBuffer ≠ .ok out := by
  subst hchunk
  rw [matchLoop, if_pos hremaining]
  rcases hread : Read.readExact asset (releaseBuffer.take (min remaining sourceBuffer.length)) with ⟨result, bytes, asset'⟩
  rw [hread] at hasset
  obtain rfl : result = .error stop := hasset
  simp only [hsource, hread, ioResult, ok_bind]
  split
  · nofun
  · split
    · nofun
    · rcases stop with kind | what
      · nofun
      · nofun

/-- The verdict on two streams of the same length, in whatever pieces they come, and what the loop leaves behind. -/
theorem Streams.matchLoop_spec (h : Streams bound D) (h' : Streams bound E) (hD : D source (.bytes content)) (hE : E asset rest)
    (hcontent : content.length = remaining) (hrest : rest.length = remaining) (hleft : remaining ≤ left)
    (hlen : releaseBuffer.length = sourceBuffer.length) (hpos : 0 < sourceBuffer.length)
    (hbound : sourceBuffer.length ≤ bound) (hsmall : sourceBuffer.length < usizeSize) :
    (∀ same sourceBuffer' releaseBuffer' source' asset', matchLoop left source asset remaining sourceBuffer releaseBuffer =
        .ok (same, sourceBuffer', releaseBuffer', source', asset') →
      sourceBuffer'.length = sourceBuffer.length ∧ releaseBuffer'.length = sourceBuffer.length ∧ (∃ rest', E asset' rest') ∧
        (same = true ↔ rest = .bytes content)) ∧
    (¬ rest.Broken → ∃ out, matchLoop left source asset remaining sourceBuffer releaseBuffer = .ok out) := by
  induction left generalizing source asset content rest remaining sourceBuffer releaseBuffer with
  | zero =>
    have hzero : remaining = 0 := Nat.le_zero.1 hleft
    subst hzero
    obtain rfl : content = [] := List.eq_nil_of_length_eq_zero hcontent
    obtain rfl := h'.eq_of_length_zero hE hrest
    rw [matchLoop_zero]
    refine ⟨?_, fun _ => ⟨_, rfl⟩⟩
    rintro same _ _ _ _ ⟨⟩
    exact ⟨rfl, hlen, ⟨_, hE⟩, iff_of_true rfl rfl⟩
  | succ left ih =>
    by_cases hzero : remaining = 0
    · subst hzero
      obtain rfl : content = [] := List.eq_nil_of_length_eq_zero hcontent
      obtain rfl := h'.eq_of_length_zero hE hrest
      rw [matchLoop_zero]
      refine ⟨?_, fun _ => ⟨_, rfl⟩⟩
      rintro same _ _ _ _ ⟨⟩
      exact ⟨rfl, hlen, ⟨_, hE⟩, iff_of_true rfl rfl⟩
    · have hremaining := Nat.pos_of_ne_zero hzero
      obtain ⟨chunk, hchunk⟩ : ∃ chunk, min remaining sourceBuffer.length = chunk := ⟨_, rfl⟩
      have htake : (sourceBuffer.take chunk).length = chunk := by
        rw [List.length_take]
        omega
      have htake' : (releaseBuffer.take chunk).length = chunk := by
        rw [List.length_take]
        omega
      rcases h.readExact_bytes (show (sourceBuffer.take chunk).length ≤ bound by omega) hD with
        ⟨-, hok, hexpected, hD'⟩ | ⟨hshort, -⟩
      · rw [htake] at hexpected hD'
        have hsource : Read.readExact source (sourceBuffer.take chunk) = (.ok (), content.take chunk, _) :=
          Prod.ext hok (Prod.ext hexpected rfl)
        have hcontent' : (content.drop chunk).length = remaining - chunk := by
          rw [List.length_drop, hcontent]
        have hfront : (content.take chunk ++ sourceBuffer.drop chunk).length = sourceBuffer.length := by
          rw [List.length_append, List.length_take, List.length_drop]
          omega
        have hrelease {actual : Bytes} (hactual : actual.length = chunk) :
            (actual ++ releaseBuffer.drop chunk).length = sourceBuffer.length := by
          rw [List.length_append, List.length_drop]
          omega
        cases rest with
        | bytes other =>
          have hother : other.length = remaining := hrest
          rcases h'.readExact_bytes (show (releaseBuffer.take chunk).length ≤ bound by omega) hE with
            ⟨-, hok', hactual, hE'⟩ | ⟨hshort, -⟩
          · rw [htake'] at hactual hE'
            have hasset : Read.readExact asset (releaseBuffer.take chunk) = (.ok (), other.take chunk, _) :=
              Prod.ext hok' (Prod.ext hactual rfl)
            have hlen' : (other.take chunk).length = chunk := by
              rw [List.length_take]
              omega
            rw [matchLoop_step hremaining hchunk (by omega) (by omega) hsource hasset]
            by_cases hsame : content.take chunk = other.take chunk
            · rw [if_neg (not_not.2 hsame)]
              obtain ⟨hspec, hends⟩ := ih hD' hE' hcontent' (by
                  show (other.drop chunk).length = _
                  rw [List.length_drop, hother]) (by omega) ((hrelease hlen').trans hfront.symm) (by omega) (by omega)
                (by omega)
              refine ⟨fun same _ _ _ _ hloop => ?_, fun _ => hends nofun⟩
              obtain ⟨hfirst, hsecond, hstreams, hverdict⟩ := hspec same _ _ _ _ hloop
              refine ⟨hfirst.trans hfront, hsecond.trans hfront, hstreams, hverdict.trans ?_⟩
              rw [Rest.bytes.injEq, Rest.bytes.injEq]
              constructor
              · intro hdrop
                rw [← List.take_append_drop chunk other, ← hsame, hdrop, List.take_append_drop]
              · rintro rfl
                rfl
            · rw [if_pos hsame]
              refine ⟨?_, fun _ => ⟨_, rfl⟩⟩
              rintro same _ _ _ _ ⟨⟩
              refine ⟨hfront, hrelease hlen', ⟨_, hE'⟩, iff_of_false nofun fun heq => hsame ?_⟩
              rw [Rest.bytes.inj heq]
          · omega
        | broken count =>
          have hcount : count = remaining := hrest
          refine ⟨?_, fun hsound => absurd ⟨count, rfl⟩ hsound⟩
          rcases h'.readExact_broken (show (releaseBuffer.take chunk).length ≤ bound by omega) hE with
            ⟨stop, hfailed⟩ | ⟨hok', hlen', count', hcount', hE'⟩
          · intro same _ _ _ _ hloop
            exact absurd hloop (matchLoop_failed hremaining hchunk hsource hfailed _)
          · rw [htake'] at hlen' hcount'
            have hasset : Read.readExact asset (releaseBuffer.take chunk) = (.ok (), _, _) := Prod.ext hok' rfl
            rw [matchLoop_step hremaining hchunk (by omega) (by omega) hsource hasset]
            split
            · rintro same _ _ _ _ ⟨⟩
              exact ⟨hfront, hrelease hlen', ⟨_, hE'⟩, iff_of_false nofun nofun⟩
            · intro same _ _ _ _ hloop
              obtain ⟨hspec, -⟩ := ih hD' hE' hcontent' (by
                  show count' = _
                  omega) (by omega) ((hrelease hlen').trans hfront.symm) (by omega) (by omega) (by omega)
              obtain ⟨hfirst, hsecond, hstreams, hverdict⟩ := hspec same _ _ _ _ hloop
              exact ⟨hfirst.trans hfront, hsecond.trans hfront, hstreams, hverdict.trans (iff_of_false nofun nofun)⟩
      · omega
end
end

/-! ### The comparers on a coherent package -/

/-- An open file with the stamp of a source, before and after, and its content; its reads are short or interrupted, and do
not fail otherwise. -/
structure SourceFile.Shown (source : SourceFile) (content : Bytes) (file : OpenSource) : Prop where
  opened : file.opened = .ok (some source.stamp)
  closed : file.closed = .ok (some source.stamp)
  bytes : file.file.content = content
  benign : ∀ outcome ∈ file.file.script, outcome.Benign
  length : content.length = source.len.toNat
  notKey : hasKeyMagic content = false

def Host.Shows (host : Host) (source : SourceFile) (content : Bytes) : Prop :=
  ∃ file, host source.hostPath = .ok file ∧ source.Shown content file

theorem SourceFile.validateMetadata_eq_ok {source : SourceFile} {metadata : Except IoKind (Option SourceStamp)}
    (h : metadata = .ok (some source.stamp)) : source.validateMetadata metadata = .ok () := by
  subst h
  exact if_neg (not_not.2 rfl)

/-- Opening a source finds its content, whatever its first bytes come in. -/
theorem Host.Shows.openScripted {host : Host} {source : SourceFile} {content : Bytes} (h : host.Shows source content) :
    ∃ file reader, source.openScripted host = .ok (file, reader) ∧ source.Shown content file ∧
      Scripted content reader (.bytes content) := by
  obtain ⟨file, hfile, hshown⟩ := h
  have hstart : Scripted content ⟨file.file, 0⟩ (.bytes content) := ⟨hshown.bytes, hshown.benign, rfl⟩
  rcases hread : Read.readExact (⟨file.file, 0⟩ : ScriptedReader) (zeros 8) with ⟨result, magic, reader⟩
  have hmagic : (result = .ok () ∧ isHakutakuKeyMagic magic = false ∨ result = .error (.err .unexpectedEof)) ∧
      ∃ rest, Scripted content reader rest := by
    rcases (Streams.scripted 8 content).readExact_bytes (show (zeros 8).length ≤ 8 from le_rfl) hstart with
      ⟨hlong, hok, hbytes, hD⟩ | ⟨-, heof, hD⟩
    · rw [hread] at hok hbytes hD
      obtain rfl : result = .ok () := hok
      obtain rfl : magic = content.take 8 := hbytes
      have hkey := hshown.notKey
      simp only [hasKeyMagic, Bool.and_eq_false_iff, decide_eq_false_iff_not] at hkey
      exact ⟨.inl ⟨rfl, hkey.resolve_left (not_not.2 hlong)⟩, _, hD⟩
    · rw [hread] at heof hD
      exact ⟨.inr heof, _, hD⟩
  obtain ⟨hwhich, rest, hcontent, hbenign, -⟩ := hmagic
  refine ⟨file, ⟨reader.file, 0⟩, ?_, hshown, hcontent, hbenign, rfl⟩
  rw [SourceFile.openScripted, hfile]
  simp only [source.validateMetadata_eq_ok hshown.opened, hread, ok_bind]
  rcases hwhich with ⟨rfl, hkey⟩ | rfl
  · simp only [hkey]
    rfl
  · rfl

section
variable [Crypto] [Target] {P : PackageInner} {host : Host} {c c' : Comparison} {source : SourceFile} {content : Bytes}
  {files : List SourceFile}

/-- The asset under the path has these bytes. -/
def PackageInner.Holds (P : PackageInner) (path : String) (content : Bytes) : Prop :=
  ∃ asset, P.asset path = .ok asset ∧ asset.contents = .ok content

/-- What comparers keep: the size of their buffers, and a sound package whose backend does not fail. -/
structure Comparison.Ok (P : PackageInner) (c : Comparison) : Prop where
  expected : c.expected.length = compareBufferBytes
  actual : c.actual.length = compareBufferBytes
  shared : P.SoundFor (fun _ => False) c.shared

theorem Comparison.Ok.new {shared : Shared} (h : P.SoundFor (fun _ => False) shared) : (Comparison.new shared).Ok P where
  expected := length_zeros _
  actual := length_zeros _
  shared := h

omit [Crypto] in
theorem compareBufferBytes_lt : compareBufferBytes < usizeSize :=
  (show compareBufferBytes < 2 ^ 32 by decide).trans_le le_usizeSize

theorem verifySource_ok (hP : P.Coherent) (hc : c.Ok P) (hsource : host.Shows source content)
    (hasset : P.Holds source.logicalPath content) : ∃ c', verifySource P host c source = .ok c' ∧ c'.Ok P := by
  obtain ⟨file, reader, hopen, hshown, hreader⟩ := hsource.openScripted
  obtain ⟨asset, hfound, hcontents⟩ := hasset
  have hwalking : Walking ⟨.new asset, c.shared⟩ (.bytes content) :=
    Asset.restFrom_eq_bytes.2 hcontents ▸ Walking.new asset hc.shared
  obtain ⟨expected, actual, _, cursor, hloop, hexpected, hactual, hend⟩ := (Streams.scripted compareBufferBytes content).compareLoop_equal
    (.cursor hP compareBufferBytes_lt) (.invalidInput ("verification mismatch: " ++ source.logicalPath))
    (file.file.content.length + 1) hreader hwalking (hc.actual.trans hc.expected.symm)
    (hc.expected.symm ▸ by decide) hc.expected.le (by rw [hshown.bytes]; exact Nat.lt_succ_self _)
  refine ⟨⟨expected, actual, cursor.shared⟩, ?_, hexpected.trans hc.expected, hactual.trans hc.actual, hend.shared⟩
  rw [verifySource]
  simp only [hopen, ok_bind, coreResult_eq_ok.2 hfound, hloop, source.validateMetadata_eq_ok hshown.closed]
  rfl

theorem verifySource_differs (hP : P.Coherent) (hc : c.Ok P) (hsource : host.Shows source content)
    (hasset : ¬ P.Holds source.logicalPath content) (c' : Comparison) : verifySource P host c source ≠ .ok c' := by
  obtain ⟨file, reader, hopen, hshown, hreader⟩ := hsource.openScripted
  intro hok
  rw [verifySource] at hok
  simp only [hopen, ok_bind, bind_eq_ok, coreResult_eq_ok] at hok
  obtain ⟨asset, hfound, ⟨expected, actual, _, cursor⟩, hloop, -⟩ := hok
  refine (Streams.scripted compareBufferBytes content).compareLoop_differ (.cursor hP compareBufferBytes_lt) hreader
    (Walking.new asset hc.shared) (hc.actual.trans hc.expected.symm) (hc.expected.symm ▸ by decide) hc.expected.le
    (fun hrest => hasset ⟨asset, hfound, Asset.restFrom_eq_bytes.1 hrest⟩) _ hloop

/-- The sources in order: all of them are compared iff every one is in the package. -/
theorem verifySources_iff (hP : P.Coherent) (hc : c.Ok P) {content : SourceFile → Bytes}
    (hsources : ∀ source ∈ files, host.Shows source (content source)) :
    (∃ c', files.foldlM (verifySource P host) c = .ok c') ↔
      ∀ source ∈ files, P.Holds source.logicalPath (content source) := by
  induction files generalizing c with
  | nil => exact iff_of_true ⟨c, rfl⟩ fun _ hmem => absurd hmem List.not_mem_nil
  | cons source files ih =>
    rw [List.forall_mem_cons] at hsources ⊢
    simp only [List.foldlM_cons, bind_eq_ok]
    constructor
    · rintro ⟨c', c₁, hfirst, hrest⟩
      have hasset : P.Holds source.logicalPath (content source) :=
        by_contra fun hdiffers => verifySource_differs hP hc hsources.1 hdiffers c₁ hfirst
      obtain ⟨c₂, hok, hc₂⟩ := verifySource_ok hP hc hsources.1 hasset
      obtain rfl : c₂ = c₁ := Except.ok.inj (hok.symm.trans hfirst)
      exact ⟨hasset, (ih hc₂ hsources.2).1 ⟨c', hrest⟩⟩
    · rintro ⟨hasset, hassets⟩
      obtain ⟨c₁, hok, hc₁⟩ := verifySource_ok hP hc hsources.1 hasset
      obtain ⟨c', hrest⟩ := (ih hc₁ hsources.2).2 hassets
      exact ⟨c', c₁, hok, hrest⟩

/-- The verdict on a source that is as long as its asset, and what is left behind it. -/
theorem assetMatchesSource_spec (hP : P.Coherent) (hc : c.Ok P) (hsource : host.Shows source content) {asset : Asset P}
    (hfound : P.asset source.logicalPath = .ok asset) (hlen : asset.len = source.len.toNat) :
    (∀ same c', assetMatchesSource P host c source = .ok (same, c') → c'.Ok P ∧ (same = true ↔ asset.contents = .ok content)) ∧
      ((∃ bytes, asset.contents = .ok bytes) → ∃ out, assetMatchesSource P host c source = .ok out) := by
  obtain ⟨file, reader, hopen, hshown, hreader⟩ := hsource.openScripted
  have hbuffered : Buffered compareBufferBytes (Scripted content) ⟨reader, [], compareBufferBytes⟩ (.bytes content) :=
    ⟨⟨show 0 < compareBufferBytes by decide, le_refl _⟩, _, hreader, rfl⟩
  have hwalking := Walking.new asset hc.shared
  have hrest : (asset.restFrom 0 (none, none)).length = source.len.toNat := by
    rcases @Asset.restFrom_length _ _ _ asset 0 (none, none) with ⟨bytes, hbytes, hcount⟩ | ⟨hbroken, -⟩
    · rw [hbytes]
      exact hcount.trans hlen
    · rw [hbroken]
      exact hlen
  obtain ⟨hspec, hends⟩ := (Streams.scripted compareBufferBytes content).buffered.matchLoop_spec
    (.cursor hP compareBufferBytes_lt) hbuffered hwalking hshown.length hrest (le_refl _)
    (hc.actual.trans hc.expected.symm) (hc.expected.symm ▸ by decide) hc.expected.le
    (hc.expected.trans_lt compareBufferBytes_lt)
  have hunfold : assetMatchesSource P host c source =
      matchLoop source.len.toNat (⟨reader, [], compareBufferBytes⟩ : BufReader ScriptedReader)
        (⟨.new asset, c.shared⟩ : CursorReader P) source.len.toNat c.expected c.actual >>= fun out =>
          .ok (out.1, ⟨out.2.1, out.2.2.1, out.2.2.2.2.shared⟩) := by
    rw [assetMatchesSource]
    simp only [hopen, ok_bind, coreResult_eq_ok.2 hfound, source.validateMetadata_eq_ok hshown.closed]
    refine bind_congr_ok fun ⟨same, expected, actual, _, cursor⟩ _ => ?_
    cases same with
    | false => rfl
    | true => rfl
  rw [hunfold]
  constructor
  · intro same c' hok
    obtain ⟨⟨same', expected, actual, _, cursor⟩, hloop, hout⟩ := bind_eq_ok.1 hok
    obtain ⟨rfl, rfl⟩ := Prod.mk.inj (Except.ok.inj hout)
    obtain ⟨hexpected, hactual, ⟨rest', hend⟩, hverdict⟩ := hspec _ _ _ _ _ hloop
    exact ⟨⟨hexpected.trans hc.expected, hactual.trans hc.expected, hend.shared⟩,
      hverdict.trans Asset.restFrom_eq_bytes⟩
  · rintro ⟨bytes, hbytes⟩
    obtain ⟨out, hloop⟩ := hends fun ⟨count, hbroken⟩ => by
      rw [Asset.restFrom_eq_bytes.2 hbytes] at hbroken
      cases hbroken
    rw [hloop]
    exact ⟨_, rfl⟩

end

end Hakutaku
