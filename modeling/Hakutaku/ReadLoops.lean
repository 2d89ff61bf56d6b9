import Hakutaku.Base

/-!
# Loops over partial reads (`io.rs`, `packer.rs`)

`read_exact_with` and `read_chunk`, which call a read function until a buffer is full. What the file behind it does is a
script: at every call it delivers some of the bytes it is asked for, or fails.
-/

namespace Hakutaku
open Wire

/-! ### Scripted files -/

/-- What a file does at a call: deliver at most this many bytes, or fail. -/
inductive ReadOutcome
  | deliver (count : Nat)
  | fail (kind : IoKind)
deriving DecidableEq

/-- A call of a read function: what was asked for, and the answer. No byte means the end of the file. -/
structure ReadCall where
  offset : Nat
  requested : Nat
  answer : Except IoKind Bytes

/-- A file and what it does at its next calls, all it is asked for behind the script. `calls` are those so far. -/
structure ScriptedFile where
  content : Bytes
  script : List ReadOutcome
  calls : List ReadCall

namespace ScriptedFile

/-- The bytes the next call delivers: no others than those of the content. -/
def answer (f : ScriptedFile) (offset requested : Nat) : Except IoKind Bytes :=
  match f.script.head? with
  | none => .ok (slice f.content offset requested)
  | some (.deliver count) => .ok (slice f.content offset (min count requested))
  | some (.fail kind) => .error kind

/-- The file behind a call. -/
def called (f : ScriptedFile) (offset requested : Nat) : ScriptedFile where
  content := f.content
  script := f.script.tail
  calls := f.calls ++ [⟨offset, requested, f.answer offset requested⟩]

/-- One positioned read into a destination. -/
def readAt (f : ScriptedFile) (destination : Bytes) (offset : Nat) : Except IoKind Nat × Bytes × ScriptedFile :=
  match f.answer offset destination.length with
  | .ok bytes => (.ok bytes.length, bytes ++ destination.drop bytes.length, f.called offset destination.length)
  | .error kind => (.error kind, destination, f.called offset destination.length)

end ScriptedFile

/-! ### `read_exact_with` -/

/-- The loop of `read_exact_with`. A pass takes an outcome from the script or fills a byte, so one more than the outcomes
and bytes left are enough. -/
def readExactLoop : Nat → ScriptedFile → Nat → Bytes → Result Unit × Bytes × ScriptedFile
  | 0, f, _, destination => (panicked "more passes", destination, f)
  | left + 1, f, offset, destination =>
    if destination = [] then (.ok (), [], f)
    else
      match f.readAt destination offset with
      | (.ok 0, destination, f) => (fail (.io .unexpectedEof), destination, f)
      | (.ok (read + 1), destination, f) =>
        match checkedAdd u64Size offset (read + 1) with
        | none => (fail .invalidRange, destination, f)
        | some next =>
          let (result, rest, f) := readExactLoop left f next (destination.drop (read + 1))
          (result, destination.take (read + 1) ++ rest, f)
      | (.error .interrupted, destination, f) => readExactLoop left f offset destination
      | (.error kind, destination, f) => (fail (.io kind), destination, f)

def readExactWith (f : ScriptedFile) (offset : UInt64) (destination : Bytes) : Result Unit × Bytes × ScriptedFile :=
  readExactLoop (f.script.length + destination.length + 1) f offset.toNat destination

/-! ### `read_chunk` -/

/-- `std::io::Read`. -/
class Read (σ : Type) where
  /-- A read into a buffer: the number of bytes, the buffer and the reader behind the call. -/
  read : σ → Bytes → Except (Stop IoKind) Nat × Bytes × σ
  /-- No more of its calls than this are interrupted. -/
  interruptions : σ → Nat

section
variable {σ : Type} [Read σ]

/-- The loop of `read_chunk`, with the buffer behind the filled part. A pass is interrupted or fills a byte, or is the
last. -/
def readChunkLoop : Nat → σ → Nat → Bytes → PackResult Nat × Bytes × σ
  | 0, reader, _, rest => (panicked "more passes", rest, reader)
  | left + 1, reader, filled, rest =>
    if rest = [] then (.ok filled, [], reader)
    else
      match Read.read reader rest with
      | (.ok 0, rest, reader) => (.ok filled, rest, reader)
      | (.ok (read + 1), rest, reader) =>
        let (result, rest', reader) := readChunkLoop left reader (filled + (read + 1)) (rest.drop (read + 1))
        (result, rest.take (read + 1) ++ rest', reader)
      | (.error (.err .interrupted), rest, reader) => readChunkLoop left reader filled rest
      | (.error (.err kind), rest, reader) => (fail (.io kind), rest, reader)
      | (.error (.panic what), rest, reader) => (panicked what, rest, reader)

def readChunk (reader : σ) (buffer : Bytes) : PackResult Nat × Bytes × σ :=
  readChunkLoop (Read.interruptions reader + buffer.length + 1) reader 0 buffer

end

/-- An open file with its position. -/
structure ScriptedReader where
  file : ScriptedFile
  position : Nat

instance : Read ScriptedReader where
  read r buffer :=
    match r.file.readAt buffer r.position with
    | (.ok count, buffer, file) => (.ok count, buffer, ⟨file, r.position + count⟩)
    | (.error kind, buffer, file) => (.error (.err kind), buffer, ⟨file, r.position⟩)
  interruptions r := r.file.script.length

/-! ### What the calls come to -/

/-- The error a call ends `read_exact_with` with, if it does. -/
def ReadCall.stopsExact (call : ReadCall) : Option Error :=
  match call.answer with
  | .ok [] => some (.io .unexpectedEof)
  | .ok bytes => if u64Size ≤ call.offset + bytes.length then some .invalidRange else none
  | .error .interrupted => none
  | .error kind => some (.io kind)

/-- The error a call ends `read_chunk` with, if it does. -/
def ReadCall.stopsChunk (call : ReadCall) : Option IoKind :=
  match call.answer with
  | .ok _ => none
  | .error .interrupted => none
  | .error kind => some kind

/-- Each call takes the next outcome of the script. -/
def Served (content : Bytes) : List ReadOutcome → List ReadCall → Prop
  | _, [] => True
  | script, call :: calls =>
    call.answer = ScriptedFile.answer ⟨content, script, []⟩ call.offset call.requested ∧ Served content script.tail calls

/-- Calls that fill the first `filled` bytes of a buffer with those of the file from `offset` on, and ask for nothing but
what is missing of it. -/
structure Fills (f f' : ScriptedFile) (offset : Nat) (buffer buffer' : Bytes) (calls : List ReadCall) (filled : Nat) : Prop
    where
  file : f' = ⟨f.content, f.script.drop calls.length, f.calls ++ calls⟩
  served : Served f.content f.script calls
  inside : ∀ call ∈ calls, offset ≤ call.offset ∧ call.offset + call.requested = offset + buffer.length ∧ 0 < call.requested
  le_buffer : filled ≤ buffer.length
  le_content : filled ≤ f.content.length - offset
  buffer_eq : buffer' = slice f.content offset filled ++ buffer.drop filled

section
variable {f f' : ScriptedFile} {offset requested filled : Nat} {buffer buffer' bytes : Bytes} {calls : List ReadCall}
  {kind : IoKind}

theorem ScriptedFile.answer_eq_ok (h : f.answer offset requested = .ok bytes) :
    bytes = slice f.content offset bytes.length ∧ bytes.length ≤ requested ∧ bytes.length ≤ f.content.length - offset := by
  have hslice {count : Nat} (hcount : count ≤ requested) (hbytes : slice f.content offset count = bytes) :
      bytes = slice f.content offset bytes.length ∧ bytes.length ≤ requested ∧
        bytes.length ≤ f.content.length - offset := by
    subst hbytes
    refine ⟨?_, ?_, ?_⟩
    · simp [slice]
    · simp only [slice, List.length_take]
      omega
    · simp only [slice, List.length_take, List.length_drop]
      omega
  unfold ScriptedFile.answer at h
  split at h
  · exact hslice (le_refl _) (Except.ok.inj h)
  · exact hslice (min_le_right _ _) (Except.ok.inj h)
  · cases h

/-- A call that fails takes its outcome from the script. -/
theorem ScriptedFile.lt_of_answer_error (h : f.answer offset requested = .error kind) :
    f.script.tail.length < f.script.length := by
  unfold ScriptedFile.answer at h
  rcases hscript : f.script with _ | ⟨outcome, rest⟩
  · rw [hscript] at h
    cases h
  · exact Nat.lt_succ_self _

theorem ScriptedFile.readAt_ok (h : f.answer offset buffer.length = .ok bytes) :
    f.readAt buffer offset = (.ok bytes.length, bytes ++ buffer.drop bytes.length, f.called offset buffer.length) := by
  unfold ScriptedFile.readAt
  rw [h]

theorem ScriptedFile.readAt_error (h : f.answer offset buffer.length = .error kind) :
    f.readAt buffer offset = (.error kind, buffer, f.called offset buffer.length) := by
  unfold ScriptedFile.readAt
  rw [h]

namespace Fills

theorem nil (f : ScriptedFile) (offset : Nat) (buffer : Bytes) : Fills f f offset buffer buffer [] 0 where
  file := by simp
  served := trivial
  inside := nofun
  le_buffer := Nat.zero_le _
  le_content := Nat.zero_le _
  buffer_eq := by simp

/-- The first call delivers some bytes, the others go on behind them. -/
theorem deliver (hanswer : f.answer offset buffer.length = .ok bytes) (hbuffer : buffer ≠ [])
    (h : Fills (f.called offset buffer.length) f' (offset + bytes.length) (buffer.drop bytes.length) buffer' calls filled) :
    Fills f f' offset buffer (bytes ++ buffer') (⟨offset, buffer.length, .ok bytes⟩ :: calls) (bytes.length + filled) := by
  obtain ⟨hbytes, hle, hthere⟩ := ScriptedFile.answer_eq_ok hanswer
  have hlen := h.le_buffer
  have hcontent : filled ≤ f.content.length - (offset + bytes.length) := h.le_content
  rw [List.length_drop] at hlen
  refine ⟨?_, ⟨hanswer.symm, h.served⟩, ?_, by omega, by omega, ?_⟩
  · rw [h.file]
    simp [ScriptedFile.called, hanswer]
  · intro call hcall
    rcases List.mem_cons.1 hcall with rfl | hcall
    · exact ⟨le_refl _, rfl, List.length_pos_iff.2 hbuffer⟩
    · obtain ⟨hge, hstop, hpos⟩ := h.inside call hcall
      rw [List.length_drop] at hstop
      exact ⟨by omega, by omega, hpos⟩
  · rw [h.buffer_eq, slice_add, ← hbytes, List.drop_drop, List.append_assoc]
    rfl

/-- The first call fails, the others go on in its place. -/
theorem error (hanswer : f.answer offset buffer.length = .error kind) (hbuffer : buffer ≠ [])
    (h : Fills (f.called offset buffer.length) f' offset buffer buffer' calls filled) :
    Fills f f' offset buffer buffer' (⟨offset, buffer.length, .error kind⟩ :: calls) filled := by
  refine ⟨?_, ⟨hanswer.symm, h.served⟩, ?_, h.le_buffer, h.le_content, h.buffer_eq⟩
  · rw [h.file]
    simp [ScriptedFile.called, hanswer]
  · intro call hcall
    rcases List.mem_cons.1 hcall with rfl | hcall
    · exact ⟨le_refl _, rfl, List.length_pos_iff.2 hbuffer⟩
    · exact h.inside call hcall

/-- A last call that delivers some bytes. -/
theorem last (hanswer : f.answer offset buffer.length = .ok bytes) (hbuffer : buffer ≠ []) :
    Fills f (f.called offset buffer.length) offset buffer (bytes ++ buffer.drop bytes.length)
      [⟨offset, buffer.length, .ok bytes⟩] bytes.length :=
  deliver hanswer hbuffer (.nil _ _ _)

end Fills

theorem readExactLoop_spec (left : Nat) (f : ScriptedFile) (offset : Nat) (destination : Bytes)
    (hleft : f.script.length + destination.length < left) :
    ∃ calls filled, Fills f (readExactLoop left f offset destination).2.2 offset destination
        (readExactLoop left f offset destination).2.1 calls filled ∧
      (readExactLoop left f offset destination).1 =
        (match calls.findSome? ReadCall.stopsExact with | some e => fail e | none => .ok ()) ∧
      ((readExactLoop left f offset destination).1 = .ok () → filled = destination.length) := by
  induction left generalizing f offset destination with
  | zero => exact absurd hleft (Nat.not_lt_zero _)
  | succ left ih =>
    rw [readExactLoop]
    by_cases hdest : destination = []
    · rw [if_pos hdest]
      subst hdest
      exact ⟨[], 0, .nil f offset [], rfl, fun _ => rfl⟩
    · rw [if_neg hdest]
      rcases hanswer : f.answer offset destination.length with kind | bytes
      · rw [f.readAt_error hanswer]
        have hscript : (f.called offset destination.length).script.length < f.script.length := f.lt_of_answer_error hanswer
        cases kind with
        | interrupted =>
          obtain ⟨calls, filled, hfills, hresult, hok⟩ := ih (f.called offset destination.length) offset destination (by omega)
          exact ⟨_, filled, hfills.error hanswer hdest, hresult, hok⟩
        | _ => exact ⟨_, 0, (Fills.nil _ _ _).error hanswer hdest, rfl, fun h => absurd h fail_ne_ok⟩
      · rw [f.readAt_ok hanswer]
        have hscript : (f.called offset destination.length).script.length ≤ f.script.length := by
          simp [ScriptedFile.called]
        rcases bytes with _ | ⟨byte, more⟩
        · exact ⟨_, 0, .last hanswer hdest, rfl, fun h => absurd h fail_ne_ok⟩
        · have hstops : (⟨offset, destination.length, .ok (byte :: more)⟩ : ReadCall).stopsExact =
              if u64Size ≤ offset + (more.length + 1) then some .invalidRange else none := rfl
          have htake : ((byte :: more) ++ destination.drop (more.length + 1)).take (more.length + 1) = byte :: more :=
            List.take_left' rfl
          have hdrop : ((byte :: more) ++ destination.drop (more.length + 1)).drop (more.length + 1) =
              destination.drop (more.length + 1) := List.drop_left' rfl
          rcases hnext : checkedAdd u64Size offset (more.length + 1) with _ | next
          · have hover : u64Size ≤ offset + (more.length + 1) := by
              simpa [checkedAdd] using hnext
            rw [if_pos hover] at hstops
            simp only [List.length_cons, hnext]
            refine ⟨_, _, .last hanswer hdest, ?_, fun h => absurd h fail_ne_ok⟩
            rw [List.findSome?_cons, hstops]
          · obtain ⟨hlt, rfl⟩ := checkedAdd_eq_some.1 hnext
            rw [if_neg (Nat.not_le.2 hlt)] at hstops
            obtain ⟨-, hmore, -⟩ := ScriptedFile.answer_eq_ok hanswer
            obtain ⟨calls, filled, hfills, hresult, hok⟩ := ih (f.called offset destination.length)
              (offset + (more.length + 1)) (destination.drop (more.length + 1)) (by
                rw [List.length_drop]
                simp only [List.length_cons] at hmore
                omega)
            simp only [List.length_cons, hnext, htake, hdrop]
            refine ⟨_, _, hfills.deliver hanswer hdest, ?_, fun h => ?_⟩
            · rw [List.findSome?_cons, hstops]
              exact hresult
            · rw [hok h, List.length_drop]
              simp only [List.length_cons] at hmore ⊢
              omega

variable {r : ScriptedReader}

theorem ScriptedReader.read_ok (h : r.file.answer r.position buffer.length = .ok bytes) :
    Read.read r buffer = (.ok bytes.length, bytes ++ buffer.drop bytes.length,
      ⟨r.file.called r.position buffer.length, r.position + bytes.length⟩) := by
  simp only [Read.read, r.file.readAt_ok h]

theorem ScriptedReader.read_error (h : r.file.answer r.position buffer.length = .error kind) :
    Read.read r buffer = (.error (.err kind), buffer, ⟨r.file.called r.position buffer.length, r.position⟩) := by
  simp only [Read.read, r.file.readAt_error h]

theorem readChunkLoop_spec (left : Nat) (r : ScriptedReader) (before : Nat) (rest : Bytes)
    (hleft : r.file.script.length + rest.length < left) :
    ∃ calls filled, Fills r.file (readChunkLoop left r before rest).2.2.file r.position rest
        (readChunkLoop left r before rest).2.1 calls filled ∧
      (readChunkLoop left r before rest).2.2.position = r.position + filled ∧
      (readChunkLoop left r before rest).1 =
        (match calls.findSome? ReadCall.stopsChunk with | some kind => fail (.io kind) | none => .ok (before + filled)) ∧
      (filled = rest.length ∨ ∃ call ∈ calls, call.answer = .ok [] ∨ call.stopsChunk ≠ none) := by
  induction left generalizing r before rest with
  | zero => exact absurd hleft (Nat.not_lt_zero _)
  | succ left ih =>
    rw [readChunkLoop]
    by_cases hrest : rest = []
    · rw [if_pos hrest]
      subst hrest
      exact ⟨[], 0, .nil _ _ [], rfl, rfl, .inl rfl⟩
    · rw [if_neg hrest]
      rcases hanswer : r.file.answer r.position rest.length with kind | bytes
      · rw [r.read_error hanswer]
        have hscript : (r.file.called r.position rest.length).script.length < r.file.script.length :=
          r.file.lt_of_answer_error hanswer
        cases kind with
        | interrupted =>
          obtain ⟨calls, filled, hfills, hposition, hresult, hend⟩ :=
            ih ⟨r.file.called r.position rest.length, r.position⟩ before rest (by
              show (r.file.called r.position rest.length).script.length + _ < _
              omega)
          refine ⟨_, filled, hfills.error hanswer hrest, hposition, hresult, hend.imp_right ?_⟩
          rintro ⟨call, hcall, hlast⟩
          exact ⟨call, List.mem_cons_of_mem _ hcall, hlast⟩
        | _ =>
          exact ⟨_, 0, (Fills.nil _ _ _).error hanswer hrest, rfl, rfl,
            .inr ⟨_, List.mem_singleton_self _, .inr (Option.some_ne_none _)⟩⟩
      · rw [r.read_ok hanswer]
        have hscript : (r.file.called r.position rest.length).script.length ≤ r.file.script.length := by
          simp [ScriptedFile.called]
        rcases bytes with _ | ⟨byte, more⟩
        · exact ⟨_, 0, .last hanswer hrest, rfl, rfl, .inr ⟨_, List.mem_singleton_self _, .inl rfl⟩⟩
        · have htake : ((byte :: more) ++ rest.drop (more.length + 1)).take (more.length + 1) = byte :: more :=
            List.take_left' rfl
          have hdrop : ((byte :: more) ++ rest.drop (more.length + 1)).drop (more.length + 1) = rest.drop (more.length + 1) :=
            List.drop_left' rfl
          obtain ⟨-, hmore, -⟩ := ScriptedFile.answer_eq_ok hanswer
          simp only [List.length_cons] at hmore
          obtain ⟨calls, filled, hfills, hposition, hresult, hend⟩ :=
            ih ⟨r.file.called r.position rest.length, r.position + (more.length + 1)⟩ (before + (more.length + 1))
              (rest.drop (more.length + 1)) (by
                rw [List.length_drop]
                show (r.file.called r.position rest.length).script.length + _ < _
                omega)
          simp only [List.length_cons, htake, hdrop]
          refine ⟨_, _, hfills.deliver hanswer hrest, ?_, ?_, ?_⟩
          · rw [hposition, List.length_cons, Nat.add_assoc]
          · rw [List.findSome?_cons]
            show _ = match calls.findSome? ReadCall.stopsChunk with | some kind => _ | none => _
            rw [hresult, List.length_cons, Nat.add_assoc]
          · rcases hend with hfull | ⟨call, hcall, hlast⟩
            · left
              rw [hfull, List.length_drop, List.length_cons]
              omega
            · exact .inr ⟨call, List.mem_cons_of_mem _ hcall, hlast⟩

end

end Hakutaku
