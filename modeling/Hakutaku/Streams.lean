import Hakutaku.ReadLoops

/-!
# Readers that stream a byte string (`std::io`)

`read_exact` and `BufReader` over any reader. A reader that streams a byte string delivers it in whatever pieces, with
interruptions in between; the loops over it then return what they would of the string itself.
-/

namespace Hakutaku
open Wire

section
variable {σ : Type} [Read σ]

/-! ### `read_exact` -/

/-- The loop of `read_exact`, with the buffer behind the filled part. A pass is interrupted or fills a byte, or is the
last. -/
def Read.readExactLoop : Nat → σ → Bytes → Outcome IoKind Unit × Bytes × σ
  | 0, reader, rest => (panicked "more passes", rest, reader)
  | left + 1, reader, rest =>
    if rest = [] then (.ok (), [], reader)
    else
      match Read.read reader rest with
      | (.ok 0, rest, reader) => (fail .unexpectedEof, rest, reader)
      | (.ok (read + 1), rest, reader) =>
        let (result, rest', reader) := readExactLoop left reader (rest.drop (read + 1))
        (result, rest.take (read + 1) ++ rest', reader)
      | (.error (.err .interrupted), rest, reader) => readExactLoop left reader rest
      | (.error stop, rest, reader) => (.error stop, rest, reader)

def Read.readExact (reader : σ) (buffer : Bytes) : Outcome IoKind Unit × Bytes × σ :=
  Read.readExactLoop (Read.interruptions reader + buffer.length + 1) reader buffer

/-! ### `BufReader` -/

structure BufReader (σ : Type) where
  inner : σ
  /-- The bytes read and not yet consumed. -/
  buffered : Bytes
  capacity : Nat

/-- Copies from the buffered bytes. -/
def BufReader.consume (r : BufReader σ) (buffer : Bytes) : Except (Stop IoKind) Nat × Bytes × BufReader σ :=
  let n := min r.buffered.length buffer.length
  (.ok n, r.buffered.take n ++ buffer.drop n, { r with buffered := r.buffered.drop n })

instance : Read (BufReader σ) where
  read r buffer :=
    if r.buffered = [] then
      -- A read that is no smaller than the buffer goes past it.
      if r.capacity ≤ buffer.length then
        let (result, buffer, inner) := Read.read r.inner buffer
        (result, buffer, { r with inner })
      else
        match Read.read r.inner (zeros r.capacity) with
        | (.ok n, bytes, inner) => BufReader.consume ⟨inner, bytes.take n, r.capacity⟩ buffer
        | (.error stop, _, inner) => (.error stop, buffer, { r with inner })
    else r.consume buffer
  interruptions r := Read.interruptions r.inner

/-! ### Streams -/

/-- What is left of a stream: some bytes and then its end; or that many bytes, not all of which can be read. -/
inductive Rest
  | bytes (content : Bytes)
  | broken (count : Nat)

namespace Rest

/-- These bytes, and then what is left. -/
def behind (front : Bytes) : Rest → Rest
  | bytes content => bytes (front ++ content)
  | broken count => broken (front.length + count)

/-- The number of bytes left. -/
def length : Rest → Nat
  | bytes content => content.length
  | broken count => count

def Broken (rest : Rest) : Prop := ∃ count, rest = broken count

variable {front front' content : Bytes} {rest : Rest}

@[simp] theorem behind_nil (rest : Rest) : rest.behind [] = rest := by
  cases rest with
  | bytes content => rfl
  | broken count => exact congrArg broken (Nat.zero_add _)

theorem behind_behind (front front' : Bytes) (rest : Rest) :
    (rest.behind front').behind front = rest.behind (front ++ front') := by
  cases rest with
  | bytes content => exact congrArg bytes (List.append_assoc ..).symm
  | broken count =>
    refine congrArg broken ?_
    rw [List.length_append, Nat.add_assoc]

theorem bytes_eq_behind : bytes content = rest.behind front ↔ ∃ tail, rest = bytes tail ∧ content = front ++ tail := by
  cases rest with
  | bytes tail =>
    constructor
    · rintro ⟨⟩
      exact ⟨tail, rfl, rfl⟩
    · rintro ⟨_, ⟨⟩, rfl⟩
      rfl
  | broken count =>
    constructor
    · rintro ⟨⟩
    · rintro ⟨_, ⟨⟩, -⟩

theorem broken_eq_behind {count : Nat} :
    broken count = rest.behind front ↔ ∃ count', rest = broken count' ∧ count = front.length + count' := by
  cases rest with
  | bytes tail =>
    constructor
    · rintro ⟨⟩
    · rintro ⟨_, ⟨⟩, -⟩
  | broken count' =>
    constructor
    · rintro ⟨⟩
      exact ⟨count', rfl, rfl⟩
    · rintro ⟨_, ⟨⟩, rfl⟩
      rfl

theorem Broken.behind (h : rest.Broken) (front : Bytes) : (rest.behind front).Broken := by
  obtain ⟨count, rfl⟩ := h
  exact ⟨_, rfl⟩

end Rest

/-- A read of `n` bytes that are the first of what is left; of none only at the end. -/
def Delivered (D : σ → Rest → Prop) (reader reader' : σ) (rest : Rest) (buffer buffer' : Bytes) (n : Nat) :
    Prop :=
  ∃ bytes rest', bytes.length = n ∧ n ≤ buffer.length ∧ buffer' = bytes ++ buffer.drop n ∧ rest = rest'.behind bytes ∧
    D reader' rest' ∧ (n = 0 → rest = .bytes []) ∧ Read.interruptions reader' ≤ Read.interruptions reader

/-- `D reader rest`: through buffers of at most `bound` bytes, the reader delivers what `rest` says. -/
structure Streams (bound : Nat) (D : σ → Rest → Prop) : Prop where
  ok : ∀ {reader reader' : σ} {rest : Rest} {buffer buffer' : Bytes} {n : Nat}, D reader rest →
    buffer.length ≤ bound → buffer ≠ [] → Read.read reader buffer = (.ok n, buffer', reader') → Delivered D reader reader' rest buffer buffer' n
  interrupted : ∀ {reader reader' : σ} {rest : Rest} {buffer buffer' : Bytes}, D reader rest →
    buffer.length ≤ bound → buffer ≠ [] → Read.read reader buffer = (.error (.err .interrupted), buffer', reader') → D reader' rest ∧
      buffer'.length = buffer.length ∧ Read.interruptions reader' < Read.interruptions reader
  error : ∀ {reader reader' : σ} {rest : Rest} {buffer buffer' : Bytes} {stop : Stop IoKind}, D reader rest →
    buffer.length ≤ bound → buffer ≠ [] → Read.read reader buffer = (.error stop, buffer', reader') → stop ≠ .err .interrupted → rest.Broken
  pos : ∀ {reader : σ} {count : Nat}, D reader (.broken count) → 0 < count

variable {bound : Nat} {D : σ → Rest → Prop}

/-- What a loop over a stream has taken: the first bytes of what was left of it. -/
structure Taken (D : σ → Rest → Prop) (rest : Rest) (buffer buffer' : Bytes) (reader' : σ)
    (bytes : Bytes) (rest' : Rest) : Prop where
  fits : bytes.length ≤ buffer.length
  length : buffer'.length = buffer.length
  front : buffer'.take bytes.length = bytes
  rest : rest = rest'.behind bytes
  streams : D reader' rest'

section
variable {reader reader' : σ} {rest rest' : Rest} {buffer buffer' bytes : Bytes}

omit [Read σ] in
theorem Taken.nil (hD : D reader rest) : Taken D rest buffer buffer reader [] rest where
  fits := Nat.zero_le _
  length := rfl
  front := rfl
  rest := (Rest.behind_nil rest).symm
  streams := hD

omit [Read σ] in
/-- A read that delivers some bytes, and a loop behind it. -/
theorem Taken.append {first : Bytes} {middle : Rest} (hfits : first.length ≤ buffer.length)
    (hrest : rest = middle.behind first) (h : Taken D middle (buffer.drop first.length) buffer' reader' bytes rest') :
    Taken D rest buffer (first ++ buffer') reader' (first ++ bytes) rest' where
  fits := by
    have hle := h.fits
    rw [List.length_drop] at hle
    rw [List.length_append]
    omega
  length := by
    rw [List.length_append, h.length, List.length_drop]
    omega
  front := by
    rw [List.length_append, List.take_length_add_append, h.front]
  rest := by
    rw [hrest, h.rest, Rest.behind_behind]
  streams := h.streams

omit [Read σ] in
/-- An interrupted read in front of a loop. -/
theorem Taken.interrupted {middle : Bytes} (hlen : middle.length = buffer.length)
    (h : Taken D rest middle buffer' reader' bytes rest') : Taken D rest buffer buffer' reader' bytes rest' :=
  { h with fits := hlen ▸ h.fits, length := h.length.trans hlen }

namespace Streams

theorem eq_of_length_zero (h : Streams bound D) (hD : D reader rest) (hlen : rest.length = 0) : rest = .bytes [] := by
  cases rest with
  | bytes content => exact congrArg Rest.bytes (List.eq_nil_of_length_eq_zero hlen)
  | broken count => exact absurd hlen (h.pos hD).ne'

theorem readChunkLoop (h : Streams bound D) (left filled : Nat) (buffer : Bytes) (hD : D reader rest)
    (hbound : buffer.length ≤ bound) (hleft : Read.interruptions reader + buffer.length < left) :
    (∃ bytes rest', (Hakutaku.readChunkLoop left reader filled buffer).1 = .ok (filled + bytes.length) ∧
      Taken D rest buffer (Hakutaku.readChunkLoop left reader filled buffer).2.1
        (Hakutaku.readChunkLoop left reader filled buffer).2.2 bytes rest' ∧
      (bytes.length < buffer.length → rest' = .bytes [])) ∨
    (∃ stop, (Hakutaku.readChunkLoop left reader filled buffer).1 = .error stop) ∧ rest.Broken := by
  induction left generalizing reader rest buffer filled with
  | zero => exact absurd hleft (Nat.not_lt_zero _)
  | succ left ih =>
    rw [Hakutaku.readChunkLoop]
    by_cases hbuffer : buffer = []
    · rw [if_pos hbuffer]
      subst hbuffer
      exact .inl ⟨[], rest, rfl, .nil hD, fun hlt => absurd hlt (Nat.lt_irrefl _)⟩
    · rw [if_neg hbuffer]
      rcases hread : Read.read reader buffer with ⟨(_ | what) | n, buffer', reader'⟩
      · rename_i kind
        by_cases hkind : kind = .interrupted
        · subst hkind
          obtain ⟨hD', hlen, hfewer⟩ := h.interrupted hD hbound hbuffer hread
          rcases ih filled buffer' hD' (by omega) (by omega) with ⟨bytes, rest', hresult, htaken, hshort⟩ | hfailed
          · exact .inl ⟨bytes, rest', hresult, htaken.interrupted hlen, by rwa [hlen] at hshort⟩
          · exact .inr hfailed
        · have hbroken := h.error hD hbound hbuffer hread (fun heq => hkind (Stop.err.inj heq))
          cases kind with
          | interrupted => exact absurd rfl hkind
          | _ => exact .inr ⟨⟨_, rfl⟩, hbroken⟩
      · exact .inr ⟨⟨_, rfl⟩, h.error hD hbound hbuffer hread (by simp)⟩
      · obtain ⟨bytes, middle, hlen, hle, hbytes, hrest, hD', hzero, hinterruptions⟩ := h.ok hD hbound hbuffer hread
        subst hlen
        rcases bytes with _ | ⟨byte, more⟩
        · obtain rfl := hzero rfl
          obtain rfl : middle = .bytes [] := (Rest.behind_nil middle).symm.trans hrest.symm
          have hsame : buffer' = buffer := by simpa using hbytes
          subst hsame
          exact .inl ⟨[], .bytes [], rfl, .nil hD', fun _ => rfl⟩
        · have htake : buffer'.take (more.length + 1) = byte :: more := by
            rw [hbytes]
            exact List.take_left' rfl
          have hdrop : buffer'.drop (more.length + 1) = buffer.drop (byte :: more).length := by
            rw [hbytes]
            exact List.drop_left' rfl
          simp only [List.length_cons, htake, hdrop]
          simp only [List.length_cons] at hle
          rcases ih (filled + (more.length + 1)) (buffer.drop (byte :: more).length) hD' (by
            rw [List.length_drop]
            omega) (by
            rw [List.length_drop, List.length_cons]
            omega) with ⟨bytes, rest', hresult, htaken, hshort⟩ | hfailed
          · refine .inl ⟨byte :: more ++ bytes, rest', ?_, htaken.append hle hrest, fun hlt => hshort ?_⟩
            · exact hresult.trans (by rw [List.length_append, List.length_cons, Nat.add_assoc])
            · rw [List.length_append] at hlt
              rw [List.length_drop]
              omega
          · obtain ⟨hstop, hbroken⟩ := hfailed
            exact .inr ⟨hstop, hrest ▸ hbroken.behind _⟩

theorem readExactLoop (h : Streams bound D) (left : Nat) (buffer : Bytes) (hD : D reader rest)
    (hbound : buffer.length ≤ bound) (hleft : Read.interruptions reader + buffer.length < left) :
    (∃ bytes rest', (Read.readExactLoop left reader buffer).1 = .ok () ∧ bytes.length = buffer.length ∧
      Taken D rest buffer (Read.readExactLoop left reader buffer).2.1 (Read.readExactLoop left reader buffer).2.2 bytes
        rest') ∨
    ∃ stop, (Read.readExactLoop left reader buffer).1 = .error stop ∧ (rest.Broken ∨ stop = .err .unexpectedEof ∧
      ∃ bytes, rest = .bytes bytes ∧ bytes.length < buffer.length ∧
        D (Read.readExactLoop left reader buffer).2.2 (.bytes [])) := by
  induction left generalizing reader rest buffer with
  | zero => exact absurd hleft (Nat.not_lt_zero _)
  | succ left ih =>
    rw [Read.readExactLoop]
    by_cases hbuffer : buffer = []
    · rw [if_pos hbuffer]
      subst hbuffer
      exact .inl ⟨[], rest, rfl, rfl, .nil hD⟩
    · rw [if_neg hbuffer]
      rcases hread : Read.read reader buffer with ⟨(_ | what) | n, buffer', reader'⟩
      · rename_i kind
        by_cases hkind : kind = .interrupted
        · subst hkind
          obtain ⟨hD', hlen, hfewer⟩ := h.interrupted hD hbound hbuffer hread
          rcases ih buffer' hD' (by omega) (by omega) with ⟨bytes, rest', hresult, hfull, htaken⟩ | ⟨stop, hstop, hwhy⟩
          · exact .inl ⟨bytes, rest', hresult, hfull.trans hlen, htaken.interrupted hlen⟩
          · exact .inr ⟨stop, hstop, by rwa [hlen] at hwhy⟩
        · have hbroken := h.error hD hbound hbuffer hread (fun heq => hkind (Stop.err.inj heq))
          cases kind with
          | interrupted => exact absurd rfl hkind
          | _ => exact .inr ⟨_, rfl, .inl hbroken⟩
      · exact .inr ⟨_, rfl, .inl (h.error hD hbound hbuffer hread nofun)⟩
      · obtain ⟨bytes, middle, hlen, hle, hbytes, hrest, hD', hzero, hinterruptions⟩ := h.ok hD hbound hbuffer hread
        subst hlen
        rcases bytes with _ | ⟨byte, more⟩
        · obtain rfl := hzero rfl
          obtain rfl : middle = .bytes [] := (Rest.behind_nil middle).symm.trans hrest.symm
          exact .inr ⟨_, rfl, .inr ⟨rfl, [], rfl, List.length_pos_iff.2 hbuffer, hD'⟩⟩
        · have htake : buffer'.take (more.length + 1) = byte :: more := by
            rw [hbytes]
            exact List.take_left' rfl
          have hdrop : buffer'.drop (more.length + 1) = buffer.drop (byte :: more).length := by
            rw [hbytes]
            exact List.drop_left' rfl
          have hdropped : (buffer.drop (byte :: more).length).length = buffer.length - (byte :: more).length :=
            List.length_drop
          simp only [List.length_cons, htake, hdrop]
          simp only [List.length_cons] at hle hdropped
          rcases ih (buffer.drop (byte :: more).length) hD' (by
            rw [List.length_drop]
            omega) (by
            rw [List.length_drop, List.length_cons]
            omega) with ⟨bytes, rest', hresult, hfull, htaken⟩ | ⟨stop, hstop, hwhy⟩
          · refine .inl ⟨byte :: more ++ bytes, rest', hresult, ?_, htaken.append hle hrest⟩
            rw [List.length_append, hfull]
            simp only [List.length_cons]
            omega
          · refine .inr ⟨stop, hstop, hwhy.imp (fun hbroken => hrest ▸ hbroken.behind _) ?_⟩
            · rintro ⟨heof, bytes, rfl, hshort, hend⟩
              refine ⟨heof, byte :: more ++ bytes, hrest, ?_, hend⟩
              rw [List.length_append]
              simp only [List.length_cons] at hshort ⊢
              omega

/-- A chunk of a stream that comes to its end. -/
theorem readChunk_bytes (h : Streams bound D) {buffer : Bytes} (hbound : buffer.length ≤ bound) {content : Bytes}
    (hD : D reader (.bytes content)) :
    (readChunk reader buffer).1 = .ok (min content.length buffer.length) ∧
      (readChunk reader buffer).2.1.length = buffer.length ∧
      (readChunk reader buffer).2.1.take (min content.length buffer.length) = content.take buffer.length ∧
      D (readChunk reader buffer).2.2 (.bytes (content.drop buffer.length)) := by
  rcases h.readChunkLoop _ 0 buffer hD hbound (Nat.lt_succ_self _) with ⟨bytes, rest', hresult, htaken, hshort⟩ | ⟨-, _, hbroken⟩
  · obtain ⟨tail, rfl, rfl⟩ := Rest.bytes_eq_behind.1 htaken.rest
    · have hfits := htaken.fits
      rw [Nat.zero_add] at hresult
      have hmin : min (bytes ++ tail).length buffer.length = bytes.length ∧
          (bytes ++ tail).take buffer.length = bytes ∧ (bytes ++ tail).drop buffer.length = tail := by
        rcases Nat.lt_or_eq_of_le hfits with hlt | heq
        · obtain rfl : tail = [] := Rest.bytes.inj (hshort hlt)
          rw [List.append_nil]
          exact ⟨min_eq_left hfits, List.take_of_length_le hfits, List.drop_eq_nil_of_le hfits⟩
        · rw [← heq, List.take_left, List.drop_left, List.length_append]
          exact ⟨min_eq_right (Nat.le_add_right _ _), rfl, rfl⟩
      obtain ⟨hlen, htake, hdrop⟩ := hmin
      rw [hlen, htake, hdrop]
      exact ⟨hresult, htaken.length, htaken.front, htaken.streams⟩
  · cases hbroken

/-- A chunk of a stream that fails before its end. -/
theorem readChunk_broken (h : Streams bound D) {buffer : Bytes} (hbound : buffer.length ≤ bound) {count : Nat}
    (hD : D reader (.broken count)) :
    (∃ stop, (readChunk reader buffer).1 = .error stop) ∨ (readChunk reader buffer).1 = .ok buffer.length ∧
      (readChunk reader buffer).2.1.length = buffer.length ∧ ∃ count', count = buffer.length + count' ∧
        D (readChunk reader buffer).2.2 (.broken count') := by
  rcases h.readChunkLoop _ 0 buffer hD hbound (Nat.lt_succ_self _) with ⟨bytes, rest', hresult, htaken, hshort⟩ | ⟨hstop, -⟩
  · obtain ⟨count', rfl, rfl⟩ := Rest.broken_eq_behind.1 htaken.rest
    have hfull : bytes.length = buffer.length := by
      rcases Nat.lt_or_eq_of_le htaken.fits with hlt | heq
      · cases hshort hlt
      · exact heq
    rw [Nat.zero_add, hfull] at hresult
    exact .inr ⟨hresult, htaken.length, count', by rw [hfull], htaken.streams⟩
  · exact .inl hstop

theorem readExact_bytes (h : Streams bound D) {buffer : Bytes} (hbound : buffer.length ≤ bound) {content : Bytes}
    (hD : D reader (.bytes content)) :
    buffer.length ≤ content.length ∧ (Read.readExact reader buffer).1 = .ok () ∧
        (Read.readExact reader buffer).2.1 = content.take buffer.length ∧
        D (Read.readExact reader buffer).2.2 (.bytes (content.drop buffer.length)) ∨
      content.length < buffer.length ∧ (Read.readExact reader buffer).1 = fail .unexpectedEof ∧
        D (Read.readExact reader buffer).2.2 (.bytes []) := by
  rcases h.readExactLoop _ buffer hD hbound (Nat.lt_succ_self _) with ⟨bytes, rest', hresult, hfull, htaken⟩ | ⟨stop, hstop, hwhy⟩
  · obtain ⟨tail, rfl, rfl⟩ := Rest.bytes_eq_behind.1 htaken.rest
    · have hfront : (Read.readExact reader buffer).2.1 = bytes :=
        (List.take_of_length_le (htaken.length.trans hfull.symm).le).symm.trans htaken.front
      rw [← hfull, List.take_left, List.drop_left, List.length_append]
      exact .inl ⟨Nat.le_add_right _ _, hresult, hfront, htaken.streams⟩
  · rcases hwhy with ⟨_, hbroken⟩ | ⟨rfl, bytes, hbytes, hshort, hend⟩
    · cases hbroken
    · obtain rfl := Rest.bytes.inj hbytes
      exact .inr ⟨hshort, hstop, hend⟩

theorem readExact_broken (h : Streams bound D) {buffer : Bytes} (hbound : buffer.length ≤ bound) {count : Nat}
    (hD : D reader (.broken count)) :
    (∃ stop, (Read.readExact reader buffer).1 = .error stop) ∨ (Read.readExact reader buffer).1 = .ok () ∧
      (Read.readExact reader buffer).2.1.length = buffer.length ∧ ∃ count', count = buffer.length + count' ∧
        D (Read.readExact reader buffer).2.2 (.broken count') := by
  rcases h.readExactLoop _ buffer hD hbound (Nat.lt_succ_self _) with ⟨bytes, rest', hresult, hfull, htaken⟩ | ⟨stop, hstop, -⟩
  · obtain ⟨count', rfl, rfl⟩ := Rest.broken_eq_behind.1 htaken.rest
    exact .inr ⟨hresult, htaken.length, count', by rw [hfull], htaken.streams⟩
  · exact .inl ⟨stop, hstop⟩

end Streams

/-! ### Buffered streams -/

/-- What is buffered comes first. -/
def Buffered (bound : Nat) (D : σ → Rest → Prop) (r : BufReader σ) (rest : Rest) : Prop :=
  (0 < r.capacity ∧ r.capacity ≤ bound) ∧ ∃ inner, D r.inner inner ∧ rest = inner.behind r.buffered

/-- Copying from the buffered bytes; there are some, or the stream is at its end. -/
theorem Buffered.consume {r r' : BufReader σ} {n : Nat} (h : Buffered bound D r rest) (hend : r.buffered = [] → rest = .bytes [])
    (hbuffer : buffer ≠ []) (hcopy : r.consume buffer = (.ok n, buffer', r')) :
    Delivered (Buffered bound D) r r' rest buffer buffer' n := by
  obtain ⟨hcapacity, inner, hinner, rfl⟩ := h
  cases hcopy
  have hlen : (r.buffered.take (min r.buffered.length buffer.length)).length = min r.buffered.length buffer.length := by
    rw [List.length_take]
    omega
  refine ⟨_, inner.behind (r.buffered.drop (min r.buffered.length buffer.length)), hlen, min_le_right _ _, rfl, ?_,
    ⟨hcapacity, inner, hinner, rfl⟩, fun hzero => hend ?_, le_rfl⟩
  · rw [Rest.behind_behind, List.take_append_drop]
  · have hpos := List.length_pos_iff.2 hbuffer
    exact List.eq_nil_of_length_eq_zero (by omega)

section
variable {r : BufReader σ} {inner : σ} {n : Nat} {result : Except (Stop IoKind) Nat} {stop : Stop IoKind}

theorem BufReader.read_buffered (h : r.buffered ≠ []) : Read.read r buffer = r.consume buffer := if_neg h

theorem BufReader.read_past (hnil : r.buffered = []) (hlarge : r.capacity ≤ buffer.length)
    (hread : Read.read r.inner buffer = (result, buffer', inner)) :
    Read.read r buffer = (result, buffer', { r with inner }) := by
  refine (if_pos hnil).trans ((if_pos hlarge).trans ?_)
  rw [hread]

theorem BufReader.read_fill (hnil : r.buffered = []) (hsmall : ¬ r.capacity ≤ buffer.length)
    (hread : Read.read r.inner (zeros r.capacity) = (.ok n, bytes, inner)) :
    Read.read r buffer = BufReader.consume ⟨inner, bytes.take n, r.capacity⟩ buffer := by
  refine (if_pos hnil).trans ((if_neg hsmall).trans ?_)
  rw [hread]

theorem BufReader.read_failed (hnil : r.buffered = []) (hsmall : ¬ r.capacity ≤ buffer.length)
    (hread : Read.read r.inner (zeros r.capacity) = (.error stop, bytes, inner)) :
    Read.read r buffer = (.error stop, buffer, { r with inner }) := by
  refine (if_pos hnil).trans ((if_neg hsmall).trans ?_)
  rw [hread]

end

/-- A buffer in front of a stream changes how it is cut into pieces only. -/
theorem Streams.buffered (h : Streams bound D) : Streams bound (Buffered bound D) := by
  have hempty : ∀ {r : BufReader σ} {rest : Rest}, Buffered bound D r rest → r.buffered = [] → D r.inner rest := by
    rintro r rest ⟨-, inner, hinner, rfl⟩ hnil
    simpa [hnil] using hinner
  have hzeros : ∀ {r : BufReader σ} {rest : Rest}, Buffered bound D r rest → zeros r.capacity ≠ [] := by
    rintro r rest ⟨hcapacity, -⟩ hnil
    have hlen := congrArg List.length hnil
    rw [length_zeros] at hlen
    exact absurd hlen hcapacity.1.ne'
  refine ⟨?_, ?_, ?_, ?_⟩
  · intro r r' rest buffer buffer' n hD hbound hbuffer hread
    by_cases hnil : r.buffered = []
    · have hinner := hempty hD hnil
      by_cases hlarge : r.capacity ≤ buffer.length
      · rcases hin : Read.read r.inner buffer with ⟨result, out, inner⟩
        rw [BufReader.read_past hnil hlarge hin] at hread
        cases hread
        obtain ⟨bytes, rest', hlen, hle, hbytes, hrest, hD', hzero, hfewer⟩ := h.ok hinner hbound hbuffer hin
        refine ⟨bytes, rest', hlen, hle, hbytes, hrest, ⟨hD.1, rest', hD', ?_⟩, hzero, hfewer⟩
        simp [hnil]
      · rcases hin : Read.read r.inner (zeros r.capacity) with ⟨stop | m, out, inner⟩
        · rw [BufReader.read_failed hnil hlarge hin] at hread
          cases hread
        · rw [BufReader.read_fill hnil hlarge hin] at hread
          obtain ⟨bytes, rest', hlen, hle, hbytes, hrest, hD', hzero, hfewer⟩ := h.ok hinner (by rw [length_zeros]; exact hD.1.2) (hzeros hD) hin
          have htake : out.take m = bytes := by
            rw [hbytes, ← hlen, List.take_left]
          have hfilled : Buffered bound D ⟨inner, out.take m, r.capacity⟩ rest := ⟨hD.1, rest', hD', by rw [htake]; exact hrest⟩
          obtain ⟨copied, after, hcopied, hfits, hcopy, hsplit, hD'', hstop, hsame⟩ :=
            hfilled.consume (fun h => hzero (by rw [← hlen, ← htake]; exact congrArg List.length h)) hbuffer hread
          exact ⟨copied, after, hcopied, hfits, hcopy, hsplit, hD'', hstop, hsame.trans hfewer⟩
    · rw [BufReader.read_buffered hnil] at hread
      exact hD.consume (fun h => absurd h hnil) hbuffer hread
  · intro r r' rest buffer buffer' hD hbound hbuffer hread
    by_cases hnil : r.buffered = []
    · have hinner := hempty hD hnil
      by_cases hlarge : r.capacity ≤ buffer.length
      · rcases hin : Read.read r.inner buffer with ⟨result, out, inner⟩
        rw [BufReader.read_past hnil hlarge hin] at hread
        cases hread
        obtain ⟨hD', hlen, hfewer⟩ := h.interrupted hinner hbound hbuffer hin
        exact ⟨⟨hD.1, rest, hD', by simp [hnil]⟩, hlen, hfewer⟩
      · rcases hin : Read.read r.inner (zeros r.capacity) with ⟨stop | m, out, inner⟩
        · rw [BufReader.read_failed hnil hlarge hin] at hread
          cases hread
          obtain ⟨hD', -, hfewer⟩ := h.interrupted hinner (by rw [length_zeros]; exact hD.1.2) (hzeros hD) hin
          exact ⟨⟨hD.1, rest, hD', by simp [hnil]⟩, rfl, hfewer⟩
        · rw [BufReader.read_fill hnil hlarge hin] at hread
          cases hread
    · rw [BufReader.read_buffered hnil] at hread
      cases hread
  · intro r r' rest buffer buffer' stop hD hbound hbuffer hread hstop
    by_cases hnil : r.buffered = []
    · have hinner := hempty hD hnil
      by_cases hlarge : r.capacity ≤ buffer.length
      · rcases hin : Read.read r.inner buffer with ⟨result, out, inner⟩
        rw [BufReader.read_past hnil hlarge hin] at hread
        cases hread
        exact h.error hinner hbound hbuffer hin hstop
      · rcases hin : Read.read r.inner (zeros r.capacity) with ⟨stop | m, out, inner⟩
        · rw [BufReader.read_failed hnil hlarge hin] at hread
          cases hread
          exact h.error hinner (by rw [length_zeros]; exact hD.1.2) (hzeros hD) hin hstop
        · rw [BufReader.read_fill hnil hlarge hin] at hread
          cases hread
    · rw [BufReader.read_buffered hnil] at hread
      cases hread
  · rintro r count ⟨-, inner, hinner, hrest⟩
    obtain ⟨count', rfl, rfl⟩ := Rest.broken_eq_behind.1 hrest
    exact (h.pos hinner).trans_le (Nat.le_add_left _ _)

end
end

/-! ### Scripted files -/

/-- Reads of a file that are short or interrupted, and do not fail otherwise. -/
def ReadOutcome.Benign : ReadOutcome → Prop
  | .deliver count => 0 < count
  | .fail kind => kind = .interrupted

/-- An open file with some content, and what is left of it behind its position. -/
def Scripted (content : Bytes) (r : ScriptedReader) (rest : Rest) : Prop :=
  r.file.content = content ∧ (∀ outcome ∈ r.file.script, outcome.Benign) ∧ rest = .bytes (content.drop r.position)

/-- Only at the end does a benign file deliver nothing. -/
theorem ScriptedFile.drop_eq_nil_of_answer {f : ScriptedFile} {offset requested : Nat}
    (hbenign : ∀ outcome ∈ f.script, outcome.Benign) (hpos : 0 < requested) (h : f.answer offset requested = .ok []) :
    f.content.drop offset = [] := by
  have hslice : ∀ {count : Nat}, 0 < count → slice f.content offset count = [] → f.content.drop offset = [] := by
    intro count hcount hnil
    rcases List.take_eq_nil_iff.1 hnil with hzero | hdrop
    · exact absurd hzero hcount.ne'
    · exact hdrop
  unfold ScriptedFile.answer at h
  rcases hscript : f.script with _ | ⟨_ | kind, rest⟩
  · rw [hscript] at h
    exact hslice hpos (Except.ok.inj h)
  · rename_i count
    have hcount : (ReadOutcome.deliver count).Benign := hbenign _ (by rw [hscript]; exact List.mem_cons_self ..)
    rw [hscript] at h
    exact hslice (lt_min hcount hpos) (Except.ok.inj h)
  · rw [hscript] at h
    cases h

theorem ScriptedFile.answer_error {f : ScriptedFile} {offset requested : Nat} {kind : IoKind}
    (hbenign : ∀ outcome ∈ f.script, outcome.Benign) (h : f.answer offset requested = .error kind) : kind = .interrupted := by
  unfold ScriptedFile.answer at h
  rcases hscript : f.script with _ | ⟨_ | kind', rest⟩
  · rw [hscript] at h
    cases h
  · rw [hscript] at h
    cases h
  · rw [hscript] at h
    cases h
    exact hbenign _ (by rw [hscript]; exact List.mem_cons_self ..)

theorem Streams.scripted (bound : Nat) (content : Bytes) : Streams bound (Scripted content) := by
  have htail : ∀ {f : ScriptedFile} {offset requested : Nat}, (∀ outcome ∈ f.script, outcome.Benign) →
      ∀ outcome ∈ (f.called offset requested).script, outcome.Benign :=
    fun h outcome hmem => h outcome (List.mem_of_mem_tail hmem)
  refine ⟨?_, ?_, ?_, ?_⟩
  · rintro r r' rest buffer buffer' n ⟨rfl, hbenign, rfl⟩ - hbuffer hread
    rcases hanswer : r.file.answer r.position buffer.length with kind | bytes
    · rw [r.read_error hanswer] at hread
      cases hread
    · rw [r.read_ok hanswer] at hread
      cases hread
      obtain ⟨hbytes, hle, -⟩ := ScriptedFile.answer_eq_ok hanswer
      refine ⟨bytes, .bytes (r.file.content.drop (r.position + bytes.length)), rfl, hle, rfl, ?_, ⟨rfl, htail hbenign, rfl⟩,
        fun hzero => ?_, ?_⟩
      · have htake : (r.file.content.drop r.position).take bytes.length = bytes := hbytes.symm
        have hsplit := List.take_append_drop bytes.length (r.file.content.drop r.position)
        rw [htake, List.drop_drop] at hsplit
        rw [Rest.behind, hsplit]
      · obtain rfl := List.eq_nil_of_length_eq_zero hzero
        rw [ScriptedFile.drop_eq_nil_of_answer hbenign (List.length_pos_iff.2 hbuffer) hanswer]
      · show (r.file.script.tail).length ≤ r.file.script.length
        simp
  · rintro r r' rest buffer buffer' ⟨rfl, hbenign, rfl⟩ - hbuffer hread
    rcases hanswer : r.file.answer r.position buffer.length with kind | bytes
    · rw [r.read_error hanswer] at hread
      cases hread
      exact ⟨⟨rfl, htail hbenign, rfl⟩, rfl, r.file.lt_of_answer_error hanswer⟩
    · rw [r.read_ok hanswer] at hread
      cases hread
  · rintro r r' rest buffer buffer' stop ⟨rfl, hbenign, rfl⟩ - hbuffer hread hstop
    rcases hanswer : r.file.answer r.position buffer.length with kind | bytes
    · rw [r.read_error hanswer] at hread
      cases hread
      exact absurd (congrArg Stop.err (ScriptedFile.answer_error hbenign hanswer)) hstop
    · rw [r.read_ok hanswer] at hread
      cases hread
  · rintro r count ⟨-, -, hrest⟩
    cases hrest

end Hakutaku
