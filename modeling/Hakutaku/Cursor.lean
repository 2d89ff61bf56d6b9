import Hakutaku.ReaderSystem

/-!
# A cursor against a cursor over plain bytes

The calls of one cursor, one after the other, with the failures its backend has in between; and what a
cursor over plain bytes that may fail does on the same calls.
-/

namespace Hakutaku
open Wire

inductive CursorCall
  | read (buffer : Bytes)
  | seek (place : SeekFrom)
deriving DecidableEq

inductive CursorReply
  | read (result : Result Nat) (buffer : Bytes)
  | seek (result : Result UInt64)
deriving DecidableEq

section
variable [Crypto] [Target] {P : PackageInner}

namespace Session

/-- One call on a cursor. -/
def cursorStep (cursor : Session P) (s : Shared) : CursorCall → CursorReply × Session P × Shared
  | .read buffer =>
    let r := ((cursor.asset.cursorRead cursor.position).run.run { cursor.state with destination := buffer }).run s
    (.read (r.1.1.map Prod.fst) r.1.2.destination, cursor.afterRead r.1, r.2)
  | .seek place =>
    match seek cursor.asset.record.logicalLen cursor.position place with
    | .ok position => (.seek (.ok position), { cursor with position := position }, s)
    | .error stop => (.seek (.error stop), cursor, s)

/-- The calls in order, each with its reply, and the cursor afterwards. -/
def cursorRun (cursor : Session P) (s : Shared) : List CursorCall → List (CursorCall × CursorReply) × Session P
  | [] => ([], cursor)
  | call :: calls =>
    let (reply, cursor, s) := cursor.cursorStep s call
    let (rest, cursor) := cursor.cursorRun s calls
    ((call, reply) :: rest, cursor)

end Session
end

/-- One call on a cursor over plain bytes, which may fail to read: the position before, the call with its
reply, and the position afterwards. -/
inductive PlainStep (content : Bytes) (position : Nat) : CursorCall × CursorReply → Nat → Prop
  | read {buffer : Bytes} (k : Nat) (hk : k = min buffer.length (content.length - position)) :
      PlainStep content position (.read buffer, .read (.ok k) (slice content position k ++ buffer.drop k)) (position + k)
  | readFailed {buffer buffer' : Bytes} (e : Stop Error) :
      PlainStep content position (.read buffer, .read (.error e) buffer') position
  | seek {place : SeekFrom} (target : UInt64) (htarget : (target.toNat : Int) = place.target content.length position)
      (hle : target.toNat ≤ content.length) : PlainStep content position (.seek place, .seek (.ok target)) target.toNat
  | seekFailed {place : SeekFrom} (e : Stop Error)
      (hout : place.target content.length position < 0 ∨
        (content.length : Int) < place.target content.length position) :
      PlainStep content position (.seek place, .seek (.error e)) position

/-- A run of such calls, from one position to another. -/
def PlainRun (content : Bytes) : Nat → List (CursorCall × CursorReply) → Nat → Prop
  | position, [], stop => position = stop
  | position, c :: run, stop => ∃ next, PlainStep content position c next ∧ PlainRun content next run stop

/-- What the successful reads of a run put into their buffers. -/
def bytesRead : List (CursorCall × CursorReply) → Bytes
  | [] => []
  | (_, .read (.ok k) buffer) :: run => buffer.take k ++ bytesRead run
  | _ :: run => bytesRead run

section Plain
variable {content : Bytes} {position stop : Nat} {run run' : List (CursorCall × CursorReply)}

theorem PlainStep.of_read {buffer buffer' : Bytes} {k next : Nat}
    (h : PlainStep content position (.read buffer, .read (.ok k) buffer') next) :
    buffer' = slice content position k ++ buffer.drop k ∧ next = position + k := by
  generalize hc : (CursorCall.read buffer, CursorReply.read (.ok k) buffer') = c at h
  cases h with
  | read k' hk =>
    cases hc
    exact ⟨rfl, rfl⟩
  | readFailed => cases hc
  | seek => cases hc
  | seekFailed => cases hc

theorem PlainStep.le_length {c : CursorCall × CursorReply} {next : Nat} (h : PlainStep content position c next)
    (hle : position ≤ content.length) : next ≤ content.length := by
  cases h with
  | read k hk => omega
  | readFailed => exact hle
  | seek target _ htarget => exact htarget
  | seekFailed => exact hle

/-- The position stays in the content. -/
theorem PlainRun.le_length (h : PlainRun content position run stop) (hle : position ≤ content.length) :
    stop ≤ content.length := by
  induction run generalizing position with
  | nil => exact h ▸ hle
  | cons c run ih =>
    obtain ⟨next, hstep, hrun⟩ := h
    exact ih hrun (hstep.le_length hle)

theorem PlainRun.append (h : PlainRun content position (run ++ run') stop) :
    ∃ middle, PlainRun content position run middle ∧ PlainRun content middle run' stop := by
  induction run generalizing position with
  | nil => exact ⟨position, rfl, h⟩
  | cons c run ih =>
    obtain ⟨next, hstep, hrun⟩ := h
    obtain ⟨middle, hfirst, hsecond⟩ := ih hrun
    exact ⟨middle, ⟨next, hstep, hfirst⟩, hsecond⟩

/-- The replies tell where a run ends. -/
theorem PlainRun.unique {stop' : Nat} (h : PlainRun content position run stop) (h' : PlainRun content position run stop') :
    stop = stop' := by
  induction run generalizing position with
  | nil => exact h.symm.trans h'
  | cons c run ih =>
    obtain ⟨next, hstep, hrun⟩ := h
    obtain ⟨next', hstep', hrun'⟩ := h'
    have hnext : next = next' := by
      cases hstep with
      | read k hk =>
        generalize hbuffer : slice content position k ++ _ = b at hstep'
        cases hstep'
        rfl
      | readFailed => cases hstep'; rfl
      | seek => cases hstep'; rfl
      | seekFailed => cases hstep'; rfl
    exact ih hrun (hnext ▸ hrun')

/-- Reads without a seek in between return what lies between the positions. -/
theorem PlainRun.bytesRead_eq (h : PlainRun content position run stop)
    (hreads : ∀ c ∈ run, ∃ buffer, c.1 = .read buffer) :
    position ≤ stop ∧ bytesRead run = slice content position (stop - position) := by
  induction run generalizing position with
  | nil =>
    obtain rfl : position = stop := h
    simp [bytesRead]
  | cons c run ih =>
    obtain ⟨next, hstep, hrun⟩ := h
    obtain ⟨hle, hbytes⟩ := ih hrun fun c hc => hreads c (List.mem_cons_of_mem _ hc)
    obtain ⟨buffer, hbuffer⟩ := hreads c (List.mem_cons_self ..)
    cases hstep with
    | @read buffer k hk =>
      refine ⟨by omega, ?_⟩
      have htake : (slice content position k ++ buffer.drop k).take k = slice content position k := by
        rcases Nat.lt_or_ge position content.length with hlt | hge
        · have hlen : (slice content position k).length = k := length_slice (by omega)
          rw [List.take_append_of_le_length hlen.ge, List.take_of_length_le hlen.le]
        · obtain rfl : k = 0 := by omega
          simp
      have hsplit : stop - position = k + (stop - (position + k)) := by omega
      rw [bytesRead, htake, hsplit, slice_add, hbytes]
    | readFailed => exact ⟨hle, hbytes⟩
    | seek => cases hbuffer
    | seekFailed => cases hbuffer

/-- Reading until a nonempty buffer stays empty returns the rest of the content. -/
theorem PlainRun.bytesRead_until_zero {buffer buffer' : Bytes}
    (h : PlainRun content position (run ++ [(.read buffer, .read (.ok 0) buffer')]) stop)
    (hle : position ≤ content.length) (hbuffer : 0 < buffer.length) (hreads : ∀ c ∈ run, ∃ b, c.1 = .read b) :
    bytesRead run = content.drop position := by
  obtain ⟨middle, hrun, next, hlast, -⟩ := h.append
  obtain ⟨-, hbytes⟩ := hrun.bytesRead_eq hreads
  have hend : middle = content.length := by
    have := hrun.le_length hle
    cases hlast with
    | read k hk => omega
  rw [hbytes, hend, slice_of_le (by omega)]

end Plain

section
variable [Crypto] [Target] {P : PackageInner}

/-- One call of a cursor is one call on its plain content. -/
theorem Session.cursorStep_spec (hP : P.Coherent) {cursor : Session P} {start : Nat → Nat}
    (h : cursor.asset.record.Tiled P.idealRef start) (hc : cursor.Ok) {s : Shared} (hs : P.Sound s) (call : CursorCall)
    {reply : CursorReply} {cursor' : Session P} {s' : Shared} (hstep : cursor.cursorStep s call = (reply, cursor', s')) :
    cursor'.Ok ∧ cursor'.asset = cursor.asset ∧ P.Sound s' ∧
      PlainStep cursor.asset.plaintext cursor.position.toNat (call, reply) cursor'.position.toNat := by
  have hlen := Asset.length_plaintext h
  cases call with
  | read buffer =>
    have hrun := (cursorRead_reading hP hc buffer).run hs
    generalize hr : ((cursor.asset.cursorRead cursor.position).run.run
      { cursor.state with destination := buffer }).run s = r at hrun
    obtain ⟨⟨result, st⟩, t⟩ := r
    obtain ⟨hs', hok, hreading, hmove⟩ := hrun
    have heq : cursor.cursorStep s (.read buffer) =
        (.read (result.map Prod.fst) st.destination, cursor.afterRead (result, st), t) := by rw [cursorStep, hr]
    rw [hstep] at heq
    cases heq
    refine ⟨hok, rfl, hs', ?_⟩
    cases result with
    | ok value =>
      obtain ⟨n, position⟩ := value
      obtain ⟨-, hn, hdest⟩ := (hreading.answers h).1 n rfl
      show PlainStep _ _ (_, .read (.ok n) st.destination) position.toNat
      have hdest : st.destination = slice cursor.asset.plaintext cursor.position.toNat n ++ buffer.drop n := hdest
      rw [hmove n position rfl, hdest]
      exact .read n (by rw [hn, hlen, min_comm])
    | error e => exact .readFailed e
  | seek place =>
    rw [cursorStep] at hstep
    split at hstep
    · rename_i position hseek
      cases hstep
      obtain ⟨-, hle, heq⟩ := seek_eq_ok.1 hseek
      refine ⟨⟨hc.valid, ?_⟩, rfl, hs, .seek position ?_ ?_⟩
      · exact Int.ofNat_le.1 (heq ▸ hle)
      · rw [hlen]
        exact heq
      · rw [hlen]
        exact Int.ofNat_le.1 (heq ▸ hle)
    · rename_i e hseek
      cases hstep
      refine ⟨hc, rfl, hs, .seekFailed e ?_⟩
      rw [hlen]
      by_contra hin
      rw [not_or, Int.not_lt, Int.not_lt] at hin
      obtain ⟨t, ht⟩ := Int.eq_ofNat_of_zero_le hin.1
      have hbound : t < 2 ^ 64 := by
        have hmax : t ≤ cursor.asset.len := Int.ofNat_le.1 (ht ▸ hin.2)
        exact hmax.trans_lt cursor.asset.record.logicalLen.toNat_lt
      have hok : seek cursor.asset.record.logicalLen cursor.position place = .ok (UInt64.ofNat t) :=
        seek_eq_ok.2 ⟨hin.1, hin.2, by rw [UInt64.toNat_ofNat_of_lt' hbound]; exact ht.symm⟩
      rw [hok] at hseek
      cases hseek

/-- A run of calls on a cursor is a run on its plain content, whatever fails in between. -/
theorem Session.cursorRun_spec (hP : P.Coherent) {cursor : Session P} {start : Nat → Nat}
    (h : cursor.asset.record.Tiled P.idealRef start) (hc : cursor.Ok) {s : Shared} (hs : P.Sound s)
    (calls : List CursorCall) :
    (cursor.cursorRun s calls).2.Ok ∧ PlainRun cursor.asset.plaintext cursor.position.toNat (cursor.cursorRun s calls).1
      (cursor.cursorRun s calls).2.position.toNat := by
  induction calls generalizing cursor s with
  | nil => exact ⟨hc, rfl⟩
  | cons call calls ih =>
    rcases hstep : cursor.cursorStep s call with ⟨reply, cursor', s'⟩
    obtain ⟨hc', hasset, hs', hplain⟩ := cursor.cursorStep_spec hP h hc hs call hstep
    obtain ⟨hok, hrun⟩ := ih (hasset ▸ h) hc' hs'
    have hcons : cursor.cursorRun s (call :: calls) =
        ((call, reply) :: (cursor'.cursorRun s' calls).1, (cursor'.cursorRun s' calls).2) := by rw [cursorRun, hstep]
    rw [hcons]
    exact ⟨hok, _, hplain, hasset ▸ hrun⟩

end
end Hakutaku
