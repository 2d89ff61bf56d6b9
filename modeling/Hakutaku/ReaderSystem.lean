import Hakutaku.AssetContent

/-!
# Readers of one package, running at the same time

Any number of sessions, cursors and calls on one opened package. Calls take their steps on the shared
state in any order, and backend calls fail as they like. The invariant keeps the shared state sound,
every session valid, and every call on its way to a right answer.
-/

namespace Hakutaku
open Wire

section
variable [Crypto] [Target]

/-- An `AssetReadSession`, or an `AssetCursor` with its position. -/
structure Session (P : PackageInner) where
  asset : Asset P
  state : ReadState
  position : UInt64

def Session.new {P : PackageInner} (asset : Asset P) : Session P := ⟨asset, .new [], 0⟩

/-- A call on a package, with what its caller passes. A call through a session or a cursor borrows it
until it returns. -/
inductive Call (P : PackageInner)
  | read (asset : Asset P)
  | readAt (asset : Asset P) (offset : UInt64) (destination : Bytes)
  | sessionReadAt (session : Session P) (offset : UInt64) (destination : Bytes)
  | cursorRead (cursor : Session P) (buffer : Bytes)
  | prefetchRange (asset : Asset P) (offset : UInt64) (len : Nat)
  | trim

/-- What a call returns, with the destination it was given. -/
inductive Reply
  | bytes (result : Result Bytes)
  | count (result : Result Nat) (destination : Bytes)
  | unit (result : Result Unit)
deriving DecidableEq

variable {P : PackageInner}

/-- The cursor after a read. -/
def Session.afterRead (cursor : Session P) (r : Result (Nat × UInt64) × ReadState) : Session P where
  asset := cursor.asset
  state := r.2
  position := match r.1 with
    | .ok (_, position) => position
    | .error _ => cursor.position

namespace Call

/-- The session or the cursor a call borrows. -/
def session : Call P → Option (Session P)
  | sessionReadAt session _ _ => some session
  | cursorRead cursor _ => some cursor
  | _ => none

/-- The steps of a call: its reply, and the session it gives back. -/
def program : Call P → Prog Shared (Reply × Option (Session P))
  | read asset => asset.read.run.run (.new []) >>= fun r => .ret (.bytes r.1, none)
  | readAt asset offset destination =>
    (asset.readAtBuffered offset).run.run (.new destination) >>= fun r => .ret (.count r.1 r.2.destination, none)
  | sessionReadAt session offset destination =>
    (session.asset.readAtBuffered offset).run.run { session.state with destination := destination } >>= fun r =>
      .ret (.count r.1 r.2.destination, some { session with state := r.2 })
  | cursorRead cursor buffer =>
    (cursor.asset.cursorRead cursor.position).run.run { cursor.state with destination := buffer } >>= fun r =>
      .ret (.count (r.1.map Prod.fst) r.2.destination, some (cursor.afterRead r))
  | prefetchRange asset offset len =>
    (asset.prefetchRange offset len).run.run (.new []) >>= fun r => .ret (.unit r.1, none)
  | trim => PackageInner.trim.run.run (.new []) >>= fun r => .ret (.unit r.1, none)

/-- The replies of the specified reads, each from the window it starts with. -/
def Specified : Call P → Reply → Prop
  | read asset, .bytes result => ∀ bytes, result = .ok bytes →
    ∃ w', asset.Reading 0 (Asset.freshWindow (zeros asset.len)) (.ok asset.len) w' ∧ bytes = w'.destination
  | readAt asset offset destination, .count result destination' =>
    ∃ w', asset.Reading offset (Asset.freshWindow destination) result w' ∧ destination' = w'.destination
  | sessionReadAt session offset destination, .count result destination' =>
    ∃ w', session.asset.Reading offset { session.state.view with destination := destination } result w' ∧
      destination' = w'.destination
  | cursorRead cursor buffer, .count result buffer' =>
    ∃ w', cursor.asset.Reading cursor.position { cursor.state.view with destination := buffer } result w' ∧
      buffer' = w'.destination
  | prefetchRange _ _ _, .unit _ => True
  | trim, .unit _ => True
  | _, _ => False

/-- The right replies to a call. -/
def Answered : Call P → Reply → Prop
  | read asset, .bytes result => ∀ bytes, result = .ok bytes → bytes = asset.plaintext
  | readAt asset offset destination, .count result destination' =>
    asset.Answers offset.toNat destination result destination'
  | sessionReadAt session offset destination, .count result destination' =>
    session.asset.Answers offset.toNat destination result destination'
  | cursorRead cursor buffer, .count result buffer' =>
    cursor.asset.Answers cursor.position.toNat buffer result buffer'
  | prefetchRange _ _ _, .unit _ => True
  | trim, .unit _ => True
  | _, _ => False

/-- Where the blocks tile the assets, the specified replies are the right ones. -/
theorem Specified.answered (h : ∀ asset : Asset P, ∃ start, asset.record.Tiled P.idealRef start) {c : Call P}
    {reply : Reply} (hreply : c.Specified reply) : c.Answered reply := by
  cases c with
  | read asset =>
    cases reply with
    | bytes result =>
      rintro bytes hbytes
      obtain ⟨start, htiled⟩ := h asset
      obtain ⟨w', hreading, rfl⟩ := hreply bytes hbytes
      exact hreading.eq_plaintext rfl htiled
    | count => exact hreply
    | unit => exact hreply
  | readAt asset offset destination =>
    cases reply with
    | count result destination' =>
      obtain ⟨start, htiled⟩ := h asset
      obtain ⟨w', hreading, rfl⟩ := hreply
      exact hreading.answers htiled
    | bytes => exact hreply
    | unit => exact hreply
  | sessionReadAt session offset destination =>
    cases reply with
    | count result destination' =>
      obtain ⟨start, htiled⟩ := h session.asset
      obtain ⟨w', hreading, rfl⟩ := hreply
      exact hreading.answers htiled
    | bytes => exact hreply
    | unit => exact hreply
  | cursorRead cursor buffer =>
    cases reply with
    | count result destination' =>
      obtain ⟨start, htiled⟩ := h cursor.asset
      obtain ⟨w', hreading, rfl⟩ := hreply
      exact hreading.answers htiled
    | bytes => exact hreply
    | unit => exact hreply
  | prefetchRange =>
    cases reply with
    | unit => trivial
    | bytes => exact hreply
    | count => exact hreply
  | trim =>
    cases reply with
    | unit => trivial
    | bytes => exact hreply
    | count => exact hreply

end Call

/-- A call on its way. -/
structure Thread (P : PackageInner) where
  call : Call P
  program : Prog Shared (Reply × Option (Session P))

structure System (P : PackageInner) where
  shared : Shared
  sessions : List (Session P)
  threads : List (Thread P)
  replies : List (Call P × Reply)

namespace System

/-- A package just opened. -/
def opened (P : PackageInner) (faults : List (Option Fault)) : System P := ⟨.new P.budget faults, [], [], []⟩

inductive Step : System P → System P → Prop
  | openSession {s : System P} (asset : Asset P) : Step s { s with sessions := .new asset :: s.sessions }
  | seek {s : System P} {before after : List (Session P)} {cursor : Session P} (place : SeekFrom) {position : UInt64}
      (hcursor : s.sessions = before ++ cursor :: after)
      (hseek : seek cursor.asset.record.logicalLen cursor.position place = .ok position) :
      Step s { s with sessions := before ++ { cursor with position := position } :: after }
  | call {s : System P} {c : Call P} (hc : c.session = none) :
      Step s { s with threads := ⟨c, c.program⟩ :: s.threads }
  | borrow {s : System P} {c : Call P} {before after : List (Session P)} {session : Session P}
      (hsession : s.sessions = before ++ session :: after) (hc : c.session = some session) :
      Step s { s with sessions := before ++ after, threads := ⟨c, c.program⟩ :: s.threads }
  | advance {s : System P} {before after : List (Thread P)} {t : Thread P} (ht : s.threads = before ++ t :: after) :
      Step s { s with
        shared := (t.program.advance s.shared).2
        threads := before ++ { t with program := (t.program.advance s.shared).1 } :: after }
  | finish {s : System P} {before after : List (Thread P)} {c : Call P} {reply : Reply} {back : Option (Session P)}
      (ht : s.threads = before ++ ⟨c, .ret (reply, back)⟩ :: after) :
      Step s { s with
        sessions := back.toList ++ s.sessions
        threads := before ++ after
        replies := (c, reply) :: s.replies }
  | inject {s : System P} (faults : List (Option Fault)) : Step s { s with shared := { s.shared with faults := faults } }

end System

/-! ### Cursors -/

/-- Where a seek wants to go. -/
def SeekFrom.target (len position : Nat) : SeekFrom → Int
  | start value => value.toNat
  | fromEnd delta => len + delta.toInt
  | fromCurrent delta => position + delta.toInt

omit [Crypto] [Target] in
/-- A seek succeeds iff its target lies in the asset, and then goes there. -/
theorem seek_eq_ok {len position position' : UInt64} {place : SeekFrom} :
    seek len position place = .ok position' ↔
      0 ≤ place.target len.toNat position.toNat ∧ place.target len.toNat position.toNat ≤ len.toNat ∧
        (position'.toNat : Int) = place.target len.toNat position.toNat := by
  have hlen := len.toNat_lt
  have key : ∀ target : Int, ((do
      if target < 0 ∨ (u64Size : Int) ≤ target then fail (.io .invalidInput)
      if (len.toNat : Int) < target then fail (.io .invalidInput)
      return UInt64.ofNat target.toNat : Result UInt64) = .ok position') ↔
        0 ≤ target ∧ target ≤ len.toNat ∧ (position'.toNat : Int) = target := by
    intro target
    have hsize : (u64Size : Int) = 2 ^ 64 := rfl
    simp only [fail_bind, ite_fail_eq_ok, pure_eq_ok, Except.ok.injEq]
    constructor
    · rintro ⟨hrange, hle, rfl⟩
      rw [UInt64.toNat_ofNat_of_lt' (show target.toNat < 2 ^ 64 by omega)]
      omega
    · rintro ⟨hpos, hle, heq⟩
      refine ⟨by omega, by omega, ?_⟩
      rw [← heq, Int.toNat_natCast, UInt64.ofNat_toNat]
  cases place with
  | start value => exact key _
  | fromEnd delta => exact key _
  | fromCurrent delta => exact key _

/-- A session between its calls. -/
structure Session.Ok (x : Session P) : Prop where
  valid : P.Valid x.asset.record x.state
  position : x.position.toNat ≤ x.asset.len

theorem Session.Ok.new (asset : Asset P) : (Session.new asset).Ok := ⟨.new _ _, Nat.zero_le _⟩

/-- A read through a cursor is a read at its position, and moves it behind what was read. -/
theorem cursorRead_reading (hP : P.Coherent) {cursor : Session P} (hc : cursor.Ok) (buffer : Bytes) :
    ((cursor.asset.cursorRead cursor.position).run.run { cursor.state with destination := buffer }).Tolerant P.Sound
      fun r => (cursor.afterRead r).Ok ∧
        cursor.asset.Reading cursor.position { cursor.state.view with destination := buffer }
          (r.1.map Prod.fst) r.2.view ∧
        ∀ n position, r.1 = .ok (n, position) → position.toNat = cursor.position.toNat + n := by
  have hin : ¬ cursor.asset.record.logicalLen < cursor.position := UInt64.not_lt.2 (UInt64.le_iff_toNat_le.2 hc.position)
  unfold Asset.cursorRead
  rw [if_neg hin]
  refine (Asset.readAtBuffered_reading hP (hc.valid.withDestination buffer) cursor.position).bind_except
    (fun n st hread => ?_) fun e st hread => ⟨⟨hread.1, hc.position⟩, hread.2, fun _ _ h => by cases h⟩
  obtain ⟨hs, hreading⟩ := hread
  obtain ⟨hbound, -⟩ := hreading.le_len rfl
  have hlt : cursor.position.toNat + n < 2 ^ 64 := hbound.trans_lt cursor.asset.record.logicalLen.toNat_lt
  have hnext : (cursor.position + UInt64.ofNat n).toNat = cursor.position.toNat + n := by
    rw [UInt64.toNat_add, UInt64.toNat_ofNat_of_lt' ((Nat.le_add_left _ _).trans_lt hlt), Nat.mod_eq_of_lt hlt]
  refine ⟨⟨hs, ?_⟩, hreading, ?_⟩
  · show (cursor.position + UInt64.ofNat n).toNat ≤ cursor.asset.len
    rw [hnext]
    exact hbound
  · rintro m position ⟨⟩
    exact hnext

/-! ### The invariant -/

/-- What a call on its way still has to do. -/
def Thread.Ok (t : Thread P) : Prop :=
  t.program.Tolerant P.Sound fun r => t.call.Specified r.1 ∧ ∀ x ∈ r.2, x.Ok

theorem Call.program_ok (hP : P.Coherent) (c : Call P) (hc : ∀ x ∈ c.session, x.Ok) : Thread.Ok ⟨c, c.program⟩ := by
  cases c with
  | read asset =>
    exact (Asset.read_reading hP (.new _ _)).bind fun r hr => ⟨hr.2, fun x hx => by cases hx⟩
  | readAt asset offset destination =>
    exact (Asset.readAtBuffered_reading hP (.new _ _) offset).bind fun r hr =>
      ⟨⟨_, hr.2, rfl⟩, fun x hx => by cases hx⟩
  | sessionReadAt session offset destination =>
    have hs := hc session rfl
    refine (Asset.readAtBuffered_reading hP (hs.valid.withDestination _) offset).bind fun r hr => ⟨⟨_, hr.2, rfl⟩, ?_⟩
    rintro x ⟨⟩
    exact ⟨hr.1, hs.position⟩
  | cursorRead cursor buffer =>
    refine (cursorRead_reading hP (hc cursor rfl) buffer).bind fun r hr => ⟨⟨_, hr.2.1, rfl⟩, ?_⟩
    rintro x ⟨⟩
    exact hr.1
  | prefetchRange asset offset len =>
    exact Prog.Tolerant.bind (prefetchRange_reads hP (.new asset.record []) asset offset len) fun r _ =>
      ⟨trivial, fun x hx => by cases hx⟩
  | trim =>
    have hs : P.Valid ⟨0, 0, .fixed, .normal, 0, 0, 0, 0⟩ (.new []) := .new _ _
    exact Prog.Tolerant.bind (trim_reads hs) fun r _ => ⟨trivial, fun x hx => by cases hx⟩

namespace System

structure Ok (s : System P) : Prop where
  shared : P.Sound s.shared
  sessions : ∀ x ∈ s.sessions, x.Ok
  threads : ∀ t ∈ s.threads, t.Ok
  replies : ∀ c reply, (c, reply) ∈ s.replies → c.Specified reply

theorem Ok.opened (faults : List (Option Fault)) : (opened P faults).Ok where
  shared := .new _ _ _
  sessions _ h := by cases h
  threads _ h := by cases h
  replies _ _ h := by cases h

theorem Ok.step (hP : P.Coherent) {s s' : System P} (hs : s.Ok) (hstep : Step s s') : s'.Ok := by
  cases hstep with
  | openSession asset => exact { hs with sessions := List.forall_mem_cons.2 ⟨.new asset, hs.sessions⟩ }
  | seek place hcursor hseek =>
    have hsessions := hs.sessions
    rw [hcursor, List.forall_mem_append, List.forall_mem_cons] at hsessions
    obtain ⟨hbefore, hone, hafter⟩ := hsessions
    refine { hs with sessions := List.forall_mem_append.2 ⟨hbefore, List.forall_mem_cons.2 ⟨⟨hone.valid, ?_⟩, hafter⟩⟩ }
    obtain ⟨-, hle, heq⟩ := seek_eq_ok.1 hseek
    rw [← heq] at hle
    exact Int.ofNat_le.1 hle
  | call hc =>
    refine { hs with threads := List.forall_mem_cons.2 ⟨Call.program_ok hP _ fun x hx => ?_, hs.threads⟩ }
    rw [hc] at hx
    cases hx
  | borrow hsession hc =>
    have hsessions := hs.sessions
    rw [hsession, List.forall_mem_append, List.forall_mem_cons] at hsessions
    obtain ⟨hbefore, hone, hafter⟩ := hsessions
    refine ⟨hs.shared, List.forall_mem_append.2 ⟨hbefore, hafter⟩, List.forall_mem_cons.2 ⟨?_, hs.threads⟩, hs.replies⟩
    refine Call.program_ok hP _ fun x hx => ?_
    rw [hc] at hx
    obtain rfl := Option.some.inj hx
    exact hone
  | advance ht =>
    have hthreads := hs.threads
    rw [ht, List.forall_mem_append, List.forall_mem_cons] at hthreads
    obtain ⟨hbefore, hone, hafter⟩ := hthreads
    obtain ⟨hshared, hnext⟩ := Prog.Tolerant.advance hone hs.shared
    exact { hs with
      shared := hshared
      threads := List.forall_mem_append.2 ⟨hbefore, List.forall_mem_cons.2 ⟨hnext, hafter⟩⟩ }
  | finish ht =>
    have hthreads := hs.threads
    rw [ht, List.forall_mem_append, List.forall_mem_cons] at hthreads
    obtain ⟨hbefore, ⟨hanswered, hback⟩, hafter⟩ := hthreads
    refine ⟨hs.shared, List.forall_mem_append.2 ⟨fun x hx => hback x (Option.mem_toList.1 hx), hs.sessions⟩,
      List.forall_mem_append.2 ⟨hbefore, hafter⟩, fun c reply hmem => ?_⟩
    rcases List.mem_cons.1 hmem with heq | hold
    · cases heq
      exact hanswered
    · exact hs.replies c reply hold
  | inject faults => exact { hs with shared := { hs.shared with faults := fun _ _ => trivial } }

theorem Ok.run (hP : P.Coherent) {s s' : System P} (hs : s.Ok) (hrun : Relation.ReflTransGen Step s s') : s'.Ok := by
  induction hrun with
  | refl => exact hs
  | tail _ hstep ih => exact ih.step hP hstep

/-- A call that is left alone runs to its end. -/
theorem run_thread {s : System P} {c : Call P} {p : Prog Shared (Reply × Option (Session P))} {rest : List (Thread P)}
    (hthreads : s.threads = ⟨c, p⟩ :: rest) :
    Relation.ReflTransGen Step s { s with
      shared := (p.run s.shared).2
      threads := ⟨c, .ret (p.run s.shared).1⟩ :: rest } := by
  induction p generalizing s with
  | ret r =>
    cases s
    cases hthreads
    exact .refl
  | step f k ih =>
    have hstep : Step s { s with shared := f s.shared, threads := ⟨c, k s.shared⟩ :: rest } :=
      .advance (t := ⟨c, .step f k⟩) (show s.threads = [] ++ _ :: rest from hthreads)
    exact (ih s.shared (s := { s with shared := f s.shared, threads := ⟨c, k s.shared⟩ :: rest }) rfl).head hstep

/-- A call that needs no session can be made in any state, and returns. -/
theorem exists_reply (s : System P) {c : Call P} (hc : c.session = none) (reply : Reply)
    (hreply : (c.program.run s.shared).1.1 = reply) :
    ∃ s', Relation.ReflTransGen Step s s' ∧ (c, reply) ∈ s'.replies := by
  subst hreply
  have hcall : Step s { s with threads := ⟨c, c.program⟩ :: s.threads } := .call hc
  have hend : ∀ {t : System P} {r : Reply × Option (Session P)} {rest : List (Thread P)},
      t.threads = ⟨c, .ret r⟩ :: rest → Step t ⟨t.shared, r.2.toList ++ t.sessions, rest, (c, r.1) :: t.replies⟩ :=
    fun {t r rest} ht => .finish (show t.threads = [] ++ ⟨c, .ret r⟩ :: rest from ht)
  exact ⟨_, ((run_thread rfl).head hcall).tail (hend rfl), List.mem_cons_self ..⟩

end System
end
end Hakutaku
