import Hakutaku.Lib.Act

/-!
# Programs that may be stopped from outside

A program fails with an error, which its callers can handle, or is stopped at some instant, and then nothing of it runs any
more. `observe` makes a value of an error; the handlers of a caller are written with it.
-/

/-- Why a program ends before its end. -/
inductive Halt (ε : Type)
  | stopped
  | failed (e : ε)

namespace Act
variable {ε σ α β : Type} {p : Act (Halt ε) σ α} {s : σ} {Q : α → σ → Prop} {E : Halt ε → σ → Prop}

/-- What is computed without the state. -/
instance liftExcept : MonadLift (Except ε) (Act (Halt ε) σ) where
  monadLift
    | .ok a => pure a
    | .error e => throw (.failed e)

/-- The outcome of a program as a value. -/
def observe (p : Act (Halt ε) σ α) : Act (Halt ε) σ (Except ε α) :=
  ExceptT.mk fun s =>
    match p.runOn s with
    | (.ok a, s') => (.ok (.ok a), s')
    | (.error (.failed e), s') => (.ok (.error e), s')
    | (.error .stopped, s') => (.error .stopped, s')

/-- Whether a program fails does not matter. -/
def ignore (p : Act (Halt ε) σ α) : Act (Halt ε) σ Unit := do
  let _ ← observe p

/-- Runs `handler` behind an error of a kind, and passes the error on. -/
def onError (handled : ε → Bool) (p : Act (Halt ε) σ α) (handler : Act (Halt ε) σ Unit) : Act (Halt ε) σ α := do
  match ← observe p with
  | .ok a => return a
  | .error e =>
    ignore (if handled e then handler else pure ())
    throw (.failed e)

/-- Runs `drop` at the end of `p`, whether it fails or not. -/
def guarded (p : Act (Halt ε) σ α) (drop : Act (Halt ε) σ Unit) : Act (Halt ε) σ α := do
  let outcome ← observe p
  ignore drop
  match outcome with
  | .ok a => return a
  | .error e => throw (.failed e)

theorem wp_liftExcept (x : Except ε α) : wp (liftM x : Act (Halt ε) σ α) Q E s ↔
    (∀ a, x = .ok a → Q a s) ∧ ∀ e, x = .error e → E (.failed e) s := by
  cases x with
  | ok a => exact ⟨fun h => ⟨fun b hb => Except.ok.inj hb ▸ h, nofun⟩, fun h => h.1 a rfl⟩
  | error e => exact ⟨fun h => ⟨nofun, fun e' he => Except.error.inj he ▸ h⟩, fun h => h.2 e rfl⟩

theorem wp_observe {Q : Except ε α → σ → Prop} : wp (observe p) Q E s ↔
    wp p (fun a => Q (.ok a)) (fun h t => (h = .stopped → E .stopped t) ∧ ∀ e, h = .failed e → Q (.error e) t) s := by
  have hrun : (observe p).runOn s =
      match p.runOn s with
      | (.ok a, s') => (.ok (.ok a), s')
      | (.error (.failed e), s') => (.ok (.error e), s')
      | (.error .stopped, s') => (.error .stopped, s') := rfl
  unfold wp
  rw [hrun]
  rcases p.runOn s with ⟨(_ | e) | a, t⟩
  · simp
  · simp
  · exact Iff.rfl

/-- Where it is the same for all ends, it is so for the observed one. -/
theorem wp.observe {I : σ → Prop} (h : wp p (fun _ => I) (fun _ => I) s) :
    wp (observe p) (fun _ => I) (fun _ => I) s :=
  wp_observe.2 (h.mono (fun _ _ hI => hI) fun _ _ hI => ⟨fun _ => hI, fun _ _ => hI⟩)

namespace Always
variable {r : σ → σ → Prop} {handler : Act (Halt ε) σ Unit}

theorem liftExcept [Std.Refl r] (x : Except ε α) : Always r (liftM x : Act (Halt ε) σ α) :=
  fun s => (wp_liftExcept x).2 ⟨fun _ _ => Std.Refl.refl s, fun _ _ => Std.Refl.refl s⟩

theorem observe (h : Always r p) : Always r (observe p) := fun s => wp.observe (h s)

theorem ignore [Std.Refl r] [IsTrans σ r] (h : Always r p) : Always r (ignore p) := .bind h.observe fun _ => .pure _

theorem onError [Std.Refl r] [IsTrans σ r] {handled : ε → Bool} (h : Always r p) (hhandler : Always r handler) :
    Always r (onError handled p handler) := by
  refine .bind h.observe fun outcome => ?_
  cases outcome with
  | ok a => exact .pure a
  | error e => exact .bind (ignore (.ite (fun _ => hhandler) fun _ => .pure _)) fun _ => .throw _

end Always

variable {r : σ → σ → Prop} [Std.Refl r] [IsTrans σ r] {handler drop : Act (Halt ε) σ Unit}

/-- A handler that keeps what holds behind the error. -/
theorem wp.onError {handled : ε → Bool} (h : wp p Q E s) (hhandler : Always r handler)
    (hE : ∀ e e' t u, E e t → r t u → E e' u) : wp (onError handled p handler) Q E s := by
  refine wp_bind.2 (wp_observe.2 (h.mono (fun a t ha => ha) fun e t he => ⟨fun hstopped => hstopped ▸ he, fun e' _ => ?_⟩))
  have hkeeps : Always r (ignore (if handled e' then handler else pure ())) := .ignore (.ite (fun _ => hhandler) fun _ => .pure _)
  exact wp_bind.2 ((hkeeps t).mono (fun _ u hu => hE _ _ _ _ he hu) fun _ u hu => hE _ _ _ _ he hu)

/-- The end of a scope, whichever way it is reached. -/
theorem wp.guarded (h : wp p Q E s) (hdrop : Always r drop) (hQ : ∀ a t u, Q a t → r t u → Q a u)
    (hQE : ∀ a e t u, Q a t → r t u → E e u) (hE : ∀ e e' t u, E e t → r t u → E e' u) : wp (guarded p drop) Q E s := by
  refine wp_bind.2 (wp_observe.2 (h.mono (fun a t ha => ?_) fun e t he => ⟨fun hstopped => hstopped ▸ he, fun e' _ => ?_⟩))
  · exact wp_bind.2 ((hdrop.ignore t).mono (fun _ u hu => hQ a t u ha hu) fun _ u hu => hQE a _ t u ha hu)
  · exact wp_bind.2 ((hdrop.ignore t).mono (fun _ u hu => hE _ _ _ _ he hu) fun _ u hu => hE _ _ _ _ he hu)

end Act
