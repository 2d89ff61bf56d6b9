import Mathlib.Logic.Relation

/-!
# Programs of indivisible steps

`Prog σ α` is a program over a shared state `σ`, cut at the points where another thread, a failure
or a stop of the process can come in. Two ways to reason about one:

- `Tolerant I p Q`: whatever the other threads do between the steps of `p`, as long as they keep
  `I`, the steps of `p` keep `I` and its value satisfies `Q`;
- `wp G p Q`: alone, every step of `p` is a `G`-step and it ends in `Q`.

`Computes` and `Refines` compare a program that also has local state and errors to a specification
without the shared state, up to errors that are faults of the environment.
-/

/-- A program that ends with a value, or takes a step that replaces the shared state and goes on with
what it saw. -/
inductive Prog (σ α : Type) where
  | ret (a : α)
  | step (f : σ → σ) (k : σ → Prog σ α)

namespace Prog
variable {σ α β : Type}

def bind : Prog σ α → (α → Prog σ β) → Prog σ β
  | ret a, g => g a
  | step f k, g => step f fun s => (k s).bind g

instance : Monad (Prog σ) where
  pure := ret
  bind := bind

@[simp] theorem pure_eq (a : α) : (pure a : Prog σ α) = ret a := rfl

@[simp] theorem ret_bind (a : α) (g : α → Prog σ β) : ret a >>= g = g a := rfl

@[simp] theorem step_bind (f : σ → σ) (k : σ → Prog σ α) (g : α → Prog σ β) :
    step f k >>= g = step f fun s => k s >>= g := rfl

/-- One indivisible access to the shared state. -/
def atomic (g : σ → α × σ) : Prog σ α := step (fun s => (g s).2) fun s => ret (g s).1

/-- The next step, taken in state `s`. -/
def advance : Prog σ α → σ → Prog σ α × σ
  | ret a, s => (ret a, s)
  | step f k, s => (k s, f s)

/-- At most `n` steps. -/
def exec : Nat → Prog σ α → σ → Prog σ α × σ
  | 0, p, s => (p, s)
  | _ + 1, ret a, s => (ret a, s)
  | n + 1, step f k, s => exec n (k s) (f s)

/-- All steps, with nothing in between. -/
def run : Prog σ α → σ → α × σ
  | ret a, s => (a, s)
  | step f k, s => run (k s) (f s)

theorem run_bind (p : Prog σ α) (g : α → Prog σ β) (s : σ) : (p >>= g).run s = (g (p.run s).1).run (p.run s).2 := by
  induction p generalizing s with
  | ret a => rfl
  | step f k ih => exact ih s (f s)

/-! ### Under interference -/

/-- The steps of the program keep `I` and its value satisfies `Q`, whatever else keeps `I` in between. -/
def Tolerant (I : σ → Prop) : Prog σ α → (α → Prop) → Prop
  | ret a, Q => Q a
  | step f k, Q => ∀ s, I s → I (f s) ∧ Tolerant I (k s) Q

section Tolerant
variable {I : σ → Prop} {p : Prog σ α} {Q R : α → Prop} {s : σ}

theorem Tolerant.mono (h : Tolerant I p Q) (hQR : ∀ a, Q a → R a) : Tolerant I p R := by
  induction p with
  | ret a => exact hQR a h
  | step f k ih => exact fun s hs => ⟨(h s hs).1, ih s (h s hs).2⟩

theorem Tolerant.bind {g : α → Prog σ β} {R : β → Prop} (h : Tolerant I p Q) (hg : ∀ a, Q a → Tolerant I (g a) R) :
    Tolerant I (p >>= g) R := by
  induction p with
  | ret a => exact hg a h
  | step f k ih => exact fun s hs => ⟨(h s hs).1, ih s (h s hs).2⟩

theorem Tolerant.atomic {g : σ → α × σ} (h : ∀ s, I s → I (g s).2 ∧ Q (g s).1) : Tolerant I (atomic g) Q := h

/-- What one step of one thread does for the invariant and for the thread. -/
theorem Tolerant.advance (h : Tolerant I p Q) (hs : I s) : I (p.advance s).2 ∧ Tolerant I (p.advance s).1 Q := by
  cases p with
  | ret a => exact ⟨hs, h⟩
  | step f k => exact h s hs

theorem Tolerant.trivial (p : Prog σ α) : Tolerant (fun _ => True) p fun _ => True := by
  induction p with
  | ret a => exact True.intro
  | step f k ih => exact fun s _ => ⟨True.intro, ih s⟩

/-- Programs that go on in the same way after every value they can have are equal. -/
theorem bind_congr {g g' : α → Prog σ β} (h : Tolerant (fun _ => True) p Q) (hg : ∀ a, Q a → g a = g' a) :
    p >>= g = p >>= g' := by
  induction p with
  | ret a => exact hg a h
  | step f k ih =>
    rw [step_bind, step_bind]
    exact congrArg (step f) (funext fun s => ih s (h s True.intro).2)

theorem Tolerant.run (h : Tolerant I p Q) (hs : I s) : I (p.run s).2 ∧ Q (p.run s).1 := by
  induction p generalizing s with
  | ret a => exact ⟨hs, h⟩
  | step f k ih => exact ih s (h s hs).2 (h s hs).1

end Tolerant

/-! ### What the steps are -/

/-- Every step the program can come to is one of the updates `A`. -/
def Takes (A : (σ → σ) → Prop) : Prog σ α → Prop
  | ret _ => True
  | step f k => A f ∧ ∀ s, Takes A (k s)

section Takes
variable {A B : (σ → σ) → Prop} {p : Prog σ α}

theorem Takes.bind {g : α → Prog σ β} (h : Takes A p) (hg : ∀ a, Takes A (g a)) : Takes A (p >>= g) := by
  induction p with
  | ret a => exact hg a
  | step f k ih => exact ⟨h.1, fun s => ih s (h.2 s)⟩

theorem Takes.mono (h : Takes A p) (hAB : ∀ f, A f → B f) : Takes B p := by
  induction p with
  | ret a => exact True.intro
  | step f k ih => exact ⟨hAB f h.1, fun s => ih s (h.2 s)⟩

end Takes

/-! ### Alone -/

/-- Run alone from `s`, every step is a `G`-step, and the program ends in `Q`. -/
def wp (G : σ → σ → Prop) : Prog σ α → (α → σ → Prop) → σ → Prop
  | ret a, Q, s => Q a s
  | step f k, Q, s => G s (f s) ∧ wp G (k s) Q (f s)

section wp
variable {G : σ → σ → Prop} {p : Prog σ α} {Q R : α → σ → Prop} {s : σ}

theorem wp.mono (h : wp G p Q s) (hQR : ∀ a s, Q a s → R a s) : wp G p R s := by
  induction p generalizing s with
  | ret a => exact hQR a s h
  | step f k ih => exact ⟨h.1, ih _ h.2⟩

@[simp] theorem wp_bind {g : α → Prog σ β} {R : β → σ → Prop} :
    wp G (p >>= g) R s ↔ wp G p (fun a s => wp G (g a) R s) s := by
  induction p generalizing s with
  | ret a => rfl
  | step f k ih => exact and_congr_right fun _ => ih _

@[simp] theorem wp_atomic {g : σ → α × σ} : wp G (atomic g) Q s ↔ G s (g s).2 ∧ Q (g s).1 (g s).2 := Iff.rfl

/-- Every instant of the run is reached by `G`-steps. -/
theorem wp.exec (h : wp G p Q s) (n : Nat) : Relation.ReflTransGen G s (p.exec n s).2 := by
  induction n generalizing p s with
  | zero => exact .refl
  | succ n ih =>
    cases p with
    | ret a => exact .refl
    | step f k => exact (ih h.2).head h.1

theorem wp.run (h : wp G p Q s) : Relation.ReflTransGen G s (p.run s).2 ∧ Q (p.run s).1 (p.run s).2 := by
  induction p generalizing s with
  | ret a => exact ⟨.refl, h⟩
  | step f k ih => exact ⟨(ih s h.2).1.head h.1, (ih s h.2).2⟩

end wp

end Prog

/-! ### Programs with local state and errors -/

section Local
variable {σ ε l v α β γ δ : Type}

/-- One step on the shared state. -/
def access (g : σ → α × σ) : ExceptT ε (StateT l (Prog σ)) α :=
  ExceptT.mk fun s => Prog.atomic g >>= fun a => Prog.ret (.ok a, s)

/-- A step after a program with local state and errors. -/
theorem Prog.Tolerant.bind_except {I : σ → Prop} {p : ExceptT ε (StateT l (Prog σ)) α}
    {k : α → ExceptT ε (StateT l (Prog σ)) β} {s : l} {Q : Except ε α × l → Prop} {R : Except ε β × l → Prop}
    (hp : (p.run.run s).Tolerant I Q) (hok : ∀ a s', Q (.ok a, s') → ((k a).run.run s').Tolerant I R)
    (herror : ∀ e s', Q (.error e, s') → R (.error e, s')) : ((p >>= k).run.run s).Tolerant I R := by
  refine Prog.Tolerant.bind hp ?_
  rintro ⟨e | a, s'⟩ hr
  · exact herror e s' hr
  · exact hok a s' hr

/-- From local state `s`, the program returns what `x` is, seen through `f`, or a fault `F` of the
environment. It keeps `V` of the local state and leaves the visible part of it unchanged. -/
def Computes (I : σ → Prop) (V : l → Prop) (view : l → v) (F : ε → Prop) (f : α → β)
    (p : ExceptT ε (StateT l (Prog σ)) α) (x : Except ε β) (s : l) : Prop :=
  (p.run.run s).Tolerant I fun r => V r.2 ∧ view r.2 = view s ∧ (r.1.map f = x ∨ ∃ e, F e ∧ r.1 = .error e)

/-- From local state `s`, the program does to the visible part of the local state what `q` does, and
returns what `q` returns, or it returns a fault `F` of the environment. It keeps `V` in either case. -/
def Refines (I : σ → Prop) (V : l → Prop) (view : l → v) (F : ε → Prop) (p : ExceptT ε (StateT l (Prog σ)) α)
    (q : ExceptT ε (StateM v) α) (s : l) : Prop :=
  (p.run.run s).Tolerant I fun r => V r.2 ∧ ((r.1, view r.2) = q.run.run (view s) ∨ ∃ e, F e ∧ r.1 = .error e)

variable {I : σ → Prop} {V : l → Prop} {view : l → v} {F : ε → Prop} {p : ExceptT ε (StateT l (Prog σ)) α}
  {s s' : l}

namespace Computes
variable {f : α → β} {x : Except ε β}

theorem pure (hs : V s) (a : α) : Computes I V view F f (pure a) (.ok (f a)) s := ⟨hs, rfl, .inl rfl⟩

theorem throw (hs : V s) (e : ε) : Computes I V view F f (throw e) (.error e) s := ⟨hs, rfl, .inl rfl⟩

theorem fault (hs : V s) {e : ε} (he : F e) : Computes I V view F f (MonadExcept.throw e) x s :=
  ⟨hs, rfl, .inr ⟨e, he, rfl⟩⟩

/-- A computation without state. -/
theorem lift (hs : V s) (x : Except ε α) : Computes I V view F id (liftM x) x s := by
  cases x with
  | ok a => exact pure hs a
  | error e => exact throw hs e

theorem liftMap (hs : V s) (x : Except ε α) : Computes I V view F f (liftM x) (x.map f) s := by
  cases x with
  | ok a => exact pure hs a
  | error e => exact throw hs e

theorem bind {g : α → ExceptT ε (StateT l (Prog σ)) γ} {h : γ → δ} {y : β → Except ε δ}
    (hp : Computes I V view F f p x s)
    (hg : ∀ a s', V s' → view s' = view s → x = .ok (f a) → Computes I V view F h (g a) (y (f a)) s') :
    Computes I V view F h (p >>= g) (x >>= y) s := by
  refine Prog.Tolerant.bind hp ?_
  rintro ⟨r, s'⟩ ⟨hV, hview, heq | ⟨e, he, hr⟩⟩
  · cases r with
    | ok a =>
      subst heq
      refine (hg a s' hV hview rfl).mono fun r hr => ?_
      rw [hview] at hr
      exact hr
    | error e =>
      subst heq
      exact ⟨hV, hview, .inl rfl⟩
  · obtain rfl : r = .error e := hr
    exact ⟨hV, hview, .inr ⟨e, he, rfl⟩⟩

theorem ok_bind {a : α} {k : α → ExceptT ε (StateT l (Prog σ)) γ} {h : γ → δ} {y : Except ε δ}
    (hk : Computes I V view F h (k a) y s) : Computes I V view F h (liftM (Except.ok a : Except ε α) >>= k) y s := hk

/-- A step on the shared state whose value the specification does not see. -/
theorem access_bind {g : σ → α × σ} {k : α → ExceptT ε (StateT l (Prog σ)) γ} {h : γ → δ} {y : Except ε δ}
    {Q : α → Prop} (hg : ∀ t, I t → I (g t).2 ∧ Q (g t).1) (hk : ∀ a, Q a → Computes I V view F h (k a) y s) :
    Computes I V view F h (access g >>= k) y s :=
  fun t ht => ⟨(hg t ht).1, hk _ (hg t ht).2⟩

theorem get_bind {k : l → ExceptT ε (StateT l (Prog σ)) γ} {h : γ → δ} {y : Except ε δ}
    (hk : Computes I V view F h (k s) y s) : Computes I V view F h (get >>= k) y s := hk

theorem set_bind {k : PUnit → ExceptT ε (StateT l (Prog σ)) γ} {h : γ → δ} {y : Except ε δ} (hview : view s' = view s)
    (hk : Computes I V view F h (k ⟨⟩) y s') : Computes I V view F h (set s' >>= k) y s :=
  hk.mono fun r hr => by rw [hview] at hr; exact hr

theorem modify_bind {g : l → l} {k : PUnit → ExceptT ε (StateT l (Prog σ)) γ} {h : γ → δ} {y : Except ε δ}
    (hview : view (g s) = view s) (hk : Computes I V view F h (k ⟨⟩) y (g s)) :
    Computes I V view F h (modify g >>= k) y s :=
  hk.mono fun r hr => by rw [hview] at hr; exact hr

theorem ite {c : Prop} [Decidable c] {p' : ExceptT ε (StateT l (Prog σ)) α} {x' : Except ε β}
    (hp : c → Computes I V view F f p x s) (hp' : ¬ c → Computes I V view F f p' x' s) :
    Computes I V view F f (if c then p else p') (if c then x else x') s := by
  split
  · exact hp ‹_›
  · exact hp' ‹_›

end Computes

namespace Refines
variable {q : ExceptT ε (StateM v) α}

theorem pure (hs : V s) (a : α) : Refines I V view F (pure a) (pure a) s := ⟨hs, .inl rfl⟩

theorem throw (hs : V s) (e : ε) : Refines (α := α) I V view F (throw e) (throw e) s := ⟨hs, .inl rfl⟩

theorem run_bind_ok {q' : α → ExceptT ε (StateM v) β} {t t' : v} {a : α} (h : q.run.run t = (.ok a, t')) :
    (q >>= q').run.run t = (q' a).run.run t' := by
  simp only [ExceptT.run_bind, StateT.run_bind, h]
  rfl

theorem run_bind_error {q' : α → ExceptT ε (StateM v) β} {t t' : v} {e : ε} (h : q.run.run t = (.error e, t')) :
    (q >>= q').run.run t = (.error e, t') := by
  simp only [ExceptT.run_bind, StateT.run_bind, h]
  rfl

theorem bind {g : α → ExceptT ε (StateT l (Prog σ)) β} {q' : α → ExceptT ε (StateM v) β}
    (hp : Refines I V view F p q s) (hg : ∀ a s', V s' → Refines I V view F (g a) (q' a) s') :
    Refines I V view F (p >>= g) (q >>= q') s := by
  refine Prog.Tolerant.bind hp ?_
  rintro ⟨r, s'⟩ ⟨hV, heq | ⟨e, he, hr⟩⟩
  · cases r with
    | ok a => rw [run_bind_ok heq.symm]; exact hg a s' hV
    | error e => rw [run_bind_error heq.symm]; exact ⟨hV, .inl rfl⟩
  · obtain rfl : r = .error e := hr
    exact ⟨hV, .inr ⟨e, he, rfl⟩⟩

/-- A part that leaves the visible state alone. -/
theorem computes_bind {f : α → γ} {x : Except ε γ} {g : α → ExceptT ε (StateT l (Prog σ)) β}
    {q : γ → ExceptT ε (StateM v) β} (hp : Computes I V view F f p x s)
    (hg : ∀ a s', V s' → view s' = view s → x = .ok (f a) → Refines I V view F (g a) (q (f a)) s') :
    Refines I V view F (p >>= g) (liftM x >>= q) s := by
  refine Prog.Tolerant.bind hp ?_
  rintro ⟨r, s'⟩ ⟨hV, hview, heq | ⟨e, he, hr⟩⟩
  · cases r with
    | ok a =>
      subst heq
      refine (hg a s' hV hview rfl).mono fun r hr => ?_
      rw [hview] at hr
      exact hr
    | error e =>
      subst heq
      exact ⟨hV, .inl (by rw [← hview]; rfl)⟩
  · obtain rfl : r = .error e := hr
    exact ⟨hV, .inr ⟨e, he, rfl⟩⟩

theorem get_bind {k : l → ExceptT ε (StateT l (Prog σ)) α} {q : v → ExceptT ε (StateM v) α}
    (hk : Refines I V view F (k s) (q (view s)) s) : Refines I V view F (get >>= k) (get >>= q) s := hk

theorem set_bind {k : PUnit → ExceptT ε (StateT l (Prog σ)) α} {q : PUnit → ExceptT ε (StateM v) α} {t : v}
    (hview : view s' = t) (hk : Refines I V view F (k ⟨⟩) (q ⟨⟩) s') :
    Refines I V view F (set s' >>= k) (set t >>= q) s := by
  subst hview
  exact hk

theorem modify_bind {g : l → l} {g' : v → v} {k : PUnit → ExceptT ε (StateT l (Prog σ)) α}
    {q : PUnit → ExceptT ε (StateM v) α} (hview : view (g s) = g' (view s))
    (hk : Refines I V view F (k ⟨⟩) (q ⟨⟩) (g s)) :
    Refines I V view F (modify g >>= k) (modify g' >>= q) s := by
  have hrun : (modify g' >>= q).run.run (view s) = (q ⟨⟩).run.run (view (g s)) := by rw [hview]; rfl
  unfold Refines
  rw [hrun]
  exact hk

theorem set {t : v} (hs : V s') (hview : view s' = t) : Refines I V view F (set s') (set t) s := by
  subst hview
  exact ⟨hs, .inl rfl⟩

theorem modify {g : l → l} {g' : v → v} (hs : V (g s)) (hview : view (g s) = g' (view s)) :
    Refines I V view F (modify g) (modify g') s := by
  refine ⟨hs, .inl ?_⟩
  rw [hview]
  rfl

/-- A last part that leaves the visible state alone. -/
theorem computes {x : Except ε α} (hp : Computes I V view F id p x s) : Refines I V view F p (liftM x) s := by
  refine hp.mono ?_
  rintro ⟨r, s'⟩ ⟨hV, hview, hr | hr⟩
  · refine ⟨hV, .inl ?_⟩
    rw [← hr, hview]
    cases r <;> rfl
  · exact ⟨hV, .inr hr⟩

theorem ite {c : Prop} [Decidable c] {p' : ExceptT ε (StateT l (Prog σ)) α} {q' : ExceptT ε (StateM v) α}
    (hp : c → Refines I V view F p q s) (hp' : ¬ c → Refines I V view F p' q' s) :
    Refines I V view F (if c then p else p') (if c then q else q') s := by
  split
  · exact hp ‹_›
  · exact hp' ‹_›

end Refines

/-! ### What a successful run returns -/

/-- Whatever happens in between, a value the program returns satisfies `Q`. -/
def Yields (p : ExceptT ε (StateT l (Prog σ)) α) (Q : α → Prop) : Prop :=
  ∀ s, (p.run.run s).Tolerant (fun _ => True) fun r => ∀ a, r.1 = .ok a → Q a

namespace Yields
variable {p : ExceptT ε (StateT l (Prog σ)) α} {g g' : α → ExceptT ε (StateT l (Prog σ)) β} {Q : α → Prop}
  {R : β → Prop}

theorem trivial (p : ExceptT ε (StateT l (Prog σ)) α) : Yields p fun _ => True :=
  fun s => (Prog.Tolerant.trivial (p.run.run s)).mono fun _ _ _ _ => True.intro

theorem pure {a : α} (h : Q a) : Yields (Pure.pure a : ExceptT ε (StateT l (Prog σ)) α) Q := by
  rintro s b ⟨⟩
  exact h

theorem lift {x : Except ε α} (h : ∀ a, x = .ok a → Q a) : Yields (liftM x : ExceptT ε (StateT l (Prog σ)) α) Q := by
  cases x with
  | ok a => exact pure (h a rfl)
  | error e => rintro s b ⟨⟩

theorem bind (hp : Yields p Q) (hg : ∀ a, Q a → Yields (g a) R) : Yields (p >>= g) R := by
  intro s
  refine (hp s).bind ?_
  rintro ⟨r | a, s'⟩ hr
  · rintro b ⟨⟩
  · exact hg a (hr a rfl) s'

theorem ite {c : Prop} [Decidable c] {p' : ExceptT ε (StateT l (Prog σ)) α} (hp : c → Yields p Q)
    (hp' : ¬ c → Yields p' Q) : Yields (if c then p else p') Q := by
  split
  · exact hp ‹_›
  · exact hp' ‹_›

/-- Only the values that are returned matter to what comes after. -/
theorem bind_congr (hp : Yields p Q) (hg : ∀ a, Q a → g a = g' a) : p >>= g = p >>= g' := by
  refine funext fun s => Prog.bind_congr (hp s) ?_
  rintro ⟨r | a, s'⟩ hr
  · rfl
  · show (g a).run.run s' = (g' a).run.run s'
    rw [hg a (hr a rfl)]

end Yields
/-! ### The steps of a program with local state and errors -/

/-- From any local state, every step on the shared state is one of the updates `A`. -/
def Touches (A : (σ → σ) → Prop) (p : ExceptT ε (StateT l (Prog σ)) α) : Prop := ∀ s, (p.run.run s).Takes A

namespace Touches
variable {A B : (σ → σ) → Prop} {p : ExceptT ε (StateT l (Prog σ)) α} {k : α → ExceptT ε (StateT l (Prog σ)) β}

theorem pure (a : α) : Touches A (Pure.pure a : ExceptT ε (StateT l (Prog σ)) α) := fun _ => True.intro

theorem throw (e : ε) : Touches A (MonadExcept.throw e : ExceptT ε (StateT l (Prog σ)) α) := fun _ => True.intro

theorem lift (x : Except ε α) : Touches A (liftM x : ExceptT ε (StateT l (Prog σ)) α) := by
  cases x with
  | ok a => exact pure a
  | error e => exact throw e

theorem get : Touches A (MonadState.get : ExceptT ε (StateT l (Prog σ)) l) := fun _ => True.intro

theorem set (s : l) : Touches A (MonadStateOf.set s : ExceptT ε (StateT l (Prog σ)) PUnit) := fun _ => True.intro

theorem update (f : l → l) : Touches A (modify f : ExceptT ε (StateT l (Prog σ)) PUnit) := fun _ => True.intro

theorem bind (hp : Touches A p) (hk : ∀ a, Touches A (k a)) : Touches A (p >>= k) := by
  intro s
  refine Prog.Takes.bind (hp s) ?_
  rintro ⟨e | a, s'⟩
  · exact True.intro
  · exact hk a s'

theorem access {g : σ → α × σ} (hg : A fun s => (g s).2) : Touches A (access g : ExceptT ε (StateT l (Prog σ)) α) :=
  fun _ => ⟨hg, fun _ => True.intro⟩

theorem ite {c : Prop} [Decidable c] {p' : ExceptT ε (StateT l (Prog σ)) α} (hp : c → Touches A p)
    (hp' : ¬ c → Touches A p') : Touches A (if c then p else p') := by
  split
  · exact hp ‹_›
  · exact hp' ‹_›

theorem mono (h : Touches A p) (hAB : ∀ f, A f → B f) : Touches B p := fun s => (h s).mono hAB

end Touches
end Local
