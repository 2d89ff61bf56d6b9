import Mathlib.Tactic

/-!
# Stateful programs that may stop with an error

A program over a state `σ` with errors `ε` that keeps the state it reached when it stops. `wp p Q E s` is
its weakest precondition: started in `s`, `p` either returns `a` in a state with `Q a` or stops with `e`
in a state with `E e`.
-/

abbrev Act (ε σ α : Type) := ExceptT ε (StateM σ) α

namespace Act
variable {ε σ α β ι : Type} {p : Act ε σ α} {Q R : α → σ → Prop} {E F : ε → σ → Prop} {s : σ}

/-- The outcome of a program and the state it ends in. -/
def runOn (p : Act ε σ α) (s : σ) : Except ε α × σ := p.run s

def wp (p : Act ε σ α) (Q : α → σ → Prop) (E : ε → σ → Prop) (s : σ) : Prop :=
  match p.runOn s with
  | (.ok a, s') => Q a s'
  | (.error e, s') => E e s'

theorem runOn_bind {g : α → Act ε σ β} :
    (p >>= g).runOn s =
      match p.runOn s with
      | (.ok a, s') => (g a).runOn s'
      | (.error e, s') => (.error e, s') := by
  show (ExceptT.run (p >>= g)) s = _
  rw [ExceptT.run_bind]
  show StateT.bind p.run _ s = _
  unfold StateT.bind runOn
  rcases p.run s with ⟨_ | _, _⟩ <;> rfl

theorem runOn_bind_ok {g : α → Act ε σ β} {a : α} {s' : σ} (h : p.runOn s = (.ok a, s')) :
    (p >>= g).runOn s = (g a).runOn s' := by rw [runOn_bind, h]

theorem runOn_bind_error {g : α → Act ε σ β} {e : ε} {s' : σ} (h : p.runOn s = (.error e, s')) :
    (p >>= g).runOn s = (.error e, s') := by rw [runOn_bind, h]

theorem runOn_bind_eq_ok {g : α → Act ε σ β} {b : β} {t : σ} :
    (p >>= g).runOn s = (.ok b, t) ↔ ∃ a s', p.runOn s = (.ok a, s') ∧ (g a).runOn s' = (.ok b, t) := by
  rw [runOn_bind]
  constructor
  · intro h
    rcases hp : p.runOn s with ⟨_ | a, s'⟩
    · rw [hp] at h
      cases h
    · rw [hp] at h
      exact ⟨a, s', rfl, h⟩
  · rintro ⟨a, s', hp, h⟩
    rw [hp]
    exact h

theorem runOn_get_bind {g : σ → Act ε σ β} : (get >>= g).runOn s = (g s).runOn s := runOn_bind

theorem runOn_modify_bind {f : σ → σ} {g : PUnit → Act ε σ β} :
    (modify f >>= g).runOn s = (g ⟨⟩).runOn (f s) := runOn_bind

theorem runOn_lift_bind_eq_ok {x : Except ε α} {g : α → Act ε σ β} {b : β} {t : σ} :
    ((liftM x : Act ε σ α) >>= g).runOn s = (.ok b, t) ↔ ∃ a, x = .ok a ∧ (g a).runOn s = (.ok b, t) := by
  rw [runOn_bind_eq_ok]
  constructor
  · rintro ⟨a, s', hx, h⟩
    obtain ⟨rfl, rfl⟩ := Prod.mk.inj hx
    exact ⟨a, rfl, h⟩
  · rintro ⟨a, rfl, h⟩
    exact ⟨a, s, rfl, h⟩

@[simp] theorem runOn_pure (a : α) : (pure a : Act ε σ α).runOn s = (.ok a, s) := rfl

@[simp] theorem runOn_throw (e : ε) : (throw e : Act ε σ α).runOn s = (.error e, s) := rfl

@[simp] theorem runOn_get : (get : Act ε σ σ).runOn s = (.ok s, s) := rfl

@[simp] theorem runOn_modify (f : σ → σ) : (modify f : Act ε σ PUnit).runOn s = (.ok ⟨⟩, f s) := rfl

@[simp] theorem runOn_lift (x : Except ε α) : (liftM x : Act ε σ α).runOn s = (x, s) := rfl

/-! ### Rules -/

@[simp] theorem wp_pure (a : α) : wp (pure a) Q E s ↔ Q a s := Iff.rfl

@[simp] theorem wp_throw (e : ε) : wp (throw e : Act ε σ α) Q E s ↔ E e s := Iff.rfl

@[simp] theorem wp_get {Q : σ → σ → Prop} : wp get Q E s ↔ Q s s := Iff.rfl

@[simp] theorem wp_modify {Q : PUnit → σ → Prop} (f : σ → σ) : wp (modify f) Q E s ↔ Q ⟨⟩ (f s) := Iff.rfl

theorem wp_lift (x : Except ε α) :
    wp (liftM x) Q E s ↔ (∀ a, x = .ok a → Q a s) ∧ ∀ e, x = .error e → E e s := by
  cases x with
  | ok a =>
    refine ⟨fun h => ⟨fun b hb => ?_, fun e he => (by cases he)⟩, fun h => h.1 a rfl⟩
    cases hb
    exact h
  | error e =>
    refine ⟨fun h => ⟨fun b hb => (by cases hb), fun e' he => ?_⟩, fun h => h.2 e rfl⟩
    cases he
    exact h

theorem wp.lift_ok {x : Except ε α} {a : α} (hx : x = .ok a) (h : Q a s) : wp (liftM x) Q E s := by
  subst hx
  exact h

@[simp] theorem wp_bind {g : α → Act ε σ β} {Q : β → σ → Prop} :
    wp (p >>= g) Q E s ↔ wp p (fun a => wp (g a) Q E) E s := by
  simp only [wp, runOn_bind]
  rcases p.runOn s with ⟨_ | _, _⟩ <;> rfl

theorem wp_ite {c : Prop} [Decidable c] {p q : Act ε σ α} :
    wp (if c then p else q) Q E s ↔ (c → wp p Q E s) ∧ (¬ c → wp q Q E s) := by
  split <;> simp [*]

theorem wp_iff : wp p Q E s ↔
    (∀ a s', p.runOn s = (.ok a, s') → Q a s') ∧ ∀ e s', p.runOn s = (.error e, s') → E e s' := by
  unfold wp
  rcases p.runOn s with ⟨e | a, t⟩
  · refine ⟨fun h => ⟨fun a s' hrun => (by cases hrun), fun e' s' hrun => ?_⟩, fun h => h.2 e t rfl⟩
    cases hrun
    exact h
  · refine ⟨fun h => ⟨fun a' s' hrun => ?_, fun e s' hrun => (by cases hrun)⟩, fun h => h.1 a t rfl⟩
    cases hrun
    exact h

theorem wp.ok (h : wp p Q E s) {a : α} {s' : σ} (hrun : p.runOn s = (.ok a, s')) : Q a s' := (wp_iff.1 h).1 a s' hrun

theorem wp.error (h : wp p Q E s) {e : ε} {s' : σ} (hrun : p.runOn s = (.error e, s')) : E e s' :=
  (wp_iff.1 h).2 e s' hrun

theorem wp.mono (h : wp p Q E s) (hQ : ∀ a s', Q a s' → R a s') (hE : ∀ e s', E e s' → F e s') : wp p R F s :=
  wp_iff.2 ⟨fun a s' hrun => hQ a s' (h.ok hrun), fun e s' hrun => hE e s' (h.error hrun)⟩

theorem wp.and (h : wp p Q E s) (h' : wp p R F s) :
    wp p (fun a s' => Q a s' ∧ R a s') (fun e s' => E e s' ∧ F e s') s :=
  wp_iff.2 ⟨fun _ _ hrun => ⟨h.ok hrun, h'.ok hrun⟩, fun _ _ hrun => ⟨h.error hrun, h'.error hrun⟩⟩

/-- `wp` without a claim about the errors. -/
abbrev ensures (p : Act ε σ α) (Q : α → σ → Prop) (s : σ) : Prop := wp p Q (fun _ _ => True) s

theorem ensures.mono (h : ensures p Q s) (hQ : ∀ a s', Q a s' → R a s') : ensures p R s :=
  wp.mono h hQ fun _ _ _ => trivial

theorem ensures_of_runOn (h : ∀ a s', p.runOn s = (.ok a, s') → Q a s') : ensures p Q s :=
  wp_iff.2 ⟨h, fun _ _ _ => trivial⟩

theorem ensures.and (h : ensures p Q s) (h' : ensures p R s) : ensures p (fun a s' => Q a s' ∧ R a s') s :=
  ensures_of_runOn fun _ _ hrun => ⟨h.ok hrun, h'.ok hrun⟩

/-- Whatever state it starts in, `p` only returns values with `P`. -/
def Returns (p : Act ε σ α) (P : α → Prop) : Prop := ∀ s, ensures p (fun a _ => P a) s

namespace Returns
variable {P : α → Prop} {P' : β → Prop}

theorem trivial (p : Act ε σ α) : Returns p fun _ => True := fun _ => ensures_of_runOn fun _ _ _ => True.intro

/-- Of all values there are. -/
theorem of_forall (p : Act ε σ α) (h : ∀ a, P a) : Returns p P := fun _ => ensures_of_runOn fun a _ _ => h a

theorem pure {a : α} (h : P a) : Returns (Pure.pure a : Act ε σ α) P := fun _ => h

theorem throw (e : ε) : Returns (MonadExcept.throw e : Act ε σ α) P := fun _ => True.intro

theorem lift {x : Except ε α} (h : ∀ a, x = .ok a → P a) : Returns (liftM x : Act ε σ α) P :=
  fun _ => (wp_lift x).2 ⟨h, fun _ _ => True.intro⟩

theorem bind {g : α → Act ε σ β} (hp : Returns p P) (hg : ∀ a, P a → Returns (g a) P') : Returns (p >>= g) P' :=
  fun s => wp_bind.2 ((hp s).mono fun a s' h => hg a h s')

theorem get_bind {g : σ → Act ε σ β} (hg : ∀ s, Returns (g s) P') : Returns (get >>= g) P' := fun s => hg s s

theorem ite {c : Prop} [Decidable c] {q : Act ε σ α} (hp : c → Returns p P) (hq : ¬ c → Returns q P) :
    Returns (if c then p else q) P := by
  split
  · exact hp ‹_›
  · exact hq ‹_›

end Returns

/-- A successful run of `p` ends in a state that is `R`-related to its start. -/
def Within (R : σ → σ → Prop) (p : Act ε σ α) : Prop := ∀ s, ensures p (fun _ s' => R s s') s

namespace Within
variable {r : σ → σ → Prop}

theorem pure [Std.Refl r] (a : α) : Within r (Pure.pure a : Act ε σ α) := fun s => Std.Refl.refl s

theorem throw (e : ε) : Within r (MonadExcept.throw e : Act ε σ α) := fun _ => True.intro

theorem lift [Std.Refl r] (x : Except ε α) : Within r (liftM x : Act ε σ α) :=
  fun s => (wp_lift x).2 ⟨fun _ _ => Std.Refl.refl s, fun _ _ => True.intro⟩

theorem update {f : σ → σ} (h : ∀ s, r s (f s)) : Within r (modify f : Act ε σ PUnit) := h

theorem bind [IsTrans σ r] {g : α → Act ε σ β} (hp : Within r p) (hg : ∀ a, Within r (g a)) : Within r (p >>= g) :=
  fun s => wp_bind.2 ((hp s).mono fun a s' h => (hg a s').mono fun _ _ h' => IsTrans.trans _ _ _ h h')

theorem get_bind {g : σ → Act ε σ β} (hg : ∀ s, Within r (g s)) : Within r (get >>= g) := fun s => hg s s

theorem ite {c : Prop} [Decidable c] {q : Act ε σ α} (hp : c → Within r p) (hq : ¬ c → Within r q) :
    Within r (if c then p else q) := by
  split
  · exact hp ‹_›
  · exact hq ‹_›

end Within

/-- However `p` ends, it is in a state that is `R`-related to its start. -/
def Always (R : σ → σ → Prop) (p : Act ε σ α) : Prop := ∀ s, wp p (fun _ s' => R s s') (fun _ s' => R s s') s

namespace Always
variable {r : σ → σ → Prop}

theorem pure [Std.Refl r] (a : α) : Always r (Pure.pure a : Act ε σ α) := fun s => Std.Refl.refl s

theorem throw [Std.Refl r] (e : ε) : Always r (MonadExcept.throw e : Act ε σ α) := fun s => Std.Refl.refl s

theorem lift [Std.Refl r] (x : Except ε α) : Always r (liftM x : Act ε σ α) :=
  fun s => (wp_lift x).2 ⟨fun _ _ => Std.Refl.refl s, fun _ _ => Std.Refl.refl s⟩

theorem update {f : σ → σ} (h : ∀ s, r s (f s)) : Always r (modify f : Act ε σ PUnit) := h

theorem bind [IsTrans σ r] {g : α → Act ε σ β} (hp : Always r p) (hg : ∀ a, Always r (g a)) : Always r (p >>= g) :=
  fun s => wp_bind.2 (wp.mono (hp s) (fun a s' h => wp.mono (hg a s') (fun _ _ h' => IsTrans.trans _ _ _ h h')
    fun _ _ h' => IsTrans.trans _ _ _ h h') fun _ _ h => h)

theorem get_bind {g : σ → Act ε σ β} (hg : ∀ s, Always r (g s)) : Always r (get >>= g) := fun s => hg s s

theorem ite {c : Prop} [Decidable c] {q : Act ε σ α} (hp : c → Always r p) (hq : ¬ c → Always r q) :
    Always r (if c then p else q) := by
  split
  · exact hp ‹_›
  · exact hq ‹_›

end Always

/-- A successful run of `p` is carried by `f`: from the image of its start it returns the same and ends in the
image of its end. -/
def Carried (f : σ → σ) (p : Act ε σ α) : Prop := ∀ s a s', p.runOn s = (.ok a, s') → p.runOn (f s) = (.ok a, f s')

namespace Carried
variable {f : σ → σ}

theorem pure (a : α) : Carried f (Pure.pure a : Act ε σ α) := by
  intro s a' s' hrun
  cases hrun
  rfl

theorem throw (e : ε) : Carried f (MonadExcept.throw e : Act ε σ α) := by
  intro s a s' hrun
  cases hrun

theorem lift (x : Except ε α) : Carried f (liftM x : Act ε σ α) := by
  intro s a s' hrun
  rw [runOn_lift] at hrun ⊢
  cases hrun
  rfl

theorem update {g : σ → σ} (h : ∀ s, g (f s) = f (g s)) : Carried f (modify g : Act ε σ PUnit) := by
  intro s a s' hrun
  cases hrun
  rw [runOn_modify, h]

theorem bind {g : α → Act ε σ β} (hp : Carried f p) (hg : ∀ a, Carried f (g a)) : Carried f (p >>= g) := by
  intro s b s' hrun
  rw [runOn_bind] at hrun
  rcases hmid : p.runOn s with ⟨_ | a, t⟩
  · rw [hmid] at hrun
    cases hrun
  · rw [hmid] at hrun
    rw [runOn_bind_ok (hp s a t hmid)]
    exact hg a t b s' hrun

/-- A program that looks at a part of the state that `f` does not touch. -/
theorem get_bind {g : σ → Act ε σ β} (hg : ∀ s, Carried f (g s)) (hsame : ∀ s, g (f s) = g s) :
    Carried f (get >>= g) := by
  intro s b s' hrun
  rw [runOn_bind_ok runOn_get] at hrun ⊢
  rw [hsame]
  exact hg s s b s' hrun

theorem ite {c : Prop} [Decidable c] {q : Act ε σ α} (hp : c → Carried f p) (hq : ¬ c → Carried f q) :
    Carried f (if c then p else q) := by
  split
  · exact hp ‹_›
  · exact hq ‹_›

end Carried

/-- A loop over a list: `I` holds of the items already done and the state reached. -/
theorem wp_forM {f : ι → Act ε σ PUnit} {I : List ι → σ → Prop} (xs : List ι)
    (hstep : ∀ done x rest s, xs = done ++ x :: rest → I done s → wp (f x) (fun _ => I (done ++ [x])) E s)
    (h : I [] s) : wp (xs.forM f) (fun _ => I xs) E s := by
  have hsuffix : ∀ rest done s, xs = done ++ rest → I done s → wp (rest.forM f) (fun _ => I xs) E s := by
    intro rest
    induction rest with
    | nil =>
      intro done s hxs hI
      rw [List.append_nil] at hxs
      rw [hxs]
      exact hI
    | cons x rest ih =>
      intro done s hxs hI
      show wp (f x >>= fun _ => rest.forM f) _ E s
      rw [wp_bind]
      exact (hstep done x rest s hxs hI).mono (fun _ s' hI' => ih (done ++ [x]) s' (by simp [hxs]) hI') fun _ _ h => h
  exact hsuffix xs [] s rfl h

end Act
