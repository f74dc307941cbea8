import Mathlib.Tactic.Linarith

/-!
# Weakest preconditions for stateful code that can fail

`EStateM ε σ α` is the shape of a function that takes `&mut` state and
returns a `Result`: an error keeps the state that the function left behind.
`wp m Q E s` says what a run of `m` from `s` ends in: `Q` of the value and
the state when it succeeds, `E` of the error and the state when it fails.

* The rules `wp_pure` to `wp_zoom` compute `wp` over the program text.
* `wp_conseq` and `wp_post` replace a callee by its specification.
* `wp_foldlM` is the loop rule.
* `Preserves F m` is the frame form: whatever `m` returns, the state it
  leaves is related to the state it found by the preorder `F`.
-/

namespace StateExcept

variable {ε ε' σ τ α β : Type}

/-- What a run of `m` from `s` ends in. -/
def wp (m : EStateM ε σ α) (Q : α → σ → Prop) (E : ε → σ → Prop) (s : σ) : Prop :=
  match m s with
  | .ok a s' => Q a s'
  | .error e s' => E e s'

/-! ## The rules of the language -/

section

variable (Q : α → σ → Prop) (E : ε → σ → Prop) (s : σ)

@[simp] theorem wp_pure (a : α) :
    wp (pure a : EStateM ε σ α) Q E s ↔ Q a s := Iff.rfl

@[simp] theorem wp_throw (e : ε) :
    wp (throw e : EStateM ε σ α) Q E s ↔ E e s := Iff.rfl

@[simp] theorem wp_get (Q : σ → σ → Prop) :
    wp (get : EStateM ε σ σ) Q E s ↔ Q s s := Iff.rfl

@[simp] theorem wp_set (t : σ) (Q : PUnit → σ → Prop) :
    wp (set t : EStateM ε σ PUnit) Q E s ↔ Q ⟨⟩ t := Iff.rfl

@[simp] theorem wp_modify (f : σ → σ) (Q : PUnit → σ → Prop) :
    wp (modify f : EStateM ε σ PUnit) Q E s ↔ Q ⟨⟩ (f s) := Iff.rfl

@[simp] theorem wp_bind (m : EStateM ε σ α) (f : α → EStateM ε σ β) (Q : β → σ → Prop) :
    wp (m >>= f) Q E s ↔ wp m (fun a s' => wp (f a) Q E s') E s := by
  unfold wp
  change (match EStateM.bind m f s with
    | .ok a s' => Q a s'
    | .error e s' => E e s') ↔ _
  unfold EStateM.bind
  cases m s <;> rfl

@[simp] theorem wp_map (g : α → β) (m : EStateM ε σ α) (Q : β → σ → Prop) :
    wp (g <$> m) Q E s ↔ wp m (fun a s' => Q (g a) s') E s := by
  unfold wp
  change (match EStateM.map g m s with
    | .ok a s' => Q a s'
    | .error e s' => E e s') ↔ _
  unfold EStateM.map
  cases m s <;> rfl

theorem wp_ite {c : Prop} [Decidable c] (m n : EStateM ε σ α) :
    wp (if c then m else n) Q E s ↔ (c → wp m Q E s) ∧ (¬c → wp n Q E s) := by
  by_cases h : c <;> simp [h]

def failIf (c : Prop) [Decidable c] (e : ε) : EStateM ε σ Unit :=
  if c then throw e else pure ()

@[simp] theorem wp_failIf {c : Prop} [Decidable c] (e : ε) (Q : Unit → σ → Prop) :
    wp (failIf c e) Q E s ↔ (c → E e s) ∧ (¬c → Q () s) := by
  unfold failIf
  rw [wp_ite]
  rfl

def okOr (o : Option α) (e : ε) : EStateM ε σ α :=
  match o with
  | some a => pure a
  | none => throw e

@[simp] theorem wp_okOr (o : Option α) (e : ε) :
    wp (okOr o e) Q E s ↔ (∀ a, o = some a → Q a s) ∧ (o = none → E e s) := by
  cases o <;> simp [okOr]

/-- A pure `Result` as a program that leaves the state alone. -/
def liftResult (r : Except ε α) : EStateM ε σ α :=
  match r with
  | .ok a => pure a
  | .error e => throw e

@[simp] theorem wp_liftResult (r : Except ε α) :
    wp (liftResult r) Q E s ↔ (∀ a, r = .ok a → Q a s) ∧ (∀ e, r = .error e → E e s) := by
  cases r <;> simp [liftResult]

@[simp] theorem wp_adaptExcept (f : ε → ε') (m : EStateM ε σ α) (E : ε' → σ → Prop) :
    wp (EStateM.adaptExcept f m) Q E s ↔ wp m Q (fun e s' => E (f e) s') s := by
  unfold wp EStateM.adaptExcept
  cases m s <;> rfl

/-- Run `m` and hand its result, good or bad, to the caller. -/
def attempt (m : EStateM ε σ α) : EStateM ε' σ (Except ε α) := fun s =>
  match m s with
  | .ok a s' => .ok (.ok a) s'
  | .error e s' => .ok (.error e) s'

@[simp] theorem wp_attempt (m : EStateM ε σ α) (Q : Except ε α → σ → Prop) (E : ε' → σ → Prop) :
    wp (attempt m) Q E s ↔
      wp m (fun a s' => Q (.ok a) s') (fun e s' => Q (.error e) s') s := by
  unfold wp attempt
  cases m s <;> rfl

/-- Run `m` on the part `view s` of the state and put the part back. -/
def zoom (view : σ → τ) (put : τ → σ → σ) (m : EStateM ε τ α) : EStateM ε σ α := fun s =>
  match m (view s) with
  | .ok a t => .ok a (put t s)
  | .error e t => .error e (put t s)

@[simp] theorem wp_zoom (view : σ → τ) (put : τ → σ → σ) (m : EStateM ε τ α) :
    wp (zoom view put m) Q E s ↔
      wp m (fun a t => Q a (put t s)) (fun e t => E e (put t s)) (view s) := by
  unfold wp zoom
  cases m (view s) <;> rfl

end

/-! ## Consequence -/

variable {m : EStateM ε σ α} {Q Q' : α → σ → Prop} {E E' : ε → σ → Prop} {s s' : σ}

theorem wp_conseq (h : wp m Q E s) (hQ : ∀ a s', Q a s' → Q' a s') (hE : ∀ e s', E e s' → E' e s') :
    wp m Q' E' s := by
  unfold wp at h ⊢
  cases hm : m s with
  | ok a s' =>
    rw [hm] at h
    exact hQ a s' h
  | error e s' =>
    rw [hm] at h
    exact hE e s' h

theorem wp_post (h : wp m Q E s) (hQ : ∀ a s', Q a s' → Q' a s') : wp m Q' E s :=
  wp_conseq h hQ fun _ _ h => h

theorem wp_and (h : wp m Q E s) (h' : wp m Q' E' s) :
    wp m (fun a s' => Q a s' ∧ Q' a s') (fun e s' => E e s' ∧ E' e s') s := by
  unfold wp at h h' ⊢
  cases hm : m s with
  | ok a s' =>
    rw [hm] at h h'
    exact ⟨h, h'⟩
  | error e s' =>
    rw [hm] at h h'
    exact ⟨h, h'⟩

theorem wp_forall {ι : Type*} {Q : ι → α → σ → Prop} {E : ι → ε → σ → Prop}
    (h : ∀ i, wp m (Q i) (E i) s) :
    wp m (fun a s' => ∀ i, Q i a s') (fun e s' => ∀ i, E i e s') s := by
  unfold wp at h ⊢
  cases hm : m s with
  | ok a s' =>
    intro i
    have := h i
    rwa [hm] at this
  | error e s' =>
    intro i
    have := h i
    rwa [hm] at this

theorem wp_of_forall (hQ : ∀ a s', Q a s') (hE : ∀ e s', E e s') : wp m Q E s := by
  unfold wp
  cases m s with
  | ok a s' => exact hQ a s'
  | error e s' => exact hE e s'

theorem wp_iff : wp m Q E s ↔
      (∀ a s', m s = .ok a s' → Q a s') ∧ ∀ e s', m s = .error e s' → E e s' := by
  unfold wp
  cases m s <;> simp

theorem wp_ok {a : α} (h : wp m Q E s) (hm : m s = .ok a s') : Q a s' := by
  unfold wp at h
  rw [hm] at h
  exact h

theorem wp_error {e : ε} (h : wp m Q E s) (hm : m s = .error e s') : E e s' := by
  unfold wp at h
  rw [hm] at h
  exact h

/-- The state that a run of `m` leaves, whether it succeeds or fails. -/
def after (m : EStateM ε σ α) (s : σ) : σ :=
  match m s with
  | .ok _ s' => s'
  | .error _ s' => s'

theorem after_of_wp {P : σ → Prop}
    (h : wp m (fun _ s' => P s') (fun _ s' => P s') s) : P (after m s) := by
  unfold wp at h
  unfold after
  cases hm : m s <;> simpa [hm] using h

def result? (m : EStateM ε σ α) (s : σ) : Option α :=
  match m s with
  | .ok a _ => some a
  | .error _ _ => none

theorem result?_eq_some {a : α} :
    result? m s = some a ↔ m s = .ok a (after m s) := by
  unfold result? after
  cases m s <;> simp

/-! ## Pure results -/

/-- A chain of fallible computations succeeds when every link does. -/
theorem result_bind_eq_ok {x : Except ε α} {f : α → Except ε β} {b : β} :
    (x >>= f) = .ok b ↔ ∃ a, x = .ok a ∧ f a = .ok b := by
  cases x <;> simp [bind, Except.bind]

/-! ## Loops -/

/-- The loop rule: `I` holds of what is left, the accumulator and the state
before every turn.  A turn that fails ends the loop. -/
theorem wp_foldlM {f : β → α → EStateM ε σ β} {I : List α → β → σ → Prop} {E : ε → σ → Prop}
    (step : ∀ x xs acc s, I (x :: xs) acc s →
      wp (f acc x) (fun acc' s' => I xs acc' s') E s) :
    ∀ (xs : List α) (acc : β) (s : σ), I xs acc s →
      wp (xs.foldlM f acc) (fun acc' s' => I [] acc' s') E s := by
  intro xs
  induction xs with
  | nil => intro acc s h; exact h
  | cons x xs ih =>
    intro acc s h
    rw [List.foldlM_cons, wp_bind]
    exact wp_post (step x xs acc s h) fun acc' s' h' => ih acc' s' h'

/-! ## Programs that preserve a preorder -/

/-- A preorder on states: what a program may do to them. -/
structure Frame (σ : Type) where
  /-- `rel s s'`: the program may turn `s` into `s'`. -/
  rel : σ → σ → Prop
  refl : ∀ s, rel s s
  trans : ∀ {s₁ s₂ s₃}, rel s₁ s₂ → rel s₂ s₃ → rel s₁ s₃

/-- Whatever `m` returns, it turns the state only as `F` allows. -/
def Preserves (F : Frame σ) (m : EStateM ε σ α) : Prop :=
  ∀ s, wp m (fun _ s' => F.rel s s') (fun _ s' => F.rel s s') s

end StateExcept
