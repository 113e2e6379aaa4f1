import Mathlib.Logic.Basic

/-!
# What a computation does to its state

A call that may fail part-way has an answer and leaves a state behind either way; both are
read off `EStateM`, where an error keeps what was done before it.  `Coupled F R Q x y` runs two
computations side by side from related states: they fail alike up to `F` or answer alike up to `Q`,
and the states stay related.
-/

namespace Hesape.Run

variable {E S α β α' β' : Type}

/-- The state a computation leaves behind. -/
def after (x : EStateM E S α) (s : S) : S :=
  match x s with
  | .ok _ t => t
  | .error _ t => t

/-- What a computation answers. -/
def answer (x : EStateM E S α) (s : S) : Except E α :=
  match x s with
  | .ok a _ => .ok a
  | .error e _ => .error e

variable {x : EStateM E S α} {s t : S}

theorem after_of_ok {a : α} (h : x s = .ok a t) : after x s = t := by
  rw [after, h]

theorem answer_of_ok {a : α} (h : x s = .ok a t) : answer x s = .ok a := by
  rw [answer, h]

theorem after_of_error {e : E} (h : x s = .error e t) : after x s = t := by
  rw [after, h]

theorem answer_of_error {e : E} (h : x s = .error e t) :
    answer x s = .error e := by
  rw [answer, h]

theorem after_bind (x : EStateM E S α) (f : α → EStateM E S β) (s : S) :
    after (x >>= f) s
      = match answer x s with
        | .ok a => after (f a) (after x s)
        | .error _ => after x s := by
  show after (EStateM.bind x f) s = _
  unfold after answer EStateM.bind
  cases x s <;> rfl

theorem answer_bind (x : EStateM E S α) (f : α → EStateM E S β) (s : S) :
    answer (x >>= f) s
      = match answer x s with
        | .ok a => answer (f a) (after x s)
        | .error e => .error e := by
  show answer (EStateM.bind x f) s = _
  unfold answer after EStateM.bind
  cases x s <;> rfl

/-! ### Errors and values -/

/-- A value or an error, taken over as it is. -/
def given (x : Except E α) : EStateM E S α := fun s =>
  match x with
  | .ok a => .ok a s
  | .error e => .error e s

/-- The error of a computation, answered instead of raised. -/
def attempt (x : EStateM E S α) : EStateM E S (Except E α) := fun s => .ok (answer x s) (after x s)

@[simp] theorem answer_given (x : Except E α) (s : S) : answer (given x) s = x := by
  unfold answer given
  cases x <;> rfl

@[simp] theorem after_given (x : Except E α) (s : S) : after (given x) s = s := by
  unfold after given
  cases x <;> rfl

/-! ### Two computations -/

/-- Two errors that are `F`-related, or two answers that are `Q`-related. -/
def Alike (F : E → E → Prop) (Q : α → α' → Prop) : Except E α → Except E α' → Prop
  | .ok a, .ok b => Q a b
  | .error e, .error e' => F e e'
  | _, _ => False

/-- From related states `x` and `y` fail or answer alike, and end related. -/
def Coupled (F : E → E → Prop) (R : S → S → Prop) (Q : α → α' → Prop) (x : EStateM E S α)
    (y : EStateM E S α') : Prop :=
  ∀ s t, R s t → R (after x s) (after y t) ∧ Alike F Q (answer x s) (answer y t)

/-- A computation answers the same in related states and leaves related ones. -/
abbrev Steady (R : S → S → Prop) (x : EStateM E S α) : Prop := Coupled Eq R Eq x x

section Coupled

variable {F : E → E → Prop} {R : S → S → Prop} {Q : α → α' → Prop} {Q' : β → β' → Prop}

theorem Coupled.pure {a : α} {b : α'} (hQ : Q a b) :
    Coupled F R Q (Pure.pure a : EStateM E S α) (Pure.pure b) :=
  fun _ _ hR => ⟨hR, hQ⟩

theorem Coupled.throw {e e' : E} (hF : F e e') :
    Coupled F R Q (MonadExcept.throw e : EStateM E S α) (MonadExcept.throw e') :=
  fun _ _ hR => ⟨hR, hF⟩

theorem Coupled.bind {y : EStateM E S α'} {f : α → EStateM E S β}
    {g : α' → EStateM E S β'} (hx : Coupled F R Q x y)
    (hf : ∀ a b, Q a b → Coupled F R Q' (f a) (g b)) : Coupled F R Q' (x >>= f) (y >>= g) := by
  intro s t hR
  obtain ⟨hR', hQ⟩ := hx s t hR
  rw [after_bind, after_bind, answer_bind, answer_bind]
  match answer x s, answer y t, hQ with
  | .ok a, .ok b, hQ => exact hf a b hQ _ _ hR'
  | .error e, .error e', hF => exact ⟨hR', hF⟩

/-- An error answered instead of raised is related as it was. -/
theorem Coupled.attempt {y : EStateM E S α'} {G : E → E → Prop} (hx : Coupled F R Q x y) :
    Coupled G R (Alike F Q) (Run.attempt x) (Run.attempt y) := hx

variable {y : EStateM E S α}

/-- Answers and errors that are equal up to equality are equal. -/
theorem Coupled.answer_eq (hx : Coupled Eq R Eq x y) {s t : S} (hR : R s t) :
    answer x s = answer y t := by
  match answer x s, answer y t, (hx s t hR).2 with
  | .ok _, .ok _, h => exact congrArg _ h
  | .error _, .error _, h => exact congrArg _ h

theorem coupled_of_eq
    (h : ∀ s t, R s t → R (after x s) (after y t) ∧ answer x s = answer y t) : Coupled Eq R Eq x y := by
  intro s t hR
  obtain ⟨hR', heq⟩ := h s t hR
  refine ⟨hR', ?_⟩
  rw [heq]
  cases answer y t <;> exact rfl

end Coupled

end Hesape.Run
