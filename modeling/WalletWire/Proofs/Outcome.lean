import WalletWire.Wallet.Error
import Mathlib

/-!
# Outcomes of operations

Reading and writing are programs with a state and an error.  The rules here say, step by step, what
it means that such a program ends well (`bind_ok_iff` and its kin), which errors it can end with
(`FailsOnly`), and that it leaves the state alone when it fails (`Atomic`).  They come for programs
that keep a state, in the namespace `Program`, and for plain results, in the namespace `Outcome`.
-/

namespace WalletWire

variable {ε σ α β : Type}

/-! ## Programs with a state -/

namespace Program

section Success

variable {s s' : σ}

@[simp] theorem bind_ok_iff {x : EStateM ε σ α} {f : α → EStateM ε σ β} {b : β} :
    (x >>= f) s = .ok b s' ↔ ∃ a mid, x s = .ok a mid ∧ f a mid = .ok b s' := by
  show EStateM.bind x f s = _ ↔ _
  unfold EStateM.bind
  cases x s <;> simp

@[simp] theorem map_ok_iff {x : EStateM ε σ α} {f : α → β} {b : β} :
    (f <$> x) s = .ok b s' ↔ ∃ a, x s = .ok a s' ∧ f a = b := by
  show EStateM.map f x s = _ ↔ _
  unfold EStateM.map
  cases x s <;> simp [and_comm]

@[simp] theorem pure_ok_iff {a b : α} :
    (pure a : EStateM ε σ α) s = .ok b s' ↔ a = b ∧ s = s' := by
  show EStateM.Result.ok a s = _ ↔ _
  simp

@[simp] theorem throw_ok_iff {e : ε} {b : α} :
    (throw e : EStateM ε σ α) s = .ok b s' ↔ False := by
  show EStateM.Result.error e s = _ ↔ _
  simp

@[simp] theorem get_ok_iff {t : σ} : (get : EStateM ε σ σ) s = .ok t s' ↔ s = t ∧ s = s' := by
  show EStateM.Result.ok s s = _ ↔ _
  simp

@[simp] theorem modify_ok_iff {f : σ → σ} :
    (modify f : EStateM ε σ PUnit) s = .ok () s' ↔ f s = s' := by
  show EStateM.Result.ok () (f s) = _ ↔ _
  simp

@[simp] theorem lift_ok_iff {x : EStateM Cell.Error σ α} {a : α} :
    (liftM x : EStateM BodyError σ α) s = .ok a s' ↔ x s = .ok a s' := by
  show EStateM.adaptExcept BodyError.ofCell x s = _ ↔ _
  unfold EStateM.adaptExcept
  cases x s <;> simp

@[simp] theorem ofExcept_ok_iff {x : Except ε α} {a : α} :
    (MonadExcept.ofExcept x : EStateM ε σ α) s = .ok a s' ↔ x = .ok a ∧ s = s' := by
  cases x with
  | ok b =>
    show EStateM.Result.ok b s = _ ↔ _
    simp
  | error e =>
    show EStateM.Result.error e s = _ ↔ _
    simp

/-- What follows a step that ends well. -/
theorem bind_of_ok {x : EStateM ε σ α} {f : α → EStateM ε σ β} {a : α} (done : x s = .ok a s') :
    (x >>= f) s = f a s' := by
  show EStateM.bind x f s = _
  rw [EStateM.bind, done]

/-- It is enough to compare what follows where the first step ends well. -/
theorem bind_congr_of_ok {x : EStateM ε σ α} {f g : α → EStateM ε σ β}
    (same : ∀ s a s', x s = .ok a s' → f a = g a) : x >>= f = x >>= g := by
  funext s
  show EStateM.bind x f s = EStateM.bind x g s
  unfold EStateM.bind
  cases done : x s with
  | ok a s' => exact congrFun (same s a s' done) s'
  | error e s' => rfl

end Success

/-- Whatever state it starts in, the program ends with no errors but those in `P`. -/
def FailsOnly (x : EStateM ε σ α) (P : ε → Prop) : Prop :=
  ∀ s e s', x s = .error e s' → P e

section Failure

variable {P : ε → Prop}

theorem bind_error_iff {x : EStateM ε σ α} {f : α → EStateM ε σ β} {s s' : σ} {e : ε} :
    (x >>= f) s = .error e s' ↔
      x s = .error e s' ∨ ∃ a mid, x s = .ok a mid ∧ f a mid = .error e s' := by
  show EStateM.bind x f s = _ ↔ _
  unfold EStateM.bind
  cases x s <;> simp

/-- A program ends well or fails. -/
theorem exists_error_iff {x : EStateM ε σ α} {s : σ} :
    (∃ e s', x s = .error e s') ↔ ¬∃ a s', x s = .ok a s' := by
  cases x s <;> simp

theorem FailsOnly.mono {x : EStateM ε σ α} {Q : ε → Prop} (h : FailsOnly x P)
    (weaker : ∀ e, P e → Q e) : FailsOnly x Q :=
  fun s e s' failed => weaker e (h s e s' failed)

theorem FailsOnly.bind {x : EStateM ε σ α} {f : α → EStateM ε σ β} (first : FailsOnly x P)
    (second : ∀ a, FailsOnly (f a) P) : FailsOnly (x >>= f) P := by
  intro s e s' h
  obtain failed | ⟨a, mid, -, failed⟩ := bind_error_iff.1 h
  · exact first _ _ _ failed
  · exact second _ _ _ _ failed

theorem failsOnly_pure (a : α) : FailsOnly (pure a : EStateM ε σ α) P := nofun

theorem failsOnly_get : FailsOnly (get : EStateM ε σ σ) P := nofun

theorem failsOnly_modify {f : σ → σ} : FailsOnly (modify f : EStateM ε σ PUnit) P := nofun

theorem failsOnly_throw {e : ε} (h : P e) : FailsOnly (throw e : EStateM ε σ α) P := by
  intro s e' s' thrown
  cases thrown
  exact h

theorem lift_error_iff {x : EStateM Cell.Error σ α} {s s' : σ} {e : BodyError} :
    (liftM x : EStateM BodyError σ α) s = .error e s' ↔
      ∃ cause, x s = .error cause s' ∧ .ofCell cause = e := by
  show EStateM.adaptExcept BodyError.ofCell x s = _ ↔ _
  unfold EStateM.adaptExcept
  cases x s <;> simp [and_comm]

theorem ofExcept_error_iff {x : Except ε α} {s s' : σ} {e : ε} :
    (MonadExcept.ofExcept x : EStateM ε σ α) s = .error e s' ↔ x = .error e ∧ s = s' := by
  cases x with
  | ok a =>
    show EStateM.Result.ok a s = _ ↔ _
    simp
  | error cause =>
    show EStateM.Result.error cause s = _ ↔ _
    simp

theorem FailsOnly.lift {x : EStateM Cell.Error σ α} {Q : Cell.Error → Prop}
    {P : BodyError → Prop} (h : FailsOnly x Q) (into : ∀ e, Q e → P (.ofCell e)) :
    FailsOnly (liftM x : EStateM BodyError σ α) P := by
  intro s e s' failed
  obtain ⟨cause, lifted, rfl⟩ := lift_error_iff.1 failed
  exact into _ (h _ _ _ lifted)

end Failure

/-- A run that fails leaves the state as it was. -/
def Atomic (x : EStateM ε σ α) : Prop :=
  ∀ s e s', x s = .error e s' → s' = s

section Atomic

theorem atomic_throw (e : ε) : Atomic (throw e : EStateM ε σ α) := by
  rintro s e' s' ⟨⟩
  rfl

/-- What follows cannot fail. -/
theorem Atomic.bind_pure {x : EStateM ε σ α} (h : Atomic x) (f : α → β) :
    Atomic (x >>= fun a => pure (f a)) := by
  intro s e s' failed
  obtain failed | ⟨_, _, -, ⟨⟩⟩ := bind_error_iff.1 failed
  exact h s e s' failed

theorem Atomic.map {x : EStateM ε σ α} (h : Atomic x) (f : α → β) : Atomic (f <$> x) := by
  intro s e s' failed
  apply h.bind_pure f s e s'
  rwa [bind_pure_comp]

theorem Atomic.lift {x : EStateM Cell.Error σ α} (h : Atomic x) :
    Atomic (liftM x : EStateM BodyError σ α) := by
  intro s e s' failed
  obtain ⟨cause, failed, -⟩ := lift_error_iff.1 failed
  exact h s cause s' failed

end Atomic

end Program

/-! ## Plain results -/

namespace Outcome

@[simp] theorem bind_ok_iff {x : Except ε α} {f : α → Except ε β} {b : β} :
    (x >>= f) = .ok b ↔ ∃ a, x = .ok a ∧ f a = .ok b := by
  cases x with
  | ok a =>
    show f a = _ ↔ _
    simp
  | error e =>
    show Except.error e = _ ↔ _
    simp

theorem ok_bind {a : α} {f : α → Except ε β} : (Except.ok a >>= f) = f a := rfl

@[simp] theorem map_ok_iff {x : Except ε α} {f : α → β} {b : β} :
    (f <$> x) = .ok b ↔ ∃ a, x = .ok a ∧ f a = b := by
  cases x with
  | ok a =>
    show Except.ok (f a) = _ ↔ _
    simp
  | error e =>
    show Except.error e = _ ↔ _
    simp

@[simp] theorem pure_ok_iff {a b : α} : (pure a : Except ε α) = .ok b ↔ a = b := by
  show Except.ok a = _ ↔ _
  simp

@[simp] theorem mapError_ok_iff {ε' : Type} {x : Except ε α} {f : ε → ε'} {a : α} :
    x.mapError f = .ok a ↔ x = .ok a := by
  cases x <;> simp [Except.mapError]

@[simp] theorem lift_ok_iff {x : Except Cell.Error α} {a : α} :
    (liftM x : Except BodyError α) = .ok a ↔ x = .ok a :=
  mapError_ok_iff

theorem mapM_ok_iff {f : α → Except ε β} {as : List α} {bs : List β} :
    as.mapM f = .ok bs ↔ List.Forall₂ (fun a b => f a = .ok b) as bs := by
  induction as generalizing bs with
  | nil => rw [List.mapM_nil, pure_ok_iff, List.forall₂_nil_left_iff, eq_comm]
  | cons a as ih =>
    simp only [List.mapM_cons, bind_ok_iff, pure_ok_iff, ih, List.forall₂_cons_left_iff]
    constructor
    · rintro ⟨b, hb, rest, hrest, rfl⟩
      exact ⟨b, rest, hb, hrest, rfl⟩
    · rintro ⟨b, rest, hb, hrest, rfl⟩
      exact ⟨b, hb, rest, hrest, rfl⟩

theorem exists_mapM {f : α → Except ε β} {as : List α} (each : ∀ a ∈ as, ∃ b, f a = .ok b) :
    ∃ bs, as.mapM f = .ok bs := by
  simp only [mapM_ok_iff]
  induction as with
  | nil => exact ⟨[], .nil⟩
  | cons a as ih =>
    obtain ⟨⟨b, hb⟩, others⟩ := List.forall_mem_cons.1 each
    obtain ⟨bs, hbs⟩ := ih others
    exact ⟨b :: bs, .cons hb hbs⟩

theorem exists_of_mem_mapM {f : α → Except ε β} {as : List α} {bs : List β} {b : β}
    (done : as.mapM f = .ok bs) (mem : b ∈ bs) : ∃ a ∈ as, f a = .ok b := by
  have each := mapM_ok_iff.1 done
  clear done
  induction each with
  | nil => cases mem
  | cons head _ ih =>
    rcases List.mem_cons.1 mem with rfl | mem
    · exact ⟨_, List.mem_cons_self .., head⟩
    · obtain ⟨a, found, ha⟩ := ih mem
      exact ⟨a, List.mem_cons_of_mem _ found, ha⟩

/-- The result is no error but one of those in `P`. -/
def FailsOnly (x : Except ε α) (P : ε → Prop) : Prop :=
  ∀ e, x = .error e → P e

section Failure

variable {P : ε → Prop}

theorem bind_error_iff {x : Except ε α} {f : α → Except ε β} {e : ε} :
    (x >>= f) = .error e ↔ x = .error e ∨ ∃ a, x = .ok a ∧ f a = .error e := by
  cases x with
  | ok a =>
    show f a = _ ↔ _
    simp
  | error _ =>
    show Except.error _ = _ ↔ _
    simp

theorem map_error_iff {x : Except ε α} {f : α → β} {e : ε} :
    (f <$> x) = .error e ↔ x = .error e := by
  cases x with
  | ok a =>
    show Except.ok _ = _ ↔ _
    simp
  | error _ =>
    show Except.error _ = _ ↔ _
    simp

theorem lift_error_iff {x : Except Cell.Error α} {e : BodyError} :
    (liftM x : Except BodyError α) = .error e ↔ ∃ cause, x = .error cause ∧ .ofCell cause = e := by
  cases x with
  | ok a =>
    show Except.ok a = _ ↔ _
    simp
  | error cause =>
    show Except.error (BodyError.ofCell cause) = _ ↔ _
    simp

theorem FailsOnly.mono {x : Except ε α} {Q : ε → Prop} (h : FailsOnly x P)
    (weaker : ∀ e, P e → Q e) : FailsOnly x Q :=
  fun e failed => weaker e (h e failed)

theorem FailsOnly.bind {x : Except ε α} {f : α → Except ε β} (first : FailsOnly x P)
    (second : ∀ a, FailsOnly (f a) P) : FailsOnly (x >>= f) P := by
  intro e h
  obtain failed | ⟨a, -, failed⟩ := bind_error_iff.1 h
  · exact first e failed
  · exact second a e failed

theorem failsOnly_ok (a : α) : FailsOnly (.ok a : Except ε α) P := nofun

theorem failsOnly_error {e : ε} (h : P e) : FailsOnly (.error e : Except ε α) P := by
  rintro _ ⟨⟩
  exact h

theorem FailsOnly.lift {x : Except Cell.Error α} {Q : Cell.Error → Prop} {P : BodyError → Prop}
    (h : FailsOnly x Q) (into : ∀ e, Q e → P (.ofCell e)) :
    FailsOnly (liftM x : Except BodyError α) P := by
  rintro _ failed
  cases x with
  | ok a => cases failed
  | error e =>
    cases failed
    exact into e (h e rfl)

theorem FailsOnly.ofExcept {x : Except ε α} (h : FailsOnly x P) :
    Program.FailsOnly (MonadExcept.ofExcept x : EStateM ε σ α) P := by
  intro s e s' failed
  cases x with
  | ok a => cases failed
  | error _ =>
    cases failed
    exact h e rfl

end Failure

end Outcome

/-! ## Errors in the layout -/

/-- The error lies in the layout of the body. -/
def BodyError.InLayout (e : BodyError) : Prop := ∃ cause, e = .layout cause

end WalletWire
