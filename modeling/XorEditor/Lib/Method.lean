import Mathlib.Order.Basic

/-!
# Methods that change a state and may fail

A method that works on a mutable state and returns a result is an `EStateM` action: what
it has written before an error stays written.  This module has the rules for reading a
method that succeeded back step by step, and for invariants, which have to survive the
failing calls as well.

* `Ends`: what holds when a method has returned
* `Keeps`: an invariant of a method
* `Attempt`: a method that fails without a trace
-/

namespace XorEditor.Lib.Method

universe u

variable {ε σ α β : Type u}

/-! ### Running a method -/

/-- A step that reads the state only: it fails, or it goes on with a value. -/
def check (result : σ → Except ε α) : EStateM ε σ α := fun s =>
  match result s with
  | .ok a => .ok a s
  | .error e => .error e s

@[simp]
theorem pure_apply (a : α) (s : σ) : (pure a : EStateM ε σ α) s = .ok a s := rfl

@[simp]
theorem throw_apply (e : ε) (s : σ) : (throw e : EStateM ε σ α) s = .error e s := rfl

@[simp]
theorem get_apply (s : σ) : (get : EStateM ε σ σ) s = .ok s s := rfl

@[simp]
theorem set_apply (s s' : σ) : (set s' : EStateM ε σ PUnit) s = .ok ⟨⟩ s' := rfl

@[simp]
theorem modify_apply (f : σ → σ) (s : σ) : (modify f : EStateM ε σ PUnit) s = .ok ⟨⟩ (f s) := rfl

@[simp]
theorem check_apply (result : σ → Except ε α) (s : σ) : check result s = match result s with
      | .ok a => .ok a s
      | .error e => .error e s := rfl

@[simp]
theorem bind_apply (method : EStateM ε σ α) (next : α → EStateM ε σ β) (s : σ) : (method >>= next)
    s = match method s with
      | .ok a s' => next a s'
      | .error e s' => .error e s' := by
  change EStateM.bind method next s = _
  unfold EStateM.bind
  cases method s <;> rfl

/-! ### What a call leaves -/

/-- The state a method leaves, whether it succeeds or fails. -/
def after (method : EStateM ε σ α) (s : σ) : σ :=
  match method s with
  | .ok _ s' => s'
  | .error _ s' => s'

variable {method : EStateM ε σ α} {s s' : σ} {next : α → EStateM ε σ β} {result : Except ε α}
  {e : ε} {a : α} {c : Prop} {R : α → σ → Prop} {b : β} {Q : σ → Prop} {list : List α}

theorem check_bind_eq_ok_iff {result : σ → Except ε α} : (check result >>= next)
    s = .ok b s' ↔ ∃ a, result s = .ok a ∧ next a s = .ok b s' := by
  rw [bind_apply, check_apply]
  cases result s with
  | ok a => simp
  | error e => simp

@[simp]
theorem result_ok_bind (a : α) (next : α → Except ε β) : (Except.ok a >>= next) = next a := rfl

theorem exists_of_isOk (h : result.isOk = true) : ∃ a, result = .ok a := by
  cases result with
  | ok a => exact ⟨a, rfl⟩
  | error e => cases h

theorem result_bind_eq_ok_iff {next : α → Except ε β} : (result >>= next)
    = .ok b ↔ ∃ a, result = .ok a ∧ next a = .ok b := by
  cases result with
  | ok a =>
    change next a = .ok b ↔ _
    simp
  | error e =>
    change Except.error e = .ok b ↔ _
    simp

theorem result_mapError_eq_ok_iff {ε' : Type*} {f : ε → ε'} :
    result.mapError f = .ok a ↔ result = .ok a := by
  cases result <;> simp [Except.mapError]

theorem result_guard_eq_ok_iff [Decidable c] {rest : PUnit → Except ε α} :
    (if c then throw e >>= rest else rest ⟨⟩) = .ok a ↔ ¬ c ∧ rest ⟨⟩ = .ok a := by
  by_cases hc : c
  · simp [hc, throw, throwThe, MonadExceptOf.throw, bind, Except.bind]
  · simp [hc]

/-- A guard that throws, at the end of a method. -/
theorem result_require_eq_ok_iff [Decidable c] {done : PUnit.{u + 1}} :
    (if c then throw e else pure ⟨⟩ : Except ε PUnit.{u + 1}) = .ok done ↔ ¬ c := by
  by_cases hc : c
  · simp [hc, throw, throwThe, MonadExceptOf.throw]
  · simp [hc, pure, Except.pure]

/-- A loop goes through when every round of it does. -/
theorem result_forM_eq_ok_iff {round : α → Except ε PUnit.{u + 1}} :
    list.forM round = .ok ⟨⟩ ↔ ∀ a ∈ list, round a = .ok ⟨⟩ := by
  induction list with
  | nil => simp [pure, Except.pure]
  | cons a list ih =>
    change (round a >>= fun _ => list.forM round) = _ ↔ _
    rw [result_bind_eq_ok_iff, List.forall_mem_cons, ih]
    exact ⟨fun ⟨_, h⟩ => h, fun h => ⟨⟨⟩, h⟩⟩

/-! ### How a call ends

The rules follow a method step by step; a step that fails ends the call where it stands. -/

/-- The call returns with `Q`, or it fails with `E`. -/
def Ends (method : EStateM ε σ α) (s : σ) (Q : α → σ → Prop) (E : σ → Prop) : Prop :=
  match method s with
  | .ok a s' => Q a s'
  | .error _ s' => E s'

section Ends

variable {Q Q' : α → σ → Prop} {E F : σ → Prop} {f : σ → σ}

theorem Ends.of_ok (h : Ends method s Q E) (hok : method s = .ok a s') : Q a s' := by
  unfold Ends at h
  rwa [hok] at h

theorem Ends.of_error (h : Ends method s Q E) (herror : method s = .error e s') : E s' := by
  unfold Ends at h
  rwa [herror] at h

theorem Ends.imp (h : Ends method s Q E) (hQ : ∀ a t, Q a t → Q' a t) (hE : ∀ t, E t → F t) :
    Ends method s Q' F := by
  unfold Ends
  cases hresult : method s with
  | ok a t => exact hQ a t (h.of_ok hresult)
  | error e t => exact hE t (h.of_error hresult)

theorem Ends.bind {Q : β → σ → Prop} (h : Ends method s R E)
    (hnext : ∀ a t, R a t → Ends (next a) t Q E) : Ends (method >>= next) s Q E := by
  unfold Ends
  rw [bind_apply]
  cases hresult : method s with
  | ok a t => exact hnext a t (h.of_ok hresult)
  | error e t => exact h.of_error hresult

theorem ends_pure (h : Q a s) : Ends (pure a : EStateM ε σ α) s Q E := h

theorem ends_throw (h : E s) : Ends (throw e : EStateM ε σ α) s Q E := h

theorem ends_set {s' : σ} {Q : PUnit → σ → Prop} (h : Q ⟨⟩ s') :
    Ends (set s' : EStateM ε σ PUnit) s Q E := h

theorem ends_modify {Q : PUnit → σ → Prop} (h : Q ⟨⟩ (f s)) :
    Ends (modify f : EStateM ε σ PUnit) s Q E := h

theorem ends_check {result : σ → Except ε α} (herror : E s)
    (hok : ∀ a, result s = .ok a → Q a s) : Ends (check result) s Q E := by
  unfold Ends
  rw [check_apply]
  cases hresult : result s with
  | ok a => exact hok a hresult
  | error e => exact herror

theorem ends_ite [Decidable c] {yes no : EStateM ε σ α} (hyes : c → Ends yes s Q E)
    (hno : ¬ c → Ends no s Q E) : Ends (if c then yes else no) s Q E := by
  split
  · exact hyes ‹c›
  · exact hno ‹¬ c›

/-- A guard that throws, before the rest of a method. -/
theorem ends_guard [Decidable c] {rest : PUnit → EStateM ε σ α} (hthrow : E s)
    (hrest : ¬ c → Ends (rest ⟨⟩) s Q E) : Ends (if c then throw e >>= rest else rest ⟨⟩) s Q E :=
  ends_ite (fun _ => hthrow) hrest

theorem ends_get_bind {next : σ → EStateM ε σ α} (h : Ends (next s) s Q E) :
    Ends (get >>= next) s Q E := h

theorem ends_set_bind {next : PUnit → EStateM ε σ α} (h : Ends (next ⟨⟩) s' Q E) :
    Ends (set s' >>= next) s Q E := h

theorem ends_modify_bind {next : PUnit → EStateM ε σ α} (h : Ends (next ⟨⟩) (f s) Q E) :
    Ends (modify f >>= next) s Q E := h

variable {Q : β → σ → Prop}

theorem ends_pure_bind (h : Ends (next a) s Q E) : Ends (pure a >>= next) s Q E := h

theorem ends_throw_bind (h : E s) : Ends (throw e >>= next) s Q E := h

theorem ends_check_cases {result : σ → Except ε α} (herror : ∀ e, result s = .error e → E s)
    (hok : ∀ a, result s = .ok a → Ends (next a) s Q E) : Ends (check result >>= next) s Q E := by
  unfold Ends
  rw [bind_apply, check_apply]
  cases hresult : result s with
  | ok a => exact hok a hresult
  | error e => exact herror e hresult

theorem ends_check_bind {result : σ → Except ε α} (herror : E s)
    (hok : ∀ a, result s = .ok a → Ends (next a) s Q E) : Ends (check result >>= next) s Q E :=
  ends_check_cases (fun _ _ => herror) hok

end Ends

/-- The condition holds after the call, whether it succeeds or fails. -/
abbrev Leaves (method : EStateM ε σ α) (s : σ) (Q : σ → Prop) : Prop := Ends method s (fun _ => Q) Q

theorem leaves_iff : Leaves method s Q ↔ Q (after method s) := by
  unfold Leaves Ends after
  cases method s <;> rfl

theorem leaves_check {result : σ → Except ε α} (h : Q s) : Leaves (check result) s Q :=
  ends_check h fun _ _ => h

/-- Every call of the method keeps the invariant, failing calls included. -/
def Keeps (I : σ → Prop) (method : EStateM ε σ α) : Prop := ∀ s, I s → Leaves method s I

variable {I : σ → Prop}

theorem Keeps.after (h : Keeps I method) (hs : I s) : I (after method s) := leaves_iff.mp (h s hs)

theorem Keeps.bind (h : Keeps I method) (hnext : ∀ a, Keeps I (next a)) :
    Keeps I (method >>= next) :=
  fun s hs => (h s hs).bind hnext

/-- A loop keeps what each of its rounds keeps, wherever it stops. -/
theorem Keeps.forM {method : α → EStateM ε σ PUnit} (h : ∀ a, Keeps I (method a))
    (list : List α) : Keeps I (list.forM method) := by
  induction list with
  | nil => exact fun s hs => hs
  | cons a list ih => exact (h a).bind fun _ => ih

/-! ### Methods that fail without a trace -/

/-- The method ends with `Q`, or it fails and leaves the state as it was. -/
abbrev Attempt (method : EStateM ε σ α) (s : σ) (Q : α → σ → Prop) : Prop := Ends method s Q (· = s)

section Attempt

variable {Q : β → σ → Prop}

/-- A method before steps that cannot fail any more. -/
theorem Attempt.bind_total (h : Attempt method s R)
    (hnext : ∀ a t, R a t → ∃ b t', next a t = .ok b t' ∧ Q b t') :
    Attempt (method >>= next) s Q := by
  refine Ends.bind h fun a t hR => ?_
  obtain ⟨b, t', hok, hQ⟩ := hnext a t hR
  unfold Ends
  rwa [hok]

/-- A method that has only read the state, before the rest. -/
theorem Attempt.bind_same {R : α → Prop} (h : Attempt method s fun a s' => s' = s ∧ R a)
    (hnext : ∀ a, method s = .ok a s → R a → Attempt (next a) s Q) :
    Attempt (method >>= next) s Q := by
  unfold Attempt Ends
  rw [bind_apply]
  cases hresult : method s with
  | ok a t =>
    obtain ⟨rfl, hR⟩ := h.of_ok hresult
    exact hnext a hresult hR
  | error e t => exact h.of_error hresult

theorem Attempt.map {f : α → β} (h : Attempt method s fun a s' => Q (f a) s') :
    Attempt (f <$> method) s Q := by
  rw [map_eq_pure_bind]
  exact bind_total h fun a t hQ => ⟨f a, t, rfl, hQ⟩

end Attempt

end XorEditor.Lib.Method
