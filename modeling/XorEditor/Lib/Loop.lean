import Mathlib.Data.List.Basic

/-!
# Computations that may fail

How a sequence of steps that may fail runs and what its success says, and rules for a
loop over a list whose body may fail.  The invariant may mention the elements processed so
far.

* `do_eq_some`, `some_do`: a computation that succeeds
* `foldlM_rule`, `foldlM_total`: an invariant of a loop that returns, and of one that cannot fail
-/

namespace XorEditor.Lib

section Steps

universe u

variable {α β : Type u} {x : Option α} {f : α → Option β} {a : α} {b : β}

/-- A sequence succeeds when each of its steps does. -/
theorem do_eq_some : (x >>= f) = some b ↔ ∃ a, x = some a ∧ f a = some b :=
  Option.bind_eq_some_iff

theorem some_do : (some a >>= f) = f a := rfl

theorem pure_eq_some {a' : α} {b' : β} :
    (pure (a, b) : Option (α × β)) = some (a', b') ↔ a = a' ∧ b = b' := by
  simp [pure]

end Steps

namespace Loop

variable {α σ : Type*} {f : σ → α → Option σ} {P : List α → σ → Prop}

variable {before rest list : List α} {s s' : σ}

theorem foldlM_append_rule
    (hstep : ∀ done a after t t', before ++ rest = done ++ a :: after → P done t → f t a = some t' →
      P (done ++ [a]) t')
    (hstart : P before s) (hsome : rest.foldlM f s = some s') : P (before ++ rest) s' := by
  induction rest generalizing before s with
  | nil =>
    obtain rfl := Option.some.inj hsome
    simpa using hstart
  | cons a rest ih =>
    rw [List.foldlM_cons, do_eq_some] at hsome
    obtain ⟨t, hfirst, hrest⟩ := hsome
    have hsplit : before ++ a :: rest = before ++ [a] ++ rest := by simp
    rw [hsplit] at hstep ⊢
    exact ih hstep (hstep before a rest s t (by simp) hstart hfirst) hrest

/-- If every step keeps the invariant, it holds at the end of a loop that succeeds. -/
theorem foldlM_rule
    (hstep : ∀ done a after t t', list = done ++ a :: after → P done t → f t a = some t' →
      P (done ++ [a]) t') (hstart : P [] s) (hsome : list.foldlM f s = some s') : P list s' :=
  @foldlM_append_rule _ _ _ P [] list s s' hstep hstart hsome

theorem foldlM_append_total
    (hstep : ∀ done a after t t', before ++ rest = done ++ a :: after → P done t → f t a = some t' →
      P (done ++ [a]) t')
    (htotal : ∀ done a after t, before ++ rest = done ++ a :: after → P done t →
      ∃ t', f t a = some t') (hstart : P before s) : ∃ s', rest.foldlM f s = some s' := by
  induction rest generalizing before s with
  | nil => exact ⟨s, rfl⟩
  | cons a rest ih =>
    obtain ⟨t, ht⟩ := htotal before a rest s rfl hstart
    have hsplit : before ++ a :: rest = before ++ [a] ++ rest := by simp
    rw [hsplit] at hstep htotal
    obtain ⟨s', hs'⟩ := ih hstep htotal (hstep before a rest s t (by simp) hstart ht)
    exact ⟨s', by rw [List.foldlM_cons, ht]; exact hs'⟩

/-- If in addition no step fails, the loop succeeds. -/
theorem foldlM_total
    (hstep : ∀ done a after t t', list = done ++ a :: after → P done t → f t a = some t' →
      P (done ++ [a]) t')
    (htotal : ∀ done a after t, list = done ++ a :: after → P done t → ∃ t', f t a = some t')
    (hstart : P [] s) : ∃ s', list.foldlM f s = some s' :=
  @foldlM_append_total _ _ _ P [] list s hstep htotal hstart

end Loop

end XorEditor.Lib
