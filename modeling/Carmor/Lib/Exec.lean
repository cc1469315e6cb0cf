import Mathlib.Logic.Basic

/-!
# Computations with a state and an error

Rules for `EStateM ε σ`, whose computations keep the state they reached when they fail.
A goal about `x >>= f` is split with `bind_of_ok` and `bind_of_error` when the outcome of `x`
is known, and with `bind_eq_ok` when a successful outcome is given. `Respects R x` is the frame
rule: every run of `x`, successful or not, moves the state along `R`.
-/

namespace Lib

variable {ε σ α β : Type}

/-- The state in which a run ends. -/
def finalState : EStateM.Result ε σ α → σ
  | .ok _ s => s
  | .error _ s => s

@[simp] theorem finalState_ok (a : α) (s : σ) :
    finalState (.ok a s : EStateM.Result ε σ α) = s := rfl

@[simp] theorem finalState_error (e : ε) (s : σ) :
    finalState (.error e s : EStateM.Result ε σ α) = s := rfl

/-- A run that returns. -/
def succeeds : EStateM.Result ε σ α → Bool
  | .ok _ _ => true
  | .error _ _ => false

theorem exists_ok_of_succeeds {r : EStateM.Result ε σ α} (h : succeeds r = true) :
    ∃ a, r = .ok a (finalState r) := by
  cases r with
  | ok a s => exact ⟨a, rfl⟩
  | error e s => cases h

@[simp] theorem pure_apply (a : α) (s : σ) : (pure a : EStateM ε σ α) s = .ok a s := rfl

@[simp] theorem throw_apply (e : ε) (s : σ) : (throw e : EStateM ε σ α) s = .error e s := rfl

theorem bind_apply (x : EStateM ε σ α) (f : α → EStateM ε σ β) (s : σ) :
    (x >>= f) s = match x s with
      | .ok a t => f a t
      | .error e t => .error e t := rfl

theorem bind_of_ok {x : EStateM ε σ α} {s t : σ} {a : α} (h : x s = .ok a t)
    (f : α → EStateM ε σ β) : (x >>= f) s = f a t := by
  rw [bind_apply, h]

theorem bind_of_error {x : EStateM ε σ α} {s t : σ} {e : ε} (h : x s = .error e t)
    (f : α → EStateM ε σ β) : (x >>= f) s = .error e t := by
  rw [bind_apply, h]

/-- A sequence that succeeds has succeeded at each step. -/
theorem bind_eq_ok {x : EStateM ε σ α} {f : α → EStateM ε σ β} {s u : σ} {b : β} :
    (x >>= f) s = .ok b u ↔ ∃ a t, x s = .ok a t ∧ f a t = .ok b u := by
  rw [bind_apply]
  constructor
  · intro h
    cases hx : x s with
    | ok a t => exact ⟨a, t, rfl, by simpa [hx] using h⟩
    | error e t => simp [hx] at h
  · rintro ⟨a, t, hx, hf⟩
    rw [hx]
    exact hf

/-! ## Frame rule -/

/-- Every run of `x` ends in a state related by `R` to the one it started from. -/
def Respects (R : σ → σ → Prop) (x : EStateM ε σ α) : Prop := ∀ s, R s (finalState (x s))

section Respects

variable {R : σ → σ → Prop} (hrefl : ∀ s, R s s) (htrans : ∀ s t u, R s t → R t u → R s u)

include hrefl in
theorem respects_pure (a : α) : Respects R (pure a : EStateM ε σ α) := fun s => hrefl s

include hrefl in
theorem respects_throw (e : ε) : Respects R (throw e : EStateM ε σ α) := fun s => hrefl s

include htrans in
theorem respects_bind {x : EStateM ε σ α} {f : α → EStateM ε σ β} (hx : Respects R x)
    (hf : ∀ a, Respects R (f a)) : Respects R (x >>= f) := by
  intro s
  have hstep := hx s
  rw [bind_apply]
  cases hrun : x s with
  | ok a t =>
    rw [hrun] at hstep
    exact htrans _ _ _ hstep (hf a t)
  | error e t =>
    rw [hrun] at hstep
    exact hstep

theorem respects_ite {c : Prop} [Decidable c] {x y : EStateM ε σ α} (hx : Respects R x)
    (hy : Respects R y) : Respects R (if c then x else y) := by
  split
  · exact hx
  · exact hy

end Respects

end Lib
