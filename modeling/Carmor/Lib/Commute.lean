import Carmor.Lib.Exec

/-!
# Computations that agree up to a translation

`Commutes ρ f x y`: translate a state by `ρ` and run `y`, or run `x` and translate its outcome,
by `ρ` the state and by `f` the value. The rules follow the structure of a computation.
-/

namespace Lib

variable {ε σ τ α β γ δ : Type}

/-- The outcome of a run with its state and value translated. -/
def mapResult (ρ : σ → τ) (f : α → β) : EStateM.Result ε σ α → EStateM.Result ε τ β
  | .ok a s => .ok (f a) (ρ s)
  | .error e s => .error e (ρ s)

/-- `y` does from a translated state what `x` does from the state. -/
def Commutes (ρ : σ → τ) (f : α → β) (x : EStateM ε σ α) (y : EStateM ε τ β) : Prop :=
  ∀ s, y (ρ s) = mapResult ρ f (x s)

@[simp] theorem succeeds_mapResult (ρ : σ → τ) (f : α → β) (r : EStateM.Result ε σ α) :
    succeeds (mapResult ρ f r) = succeeds r := by
  cases r with
  | ok a s => rfl
  | error e s => rfl

variable {ρ : σ → τ} {f : α → β} {x : EStateM ε σ α} {y : EStateM ε τ β}

theorem Commutes.succeeds_eq (h : Commutes ρ f x y) (s : σ) :
    succeeds (y (ρ s)) = succeeds (x s) := by
  rw [h s, succeeds_mapResult]

theorem commutes_pure (a : α) :
    Commutes ρ f (pure a : EStateM ε σ α) (pure (f a) : EStateM ε τ β) := fun _ => rfl

theorem commutes_throw (e : ε) :
    Commutes ρ f (throw e : EStateM ε σ α) (throw e : EStateM ε τ β) := fun _ => rfl

theorem commutes_get : Commutes ρ ρ (get : EStateM ε σ σ) (get : EStateM ε τ τ) := fun _ => rfl

theorem commutes_modify {g : σ → σ} {h : τ → τ} (hgh : ∀ s, h (ρ s) = ρ (g s)) :
    Commutes ρ id (modify g : EStateM ε σ Unit) (modify h : EStateM ε τ Unit) := by
  intro s
  show EStateM.Result.ok () (h (ρ s)) = EStateM.Result.ok () (ρ (g s))
  rw [hgh]

theorem commutes_bind {g : γ → δ} {k : α → EStateM ε σ γ} {l : β → EStateM ε τ δ}
    (hxy : Commutes ρ f x y) (hkl : ∀ a, Commutes ρ g (k a) (l (f a))) :
    Commutes ρ g (x >>= k) (y >>= l) := by
  intro s
  rw [bind_apply, bind_apply, hxy s]
  cases x s with
  | ok a t => exact hkl a t
  | error e t => rfl

/-- The rest of the computation may use what is known of the value of `x`. -/
theorem commutes_bind_of {P : α → Prop} {g : γ → δ} {k : α → EStateM ε σ γ}
    {l : β → EStateM ε τ δ} (hxy : Commutes ρ f x y) (hP : ∀ s a t, x s = .ok a t → P a)
    (hkl : ∀ a, P a → Commutes ρ g (k a) (l (f a))) : Commutes ρ g (x >>= k) (y >>= l) := by
  intro s
  rw [bind_apply, bind_apply, hxy s]
  cases hx : x s with
  | ok a t => exact hkl a (hP s a t hx) t
  | error e t => rfl

theorem commutes_ite {c d : Prop} [Decidable c] [Decidable d] {x' : EStateM ε σ α}
    {y' : EStateM ε τ β} (hcd : c ↔ d) (hxy : Commutes ρ f x y) (hxy' : Commutes ρ f x' y') :
    Commutes ρ f (if c then x else x') (if d then y else y') := by
  by_cases hc : c
  · rw [if_pos hc, if_pos (hcd.mp hc)]
    exact hxy
  · rw [if_neg hc, if_neg (fun hd => hc (hcd.mpr hd))]
    exact hxy'

end Lib
