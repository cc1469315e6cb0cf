import Carmor.Lib.Exec
import Mathlib.Data.Option.Basic

/-!
# Refinement of computations

A target computation refines a source computation when it does what the source does, up to a
relation on the values and one on the states, unless the source stops with an error of `U`, the
undefined behaviours, after which the target is free. The rules follow the syntax of a
computation: `refines_pure`, `refines_throw`, `refines_bind`.
-/

namespace Lib

variable {ε σ τ υ α β γ δ : Type}

/-- The outcome `r'` of the target is allowed by the outcome `r` of the source. -/
inductive Allows (U : ε → Prop) (V : α → β → Prop) (S : σ → τ → Prop) :
    EStateM.Result ε σ α → EStateM.Result ε τ β → Prop
  | undefined {e : ε} {s : σ} {r' : EStateM.Result ε τ β} : U e → Allows U V S (.error e s) r'
  | error {e : ε} {s : σ} {t : τ} : S s t → Allows U V S (.error e s) (.error e t)
  | ok {a : α} {b : β} {s : σ} {t : τ} : V a b → S s t → Allows U V S (.ok a s) (.ok b t)

/-- From related states, `y` does what `x` does, up to the undefined behaviours of `x`. -/
def Refines (U : ε → Prop) (V : α → β → Prop) (S : σ → τ → Prop) (x : EStateM ε σ α)
    (y : EStateM ε τ β) : Prop :=
  ∀ s t, S s t → Allows U V S (x s) (y t)

variable {U : ε → Prop} {V : α → β → Prop} {W : γ → δ → Prop} {S : σ → τ → Prop}

theorem refines_pure {a : α} {b : β} (h : V a b) :
    Refines U V S (pure a : EStateM ε σ α) (pure b) :=
  fun _ _ hs => .ok h hs

theorem refines_throw (e : ε) :
    Refines U V S (throw e : EStateM ε σ α) (throw e : EStateM ε τ β) :=
  fun _ _ hs => .error hs

/-- Nothing is promised after undefined behaviour. -/
theorem refines_of_undefined {e : ε} (h : U e) (y : EStateM ε τ β) :
    Refines U V S (throw e : EStateM ε σ α) y :=
  fun _ _ _ => .undefined h

theorem Allows.bind {x : EStateM ε σ α} {y : EStateM ε τ β} {f : α → EStateM ε σ γ}
    {g : β → EStateM ε τ δ} {s : σ} {t : τ} (h : Allows U V S (x s) (y t))
    (hfg : ∀ a b, V a b → Refines U W S (f a) (g b)) :
    Allows U W S ((x >>= f) s) ((y >>= g) t) := by
  rw [bind_apply, bind_apply]
  generalize x s = r at h
  generalize y t = r' at h
  cases h with
  | undefined he => exact .undefined he
  | error hs => exact .error hs
  | ok hab hs => exact hfg _ _ hab _ _ hs

theorem refines_bind {x : EStateM ε σ α} {y : EStateM ε τ β} {f : α → EStateM ε σ γ}
    {g : β → EStateM ε τ δ} (hxy : Refines U V S x y)
    (hfg : ∀ a b, V a b → Refines U W S (f a) (g b)) : Refines U W S (x >>= f) (y >>= g) :=
  fun s t hs => (hxy s t hs).bind hfg

theorem Allows.mono_states {S' : σ → τ → Prop} {r : EStateM.Result ε σ α}
    {r' : EStateM.Result ε τ β} (h : Allows U V S r r') (hS : ∀ s t, S s t → S' s t) :
    Allows U V S' r r' := by
  cases h with
  | undefined he => exact .undefined he
  | error hs => exact .error (hS _ _ hs)
  | ok hab hs => exact .ok hab (hS _ _ hs)

theorem Refines.mono {V' : α → β → Prop} {x : EStateM ε σ α} {y : EStateM ε τ β}
    (h : Refines U V S x y) (hV : ∀ a b, V a b → V' a b) : Refines U V' S x y := by
  intro s t hs
  have hrun := h s t hs
  generalize x s = r at hrun ⊢
  generalize y t = r' at hrun ⊢
  cases hrun with
  | undefined he => exact .undefined he
  | error ht => exact .error ht
  | ok hab ht => exact .ok (hV _ _ hab) ht

theorem refines_refl (x : EStateM ε σ α) : Refines U Eq Eq x x := by
  rintro s _ rfl
  generalize x s = r
  cases r with
  | ok a t => exact .ok rfl rfl
  | error e t => exact .error rfl

end Lib
