import Mathlib.Data.List.Infix

/-!
# Properties of every event of a trace

A trace lists events, the latest first. `Everywhere Q` requires `Q older e` of every event `e`,
where `older` are the events before it.
-/

namespace Lib.Trace

variable {α : Type*} {Q : List α → α → Prop} {e : α} {es trace newer : List α}

/-- Every event satisfies `Q` together with the events before it. -/
def Everywhere (Q : List α → α → Prop) (trace : List α) : Prop :=
  ∀ e older, e :: older <:+ trace → Q older e

theorem everywhere_nil : Everywhere Q [] := by
  intro e older h
  cases List.suffix_nil.mp h

theorem everywhere_cons : Everywhere Q (e :: trace) ↔ Q trace e ∧ Everywhere Q trace := by
  constructor
  · intro h
    refine ⟨h e trace (List.suffix_refl _), ?_⟩
    intro d rest hrest
    exact h d rest (hrest.trans (List.suffix_cons e trace))
  · rintro ⟨he, htrace⟩ d rest hrest
    rcases List.suffix_cons_iff.mp hrest with heq | hrest
    · cases heq
      exact he
    · exact htrace d rest hrest

theorem Everywhere.suffix (h : Everywhere Q newer) (hsuffix : trace <:+ newer) :
    Everywhere Q trace := by
  intro e older hrest
  exact h e older (hrest.trans hsuffix)

/-- Events that satisfy `Q` after any events may be added. -/
theorem Everywhere.append (hes : ∀ e ∈ es, ∀ older, Q older e) (h : Everywhere Q trace) :
    Everywhere Q (es ++ trace) := by
  induction es with
  | nil => exact h
  | cons e es ih =>
    refine everywhere_cons.mpr ⟨hes e List.mem_cons_self _, ?_⟩
    exact ih fun d hd => hes d (List.mem_cons_of_mem _ hd)

end Lib.Trace
