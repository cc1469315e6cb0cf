import Mathlib.Logic.Basic

/-!
# Labelled runs

Finite runs of a labelled transition relation, with the two rules by which an invariant is
carried over a run: `Run.invariant` when every step keeps it, and `Run.allStates_iff_allSteps`
when a step keeps it exactly under a condition on its label and its source state.
-/

namespace Lib

universe u v

variable {S : Type u} {L : Type v}

/-- `Run step s ls t`: the steps labelled `ls` lead from `s` to `t`. -/
inductive Run (step : S → L → S → Prop) : S → List L → S → Prop
  | nil (s : S) : Run step s [] s
  | cons {s t u : S} {l : L} {ls : List L} : step s l t → Run step t ls u →
      Run step s (l :: ls) u

namespace Run

variable {step : S → L → S → Prop} {s t u : S} {l : L} {ls ms : List L}

theorem append (h : Run step s ls t) (h' : Run step t ms u) : Run step s (ls ++ ms) u := by
  induction h with
  | nil => exact h'
  | cons hstep _ ih => exact .cons hstep (ih h')

theorem snoc (h : Run step s ls t) (h' : step t l u) : Run step s (ls ++ [l]) u :=
  h.append (.cons h' (.nil u))

theorem append_inv (h : Run step s (ls ++ ms) u) : ∃ t, Run step s ls t ∧ Run step t ms u := by
  induction ls generalizing s with
  | nil => exact ⟨s, .nil s, h⟩
  | cons l ls ih =>
    cases h with
    | cons hstep hrest =>
      obtain ⟨t, hls, hms⟩ := ih hrest
      exact ⟨t, .cons hstep hls, hms⟩

/-- A run of a relation whose labels say less. -/
theorem map {M : Type*} {step' : S → M → S → Prop} {f : L → M}
    (hstep : ∀ s l t, step s l t → step' s (f l) t) (h : Run step s ls t) :
    Run step' s (ls.map f) t := by
  induction h with
  | nil s => exact .nil s
  | cons hl _ ih => exact .cons (hstep _ _ _ hl) ih

/-- An invariant of every step with a label of the run is an invariant of the run. -/
theorem invariant {I : S → Prop} (hstep : ∀ s l t, l ∈ ls → I s → step s l t → I t)
    (h : Run step s ls t) (hs : I s) : I t := by
  induction h with
  | nil => exact hs
  | cons h _ ih =>
    have hnext := hstep _ _ _ List.mem_cons_self hs h
    exact ih (fun s l t hl => hstep s l t (List.mem_cons_of_mem _ hl)) hnext

/-- Every state that a run from `s` to `u` with labels `ls` passes through satisfies `I`. -/
def AllStates (step : S → L → S → Prop) (I : S → Prop) (s : S) (ls : List L) (u : S) : Prop :=
  ∀ pre post t, ls = pre ++ post → Run step s pre t → Run step t post u → I t

/-- Every step of a run from `s` to `u` with labels `ls` meets the condition `C` on its source
state and label. -/
def AllSteps (step : S → L → S → Prop) (C : S → L → Prop) (s : S) (ls : List L) (u : S) : Prop :=
  ∀ pre l post t t', ls = pre ++ l :: post → Run step s pre t → step t l t' →
    Run step t' post u → C t l

theorem AllSteps.tail {C : S → L → Prop} (h : AllSteps step C s (l :: ls) u)
    (hstep : step s l t) : AllSteps step C t ls u := by
  intro pre m post v v' heq hpre hm hpost
  exact h (l :: pre) m post v v' (by rw [heq, List.cons_append]) (.cons hstep hpre) hm hpost

theorem AllStates.tail {I : S → Prop} (h : AllStates step I s (l :: ls) u) (hstep : step s l t) :
    AllStates step I t ls u := by
  intro pre post v heq hpre hpost
  exact h (l :: pre) post v (by rw [heq, List.cons_append]) (.cons hstep hpre) hpost

/-- An invariant that every step keeps under its condition holds at the end of a run whose
steps all meet the condition. -/
theorem invariant_of_allSteps {I : S → Prop} {C : S → L → Prop}
    (hstep : ∀ s l t, I s → C s l → step s l t → I t)
    (h : Run step s ls u) (hs : I s) (hC : AllSteps step C s ls u) : I u := by
  induction h with
  | nil => exact hs
  | @cons s t u l ls h hrest ih =>
    have hCl : C s l := hC [] l ls s t rfl (.nil s) h hrest
    exact ih (hstep s l t hs hCl h) (hC.tail h)

/-- When a step from an `I`-state keeps `I` exactly under its condition, a run stays in `I` if
and only if all its steps meet the condition. -/
theorem allStates_iff_allSteps {I : S → Prop} {C : S → L → Prop}
    (hstep : ∀ s l t, I s → step s l t → (I t ↔ C s l)) (hs : I s) :
    AllStates step I s ls u ↔ AllSteps step C s ls u := by
  constructor
  · intro hI pre l post t t' heq hpre hl hpost
    have ht : I t := hI pre (l :: post) t heq hpre (.cons hl hpost)
    have ht' : I t' := by
      refine hI (pre ++ [l]) post t' ?_ (hpre.snoc hl) hpost
      rw [heq, List.append_assoc, List.singleton_append]
    exact (hstep t l t' ht hl).mp ht'
  · intro hC pre post t heq hpre hpost
    refine invariant_of_allSteps (fun s l t hs hCl h => (hstep s l t hs h).mpr hCl) hpre hs ?_
    intro pre' l post' v v' heq' hpre' hl hpost'
    refine hC pre' l (post' ++ post) v v' ?_ hpre' hl (hpost'.append hpost)
    rw [heq, heq', List.append_assoc, List.cons_append]

/-- A condition on the labels alone is met at all steps exactly if all labels meet it. -/
theorem allSteps_label {C : L → Prop} (h : Run step s ls u) :
    AllSteps step (fun _ l => C l) s ls u ↔ ∀ l ∈ ls, C l := by
  constructor
  · intro hC l hl
    obtain ⟨pre, post, rfl⟩ := List.append_of_mem hl
    obtain ⟨t, hpre, hrest⟩ := h.append_inv
    cases hrest with
    | cons hstep hpost => exact hC pre l post t _ rfl hpre hstep hpost
  · intro hC pre l post t t' heq _ _ _
    exact hC l (by rw [heq]; simp)

/-! ## Conditions followed by an abstract state -/

variable {A : Type*} {next : A → L → A} {C : A → L → Prop} {a : A}

/-- The labels meet the condition `C` on the abstract states that `next` leads through. -/
def Followed (next : A → L → A) (C : A → L → Prop) : A → List L → Prop
  | _, [] => True
  | a, l :: ls => C a l ∧ Followed next C (next a l) ls

instance decidableFollowed [∀ a l, Decidable (C a l)] :
    ∀ a ls, Decidable (Followed next C a ls)
  | _, [] => isTrue trivial
  | a, l :: ls =>
    have : Decidable (Followed next C (next a l) ls) := decidableFollowed (next a l) ls
    inferInstanceAs (Decidable (C a l ∧ Followed next C (next a l) ls))

/-- The condition on a sequence in two parts. -/
theorem followed_append : Followed next C a (ls ++ ms) ↔
    Followed next C a ls ∧ Followed next C (ls.foldl next a) ms := by
  induction ls generalizing a with
  | nil => exact (and_iff_right trivial).symm
  | cons l ls ih => rw [List.cons_append, Followed, Followed, List.foldl_cons, ih, and_assoc]

/-- Labels that stand for sequences of labels. -/
theorem followed_flatMap {M : Type*} {f : M → List L} {ms : List M} :
    Followed next C a (ms.flatMap f) ↔
      Followed (fun a m => (f m).foldl next a) (fun a m => Followed next C a (f m)) a ms := by
  induction ms generalizing a with
  | nil => exact Iff.rfl
  | cons m ms ih => rw [List.flatMap_cons, followed_append, Followed, ih]

/-- An invariant of the states together with the abstract states that every step keeps under its
condition holds at the end of a run whose labels meet the condition all along. -/
theorem invariant_of_followed {I : S → A → Prop}
    (hstep : ∀ s a l t, I s a → C a l → step s l t → I t (next a l)) (h : Run step s ls u)
    (hs : I s a) (hC : Followed next C a ls) : I u (ls.foldl next a) := by
  induction h generalizing a with
  | nil => exact hs
  | cons hl _ ih => exact ih (hstep _ _ _ _ hs hC.1 hl) hC.2

/-- Let the labels of a run meet the condition `C` all along. When a step from an `I`-state leads to a
`P`-state only under the condition `D`, and then to an `I`-state, the run stays in `P` if and only if
all its steps meet `D`. -/
theorem allStates_iff_allSteps_of_followed {I : S → A → Prop} {P : S → Prop} {D : S → L → Prop}
    (himp : ∀ s a, I s a → P s) (hmeets : ∀ s a l t, I s a → C a l → step s l t → P t → D s l)
    (hkeeps : ∀ s a l t, I s a → C a l → step s l t → D s l → I t (next a l))
    (hs : I s a) (hC : Followed next C a ls) :
    AllStates step P s ls u ↔ AllSteps step D s ls u := by
  constructor
  · rintro hP pre l post t t' rfl hpre hl hpost
    induction hpre generalizing a with
    | nil =>
      exact hmeets _ a l t' hs hC.1 hl (hP [l] post t' rfl (.cons hl (.nil t')) hpost)
    | @cons s s₁ t m pre hm hpre ih =>
      have hrest := (hpre.snoc hl).append hpost
      rw [List.append_assoc, List.singleton_append] at hrest
      have hP₁ : P s₁ := hP [m] (pre ++ l :: post) s₁ rfl (.cons hm (.nil s₁)) hrest
      have hD := hmeets s a m s₁ hs hC.1 hm hP₁
      exact ih (hkeeps s a m s₁ hs hC.1 hm hD) hC.2 (hP.tail hm) hl
  · rintro hD pre post t rfl hpre hpost
    induction hpre generalizing a with
    | nil => exact himp _ a hs
    | @cons s s₁ t m pre hm hpre ih =>
      have hDm := hD [] m (pre ++ post) s s₁ rfl (.nil s) hm (hpre.append hpost)
      exact ih (hkeeps s a m s₁ hs hC.1 hm hDm) hC.2 (hD.tail hm) hpost

/-- When every step of a run follows the abstract state and keeps `I` exactly under the abstract
condition, the run stays in `I` if and only if its labels meet the condition all along. -/
theorem allStates_iff_followed {I : S → Prop} {Rel : S → A → Prop}
    (hstep : ∀ s a l t, l ∈ ls → Rel s a → I s → step s l t → Rel t (next a l) ∧ (I t ↔ C a l))
    (hrun : Run step s ls u) (hs : I s) (ha : Rel s a) :
    AllStates step I s ls u ↔ Followed next C a ls := by
  constructor
  · intro hI
    induction hrun generalizing a with
    | nil => trivial
    | @cons s t u l ls h hrest ih =>
      have ht : I t := hI [l] ls t rfl (.cons h (.nil t)) hrest
      obtain ⟨hrel, hiff⟩ := hstep s a l t List.mem_cons_self ha hs h
      refine ⟨hiff.mp ht, ih (fun s a l t hl => hstep s a l t (List.mem_cons_of_mem _ hl)) ht hrel ?_⟩
      intro pre post v heq hpre hpost
      exact hI (l :: pre) post v (by rw [heq, List.cons_append]) (.cons h hpre) hpost
  · rintro hC pre post t rfl hpre -
    clear hrun
    induction hpre generalizing a with
    | nil => exact hs
    | @cons s t u l ls h _ ih =>
      obtain ⟨hrel, hiff⟩ := hstep s a l t (by simp) ha hs h
      exact ih (hiff.mpr hC.1) hrel (fun s a m t hm => hstep s a m t (List.mem_cons_of_mem _ hm)) hC.2

end Run

end Lib
