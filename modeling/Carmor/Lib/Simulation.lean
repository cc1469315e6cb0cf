import Mathlib.Logic.Basic

/-!
# Simulation of deterministic systems

A system moves to a next state or is done with a result. In a simulation the target answers a step
of the source with one step after any number of silent ones, which end in states that stand for
no source state. Results, divergence and the reachable states of the target then come from the
source; where the source ends in an undefined result the target is free.
-/

namespace Lib

universe u v w

inductive Progress (S : Type u) (R : Type w) where
  | next (s : S)
  | done (r : R)

variable {S : Type u} {T : Type v} {R : Type w}

/-- After `n` steps. -/
inductive StepsIn (step : S → Progress S R) : Nat → S → S → Prop
  | zero (s : S) : StepsIn step 0 s s
  | succ {n : Nat} {s t u : S} : step s = .next t → StepsIn step n t u → StepsIn step (n + 1) s u

/-- Done after `n` steps, with the result `r`. -/
inductive EndsIn (step : S → Progress S R) : Nat → S → R → Prop
  | done {s : S} {r : R} : step s = .done r → EndsIn step 0 s r
  | next {n : Nat} {s t : S} {r : R} : step s = .next t → EndsIn step n t r →
      EndsIn step (n + 1) s r

def Ends (step : S → Progress S R) (s : S) (r : R) : Prop := ∃ n, EndsIn step n s r

/-- Steps into states outside `visible`. -/
inductive Silent (step : S → Progress S R) (visible : S → Prop) : S → S → Prop
  | refl (s : S) : Silent step visible s s
  | step {s t u : S} : step s = .next t → ¬visible t → Silent step visible t u →
      Silent step visible s u

variable {step : S → Progress S R} {visible : S → Prop}

theorem StepsIn.snoc {n : Nat} {s t u : S} (h : StepsIn step n s t) (hu : step t = .next u) :
    StepsIn step (n + 1) s u := by
  induction h with
  | zero => exact .succ hu (.zero u)
  | succ hst _ ih => exact .succ hst (ih hu)

theorem Silent.endsIn {s t : S} (h : Silent step visible s t) {n : Nat} {r : R}
    (hr : EndsIn step n s r) : ∃ m, m ≤ n ∧ EndsIn step m t r := by
  induction h generalizing n with
  | refl s => exact ⟨n, Nat.le_refl n, hr⟩
  | step hst _ _ ih =>
    cases hr with
    | done hdone => simp [hst] at hdone
    | next hnext hr =>
      obtain rfl := Progress.next.inj (hst.symm.trans hnext)
      obtain ⟨m, hm, hr⟩ := ih hr
      exact ⟨m, Nat.le_succ_of_le hm, hr⟩

theorem Silent.ends {s t : S} (h : Silent step visible s t) {r : R} (hr : Ends step t r) :
    Ends step s r := by
  induction h with
  | refl s => exact hr
  | step hst _ _ ih =>
    obtain ⟨n, hn⟩ := ih hr
    exact ⟨n + 1, .next hst hn⟩

/-- A run to a visible state goes through the end of the silent steps, and past it. -/
theorem Silent.stepsIn {s t u v : S} (h : Silent step visible s t) (hu : step t = .next u)
    (hv : visible v) {n : Nat} (hn : StepsIn step n s v) :
    (n = 0 ∧ v = s) ∨ ∃ m, m < n ∧ StepsIn step m u v := by
  induction h generalizing n with
  | refl s =>
    cases hn with
    | zero => exact .inl ⟨rfl, rfl⟩
    | succ hst hn =>
      obtain rfl := Progress.next.inj (hu.symm.trans hst)
      exact .inr ⟨_, Nat.lt_succ_self _, hn⟩
  | step hst hvis _ ih =>
    cases hn with
    | zero => exact .inl ⟨rfl, rfl⟩
    | succ hst' hn =>
      obtain rfl := Progress.next.inj (hst.symm.trans hst')
      rcases ih hu hn with ⟨-, rfl⟩ | ⟨m, hm, hn⟩
      · exact absurd hv hvis
      · exact .inr ⟨m, Nat.lt_succ_of_lt hm, hn⟩

/-- After silent steps that end in a result there is no visible state. -/
theorem Silent.stepsIn_done {s t v : S} {r : R} (h : Silent step visible s t)
    (hr : step t = .done r) (hv : visible v) {n : Nat} (hn : StepsIn step n s v) : v = s := by
  induction h generalizing n with
  | refl s =>
    cases hn with
    | zero => rfl
    | succ hst _ => simp [hr] at hst
  | step hst hvis _ ih =>
    cases hn with
    | zero => rfl
    | succ hst' hn =>
      obtain rfl := Progress.next.inj (hst.symm.trans hst')
      exact absurd (ih hr hn ▸ hv) hvis

/-! ## Simulations -/

/-- From `t` the target does what the source does: after silent steps it moves to a state that
stands for the source's next one, or has the source's result. An undefined result needs no
answer. -/
inductive Answers (stepT : T → Progress T R) (visible : T → Prop) (Undefined : R → Prop)
    (M : S → T → Prop) (t : T) : Progress S R → Prop
  | next {s' : S} {u t' : T} : Silent stepT visible t u → stepT u = .next t' → M s' t' →
      Answers stepT visible Undefined M t (.next s')
  | done {r : R} {u : T} : Silent stepT visible t u → stepT u = .done r →
      Answers stepT visible Undefined M t (.done r)
  | undefined {r : R} : Undefined r → Answers stepT visible Undefined M t (.done r)

/-- A silent step before an answer. -/
theorem Answers.silent {stepT : T → Progress T R} {visible : T → Prop} {Undefined : R → Prop}
    {M : S → T → Prop} {t u : T} {p : Progress S R} (hstep : stepT t = .next u)
    (hu : ¬visible u) (h : Answers stepT visible Undefined M u p) :
    Answers stepT visible Undefined M t p := by
  cases h with
  | next hsilent hnext hM => exact .next (.step hstep hu hsilent) hnext hM
  | done hsilent hdone => exact .done (.step hstep hu hsilent) hdone
  | undefined hr => exact .undefined hr

/-- The target answers every step of the source. -/
structure Simulation (stepS : S → Progress S R) (stepT : T → Progress T R) (visible : T → Prop)
    (Undefined : R → Prop) (M : S → T → Prop) : Prop where
  answers : ∀ {s t}, M s t → Answers stepT visible Undefined M t (stepS s)

namespace Simulation

variable {stepS : S → Progress S R} {stepT : T → Progress T R} {visible : T → Prop}
  {Undefined : R → Prop} {M : S → T → Prop} {s : S} {t : T}

theorem next (hM : Simulation stepS stepT visible Undefined M) (h : M s t) {s' : S}
    (hs : stepS s = .next s') :
    ∃ u t', Silent stepT visible t u ∧ stepT u = .next t' ∧ M s' t' := by
  have hanswer := hM.answers h
  rw [hs] at hanswer
  cases hanswer with
  | next hsilent hnext h' => exact ⟨_, _, hsilent, hnext, h'⟩

theorem done (hM : Simulation stepS stepT visible Undefined M) (h : M s t) {r : R}
    (hs : stepS s = .done r) :
    Undefined r ∨ ∃ u, Silent stepT visible t u ∧ stepT u = .done r := by
  have hanswer := hM.answers h
  rw [hs] at hanswer
  cases hanswer with
  | done hsilent hdone => exact .inr ⟨_, hsilent, hdone⟩
  | undefined hr => exact .inl hr

/-- The target ends where the source ends. -/
theorem ends (hM : Simulation stepS stepT visible Undefined M) (h : M s t) {r : R}
    (hr : Ends stepS s r) : Undefined r ∨ Ends stepT t r := by
  obtain ⟨n, hn⟩ := hr
  induction hn generalizing t with
  | done hdone =>
    refine (hM.done h hdone).imp_right ?_
    rintro ⟨u, hsilent, hu⟩
    exact hsilent.ends ⟨0, .done hu⟩
  | next hnext _ ih =>
    obtain ⟨u, t', hsilent, hu, h'⟩ := hM.next h hnext
    refine (ih h').imp_right ?_
    rintro ⟨m, hm⟩
    exact hsilent.ends ⟨m + 1, .next hu hm⟩

/-- The target ends only where the source ends. -/
theorem ends_of_target (hM : Simulation stepS stepT visible Undefined M) (h : M s t) {r : R}
    (hr : Ends stepT t r) : ∃ r₀, Ends stepS s r₀ ∧ (Undefined r₀ ∨ r = r₀) := by
  obtain ⟨n, hn⟩ := hr
  induction n using Nat.strongRecOn generalizing s t with
  | _ n ih =>
    cases hs : stepS s with
    | done r₀ =>
      refine ⟨r₀, ⟨0, .done hs⟩, (hM.done h hs).imp_right ?_⟩
      rintro ⟨u, hsilent, hu⟩
      obtain ⟨m, -, hm⟩ := hsilent.endsIn hn
      cases hm with
      | done hdone => exact Progress.done.inj (hdone.symm.trans hu)
      | next hnext _ => simp [hu] at hnext
    | next s' =>
      obtain ⟨u, t', hsilent, hu, h'⟩ := hM.next h hs
      obtain ⟨m, hle, hm⟩ := hsilent.endsIn hn
      cases hm with
      | done hdone => simp [hu] at hdone
      | @next k _ _ _ hnext hm =>
        obtain rfl := Progress.next.inj (hu.symm.trans hnext)
        obtain ⟨r₀, ⟨k, hk⟩, hr₀⟩ := ih k hle h' hm
        exact ⟨r₀, ⟨k + 1, .next hs hk⟩, hr₀⟩

/-- A visible state that the target reaches stands for a state that the source reaches, unless the
source comes to an undefined result. -/
theorem reached (hM : Simulation stepS stepT visible Undefined M) (h : M s t) {n : Nat} {v : T}
    (hv : visible v) (hn : StepsIn stepT n t v) :
    (∃ m s', StepsIn stepS m s s' ∧ M s' v) ∨ ∃ r, Undefined r ∧ Ends stepS s r := by
  induction n using Nat.strongRecOn generalizing s t with
  | _ n ih =>
    cases hs : stepS s with
    | done r =>
      rcases hM.done h hs with hr | ⟨u, hsilent, hu⟩
      · exact .inr ⟨r, hr, 0, .done hs⟩
      · obtain rfl := hsilent.stepsIn_done hu hv hn
        exact .inl ⟨0, s, .zero s, h⟩
    | next s' =>
      obtain ⟨u, t', hsilent, hu, h'⟩ := hM.next h hs
      rcases hsilent.stepsIn hu hv hn with ⟨-, rfl⟩ | ⟨m, hm, hn'⟩
      · exact .inl ⟨0, s, .zero s, h⟩
      · rcases ih m hm h' hn' with ⟨k, s'', hk, h''⟩ | ⟨r, hr, k, hk⟩
        · exact .inl ⟨k + 1, s'', .succ hs hk, h''⟩
        · exact .inr ⟨r, hr, k + 1, .next hs hk⟩

end Simulation

end Lib
