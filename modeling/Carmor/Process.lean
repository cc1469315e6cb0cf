import Carmor.Proofs.LinkSteps

/-!
# Threads of a process

The threads share the machine; each has its own `__thread` variables of `mem/armor_runtime.cpp`,
which start as zero. One thread runs `__carmor_initialize_template`. A step is a link call of one
thread; between the calls memory and stores change in any way.
-/

namespace Carmor

variable {σ : Type}

/-- The initial `__thread` variables of a thread. -/
def Thread.fresh : Thread σ where
  tlb := fun _ => Tlb.memset 0
  gtDirectBuffer := 0
  gtCrosspageAccess := 0
  gtCrosspageAccessSize := 0
  trace := []

structure Process (σ : Type) where
  machine : Machine σ
  threads : Nat → Thread σ

namespace Process

/-- The world that thread `i` sees. -/
def view (P : Process σ) (i : Nat) : World σ :=
  { toMachine := P.machine, toThread := P.threads i }

/-- The process after thread `i` has reached the world `w`. -/
def update (P : Process σ) (i : Nat) (w : World σ) : Process σ where
  machine := w.toMachine
  threads := fun j => if j = i then w.toThread else P.threads j

/-- All threads are fresh. -/
def Fresh (P : Process σ) : Prop := ∀ i, P.threads i = Thread.fresh

inductive Label where
  /-- Thread `i` makes the call `c`. -/
  | call (i : Nat) (c : LinkCall)
  /-- Memory and stores change. -/
  | other

inductive Step (env : Env σ) (s : StoreId) : Process σ → Label → Process σ → Prop
  | call {P : Process σ} {i : Nat} {c : LinkCall} {w : World σ} :
      c.Step env s (P.view i) w → Step env s P (.call i c) (P.update i w)
  | other {P : Process σ} (m : Machine σ) : Step env s P .other { P with machine := m }

@[simp] theorem view_toThread (P : Process σ) (i : Nat) : (P.view i).toThread = P.threads i := rfl

@[simp] theorem update_threads_self (P : Process σ) (i : Nat) (w : World σ) :
    (P.update i w).threads i = w.toThread := if_pos rfl

theorem update_threads_ne {i j : Nat} (h : j ≠ i) (P : Process σ) (w : World σ) :
    (P.update i w).threads j = P.threads j := if_neg h

theorem view_update (P : Process σ) (i : Nat) (w : World σ) : (P.update i w).view i = w := by
  rw [view, update_threads_self]
  rfl

theorem update_view (P : Process σ) (i : Nat) : P.update i (P.view i) = P := by
  have hthreads : (P.update i (P.view i)).threads = P.threads := by
    funext j
    by_cases hj : j = i
    · rw [hj, update_threads_self, view_toThread]
    · rw [update_threads_ne hj]
  cases P
  exact congrArg (Process.mk _) hthreads

theorem update_update (P : Process σ) (i : Nat) (w w' : World σ) :
    (P.update i w).update i w' = P.update i w' := by
  simp only [update, Process.mk.injEq, true_and]
  funext j
  split <;> rfl

/-- The calls of thread `i`. -/
def callsOf (i : Nat) : List Label → List LinkCall
  | [] => []
  | .call j c :: ls => if j = i then c :: callsOf i ls else callsOf i ls
  | .other :: ls => callsOf i ls

theorem mem_callsOf {i : Nat} {c : LinkCall} {ls : List Label} :
    c ∈ callsOf i ls ↔ .call i c ∈ ls := by
  induction ls with
  | nil => simp [callsOf]
  | cons l ls ih =>
    cases l with
    | call j d =>
      rw [callsOf]
      by_cases hij : j = i
      · subst hij
        simp [ih]
      · simp [hij, Ne.symm hij, ih]
    | other => simp [callsOf, ih]

/-- A run of calls of one thread is a run of the process. -/
theorem run_calls {env : Env σ} {s : StoreId} {P : Process σ} {i : Nat} {w : World σ}
    {cs : List LinkCall} (h : Lib.Run (LinkCall.Step env s) (P.view i) cs w) :
    Lib.Run (Step env s) P (cs.map (Label.call i)) (P.update i w) := by
  generalize hview : P.view i = v at h
  induction h generalizing P with
  | nil v =>
    rw [← hview, update_view]
    exact .nil P
  | @cons v v₁ w c cs hstep _ ih =>
    rw [← hview] at hstep
    have hrest := ih (view_update P i v₁)
    rw [update_update] at hrest
    exact .cons (.call hstep) hrest

end Process

end Carmor
