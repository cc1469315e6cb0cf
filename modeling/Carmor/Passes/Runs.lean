import Carmor.Passes.Ir
import Carmor.Lib.Dominance
import Carmor.Lib.Simulation

/-!
# Runs of a function

The blocks that a run goes through, and what one block does to the names: a run follows the
edges of the control flow graph, no name loses its value, and every name that a block defines has
a value after it.
-/

namespace Carmor.Passes

open Lib

variable {π σ α : Type} {P : Platform π σ} {call : Caller π σ}

@[simp] theorem require_some (a : α) : require (σ := σ) (some a) = pure a := rfl

@[simp] theorem require_none : require (σ := σ) (none : Option α) = throw .undefined := rfl

theorem require_eq_ok {o : Option α} {a : α} {s t : State σ} :
    require o s = .ok a t ↔ o = some a ∧ s = t := by
  cases o with
  | none => simp [require]
  | some b => simp [require]

theorem step_of_block {F : Function} {B : BasicBlock} {c : Config π}
    (hB : F.block c.block = some B) : F.step P call c = B.exec P call c.prev c.env := by
  unfold Function.step
  rw [hB]
  rfl

theorem exec_of_readPhis {B : BasicBlock} {prev : Option BlockId} {env : Env π}
    {xs : List (ValueId × Val π)} (hxs : readPhis P prev env B.phis = some xs) :
    B.exec P call prev env =
      execBody P call B.body (env.setAll xs) >>= fun env => B.terminator.exec P call B.id env := by
  unfold BasicBlock.exec
  rw [hxs]
  rfl

/-! ## Names -/

/-- Every name with a value keeps one. -/
def Env.Extends (env env' : Env π) : Prop := ∀ x, (env x).isSome → (env' x).isSome

namespace Env

variable {env env' env'' : Env π}

theorem Extends.refl (env : Env π) : env.Extends env := fun _ h => h

theorem Extends.trans (h : env.Extends env') (h' : env'.Extends env'') : env.Extends env'' :=
  fun x hx => h' x (h x hx)

theorem extends_set (env : Env π) (x : ValueId) (v : Val π) : env.Extends (env.set x v) := by
  intro y hy
  by_cases hyx : y = x
  · subst hyx
    rw [set_self]
    rfl
  · rw [set_of_ne env v hyx]
    exact hy

theorem extends_setAll (env : Env π) (bs : List (ValueId × Val π)) :
    env.Extends (env.setAll bs) := by
  induction bs with
  | nil => exact .refl env
  | cons b bs ih => exact ih.trans (extends_set _ b.1 b.2)

theorem isSome_setAll (env : Env π) {bs : List (ValueId × Val π)} {x : ValueId}
    (hx : x ∈ bs.map Prod.fst) : (env.setAll bs x).isSome := by
  induction bs with
  | nil => cases hx
  | cons b bs ih =>
    obtain ⟨y, v⟩ := b
    rw [setAll_cons]
    by_cases hyx : x = y
    · subst hyx
      rw [set_self]
      rfl
    · rw [set_of_ne _ v hyx]
      rw [List.map_cons, List.mem_cons] at hx
      exact ih (hx.resolve_left hyx)

end Env

theorem bindResult_extends {ty : Ty} {x : ValueId} {env env' : Env π} {r : Option (Val π)}
    (h : bindResult ty x env r = some env') :
    env.Extends env' ∧ (ty.isVoidTy = false → (env' x).isSome) := by
  cases hty : ty.isVoidTy with
  | true =>
    simp only [bindResult, hty, if_true, Option.some.injEq] at h
    subst h
    exact ⟨.refl env, fun h => nomatch h⟩
  | false =>
    simp only [bindResult, hty] at h
    obtain ⟨v, -, rfl⟩ := Option.map_eq_some_iff.mp h
    exact ⟨Env.extends_set env x v, fun _ => by rw [Env.set_self]; rfl⟩

theorem readPhis_names {prev : Option BlockId} {env : Env π} {phis : List PHINode}
    {xs : List (ValueId × Val π)} (h : readPhis P prev env phis = some xs) :
    xs.map Prod.fst = phis.map PHINode.id := by
  induction phis generalizing xs with
  | nil =>
    obtain rfl := Option.some.inj h
    rfl
  | cons p ps ih =>
    simp only [readPhis] at h
    cases hv : (prev.bind p.value).bind (·.eval P env) with
    | none => simp [hv] at h
    | some x =>
      cases hrest : readPhis P prev env ps with
      | none => simp [hv, hrest] at h
      | some ys =>
        simp only [hv, hrest, Option.some.injEq] at h
        subst h
        rw [List.map_cons, List.map_cons, ih hrest]

theorem execBody_extends {is : List Instruction} {env env' : Env π} {s s' : State σ}
    (h : execBody P call is env s = .ok env' s') :
    env.Extends env' ∧ ∀ i ∈ is, i.ty.isVoidTy = false → (env' i.id).isSome := by
  induction is generalizing env s with
  | nil =>
    cases h
    exact ⟨.refl _, fun _ h => nomatch h⟩
  | cons i is ih =>
    obtain ⟨env₁, s₁, hi, hrest⟩ := bind_eq_ok.mp h
    obtain ⟨r, s₂, -, hbind⟩ := bind_eq_ok.mp hi
    obtain ⟨hext, hdef⟩ := bindResult_extends (require_eq_ok.mp hbind).1
    obtain ⟨hext', hdef'⟩ := ih hrest
    refine ⟨hext.trans hext', ?_⟩
    intro j hj hty
    rcases List.mem_cons.mp hj with rfl | hj
    · exact hext' _ (hdef hty)
    · exact hdef' j hj hty

/-! ## Steps -/

/-- What a jump does: it takes an edge of the control flow graph. -/
structure JumpsTo (b : BlockId) (env : Env π) (t : Terminator) (c : Config π) : Prop where
  prev : c.prev = some b
  block : c.block ∈ t.successors
  env : env.Extends c.env

theorem terminator_goto {b : BlockId} {env : Env π} {t : Terminator} {s s' : State σ}
    {c : Config π} (h : t.exec P call b env s = .ok (.goto c) s') : JumpsTo b env t c := by
  cases t with
  | ret v =>
    cases v with
    | none => cases h
    | some v =>
      obtain ⟨x, s₁, -, hx⟩ := bind_eq_ok.mp h
      cases hx
  | br dest =>
    cases h
    exact ⟨rfl, List.mem_singleton_self dest, .refl env⟩
  | condBr cond ifTrue ifFalse =>
    obtain ⟨x, s₁, -, hx⟩ := bind_eq_ok.mp h
    cases hx
    refine ⟨rfl, ?_, .refl env⟩
    simp only [Terminator.successors]
    split <;> simp
  | invoke id ty callee args normal unwind =>
    obtain ⟨r, s₁, -, hr⟩ := bind_eq_ok.mp h
    cases r with
    | none =>
      cases hr
      exact ⟨rfl, by simp [Terminator.successors], .refl env⟩
    | some r =>
      obtain ⟨env₁, s₂, hbind, hjump⟩ := bind_eq_ok.mp hr
      cases hjump
      exact ⟨rfl, by simp [Terminator.successors],
        (bindResult_extends (require_eq_ok.mp hbind).1).1⟩
  | unreachable => cases h
  | other k operands successors =>
    obtain ⟨vs, s₁, -, h⟩ := bind_eq_ok.mp h
    obtain ⟨n, s₂, -, h⟩ := bind_eq_ok.mp h
    obtain ⟨dest, s₃, hdest, hjump⟩ := bind_eq_ok.mp h
    cases hjump
    exact ⟨rfl, List.mem_of_getElem? (require_eq_ok.mp hdest).1, .refl env⟩

/-- The names that a block defines before its terminator. -/
def BasicBlock.assigned (B : BasicBlock) : List (ValueId × Ty) :=
  B.phis.map (fun p => (p.id, p.ty)) ++ B.body.map (fun i => (i.id, i.ty))

theorem block_goto {B : BasicBlock} {prev : Option BlockId} {env : Env π} {s s' : State σ}
    {c : Config π} (h : B.exec P call prev env s = .ok (.goto c) s') :
    JumpsTo B.id env B.terminator c ∧
      ∀ d ∈ B.assigned, d.2.isVoidTy = false → (c.env d.1).isSome := by
  obtain ⟨xs, s₁, hphis, h⟩ := bind_eq_ok.mp h
  obtain ⟨env₁, s₂, hbody, hterm⟩ := bind_eq_ok.mp h
  have hnames := readPhis_names (require_eq_ok.mp hphis).1
  obtain ⟨hext, hdef⟩ := execBody_extends hbody
  have hjump := terminator_goto hterm
  refine ⟨⟨hjump.prev, hjump.block, ((Env.extends_setAll env xs).trans hext).trans hjump.env⟩, ?_⟩
  intro d hd hty
  apply hjump.env
  rcases List.mem_append.mp hd with hd | hd
  · obtain ⟨p, hp, rfl⟩ := List.mem_map.mp hd
    exact hext _ (Env.isSome_setAll env (by rw [hnames]; exact List.mem_map_of_mem hp))
  · obtain ⟨i, hi, rfl⟩ := List.mem_map.mp hd
    exact hdef i hi hty

/-- How a run ends. -/
abbrev Outcome (π σ : Type) := EStateM.Result Halt (State σ) (Option (Val π))

inductive Outcome.Undefined : Outcome π σ → Prop
  | intro (s : State σ) : Undefined (.error .undefined s)

def progressOf : EStateM.Result Halt (State σ) (Next π) →
    Progress (Config π × State σ) (Outcome π σ)
  | .ok (.goto c) s => .next (c, s)
  | .ok (.ret v) s => .done (.ok v s)
  | .error e s => .done (.error e s)

namespace Function

variable (F : Function)

/-- The control flow graph. -/
def edge (b c : BlockId) : Prop := ∃ B, F.block b = some B ∧ c ∈ B.terminator.successors

/-- A call with the arguments `vs` in the state `s₀` comes to `c`, between two blocks, in the
state `s`; it has been in the blocks `path`, latest first. -/
inductive Reaches (P : Platform π σ) (call : Caller π σ) (vs : List (Val π)) (s₀ : State σ) :
    List BlockId → Config π → State σ → Prop
  | start {c : Config π} : F.start vs = some c → Reaches P call vs s₀ [] c s₀
  | step {path : List BlockId} {c c' : Config π} {s s' : State σ} :
      Reaches P call vs s₀ path c s → F.step P call c s = .ok (.goto c') s' →
        Reaches P call vs s₀ (c.block :: path) c' s'

variable {F}

theorem block_id {b : BlockId} {B : BasicBlock} (h : F.block b = some B) : B.id = b := by
  simpa using List.find?_some h

theorem block_mem {b : BlockId} {B : BasicBlock} (h : F.block b = some B) : B ∈ F.blocks :=
  List.mem_of_find?_eq_some h

theorem step_goto {c c' : Config π} {s s' : State σ} (h : F.step P call c s = .ok (.goto c') s') :
    ∃ B, F.block c.block = some B ∧ JumpsTo c.block c.env B.terminator c' ∧
      ∀ d ∈ B.assigned, d.2.isVoidTy = false → (c'.env d.1).isSome := by
  obtain ⟨B, s₁, hB, hexec⟩ := bind_eq_ok.mp h
  have hblock := (require_eq_ok.mp hB).1
  have hrun := block_goto hexec
  rw [block_id hblock] at hrun
  exact ⟨B, hblock, hrun⟩

/-- Where a call starts depends on the parameters and on the number of the entry block. -/
theorem start_congr {F' : Function} (hparams : F'.params = F.params)
    (hentry : F'.blocks.head?.map BasicBlock.id = F.blocks.head?.map BasicBlock.id)
    (vs : List (Val π)) : F'.start vs = F.start vs := by
  have hbind : F'.bindParams vs = F.bindParams vs := by unfold bindParams; rw [hparams]
  unfold start
  rw [hbind]
  generalize F.bindParams vs = env
  generalize F.blocks.head? = B at hentry ⊢
  generalize F'.blocks.head? = B' at hentry ⊢
  cases B <;> cases B' <;> cases env <;> simp_all

theorem start_eq_some {vs : List (Val π)} {c : Config π} (h : F.start vs = some c) :
    ∃ B, F.blocks.head? = some B ∧ c.block = B.id ∧
      ∀ x ∈ F.params.map Prod.fst, (c.env x).isSome := by
  unfold start at h
  cases hB : F.blocks.head? with
  | none => simp [hB] at h
  | some B =>
    cases henv : F.bindParams vs with
    | none => simp [hB, henv] at h
    | some env =>
      simp only [hB, henv, Option.some.injEq] at h
      subst h
      refine ⟨B, rfl, rfl, ?_⟩
      intro x hx
      unfold bindParams at henv
      split at henv
      · rename_i hlen
        obtain rfl := Option.some.inj henv
        refine Env.isSome_setAll _ ?_
        rw [List.map_fst_zip (by simp [hlen])]
        exact hx
      · cases henv

theorem Reaches.walk {vs : List (Val π)} {s₀ s : State σ} {path : List BlockId} {c : Config π}
    {B : BasicBlock} (hB : F.blocks.head? = some B) (h : F.Reaches P call vs s₀ path c s) :
    Walk F.edge B.id path c.block := by
  induction h with
  | start hstart =>
    obtain ⟨B', hB', hblock, -⟩ := start_eq_some hstart
    obtain rfl := Option.some.inj (hB.symm.trans hB')
    rw [hblock]
    exact .start
  | step _ hstep ih =>
    obtain ⟨A, hA, hjump, -⟩ := step_goto hstep
    exact .step ih ⟨A, hA, hjump.block⟩

/-- The names that a run has assigned keep a value: the parameters, and what the blocks it has
been in assign. -/
theorem Reaches.isSome {vs : List (Val π)} {s₀ s : State σ} {path : List BlockId} {c : Config π}
    (h : F.Reaches P call vs s₀ path c s) :
    (∀ x ∈ F.params.map Prod.fst, (c.env x).isSome) ∧
      ∀ a ∈ path, ∀ A, F.block a = some A → ∀ d ∈ A.assigned, d.2.isVoidTy = false →
        (c.env d.1).isSome := by
  induction h with
  | start hstart =>
    obtain ⟨_, _, _, hparams⟩ := start_eq_some hstart
    exact ⟨hparams, fun _ h => nomatch h⟩
  | step _ hstep ih =>
    obtain ⟨A, hA, hjump, hassigned⟩ := step_goto hstep
    refine ⟨fun x hx => hjump.env x (ih.1 x hx), ?_⟩
    intro a ha A' hA' d hd hty
    rcases List.mem_cons.mp ha with rfl | ha
    · obtain rfl := Option.some.inj (hA.symm.trans hA')
      exact hassigned d hd hty
    · exact hjump.env d.1 (ih.2 a ha A' hA' d hd hty)

/-! ## Runs as steps of a system -/

/-- A run as a system that moves from block to block. -/
def progress (F : Function) (P : Platform π σ) (call : Caller π σ) (p : Config π × State σ) :
    Progress (Config π × State σ) (Outcome π σ) :=
  progressOf (F.step P call p.1 p.2)

theorem progress_eq_next {p q : Config π × State σ} :
    F.progress P call p = .next q ↔ F.step P call p.1 p.2 = .ok (.goto q.1) q.2 := by
  unfold progress progressOf
  split <;> simp_all [Prod.ext_iff]

theorem reaches_of_stepsIn {vs : List (Val π)} {s₀ : State σ} {n : Nat}
    {p q : Config π × State σ} (h : StepsIn (F.progress P call) n p q) {path : List BlockId}
    (hp : F.Reaches P call vs s₀ path p.1 p.2) : ∃ path, F.Reaches P call vs s₀ path q.1 q.2 := by
  induction h generalizing path with
  | zero => exact ⟨path, hp⟩
  | succ hnext _ ih => exact ih (.step hp (progress_eq_next.mp hnext))

theorem run_of_endsIn {n : Nat} {p : Config π × State σ} {r : Outcome π σ}
    (h : EndsIn (F.progress P call) n p r) : F.run P call n p.1 p.2 = r := by
  induction h with
  | @done p r hdone =>
    rw [run, bind_apply]
    unfold progress progressOf at hdone
    split at hdone <;> simp_all
  | next hnext _ ih =>
    rw [run, bind_apply, progress_eq_next.mp hnext]
    exact ih

theorem ends_of_run {n : Nat} {c : Config π} {s : State σ} {r : Outcome π σ}
    (hr : ∀ t, r ≠ .error .outOfFuel t) (h : F.run P call n c s = r) :
    Ends (F.progress P call) (c, s) r := by
  -- a step that is no jump ends the run, whatever the fuel
  have hdone : ∀ q, F.step P call c s = q → progressOf q = .done r →
      Ends (F.progress P call) (c, s) r := fun q hq hr => ⟨0, .done (by rw [progress, hq, hr])⟩
  induction n generalizing c s with
  | zero =>
    rw [run, bind_apply] at h
    cases hstep : F.step P call c s with
    | error e t => exact hdone _ hstep (by rw [← h, hstep]; rfl)
    | ok next t =>
      rw [hstep] at h
      cases next with
      | ret v => exact hdone _ hstep (by rw [← h]; rfl)
      | goto c' => exact absurd h.symm (hr t)
  | succ n ih =>
    rw [run, bind_apply] at h
    cases hstep : F.step P call c s with
    | error e t => exact hdone _ hstep (by rw [← h, hstep]; rfl)
    | ok next t =>
      rw [hstep] at h
      cases next with
      | ret v => exact hdone _ hstep (by rw [← h]; rfl)
      | goto c' =>
        obtain ⟨m, hm⟩ := ih h fun q hq hr => ⟨0, .done (by rw [progress, hq, hr])⟩
        exact ⟨m + 1, .next (progress_eq_next.mpr hstep) hm⟩

/-- The fuel of `run` apart, its outcome is the result of the system. -/
theorem ends_iff_run {c : Config π} {s : State σ} {r : Outcome π σ}
    (hr : ∀ t, r ≠ .error .outOfFuel t) :
    Ends (F.progress P call) (c, s) r ↔ ∃ n, F.run P call n c s = r :=
  ⟨fun ⟨n, hn⟩ => ⟨n, run_of_endsIn hn⟩, fun ⟨_, h⟩ => ends_of_run hr h⟩

end Function

end Carmor.Passes
