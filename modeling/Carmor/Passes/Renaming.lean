import Carmor.Passes.DuplicateBB
import Carmor.Passes.Refinement

/-!
# Running under other names

An instruction whose registers are renamed computes what it computed before, in an environment
that has the old values under the new names.
-/

namespace Carmor.Passes

open Lib

variable {π σ : Type} {P : Platform π σ} {call : Caller π σ} {f : ValueId → ValueId}
  {env env' : Env π} {next : ValueId}

/-- Undefined behaviour apart, the same states and related values. -/
abbrev Agree {α β : Type} (V : α → β → Prop) (x : Comp σ α) (y : Comp σ β) : Prop :=
  Lib.Refines (· = Halt.undefined) V Eq x y

/-- `env'` has the values of `env` under the names that `f` gives. -/
def Env.Renamed (f : ValueId → ValueId) (env env' : Env π) : Prop :=
  ∀ x v, env x = some v → env' (f x) = some v

theorem eval_mapRegs (h : env.Renamed f env') {v : Value} {x : Val π} (hx : v.eval P env = some x) :
    (v.mapRegs f).eval P env' = some x := by
  induction v with
  | reg y => exact h y x hx
  | bitCast v ih => exact ih hx
  | _ => exact hx

theorem evalAll_mapRegs (h : env.Renamed f env') {vs : List Value} {xs : List (Val π)}
    (hxs : evalAll P env vs = some xs) : evalAll P env' (vs.map (Value.mapRegs f)) = some xs := by
  induction vs generalizing xs with
  | nil => exact hxs
  | cons v vs ih =>
    simp only [evalAll] at hxs
    cases hv : v.eval P env with
    | none => simp [hv] at hxs
    | some x =>
      cases hrest : evalAll P env vs with
      | none => simp [hv, hrest] at hxs
      | some ys =>
        simp only [hv, hrest] at hxs
        simp only [List.map_cons, evalAll, eval_mapRegs h hv, ih hrest]
        exact hxs

theorem noteDirect_mapRegs (callee : Value) :
    noteDirect (σ := σ) (callee.mapRegs f) = noteDirect callee := by
  have hstrip : ∀ v : Value, (v.mapRegs f).stripPointerCasts = v.stripPointerCasts.mapRegs f := by
    intro v
    induction v with
    | bitCast v ih => exact ih
    | _ => rfl
  unfold noteDirect
  rw [hstrip]
  cases callee.stripPointerCasts <;> rfl

theorem agree_require {α : Type} {o o' : Option α} (h : ∀ a, o = some a → o' = some a) :
    Agree (σ := σ) Eq (require o) (require o') :=
  refines_require fun a ha => ⟨a, h a ha, rfl⟩

theorem execCall_mapRegs (h : env.Renamed f env') (callee : Value) (args : List Value) :
    Agree Eq (execCall P call env callee args)
      (execCall P call env' (callee.mapRegs f) (args.map (Value.mapRegs f))) := by
  unfold execCall
  have hcallee : ∀ g, (callee.eval P env).bind Val.asFunction = some g →
      ((callee.mapRegs f).eval P env').bind Val.asFunction = some g := by
    intro g hg
    obtain ⟨x, hx, hxg⟩ := Option.bind_eq_some_iff.mp hg
    rw [eval_mapRegs h hx]
    exact hxg
  apply refines_bind (agree_require hcallee)
  rintro g _ rfl
  apply refines_bind (agree_require fun vs hvs => evalAll_mapRegs h hvs)
  rintro vs _ rfl
  rw [noteDirect_mapRegs]
  exact refines_refl _

theorem rhs_exec_mapRegs (h : env.Renamed f env') (ty : Ty) (rhs : Rhs) :
    Agree Eq (rhs.exec P call env ty) ((rhs.mapRegs f).exec P call env' ty) := by
  cases rhs with
  | binary op flags a b =>
    apply refines_bind (agree_require fun x hx => eval_mapRegs h hx)
    rintro x _ rfl
    apply refines_bind (agree_require fun y hy => eval_mapRegs h hy)
    rintro y _ rfl
    exact refines_refl _
  | isNull ty a =>
    apply refines_bind (agree_require fun x hx => eval_mapRegs h hx)
    rintro x _ rfl
    exact refines_refl _
  | call callee args => exact execCall_mapRegs h callee args
  | other k operands =>
    apply refines_bind (agree_require fun vs hvs => evalAll_mapRegs h hvs)
    rintro vs _ rfl
    exact refines_refl _

/-! ## The same names -/

@[simp] theorem Value.mapRegs_id (v : Value) : v.mapRegs id = v := by
  induction v with
  | bitCast v ih => rw [mapRegs, ih]
  | _ => rfl

@[simp] theorem Value.map_mapRegs_id (vs : List Value) : vs.map (mapRegs id) = vs := by
  induction vs with
  | nil => rfl
  | cons v vs ih => rw [List.map_cons, mapRegs_id, ih]

@[simp] theorem Rhs.mapRegs_id (rhs : Rhs) : rhs.mapRegs id = rhs := by
  cases rhs <;> simp [mapRegs]

theorem execCall_same (h : env.Renamed id env') (callee : Value) (args : List Value) :
    Agree Eq (execCall P call env callee args) (execCall P call env' callee args) := by
  simpa only [Value.mapRegs_id, Value.map_mapRegs_id] using execCall_mapRegs h callee args

theorem rhs_exec_same (h : env.Renamed id env') (ty : Ty) (rhs : Rhs) :
    Agree Eq (rhs.exec P call env ty) (rhs.exec P call env' ty) := by
  simpa only [Rhs.mapRegs_id] using rhs_exec_mapRegs h ty rhs

theorem readPhis_same (h : env.Renamed id env') {prev : Option BlockId} {phis : List PHINode}
    {xs : List (ValueId × Val π)} (hxs : readPhis P prev env phis = some xs) :
    readPhis P prev env' phis = some xs := by
  induction phis generalizing xs with
  | nil => exact hxs
  | cons p ps ih =>
    simp only [readPhis] at hxs
    cases hv : (prev.bind p.value).bind (·.eval P env) with
    | none => simp [hv] at hxs
    | some x =>
      cases hrest : readPhis P prev env ps with
      | none => simp [hv, hrest] at hxs
      | some ys =>
        simp only [hv, hrest] at hxs
        obtain ⟨v, hphi, hx⟩ := Option.bind_eq_some_iff.mp hv
        have hx' := eval_mapRegs h hx
        rw [Value.mapRegs_id] at hx'
        simp only [readPhis, hphi, Option.bind_some, hx', ih hrest]
        exact hxs

/-- `env'` has the values of `env`, which has none from `next` on. -/
structure Env.Within (next : ValueId) (env env' : Env π) : Prop where
  below : env.Below next
  renamed : env.Renamed id env'

theorem Env.Within.set (h : env.Within next env') {x : ValueId} (hx : x < next) (v : Val π) :
    (env.set x v).Within next (env'.set x v) := by
  refine ⟨h.below.set hx v, ?_⟩
  intro y w hw
  by_cases hy : y = x
  · subst hy
    rw [set_self] at hw
    rw [id, set_self]
    exact hw
  · rw [set_of_ne _ _ hy] at hw
    rw [id, set_of_ne _ _ hy]
    exact h.renamed y w hw

theorem Env.Within.setAll (h : env.Within next env') {bs : List (ValueId × Val π)}
    (hbs : ∀ x ∈ bs.map Prod.fst, x < next) : (env.setAll bs).Within next (env'.setAll bs) := by
  induction bs with
  | nil => exact h
  | cons b bs ih =>
    rw [List.map_cons, List.forall_mem_cons] at hbs
    exact (ih hbs.2).set hbs.1 b.2

theorem bindResult_within (h : env.Within next env') (ty : Ty) {x : ValueId} (hx : x < next)
    (r : Option (Val π)) {env₁ : Env π} (hbind : bindResult ty x env r = some env₁) :
    ∃ env₁', bindResult ty x env' r = some env₁' ∧ env₁.Within next env₁' := by
  cases hty : ty.isVoidTy with
  | true =>
    simp only [bindResult, hty, if_true, Option.some.injEq] at hbind ⊢
    subst hbind
    exact ⟨env', rfl, h⟩
  | false =>
    simp only [bindResult, hty] at hbind ⊢
    obtain ⟨v, rfl, rfl⟩ := Option.map_eq_some_iff.mp hbind
    exact ⟨_, rfl, h.set hx v⟩

theorem execBody_within {is : List Instruction} (hids : ∀ i ∈ is, i.id < next)
    (h : env.Within next env') :
    Agree (Env.Within next) (execBody P call is env) (execBody P call is env') := by
  induction is generalizing env env' with
  | nil => exact refines_pure h
  | cons i is ih =>
    rw [List.forall_mem_cons] at hids
    have hi : Agree (Env.Within next) (i.exec P call env) (i.exec P call env') := by
      apply refines_bind (rhs_exec_same h.renamed i.ty i.rhs)
      rintro r _ rfl
      exact refines_require fun env₁ henv₁ => bindResult_within h i.ty hids.1 r henv₁
    exact refines_bind hi fun env₁ env₁' h₁ => ih hids.2 h₁

/-- What a terminator does at the end of the block `b`, and what it does at the end of the block
`b'` in another environment. -/
inductive NextWithin (next : ValueId) (b b' : BlockId) : Next π → Next π → Prop
  | goto {dest : BlockId} {env env' : Env π} : env.Within next env' →
      NextWithin next b b' (.goto ⟨some b, dest, env⟩) (.goto ⟨some b', dest, env'⟩)
  | ret (v : Option (Val π)) : NextWithin next b b' (.ret v) (.ret v)

theorem terminator_within {t : Terminator} (ht : ∀ x ∈ t.result, x.1 < next) (b b' : BlockId)
    (h : env.Within next env') :
    Agree (NextWithin next b b') (t.exec P call b env) (t.exec P call b' env') := by
  have heval : ∀ {v : Value} {x}, v.eval P env = some x → v.eval P env' = some x := by
    intro v x hx
    simpa using eval_mapRegs h.renamed hx
  have hevalAll : ∀ {vs : List Value} {xs}, evalAll P env vs = some xs →
      evalAll P env' vs = some xs := by
    intro vs xs hxs
    simpa using evalAll_mapRegs h.renamed hxs
  cases t with
  | ret v =>
    cases v with
    | none => exact refines_pure (.ret none)
    | some v =>
      apply refines_bind (agree_require fun x hx => heval hx)
      rintro x _ rfl
      exact refines_pure (.ret (some x))
  | br dest => exact refines_pure (.goto h)
  | condBr cond ifTrue ifFalse =>
    have hcond : ∀ c, (cond.eval P env).bind (Val.asInt 1) = some c →
        (cond.eval P env').bind (Val.asInt 1) = some c := by
      intro c hc
      obtain ⟨x, hx, hxc⟩ := Option.bind_eq_some_iff.mp hc
      rw [heval hx]
      exact hxc
    apply refines_bind (agree_require hcond)
    rintro c _ rfl
    exact refines_pure (.goto h)
  | invoke id ty callee args normal unwind =>
    apply refines_bind (refines_catchUnwind (execCall_same h.renamed callee args))
    intro r r' hr
    cases hr with
    | none => exact refines_pure (.goto h)
    | @some r _ hr =>
      subst hr
      apply refines_bind (refines_require fun env₁ henv₁ =>
        bindResult_within h ty (ht _ rfl) r henv₁)
      intro env₁ env₁' h₁
      exact refines_pure (.goto h₁)
  | unreachable => exact refines_of_undefined (U := (· = Halt.undefined)) rfl _
  | other k operands successors =>
    apply refines_bind (agree_require fun vs hvs => hevalAll hvs)
    rintro vs _ rfl
    apply refines_bind (refines_refl (lift (P.branch k vs)))
    rintro n _ rfl
    apply refines_bind (refines_refl (require successors[n]?))
    rintro dest _ rfl
    exact refines_pure (.goto h)

end Carmor.Passes
