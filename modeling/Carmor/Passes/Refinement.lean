import Carmor.Passes.Ir
import Carmor.Lib.Refinement
import Mathlib.Data.List.Forall2

/-!
# Refinement of programs

A pass may replace a poison value by any value and may do anything once the program it was given
has undefined behaviour. `FunctionRefines` says that a function keeps the blocks of another one
and that the body of each block refines the old body; `callFunction_refines` lifts this to whole
modules.
-/

namespace Carmor.Passes

open Lib

variable {π σ α β : Type}

/-- The values that may take the place of a value. -/
def Val.Refines (v v' : Val π) : Prop := v = .poison ∨ v = v'

theorem Val.Refines.refl (v : Val π) : v.Refines v := .inr rfl

/-- Every value of `env` has its place taken in `env'`. -/
def Env.Refines (env env' : Env π) : Prop :=
  ∀ x v, env x = some v → ∃ v', env' x = some v' ∧ v.Refines v'

/-- No name from `next` on has a value. -/
def Env.Below (next : ValueId) (env : Env π) : Prop := ∀ x, next ≤ x → env x = none

/-- The environments of a program and of what a pass made of it, whose new names start at
`next`. -/
structure EnvRel (next : ValueId) (env env' : Env π) : Prop where
  below : env.Below next
  refines : env.Refines env'

/-- Related memories and equal traces. -/
structure StateRel (S : σ → σ → Prop) (s s' : State σ) : Prop where
  memory : S s.memory s'.memory
  trace : s.trace = s'.trace

/-- A computation without the undefined behaviours of another one. -/
abbrev CompRefines (S : σ → σ → Prop) (V : α → β → Prop) (x : Comp σ α) (y : Comp σ β) : Prop :=
  Lib.Refines (· = Halt.undefined) V (StateRel S) x y

abbrev ResultRel : Option (Val π) → Option (Val π) → Prop := Option.Rel Val.Refines

/-- The instructions of the machine and the functions of other modules do not do less when they
are given a value for a poison value. -/
structure Platform.Monotone (P : Platform π σ) (S : σ → σ → Prop) : Prop where
  binary : ∀ op flags ty {x x' y y'}, x.Refines x' → y.Refines y' →
    (P.binary op flags ty x y).Refines (P.binary op flags ty x' y')
  other : ∀ k {vs vs'}, List.Forall₂ Val.Refines vs vs' →
    Lib.Refines (· = Halt.undefined) ResultRel S (P.other k vs) (P.other k vs')
  branch : ∀ k {vs vs'}, List.Forall₂ Val.Refines vs vs' →
    Lib.Refines (· = Halt.undefined) Eq S (P.branch k vs) (P.branch k vs')
  external : ∀ f {vs vs'}, List.Forall₂ Val.Refines vs vs' →
    Lib.Refines (· = Halt.undefined) ResultRel S (P.external f vs) (P.external f vs')

theorem Platform.bare_monotone : Platform.bare.Monotone Eq where
  binary _ _ _ _ _ _ _ _ _ := .inl rfl
  other _ _ _ _ := refines_of_undefined (U := (· = Halt.undefined)) rfl _
  branch _ _ _ _ := refines_of_undefined (U := (· = Halt.undefined)) rfl _
  external _ _ _ _ := refines_of_undefined (U := (· = Halt.undefined)) rfl _

def CallerRefines (S : σ → σ → Prop) (call call' : Caller π σ) : Prop :=
  ∀ f {vs vs'}, List.Forall₂ Val.Refines vs vs' →
    CompRefines S ResultRel (call f vs) (call' f vs')

/-! ## Environments -/

theorem Env.Below.set {next x : ValueId} {env : Env π} (h : env.Below next) (hx : x < next)
    (v : Val π) : (env.set x v).Below next := by
  intro y hy
  rw [Env.set_of_ne env v (Nat.ne_of_gt (Nat.lt_of_lt_of_le hx hy))]
  exact h y hy

theorem Env.Refines.set {env env' : Env π} (h : env.Refines env') (x : ValueId) {v v' : Val π}
    (hv : v.Refines v') : (env.set x v).Refines (env'.set x v') := by
  intro y w hw
  by_cases hy : y = x
  · subst hy
    rw [Env.set_self] at hw
    obtain rfl := Option.some.inj hw
    exact ⟨v', Env.set_self env' y v', hv⟩
  · rw [Env.set_of_ne _ _ hy] at hw ⊢
    exact h y w hw

theorem EnvRel.set {next x : ValueId} {env env' : Env π} (h : EnvRel next env env')
    (hx : x < next) {v v' : Val π} (hv : v.Refines v') :
    EnvRel next (env.set x v) (env'.set x v') :=
  ⟨h.below.set hx v, h.refines.set x hv⟩

theorem EnvRel.mono {next next' : ValueId} {env env' : Env π} (h : EnvRel next env env')
    (hle : next ≤ next') : EnvRel next' env env' :=
  ⟨fun x hx => h.below x (Nat.le_trans hle hx), h.refines⟩

/-- The bindings of the same names to related values. -/
def BindingsRel (next : ValueId) : List (ValueId × Val π) → List (ValueId × Val π) → Prop :=
  List.Forall₂ fun b b' => b.1 = b'.1 ∧ b.1 < next ∧ b.2.Refines b'.2

theorem EnvRel.setAll {next : ValueId} {env env' : Env π} {bs bs' : List (ValueId × Val π)}
    (h : EnvRel next env env') (hbs : BindingsRel next bs bs') :
    EnvRel next (env.setAll bs) (env'.setAll bs') := by
  induction hbs with
  | nil => exact h
  | @cons b b' bs bs' hb _ ih =>
    obtain ⟨x, v⟩ := b
    obtain ⟨x', v'⟩ := b'
    obtain ⟨rfl, hx, hv⟩ := hb
    exact ih.set hx hv

/-! ## Computations -/

section Comp

variable {S : σ → σ → Prop} {V : α → β → Prop}

theorem refines_require {τ : Type} {T : State σ → State τ → Prop} {o : Option α} {o' : Option β}
    (h : ∀ a, o = some a → ∃ b, o' = some b ∧ V a b) :
    Lib.Refines (· = Halt.undefined) V T (require o) (require o') := by
  cases o with
  | none => exact refines_of_undefined (U := (· = Halt.undefined)) rfl _
  | some a =>
    obtain ⟨b, rfl, hab⟩ := h a rfl
    exact refines_pure hab

theorem refines_lift {x : EStateM Halt σ α} {y : EStateM Halt σ β}
    (h : Lib.Refines (· = Halt.undefined) V S x y) : CompRefines S V (lift x) (lift y) := by
  intro s s' hs
  have hrun := h s.memory s'.memory hs.memory
  simp only [lift]
  generalize x s.memory = r at hrun
  generalize y s'.memory = r' at hrun
  cases hrun with
  | undefined he => exact .undefined he
  | error hm => exact .error ⟨hm, hs.trace⟩
  | ok hab hm => exact .ok hab ⟨hm, hs.trace⟩

theorem refines_record (e : Event) : CompRefines S Eq (record (σ := σ) e) (record e) :=
  fun _ _ hs => .ok rfl ⟨hs.memory, congrArg (e :: ·) hs.trace⟩

theorem allows_catchUnwind {τ : Type} {T : State σ → State τ → Prop} {x : Comp σ α}
    {y : Comp τ β} {s : State σ} {s' : State τ} (h : Allows (· = Halt.undefined) V T (x s) (y s')) :
    Allows (· = Halt.undefined) (Option.Rel V) T (catchUnwind x s) (catchUnwind y s') := by
  simp only [catchUnwind]
  generalize x s = r at h
  generalize y s' = r' at h
  cases h with
  | undefined he =>
    subst he
    exact .undefined rfl
  | @error e s₁ s₁' hm =>
    cases e with
    | unwind => exact .ok .none hm
    | undefined => exact .error hm
    | exit => exact .error hm
    | outOfFuel => exact .error hm
  | ok hab hm => exact .ok (.some hab) hm

theorem refines_catchUnwind {τ : Type} {T : State σ → State τ → Prop} {x : Comp σ α}
    {y : Comp τ β} (h : Lib.Refines (· = Halt.undefined) V T x y) :
    Lib.Refines (· = Halt.undefined) (Option.Rel V) T (catchUnwind x) (catchUnwind y) :=
  fun s s' hs => allows_catchUnwind (h s s' hs)

end Comp

/-! ## Values -/

section Semantics

variable {P : Platform π σ} {S : σ → σ → Prop} {next : ValueId} {env env' : Env π}

theorem eval_refines (h : env.Refines env') {v : Value} {x : Val π} (hv : v.eval P env = some x) :
    ∃ x', v.eval P env' = some x' ∧ x.Refines x' := by
  induction v with
  | reg y => exact h y x hv
  | constantInt bits c => exact ⟨x, hv, .refl x⟩
  | function f => exact ⟨x, hv, .refl x⟩
  | constant k => exact ⟨x, hv, .refl x⟩
  | bitCast v ih => exact ih hv

theorem evalAll_refines (h : env.Refines env') {vs : List Value} {xs : List (Val π)}
    (hvs : evalAll P env vs = some xs) :
    ∃ xs', evalAll P env' vs = some xs' ∧ List.Forall₂ Val.Refines xs xs' := by
  induction vs generalizing xs with
  | nil =>
    obtain rfl := Option.some.inj hvs
    exact ⟨[], rfl, .nil⟩
  | cons v vs ih =>
    simp only [evalAll] at hvs
    cases hv : v.eval P env with
    | none => simp [hv] at hvs
    | some x =>
      cases hrest : evalAll P env vs with
      | none => simp [hv, hrest] at hvs
      | some ys =>
        simp only [hv, hrest, Option.some.injEq] at hvs
        subst hvs
        obtain ⟨x', hx', hxx'⟩ := eval_refines h hv
        obtain ⟨ys', hys', hyy'⟩ := ih hrest
        exact ⟨x' :: ys', by simp [evalAll, hx', hys'], .cons hxx' hyy'⟩

theorem evalBinary_refines (hP : P.Monotone S) (op : BinaryOp) (flags : Flags) (ty : Ty)
    {x x' y y' : Val π} (hx : x.Refines x') (hy : y.Refines y') :
    (evalBinary P op flags ty x y).Refines (evalBinary P op flags ty x' y') := by
  cases ty with
  | integer bits =>
    -- a poison operand gives poison, other operands are the same on both sides
    rcases hx with rfl | rfl
    · exact .inl rfl
    · rcases hy with rfl | rfl
      · left
        simp only [evalBinary, Val.asInt]
        split <;> first | rfl | simp_all
      · exact .refl _
  | pointer => exact hP.binary op flags _ hx hy
  | void => exact hP.binary op flags _ hx hy
  | other k => exact hP.binary op flags _ hx hy

/-- A comparison with null has a result exactly if it is well-formed. -/
theorem isSome_evalIsNull (P : Platform π σ) (ty : Ty) (x : Val π) :
    (evalIsNull P ty x).isSome = ty.isIntOrPtrTy := by
  cases ty with
  | integer bits =>
    unfold evalIsNull
    simp only
    split <;> rfl
  | pointer =>
    unfold evalIsNull
    simp only
    split <;> rfl
  | void => rfl
  | other k => rfl

theorem evalIsNull_refines {x x' r : Val π} (hx : x.Refines x') {ty : Ty}
    (hr : evalIsNull P ty x = some r) : ∃ r', evalIsNull P ty x' = some r' ∧ r.Refines r' := by
  rcases hx with rfl | rfl
  · have hsome := isSome_evalIsNull P ty (.poison : Val π)
    rw [hr, ← isSome_evalIsNull P ty x'] at hsome
    obtain ⟨r', hr'⟩ := Option.isSome_iff_exists.mp hsome.symm
    refine ⟨r', hr', .inl ?_⟩
    cases ty with
    | integer bits => exact (Option.some.inj hr).symm
    | pointer => exact (Option.some.inj hr).symm
    | void => cases hr
    | other k => cases hr
  · exact ⟨r, hr, .refl r⟩

/-! ## Instructions -/

variable {call call' : Caller π σ}

theorem refines_noteDirect (callee : Value) :
    CompRefines S Eq (noteDirect (σ := σ) callee) (noteDirect callee) := by
  unfold noteDirect
  split
  · exact refines_record _
  · exact refines_pure rfl

theorem execCall_refines (hcall : CallerRefines S call call') (h : env.Refines env')
    (callee : Value) (args : List Value) :
    CompRefines S ResultRel (execCall P call env callee args)
      (execCall P call' env' callee args) := by
  have hcallee : CompRefines S Eq (require ((callee.eval P env).bind Val.asFunction))
      (require ((callee.eval P env').bind Val.asFunction)) := by
    apply refines_require
    intro f hf
    obtain ⟨x, hx, hxf⟩ := Option.bind_eq_some_iff.mp hf
    obtain ⟨x', hx', rfl | rfl⟩ := eval_refines h hx
    · cases hxf
    · exact ⟨f, by rw [hx', Option.bind_some, hxf], rfl⟩
  unfold execCall
  apply refines_bind hcallee
  rintro f _ rfl
  apply refines_bind (refines_require fun vs hvs => evalAll_refines h hvs)
  intro vs vs' hvs
  apply refines_bind (refines_noteDirect callee)
  intro _ _ _
  exact hcall f hvs

theorem rhs_exec_refines (hP : P.Monotone S) (hcall : CallerRefines S call call')
    (h : env.Refines env') (ty : Ty) (rhs : Rhs) :
    CompRefines S ResultRel (rhs.exec P call env ty) (rhs.exec P call' env' ty) := by
  cases rhs with
  | binary op flags a b =>
    apply refines_bind (refines_require fun x hx => eval_refines h hx)
    intro x x' hx
    apply refines_bind (refines_require fun y hy => eval_refines h hy)
    intro y y' hy
    exact refines_pure (.some (evalBinary_refines hP op flags ty hx hy))
  | isNull ty a =>
    apply refines_bind (refines_require fun x hx => eval_refines h hx)
    intro x x' hx
    apply refines_bind (refines_require fun r hr => evalIsNull_refines hx hr)
    intro r r' hr
    exact refines_pure (.some hr)
  | call callee args => exact execCall_refines hcall h callee args
  | other k operands =>
    apply refines_bind (refines_require fun vs hvs => evalAll_refines h hvs)
    intro vs vs' hvs
    exact refines_lift (hP.other k hvs)

theorem bindResult_refines (h : EnvRel next env env') (ty : Ty) {x : ValueId} (hx : x < next)
    {r r' : Option (Val π)} (hr : ResultRel r r') {env₁ : Env π}
    (hbind : bindResult ty x env r = some env₁) :
    ∃ env₁', bindResult ty x env' r' = some env₁' ∧ EnvRel next env₁ env₁' := by
  by_cases hty : ty.isVoidTy = true
  · simp only [bindResult, hty, if_true, Option.some.injEq] at hbind ⊢
    subst hbind
    exact ⟨env', rfl, h⟩
  · simp only [bindResult, hty] at hbind ⊢
    cases hr with
    | none => cases hbind
    | some hv =>
      obtain rfl := Option.some.inj hbind
      exact ⟨_, rfl, h.set hx hv⟩

theorem instruction_exec_refines (hP : P.Monotone S) (hcall : CallerRefines S call call')
    (h : EnvRel next env env') {i : Instruction} (hi : i.id < next) :
    CompRefines S (EnvRel next) (i.exec P call env) (i.exec P call' env') := by
  apply refines_bind (rhs_exec_refines hP hcall h.refines i.ty i.rhs)
  intro r r' hr
  exact refines_require fun env₁ henv₁ => bindResult_refines h i.ty hi hr henv₁

theorem execBody_append (call : Caller π σ) (is js : List Instruction) (env : Env π) :
    execBody P call (is ++ js) env =
      execBody P call is env >>= fun env => execBody P call js env := by
  induction is generalizing env with
  | nil => rfl
  | cons i is ih =>
    simp only [List.cons_append, execBody, bind_assoc]
    exact congrArg _ (funext ih)

/-! ## Blocks -/

theorem readPhis_refines (h : env.Refines env') {prev : Option BlockId} {phis : List PHINode}
    (hphis : ∀ p ∈ phis, p.id < next) {xs : List (ValueId × Val π)}
    (hxs : readPhis P prev env phis = some xs) :
    ∃ xs', readPhis P prev env' phis = some xs' ∧ BindingsRel next xs xs' := by
  induction phis generalizing xs with
  | nil =>
    obtain rfl := Option.some.inj hxs
    exact ⟨[], rfl, .nil⟩
  | cons p ps ih =>
    simp only [readPhis] at hxs
    cases hv : (prev.bind p.value).bind (·.eval P env) with
    | none => simp [hv] at hxs
    | some x =>
      cases hrest : readPhis P prev env ps with
      | none => simp [hv, hrest] at hxs
      | some ys =>
        simp only [hv, hrest, Option.some.injEq] at hxs
        subst hxs
        obtain ⟨v, hv', hx⟩ := Option.bind_eq_some_iff.mp hv
        obtain ⟨x', hx', hxx'⟩ := eval_refines h hx
        obtain ⟨ys', hys', hyy'⟩ := ih (fun q hq => hphis q (List.mem_cons_of_mem _ hq)) hrest
        refine ⟨(p.id, x') :: ys', ?_, .cons ⟨rfl, hphis p List.mem_cons_self, hxx'⟩ hyy'⟩
        simp [readPhis, hv', hx', hys']

/-- Two places of a run, one for the program and one for what a pass made of it. -/
structure ConfigRel (next : ValueId) (c c' : Config π) : Prop where
  prev : c.prev = c'.prev
  block : c.block = c'.block
  env : EnvRel next c.env c'.env

inductive NextRel (next : ValueId) : Next π → Next π → Prop
  | goto {c c' : Config π} : ConfigRel next c c' → NextRel next (.goto c) (.goto c')
  | ret {v v' : Option (Val π)} : ResultRel v v' → NextRel next (.ret v) (.ret v')

theorem nextRel_jump (h : EnvRel next env env') (b dest : BlockId) :
    NextRel next (jump b env dest) (jump b env' dest) :=
  .goto ⟨rfl, rfl, h⟩

theorem terminator_exec_refines (hP : P.Monotone S) (hcall : CallerRefines S call call')
    (h : EnvRel next env env') (b : BlockId) {t : Terminator}
    (ht : ∀ x ∈ t.result, x.1 < next) :
    CompRefines S (NextRel next) (t.exec P call b env) (t.exec P call' b env') := by
  cases t with
  | ret v =>
    cases v with
    | none => exact refines_pure (.ret .none)
    | some v =>
      apply refines_bind (refines_require fun x hx => eval_refines h.refines hx)
      intro x x' hx
      exact refines_pure (.ret (.some hx))
  | br dest => exact refines_pure (nextRel_jump h b dest)
  | condBr cond ifTrue ifFalse =>
    have hcond : CompRefines S Eq (require ((cond.eval P env).bind (Val.asInt 1)))
        (require ((cond.eval P env').bind (Val.asInt 1))) := by
      apply refines_require
      intro c hc
      obtain ⟨x, hx, hxc⟩ := Option.bind_eq_some_iff.mp hc
      obtain ⟨x', hx', rfl | rfl⟩ := eval_refines h.refines hx
      · cases hxc
      · exact ⟨c, by rw [hx', Option.bind_some, hxc], rfl⟩
    apply refines_bind hcond
    rintro c _ rfl
    exact refines_pure (nextRel_jump h b _)
  | invoke id ty callee args normal unwind =>
    apply refines_bind (refines_catchUnwind (execCall_refines hcall h.refines callee args))
    intro r r' hr
    cases hr with
    | none => exact refines_pure (nextRel_jump h b unwind)
    | some hr =>
      apply refines_bind (refines_require fun env₁ henv₁ =>
        bindResult_refines h ty (ht _ rfl) hr henv₁)
      intro env₁ env₁' h₁
      exact refines_pure (nextRel_jump h₁ b normal)
  | unreachable => exact refines_of_undefined (U := (· = Halt.undefined)) rfl _
  | other k operands successors =>
    apply refines_bind (refines_require fun vs hvs => evalAll_refines h.refines hvs)
    intro vs vs' hvs
    apply refines_bind (refines_lift (hP.branch k hvs))
    rintro n _ rfl
    apply refines_bind (refines_require (V := Eq) fun dest hdest => ⟨dest, hdest, rfl⟩)
    rintro dest _ rfl
    exact refines_pure (nextRel_jump h b dest)

/-- Wherever the calls of the two sides are related, running `js` refines running `is`. -/
structure BodyRefines (P : Platform π σ) (next : ValueId) (is js : List Instruction) : Prop where
  exec : ∀ {S : σ → σ → Prop} {call call' : Caller π σ}, P.Monotone S →
    CallerRefines S call call' → ∀ {env env' : Env π}, EnvRel next env env' →
      CompRefines S (EnvRel next) (execBody P call is env) (execBody P call' js env')

/-- The block `B'` is the block `B` with another body. -/
structure BlockRefines (P : Platform π σ) (next : ValueId) (B B' : BasicBlock) : Prop where
  id : B'.id = B.id
  phis : B'.phis = B.phis
  terminator : B'.terminator = B.terminator
  phis_lt : ∀ p ∈ B.phis, p.id < next
  result_lt : ∀ x ∈ B.terminator.result, x.1 < next
  body : BodyRefines P next B.body B'.body

theorem block_exec_refines (hP : P.Monotone S) (hcall : CallerRefines S call call')
    {B B' : BasicBlock} (hB : BlockRefines P next B B') (prev : Option BlockId)
    (h : EnvRel next env env') :
    CompRefines S (NextRel next) (B.exec P call prev env) (B'.exec P call' prev env') := by
  unfold BasicBlock.exec
  rw [hB.id, hB.phis, hB.terminator]
  apply refines_bind (refines_require fun xs hxs => readPhis_refines h.refines hB.phis_lt hxs)
  intro xs xs' hxs
  apply refines_bind (hB.body.exec hP hcall (h.setAll hxs))
  intro env₁ env₁' h₁
  exact terminator_exec_refines hP hcall h₁ B.id hB.result_lt

/-! ## Functions and modules -/

/-- The function `F'` has the blocks of `F`, with other bodies. -/
structure FunctionRefines (P : Platform π σ) (F F' : Function) : Prop where
  params : F'.params = F.params
  blocks : ∃ next, (∀ p ∈ F.params, p.1 < next) ∧
    List.Forall₂ (BlockRefines P next) F.blocks F'.blocks

theorem find_forall₂ {Bs Bs' : List BasicBlock} (h : List.Forall₂ (BlockRefines P next) Bs Bs')
    (b : BlockId) {B : BasicBlock} (hB : Bs.find? (fun B => B.id == b) = some B) :
    ∃ B', Bs'.find? (fun B => B.id == b) = some B' ∧ BlockRefines P next B B' := by
  induction h with
  | nil => cases hB
  | @cons A A' Bs Bs' hA _ ih =>
    by_cases hid : A.id = b
    · rw [List.find?_cons_of_pos (by simpa using hid)] at hB
      obtain rfl := Option.some.inj hB
      exact ⟨A', List.find?_cons_of_pos (by simpa [hA.id] using hid), hA⟩
    · rw [List.find?_cons_of_neg (by simpa using hid)] at hB
      obtain ⟨B', hB', hrel⟩ := ih hB
      exact ⟨B', by rw [List.find?_cons_of_neg (by simpa [hA.id] using hid), hB'], hrel⟩

section Function

variable {F F' : Function}

theorem step_refines (hP : P.Monotone S) (hcall : CallerRefines S call call')
    (hF : List.Forall₂ (BlockRefines P next) F.blocks F'.blocks) {c c' : Config π}
    (hc : ConfigRel next c c') :
    CompRefines S (NextRel next) (F.step P call c) (F'.step P call' c') := by
  unfold Function.step Function.block
  rw [← hc.block, ← hc.prev]
  apply refines_bind (refines_require fun B hB => find_forall₂ hF c.block hB)
  intro B B' hB
  exact block_exec_refines hP hcall hB c.prev hc.env

theorem run_refines (hP : P.Monotone S) (hcall : CallerRefines S call call')
    (hF : List.Forall₂ (BlockRefines P next) F.blocks F'.blocks) (n : Nat) {c c' : Config π}
    (hc : ConfigRel next c c') :
    CompRefines S ResultRel (F.run P call n c) (F'.run P call' n c') := by
  induction n generalizing c c' with
  | zero =>
    apply refines_bind (step_refines hP hcall hF hc)
    intro r r' hr
    cases hr with
    | goto _ => exact refines_throw _
    | ret hv => exact refines_pure hv
  | succ n ih =>
    apply refines_bind (step_refines hP hcall hF hc)
    intro r r' hr
    cases hr with
    | goto hc₁ => exact ih hc₁
    | ret hv => exact refines_pure hv

theorem bindings_zip {xs : List ValueId} (hxs : ∀ x ∈ xs, x < next) {vs vs' : List (Val π)}
    (hvs : List.Forall₂ Val.Refines vs vs') : BindingsRel next (xs.zip vs) (xs.zip vs') := by
  induction hvs generalizing xs with
  | nil => simp [BindingsRel]
  | cons hv _ ih =>
    cases xs with
    | nil => exact .nil
    | cons x xs =>
      exact .cons ⟨rfl, hxs x List.mem_cons_self, hv⟩
        (ih fun y hy => hxs y (List.mem_cons_of_mem _ hy))

theorem envRel_empty : EnvRel next (Env.empty : Env π) Env.empty :=
  ⟨fun _ _ => rfl, fun _ _ h => nomatch h⟩

theorem start_refines (hparams : F'.params = F.params) (hlt : ∀ p ∈ F.params, p.1 < next)
    (hF : List.Forall₂ (BlockRefines P next) F.blocks F'.blocks) {vs vs' : List (Val π)}
    (hvs : List.Forall₂ Val.Refines vs vs') {c : Config π} (hc : F.start vs = some c) :
    ∃ c', F'.start vs' = some c' ∧ ConfigRel next c c' := by
  unfold Function.start Function.bindParams at hc ⊢
  rw [hparams, ← hvs.length_eq]
  by_cases hlen : vs.length = F.params.length
  · rw [if_pos hlen] at hc ⊢
    have hbind : BindingsRel next ((F.params.map Prod.fst).zip vs)
        ((F.params.map Prod.fst).zip vs') := by
      refine bindings_zip ?_ hvs
      intro x hx
      obtain ⟨p, hp, rfl⟩ := List.mem_map.mp hx
      exact hlt p hp
    generalize F.blocks = Bs at hF hc
    generalize F'.blocks = Bs' at hF
    cases hF with
    | nil => cases hc
    | cons hB _ =>
      obtain rfl := Option.some.inj hc
      exact ⟨_, rfl, rfl, hB.id.symm, envRel_empty.setAll hbind⟩
  · rw [if_neg hlen] at hc
    split at hc <;> simp_all

end Function

/-- The functions of `M'` refine those of `M`, in their order. -/
def ModuleRefines (P : Platform π σ) (M M' : Module) : Prop :=
  ∀ f : FunctionId, Option.Rel (FunctionRefines P) M.functions[f]? M'.functions[f]?

theorem FunctionRefines.isDeclaration {F F' : Function} (h : FunctionRefines P F F') :
    F'.isDeclaration = F.isDeclaration := by
  obtain ⟨-, next, -, hblocks⟩ := h
  unfold Function.isDeclaration
  generalize F.blocks = Bs at hblocks
  generalize F'.blocks = Bs' at hblocks
  cases hblocks <;> rfl

/-- `enter` on the two sides, given what running a body does. -/
theorem enter_refines (hP : P.Monotone S) {M M' : Module} (hM : ModuleRefines P M M')
    {body body' : FunctionId → Function → List (Val π) → Comp σ (Option (Val π))}
    (hbody : ∀ f F F' vs vs', FunctionRefines P F F' → List.Forall₂ Val.Refines vs vs' →
      CompRefines S ResultRel (body f F vs) (body' f F' vs')) :
    CallerRefines S (M.enter P body) (M'.enter P body') := by
  intro f vs vs' hvs
  have hf := hM f
  unfold Module.enter
  generalize M.functions[f]? = o at hf
  generalize M'.functions[f]? = o' at hf
  cases hf with
  | none => exact refines_of_undefined (U := (· = Halt.undefined)) rfl _
  | @some F F' hF =>
    simp only [hF.isDeclaration]
    split
    · exact refines_lift (hP.external f hvs)
    · exact hbody f F F' vs vs' hF hvs

/-- Calls of a module whose functions are refined are refined, whatever they nest. -/
theorem callFunction_refines (hP : P.Monotone S) {M M' : Module} (hM : ModuleRefines P M M')
    (n : Nat) : CallerRefines S (M.callFunction P n) (M'.callFunction P n) := by
  induction n with
  | zero => exact enter_refines hP hM fun _ _ _ _ _ _ _ => refines_throw _
  | succ n ih =>
    refine enter_refines hP hM fun f F F' vs vs' hF hvs => ?_
    obtain ⟨next, hlt, hblocks⟩ := hF.blocks
    apply refines_bind (refines_require fun c hc => start_refines hF.params hlt hblocks hvs hc)
    intro c c' hc
    apply refines_bind (refines_record _)
    intro _ _ _
    exact run_refines hP ih hblocks n hc

end Semantics

end Carmor.Passes
