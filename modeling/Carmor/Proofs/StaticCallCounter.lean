import Carmor.Proofs.CallCounter
import Mathlib.Data.String.Basic

/-!
# The static call counter

`StaticCallCounter` lists the functions that some call site of the module names, each with the
number of these sites. A run makes direct calls at call sites only, so that the dynamic counter
has nothing to count for a declared function that is not listed.
-/

namespace Carmor.Passes

open Lib

variable {π σ α β : Type} {P : Platform π σ} {M : Module}

namespace StaticCallCounter

/-- The functions that the call sites of a module name, site by site. -/
def directCallees (M : Module) : List FunctionId :=
  M.functions.flatMap fun F => F.blocks.flatMap fun B => B.calledValues.filterMap directCallee

/-! ## The loop -/

variable {Res : Result} {f g : FunctionId} {fs : List FunctionId}

theorem lookup_map_increment (Res : Result) (f g : FunctionId) :
    (Res.map fun e => if e.1 = f then (e.1, e.2 + 1) else e).lookup g =
      if g = f then (Res.lookup g).map (· + 1) else Res.lookup g := by
  induction Res with
  | nil => simp
  | cons e Res ih =>
    obtain ⟨h, c⟩ := e
    rw [List.map_cons]
    by_cases hgh : g = h
    · subst hgh
      by_cases hgf : g = f
      · rw [if_pos hgf, if_pos hgf, List.lookup_cons_self, List.lookup_cons_self, Option.map_some]
      · rw [if_neg hgf, if_neg hgf, List.lookup_cons_self, List.lookup_cons_self]
    · have hne : (g == h) = false := beq_false_of_ne hgh
      by_cases hhf : h = f
      · rw [if_pos hhf, List.lookup_cons, List.lookup_cons, hne, ih]
      · rw [if_neg hhf, List.lookup_cons, List.lookup_cons, hne, ih]

theorem lookup_append_singleton (Res : Result) (f g : FunctionId) (c : BitVec 32) :
    (Res ++ [(f, c)]).lookup g = (Res.lookup g).or (if g = f then some c else none) := by
  induction Res with
  | nil =>
    by_cases hgf : g = f
    · simp [hgf]
    · simp [List.lookup_cons, beq_false_of_ne hgf, hgf]
  | cons e Res ih =>
    rw [List.cons_append, List.lookup_cons, List.lookup_cons, ih]
    split <;> rfl

theorem lookup_increment (Res : Result) (f g : FunctionId) :
    (increment Res f).lookup g =
      if g = f then some ((Res.lookup f).getD 0 + 1) else Res.lookup g := by
  unfold increment
  rw [lookup_map_increment]
  by_cases hgf : g = f
  · subst hgf
    rw [if_pos rfl, if_pos rfl]
    cases hlookup : Res.lookup g with
    | none => simp [lookup_append_singleton, hlookup]
    | some c => simp [hlookup]
  · rw [if_neg hgf, if_neg hgf]
    split
    · simp [lookup_append_singleton, hgf]
    · rfl

theorem keys_increment (Res : Result) (f : FunctionId) :
    (increment Res f).map Prod.fst =
      if (Res.lookup f).isNone then Res.map Prod.fst ++ [f] else Res.map Prod.fst := by
  have hkeys : ∀ Res : Result, (Res.map fun e => if e.1 = f then (e.1, e.2 + 1) else e).map
      Prod.fst = Res.map Prod.fst := by
    intro Res
    rw [List.map_map]
    apply List.map_congr_left
    intro e _
    simp only [Function.comp_apply]
    split <;> rfl
  unfold increment
  rw [hkeys]
  split <;> simp

/-- The map counts the functions of the list `fs`, each with one entry. -/
structure Counts (fs : List FunctionId) (Res : Result) : Prop where
  lookup : ∀ g, Res.lookup g =
    if fs.count g = 0 then none else some (BitVec.ofNat 32 (fs.count g))
  nodup : (Res.map Prod.fst).Nodup
  mem_keys : ∀ g, g ∈ Res.map Prod.fst ↔ g ∈ fs

theorem Counts.increment (h : Counts fs Res) (f : FunctionId) :
    Counts (fs ++ [f]) (increment Res f) := by
  have hnone : (Res.lookup f).isNone ↔ f ∉ fs := by
    rw [h.lookup]
    split <;> simp_all [List.count_eq_zero]
  refine ⟨?_, ?_, ?_⟩
  · intro g
    rw [lookup_increment, List.count_append, List.count_singleton]
    by_cases hgf : g = f
    · subst hgf
      rw [if_pos rfl, h.lookup]
      by_cases hcount : fs.count g = 0
      · simp [hcount]
      · simp [hcount, BitVec.ofNat_add]
    · have hfg : (f == g) = false := beq_false_of_ne (Ne.symm hgf)
      rw [if_neg hgf, h.lookup, hfg]
      rfl
  · rw [keys_increment]
    split
    · rename_i hf
      have hkey : f ∉ Res.map Prod.fst := fun hmem => hnone.mp hf ((h.mem_keys f).mp hmem)
      rw [List.nodup_append]
      refine ⟨h.nodup, List.nodup_singleton f, ?_⟩
      rintro a ha b hb rfl
      exact hkey (List.mem_singleton.mp hb ▸ ha)
    · exact h.nodup
  · intro g
    rw [keys_increment]
    split
    · simp [h.mem_keys]
    · rename_i hf
      have hmem : f ∈ fs := by
        by_contra hmem
        exact hf (hnone.mpr hmem)
      rw [h.mem_keys, List.mem_append, List.mem_singleton]
      exact ⟨.inl, fun hg => hg.elim id fun hg => hg ▸ hmem⟩

theorem Counts.foldl (h : Counts fs Res) (called : List (Option Value)) :
    Counts (fs ++ called.filterMap directCallee) (called.foldl countCallSite Res) := by
  induction called generalizing fs Res with
  | nil => simpa using h
  | cons c called ih =>
    rw [List.foldl_cons]
    cases hc : directCallee c with
    | none =>
      rw [List.filterMap_cons_none hc]
      simpa only [countCallSite, hc] using ih h
    | some f =>
      rw [List.filterMap_cons_some hc, List.append_cons]
      simpa only [countCallSite, hc] using ih (h.increment f)

theorem runOnModule_eq (M : Module) : runOnModule M =
    (M.functions.flatMap fun F => F.blocks.flatMap BasicBlock.calledValues).foldl
      countCallSite [] := by
  simp only [runOnModule, List.foldl_flatMap]

theorem counts_runOnModule (M : Module) : Counts (directCallees M) (runOnModule M) := by
  have hnil : Counts [] [] := ⟨fun g => by simp, List.nodup_nil, fun g => by simp⟩
  have h := hnil.foldl (M.functions.flatMap fun F => F.blocks.flatMap BasicBlock.calledValues)
  rw [← runOnModule_eq, List.nil_append] at h
  simpa only [directCallees, List.filterMap_flatMap] using h

/-- The later state has recorded direct calls of functions in `fs` only. -/
def NewDirects (fs : List FunctionId) (s t : State σ) : Prop :=
  ∀ f, .direct f ∈ t.trace → .direct f ∈ s.trace ∨ f ∈ fs

abbrev CallsOnly (fs : List FunctionId) (x : Comp σ α) : Prop := Respects (NewDirects fs) x

theorem newDirects_refl (s : State σ) : NewDirects fs s s := fun _ => .inl

theorem newDirects_trans (s t u : State σ) (h : NewDirects fs s t) (h' : NewDirects fs t u) :
    NewDirects fs s u := fun f hf => (h' f hf).elim (h f) .inr

theorem callsOnly_pure (a : α) : CallsOnly (σ := σ) fs (pure a) :=
  respects_pure newDirects_refl a

theorem callsOnly_throw (e : Halt) : CallsOnly (α := α) (σ := σ) fs (throw e) :=
  respects_throw newDirects_refl e

theorem callsOnly_bind {x : Comp σ α} {k : α → Comp σ β} (hx : CallsOnly fs x)
    (hk : ∀ a, CallsOnly fs (k a)) : CallsOnly fs (x >>= k) :=
  respects_bind newDirects_trans hx hk

theorem callsOnly_require (o : Option α) : CallsOnly (σ := σ) fs (require o) := by
  cases o with
  | none => exact callsOnly_throw .undefined
  | some a => exact callsOnly_pure a

theorem callsOnly_lift (x : EStateM Halt σ α) : CallsOnly fs (lift x) := by
  intro s f hf
  unfold lift at hf
  cases h : x s.memory <;> simp only [h, finalState_ok, finalState_error] at hf <;> exact .inl hf

theorem callsOnly_record {e : Event} (he : ∀ f, e = .direct f → f ∈ fs) :
    CallsOnly (σ := σ) fs (record e) := by
  intro s f hf
  rcases List.mem_cons.mp hf with hf | hf
  · exact .inr (he f hf.symm)
  · exact .inl hf

theorem callsOnly_catchUnwind {x : Comp σ α} (hx : CallsOnly fs x) :
    CallsOnly fs (catchUnwind x) := by
  intro s
  have h := hx s
  unfold catchUnwind
  cases hrun : x s with
  | ok a t => simpa only [hrun, finalState_ok] using h
  | error e t =>
    rw [hrun] at h
    cases e <;> exact h

section Calls

variable {call : Caller π σ} {env : Env π}

theorem callsOnly_execCall (hcall : ∀ f vs, CallsOnly fs (call f vs)) {callee : Value}
    (hcallee : ∀ f, directCallee (some callee) = some f → f ∈ fs) (args : List Value) :
    CallsOnly fs (execCall P call env callee args) := by
  have hnote : CallsOnly (σ := σ) fs (noteDirect callee) := by
    unfold noteDirect
    split
    · rename_i g hg
      refine callsOnly_record fun f hf => hcallee f ?_
      simp [directCallee, hg, Value.asFunction, Event.direct.inj hf]
    · exact callsOnly_pure ()
  exact callsOnly_bind (callsOnly_require _) fun f => callsOnly_bind (callsOnly_require _)
    fun vs => callsOnly_bind hnote fun _ => hcall f vs

theorem callsOnly_rhs_exec (hcall : ∀ f vs, CallsOnly fs (call f vs)) {rhs : Rhs}
    (hrhs : ∀ f, directCallee rhs.calledValue = some f → f ∈ fs) (ty : Ty) :
    CallsOnly fs (rhs.exec P call env ty) := by
  cases rhs with
  | binary op flags a b =>
    exact callsOnly_bind (callsOnly_require _) fun x => callsOnly_bind (callsOnly_require _)
      fun y => callsOnly_pure _
  | isNull ty a =>
    exact callsOnly_bind (callsOnly_require _) fun x => callsOnly_bind (callsOnly_require _)
      fun r => callsOnly_pure _
  | call callee args => exact callsOnly_execCall hcall hrhs args
  | other k operands => exact callsOnly_bind (callsOnly_require _) fun vs => callsOnly_lift _

theorem callsOnly_execBody (hcall : ∀ f vs, CallsOnly fs (call f vs)) {is : List Instruction}
    (his : ∀ i ∈ is, ∀ f, directCallee i.rhs.calledValue = some f → f ∈ fs) (env : Env π) :
    CallsOnly fs (execBody P call is env) := by
  induction is generalizing env with
  | nil => exact callsOnly_pure env
  | cons i is ih =>
    rw [List.forall_mem_cons] at his
    have hi : CallsOnly fs (i.exec P call env) :=
      callsOnly_bind (callsOnly_rhs_exec hcall his.1 i.ty) fun r => callsOnly_require _
    exact callsOnly_bind hi fun env₁ => ih his.2 env₁

theorem callsOnly_terminator_exec (hcall : ∀ f vs, CallsOnly fs (call f vs)) {t : Terminator}
    (ht : ∀ f, directCallee t.calledValue = some f → f ∈ fs) (b : BlockId) :
    CallsOnly fs (t.exec P call b env) := by
  cases t with
  | ret v =>
    cases v with
    | none => exact callsOnly_pure _
    | some v => exact callsOnly_bind (callsOnly_require _) fun x => callsOnly_pure _
  | br dest => exact callsOnly_pure _
  | condBr cond ifTrue ifFalse =>
    exact callsOnly_bind (callsOnly_require _) fun c => callsOnly_pure _
  | invoke id ty callee args normal unwind =>
    refine callsOnly_bind (callsOnly_catchUnwind (callsOnly_execCall hcall ht args)) fun r => ?_
    cases r with
    | none => exact callsOnly_pure _
    | some r => exact callsOnly_bind (callsOnly_require _) fun env₁ => callsOnly_pure _
  | unreachable => exact callsOnly_throw .undefined
  | other k operands successors =>
    exact callsOnly_bind (callsOnly_require _) fun vs => callsOnly_bind (callsOnly_lift _)
      fun n => callsOnly_bind (callsOnly_require _) fun dest => callsOnly_pure _

theorem callsOnly_block_exec (hcall : ∀ f vs, CallsOnly fs (call f vs)) {B : BasicBlock}
    (hB : ∀ f ∈ B.calledValues.filterMap directCallee, f ∈ fs) (prev : Option BlockId) :
    CallsOnly fs (B.exec P call prev env) := by
  have hcalled : ∀ called ∈ B.calledValues, ∀ f, directCallee called = some f → f ∈ fs :=
    fun called hmem f hf => hB f (List.mem_filterMap.mpr ⟨called, hmem, hf⟩)
  refine callsOnly_bind (callsOnly_require _) fun xs => callsOnly_bind
    (callsOnly_execBody hcall (fun i hi => hcalled _ ?_) _) fun env₁ =>
      callsOnly_terminator_exec hcall (hcalled _ ?_) B.id
  · exact List.mem_append_left _ (List.mem_map_of_mem hi)
  · exact List.mem_append_right _ (List.mem_singleton_self _)

theorem callsOnly_run (hcall : ∀ f vs, CallsOnly fs (call f vs)) {F : Function}
    (hF : ∀ B ∈ F.blocks, ∀ f ∈ B.calledValues.filterMap directCallee, f ∈ fs) (n : Nat)
    (c : Config π) : CallsOnly fs (F.run P call n c) := by
  have hstep : ∀ c, CallsOnly fs (F.step P call c) := by
    intro c
    unfold Function.step
    cases hB : F.block c.block with
    | none => exact newDirects_refl
    | some B =>
      rw [require_some, pure_bind]
      exact callsOnly_block_exec hcall (hF B (Function.block_mem hB)) c.prev
  induction n generalizing c with
  | zero =>
    refine callsOnly_bind (hstep c) fun next => ?_
    cases next with
    | goto c' => exact callsOnly_throw .outOfFuel
    | ret v => exact callsOnly_pure v
  | succ n ih =>
    refine callsOnly_bind (hstep c) fun next => ?_
    cases next with
    | goto c' => exact ih c'
    | ret v => exact callsOnly_pure v

end Calls

/-- Every direct call of a run is made at a call site of the module. -/
theorem callsOnly_callFunction (M : Module) (n : Nat) (f : FunctionId) (vs : List (Val π)) :
    CallsOnly (directCallees M) (M.callFunction P n f vs) := by
  have henter : ∀ {body : FunctionId → Function → List (Val π) → Comp σ (Option (Val π))},
      (∀ f, ∀ F ∈ M.functions, ∀ vs, CallsOnly (directCallees M) (body f F vs)) →
        ∀ f vs, CallsOnly (directCallees M) (M.enter P body f vs) := by
    intro body hbody f vs
    unfold Module.enter
    cases hF : M.functions[f]? with
    | none => exact callsOnly_throw .undefined
    | some F => exact respects_ite (callsOnly_lift _) (hbody f F (List.mem_of_getElem? hF) vs)
  induction n generalizing f vs with
  | zero => exact henter (fun _ _ _ _ => callsOnly_throw .outOfFuel) f vs
  | succ n ih =>
    refine henter (fun f F hF vs => ?_) f vs
    refine callsOnly_bind (callsOnly_require _) fun c => callsOnly_bind
      (callsOnly_record fun g hg => nomatch hg) fun _ => callsOnly_run ih ?_ n c
    intro B hB g hg
    exact List.mem_flatMap.mpr ⟨F, hF, List.mem_flatMap.mpr ⟨B, hB, hg⟩⟩

end StaticCallCounter

end Carmor.Passes
