import Carmor.Passes.CallCounter
import Carmor.Passes.Refinement
import Carmor.Passes.Runs
import Mathlib.Algebra.Order.Ring.Nat

/-!
# The dynamic call counter

The instrumented module does what the module did, and its table agrees at every moment with the
trace: a function that the module defines is counted when its body is entered, any other one when
a call names it. The counter is ahead of the trace between the two instructions of a counted call
and behind it between the call of a function and the first instruction of its entry block.
-/

namespace Carmor.Passes

open Lib

variable {π σ α β : Type} {P : Platform π σ} {M : Module}

namespace DynamicCallCounter

/-! ## The table -/

/-- The event by which a function is counted. -/
def countedEvent (M : Module) (f : FunctionId) : Event :=
  if isInternal M f then .entered f else .direct f

/-- The table that belongs to a trace. -/
def tally (M : Module) (trace : List Event) : List FunctionInfo :=
  M.functions.mapIdx fun f F => ⟨F.name, BitVec.ofNat 64 (trace.count (countedEvent M f))⟩

theorem countedEvent_inj {f g : FunctionId} (h : countedEvent M f = countedEvent M g) : f = g := by
  unfold countedEvent at h
  split at h <;> split at h <;> simp_all

theorem getElem?_tally (trace : List Event) (f : FunctionId) :
    (tally M trace)[f]? = M.functions[f]?.map fun F =>
      ⟨F.name, BitVec.ofNat 64 (trace.count (countedEvent M f))⟩ := by
  simp [tally]

theorem tally_nil : tally M [] = createGlobalFunctionTable M := by
  apply List.ext_getElem?
  intro f
  simp [getElem?_tally, createGlobalFunctionTable]

/-- An event by which nothing is counted leaves the table as it is. -/
theorem tally_cons_of_ne {e : Event} {trace : List Event}
    (he : ∀ f < M.functions.length, countedEvent M f ≠ e) :
    tally M (e :: trace) = tally M trace := by
  apply List.ext_getElem?
  intro f
  rw [getElem?_tally, getElem?_tally]
  by_cases hf : f < M.functions.length
  · rw [List.count_cons_of_ne (he f hf).symm]
  · rw [List.getElem?_eq_none (Nat.le_of_not_lt hf)]
    rfl

/-- `lt_RUNTIME_incrCC` counts the event of a function. -/
theorem incrCC_tally (hsize : M.functions.length < 2 ^ 64) {f : FunctionId}
    (hf : f < M.functions.length) (trace : List Event) :
    DynamicCallCounterRT.lt_RUNTIME_incrCC (BitVec.ofNat 64 f) (tally M trace) =
      .ok () (tally M (countedEvent M f :: trace)) := by
  have hid : (BitVec.ofNat 64 f).toNat = f := by
    rw [BitVec.toNat_ofNat, Nat.mod_eq_of_lt (Nat.lt_trans hf hsize)]
  unfold DynamicCallCounterRT.lt_RUNTIME_incrCC
  rw [hid, getElem?_tally, List.getElem?_eq_getElem hf]
  simp only [Option.map_some, EStateM.Result.ok.injEq, true_and]
  apply List.ext_getElem?
  intro g
  rw [List.getElem?_set, getElem?_tally, getElem?_tally]
  by_cases hgf : f = g
  · subst hgf
    have hlen : f < (tally M trace).length := by simpa [tally] using hf
    rw [if_pos rfl, if_pos hlen, List.getElem?_eq_getElem hf, Option.map_some,
      List.count_cons_self, BitVec.ofNat_add]
    rfl
  · have hne : countedEvent M f ≠ countedEvent M g := fun h => hgf (countedEvent_inj h)
    rw [if_neg hgf, List.count_cons_of_ne hne]

/-! ## States -/

/-- The state of the instrumented program when its table belongs to the trace `counted`. -/
structure StateWith (M : Module) (counted : List Event) (s : State σ)
    (s' : State (σ × List FunctionInfo)) : Prop where
  memory : s'.memory = (s.memory, tally M counted)
  trace : s'.trace.filter (· ≠ .direct M.functions.length) = s.trace

/-- The table belongs to the trace of the program. -/
def Counted (M : Module) (s : State σ) (s' : State (σ × List FunctionInfo)) : Prop :=
  StateWith M s.trace s s'

/-- The outcomes of the program and of the instrumented one. -/
abbrev Simulates (V : α → β → Prop) (M : Module) (x : Comp σ α)
    (y : Comp (σ × List FunctionInfo) β) : Prop :=
  Lib.Refines (· = Halt.undefined) V (Counted M) x y

theorem simulates_lift (x : EStateM Halt σ α) : Simulates Eq M (lift x) (lift (onFst x)) := by
  intro s s' hs
  have hmemory := hs.memory
  have htrace := hs.trace
  simp only [lift, onFst, hmemory]
  cases x s.memory with
  | ok a m => exact .ok rfl ⟨rfl, htrace⟩
  | error e m => exact .error ⟨rfl, htrace⟩

theorem simulates_require (o : Option α) : Simulates (σ := σ) Eq M (require o) (require o) :=
  refines_require fun a ha => ⟨a, ha, rfl⟩

/-- An event that is not counted is recorded on both sides. -/
theorem simulates_record {e : Event} (hcounted : ∀ f < M.functions.length, countedEvent M f ≠ e)
    (he : e ≠ .direct M.functions.length) :
    Simulates (σ := σ) Eq M (record e) (record e) := by
  intro s s' hs
  refine .ok rfl ⟨?_, ?_⟩
  · rw [tally_cons_of_ne hcounted]
    exact hs.memory
  · rw [List.filter_cons_of_pos (by simpa using he)]
    exact congrArg (e :: ·) hs.trace

/-! ## Calls -/

/-- The calls of the instrumented program, given those of the program. -/
structure Linked (P : Platform π σ) (M : Module) (call : Caller π σ)
    (call' : Caller π (σ × List FunctionInfo)) : Prop where
  unknown : ∀ f vs s, M.functions.length ≤ f → call f vs s = .error .undefined s
  incrCC : ∀ vs, call' M.functions.length vs =
    lift ((P.withRuntime M.functions.length).external M.functions.length vs)
  known : ∀ f vs, f < M.functions.length → Simulates Eq M (call f vs) (call' f vs)

variable {call : Caller π σ} {call' : Caller π (σ × List FunctionInfo)}

theorem Linked.simulates (h : Linked P M call call') (f : FunctionId) (vs : List (Val π)) :
    Simulates Eq M (call f vs) (call' f vs) := by
  by_cases hf : f < M.functions.length
  · exact h.known f vs hf
  · intro s s' _
    rw [h.unknown f vs s (Nat.le_of_not_lt hf)]
    exact .undefined rfl

theorem eval_withRuntime (n : FunctionId) (env : Env π) (v : Value) :
    v.eval (P.withRuntime n) env = v.eval P env := by
  induction v with
  | bitCast v ih => exact ih
  | _ => rfl

theorem evalAll_withRuntime (n : FunctionId) (env : Env π) (vs : List Value) :
    evalAll (P.withRuntime n) env vs = evalAll P env vs := by
  induction vs with
  | nil => rfl
  | cons v vs ih => simp only [evalAll, eval_withRuntime, ih]

theorem eval_stripPointerCasts (env : Env π) (v : Value) :
    v.stripPointerCasts.eval P env = v.eval P env := by
  induction v with
  | bitCast v ih => exact ih
  | _ => rfl

theorem external_incrCC {n : FunctionId} {id : BitVec 64} {m : σ} {table table' : List FunctionInfo}
    (h : DynamicCallCounterRT.lt_RUNTIME_incrCC id table = .ok () table') :
    (P.withRuntime n).external n [.int 64 id] (m, table) = .ok none (m, table') := by
  have hsnd : onSnd (DynamicCallCounterRT.lt_RUNTIME_incrCC id) (m, table) = .ok () (m, table') := by
    simp only [onSnd, h]
  simp only [Platform.withRuntime, if_true, List.head?_cons, Option.bind_some, Val.asInt,
    dite_true, BitVec.cast_eq]
  rw [bind_of_ok hsnd]
  rfl

/-- The inserted call counts. -/
theorem exec_createCall (h : Linked P M call call') (hsize : M.functions.length < 2 ^ 64)
    {f : FunctionId} (hf : f < M.functions.length) (env : Env π) {counted : List Event}
    {s : State σ} {s' : State (σ × List FunctionInfo)} (hs : StateWith M counted s s') :
    ∃ s'', (createCall M.functions.length f).exec (P.withRuntime M.functions.length) call' env s' =
      .ok env s'' ∧ StateWith M (countedEvent M f :: counted) s s'' := by
  have hincr := external_incrCC (P := P) (n := M.functions.length) (m := s.memory)
    (incrCC_tally hsize hf counted)
  have hcall : execCall (P.withRuntime M.functions.length) call' env
      (.function M.functions.length) [.constantInt 64 (BitVec.ofNat 64 f)] s' =
        .ok none ⟨(s.memory, tally M (countedEvent M f :: counted)),
          .direct M.functions.length :: s'.trace⟩ := by
    change call' M.functions.length [.int 64 (BitVec.ofNat 64 f)]
      ⟨s'.memory, .direct M.functions.length :: s'.trace⟩ = _
    rw [h.incrCC, lift, hs.memory, hincr]
  refine ⟨_, bind_of_ok hcall _, rfl, ?_⟩
  rw [List.filter_cons_of_neg (by simp)]
  exact hs.trace

theorem execCall_of_direct {callee : Value} {g : FunctionId}
    (hg : callee.stripPointerCasts = .function g) (env : Env π) (args : List Value) :
    execCall P call env callee args = require (evalAll P env args) >>= fun vs =>
      record (.direct g) >>= fun _ => call g vs := by
  unfold execCall noteDirect
  rw [← eval_stripPointerCasts env callee, hg]
  rfl

/-- A call that is not counted. -/
theorem execCall_simulates (h : Linked P M call call') {callee : Value}
    (hnote : Simulates (σ := σ) Eq M (noteDirect callee) (noteDirect callee)) (env : Env π)
    (args : List Value) :
    Simulates Eq M (execCall P call env callee args)
      (execCall (P.withRuntime M.functions.length) call' env callee args) := by
  unfold execCall
  rw [eval_withRuntime, evalAll_withRuntime]
  apply refines_bind (simulates_require _)
  rintro f _ rfl
  apply refines_bind (simulates_require _)
  rintro vs _ rfl
  apply refines_bind hnote
  intro _ _ _
  exact h.simulates f vs

/-- A direct call that has been counted before. -/
theorem execCall_counted (h : Linked P M call call') {callee : Value} {g : FunctionId}
    (hg : callee.stripPointerCasts = .function g) (hlt : g < M.functions.length) (env : Env π)
    (args : List Value) {s : State σ} {s' : State (σ × List FunctionInfo)}
    (hs : StateWith M (.direct g :: s.trace) s s') :
    Allows (· = Halt.undefined) Eq (Counted M) (execCall P call env callee args s)
      (execCall (P.withRuntime M.functions.length) call' env callee args s') := by
  rw [execCall_of_direct hg, execCall_of_direct hg, evalAll_withRuntime]
  cases evalAll P env args with
  | none => exact .undefined rfl
  | some vs =>
    refine h.known g vs hlt ⟨s.memory, .direct g :: s.trace⟩ ⟨s'.memory, .direct g :: s'.trace⟩
      ⟨hs.memory, ?_⟩
    rw [List.filter_cons_of_pos (by simpa using Nat.ne_of_lt hlt)]
    exact congrArg (.direct g :: ·) hs.trace

theorem execCall_unknown (h : Linked P M call call') {callee : Value} {g : FunctionId}
    (hg : callee.stripPointerCasts = .function g) (hle : M.functions.length ≤ g) (env : Env π)
    (args : List Value) (s : State σ) :
    ∃ t, execCall P call env callee args s = .error .undefined t := by
  rw [execCall_of_direct hg]
  cases evalAll P env args with
  | none => exact ⟨s, rfl⟩
  | some vs => exact ⟨_, h.unknown g vs _ hle⟩

theorem isInternal_lt {g : FunctionId} (hg : isInternal M g = true) : g < M.functions.length := by
  refine Nat.lt_of_not_le fun hle => ?_
  unfold isInternal at hg
  rw [List.getElem?_eq_none hle] at hg
  cases hg

/-- What is inserted before a call brings the table to where the call takes the trace. -/
theorem install_call (h : Linked P M call call') (hsize : M.functions.length < 2 ^ 64)
    (env : Env π) (callee : Value) (args : List Value) {s : State σ}
    {s' : State (σ × List FunctionInfo)} (hs : Counted M s s') :
    ∃ s'', execBody (P.withRuntime M.functions.length) call'
        (installCCInstruction M M.functions.length (some callee)) env s' = .ok env s'' ∧
      Allows (· = Halt.undefined) Eq (Counted M) (execCall P call env callee args s)
        (execCall (P.withRuntime M.functions.length) call' env callee args s'') := by
  unfold installCCInstruction directCallee
  rw [Option.bind_some]
  cases hstrip : callee.stripPointerCasts with
  | function g =>
    simp only [Value.asFunction]
    cases hg : isInternal M g with
    | true =>
      -- the function counts itself when it is entered
      refine ⟨s', rfl, execCall_simulates h ?_ env args s s' hs⟩
      unfold noteDirect
      rw [hstrip]
      refine simulates_record ?_ ?_
      · intro f _ hf
        unfold countedEvent at hf
        split at hf <;> simp_all
      · intro heq
        exact absurd (isInternal_lt hg) (by simp_all)
    | false =>
      unfold computeFunctionIDs
      by_cases hlt : g < M.functions.length
      · rw [if_pos hlt]
        obtain ⟨s'', hrun, hs''⟩ := exec_createCall h hsize hlt env hs
        refine ⟨s'', bind_of_ok hrun _, execCall_counted h hstrip hlt env args ?_⟩
        simpa [countedEvent, hg] using hs''
      · rw [if_neg hlt]
        obtain ⟨t, ht⟩ := execCall_unknown h hstrip (Nat.le_of_not_lt hlt) env args s
        refine ⟨s', rfl, ?_⟩
        rw [ht]
        exact .undefined rfl
  | _ =>
    refine ⟨s', rfl, execCall_simulates h ?_ env args s s' hs⟩
    unfold noteDirect
    rw [hstrip]
    exact refines_pure rfl

/-! ## Instructions and blocks -/

theorem rhs_exec_simulates (h : Linked P M call call') (hsize : M.functions.length < 2 ^ 64)
    (env : Env π) (ty : Ty) (rhs : Rhs) {s : State σ} {s' : State (σ × List FunctionInfo)}
    (hs : Counted M s s') :
    ∃ s'', execBody (P.withRuntime M.functions.length) call'
        (installCCInstruction M M.functions.length rhs.calledValue) env s' = .ok env s'' ∧
      Allows (· = Halt.undefined) Eq (Counted M) (rhs.exec P call env ty s)
        (rhs.exec (P.withRuntime M.functions.length) call' env ty s'') := by
  cases rhs with
  | call callee args => exact install_call h hsize env callee args hs
  | binary op flags a b =>
    refine ⟨s', rfl, ?_⟩
    have hbinary : ∀ x y, evalBinary (P.withRuntime M.functions.length) op flags ty x y =
        evalBinary P op flags ty x y := by
      intro x y
      cases ty <;> rfl
    simp only [Rhs.exec, eval_withRuntime, hbinary]
    refine Allows.bind (simulates_require _ s s' hs) ?_
    rintro x _ rfl
    apply refines_bind (simulates_require _)
    rintro y _ rfl
    exact refines_pure rfl
  | isNull ty a =>
    refine ⟨s', rfl, ?_⟩
    have hisNull : ∀ x, evalIsNull (P.withRuntime M.functions.length) ty x = evalIsNull P ty x := by
      intro x
      cases ty <;> cases x <;> rfl
    simp only [Rhs.exec, eval_withRuntime, hisNull]
    refine Allows.bind (simulates_require _ s s' hs) ?_
    rintro x _ rfl
    apply refines_bind (simulates_require _)
    rintro r _ rfl
    exact refines_pure rfl
  | other k operands =>
    refine ⟨s', rfl, ?_⟩
    simp only [Rhs.exec, evalAll_withRuntime]
    refine Allows.bind (simulates_require _ s s' hs) ?_
    rintro vs _ rfl
    exact simulates_lift _

theorem execBody_simulates (h : Linked P M call call') (hsize : M.functions.length < 2 ^ 64)
    (is : List Instruction) (env : Env π) :
    Simulates Eq M (execBody P call is env)
      (execBody (P.withRuntime M.functions.length) call' (is.flatMap fun i =>
        installCCInstruction M M.functions.length i.rhs.calledValue ++ [i]) env) := by
  induction is generalizing env with
  | nil => exact refines_pure rfl
  | cons i is ih =>
    intro s s' hs
    obtain ⟨s'', hinstall, hrhs⟩ := rhs_exec_simulates h hsize env i.ty i.rhs hs
    have hi : Allows (· = Halt.undefined) Eq (Counted M) (i.exec P call env s)
        (i.exec (P.withRuntime M.functions.length) call' env s'') := by
      refine hrhs.bind ?_
      rintro r _ rfl
      exact simulates_require _
    rw [List.flatMap_cons, List.append_assoc, execBody_append, bind_of_ok hinstall]
    refine hi.bind ?_
    rintro env₁ _ rfl
    exact ih env₁

theorem terminator_exec_simulates (h : Linked P M call call')
    (hsize : M.functions.length < 2 ^ 64) (b : BlockId) (env : Env π) (t : Terminator)
    {s : State σ} {s' : State (σ × List FunctionInfo)} (hs : Counted M s s') :
    ∃ s'', execBody (P.withRuntime M.functions.length) call'
        (installCCInstruction M M.functions.length t.calledValue) env s' = .ok env s'' ∧
      Allows (· = Halt.undefined) Eq (Counted M) (t.exec P call b env s)
        (t.exec (P.withRuntime M.functions.length) call' b env s'') := by
  cases t with
  | invoke id ty callee args normal unwind =>
    obtain ⟨s'', hinstall, hcall⟩ := install_call h hsize env callee args hs
    refine ⟨s'', hinstall, (allows_catchUnwind hcall).bind ?_⟩
    intro r r' hr
    cases hr with
    | none => exact refines_pure rfl
    | @some r _ hr =>
      subst hr
      apply refines_bind (simulates_require _)
      rintro env₁ _ rfl
      exact refines_pure rfl
  | ret v =>
    refine ⟨s', rfl, ?_⟩
    cases v with
    | none => exact .ok rfl hs
    | some v =>
      simp only [Terminator.exec, eval_withRuntime]
      refine Allows.bind (simulates_require _ s s' hs) ?_
      rintro x _ rfl
      exact refines_pure rfl
  | br dest => exact ⟨s', rfl, .ok rfl hs⟩
  | condBr cond ifTrue ifFalse =>
    refine ⟨s', rfl, ?_⟩
    simp only [Terminator.exec, eval_withRuntime]
    refine Allows.bind (simulates_require _ s s' hs) ?_
    rintro c _ rfl
    exact refines_pure rfl
  | unreachable => exact ⟨s', rfl, .undefined rfl⟩
  | other k operands successors =>
    refine ⟨s', rfl, ?_⟩
    simp only [Terminator.exec, evalAll_withRuntime]
    refine Allows.bind (simulates_require _ s s' hs) ?_
    rintro vs _ rfl
    apply refines_bind (simulates_lift _)
    rintro n _ rfl
    apply refines_bind (simulates_require _)
    rintro dest _ rfl
    exact refines_pure rfl

theorem readPhis_withRuntime (n : FunctionId) (prev : Option BlockId) (env : Env π)
    (phis : List PHINode) :
    readPhis (P.withRuntime n) prev env phis = readPhis P prev env phis := by
  induction phis with
  | nil => rfl
  | cons p ps ih => simp only [readPhis, ih, eval_withRuntime]

/-- What a block does after its phi nodes. -/
theorem instrumentBlock_simulates (h : Linked P M call call')
    (hsize : M.functions.length < 2 ^ 64) (B : BasicBlock) (env : Env π) :
    Simulates Eq M
      (execBody P call B.body env >>= fun env => B.terminator.exec P call B.id env)
      (execBody (P.withRuntime M.functions.length) call'
          (instrumentBlock M M.functions.length B).body env >>= fun env =>
        B.terminator.exec (P.withRuntime M.functions.length) call' B.id env) := by
  simp only [instrumentBlock, execBody_append, bind_assoc]
  apply refines_bind (execBody_simulates h hsize B.body env)
  rintro env₁ _ rfl
  intro s s' hs
  obtain ⟨s'', hinstall, hterm⟩ := terminator_exec_simulates h hsize B.id env₁ B.terminator hs
  rw [bind_of_ok hinstall]
  exact hterm

theorem block_exec_simulates (h : Linked P M call call') (hsize : M.functions.length < 2 ^ 64)
    (prev : Option BlockId) (env : Env π) (B : BasicBlock) :
    Simulates Eq M (B.exec P call prev env)
      ((instrumentBlock M M.functions.length B).exec (P.withRuntime M.functions.length) call'
        prev env) := by
  unfold BasicBlock.exec
  rw [readPhis_withRuntime]
  apply refines_bind (simulates_require _)
  rintro xs _ rfl
  exact instrumentBlock_simulates h hsize B _

/-- The first block of a function with the call that counts the function. -/
def entryBlock (M : Module) (f : FunctionId) (B : BasicBlock) : BasicBlock :=
  { B with body := createCall M.functions.length f ::
      (instrumentBlock M M.functions.length B).body }

/-- The entry block makes up for the entry of the function. -/
theorem entryBlock_simulates (h : Linked P M call call') (hsize : M.functions.length < 2 ^ 64)
    {f : FunctionId} (hf : f < M.functions.length) (prev : Option BlockId) (env : Env π)
    (B : BasicBlock) {counted : List Event} {s : State σ} {s' : State (σ × List FunctionInfo)}
    (hs : StateWith M counted s s') (htrace : s.trace = countedEvent M f :: counted) :
    Allows (· = Halt.undefined) Eq (Counted M) (B.exec P call prev env s)
      ((entryBlock M f B).exec (P.withRuntime M.functions.length) call' prev env s') := by
  cases hphis : readPhis P prev env B.phis with
  | none =>
    unfold BasicBlock.exec
    rw [hphis]
    exact .undefined rfl
  | some xs =>
    have hphis' : readPhis (P.withRuntime M.functions.length) prev env (entryBlock M f B).phis =
        some xs := by
      rw [readPhis_withRuntime]
      exact hphis
    have hentry : execBody (P.withRuntime M.functions.length) call' (entryBlock M f B).body
        (env.setAll xs) = (createCall M.functions.length f).exec (P.withRuntime M.functions.length)
          call' (env.setAll xs) >>= fun env => execBody (P.withRuntime M.functions.length) call'
            (instrumentBlock M M.functions.length B).body env := rfl
    obtain ⟨s'', hcall, hs''⟩ := exec_createCall h hsize hf (env.setAll xs) hs
    rw [← htrace] at hs''
    rw [exec_of_readPhis hphis, exec_of_readPhis hphis', hentry, bind_assoc, bind_of_ok hcall]
    exact instrumentBlock_simulates h hsize B (env.setAll xs) s s'' hs''

/-! ## Functions -/

/-- What LLVM's verifier requires of the entry block: no block jumps to it and it handles no
exception. -/
structure VerifiedEntry (F : Function) : Prop where
  noPredecessor : ∀ B, F.blocks.head? = some B → ∀ b, ¬F.edge b B.id
  notLandingPad : ∀ B, F.blocks.head? = some B → B.isLandingPad = false

variable {F : Function} {f : FunctionId} {B : BasicBlock} {Bs : List BasicBlock}

theorem instrument_blocks (hblocks : F.blocks = B :: Bs) (hpad : B.isLandingPad = false) :
    (instrument M M.functions.length f F).blocks =
      entryBlock M f B :: Bs.map (instrumentBlock M M.functions.length) := by
  have hdecl : F.isDeclaration = false := by simp [Function.isDeclaration, hblocks]
  have hcall : installCCInstruction M M.functions.length
      (createCall M.functions.length f).rhs.calledValue = [] := by
    simp [installCCInstruction, directCallee, createCall, Rhs.calledValue, Value.stripPointerCasts,
      Value.asFunction, computeFunctionIDs]
  simp only [instrument, hdecl, Bool.false_eq_true, if_false, installIncrCC, hblocks,
    firstInsertionPt, hpad, List.take_zero, List.drop_zero, List.nil_append, List.map_cons]
  simp [instrumentBlock, entryBlock, hcall, hpad]

theorem instrument_params : (instrument M M.functions.length f F).params = F.params := by
  unfold instrument installIncrCC
  split
  · rfl
  · split <;> rfl

theorem block_entry (hblocks : F.blocks = B :: Bs) (hpad : B.isLandingPad = false) :
    (instrument M M.functions.length f F).block B.id = some (entryBlock M f B) := by
  unfold Function.block
  rw [instrument_blocks hblocks hpad]
  simp [entryBlock]

theorem block_instrument (hblocks : F.blocks = B :: Bs) (hpad : B.isLandingPad = false)
    {b : BlockId} (hb : b ≠ B.id) :
    (instrument M M.functions.length f F).block b =
      (F.block b).map (instrumentBlock M M.functions.length) := by
  unfold Function.block
  rw [instrument_blocks hblocks hpad, hblocks,
    List.find?_cons_of_neg (by simpa [entryBlock] using hb.symm),
    List.find?_cons_of_neg (by simpa using hb.symm), List.find?_map]
  rfl

/-- A step, and the runs from where it may lead. -/
theorem run_allows {F' : Function} {k : Nat} {c : Config π} {s : State σ}
    {s' : State (σ × List FunctionInfo)}
    (hstep : Allows (· = Halt.undefined) Eq (Counted M) (F.step P call c s)
      (F'.step (P.withRuntime M.functions.length) call' c s'))
    (hrest : ∀ k' c', k = k' + 1 → F.edge c.block c'.block → Simulates Eq M (F.run P call k' c')
      (F'.run (P.withRuntime M.functions.length) call' k' c')) :
    Allows (· = Halt.undefined) Eq (Counted M) (F.run P call k c s)
      (F'.run (P.withRuntime M.functions.length) call' k c s') := by
  cases k with
  | zero =>
    refine hstep.bind ?_
    rintro next _ rfl
    cases next with
    | goto c' => exact refines_throw _
    | ret v => exact refines_pure rfl
  | succ k =>
    rw [Function.run, Function.run, bind_apply, bind_apply]
    generalize hr : F.step P call c s = r at hstep ⊢
    generalize F'.step (P.withRuntime M.functions.length) call' c s' = r' at hstep ⊢
    cases hstep with
    | undefined he => exact .undefined he
    | error hs => exact .error hs
    | @ok next _ t t' hnext hs =>
      subst hnext
      cases next with
      | ret v => exact .ok rfl hs
      | goto c' =>
        obtain ⟨A, hA, hjump, -⟩ := Function.step_goto hr
        exact hrest k c' rfl ⟨A, hA, hjump.block⟩ t t' hs

/-- The run of a function after its entry block. -/
theorem run_simulates (h : Linked P M call call') (hsize : M.functions.length < 2 ^ 64)
    (hentry : VerifiedEntry F) (hblocks : F.blocks = B :: Bs) (k : Nat) {c : Config π}
    (hc : c.block ≠ B.id) :
    Simulates Eq M (F.run P call k c)
      ((instrument M M.functions.length f F).run (P.withRuntime M.functions.length) call' k c) := by
  have hhead : F.blocks.head? = some B := by rw [hblocks]; rfl
  induction k using Nat.strongRecOn generalizing c with
  | _ k ih =>
    intro s s' hs
    refine run_allows ?_ fun k' c' hk hedge => ih k' (hk ▸ Nat.lt_succ_self k') fun hc' =>
      hentry.noPredecessor B hhead c.block (hc' ▸ hedge)
    cases hC : F.block c.block with
    | none =>
      unfold Function.step
      rw [hC]
      exact .undefined rfl
    | some C =>
      have hC' : (instrument M M.functions.length f F).block c.block =
          some (instrumentBlock M M.functions.length C) := by
        rw [block_instrument hblocks (hentry.notLandingPad B hhead) hc, hC]
        rfl
      rw [step_of_block hC, step_of_block hC']
      exact block_exec_simulates h hsize c.prev c.env C s s' hs

/-- The body of a function, run on a state that has recorded its entry. -/
theorem body_simulates (h : Linked P M call call') (hsize : M.functions.length < 2 ^ 64)
    (hF : M.functions[f]? = some F) (hdecl : F.isDeclaration = false) (hentry : VerifiedEntry F)
    (k : Nat) (vs : List (Val π)) :
    Simulates Eq M
      (require (F.start vs) >>= fun c => record (.entered f) >>= fun _ => F.run P call k c)
      (require ((instrument M M.functions.length f F).start vs) >>= fun c =>
        record (.entered f) >>= fun _ => (instrument M M.functions.length f F).run
          (P.withRuntime M.functions.length) call' k c) := by
  cases hblocks : F.blocks with
  | nil => simp [Function.isDeclaration, hblocks] at hdecl
  | cons B Bs =>
    have hhead : F.blocks.head? = some B := by rw [hblocks]; rfl
    have hpad := hentry.notLandingPad B hhead
    have hstart : (instrument M M.functions.length f F).start vs = F.start vs :=
      Function.start_congr instrument_params
        (by rw [instrument_blocks hblocks hpad, hblocks]; rfl) vs
    rw [hstart]
    intro s s' hs
    cases hc : F.start vs with
    | none => exact .undefined rfl
    | some c =>
      obtain ⟨A, hA, hcA, -⟩ := Function.start_eq_some hc
      obtain rfl := Option.some.inj (hhead.symm.trans hA)
      have hB : F.block c.block = some B := by
        unfold Function.block
        rw [hblocks, hcA]
        simp
      have hB' : (instrument M M.functions.length f F).block c.block = some (entryBlock M f B) :=
        hcA ▸ block_entry hblocks hpad
      have hlt : f < M.functions.length := (List.getElem?_eq_some_iff.mp hF).1
      have hinternal : isInternal M f = true := by simp [isInternal, hF, hdecl]
      have hevent : countedEvent M f = .entered f := by simp [countedEvent, hinternal]
      have hentered : StateWith M s.trace ⟨s.memory, .entered f :: s.trace⟩
          ⟨s'.memory, .entered f :: s'.trace⟩ := by
        refine ⟨hs.memory, ?_⟩
        rw [List.filter_cons_of_pos (by simp)]
        exact congrArg (.entered f :: ·) hs.trace
      have hstep := entryBlock_simulates h hsize hlt c.prev c.env B hentered (by rw [hevent])
      rw [← step_of_block hB, ← step_of_block hB'] at hstep
      exact run_allows hstep fun k' c' _ hedge => run_simulates h hsize hentry hblocks k' fun hc' =>
        hentry.noPredecessor B hhead c.block (hc' ▸ hedge)

/-! ## Modules -/

theorem getOrInsertFunction_of_fresh {name : String} (hfresh : ∀ F ∈ M.functions, F.name ≠ name)
    (params : List (ValueId × Ty)) :
    getOrInsertFunction M name params =
      (M.functions.length, ⟨M.functions ++ [⟨name, params, []⟩]⟩) := by
  have hnone : M.functions.findIdx? (fun F => F.name == name) = none := by
    rw [List.findIdx?_eq_none_iff]
    intro F hF
    simpa using hfresh F hF
  simp only [getOrInsertFunction, hnone]

theorem getOrInsertFunction_functions (M : Module) (name : String) (params : List (ValueId × Ty)) :
    ∃ rest, (getOrInsertFunction M name params).2.functions = M.functions ++ rest := by
  unfold getOrInsertFunction
  split
  · exact ⟨[], (List.append_nil _).symm⟩
  · exact ⟨_, rfl⟩

def incrCCDeclaration : Function := ⟨"lt_RUNTIME_incrCC", [(0, .integer 64)], []⟩

/-- The routine that counts is declared behind the functions of the module. -/
theorem runOnModule_functions (hfresh : ∀ F ∈ M.functions, F.name ≠ "lt_RUNTIME_incrCC") :
    ∃ rest, (runOnModule M).2.module.functions =
      (M.functions ++ incrCCDeclaration :: rest).mapIdx fun f F =>
        if f < M.functions.length then instrument M M.functions.length f F else F := by
  obtain ⟨rest, hrest⟩ := getOrInsertFunction_functions
    ⟨M.functions ++ [incrCCDeclaration]⟩ "lt_RUNTIME_print" []
  refine ⟨rest, ?_⟩
  simp only [runOnModule, getOrInsertFunction_of_fresh hfresh]
  rw [incrCCDeclaration] at hrest ⊢
  rw [hrest, List.append_assoc]
  rfl

theorem getElem?_runOnModule (hfresh : ∀ F ∈ M.functions, F.name ≠ "lt_RUNTIME_incrCC")
    {f : FunctionId} (hf : f < M.functions.length) :
    (runOnModule M).2.module.functions[f]? =
      M.functions[f]?.map (instrument M M.functions.length f) := by
  obtain ⟨rest, hrest⟩ := runOnModule_functions hfresh
  rw [hrest, List.getElem?_mapIdx, List.getElem?_append_left hf]
  simp [hf]

theorem getElem?_runOnModule_length (hfresh : ∀ F ∈ M.functions, F.name ≠ "lt_RUNTIME_incrCC") :
    (runOnModule M).2.module.functions[M.functions.length]? =
      some incrCCDeclaration := by
  obtain ⟨rest, hrest⟩ := runOnModule_functions hfresh
  rw [hrest, List.getElem?_mapIdx, List.getElem?_append_right (Nat.le_refl _)]
  simp

/-- `enter` in the two modules, given what running a body does. -/
theorem enter_linked (hfresh : ∀ F ∈ M.functions, F.name ≠ "lt_RUNTIME_incrCC")
    {body : FunctionId → Function → List (Val π) → Comp σ (Option (Val π))}
    {body' : FunctionId → Function → List (Val π) →
      Comp (σ × List FunctionInfo) (Option (Val π))}
    (hbody : ∀ f F vs, M.functions[f]? = some F → F.isDeclaration = false →
      Simulates Eq M (body f F vs) (body' f (instrument M M.functions.length f F) vs)) :
    Linked P M (M.enter P body)
      ((runOnModule M).2.module.enter (P.withRuntime M.functions.length) body') where
  unknown f vs s hf := by
    unfold Module.enter
    rw [List.getElem?_eq_none hf]
    rfl
  incrCC vs := by
    unfold Module.enter
    rw [getElem?_runOnModule_length hfresh]
    rfl
  known f vs hf := by
    unfold Module.enter
    rw [getElem?_runOnModule hfresh hf]
    cases hF : M.functions[f]? with
    | none => exact refines_of_undefined (U := (· = Halt.undefined)) rfl _
    | some F =>
      cases hdecl : F.isDeclaration with
      | true =>
        have hexternal : (P.withRuntime M.functions.length).external f vs =
            onFst (P.external f vs) := by
          simp only [Platform.withRuntime, if_neg (Nat.ne_of_lt hf)]
        simp only [Option.map_some, instrument, hdecl, if_true, hexternal]
        exact simulates_lift _
      | false =>
        have hdecl' : (instrument M M.functions.length f F).isDeclaration = false := by
          cases hblocks : F.blocks with
          | nil => simp [Function.isDeclaration, hblocks] at hdecl
          | cons B Bs =>
            simp [instrument, installIncrCC, hblocks, Function.isDeclaration]
        simp only [Option.map_some, hdecl, hdecl', Bool.false_eq_true, if_false]
        exact hbody f F vs hF hdecl

/-- Calls in the instrumented module, nested to any depth. -/
theorem callFunction_linked (hfresh : ∀ F ∈ M.functions, F.name ≠ "lt_RUNTIME_incrCC")
    (hsize : M.functions.length < 2 ^ 64)
    (hentry : ∀ F ∈ M.functions, F.isDeclaration = false → VerifiedEntry F) (n : Nat) :
    Linked P M (M.callFunction P n)
      ((runOnModule M).2.module.callFunction (P.withRuntime M.functions.length) n) := by
  induction n with
  | zero => exact enter_linked hfresh fun _ _ _ _ _ => refines_throw _
  | succ n ih =>
    exact enter_linked hfresh fun f F vs hF hdecl =>
      body_simulates ih hsize hF hdecl (hentry F (List.mem_of_getElem? hF) hdecl) n vs

/-! ## The report -/

/-- What is to be printed after a run: the events by which each function is counted. -/
def report (M : Module) (trace : List Event) : List String :=
  heading "LLVM-TUTOR: dynamic analysis results" ++
    (M.functions.mapIdx fun f F =>
      formatLine F.name (trace.count (countedEvent M f) % 2 ^ 64)) ++ [rule]

theorem printLoop_eq {table : List FunctionInfo} (id n : Nat) (h : id + n ≤ table.length) :
    DynamicCallCounterRT.printLoop table id n =
      some (((table.drop id).take n).map fun info => formatLine info.name info.count.toNat) := by
  induction n generalizing id with
  | zero => simp [DynamicCallCounterRT.printLoop]
  | succ n ih =>
    have hid : id < table.length := Nat.lt_of_lt_of_le (Nat.lt_add_of_pos_right (Nat.succ_pos n)) h
    rw [DynamicCallCounterRT.printLoop, List.getElem?_eq_getElem hid,
      ih (id + 1) (by rw [Nat.add_right_comm]; exact h), List.drop_eq_getElem_cons hid,
      List.take_succ_cons, List.map_cons]
    rfl

theorem print_tally (hsize : M.functions.length < 2 ^ 64) (trace : List Event) :
    DynamicCallCounterRT.lt_RUNTIME_print (runOnModule M).2.numFunctions (tally M trace) =
      some (report M trace) := by
  have hlen : (tally M trace).length = M.functions.length := by simp [tally]
  have hnum : (runOnModule M).2.numFunctions.toNat = M.functions.length := by
    simp only [runOnModule, BitVec.toNat_ofNat, Nat.mod_eq_of_lt hsize]
  unfold DynamicCallCounterRT.lt_RUNTIME_print
  rw [hnum, printLoop_eq 0 _ (Nat.le_of_eq (by rw [hlen, Nat.zero_add])), ← hlen, List.drop_zero, List.take_length]
  have hlines : (tally M trace).map (fun info => formatLine info.name info.count.toNat) =
      M.functions.mapIdx fun f F =>
        formatLine F.name (trace.count (countedEvent M f) % 2 ^ 64) := by
    apply List.ext_getElem?
    intro f
    rw [List.getElem?_map, getElem?_tally, List.getElem?_mapIdx, Option.map_map]
    simp [Function.comp_def, BitVec.toNat_ofNat]
  rw [hlines]
  rfl

def callsModule : Module where
  functions :=
    [⟨"main", [], [⟨0, [], [⟨0, .void, .call (.function 1) []⟩], .br 1, false⟩,
        ⟨1, [], [⟨1, .void, .call (.function 2) []⟩], .ret none, false⟩]⟩,
      ⟨"f", [], [⟨0, [], [⟨0, .void, .call (.bitCast (.function 2)) []⟩], .ret none, false⟩]⟩,
      ⟨"printf", [], []⟩, ⟨"puts", [], []⟩]

def quietPlatform : Platform Empty Unit := { Platform.bare with external := fun _ _ => pure none }

theorem verifiedEntry_callsModule {F : Function} (hF : F ∈ callsModule.functions) :
    VerifiedEntry F := by
  have hblocks : ∀ B, F.blocks.head? = some B → B.id = 0 ∧ B.isLandingPad = false := by
    intro B hB
    simp only [callsModule, List.mem_cons, List.not_mem_nil, or_false] at hF
    rcases hF with rfl | rfl | rfl | rfl <;> cases hB <;> exact ⟨rfl, rfl⟩
  refine ⟨?_, fun B hB => (hblocks B hB).2⟩
  rintro B hB b ⟨A, hA, hedge⟩
  rw [(hblocks B hB).1] at hedge
  have hmem := Function.block_mem hA
  simp only [callsModule, List.mem_cons, List.not_mem_nil, or_false] at hF
  rcases hF with rfl | rfl | rfl | rfl <;>
    simp only [List.mem_cons, List.not_mem_nil, or_false] at hmem
  · rcases hmem with rfl | rfl <;> simp [Terminator.successors] at hedge
  · subst hmem
    simp [Terminator.successors] at hedge

end DynamicCallCounter

end Carmor.Passes
