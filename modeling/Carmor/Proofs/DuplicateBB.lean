import Carmor.Passes.Splitting
import Carmor.Proofs.Riv
import Mathlib.Data.List.Pairwise

/-!
# The pass DuplicateBB

One duplication is simulated block by block: the run of the new function passes through the head,
one of the two branches and the tail where the old run passes through the block. The pass is a
sequence of duplications, and the context values that `RIV` has found stay available in all of
them.
-/

namespace Carmor.Passes

open Lib

variable {π σ : Type} {P : Platform π σ} {call : Caller π σ} {F : Function}

namespace DuplicateBB

variable {b : BlockId} {context : ValueId × Ty} {B : BasicBlock}

/-! ## The new blocks -/

/-- A value of the type `ty`; poison is one of every type. -/
def HasTy (ty : Ty) : Val π → Prop
  | .int n _ => ty = .integer n
  | .function _ => ty = .pointer
  | .other _ => ty.isIntegerTy = false
  | .poison => True

/-- A value of an integer or pointer type, which is not poison. -/
structure Comparable (ty : Ty) (v : Val π) : Prop where
  isIntOrPtrTy : ty.isIntOrPtrTy = true
  hasTy : HasTy ty v
  ne_poison : v ≠ .poison

/-- The comparison of such a value with null has a result. -/
theorem Comparable.evalIsNull {ty : Ty} {v : Val π} (h : Comparable ty v) :
    ∃ k : BitVec 1, evalIsNull P ty v = some (.int 1 k) := by
  obtain ⟨hcomparable, hty, hpoison⟩ := h
  cases v with
  | int n a =>
    obtain rfl := hty
    refine ⟨BitVec.ofBool (a == 0), ?_⟩
    simp [Passes.evalIsNull, Val.asInt]
  | function f =>
    obtain rfl := hty
    exact ⟨0, rfl⟩
  | other p =>
    cases ty with
    | pointer => exact ⟨_, rfl⟩
    | integer bits => cases hty
    | void => cases hcomparable
    | other k => cases hcomparable
  | poison => exact absurd rfl hpoison

/-- The two branches: the number of the block and the first name in it. -/
inductive Branch (F : Function) : BlockId → ValueId → Prop
  | ifTrue : Branch F F.nextBlock (F.nextName + 1)
  | ifFalse : Branch F (F.nextBlock + 1) (F.nextName + 2)

section Branch

variable {dest : BlockId} {next : ValueId}

theorem Branch.block (h : Branch F dest next) (hB : F.block b = some B) :
    (duplicate F b context).block dest = some (branchBlock F B dest next) := by
  cases h with
  | ifTrue => exact block_then hB
  | ifFalse => exact block_else hB

theorem Branch.nextBlock_le (h : Branch F dest next) : F.nextBlock ≤ dest := by
  cases h with
  | ifTrue => exact Nat.le_refl _
  | ifFalse => exact Nat.le_succ _

theorem Branch.nextName_lt (h : Branch F dest next) : F.nextName < next := by
  cases h with
  | ifTrue => exact Nat.lt_succ_self _
  | ifFalse => exact Nat.lt_add_of_pos_right (Nat.zero_lt_succ 1)

/-- The phi nodes of the tail read the names of the branch. -/
theorem Branch.value (h : Branch F dest next) (is : List Instruction) (i : Instruction) :
    (join F.nextBlock (F.nextBlock + 1) (branchMap (F.nextName + 1) id is)
      (branchMap (F.nextName + 2) id is) i).value dest = some (.reg (branchMap next id is i.id)) := by
  cases h with
  | ifTrue => simp [join, PHINode.value]
  | ifFalse =>
    have hne : (F.nextBlock + 1 == F.nextBlock) = false := by simp
    simp [join, PHINode.value, List.lookup_cons, hne]

end Branch

/-- The head goes to one of the two branches. -/
theorem step_head (call : Caller π σ) (hB : F.block b = some B) {c : Config π} (hc : c.block = b)
    {xs : List (ValueId × Val π)}
    (hphis : readPhis P c.prev c.env (headBlock F b context B).phis = some xs) {v : Val π}
    (hv : c.env.setAll xs context.1 = some v) (htyped : Comparable context.2 v) :
    ∃ dest next w, Branch F dest next ∧
      (duplicate F b context).step P call c =
        pure (.goto ⟨some b, dest, (c.env.setAll xs).set F.nextName w⟩) := by
  obtain ⟨k, hk⟩ := htyped.evalIsNull (P := P)
  have hid : (headBlock F b context B).id = b := by simp [headBlock, Function.block_id hB]
  subst hc
  have hstep : (duplicate F c.block context).step P call c =
      pure (.goto ⟨some c.block, if k = 1 then F.nextBlock else F.nextBlock + 1,
        (c.env.setAll xs).set F.nextName (.int 1 k)⟩) := by
    rw [step_of_block (block_head hB), exec_of_readPhis hphis, hid]
    simp [headBlock, execBody, Instruction.exec, Rhs.exec, Value.eval, hv, hk, bindResult,
      Ty.isVoidTy, Terminator.exec, Val.asInt, jump]
  by_cases hk1 : k = 1
  · rw [if_pos hk1] at hstep
    exact ⟨_, _, _, .ifTrue, hstep⟩
  · rw [if_neg hk1] at hstep
    exact ⟨_, _, _, .ifFalse, hstep⟩

/-- A branch runs its instructions and goes to the tail. -/
theorem step_branch (P : Platform π σ) (call : Caller π σ) {n : BlockId} {next : ValueId}
    (hn : (duplicate F b context).block n = some (branchBlock F B n next)) (prev : Option BlockId)
    (env : Env π) :
    (duplicate F b context).step P call ⟨prev, n, env⟩ =
      execBody P call (branchBody next id B.body) env >>= fun env =>
        pure (.goto ⟨some n, F.nextBlock + 2, env⟩) := by
  have hphis : readPhis P prev env (branchBlock F B n next).phis = some [] := rfl
  rw [step_of_block hn, exec_of_readPhis hphis]
  rfl

/-- The tail does what the terminator did. -/
theorem step_tail (hB : F.block b = some B) {n : BlockId} {env : Env π}
    {ys : List (ValueId × Val π)} (hys : readPhis P (some n) env (tailBlock F B).phis = some ys) :
    (duplicate F b context).step P call ⟨some n, F.nextBlock + 2, env⟩ =
      B.terminator.exec P call (F.nextBlock + 2) (env.setAll ys) := by
  rw [step_of_block (block_tail hB), exec_of_readPhis hys]
  rfl

/-! ## One duplication -/

/-- Where the new run stands when the old one stands at `c`. -/
structure Matches (F : Function) (b : BlockId) (c c' : Config π) : Prop where
  block : c'.block = c.block
  prev : c'.prev = c.prev.map (redirect b (F.nextBlock + 2))
  env : c.env.Within F.nextName c'.env
  edge : ∀ a ∈ c.prev, F.edge a c.block

/-- `Matches` for the states that the old run reaches from `p₀`. -/
structure Matched (F : Function) (P : Platform π σ) (call : Caller π σ) (b : BlockId)
    (p₀ p p' : Config π × State σ) : Prop where
  state : p'.2 = p.2
  config : Matches F b p.1 p'.1
  reached : ∃ n, StepsIn (F.progress P call) n p₀ p

/-- The context value can be compared with null whenever the run from `p₀` comes to the block. -/
def Available (F : Function) (P : Platform π σ) (call : Caller π σ) (p₀ : Config π × State σ)
    (b : BlockId) (context : ValueId × Ty) : Prop :=
  ∀ n p, StepsIn (F.progress P call) n p₀ p → p.1.block = b →
    ∃ v, p.1.env context.1 = some v ∧ Comparable context.2 v

/-- What single assignment says of a block and a context value for it. -/
structure Splittable (B : BasicBlock) (context : ValueId × Ty) : Prop where
  nodup : (B.body.map Instruction.id).Nodup
  notPhi : context.1 ∉ B.phis.map PHINode.id

variable {p₀ p p' : Config π × State σ}

theorem Matched.goto (h : Matched F P call b p₀ p p') {dest d' : BlockId} {env env' : Env π}
    {s : State σ}
    (hstep : F.step P call p.1 p.2 = .ok (.goto ⟨some p.1.block, dest, env⟩) s)
    (hd' : d' = redirect b (F.nextBlock + 2) p.1.block) (henv : env.Within F.nextName env') :
    Matched F P call b p₀ (⟨some p.1.block, dest, env⟩, s) (⟨some d', dest, env'⟩, s) := by
  obtain ⟨n, hn⟩ := h.reached
  obtain ⟨A, hA, hjump, -⟩ := Function.step_goto hstep
  refine ⟨rfl, ⟨rfl, by rw [hd', Option.map_some], henv, ?_⟩, n + 1, ?_⟩
  · rintro a ⟨⟩
    exact ⟨A, hA, hjump.block⟩
  · exact hn.snoc (Function.progress_eq_next.mpr hstep)

/-- The phi nodes give the names of a block the same values in both runs. -/
theorem Matched.phis_same (h : Matched F P call b p₀ p p') (hB : F.block b = some B)
    {C : BasicBlock} (hC : F.block p.1.block = some C) {xs : List (ValueId × Val π)}
    (hxs : readPhis P p.1.prev p.1.env C.phis = some xs) :
    readPhis P p'.1.prev p'.1.env
      (replacePhiUses B.terminator.successors b (F.nextBlock + 2) C).phis = some xs ∧
      (p.1.env.setAll xs).Within F.nextName (p'.1.env.setAll xs) := by
  have hmem := Function.block_mem hC
  constructor
  · rw [h.config.prev, readPhis_replacePhiUses]
    · exact readPhis_same h.config.env.renamed hxs
    · intro a ha
      have hedge := h.config.edge a ha
      refine ⟨Nat.ne_of_lt (Nat.lt_add_right 2 (Function.edge_lt_nextBlock hedge).1), ?_⟩
      rintro rfl
      obtain ⟨A, hA, hsucc⟩ := hedge
      obtain rfl := Option.some.inj (hA.symm.trans hB)
      rwa [Function.block_id hC]
    · intro q hq hmem'
      exact Nat.not_lt.mpr (Nat.le_add_right _ 2) (Function.incoming_lt_nextBlock hmem hq hmem')
  · refine h.config.env.setAll fun x hx => lt_nextName_of_block hmem ?_
    rw [readPhis_names hxs] at hx
    exact List.mem_append_left _ (List.mem_append_left _ hx)

theorem body_lt_nextName {C : BasicBlock} (hC : C ∈ F.blocks) : ∀ i ∈ C.body, i.id < F.nextName :=
  fun _ hi => lt_nextName_of_block hC
    (List.mem_append_left _ (List.mem_append_right _ (List.mem_map_of_mem hi)))

theorem result_lt_nextName {C : BasicBlock} (hC : C ∈ F.blocks) :
    ∀ x ∈ C.terminator.result, x.1 < F.nextName :=
  fun _ hx => lt_nextName_of_block hC
    (List.mem_append_right _ (List.mem_map_of_mem (Option.mem_toList.mpr hx)))

/-- Related outcomes of one step of each run. -/
theorem Matched.answers_of_allows (h : Matched F P call b p₀ p p') {t : Config π × State σ}
    {d' : BlockId} (hd' : d' = redirect b (F.nextBlock + 2) p.1.block)
    (hallows : Allows (· = Halt.undefined) (NextWithin F.nextName p.1.block d') Eq
      (F.step P call p.1 p.2) ((duplicate F b context).step P call t.1 t.2)) :
    Answers ((duplicate F b context).progress P call) (fun q => q.1.block < F.nextBlock)
      Outcome.Undefined (Matched F P call b p₀) t (F.progress P call p) := by
  rw [show F.progress P call p = progressOf (F.step P call p.1 p.2) from rfl]
  generalize hr : F.step P call p.1 p.2 = r at hallows ⊢
  generalize hr' : (duplicate F b context).step P call t.1 t.2 = r' at hallows
  cases hallows with
  | undefined he =>
    subst he
    exact .undefined (.intro _)
  | error hs =>
    subst hs
    exact .done (.refl t) (by rw [Function.progress, hr']; rfl)
  | ok hnext hs =>
    subst hs
    cases hnext with
    | goto henv => exact .next (.refl t) (by rw [Function.progress, hr']; rfl) (h.goto hr hd' henv)
    | ret v => exact .done (.refl t) (by rw [Function.progress, hr']; rfl)

/-- A block that is not split makes one step in both runs. -/
theorem Matched.step_other (h : Matched F P call b p₀ p p') (hB : F.block b = some B)
    {C : BasicBlock} (hC : F.block p.1.block = some C) (hne : p.1.block ≠ b) :
    Agree (NextWithin F.nextName p.1.block p.1.block) (F.step P call p.1)
      ((duplicate F b context).step P call p'.1) := by
  have hmem := Function.block_mem hC
  have hlt : p.1.block < F.nextBlock := Function.block_id hC ▸ Function.id_lt_nextBlock hmem
  have hC' := block_duplicate_of_ne context hB hlt hne
  rw [hC, Option.map_some, ← h.config.block] at hC'
  rw [step_of_block hC, step_of_block hC', ← Function.block_id hC]
  unfold BasicBlock.exec
  rw [replacePhiUses_body, replacePhiUses_terminator, replacePhiUses_id]
  have hphis : Agree (σ := σ) (fun xs ys => (p.1.env.setAll xs).Within F.nextName (p'.1.env.setAll ys))
      (require (readPhis P p.1.prev p.1.env C.phis))
      (require (readPhis P p'.1.prev p'.1.env
        (replacePhiUses B.terminator.successors b (F.nextBlock + 2) C).phis)) :=
    refines_require fun xs hxs => ⟨xs, h.phis_same hB hC hxs⟩
  apply refines_bind hphis
  intro xs ys henv
  apply refines_bind (execBody_within (body_lt_nextName hmem) henv)
  intro env env' henv
  exact terminator_within (result_lt_nextName hmem) C.id C.id henv

/-- After one of the branches the tail does what the block would do. -/
theorem agree_tail (hB : F.block b = some B) (hnodup : (B.body.map Instruction.id).Nodup)
    {dest : BlockId} {next next' : ValueId} (hbranch : Branch F dest next) {env env' : Env π}
    (hcloned : Cloned F.nextName next' (branchMap next id B.body) env env')
    (hdefined : ∀ i ∈ B.body, i.ty.isVoidTy = false → (env i.id).isSome) :
    Agree (NextWithin F.nextName b (F.nextBlock + 2)) (B.terminator.exec P call b env)
      ((duplicate F b context).step P call ⟨some dest, F.nextBlock + 2, env'⟩) := by
  have hdefining : ∀ i ∈ defining B.body, i ∈ B.body ∧ i.ty.isVoidTy = false := by
    intro i hi
    simpa [defining] using hi
  obtain ⟨ys, hys, hnames, hvalues⟩ :=
    readPhis_join (P := P) (fun i _ => hbranch.value B.body i) hcloned.renamed
      fun i hi => hdefined i (hdefining i hi).1 (hdefining i hi).2
  have hphis : (tailBlock F B).phis = _ := cloneBody_phis hnodup
  rw [step_tail hB (hphis ▸ hys)]
  have hnodup' : ((defining B.body).map Instruction.id).Nodup :=
    hnodup.sublist (List.filter_sublist.map _)
  exact terminator_within (result_lt_nextName (Function.block_mem hB)) b (F.nextBlock + 2)
    (within_of_joined hcloned hnodup' hnames hvalues)

/-- The split block: the head, a branch and the tail do together what the block did. -/
theorem Matched.answers_split (h : Matched F P call b p₀ p p') (hB : F.block b = some B)
    (hsplit : Splittable B context) (havail : Available F P call p₀ b context)
    (hp : p.1.block = b) :
    Answers ((duplicate F b context).progress P call) (fun q => q.1.block < F.nextBlock)
      Outcome.Undefined (Matched F P call b p₀) p' (F.progress P call p) := by
  have hmem := Function.block_mem hB
  have hstep : F.step P call p.1 = B.exec P call p.1.prev p.1.env := step_of_block (hp ▸ hB)
  cases hxs : Passes.readPhis P p.1.prev p.1.env B.phis with
  | none =>
    have hundef : F.progress P call p = .done (.error .undefined p.2) := by
      rw [Function.progress, hstep]
      unfold BasicBlock.exec
      rw [hxs]
      rfl
    rw [hundef]
    exact .undefined (.intro _)
  | some xs =>
    rw [exec_of_readPhis hxs, Function.block_id hB] at hstep
    obtain ⟨hphis, henv⟩ := h.phis_same hB (hp ▸ hB) hxs
    obtain ⟨n, hn⟩ := h.reached
    obtain ⟨v, hv, htyped⟩ := havail n p hn hp
    have hv' : p'.1.env.setAll xs context.1 = some v := by
      refine henv.renamed context.1 v ?_
      rw [Env.setAll_of_notMem (readPhis_names hxs ▸ hsplit.notPhi)]
      exact hv
    obtain ⟨dest, next, w, hbranch, hhead⟩ :=
      step_head call hB (h.config.block.trans hp) hphis hv' htyped
    have hcloned : Cloned F.nextName next id (p.1.env.setAll xs)
        ((p'.1.env.setAll xs).set F.nextName w) := by
      refine ⟨henv.below, ?_, fun x hx => Nat.lt_trans hx hbranch.nextName_lt⟩
      intro x u hx
      have hne : x ≠ F.nextName := by
        rintro rfl
        rw [henv.below _ (Nat.le_refl _)] at hx
        cases hx
      rw [id, Env.set_of_ne _ _ hne]
      exact henv.renamed x u hx
    have hbody := branchBody_cloned P call (body_lt_nextName hmem) hcloned p.2 p.2 rfl
    have hblock : (duplicate F b context).block dest = some (branchBlock F B dest next) :=
      hbranch.block hB
    have hbranchStep := step_branch P call hblock (some b) ((p'.1.env.setAll xs).set F.nextName w)
    -- from the head to the branch
    refine .silent (u := (⟨some b, dest, (p'.1.env.setAll xs).set F.nextName w⟩, p.2)) ?_
      (Nat.not_lt.mpr hbranch.nextBlock_le) ?_
    · rw [Function.progress_eq_next, hhead, h.state]
      rfl
    generalize (p'.1.env.setAll xs).set F.nextName w = env' at hbody hbranchStep ⊢
    generalize hclone : execBody P call (branchBody next id B.body) env' p.2 = r' at hbody
    cases hsource : execBody P call B.body (p.1.env.setAll xs) p.2 with
    | error e s =>
      have hdone : F.progress P call p = .done (.error e s) := by
        rw [Function.progress, hstep, bind_of_error hsource]
        rfl
      rw [hdone]
      rw [hsource] at hbody
      cases hbody with
      | undefined he =>
        subst he
        exact .undefined (.intro _)
      | error hs =>
        subst hs
        refine .done (.refl _) ?_
        rw [Function.progress, hbranchStep, bind_of_error hclone]
        rfl
    | ok env s =>
      rw [hsource] at hbody
      cases hbody with
      | @ok _ env₁ _ _ hjoin hs =>
        obtain ⟨next', hjoin⟩ := hjoin
        subst hs
        -- from the branch to the tail
        refine .silent (u := (⟨some dest, F.nextBlock + 2, env₁⟩, s)) ?_
          (Nat.not_lt.mpr (Nat.le_add_right _ 2)) ?_
        · rw [Function.progress_eq_next, hbranchStep, bind_of_ok hclone]
          rfl
        have hredirect : F.nextBlock + 2 = redirect b (F.nextBlock + 2) p.1.block := by
          rw [hp, redirect_self]
        refine h.answers_of_allows hredirect ?_
        rw [hstep, bind_of_ok hsource, hp]
        exact agree_tail hB hsplit.nodup hbranch hjoin (execBody_extends hsource).2 s s rfl

/-- The new function simulates the old one. -/
theorem simulation (hB : F.block b = some B) (hsplit : Splittable B context)
    (havail : Available F P call p₀ b context) :
    Simulation (F.progress P call) ((duplicate F b context).progress P call)
      (fun q => q.1.block < F.nextBlock) Outcome.Undefined (Matched F P call b p₀) where
  answers {p p'} h := by
    cases hC : F.block p.1.block with
    | none =>
      have hundef : F.progress P call p = .done (.error .undefined p.2) := by
        simp only [Function.progress, Function.step, hC, require_none, bind_apply, throw_apply]
        rfl
      rw [hundef]
      exact .undefined (.intro _)
    | some C =>
      by_cases hp : p.1.block = b
      · exact h.answers_split hB hsplit havail hp
      · exact h.answers_of_allows (redirect_of_ne hp).symm (h.step_other hB hC hp _ _ h.state.symm)

/-- A call has the same place to start from in both functions. -/
theorem matched_start {vs : List (Val π)} {c : Config π} (hc : F.start vs = some c) (s : State σ) :
    Matched F P call b (c, s) (c, s) (c, s) := by
  obtain ⟨hprev, henv⟩ := start_below hc
  refine ⟨rfl, ⟨rfl, by rw [hprev]; rfl, ⟨henv, fun _ _ h => h⟩, ?_⟩, 0, .zero _⟩
  intro a ha
  rw [hprev] at ha
  cases ha

/-! ## The whole pass -/

/-- The run from `p₀` does not come to undefined behaviour. -/
def Defined (F : Function) (P : Platform π σ) (call : Caller π σ) (p₀ : Config π × State σ) : Prop :=
  ∀ r, Ends (F.progress P call) p₀ r → ¬Outcome.Undefined r

/-- The block of a target can be split with its context value. -/
structure Ready (F : Function) (P : Platform π σ) (call : Caller π σ) (p₀ : Config π × State σ)
    (t : BlockId × ValueId × Ty) : Prop where
  splittable : ∃ B, F.block t.1 = some B ∧ Splittable B t.2
  available : Available F P call p₀ t.1 t.2

variable {t t' : BlockId × ValueId × Ty} {vs : List (Val π)} {c : Config π} {s₀ : State σ}

theorem Ready.ends_iff (h : Ready F P call (c, s₀) t) (hc : F.start vs = some c)
    (hdefined : Defined F P call (c, s₀)) (r : Outcome π σ) :
    Ends ((duplicate F t.1 t.2).progress P call) (c, s₀) r ↔ Ends (F.progress P call) (c, s₀) r := by
  obtain ⟨B, hB, hsplit⟩ := h.splittable
  have hsim := simulation hB hsplit h.available
  have hstart : Matched F P call t.1 (c, s₀) (c, s₀) (c, s₀) := matched_start hc s₀
  constructor
  · intro hr
    obtain ⟨r₀, hr₀, hundef | rfl⟩ := hsim.ends_of_target hstart hr
    · exact absurd hundef (hdefined r₀ hr₀)
    · exact hr₀
  · intro hr
    exact (hsim.ends hstart hr).resolve_left (hdefined r hr)

/-- A duplication leaves the other targets ready. -/
theorem Ready.duplicate (h : Ready F P call (c, s₀) t) (h' : Ready F P call (c, s₀) t')
    (hc : F.start vs = some c) (hdefined : Defined F P call (c, s₀)) :
    Ready (duplicate F t.1 t.2) P call (c, s₀) t' := by
  obtain ⟨B, hB, hsplit⟩ := h.splittable
  obtain ⟨C, hC, hsplit'⟩ := h'.splittable
  have hlt := id_lt_nextBlock_of_block hC
  constructor
  · by_cases hne : t'.1 = t.1
    · rw [hne] at hC ⊢
      obtain rfl := Option.some.inj (hB.symm.trans hC)
      refine ⟨_, block_head hB, ⟨by simp [headBlock], ?_⟩⟩
      simp only [headBlock, replacePhiUses_names]
      exact hsplit'.notPhi
    · refine ⟨_, by rw [block_duplicate_of_ne _ hB hlt hne, hC, Option.map_some], ⟨?_, ?_⟩⟩
      · rw [replacePhiUses_body]
        exact hsplit'.nodup
      · rw [replacePhiUses_names]
        exact hsplit'.notPhi
  · intro n p hn hp
    have hsim := simulation hB hsplit h.available
    rcases hsim.reached (matched_start hc s₀) (hp ▸ hlt) hn with
      ⟨m, q, hm, hq⟩ | ⟨r, hundef, hr⟩
    · obtain ⟨v, hv, htyped⟩ := h'.available m q hm (hq.config.block ▸ hp)
      exact ⟨v, hq.config.env.renamed _ v hv, htyped⟩
    · exact absurd hundef (hdefined r hr)

theorem duplicateAll_ends {ts : List (BlockId × ValueId × Ty)}
    (hts : ∀ t ∈ ts, Ready F P call (c, s₀) t) (hc : F.start vs = some c)
    (hdefined : Defined F P call (c, s₀)) :
    (duplicateAll F ts).start vs = some c ∧ ∀ r,
      Ends ((duplicateAll F ts).progress P call) (c, s₀) r ↔ Ends (F.progress P call) (c, s₀) r := by
  induction ts generalizing F with
  | nil => exact ⟨hc, fun r => Iff.rfl⟩
  | cons t ts ih =>
    rw [List.forall_mem_cons] at hts
    have hends := hts.1.ends_iff hc hdefined
    have hready : ∀ t' ∈ ts, Ready (duplicate F t.1 t.2) P call (c, s₀) t' :=
      fun t' ht' => hts.1.duplicate (hts.2 t' ht') hc hdefined
    have hc' : (duplicate F t.1 t.2).start vs = some c := by rw [start_duplicate, hc]
    obtain ⟨hstart, hiff⟩ := ih hready hc' fun r hr => hdefined r ((hends r).mp hr)
    exact ⟨hstart, fun r => (hiff r).trans (hends r)⟩

/-! ## The context values of RIV -/

section Targets

variable {choice : ContextChoice} {root : DomTree} {entry : BasicBlock}

theorem mem_targets (ht : t ∈ targets choice (RIV.runOnFunction F root) F) :
    (∃ B, F.block t.1 = some B) ∧ t.2.1 ∈ RIV.runOnFunction F root t.1 := by
  obtain ⟨A, hA, hpick⟩ := List.mem_filterMap.mp ht
  split at hpick
  · cases hpick
  · obtain ⟨x, hx, rfl⟩ := Option.map_eq_some_iff.mp hpick
    refine ⟨Option.isSome_iff_exists.mp ?_, choice.mem hx⟩
    exact List.find?_isSome.mpr ⟨A, hA, beq_self_eq_true A.id⟩

theorem typeOf_of_mem_targets {riv : RIVMap} (ht : t ∈ targets choice riv F) :
    t.2.2 = F.typeOf t.2.1 := by
  obtain ⟨A, -, hpick⟩ := List.mem_filterMap.mp ht
  split at hpick
  · cases hpick
  · obtain ⟨x, -, rfl⟩ := Option.map_eq_some_iff.mp hpick
    rfl

theorem mem_names_of_definitions {A : BasicBlock} {x : ValueId} {ty : Ty}
    (h : (x, ty) ∈ RIV.definitions A) : x ∈ A.names := by
  have hnames : (RIV.definitions A).map Prod.fst = A.names := by
    simp [RIV.definitions, BasicBlock.names, Function.comp_def]
  exact hnames ▸ List.mem_map.mpr ⟨_, h, rfl⟩

/-- By single assignment what is defined above a block is none of its phi nodes. -/
theorem splittable_of_dominating (hnames : F.names.Nodup) (hB : F.block b = some B) {x : ValueId}
    {ty : Ty} (hx : x ∈ F.params.map Prod.fst ∨
      ∃ a, StrictlyDominates F.edge entry.id a b ∧ x ∈ RIV.definedValues F a) :
    Splittable B (x, ty) := by
  have hmem := Function.block_mem hB
  obtain ⟨-, hblocks, hdisjoint⟩ := List.nodup_append.mp hnames
  obtain ⟨hnodup, hpairwise⟩ := List.nodup_flatMap.mp hblocks
  constructor
  · exact (List.nodup_append.mp (List.nodup_append.mp (hnodup B hmem)).1).2.1
  · intro hphi
    have hxB : x ∈ B.names := List.mem_append_left _ (List.mem_append_left _ hphi)
    rcases hx with hx | ⟨a, ⟨hne, -⟩, hx⟩
    · exact hdisjoint x hx x (List.mem_flatMap.mpr ⟨B, hmem, hxB⟩) rfl
    · obtain ⟨A, ty, hA, hd, -⟩ := RIV.mem_definedValues.mp hx
      have hAB : A ≠ B := by
        rintro rfl
        exact hne ((Function.block_id hA).symm.trans (Function.block_id hB))
      have : Std.Symm (Function.onFun List.Disjoint BasicBlock.names) := ⟨fun _ _ h => h.symm⟩
      have hdisj := hpairwise.forall (Function.block_mem hA) hmem hAB
      exact hdisj (mem_names_of_definitions hd) hxB

/-- The targets of the pass are ready. -/
theorem ready_of_mem_targets (hentry : F.blocks.head? = some entry)
    (hroot : IsDominatorTree F.edge entry.id root) (hnames : F.names.Nodup)
    (hc : F.start vs = some c) (ht : t ∈ targets choice (RIV.runOnFunction F root) F)
    (hinvoked : t.2.1 ∉ RIV.invoked F)
    (htyped : ∀ path c' s, F.Reaches P call vs s₀ path c' s → c'.block = t.1 →
      ∀ v ∈ c'.env t.2.1, Comparable t.2.2 v) : Ready F P call (c, s₀) t := by
  obtain ⟨⟨B, hB⟩, hriv⟩ := mem_targets ht
  obtain ⟨-, hdom⟩ := RIV.dominating_of_mem hentry hroot hriv
  refine ⟨⟨B, hB, splittable_of_dominating hnames hB hdom⟩, ?_⟩
  intro n p hn hp
  obtain ⟨path, hreach⟩ := Function.reaches_of_stepsIn hn (Function.Reaches.start hc)
  rw [← hp] at hdom
  have hsome := (RIV.isSome_of_dominating hentry hreach hdom).resolve_left hinvoked
  obtain ⟨v, hv⟩ := Option.isSome_iff_exists.mp hsome
  exact ⟨v, hv, htyped path p.1 p.2 hreach hp v hv⟩

end Targets

/-! The second block of `twoBlocks`, with the parameter as the context value. -/

def chooseParam : ContextChoice where
  pick b values := if b = 1 ∧ 0 ∈ values then some 0 else none
  mem h := by
    split at h
    · rename_i hmem
      obtain rfl := Option.some.inj h
      exact hmem.2
    · cases h

theorem eq_of_mem_targets {riv : RIVMap} (ht : t ∈ targets chooseParam riv F) :
    t = (1, 0, F.typeOf 0) := by
  obtain ⟨A, -, hpick⟩ := List.mem_filterMap.mp ht
  split at hpick
  · cases hpick
  · obtain ⟨x, hx, rfl⟩ := Option.map_eq_some_iff.mp hpick
    have hx : (if A.id = 1 ∧ 0 ∈ riv A.id then some 0 else none) = some x := hx
    split at hx
    · rename_i hb
      obtain rfl := Option.some.inj hx
      rw [hb.1]
    · cases hx

def atEntry : Config Empty := ⟨none, 0, Env.empty.set 0 (.int 32 5)⟩

theorem reaches_twoBlocks {path : List BlockId} {c : Config Empty} {s : State Unit}
    (h : RIV.twoBlocks.Reaches Platform.bare (fun _ _ => throw .undefined) [.int 32 5] ⟨(), []⟩
      path c s) : c = atEntry ∨ c = RIV.afterEntry := by
  induction h with
  | start hstart => exact .inl (Option.some.inj hstart).symm
  | step _ hstep ih =>
    rcases ih with rfl | rfl
    · cases hstep
      exact .inr rfl
    · cases hstep

theorem run_twoBlocks (n : Nat) : RIV.twoBlocks.run Platform.bare (fun _ _ => throw .undefined)
    (n + 1) atEntry ⟨(), []⟩ = .ok (some (.int 32 100)) ⟨(), []⟩ := by
  cases n <;> rfl

end DuplicateBB

end Carmor.Passes
