import Carmor.Passes.Renaming
import Carmor.Passes.Runs

/-!
# Cloned instructions

What `cloneBody` of `Passes.DuplicateBB` makes of some instructions. Each branch computes what the instructions computed,
under new names, and the phi nodes give the old names their values again.
-/

namespace Carmor.Passes

open Lib

variable {π σ : Type} {P : Platform π σ} {call : Caller π σ}

namespace Env

theorem setAll_of_notMem {env : Env π} {bs : List (ValueId × Val π)} {x : ValueId}
    (hx : x ∉ bs.map Prod.fst) : env.setAll bs x = env x := by
  induction bs with
  | nil => rfl
  | cons b bs ih =>
    rw [List.map_cons, List.mem_cons, not_or] at hx
    rw [setAll_cons, set_of_ne _ _ hx.1, ih hx.2]

theorem setAll_of_mem {env : Env π} {bs : List (ValueId × Val π)} {x : ValueId} {v : Val π}
    (hnodup : (bs.map Prod.fst).Nodup) (hx : (x, v) ∈ bs) : env.setAll bs x = some v := by
  induction bs with
  | nil => cases hx
  | cons b bs ih =>
    rw [List.map_cons, List.nodup_cons] at hnodup
    rw [setAll_cons]
    rcases List.mem_cons.mp hx with rfl | hx
    · exact set_self _ _ _
    · have hne : x ≠ b.1 := by
        rintro rfl
        exact hnodup.1 (List.mem_map.mpr ⟨_, hx, rfl⟩)
      rw [set_of_ne _ _ hne, ih hnodup.2 hx]

end Env

namespace DuplicateBB

/-- The instructions that define a value. -/
def defining (is : List Instruction) : List Instruction := is.filter fun i => !i.ty.isVoidTy

/-- One of the two branches: its names are `next`, `next + 2` and so on. -/
def branchBody : ValueId → (ValueId → ValueId) → List Instruction → List Instruction
  | _, _, [] => []
  | next, map, i :: is =>
    ⟨next, i.ty, i.rhs.mapRegs map⟩ :: branchBody (next + 2) (remember map i next) is

/-- The map of that branch after the last instruction. -/
def branchMap : ValueId → (ValueId → ValueId) → List Instruction → ValueId → ValueId
  | _, map, [] => map
  | next, map, i :: is => branchMap (next + 2) (remember map i next) is

variable {thenBlock elseBlock : BlockId} {next : ValueId} {map thenMap elseMap : ValueId → ValueId}
  {i : Instruction} {is : List Instruction} {x : ValueId}

theorem cloneBody_thenBody :
    (cloneBody thenBlock elseBlock next thenMap elseMap is).thenBody =
      branchBody next thenMap is := by
  induction is generalizing next thenMap elseMap with
  | nil => rfl
  | cons i is ih => simp only [cloneBody, branchBody, ih]

theorem cloneBody_elseBody :
    (cloneBody thenBlock elseBlock next thenMap elseMap is).elseBody =
      branchBody (next + 1) elseMap is := by
  induction is generalizing next thenMap elseMap with
  | nil => rfl
  | cons i is ih => simp only [cloneBody, branchBody, ih, Nat.add_right_comm next 1 2]

@[simp] theorem defining_nil : defining [] = [] := rfl

theorem defining_cons_of_void (h : i.ty.isVoidTy = true) :
    defining (i :: is) = defining is := by
  simp [defining, h]

theorem defining_cons (h : i.ty.isVoidTy = false) :
    defining (i :: is) = i :: defining is := by
  simp [defining, h]

theorem remember_of_void (h : i.ty.isVoidTy = true) : remember map i next = map := by
  funext x
  simp [remember, h]

theorem remember_self (h : i.ty.isVoidTy = false) : remember map i next i.id = next := by
  simp [remember, h]

theorem remember_of_ne (h : x ≠ i.id) : remember map i next x = map x := by
  simp [remember, h]

theorem branchMap_of_notMem (hx : x ∉ (defining is).map Instruction.id) :
    branchMap next map is x = map x := by
  induction is generalizing next map with
  | nil => rfl
  | cons i is ih =>
    cases hty : i.ty.isVoidTy with
    | true =>
      rw [defining_cons_of_void hty] at hx
      rw [branchMap, ih hx, remember_of_void hty]
    | false =>
      rw [defining_cons hty, List.map_cons, List.mem_cons, not_or] at hx
      rw [branchMap, ih hx.2, remember_of_ne hx.1]

/-- The phi node for an instruction, given the maps of the branches. -/
def join (thenBlock elseBlock : BlockId) (thenMap elseMap : ValueId → ValueId) (i : Instruction) :
    PHINode :=
  ⟨i.id, i.ty, [(thenBlock, .reg (thenMap i.id)), (elseBlock, .reg (elseMap i.id))]⟩

theorem cloneBody_phis (hnodup : (is.map Instruction.id).Nodup) :
    (cloneBody thenBlock elseBlock next thenMap elseMap is).phis =
      (defining is).map (join thenBlock elseBlock (branchMap next thenMap is)
        (branchMap (next + 1) elseMap is)) := by
  induction is generalizing next thenMap elseMap with
  | nil => rfl
  | cons i is ih =>
    rw [List.map_cons, List.nodup_cons] at hnodup
    cases hty : i.ty.isVoidTy with
    | true =>
      simp only [cloneBody, hty, if_true, defining_cons_of_void hty, branchMap, ih hnodup.2,
        Nat.add_right_comm next 1 2]
    | false =>
      have hi : i.id ∉ (defining is).map Instruction.id := fun h =>
        hnodup.1 (List.map_subset _ (List.filter_sublist.subset) h)
      simp only [cloneBody, hty, Bool.false_eq_true, if_false, defining_cons hty, List.map_cons,
        branchMap, ih hnodup.2, Nat.add_right_comm next 1 2, join, branchMap_of_notMem hi,
        remember_self hty]

/-! ## Running a branch -/

/-- `env'` has the values of `env` under the names that `map` gives, which lie below `next`;
`env` has none from `bound` on. -/
structure Cloned (bound next : ValueId) (map : ValueId → ValueId) (env env' : Env π) : Prop where
  below : env.Below bound
  renamed : env.Renamed map env'
  fresh : ∀ x < bound, map x < next

variable {bound : ValueId} {env env' : Env π}

theorem Cloned.mono {next' : ValueId} (h : Cloned bound next map env env') (hle : next ≤ next') :
    Cloned bound next' map env env' :=
  ⟨h.below, h.renamed, fun x hx => Nat.lt_of_lt_of_le (h.fresh x hx) hle⟩

theorem Cloned.set (h : Cloned bound next map env env') (hty : i.ty.isVoidTy = false)
    (hi : i.id < bound) (v : Val π) :
    Cloned bound (next + 1) (remember map i next) (env.set i.id v) (env'.set next v) := by
  refine ⟨h.below.set hi v, ?_, ?_⟩
  · intro x w hw
    by_cases hx : x = i.id
    · subst hx
      rw [Env.set_self] at hw
      rw [remember_self hty, Env.set_self]
      exact hw
    · rw [Env.set_of_ne _ _ hx] at hw
      have hbound : x < bound := by
        refine Nat.lt_of_not_le fun hle => ?_
        rw [h.below x hle] at hw
        cases hw
      rw [remember_of_ne hx, Env.set_of_ne _ _ (Nat.ne_of_lt (h.fresh x hbound))]
      exact h.renamed x w hw
  · intro x hx
    by_cases hxi : x = i.id
    · subst hxi
      rw [remember_self hty]
      exact Nat.lt_succ_self next
    · rw [remember_of_ne hxi]
      exact Nat.lt_succ_of_lt (h.fresh x hx)

theorem bindResult_cloned (h : Cloned bound next map env env') (hi : i.id < bound)
    (r : Option (Val π)) {env₁ : Env π} (hbind : bindResult i.ty i.id env r = some env₁) :
    ∃ env₁', bindResult i.ty next env' r = some env₁' ∧
      Cloned bound (next + 1) (remember map i next) env₁ env₁' := by
  cases hty : i.ty.isVoidTy with
  | true =>
    simp only [bindResult, hty, if_true, Option.some.injEq] at hbind ⊢
    subst hbind
    rw [remember_of_void hty]
    exact ⟨env', rfl, h.mono (Nat.le_succ next)⟩
  | false =>
    simp only [bindResult, hty] at hbind ⊢
    obtain ⟨v, rfl, rfl⟩ := Option.map_eq_some_iff.mp hbind
    exact ⟨_, rfl, h.set hty hi v⟩

/-- A branch does what the instructions did. -/
theorem branchBody_cloned (P : Platform π σ) (call : Caller π σ) (his : ∀ i ∈ is, i.id < bound) (h : Cloned bound next map env env') :
    Agree (fun env₁ env₁' => ∃ next', Cloned bound next' (branchMap next map is) env₁ env₁')
      (execBody P call is env) (execBody P call (branchBody next map is) env') := by
  induction is generalizing next map env env' with
  | nil => exact refines_pure ⟨next, h⟩
  | cons i is ih =>
    rw [List.forall_mem_cons] at his
    have hi : Agree (Cloned bound (next + 1) (remember map i next)) (i.exec P call env)
        (Instruction.exec P call env' ⟨next, i.ty, i.rhs.mapRegs map⟩) := by
      apply refines_bind (rhs_exec_mapRegs h.renamed i.ty i.rhs)
      rintro r _ rfl
      exact refines_require fun env₁ henv₁ => bindResult_cloned h his.1 r henv₁
    exact refines_bind hi fun env₁ env₁' h₁ => ih his.2 (h₁.mono (Nat.le_succ _))

/-! ## Joining the branches -/

/-- The phi nodes read, under the names of a branch, what the instructions have assigned. -/
theorem readPhis_join {prev : BlockId} {f : ValueId → ValueId} {js : List Instruction}
    (hbranch : ∀ j ∈ js, (join thenBlock elseBlock thenMap elseMap j).value prev =
      some (.reg (f j.id)))
    (hrenamed : env.Renamed f env') (hdefined : ∀ j ∈ js, (env j.id).isSome) :
    ∃ ys, readPhis P (some prev) env' (js.map (join thenBlock elseBlock thenMap elseMap)) = some ys ∧
      ys.map Prod.fst = js.map Instruction.id ∧ ∀ y ∈ ys, env y.1 = some y.2 := by
  induction js with
  | nil => exact ⟨[], rfl, rfl, fun _ h => nomatch h⟩
  | cons j js ih =>
    rw [List.forall_mem_cons] at hbranch hdefined
    obtain ⟨ys, hys, hnames, hvalues⟩ := ih hbranch.2 hdefined.2
    obtain ⟨v, hv⟩ := Option.isSome_iff_exists.mp hdefined.1
    refine ⟨(j.id, v) :: ys, ?_, by rw [List.map_cons, List.map_cons, hnames], ?_⟩
    · simp only [List.map_cons, readPhis, Option.bind_some, hbranch.1, Value.eval,
        hrenamed _ _ hv, hys]
      rfl
    · rw [List.forall_mem_cons]
      exact ⟨hv, hvalues⟩

/-- After the phi nodes every name has its value, whichever branch was taken. -/
theorem within_of_joined {first : ValueId} {ys : List (ValueId × Val π)}
    (h : Cloned bound next (branchMap first id is) env env')
    (hnodup : ((defining is).map Instruction.id).Nodup)
    (hnames : ys.map Prod.fst = (defining is).map Instruction.id)
    (hvalues : ∀ y ∈ ys, env y.1 = some y.2) : env.Within bound (env'.setAll ys) := by
  refine ⟨h.below, ?_⟩
  intro z v hv
  by_cases hz : z ∈ (defining is).map Instruction.id
  · obtain ⟨y, hy, rfl⟩ := List.mem_map.mp (hnames ▸ hz)
    obtain rfl := Option.some.inj (hv.symm.trans (hvalues y hy))
    exact Env.setAll_of_mem (hnames ▸ hnodup) hy
  · rw [id, Env.setAll_of_notMem (hnames ▸ hz)]
    have hclone := h.renamed z v hv
    rw [branchMap_of_notMem hz] at hclone
    exact hclone

end DuplicateBB

end Carmor.Passes
