import Carmor.CommentTool
import Carmor.Lib.Traversal

/-!
# Which functions the tool reaches

A traversal visits the declarations in source order and ends with the first variable whose
function is not `main`. The functions behind it in the same top-level declaration are never
visited.
-/

namespace Carmor.CommentTool

open Lib.Traversal

/-- What the traversal visits: a function, or a variable with its function. -/
inductive Node where
  | function (d : FunctionDecl)
  | var (parent : Option FunctionDecl) (d : VarDecl)

namespace Node

/-- The visit returns false. -/
def aborts : Node → Bool
  | function _ => false
  | var parent _ => parent.any fun f => !f.isMain

/-- What the visit passes to `RemoveText`. -/
def removal : Node → Option RemoveText
  | function d =>
      if d.isMain || getMachineComment d.rawComment machine1 then none else some (.function d)
  | var parent d =>
      if (parent.any fun f => !f.isMain) || getMachineComment d.rawComment machine1 then none
      else some (.var d)

end Node

/- The nodes of a declaration inside the function `parent`, in source order. -/
mutual

def nodesOfDecl (parent : Option FunctionDecl) : Decl → List Node
  | .function d decls => .function d :: nodesOfDecls (some d) decls
  | .var d => [.var parent d]
  | .context decls => nodesOfDecls parent decls

def nodesOfDecls (parent : Option FunctionDecl) : List Decl → List Node
  | [] => []
  | d :: ds => nodesOfDecl parent d ++ nodesOfDecls parent ds

end

/-- The nodes that the traversal of a top-level declaration visits. -/
def visited (d : Decl) : List Node := takeThrough Node.aborts (nodesOfDecl none d)

/-! ## The traversal -/

theorem visitFunctionDecl_eq (d : FunctionDecl) (R : Rewriter) :
    visitFunctionDecl d R = (true, R ++ (Node.function d).removal.toList) := by
  cases hmain : d.isMain <;> cases hcomment : getMachineComment d.rawComment machine1 <;>
    simp [visitFunctionDecl, Node.removal, hmain, hcomment]

theorem visitVarDecl_eq (parent : Option FunctionDecl) (d : VarDecl) (R : Rewriter) :
    visitVarDecl parent d R =
      (!(Node.var parent d).aborts, R ++ (Node.var parent d).removal.toList) := by
  cases parent with
  | none =>
    cases hcomment : getMachineComment d.rawComment machine1 <;>
      simp [visitVarDecl, Node.aborts, Node.removal, hcomment]
  | some f =>
    cases hmain : f.isMain <;> cases hcomment : getMachineComment d.rawComment machine1 <;>
      simp [visitVarDecl, Node.aborts, Node.removal, hmain, hcomment]

/-- The outcome of a traversal of the nodes `ns`. -/
def outcome (ns : List Node) (R : Rewriter) : Bool × Rewriter :=
  (!ns.any Node.aborts, R ++ (takeThrough Node.aborts ns).filterMap Node.removal)

/-- A function's visit never ends the traversal. -/
theorem outcome_function (d : FunctionDecl) (ns : List Node) (R : Rewriter) :
    outcome (.function d :: ns) R = outcome ns (R ++ (Node.function d).removal.toList) := by
  have hgo : (Node.function d).aborts = false := rfl
  rw [outcome, outcome, takeThrough_cons_of_not_stop hgo, List.any_cons, hgo]
  cases hremoval : (Node.function d).removal <;> simp [hremoval]

theorem outcome_var (parent : Option FunctionDecl) (d : VarDecl) (R : Rewriter) :
    outcome [.var parent d] R =
      (!(Node.var parent d).aborts, R ++ (Node.var parent d).removal.toList) := by
  cases hstop : (Node.var parent d).aborts <;> cases hremoval : (Node.var parent d).removal <;>
    simp [outcome, takeThrough, hstop, hremoval]

theorem outcome_append_of_any {ns : List Node} (h : ns.any Node.aborts = true) (ms : List Node)
    (R : Rewriter) : outcome (ns ++ ms) R = (false, (outcome ns R).2) := by
  simp [outcome, takeThrough_append_of_any h, List.any_append, h]

theorem outcome_append_of_not_any {ns : List Node} (h : ns.any Node.aborts = false)
    (ms : List Node) (R : Rewriter) : outcome (ns ++ ms) R = outcome ms (outcome ns R).2 := by
  have hall : takeThrough Node.aborts ns = ns := by
    simpa [takeThrough] using takeThrough_append_of_not_any h []
  simp [outcome, takeThrough_append_of_not_any h, hall, List.any_append, h]

mutual

/-- The traversal of a declaration visits its nodes up to the first abort. -/
theorem traverseDecl_eq (parent : Option FunctionDecl) (d : Decl) (R : Rewriter) :
    traverseDecl parent d R = outcome (nodesOfDecl parent d) R := by
  match d with
  | .function f decls =>
    rw [nodesOfDecl, outcome_function, ← traverseDecls_eq, traverseDecl, visitFunctionDecl_eq]
  | .var v => rw [nodesOfDecl, outcome_var, traverseDecl, visitVarDecl_eq]
  | .context decls => rw [nodesOfDecl, traverseDecl, traverseDecls_eq]

theorem traverseDecls_eq (parent : Option FunctionDecl) (ds : List Decl) (R : Rewriter) :
    traverseDecls parent ds R = outcome (nodesOfDecls parent ds) R := by
  match ds with
  | [] => simp [traverseDecls, nodesOfDecls, outcome, takeThrough]
  | d :: ds =>
    rw [traverseDecls, nodesOfDecls, traverseDecl_eq]
    cases hany : (nodesOfDecl parent d).any Node.aborts with
    | true =>
      rw [outcome_append_of_any hany]
      simp [outcome, hany]
    | false =>
      rw [outcome_append_of_not_any hany, ← traverseDecls_eq]
      simp [outcome, hany]

end

/-- Every group of declarations is handled by itself. -/
theorem handleTopLevelDecl_eq (DR : List Decl) (R : Rewriter) :
    handleTopLevelDecl DR R = R ++ DR.flatMap fun d => (visited d).filterMap Node.removal := by
  induction DR generalizing R with
  | nil => simp [handleTopLevelDecl]
  | cons d ds ih =>
    rw [handleTopLevelDecl, List.foldl_cons, ← handleTopLevelDecl, ih, traverseDecl_eq]
    simp [outcome, visited]

/-- The tool passes to `RemoveText` what the visits of the top-level declarations pass. -/
theorem run_eq (unit : List (List Decl)) :
    run unit = unit.flatten.flatMap fun d => (visited d).filterMap Node.removal := by
  have hgroups : ∀ R, unit.foldl (fun R DR => handleTopLevelDecl DR R) R =
      R ++ unit.flatten.flatMap fun d => (visited d).filterMap Node.removal := by
    induction unit with
    | nil => simp
    | cons DR unit ih =>
      intro R
      rw [List.foldl_cons, ih, handleTopLevelDecl_eq]
      simp
  simpa [run] using hgroups []

/-! ## Completeness -/

/-- The functions of a unit, in source order. -/
def functionsOf (unit : List (List Decl)) : List FunctionDecl :=
  unit.flatten.flatMap fun d => (nodesOfDecl none d).filterMap fun
    | .function f => some f
    | .var _ _ => none

/-- The function is not `main` and does not belong to machine 1. -/
def FunctionDecl.isForeign (d : FunctionDecl) : Bool :=
  !d.isMain && !getMachineComment d.rawComment machine1

/-- The functions passed to `RemoveText`. -/
def removedFunctions (R : Rewriter) : List FunctionDecl :=
  R.filterMap fun
    | .function f => some f
    | .var _ => none

/-- The tool removes the functions that are not `main` and not machine 1's, and no others. -/
def PartitionComplete (unit : List (List Decl)) : Prop :=
  removedFunctions (run unit) = (functionsOf unit).filter FunctionDecl.isForeign

/-- No function to be removed comes behind a parameter or a local variable of a function other
than `main`. -/
def OrderSafe (ns : List Node) : Prop :=
  ns.Pairwise fun
    | .var (some f) _, .function d => f.isMain = true ∨ d.isForeign = false
    | _, _ => True

/-- The function that a visit has to pass to `RemoveText`. -/
def Node.foreign : Node → Option FunctionDecl
  | function d => if d.isForeign then some d else none
  | var _ _ => none

theorem removedFunctions_removal (ns : List Node) :
    removedFunctions (ns.filterMap Node.removal) = ns.filterMap Node.foreign := by
  rw [removedFunctions, List.filterMap_filterMap]
  congr 1
  funext n
  cases n with
  | function d =>
    cases hmain : d.isMain <;> cases hcomment : getMachineComment d.rawComment machine1 <;>
      simp [Node.removal, Node.foreign, FunctionDecl.isForeign, hmain, hcomment]
  | var parent d =>
    rw [Node.removal, Node.foreign]
    split <;> rfl

theorem removedFunctions_run (unit : List (List Decl)) :
    removedFunctions (run unit) =
      unit.flatten.flatMap fun d => (visited d).filterMap Node.foreign := by
  rw [run_eq]
  generalize unit.flatten = ds
  induction ds with
  | nil => rfl
  | cons d ds ih =>
    rw [List.flatMap_cons, List.flatMap_cons, ← ih, ← removedFunctions_removal]
    exact List.filterMap_append

theorem foreign_functionsOf (unit : List (List Decl)) :
    (functionsOf unit).filter FunctionDecl.isForeign =
      unit.flatten.flatMap fun d => (nodesOfDecl none d).filterMap Node.foreign := by
  rw [functionsOf, List.filter_flatMap]
  congr 1
  funext d
  rw [List.filter_filterMap]
  congr 1
  funext n
  cases n with
  | function f => simp [Node.foreign, Option.filter]
  | var parent v => rfl

theorem orderSafe_iff {ns : List Node} :
    OrderSafe ns ↔ ns.Pairwise fun a b => a.aborts = true → b.foreign = none := by
  refine List.Pairwise.iff ?_
  intro a b
  cases a with
  | function d => simp [Node.aborts]
  | var parent v =>
    cases b with
    | var parent' v' => cases parent <;> simp [Node.foreign]
    | function d =>
      cases parent with
      | none => simp [Node.aborts]
      | some f => cases hf : f.isMain <;> simp [Node.aborts, Node.foreign, hf]

/-- The tool removes the right functions exactly of the units in which no function to be removed
follows, inside its top-level declaration, a parameter or local variable of a function other than
`main`. -/
theorem partitionComplete_iff (unit : List (List Decl)) :
    PartitionComplete unit ↔ ∀ d ∈ unit.flatten, OrderSafe (nodesOfDecl none d) := by
  have hparts : ∀ d ∈ unit.flatten, ((visited d).filterMap Node.foreign).Sublist
      ((nodesOfDecl none d).filterMap Node.foreign) := by
    intro d _
    exact (takeThrough_initial _ _).sublist.filterMap _
  rw [PartitionComplete, removedFunctions_run, foreign_functionsOf,
    flatMap_eq_iff_of_sublist hparts]
  constructor
  · intro h d hd
    exact orderSafe_iff.mpr (filterMap_takeThrough_eq_iff.mp (h d hd))
  · intro h d hd
    exact filterMap_takeThrough_eq_iff.mpr (orderSafe_iff.mp (h d hd))

/-- The parameters and locals of a function at file scope end its own traversal only. -/
theorem orderSafe_fileScope (d : FunctionDecl) (vars : List VarDecl) :
    OrderSafe (nodesOfDecl none (.function d (vars.map .var))) := by
  have hnodes : nodesOfDecls (some d) (vars.map .var) = vars.map (Node.var (some d)) := by
    induction vars with
    | nil => rfl
    | cons v vars ih => simp [nodesOfDecls, nodesOfDecl, ih]
  rw [nodesOfDecl, hnodes, orderSafe_iff, List.pairwise_cons]
  refine ⟨by simp [Node.aborts], ?_⟩
  rw [List.pairwise_map]
  exact List.pairwise_of_forall fun _ _ _ => rfl

/-- A function of machine 1 is not removed, wherever it stands. -/
theorem not_removed_of_machine1 {unit : List (List Decl)} {d : FunctionDecl}
    (h : getMachineComment d.rawComment machine1 = true) : d ∉ removedFunctions (run unit) := by
  have hforeign : d.isForeign = false := by simp [FunctionDecl.isForeign, h]
  rw [removedFunctions_run]
  intro hmem
  obtain ⟨decl, -, hd⟩ := List.mem_flatMap.mp hmem
  obtain ⟨n, -, hn⟩ := List.mem_filterMap.mp hd
  cases n with
  | var parent v => cases hn
  | function f =>
    rw [Node.foreign] at hn
    split at hn
    · rename_i hf
      cases hn
      rw [hforeign] at hf
      cases hf
    · cases hn

/-- A namespace with two functions of one parameter, none of them annotated: the second is not
visited. -/
theorem not_partitionComplete_namespace :
    ¬ PartitionComplete [[.context [
      .function ⟨⟨0, 10⟩, false, none⟩ [.var ⟨⟨4, 8⟩, none⟩],
      .function ⟨⟨20, 30⟩, false, none⟩ [.var ⟨⟨24, 28⟩, none⟩]]]] := by
  intro h
  exact absurd h (by rw [PartitionComplete]; decide)

end Carmor.CommentTool
