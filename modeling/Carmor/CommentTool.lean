import Mathlib.Data.List.Infix

/-!
# The comment tool

`outoftree/commenttool/CommentTool.cpp` removes from a source file what is not annotated for
machine 1. A declaration carries what the tool asks clang for: its source range, whether it is
`main`, and the raw text of the comment attached to it. The traversal is the one of clang's
`RecursiveASTVisitor`: a declaration is visited before its children, these in source order, and a
visit that returns false ends the whole traversal.
-/

namespace Carmor.CommentTool

/-- A `std::string`. -/
abbrev Text := List Char

/-- `raw.find(machineNum)`, `none` for `std::string::npos`. -/
def find (machineNum : Text) : Text → Option Nat
  | [] => if machineNum.isPrefixOf [] then some 0 else none
  | c :: cs =>
      if machineNum.isPrefixOf (c :: cs) then some 0 else (find machineNum cs).map (· + 1)

structure SourceRange where
  begin : Nat
  finish : Nat
  deriving DecidableEq, Repr

structure FunctionDecl where
  sourceRange : SourceRange
  isMain : Bool
  rawComment : Option Text
  deriving DecidableEq, Repr

/-- A variable outside of classes' fields: global, local, static member or parameter. -/
structure VarDecl where
  sourceRange : SourceRange
  rawComment : Option Text
  deriving DecidableEq, Repr

inductive Decl where
  /-- A function with its parameters and the declarations in its body. -/
  | function (d : FunctionDecl) (decls : List Decl)
  | var (d : VarDecl)
  /-- A namespace or a class. -/
  | context (decls : List Decl)

/-- A call of `TheRewriter.RemoveText`, named by the declaration that it is made for. -/
inductive RemoveText where
  | function (d : FunctionDecl)
  | var (d : VarDecl)
  deriving DecidableEq, Repr

/-- The range that is passed to `RemoveText`. -/
def RemoveText.range : RemoveText → SourceRange
  | .function d => d.sourceRange
  | .var d => { d.sourceRange with finish := d.sourceRange.finish + 4 }

/-- The calls of `RemoveText` so far. -/
abbrev Rewriter := List RemoveText

/-- `GetMachineComment`. -/
def getMachineComment (rawComment : Option Text) (machineNum : Text) : Bool :=
  match rawComment with
  | some raw => (find machineNum raw).isSome
  | none => false

/-- The `"@1"` of the visit methods. -/
def machine1 : Text := ['@', '1']

/-- `MyASTVisitor::VisitFunctionDecl`. -/
def visitFunctionDecl (d : FunctionDecl) (R : Rewriter) : Bool × Rewriter :=
  if !d.isMain then
    if getMachineComment d.rawComment machine1 then (true, R) else (true, R ++ [.function d])
  else
    (true, R)

/-- `MyASTVisitor::VisitVarDecl`; `parent` is the variable's `getParentFunctionOrMethod`. -/
def visitVarDecl (parent : Option FunctionDecl) (d : VarDecl) (R : Rewriter) : Bool × Rewriter :=
  let remove : Bool × Rewriter :=
    if getMachineComment d.rawComment machine1 then (true, R) else (true, R ++ [.var d])
  match parent with
  | some f => if !f.isMain then (false, R) else remove
  | none => remove

/- `RecursiveASTVisitor::TraverseDecl`, for a declaration inside the function `parent`. -/
mutual

def traverseDecl (parent : Option FunctionDecl) : Decl → Rewriter → Bool × Rewriter
  | .function d decls, R =>
      match visitFunctionDecl d R with
      | (true, R') => traverseDecls (some d) decls R'
      | (false, R') => (false, R')
  | .var d, R => visitVarDecl parent d R
  | .context decls, R => traverseDecls parent decls R

def traverseDecls (parent : Option FunctionDecl) : List Decl → Rewriter → Bool × Rewriter
  | [], R => (true, R)
  | d :: ds, R =>
      match traverseDecl parent d R with
      | (true, R') => traverseDecls parent ds R'
      | (false, R') => (false, R')

end

/-- `MyASTConsumer::HandleTopLevelDecl`: the result of the traversal is not used. -/
def handleTopLevelDecl (DR : List Decl) (R : Rewriter) : Rewriter :=
  DR.foldl (fun R d => (traverseDecl none d R).2) R

/-- The tool on a translation unit, given as its groups of top-level declarations. -/
def run (unit : List (List Decl)) : Rewriter :=
  unit.foldl (fun R DR => handleTopLevelDecl DR R) []

end Carmor.CommentTool
