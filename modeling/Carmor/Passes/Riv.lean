import Carmor.Passes.Ir
import Carmor.Lib.RootedTree
import Mathlib.Data.Finset.Basic

/-!
# Reachable integer values

The analysis `RIV` of `passes/lib/RIV.cpp`: for each block the parameters of the function and the
integer values of the blocks that dominate it. The dominator tree comes from LLVM and is an
argument.
-/

namespace Carmor.Passes

open Lib

abbrev DomTree := RootedTree BlockId

/-- `RIVMapTy`, where a block that has no entry has the empty set. -/
abbrev RIVMap := BlockId → Finset ValueId

namespace RIV

/-- The values that the instructions of a block define, the phi nodes and the terminator
included. -/
def definitions (B : BasicBlock) : List (ValueId × Ty) :=
  B.phis.map (fun p => (p.id, p.ty)) ++ B.body.map (fun i => (i.id, i.ty)) ++
    B.terminator.result.toList

/-- The first step: the integer values that each block defines. -/
def definedValues (F : Function) : RIVMap := fun b =>
  match F.block b with
  | none => ∅
  | some B => (((definitions B).filter fun d => d.2.isIntegerTy).map Prod.fst).toFinset

/-- `RIVMap[b].insert(..)`. -/
def insert (m : RIVMap) (b : BlockId) (values : Finset ValueId) : RIVMap :=
  fun c => if c = b then m c ∪ values else m c

/-- The loop over the children of `node`. -/
def processChildren (defined : RIVMap) (node : BlockId) : List DomTree → RIVMap → RIVMap
  | [], m => m
  | child :: children, m =>
    let m := insert m child.root (defined node)
    let m := insert m child.root (m node)
    processChildren defined node children m

/-- The loop over `NodesToProcess`, whose back is the head of the list. -/
def process (defined : RIVMap) : List DomTree → RIVMap → RIVMap
  | [], m => m
  | .node b children :: rest, m =>
    process defined (children.reverse ++ rest) (processChildren defined b children m)
termination_by nodes => (RootedTree.labelsAll nodes).length
decreasing_by
  simp [(RootedTree.labelsAll_reverse_perm children).length_eq]

/-- `runOnFunction`, with the map it leaves. -/
def runOnFunction (F : Function) (root : DomTree) : RIVMap :=
  let args := (F.params.map Prod.fst).toFinset
  match F.blocks.head? with
  | none => fun _ => ∅
  | some entry => process (definedValues F) [root] (insert (fun _ => ∅) entry.id args)

end RIV

end Carmor.Passes
