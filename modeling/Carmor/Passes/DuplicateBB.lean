import Carmor.Passes.Mba
import Carmor.Passes.Riv

/-!
# Duplicating basic blocks

The pass `DuplicateBB` of `passes/lib/DuplicateBB.cpp` hides each chosen block behind an
`if-then-else` whose branches do the same. `RIV` offers the parameters of all types as context
values, and `CreateIsNull` takes integers and pointers only. `ReMapper` records under which value
a replaced instruction is found from then on; the phi node that replaces it has its name and its
uses, so that names need no such record.
-/

namespace Carmor.Passes

open Lib

/-- Another name for every register of an operand. -/
def Value.mapRegs (f : ValueId → ValueId) : Value → Value
  | .reg x => .reg (f x)
  | .bitCast v => .bitCast (v.mapRegs f)
  | v => v

/-- `RemapInstruction`, where names without an entry stay. -/
def Rhs.mapRegs (f : ValueId → ValueId) : Rhs → Rhs
  | .binary op flags a b => .binary op flags (a.mapRegs f) (b.mapRegs f)
  | .isNull ty a => .isNull ty (a.mapRegs f)
  | .call callee args => .call (callee.mapRegs f) (args.map (Value.mapRegs f))
  | .other k operands => .other k (operands.map (Value.mapRegs f))

/-- The blocks that a block names. -/
def BasicBlock.mentioned (B : BasicBlock) : List BlockId :=
  B.id :: B.terminator.successors ++ B.phis.flatMap fun p => p.incoming.map Prod.fst

/-- The predecessor `b` of a phi node becomes `tail`. -/
def PHINode.replaceIncoming (b tail : BlockId) (p : PHINode) : PHINode :=
  { p with incoming := p.incoming.map fun e => (if e.1 = b then tail else e.1, e.2) }

/-- A number from which on the function has no block and names none. -/
def Function.nextBlock (F : Function) : BlockId :=
  (F.blocks.flatMap BasicBlock.mentioned).foldr (fun b n => max (b + 1) n) 0

/-- The type of a value of a function. -/
def Function.typeOf (F : Function) (x : ValueId) : Ty :=
  ((F.params ++ F.blocks.flatMap RIV.definitions).lookup x).getD .void

/-- A random choice of a context value for a block, from the values that `RIV` found for it. There
is none when the set is empty or the number drawn exceeds the ratio. -/
structure ContextChoice where
  pick : BlockId → Finset ValueId → Option ValueId
  mem : ∀ {b values x}, pick b values = some x → x ∈ values

namespace DuplicateBB

/-- The clones of some instructions in the two branches, and the phi nodes that join them. -/
structure Clones where
  thenBody : List Instruction
  elseBody : List Instruction
  phis : List PHINode
  deriving DecidableEq, Repr

/-- An entry of `ThenVMap` or `ElseVMap`. An instruction without a value is no operand and gets
none. -/
def remember (map : ValueId → ValueId) (i : Instruction) (clone : ValueId) : ValueId → ValueId :=
  fun x => if i.ty.isVoidTy = false ∧ x = i.id then clone else map x

/-- The loop over the instructions of the tail before its terminator; new names are taken from
`next` on. -/
def cloneBody (thenBlock elseBlock : BlockId) : ValueId → (ValueId → ValueId) →
    (ValueId → ValueId) → List Instruction → Clones
  | _, _, _, [] => ⟨[], [], []⟩
  | next, thenMap, elseMap, i :: is =>
    let thenClone : Instruction := ⟨next, i.ty, i.rhs.mapRegs thenMap⟩
    let elseClone : Instruction := ⟨next + 1, i.ty, i.rhs.mapRegs elseMap⟩
    let rest := cloneBody thenBlock elseBlock (next + 2) (remember thenMap i next)
      (remember elseMap i (next + 1)) is
    let phi : PHINode := ⟨i.id, i.ty, [(thenBlock, .reg next), (elseBlock, .reg (next + 1))]⟩
    { thenBody := thenClone :: rest.thenBody
      elseBody := elseClone :: rest.elseBody
      phis := if i.ty.isVoidTy then rest.phis else phi :: rest.phis }

/-- `replaceSuccessorsPhiUsesWith`, for a block that may be a successor of the split one. -/
def replacePhiUses (successors : List BlockId) (b tail : BlockId) (C : BasicBlock) : BasicBlock :=
  if C.id ∈ successors then { C with phis := C.phis.map (PHINode.replaceIncoming b tail) } else C

/-- The four blocks that take the place of the block `B`. -/
def splitBlock (next : ValueId) (thenBlock elseBlock tail : BlockId) (B : BasicBlock)
    (context : ValueId × Ty) : List BasicBlock :=
  let clones := cloneBody thenBlock elseBlock (next + 1) id id B.body
  [{ B with
      body := [⟨next, .integer 1, .isNull context.2 (.reg context.1)⟩]
      terminator := .condBr (.reg next) thenBlock elseBlock },
    { id := thenBlock, phis := [], body := clones.thenBody, terminator := .br tail,
      isLandingPad := false },
    { id := elseBlock, phis := [], body := clones.elseBody, terminator := .br tail,
      isLandingPad := false },
    { id := tail, phis := clones.phis, body := [], terminator := B.terminator,
      isLandingPad := false }]

def duplicate (F : Function) (b : BlockId) (context : ValueId × Ty) : Function :=
  match F.block b with
  | none => F
  | some B =>
    let n := F.nextBlock
    { F with
      blocks := F.blocks.flatMap fun C =>
        let C := replacePhiUses B.terminator.successors b (n + 2) C
        if C.id = b then splitBlock F.nextName n (n + 1) (n + 2) C context else [C] }

/-- The list `Targets`, with the types of the context values. -/
def targets (choice : ContextChoice) (riv : RIVMap) (F : Function) :
    List (BlockId × ValueId × Ty) :=
  F.blocks.filterMap fun B =>
    if B.isLandingPad then none else (choice.pick B.id (riv B.id)).map fun x => (B.id, x, F.typeOf x)

def duplicateAll (F : Function) (targets : List (BlockId × ValueId × Ty)) : Function :=
  targets.foldl (fun F t => duplicate F t.1 t.2) F

/-- `runOnFunction`, with the dominator tree of the function as an argument. -/
def runOnFunction (choice : ContextChoice) (root : DomTree) (F : Function) : Bool × Function :=
  let ts := targets choice (RIV.runOnFunction F root) F
  (!ts.isEmpty, duplicateAll F ts)

end DuplicateBB

end Carmor.Passes
