import Carmor.Passes.Ir

/-!
# Mixed Boolean arithmetic

The passes of `passes/lib/MBAAdd.cpp` and `passes/lib/MBASub.cpp`. Both walk over the instructions of a block and replace some of
them; `substituteBody` is that walk, with what a pass does at an instruction as a parameter. What
an `IRBuilder` folds is a parameter too, and so is what the generator draws.
-/

namespace Carmor.Passes

/-- The instructions that an `IRBuilder` has inserted, and the next free name. -/
structure Builder where
  next : ValueId
  emitted : List Instruction
  deriving DecidableEq, Repr

/-- What an `IRBuilder` returns in place of a new instruction, such as the constant that an
operator gives on two constants. -/
structure Folder where
  fold : BinaryOp → (bits : Nat) → Value → Value → Option Value

def Value.asConstantInt (bits : Nat) : Value → Option (BitVec bits)
  | .constantInt n c => if h : n = bits then some (c.cast h) else none
  | _ => none

/-- A builder that folds the operators on two integers. -/
def Folder.constantInts : Folder where
  fold op bits a b :=
    match a.asConstantInt bits, b.asConstantInt bits with
    | some c, some d => some (.constantInt bits (op.compute c d))
    | _, _ => none

namespace Builder

/-- `CreateAdd`, `CreateMul`, `CreateAnd` and `CreateXor`. -/
def createBinOp (fold : Folder) (op : BinaryOp) (bits : Nat) (a b : Value) : StateM Builder Value :=
  fun B =>
    match fold.fold op bits a b with
    | some v => (v, B)
    | none => (.reg B.next,
        { next := B.next + 1
          emitted := B.emitted ++ [⟨B.next, .integer bits, .binary op .none a b⟩] })

def createNot (fold : Folder) (bits : Nat) (a : Value) : StateM Builder Value :=
  createBinOp fold .xor bits a (.constantInt bits (BitVec.allOnes bits))

end Builder

/-- The right-hand side that takes the place of an instruction's, built by an `IRBuilder` before
it. -/
abbrev Replacement := StateM Builder Rhs

/-- What a walk over some instructions has done. -/
structure Substituted where
  changed : Bool
  next : ValueId
  body : List Instruction
  deriving DecidableEq, Repr

variable {κ : Type}

/-- The loop of `runOnBasicBlock`. Instructions that a builder inserts stand before the iterator
and are not visited. -/
def substituteBody (visit : κ → Instruction → κ × Option Replacement) :
    κ → ValueId → List Instruction → Substituted
  | _, next, [] => ⟨false, next, []⟩
  | k, next, i :: is =>
    match visit k i with
    | (k, none) =>
      let rest := substituteBody visit k next is
      ⟨rest.changed, rest.next, i :: rest.body⟩
    | (k, some replacement) =>
      let (rhs, B) := replacement ⟨next, []⟩
      let rest := substituteBody visit k B.next is
      ⟨true, rest.next, B.emitted ++ { i with rhs := rhs } :: rest.body⟩

/-- The blocks of a function after the pass, and whether any of them changed. -/
def substituteBlocks (visit : κ → Instruction → κ × Option Replacement) (k : κ) :
    ValueId → List BasicBlock → Bool × List BasicBlock
  | _, [] => (false, [])
  | next, B :: Bs =>
    let r := substituteBody visit k next B.body
    let (changed, Bs) := substituteBlocks visit k r.next Bs
    (r.changed || changed, { B with body := r.body } :: Bs)

/-- The names that a function assigns. -/
def BasicBlock.names (B : BasicBlock) : List ValueId :=
  B.phis.map PHINode.id ++ B.body.map Instruction.id ++ B.terminator.result.toList.map Prod.fst

def Function.names (F : Function) : List ValueId :=
  F.params.map Prod.fst ++ F.blocks.flatMap BasicBlock.names

/-- A name from which on the function assigns none. -/
def Function.nextName (F : Function) : ValueId := F.names.foldr (fun x n => max (x + 1) n) 0

theorem lt_foldr_max {x : Nat} {xs : List Nat} (hx : x ∈ xs) :
    x < xs.foldr (fun y n => max (y + 1) n) 0 := by
  induction xs with
  | nil => cases hx
  | cons y ys ih =>
    rw [List.foldr_cons]
    rcases List.mem_cons.mp hx with rfl | hmem
    · exact Nat.le_max_left _ _
    · exact Nat.lt_of_lt_of_le (ih hmem) (Nat.le_max_right _ _)

theorem lt_nextName {F : Function} {x : ValueId} (hx : x ∈ F.names) : x < F.nextName :=
  lt_foldr_max hx

theorem lt_nextName_of_block {F : Function} {B : BasicBlock} (hB : B ∈ F.blocks) {x : ValueId}
    (hx : x ∈ B.names) : x < F.nextName :=
  lt_nextName (List.mem_append_right _ (List.mem_flatMap.mpr ⟨B, hB, hx⟩))

/-- `run`, with whether the pass reports a change. -/
def substituteFunction (visit : κ → Instruction → κ × Option Replacement) (k : κ) (F : Function) :
    Bool × Function :=
  let (changed, Bs) := substituteBlocks visit k F.nextName F.blocks
  (changed, { F with blocks := Bs })

namespace MBAAdd

def const8 (n : Nat) : Value := .constantInt 8 (BitVec.ofNat 8 n)

/-- `(((a ^ b) + 2 * (a & b)) * 39 + 23) * 151 + 111`. -/
def replacement (fold : Folder) (a b : Value) : Replacement := do
  let e0 ← Builder.createBinOp fold .xor 8 a b
  let both ← Builder.createBinOp fold .and 8 a b
  let e1 ← Builder.createBinOp fold .mul 8 (const8 2) both
  let e2 ← Builder.createBinOp fold .add 8 e0 e1
  let e3 ← Builder.createBinOp fold .mul 8 (const8 39) e2
  let e4 ← Builder.createBinOp fold .add 8 (const8 23) e3
  let e5 ← Builder.createBinOp fold .mul 8 (const8 151) e4
  return .binary .add .none (const8 111) e5

/-- One round of the loop. `exceeds k` says that the number drawn for the candidate `k` of the
block exceeds the ratio; the generator is seeded anew for each block. -/
def visit (fold : Folder) (exceeds : Nat → Bool) (k : Nat) (i : Instruction) :
    Nat × Option Replacement :=
  match i.rhs with
  | .binary op _ a b =>
    if op ≠ .add then (k, none)
    else if i.ty ≠ .integer 8 then (k, none)
    else if exceeds k then (k + 1, none)
    else (k + 1, some (replacement fold a b))
  | _ => (k, none)

def run (fold : Folder) (exceeds : Nat → Bool) (F : Function) : Bool × Function :=
  substituteFunction (visit fold exceeds) 0 F

/-- The pass on every function of a module. -/
def runOnModule (fold : Folder) (exceeds : Nat → Bool) (M : Module) : Module where
  functions := M.functions.map fun F => (run fold exceeds F).2

end MBAAdd

namespace MBASub

/-- `(a + ~b) + 1`. -/
def replacement (fold : Folder) (bits : Nat) (a b : Value) : Replacement := do
  let notB ← Builder.createNot fold bits b
  let sum ← Builder.createBinOp fold .add bits a notB
  return .binary .add .none sum (.constantInt bits 1)

/-- One round of the loop, which keeps no state. -/
def visit (fold : Folder) (_ : Unit) (i : Instruction) : Unit × Option Replacement :=
  match i.rhs with
  | .binary op _ a b =>
    if op ≠ .sub then ((), none)
    else
      match i.ty with
      | .integer bits => ((), some (replacement fold bits a b))
      | _ => ((), none)
  | _ => ((), none)

def run (fold : Folder) (F : Function) : Bool × Function := substituteFunction (visit fold) () F

/-- The pass on every function of a module. -/
def runOnModule (fold : Folder) (M : Module) : Module where
  functions := M.functions.map fun F => (run fold F).2

end MBASub

end Carmor.Passes
