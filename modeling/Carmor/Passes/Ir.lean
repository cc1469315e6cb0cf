import Carmor.Lib.Exec
import Mathlib.Data.List.Basic

/-!
# The intermediate representation

Modules, functions, basic blocks and instructions as far as the passes of `passes/` tell them
apart, and what they do when they run. A value is known by its name, which `ReplaceInstWithInst`
hands on to the replacement together with all uses. Everything the passes treat alike (loads,
stores, casts, `switch`, functions of other modules) is left to a `Platform`. The modules have no
`undef`: a constant has one value, whenever it is read.
-/

namespace Carmor.Passes

/-- The name of an instruction or an argument. -/
abbrev ValueId := Nat
abbrev BlockId := Nat
/-- The position of a function in its module. -/
abbrev FunctionId := Nat

/-! ## Syntax -/

inductive Ty where
  | integer (bits : Nat)
  | pointer
  | void
  | other (index : Nat)
  deriving DecidableEq, Repr

namespace Ty

def isIntegerTy : Ty → Bool
  | .integer _ => true
  | _ => false

def isIntOrPtrTy : Ty → Bool
  | .integer _ => true
  | .pointer => true
  | _ => false

def isVoidTy : Ty → Bool
  | .void => true
  | _ => false

end Ty

inductive Value where
  | reg (x : ValueId)
  | constantInt (bits : Nat) (c : BitVec bits)
  | function (f : FunctionId)
  | constant (index : Nat)
  /-- A cast of one pointer type to another. -/
  | bitCast (v : Value)
  deriving DecidableEq, Repr

def Value.stripPointerCasts : Value → Value
  | .bitCast v => v.stripPointerCasts
  | v => v

inductive BinaryOp where
  | add
  | sub
  | mul
  | and
  | or
  | xor
  deriving DecidableEq, Repr

/-- The promises `nuw` and `nsw` of an arithmetic instruction. -/
structure Flags where
  nuw : Bool
  nsw : Bool
  deriving DecidableEq, Repr

def Flags.none : Flags := ⟨false, false⟩

/-- What an instruction computes. -/
inductive Rhs where
  | binary (op : BinaryOp) (flags : Flags) (a b : Value)
  /-- `icmp eq ty a, null`, where `ty` must be an integer or a pointer type. -/
  | isNull (ty : Ty) (a : Value)
  | call (callee : Value) (args : List Value)
  | other (index : Nat) (operands : List Value)
  deriving DecidableEq, Repr

structure Instruction where
  id : ValueId
  ty : Ty
  rhs : Rhs
  deriving DecidableEq, Repr

structure PHINode where
  id : ValueId
  ty : Ty
  incoming : List (BlockId × Value)
  deriving DecidableEq, Repr

inductive Terminator where
  | ret (v : Option Value)
  | br (dest : BlockId)
  | condBr (cond : Value) (ifTrue ifFalse : BlockId)
  | invoke (id : ValueId) (ty : Ty) (callee : Value) (args : List Value)
      (normal unwind : BlockId)
  | unreachable
  /-- `switch`, `resume` and the like. -/
  | other (index : Nat) (operands : List Value) (successors : List BlockId)
  deriving DecidableEq, Repr

def Terminator.successors : Terminator → List BlockId
  | .ret _ => []
  | .br dest => [dest]
  | .condBr _ ifTrue ifFalse => [ifTrue, ifFalse]
  | .invoke _ _ _ _ normal unwind => [normal, unwind]
  | .unreachable => []
  | .other _ _ successors => successors

/-- The name and the type of the value that a terminator defines. -/
def Terminator.result : Terminator → Option (ValueId × Ty)
  | .invoke id ty _ _ _ _ => some (id, ty)
  | _ => none

structure BasicBlock where
  id : BlockId
  phis : List PHINode
  body : List Instruction
  terminator : Terminator
  isLandingPad : Bool
  deriving DecidableEq, Repr

structure Function where
  name : String
  params : List (ValueId × Ty)
  /-- The blocks, the entry block first; a declaration has none. -/
  blocks : List BasicBlock
  deriving DecidableEq, Repr

namespace Function

def isDeclaration (F : Function) : Bool := F.blocks.isEmpty

def block (F : Function) (b : BlockId) : Option BasicBlock := F.blocks.find? fun B => B.id == b

end Function

structure Module where
  functions : List Function
  deriving DecidableEq, Repr

/-! ## Values at run time -/

inductive Val (π : Type) where
  | int (bits : Nat) (v : BitVec bits)
  | function (f : FunctionId)
  | other (p : π)
  | poison
  deriving DecidableEq, Repr

/-- Why a call does not return. -/
inductive Halt where
  /-- Undefined behaviour. -/
  | undefined
  /-- An exception leaves the function. -/
  | unwind
  /-- The program ends. -/
  | exit
  /-- The bound on calls and jumps of the model is exhausted. -/
  | outOfFuel
  deriving DecidableEq, Repr

/-- What a run records: the bodies that were entered and the calls that name their callee. -/
inductive Event where
  | entered (f : FunctionId)
  | direct (f : FunctionId)
  deriving DecidableEq, Repr

/-- The memory of the program, with the ghost trace of its run, latest event first. -/
structure State (σ : Type) where
  memory : σ
  trace : List Event
  deriving DecidableEq, Repr

abbrev Comp (σ α : Type) := EStateM Halt (State σ) α

/-- What the passes leave to the machine and to the other modules. -/
structure Platform (π σ : Type) where
  constant : Nat → Val π
  /-- A pointer is null. -/
  isNull : π → Bool
  /-- A binary operator on operands that are not integers. -/
  binary : BinaryOp → Flags → Ty → Val π → Val π → Val π
  other : Nat → List (Val π) → EStateM Halt σ (Option (Val π))
  /-- The position of the successor to which a terminator branches. -/
  branch : Nat → List (Val π) → EStateM Halt σ Nat
  external : FunctionId → List (Val π) → EStateM Halt σ (Option (Val π))

/-- A platform with integers only. -/
def Platform.bare : Platform Empty Unit where
  constant _ := .poison
  isNull _ := false
  binary _ _ _ _ _ := .poison
  other _ _ := throw .undefined
  branch _ _ := throw .undefined
  external _ _ := throw .undefined

abbrev Env (π : Type) := ValueId → Option (Val π)

variable {π σ α : Type}

namespace Env

def empty : Env π := fun _ => none

def set (env : Env π) (x : ValueId) (v : Val π) : Env π := fun y => if y = x then some v else env y

def setAll (env : Env π) : List (ValueId × Val π) → Env π
  | [] => env
  | (x, v) :: rest => (env.setAll rest).set x v

@[simp] theorem set_self (env : Env π) (x : ValueId) (v : Val π) : env.set x v x = some v :=
  if_pos rfl

theorem set_of_ne (env : Env π) {x y : ValueId} (v : Val π) (h : y ≠ x) :
    env.set x v y = env y := if_neg h

@[simp] theorem setAll_nil (env : Env π) : env.setAll [] = env := rfl

@[simp] theorem setAll_cons (env : Env π) (x : ValueId) (v : Val π)
    (rest : List (ValueId × Val π)) :
    env.setAll ((x, v) :: rest) = (env.setAll rest).set x v := rfl

end Env

/-! ## Computations -/

/-- Run a part of the platform on the memory. -/
def lift (x : EStateM Halt σ α) : Comp σ α := fun s =>
  match x s.memory with
  | .ok a m => .ok a { s with memory := m }
  | .error e m => .error e { s with memory := m }

def require : Option α → Comp σ α
  | some a => pure a
  | none => throw .undefined

def record (e : Event) : Comp σ Unit := modify fun s => { s with trace := e :: s.trace }

/-- A call whose exceptions are caught. -/
def catchUnwind (x : Comp σ α) : Comp σ (Option α) := fun s =>
  match x s with
  | .ok a t => .ok (some a) t
  | .error .unwind t => .ok none t
  | .error e t => .error e t

/-! ## Instructions -/

section Semantics

variable (P : Platform π σ)

def Value.eval (env : Env π) : Value → Option (Val π)
  | .reg x => env x
  | .constantInt bits c => some (.int bits c)
  | .function f => some (.function f)
  | .constant k => some (P.constant k)
  | .bitCast v => v.eval env

def evalAll (env : Env π) : List Value → Option (List (Val π))
  | [] => some []
  | v :: vs =>
    match v.eval P env, evalAll env vs with
    | some x, some xs => some (x :: xs)
    | _, _ => none

namespace Val

def asInt (bits : Nat) : Val π → Option (BitVec bits)
  | .int n v => if h : n = bits then some (v.cast h) else none
  | _ => none

def asFunction : Val π → Option FunctionId
  | .function f => some f
  | _ => none

end Val

namespace BinaryOp

variable {bits : Nat}

def compute : BinaryOp → BitVec bits → BitVec bits → BitVec bits
  | .add, a, b => a + b
  | .sub, a, b => a - b
  | .mul, a, b => a * b
  | .and, a, b => a &&& b
  | .or, a, b => a ||| b
  | .xor, a, b => a ^^^ b

/-- The result breaks a promise of the instruction. -/
def breaks (flags : Flags) : BinaryOp → BitVec bits → BitVec bits → Bool
  | .add, a, b => flags.nuw && a.uaddOverflow b || flags.nsw && a.saddOverflow b
  | .sub, a, b => flags.nuw && a.usubOverflow b || flags.nsw && a.ssubOverflow b
  | .mul, a, b => flags.nuw && a.umulOverflow b || flags.nsw && a.smulOverflow b
  | _, _, _ => false

end BinaryOp

def evalBinary (op : BinaryOp) (flags : Flags) (ty : Ty) (x y : Val π) : Val π :=
  match ty with
  | .integer bits =>
    match x.asInt bits, y.asInt bits with
    | some a, some b => if op.breaks flags a b then .poison else .int bits (op.compute a b)
    | _, _ => .poison
  | ty => P.binary op flags ty x y

/-- The comparison is not well-formed for other types. -/
def evalIsNull (ty : Ty) (x : Val π) : Option (Val π) :=
  match ty with
  | .integer bits =>
    match x.asInt bits with
    | some v => some (.int 1 (BitVec.ofBool (v == 0)))
    | none => some .poison
  | .pointer =>
    match x with
    | .function _ => some (.int 1 0)
    | .other p => some (.int 1 (BitVec.ofBool (P.isNull p)))
    | _ => some .poison
  | _ => none

/-- What a call does: the function called, its arguments, and the value it returns. -/
abbrev Caller (π σ : Type) := FunctionId → List (Val π) → Comp σ (Option (Val π))

variable (call : Caller π σ)

/-- A call that names its callee is noted in the trace. -/
def noteDirect (callee : Value) : Comp σ Unit :=
  match callee.stripPointerCasts with
  | .function f => record (.direct f)
  | _ => pure ()

def execCall (env : Env π) (callee : Value) (args : List Value) : Comp σ (Option (Val π)) := do
  let f ← require ((callee.eval P env).bind Val.asFunction)
  let vs ← require (evalAll P env args)
  noteDirect callee
  call f vs

def Rhs.exec (env : Env π) (ty : Ty) : Rhs → Comp σ (Option (Val π))
  | .binary op flags a b => do
    let x ← require (a.eval P env)
    let y ← require (b.eval P env)
    return some (evalBinary P op flags ty x y)
  | .isNull ty a => do
    let x ← require (a.eval P env)
    let r ← require (evalIsNull P ty x)
    return some r
  | .call callee args => execCall P call env callee args
  | .other k operands => do
    let vs ← require (evalAll P env operands)
    lift (P.other k vs)

/-- Give the name `x` to a result, unless it is void. -/
def bindResult (ty : Ty) (x : ValueId) (env : Env π) (r : Option (Val π)) : Option (Env π) :=
  if ty.isVoidTy then some env else r.map (env.set x)

def Instruction.exec (env : Env π) (i : Instruction) : Comp σ (Env π) := do
  let r ← i.rhs.exec P call env i.ty
  require (bindResult i.ty i.id env r)

def execBody : List Instruction → Env π → Comp σ (Env π)
  | [], env => pure env
  | i :: is, env => do
    let env ← i.exec P call env
    execBody is env

/-! ## Blocks -/

def PHINode.value (p : PHINode) (prev : BlockId) : Option Value := p.incoming.lookup prev

/-- The phi nodes of a block are read together, before any of them is assigned. -/
def readPhis (prev : Option BlockId) (env : Env π) : List PHINode → Option (List (ValueId × Val π))
  | [] => some []
  | p :: ps =>
    match (prev.bind p.value).bind (·.eval P env), readPhis prev env ps with
    | some x, some xs => some ((p.id, x) :: xs)
    | _, _ => none

/-- Where a function stands between two blocks. -/
structure Config (π : Type) where
  prev : Option BlockId
  block : BlockId
  env : Env π

inductive Next (π : Type) where
  | goto (c : Config π)
  | ret (v : Option (Val π))

/-- Leave the block `b` for the block `dest`. -/
def jump (b : BlockId) (env : Env π) (dest : BlockId) : Next π := .goto ⟨some b, dest, env⟩

def Terminator.exec (b : BlockId) (env : Env π) : Terminator → Comp σ (Next π)
  | .ret none => return .ret none
  | .ret (some v) => do
    let x ← require (v.eval P env)
    return .ret (some x)
  | .br dest => return jump b env dest
  | .condBr cond ifTrue ifFalse => do
    let c ← require ((cond.eval P env).bind (Val.asInt 1))
    return jump b env (if c = 1 then ifTrue else ifFalse)
  | .invoke id ty callee args normal unwind => do
    match ← catchUnwind (execCall P call env callee args) with
    | some r =>
      let env ← require (bindResult ty id env r)
      return jump b env normal
    | none => return jump b env unwind
  | .unreachable => throw .undefined
  | .other k operands successors => do
    let vs ← require (evalAll P env operands)
    let n ← lift (P.branch k vs)
    let dest ← require successors[n]?
    return jump b env dest

def BasicBlock.exec (prev : Option BlockId) (env : Env π) (B : BasicBlock) : Comp σ (Next π) := do
  let xs ← require (readPhis P prev env B.phis)
  let env ← execBody P call B.body (env.setAll xs)
  B.terminator.exec P call B.id env

/-! ## Functions and modules -/

namespace Function

variable (F : Function)

def step (c : Config π) : Comp σ (Next π) := do
  let B ← require (F.block c.block)
  B.exec P call c.prev c.env

/-- Run from `c`, with at most `n` jumps. -/
def run : Nat → Config π → Comp σ (Option (Val π))
  | 0, c => do
    match ← F.step P call c with
    | .ret v => return v
    | .goto _ => throw .outOfFuel
  | n + 1, c => do
    match ← F.step P call c with
    | .ret v => return v
    | .goto c => run n c

def bindParams (vs : List (Val π)) : Option (Env π) :=
  if vs.length = F.params.length then some (Env.empty.setAll ((F.params.map Prod.fst).zip vs))
  else none

/-- Where a call of the function starts. -/
def start (vs : List (Val π)) : Option (Config π) :=
  match F.blocks.head?, F.bindParams vs with
  | some B, some env => some ⟨none, B.id, env⟩
  | _, _ => none

end Function

/-- Call the function `f`: `body` runs the body of a definition. -/
def Module.enter (M : Module) (body : FunctionId → Function → List (Val π) → Comp σ (Option (Val π))) :
    Caller π σ := fun f vs =>
  match M.functions[f]? with
  | none => throw .undefined
  | some F => if F.isDeclaration then lift (P.external f vs) else body f F vs

/-- Call a function of the module, with calls nested at most `n` deep. -/
def Module.callFunction (M : Module) : Nat → Caller π σ
  | 0 => M.enter P fun _ _ _ => throw .outOfFuel
  | n + 1 => M.enter P fun f F vs => do
    let c ← require (F.start vs)
    record (.entered f)
    F.run P (callFunction M n) n c

end Semantics

end Carmor.Passes
