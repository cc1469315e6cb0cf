import Carmor.Passes.Ir

/-!
# Call counters

`passes/lib/StaticCallCounter.cpp` counts the places of a module that call a function by its name;
`passes/lib/DynamicCallCounter.cpp` adds calls of the routine `lt_RUNTIME_incrCC` of
`passes/lib/DynamicCallCounterRT.cpp`, which counts at run time, and a table for it. A function is
known by its position, which is its entry in `IDs`.
-/

namespace Carmor.Passes

/-! ## Call sites -/

/-- `getCalledValue`, for the instructions that are call sites. -/
def Rhs.calledValue : Rhs → Option Value
  | .call callee _ => some callee
  | _ => none

def Terminator.calledValue : Terminator → Option Value
  | .invoke _ _ callee _ _ _ => some callee
  | _ => none

/-- `dyn_cast<Function>`. -/
def Value.asFunction : Value → Option FunctionId
  | .function f => some f
  | _ => none

/-- The function that a call site invokes directly. -/
def directCallee (called : Option Value) : Option FunctionId :=
  called.bind fun v => v.stripPointerCasts.asFunction

/-- The instructions of a block by what they call; phi nodes call nothing. -/
def BasicBlock.calledValues (B : BasicBlock) : List (Option Value) :=
  B.body.map (fun i => i.rhs.calledValue) ++ [B.terminator.calledValue]

/-! ## Printing -/

/-- `%-ns`, of a string or of the digits of a number. -/
def padRight (n : Nat) (s : String) : String :=
  s ++ String.ofList (List.replicate (n - s.utf8ByteSize) ' ')

def formatLine (name : String) (count : Nat) : String :=
  padRight 20 name ++ " " ++ padRight 10 (toString count)

def rule : String := String.ofList (List.replicate 49 '-')

def doubleRule : String := String.ofList (List.replicate 49 '=')

def heading (title : String) : List String :=
  [doubleRule, title, doubleRule, padRight 20 "NAME" ++ " " ++ padRight 10 "#N DIRECT CALLS", rule]

/-! ## The static counter -/

namespace StaticCallCounter

/-- `ResultStaticCC`, a map from functions to numbers of the type `unsigned`. -/
abbrev Result := List (FunctionId × BitVec 32)

/-- `++CallCount->second`, after an entry for a new function. -/
def increment (Res : Result) (f : FunctionId) : Result :=
  let Res := if (Res.lookup f).isNone then Res ++ [(f, 0)] else Res
  Res.map fun e => if e.1 = f then (e.1, e.2 + 1) else e

def countCallSite (Res : Result) (called : Option Value) : Result :=
  match directCallee called with
  | none => Res
  | some f => increment Res f

def runOnModule (M : Module) : Result :=
  M.functions.foldl (fun Res F =>
    F.blocks.foldl (fun Res B => B.calledValues.foldl countCallSite Res) Res) []

def nameOf (M : Module) (f : FunctionId) : String := (M.functions[f]?.map Function.name).getD ""

/-- `printStaticCCResult`. -/
def printStaticCCResult (M : Module) (DirectCalls : Result) : List String :=
  let FuncNames := (DirectCalls.map Prod.fst).mergeSort fun f g => nameOf M f ≤ nameOf M g
  heading "LLVM-TUTOR: static analysis results" ++
    FuncNames.map fun f => formatLine (nameOf M f) ((DirectCalls.lookup f).getD 0).toNat

end StaticCallCounter

/-! ## The dynamic counter -/

/-- An entry of `lt_RUNTIME_functionInfo`. -/
structure FunctionInfo where
  name : String
  count : BitVec 64
  deriving DecidableEq, Repr

namespace DynamicCallCounter

def computeFunctionIDs (M : Module) (f : FunctionId) : Option Nat :=
  if f < M.functions.length then some f else none

/-- `computeInternalFuncs`: the functions that are defined in the module. -/
def isInternal (M : Module) (f : FunctionId) : Bool :=
  match M.functions[f]? with
  | some F => !F.isDeclaration
  | none => false

def createGlobalFunctionTable (M : Module) : List FunctionInfo :=
  M.functions.map fun F => ⟨F.name, 0⟩

def getOrInsertFunction (M : Module) (name : String) (params : List (ValueId × Ty)) :
    FunctionId × Module :=
  match M.functions.findIdx? fun F => F.name == name with
  | some f => (f, M)
  | none => (M.functions.length, ⟨M.functions ++ [⟨name, params, []⟩]⟩)

/-- `CreateCall(IncrCC, getInt64(id))`. The call is void, so that its name does not matter. -/
def createCall (IncrCC : FunctionId) (id : Nat) : Instruction :=
  ⟨0, .void, .call (.function IncrCC) [.constantInt 64 (BitVec.ofNat 64 id)]⟩

/-- The position of `getFirstInsertionPt` behind the phi nodes. -/
def firstInsertionPt (B : BasicBlock) : Nat := if B.isLandingPad then 1 else 0

def installIncrCC (IncrCC : FunctionId) (f : FunctionId) (F : Function) : Function :=
  match F.blocks with
  | [] => F
  | B :: Bs =>
    let n := firstInsertionPt B
    { F with blocks :=
        { B with body := B.body.take n ++ createCall IncrCC f :: B.body.drop n } :: Bs }

/-- What `installCCInstruction` inserts before an instruction. -/
def installCCInstruction (M : Module) (IncrCC : FunctionId) (called : Option Value) :
    List Instruction :=
  match directCallee called with
  | none => []
  | some f =>
    if isInternal M f then []
    else
      match computeFunctionIDs M f with
      | none => []
      | some id => [createCall IncrCC id]

/-- The loop over the instructions of a block. -/
def instrumentBlock (M : Module) (IncrCC : FunctionId) (B : BasicBlock) : BasicBlock :=
  { B with
    body := B.body.flatMap (fun i => installCCInstruction M IncrCC i.rhs.calledValue ++ [i]) ++
      installCCInstruction M IncrCC B.terminator.calledValue }

def instrument (M : Module) (IncrCC : FunctionId) (f : FunctionId) (F : Function) : Function :=
  if F.isDeclaration then F
  else
    let F := installIncrCC IncrCC f F
    { F with blocks := F.blocks.map (instrumentBlock M IncrCC) }

/-- The module after the pass, with the global variables and the destructor it has added. -/
structure Instrumented where
  module : Module
  numFunctions : BitVec 64
  functionInfo : List FunctionInfo
  globalDtors : List FunctionId
  deriving DecidableEq, Repr

/-- `runOnModule`, with the module it leaves. It reports a change in any case. -/
def runOnModule (M : Module) : Bool × Instrumented :=
  let n := M.functions.length
  let (IncrCC, M₁) := getOrInsertFunction M "lt_RUNTIME_incrCC" [(0, .integer 64)]
  let (ResPrintFunc, M₂) := getOrInsertFunction M₁ "lt_RUNTIME_print" []
  let functions := M₂.functions.mapIdx fun f F => if f < n then instrument M IncrCC f F else F
  (true,
    { module := ⟨functions⟩
      numFunctions := BitVec.ofNat 64 n
      functionInfo := createGlobalFunctionTable M
      globalDtors := [ResPrintFunc] })

end DynamicCallCounter

/-! ## The runtime library -/

namespace DynamicCallCounterRT

/-- An index out of the table is undefined. -/
def lt_RUNTIME_incrCC (id : BitVec 64) : EStateM Halt (List FunctionInfo) Unit := fun table =>
  match table[id.toNat]? with
  | none => .error .undefined table
  | some info => .ok () (table.set id.toNat { info with count := info.count + 1 })

/-- The loop of `lt_RUNTIME_print` from `id` on, with `n` entries to print. -/
def printLoop (table : List FunctionInfo) : Nat → Nat → Option (List String)
  | _, 0 => some []
  | id, n + 1 => do
    let info ← table[id]?
    let rest ← printLoop table (id + 1) n
    return formatLine info.name info.count.toNat :: rest

/-- The lines printed, if no index is out of the table. -/
def lt_RUNTIME_print (numFunctions : BitVec 64) (table : List FunctionInfo) :
    Option (List String) := do
  let lines ← printLoop table 0 numFunctions.toNat
  return heading "LLVM-TUTOR: dynamic analysis results" ++ lines ++ [rule]

end DynamicCallCounterRT

variable {π σ τ α : Type}

/-- A computation on the first part of the memory. -/
def onFst (x : EStateM Halt σ α) : EStateM Halt (σ × τ) α := fun s =>
  match x s.1 with
  | .ok a m => .ok a (m, s.2)
  | .error e m => .error e (m, s.2)

/-- A computation on the second part of the memory. -/
def onSnd (x : EStateM Halt τ α) : EStateM Halt (σ × τ) α := fun s =>
  match x s.2 with
  | .ok a m => .ok a (s.1, m)
  | .error e m => .error e (s.1, m)

/-- The platform with the runtime library linked to it; only `lt_RUNTIME_incrCC` touches the
table. -/
def Platform.withRuntime (P : Platform π σ) (IncrCC : FunctionId) :
    Platform π (σ × List FunctionInfo) where
  constant := P.constant
  isNull := P.isNull
  binary := P.binary
  other k vs := onFst (P.other k vs)
  branch k vs := onFst (P.branch k vs)
  external f vs :=
    if f = IncrCC then
      match vs.head?.bind (Val.asInt 64) with
      | some id => do
        onSnd (DynamicCallCounterRT.lt_RUNTIME_incrCC id)
        return none
      | none => throw .undefined
    else onFst (P.external f vs)

end Carmor.Passes
