import Carmor.Pointer
import Carmor.Lib.Exec

/-!
# Stores, threads and the calls between them

A store is a set of callbacks that the compiler installs at one of the four positions; the
code of the stores is not part of the runtime, so the callbacks are parameters. They act on a
`Machine`: the memory and the stores' own state. The thread-local variables of
`mem/armor_runtime.cpp` form a `Thread`, and its functions act on a `World`, a machine seen by one
thread.

`trace` is ghost state: it lists the calls a thread has made, the latest first.
-/

namespace Carmor

abbrev Memory := Uintptr → Byte

/-- `TLB_SIZE`. -/
def tlbSize : Nat := 5

/-- `struct s_victim_cache`. The signed `bs_page_index` is kept as its 32 bits. -/
structure TlbEntry where
  bsPageIndex : BitVec 32
  epcPageIndex : BitVec 16
  isDirty : Byte
  deriving DecidableEq, Repr

/-- A TLB array, such as `gt_TLB`. -/
structure Tlb where
  entries : List TlbEntry
  length_eq : entries.length = tlbSize

/-- The array that `lstore_get_tlb` returns: the thread's `gt_TLB` for an instance of
`lstore_get_tlb_template`, or an array of the store's own. -/
inductive TlbRef where
  | gtTLB
  | own (s : StoreId)
  deriving DecidableEq, Repr

/-- Memory and the state of the stores and of libc. -/
structure Machine (σ : Type) where
  mem : Memory
  store : σ

/-- Calls recorded in a thread's trace. `tlbHit` and the last field of `notifyTlbDropped` name
the TLB entry concerned; `func` records a chunk function together with the cursors of
`__carmor_mem_wrapper` and the stores' state at the call. -/
inductive Event (σ : Type) where
  | tlbHit (s : StoreId) (entry : TlbEntry)
  | mpfHandlerC (s : StoreId) (ptr res : Uintptr)
  | notifyTlbDropped (s : StoreId) (ptr : Uintptr) (dirty : Bool) (evicted : TlbEntry)
  | notifyTlbCached (s : StoreId) (ptr : Uintptr)
  | mpfHandlerD (s : StoreId) (ptr dst : Uintptr) (size : SizeT)
  | lstoreWriteBack (s : StoreId) (ptr src : Uintptr) (size : SizeT)
  | pageFault (ptr : Uintptr) (dirty : Byte)
  | func (store : σ) (vl0 vr0 vl1 vr1 : Uintptr) (n : SizeT)
  | funcSingle (store : σ) (dst0 dstOrig : Uintptr) (n : SizeT)
  | lstoreAlloc (s : StoreId) (size : SizeT) (res : Uintptr)
  | lstoreAllocSize (s : StoreId) (ptr : Uintptr)
  | lstoreFree (s : StoreId) (ptr : Uintptr)
  | malloc (size : SizeT) (res : Uintptr)
  | realloc (ptr : Uintptr) (size : SizeT) (res : Uintptr)
  | free (ptr : Uintptr)

/-- The `__thread` variables of the runtime. The bytes of `gt_CrossPageBuffer` are in memory. -/
structure Thread (σ : Type) where
  tlb : TlbRef → Tlb
  gtDirectBuffer : Uintptr
  gtCrosspageAccess : Uintptr
  gtCrosspageAccessSize : Int
  trace : List (Event σ)

/-- A machine as one thread sees it. -/
structure World (σ : Type) extends Machine σ, Thread σ

/-- How a call can fail to return. -/
inductive Stop where
  /-- `abort()`, such as the `default` of a switch on the tag. -/
  | abort
  /-- A failed `ASSERT`. -/
  | assertFailed
  /-- An integer division by zero. -/
  | divisionByZero
  /-- The iteration bound of a loop of the model is exhausted. -/
  | outOfFuel
  deriving DecidableEq, Repr

/-- A computation of the runtime. -/
abbrev Exec (σ : Type) := EStateM Stop (World σ)

/-- A computation of a store. -/
abbrev StoreExec (σ : Type) := EStateM Stop (Machine σ)

/-- A store's callbacks, and the functions with its number in their names, which the compiler
instantiates from the runtime's templates. -/
structure LStore (σ : Type) where
  lstoreInit : Uintptr → StoreExec σ Int
  lstoreIsDirect : Bool
  lstoreGetMpageSize : SizeT
  lstoreGetMpageBits : Nat
  lstoreGetMpageCacheBasePtr : Uintptr
  lstoreGetMstoragePage : Uintptr → Uintptr
  lstoreGetTlb : TlbRef
  lstoreGetMinSize : SizeT
  lstoreGetMaxSize : SizeT
  lstoreTag : Uintptr → Uintptr
  notifyTlbCached : Uintptr → StoreExec σ Unit
  notifyTlbDropped : Uintptr → Bool → StoreExec σ Unit
  mpfHandlerC : Uintptr → StoreExec σ Uintptr
  mpfHandlerD : Uintptr → Uintptr → SizeT → StoreExec σ Unit
  lstoreWriteBack : Uintptr → Uintptr → SizeT → StoreExec σ Unit
  lstoreAlloc : SizeT → StoreExec σ Uintptr
  lstoreAllocSize : Uintptr → StoreExec σ SizeT
  lstoreFree : Uintptr → StoreExec σ Unit
  carmorLink : Uintptr → Int → Byte → Byte → Exec σ Uintptr
  carmorGetValidIterations : Uintptr → Uintptr → BitVec 64 → Int → Exec σ Int
  carmorWritebackDirect : Uintptr → Int → Exec σ Unit

/-- The allocation functions of libc. -/
structure Libc (σ : Type) where
  malloc : SizeT → StoreExec σ Uintptr
  realloc : Uintptr → SizeT → StoreExec σ Uintptr
  free : Uintptr → StoreExec σ Unit
  memalign : SizeT → SizeT → StoreExec σ Uintptr

/-- What the runtime is linked with. -/
structure Env (σ : Type) where
  stores : StoreId → LStore σ
  libc : Libc σ
  /-- The address of the thread's `gt_CrossPageBuffer`. -/
  gtCrossPageBuffer : Uintptr

/-! ## Primitive steps -/

variable {σ α : Type}

namespace World

/-- The world after a callback has changed the machine. -/
def withMachine (w : World σ) (m : Machine σ) : World σ := { w with toMachine := m }

/-- The world after the array `r` has been assigned. -/
def withTlb (w : World σ) (r : TlbRef) (t : Tlb) : World σ :=
  { w with tlb := fun q => if q = r then t else w.tlb q }

/-- The world after a libc function has changed memory. -/
def withMem (w : World σ) (mem : Memory) : World σ := { w with mem := mem }

/-- The world after the pending cross-page access has been assigned. -/
def withCrosspage (w : World σ) (access : Uintptr) (size : Int) : World σ :=
  { w with gtCrosspageAccess := access, gtCrosspageAccessSize := size }

/-- The world after a call has been added to the ghost trace. -/
def log (w : World σ) (e : Event σ) : World σ := { w with trace := e :: w.trace }

section Fields

variable (w : World σ) (m : Machine σ) (r : TlbRef) (t : Tlb) (mem : Memory) (p : Uintptr) (n : Int)
  (e : Event σ)

@[simp] theorem withMachine_toMachine : (w.withMachine m).toMachine = m := rfl
@[simp] theorem withMachine_mem : (w.withMachine m).mem = m.mem := rfl
@[simp] theorem withMachine_store : (w.withMachine m).store = m.store := rfl
@[simp] theorem withMachine_tlb : (w.withMachine m).tlb = w.tlb := rfl
@[simp] theorem withMachine_trace : (w.withMachine m).trace = w.trace := rfl
@[simp] theorem withMachine_gtCrosspageAccess :
    (w.withMachine m).gtCrosspageAccess = w.gtCrosspageAccess := rfl
@[simp] theorem withMachine_gtCrosspageAccessSize :
    (w.withMachine m).gtCrosspageAccessSize = w.gtCrosspageAccessSize := rfl

@[simp] theorem withTlb_toMachine : (w.withTlb r t).toMachine = w.toMachine := rfl
@[simp] theorem withTlb_mem : (w.withTlb r t).mem = w.mem := rfl
@[simp] theorem withTlb_store : (w.withTlb r t).store = w.store := rfl
@[simp] theorem withTlb_tlb_self : (w.withTlb r t).tlb r = t := if_pos rfl
theorem withTlb_tlb_ne {q : TlbRef} (h : q ≠ r) : (w.withTlb r t).tlb q = w.tlb q := if_neg h
@[simp] theorem withTlb_trace : (w.withTlb r t).trace = w.trace := rfl
@[simp] theorem withTlb_gtCrosspageAccess :
    (w.withTlb r t).gtCrosspageAccess = w.gtCrosspageAccess := rfl
@[simp] theorem withTlb_gtCrosspageAccessSize :
    (w.withTlb r t).gtCrosspageAccessSize = w.gtCrosspageAccessSize := rfl

@[simp] theorem withMem_mem : (w.withMem mem).mem = mem := rfl
@[simp] theorem withMem_store : (w.withMem mem).store = w.store := rfl
@[simp] theorem withMem_tlb : (w.withMem mem).tlb = w.tlb := rfl
@[simp] theorem withMem_trace : (w.withMem mem).trace = w.trace := rfl
@[simp] theorem withMem_gtCrosspageAccess :
    (w.withMem mem).gtCrosspageAccess = w.gtCrosspageAccess := rfl
@[simp] theorem withMem_gtCrosspageAccessSize :
    (w.withMem mem).gtCrosspageAccessSize = w.gtCrosspageAccessSize := rfl

@[simp] theorem withCrosspage_toMachine : (w.withCrosspage p n).toMachine = w.toMachine := rfl
@[simp] theorem withCrosspage_mem : (w.withCrosspage p n).mem = w.mem := rfl
@[simp] theorem withCrosspage_store : (w.withCrosspage p n).store = w.store := rfl
@[simp] theorem withCrosspage_tlb : (w.withCrosspage p n).tlb = w.tlb := rfl
@[simp] theorem withCrosspage_trace : (w.withCrosspage p n).trace = w.trace := rfl
@[simp] theorem withCrosspage_gtCrosspageAccess : (w.withCrosspage p n).gtCrosspageAccess = p := rfl
@[simp] theorem withCrosspage_gtCrosspageAccessSize :
    (w.withCrosspage p n).gtCrosspageAccessSize = n := rfl

@[simp] theorem log_toMachine : (w.log e).toMachine = w.toMachine := rfl
@[simp] theorem log_mem : (w.log e).mem = w.mem := rfl
@[simp] theorem log_store : (w.log e).store = w.store := rfl
@[simp] theorem log_tlb : (w.log e).tlb = w.tlb := rfl
@[simp] theorem log_trace : (w.log e).trace = e :: w.trace := rfl
@[simp] theorem log_gtCrosspageAccess : (w.log e).gtCrosspageAccess = w.gtCrosspageAccess := rfl
@[simp] theorem log_gtCrosspageAccessSize :
    (w.log e).gtCrosspageAccessSize = w.gtCrosspageAccessSize := rfl

end Fields

end World

/-- Run a callback on the machine. -/
def callStore (f : StoreExec σ α) : Exec σ α := fun w =>
  match f w.toMachine with
  | .ok a m => .ok a (w.withMachine m)
  | .error e m => .error e (w.withMachine m)

/-- Add a call to the ghost trace. -/
def record (e : Event σ) : Exec σ Unit := modify fun w => w.log e

/-- `ASSERT(cond)`. -/
def cAssert (cond : Bool) : Exec σ Unit := if cond then pure () else throw .assertFailed

def getTlb (r : TlbRef) : Exec σ Tlb := do return (← get).tlb r

def setTlb (r : TlbRef) (t : Tlb) : Exec σ Unit := modify fun w => w.withTlb r t

/-- Run a function of libc that acts on memory only, such as `memcpy`. -/
def onMem (f : Memory → α × Memory) : Exec σ α := fun w => .ok (f w.mem).1 (w.withMem (f w.mem).2)

/-- Assign `gt_crosspage_access` and `gt_crosspage_access_size`. -/
def setCrosspage (access : Uintptr) (size : Int) : Exec σ Unit :=
  modify fun w => w.withCrosspage access size

section Apply

variable (w : World σ)

theorem callStore_of_ok {f : StoreExec σ α} {w : World σ} {a : α} {m : Machine σ}
    (h : f w.toMachine = .ok a m) : callStore f w = .ok a (w.withMachine m) := by
  rw [callStore, h]

theorem callStore_eq_ok {f : StoreExec σ α} {w w' : World σ} {a : α} :
    callStore f w = .ok a w' ↔ ∃ m, f w.toMachine = .ok a m ∧ w' = w.withMachine m := by
  rw [callStore]
  cases f w.toMachine with
  | ok b m => simp [eq_comm]
  | error e m => simp

@[simp] theorem record_apply (e : Event σ) : record e w = .ok () (w.log e) := rfl

@[simp] theorem cAssert_true : (cAssert true : Exec σ Unit) w = .ok () w := rfl

@[simp] theorem cAssert_false : (cAssert false : Exec σ Unit) w = .error .assertFailed w := rfl

theorem cAssert_eq_ok {c : Bool} {w w' : World σ} :
    (cAssert c : Exec σ Unit) w = .ok () w' ↔ c = true ∧ w' = w := by
  cases c <;> simp [eq_comm]

@[simp] theorem getTlb_apply (r : TlbRef) : getTlb r w = .ok (w.tlb r) w := rfl

@[simp] theorem setTlb_apply (r : TlbRef) (t : Tlb) : setTlb r t w = .ok () (w.withTlb r t) := rfl

@[simp] theorem onMem_apply (f : Memory → α × Memory) :
    onMem f w = .ok (f w.mem).1 (w.withMem (f w.mem).2) := rfl

@[simp] theorem setCrosspage_apply (p : Uintptr) (n : Int) :
    setCrosspage p n w = .ok () (w.withCrosspage p n) := rfl

@[simp] theorem get_apply : (get : Exec σ (World σ)) w = .ok w w := rfl

end Apply

end Carmor
