import Carmor.Bulk

/-!
# Allocation

The allocation templates of `mem/armor_runtime.cpp`, instantiated for a store `s`, and
`__carmor_free` and `__carmor_realloc`, which select the store by the pointer's tag.
-/

namespace Carmor

variable {σ : Type}

/-! ## Callbacks that allocate -/

/-- `_N_lstore_alloc`. -/
def lstoreAlloc (env : Env σ) (s : StoreId) (size : SizeT) : Exec σ Uintptr := do
  let res ← callStore ((env.stores s).lstoreAlloc size)
  record (.lstoreAlloc s size res)
  return res

/-- `_N_lstore_alloc_size`. -/
def lstoreAllocSize (env : Env σ) (s : StoreId) (ptr : Uintptr) : Exec σ SizeT := do
  record (.lstoreAllocSize s ptr)
  callStore ((env.stores s).lstoreAllocSize ptr)

/-- `_N_lstore_free`. -/
def lstoreFree (env : Env σ) (s : StoreId) (ptr : Uintptr) : Exec σ Unit := do
  record (.lstoreFree s ptr)
  callStore ((env.stores s).lstoreFree ptr)

/-- `malloc` of libc. -/
def libcMalloc (env : Env σ) (size : SizeT) : Exec σ Uintptr := do
  let res ← callStore (env.libc.malloc size)
  record (.malloc size res)
  return res

/-- `realloc` of libc. -/
def libcRealloc (env : Env σ) (ptr : Uintptr) (size : SizeT) : Exec σ Uintptr := do
  let res ← callStore (env.libc.realloc ptr size)
  record (.realloc ptr size res)
  return res

/-- `free` of libc. -/
def libcFree (env : Env σ) (ptr : Uintptr) : Exec σ Unit := do
  record (.free ptr)
  callStore (env.libc.free ptr)

/-! ## The runtime's functions -/

/-- `__carmor_malloc_template`. -/
def carmorMallocTemplate (env : Env σ) (s : StoreId) (size : SizeT) : Exec σ Uintptr :=
  let st := env.stores s
  if size < st.lstoreGetMinSize ∨ st.lstoreGetMaxSize ≤ size then
    libcMalloc env size
  else do
    let bsPtr ← lstoreAlloc env s size
    return st.lstoreTag bsPtr

/-- `__carmor_calloc_template`. -/
def carmorCallocTemplate (env : Env σ) (s : StoreId) (fuel : Nat)
    (numOfElements elementsSize : SizeT) : Exec σ Uintptr := do
  let ptr ← carmorMallocTemplate env s (numOfElements * elementsSize)
  let _ ← carmorMemset env fuel ptr 0 (numOfElements * elementsSize)
  return ptr

/-- `bs_aligned_mem` of `__carmor_memalign_template`. -/
def bsAlignedMem (bsMem : Uintptr) (alignment : SizeT) : Uintptr :=
  let mem := bsMem + 8
  mem + ((alignment - (mem &&& (alignment - 1))) &&& (alignment - 1))

/-- `*(void**)p = v`, least significant byte first. -/
def storePointer (mem : Memory) (p v : Uintptr) : Memory := fun a =>
  if (a - p).toNat < 8 then (v >>> (8 * (a - p).toNat)).setWidth 8 else mem a

/-- `__carmor_memalign_template`. -/
def carmorMemalignTemplate (env : Env σ) (s : StoreId) (alignment n : SizeT) :
    Exec σ Uintptr := do
  let bsMem ← lstoreAlloc env s (n + (alignment - 1) + 8)
  if bsMem = 0 then
    return 0
  else
    let mem := bsAlignedMem bsMem alignment
    onMem fun m => ((), storePointer m (mem - 8) bsMem)
    return (env.stores s).lstoreTag mem

/-- `__carmor_free`. -/
def carmorFree (env : Env σ) (p : Uintptr) : Exec σ Unit :=
  if !isCarmorPtr p then
    libcFree env p
  else
    match switchCase p with
    | some s => lstoreFree env s (makeOriginalPointer p)
    | none => throw .abort

/-- `__carmor_realloc`. The block size is kept in an `int`, which the comparison with `size`
converts to `size_t`. -/
def carmorRealloc (env : Env σ) (fuel : Nat) (ptr : Uintptr) (size : SizeT) :
    Exec σ Uintptr :=
  if !isCarmorPtr ptr then
    libcRealloc env ptr size
  else
    match switchCase ptr with
    | none => throw .abort
    | some s => do
        let origPtrSize := toInt32 (← lstoreAllocSize env s (makeOriginalPointer ptr))
        if size ≤ BitVec.ofInt 64 origPtrSize then
          return ptr
        else
          let res := makeMstorePtr s (← lstoreAlloc env s size)
          let _ ← carmorMemcpy env fuel res ptr (BitVec.ofInt 64 origPtrSize)
          carmorFree env ptr
          return res

end Carmor
