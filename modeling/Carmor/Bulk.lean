import Carmor.Link

/-!
# Dispatch on the tag and bulk memory operations

The functions of `mem/armor_runtime.cpp` that select a store's instance by a pointer's tag, and
the memory intrinsics:
`__carmor_mem_wrapper` and `__carmor_mem_wrapper_single` walk over one or two ranges in chunks
that stay inside a page of each tagged operand and call a libc function on every chunk. The
`while` loops take a bound on their iterations.
-/

namespace Carmor

variable {σ : Type}

/-! ## Dispatch -/

/-- `__carmor_get_valid_iterations_generic`. -/
def carmorGetValidIterationsGeneric (env : Env σ) (unlinkedPtr ptr : Uintptr)
    (stepVal : BitVec 64) (ptrSize : Int) : Exec σ Int :=
  if !isCarmorPtr unlinkedPtr then
    return 1 <<< 30
  else
    match switchCase unlinkedPtr with
    | some s => (env.stores s).carmorGetValidIterations unlinkedPtr ptr stepVal ptrSize
    | none => throw .abort

/-- `__carmor_writeback_generic`. -/
def carmorWritebackGeneric (env : Env σ) (ptr : Uintptr) (ptrSize : Int) : Exec σ Unit :=
  if !isCarmorPtr ptr then
    return ()
  else
    match switchCase ptr with
    | some s => (env.stores s).carmorWritebackDirect ptr ptrSize
    | none => throw .abort

/-- `__carmor_link_generic`. -/
def carmorLinkGeneric (env : Env σ) (ptr : Uintptr) (ptrSize : Int)
    (isVectorType dirty : Byte) : Exec σ Uintptr :=
  if !isCarmorPtr ptr then
    return ptr
  else
    match switchCase ptr with
    | some s => (env.stores s).carmorLink ptr ptrSize isVectorType dirty
    | none => throw .abort

/-- `lstore_type_is_direct`. -/
def lstoreTypeIsDirect (env : Env σ) (ptr : Uintptr) : Exec σ Bool :=
  match switchCase ptr with
  | some s => return (env.stores s).lstoreIsDirect
  | none => throw .abort

/-- `get_lstore_parameters`: the cache base and the page size of the pointer's store. The
`case` of store 3 has no `break` and runs into `default`. -/
def getLstoreParameters (env : Env σ) (ptr : Uintptr) : Exec σ (Uintptr × SizeT) :=
  let parameters (st : LStore σ) := (st.lstoreGetMpageCacheBasePtr, st.lstoreGetMpageSize)
  match switchCase ptr with
  | some .lstore0 => return parameters (env.stores .lstore0)
  | some .lstore1 => return parameters (env.stores .lstore1)
  | some .lstore2 => return parameters (env.stores .lstore2)
  | some .lstore3 => throw .abort
  | none => throw .abort

/-! ## `__carmor_mem_wrapper` -/

/-- `t_mem_function`, a function of libc on two ranges of memory. -/
abbrev MemFunction := Uintptr → Uintptr → SizeT → Memory → Int × Memory

/-- An operand of `__carmor_mem_wrapper`: its dirty flag, and its store's parameters if the
pointer is tagged (the locals are not set, and not read, for a native operand). -/
structure Operand where
  dirty : Byte
  params : Option (Uintptr × SizeT)

/-- `vl_linked`. -/
def Operand.linked (o : Operand) : Bool := o.params.isSome

/-- `left_in_vl`: the bytes from the linked address to the end of its page. -/
def Operand.leftIn (o : Operand) (linkedPtr : Uintptr) : Int :=
  match o.params with
  | some (baseAddr, blockSize) =>
      let blockOffsetMask : Unsigned := (blockSize - 1).setWidth 32
      let pageOffset := toInt32 ((linkedPtr - baseAddr) &&& blockOffsetMask.setWidth 64)
      toInt32 (blockSize - BitVec.ofInt 64 pageOffset)
  | none => 1 <<< 30

/-- The arguments and locals of `__carmor_mem_wrapper` that its loop does not change. -/
structure BulkOp where
  vl : Operand
  vr : Operand
  isLstoreDirect : Bool
  func : MemFunction
  partialReturn : Bool

/-- A call of `func` on a chunk. -/
def callFunc (b : BulkOp) (vl0 vr0 vl1 vr1 : Uintptr) (n : SizeT) : Exec σ Int := do
  record (.func (← get).store vl0 vr0 vl1 vr1 n)
  onMem (b.func vl0 vr0 n)

/-- The write-back of an operand after a chunk. -/
def writebackOperand (env : Env σ) (o : Operand) (ptr : Uintptr) : Exec σ Unit :=
  match o.params with
  | some (_, blockSize) =>
      if o.dirty ≠ 0 then carmorWritebackGeneric env ptr (toInt32 blockSize) else return ()
  | none => return ()

/-- The write-back step after a chunk. -/
def writebackChunk (env : Env σ) (b : BulkOp) (vl1 vr1 : Uintptr) : Exec σ Unit :=
  if b.isLstoreDirect then do
    writebackOperand env b.vl vl1
    writebackOperand env b.vr vr1
  else
    return ()

/-- An operand's linked address after a chunk that is not the last: a page fault if the chunk
ended with the operand's page. -/
def advanceLinked (env : Env σ) (o : Operand) (left minLeft : Int)
    (linkedPtr unlinkedPtr : Uintptr) : Exec σ Uintptr :=
  if minLeft = left ∧ o.linked then
    carmorPageFault env unlinkedPtr o.dirty
  else
    return linkedPtr + BitVec.ofInt 64 minLeft

/-- The loop of `__carmor_mem_wrapper`. -/
def memWrapperLoop (env : Env σ) (b : BulkOp) :
    Nat → Int → Uintptr → Uintptr → Uintptr → Uintptr → Exec σ Int
  | 0, _, _, _, _, _ => throw .outOfFuel
  | fuel + 1, ctr, vl0, vr0, vl1, vr1 =>
      if 0 < ctr then
        let leftInVr := b.vr.leftIn vr0
        let leftInVl := b.vl.leftIn vl0
        let minLeft := if leftInVr < leftInVl then leftInVr else leftInVl
        if minLeft < ctr then do
          let res ← callFunc b vl0 vr0 vl1 vr1 (BitVec.ofInt 64 minLeft)
          writebackChunk env b vl1 vr1
          if b.partialReturn ∧ res ≠ 0 then
            return res
          else
            let vl1' := vl1 + BitVec.ofInt 64 minLeft
            let vr1' := vr1 + BitVec.ofInt 64 minLeft
            let vl0' ← advanceLinked env b.vl leftInVl minLeft vl0 vl1'
            let vr0' ← advanceLinked env b.vr leftInVr minLeft vr0 vr1'
            memWrapperLoop env b fuel (ctr - minLeft) vl0' vr0' vl1' vr1'
        else do
          let res ← callFunc b vl0 vr0 vl1 vr1 (BitVec.ofInt 64 ctr)
          writebackChunk env b vl1 vr1
          if b.partialReturn ∧ res ≠ 0 then
            return res
          else
            memWrapperLoop env b fuel (ctr - ctr) vl0 vr0 vl1 vr1
      else
        return 0

/-- `vl_linked ? __carmor_page_fault(vl, vl_dirty) : vl`. -/
def linkOperand (env : Env σ) (o : Operand) (ptr : Uintptr) : Exec σ Uintptr :=
  if o.linked then carmorPageFault env ptr o.dirty else return ptr

/-- The parameters of an operand's store, if the operand is tagged. -/
def operandParameters (env : Env σ) (ptr : Uintptr) : Exec σ (Option (Uintptr × SizeT)) :=
  if isCarmorPtr ptr then do
    return some (← getLstoreParameters env ptr)
  else
    return none

/-- `__carmor_mem_wrapper`. -/
def carmorMemWrapper (env : Env σ) (fuel : Nat) (vl : Uintptr) (vlDirty : Byte) (vr : Uintptr)
    (vrDirty : Byte) (n : SizeT) (func : MemFunction) (partialReturn : Bool) : Exec σ Int :=
  let vlLinked := isCarmorPtr vl
  let vrLinked := isCarmorPtr vr
  if !vlLinked && !vrLinked then
    onMem (func vl vr n)
  else do
    let isLstoreDirect ← lstoreTypeIsDirect env (if vlLinked then vl else vr)
    if isLstoreDirect then
      cAssert !(vlLinked && vrLinked)
    let vlParams ← operandParameters env vl
    let vrParams ← operandParameters env vr
    let b : BulkOp := ⟨⟨vlDirty, vlParams⟩, ⟨vrDirty, vrParams⟩, isLstoreDirect, func,
      partialReturn⟩
    let ctr := toInt32 n
    let vl0 ← linkOperand env b.vl vl
    let vr0 ← linkOperand env b.vr vr
    memWrapperLoop env b fuel ctr vl0 vr0 vl vr

/-! ## `__carmor_mem_wrapper_single` -/

/-- `t_mem_function_single`, a function of libc on one range of memory. -/
abbrev MemFunctionSingle := Uintptr → Int → SizeT → Memory → Uintptr × Memory

/-- The arguments and locals of `__carmor_mem_wrapper_single` that its loop does not change. -/
structure SingleOp where
  dest : Operand
  c : Int
  isLstoreDirect : Bool
  func : MemFunctionSingle
  partialReturn : Bool
  aggregateRes : Bool

/-- The call of `func` on a chunk, with the write-back after it. -/
def callFuncSingle (env : Env σ) (b : SingleOp) (dst0 dstOrig : Uintptr) (n : SizeT) :
    Exec σ Uintptr := do
  record (.funcSingle (← get).store dst0 dstOrig n)
  let res ← onMem (b.func dst0 b.c n)
  if b.isLstoreDirect then
    match b.dest.params with
    | some (_, blockSize) => carmorWritebackGeneric env dstOrig (toInt32 blockSize)
    | none => pure ()
  return res

/-- The loop of `__carmor_mem_wrapper_single`. -/
def memWrapperSingleLoop (env : Env σ) (b : SingleOp) :
    Nat → Int → SizeT → Uintptr → Uintptr → Exec σ Uintptr
  | 0, _, _, _, _ => throw .outOfFuel
  | fuel + 1, ctr, acc, dst0, dstOrig =>
      if 0 < ctr then
        let leftInDest := b.dest.leftIn dst0
        if leftInDest < ctr then do
          let res ← callFuncSingle env b dst0 dstOrig (BitVec.ofInt 64 leftInDest)
          if b.partialReturn ∧ res ≠ 0 then
            return res
          else
            let dstOrig' := dstOrig + BitVec.ofInt 64 leftInDest
            let dst0' ← carmorPageFault env dstOrig' b.dest.dirty
            memWrapperSingleLoop env b fuel (ctr - leftInDest)
              (if b.aggregateRes then acc + res else acc) dst0' dstOrig'
        else do
          let res ← callFuncSingle env b dst0 dstOrig (BitVec.ofInt 64 ctr)
          if b.partialReturn ∧ res ≠ 0 then
            return res
          else
            memWrapperSingleLoop env b fuel (ctr - ctr)
              (if b.aggregateRes then acc + res else acc) dst0 dstOrig
      else
        return if b.aggregateRes then acc else 0

/-- `__carmor_mem_wrapper_single`. -/
def carmorMemWrapperSingle (env : Env σ) (fuel : Nat) (dest : Uintptr) (c : Int) (n : SizeT)
    (func : MemFunctionSingle) (dirty : Byte) (partialReturn aggregateRes : Bool) :
    Exec σ Uintptr :=
  if !isCarmorPtr dest then
    onMem (func dest c n)
  else do
    let isLstoreDirect ← lstoreTypeIsDirect env dest
    let params ← getLstoreParameters env dest
    let b : SingleOp := ⟨⟨dirty, some params⟩, c, isLstoreDirect, func, partialReturn, aggregateRes⟩
    let dst0 ← carmorPageFault env dest dirty
    memWrapperSingleLoop env b fuel (toInt32 n) 0 dst0 dest

/-! ## The functions called on chunks -/

/-- `__carmor_memmove_wrapper`. -/
def carmorMemmoveWrapper : MemFunction := fun dst src n mem =>
  (0, copyBytes mem dst src n.toNat)

/-- `__carmor_memcpy_wrapper`. -/
def carmorMemcpyWrapper : MemFunction := fun dst src n mem =>
  (0, copyBytes mem dst src n.toNat)

/-- `memcmp` of libc: the difference of the first two bytes that differ, or 0. -/
def compareBytes (mem : Memory) (vl vr : Uintptr) : Nat → Int
  | 0 => 0
  | n + 1 =>
      if mem vl = mem vr then
        compareBytes mem (vl + 1) (vr + 1) n
      else
        (mem vl).toNat - (mem vr).toNat

/-- `__carmor_memcmp_wrapper`. -/
def carmorMemcmpWrapper : MemFunction := fun vl vr n mem =>
  (compareBytes mem vl vr n.toNat, mem)

/-- `memchr` of libc: the address of the first of `n` bytes that is `c`, or null. -/
def findByte (mem : Memory) (dst : Uintptr) (c : Byte) : Nat → Uintptr
  | 0 => 0
  | n + 1 => if mem dst = c then dst else findByte mem (dst + 1) c n

/-- `__carmor_memchr_wrapper`. -/
def carmorMemchrWrapper : MemFunctionSingle := fun dst c n mem =>
  (findByte mem dst (BitVec.ofInt 8 c) n.toNat, mem)

/-- `memset` of libc on memory. -/
def fillBytes (mem : Memory) (dst : Uintptr) (c : Byte) (n : Nat) : Memory := fun a =>
  if (a - dst).toNat < n then c else mem a

/-- `__carmor_memset_wrapper`. -/
def carmorMemsetWrapper : MemFunctionSingle := fun dst c n mem =>
  (dst, fillBytes mem dst (BitVec.ofInt 8 c) n.toNat)

/-! ## The memory intrinsics -/

/-- `__carmor_memmove`. -/
def carmorMemmove (env : Env σ) (fuel : Nat) (dest src : Uintptr) (n : SizeT) :
    Exec σ Uintptr := do
  let _ ← carmorMemWrapper env fuel dest 1 src 0 n carmorMemmoveWrapper false
  return dest

/-- `__carmor_memcpy`. -/
def carmorMemcpy (env : Env σ) (fuel : Nat) (dest src : Uintptr) (n : SizeT) :
    Exec σ Uintptr := do
  let _ ← carmorMemWrapper env fuel dest 1 src 0 n carmorMemcpyWrapper false
  return dest

/-- `__carmor_memcmp`. -/
def carmorMemcmp (env : Env σ) (fuel : Nat) (vl vr : Uintptr) (n : SizeT) : Exec σ Int :=
  carmorMemWrapper env fuel vl 0 vr 0 n carmorMemcmpWrapper true

/-- `__carmor_memchr`. -/
def carmorMemchr (env : Env σ) (fuel : Nat) (dest : Uintptr) (c : Int) (n : SizeT) :
    Exec σ Uintptr :=
  carmorMemWrapperSingle env fuel dest c n carmorMemchrWrapper 0 true false

/-- `__carmor_memset`. -/
def carmorMemset (env : Env σ) (fuel : Nat) (dest : Uintptr) (c : Int) (n : SizeT) :
    Exec σ Uintptr := do
  let _ ← carmorMemWrapperSingle env fuel dest c n carmorMemsetWrapper 1 false false
  return dest

end Carmor
