import Carmor.World

/-!
# Linking tagged pointers

The templates of `mem/armor_runtime.cpp` that turn a tagged pointer into an address the program
can dereference:
`__carmor_link_cached_template`, `__carmor_link_cached_cross_page_template` and
`__carmor_link_direct_template`, with `__carmor_page_fault` and the write-back templates. A
template is instantiated for one store; the instance's store is the argument `s`. The model
is that of a build with the TLB and with assertions.
-/

namespace Carmor

variable {σ : Type}

/-! ## The TLB array -/

namespace Tlb

/-- `memset(tlb, b, sizeof(struct s_victim_cache) * TLB_SIZE)`. -/
def memset (b : Byte) : Tlb where
  entries := List.replicate tlbSize ⟨b ++ b ++ b ++ b, b ++ b, b⟩
  length_eq := List.length_replicate

/-- `tlb[TLB_SIZE-1]`. -/
def last (t : Tlb) : TlbEntry :=
  t.entries.getLast (List.ne_nil_of_length_pos (by rw [t.length_eq]; decide))

/-- `memmove(&tlb[1], &tlb[0], sizeof(struct s_victim_cache) * (TLB_SIZE-1))` followed by the
assignment of `tlb[0]`. -/
def push (t : Tlb) (e : TlbEntry) : Tlb where
  entries := e :: t.entries.dropLast
  length_eq := by rw [List.length_cons, List.length_dropLast, t.length_eq]; rfl

/-- The lookup loop on `tlb[0], ..., tlb[TLB_SIZE-1]`: the first entry of the page, and the
entries with the dirty flag of the access merged into it. -/
def scan (bsPageIndex : Unsigned) (dirty : Byte) :
    List TlbEntry → Option (TlbEntry × List TlbEntry)
  | [] => none
  | e :: es =>
      if e.bsPageIndex = bsPageIndex then
        some (e, { e with isDirty := e.isDirty ||| dirty } :: es)
      else
        (scan bsPageIndex dirty es).map fun r => (r.1, e :: r.2)

theorem scan_length {bsPageIndex : Unsigned} {dirty : Byte} {es : List TlbEntry}
    {r : TlbEntry × List TlbEntry} (h : scan bsPageIndex dirty es = some r) :
    r.2.length = es.length := by
  induction es generalizing r with
  | nil => simp [scan] at h
  | cons e es ih =>
      rw [scan] at h
      split at h
      · obtain rfl := Option.some.inj h
        rfl
      · obtain ⟨q, hq, rfl⟩ := Option.map_eq_some_iff.mp h
        simp [ih hq]

/-- The lookup of a page in the TLB. -/
def lookup (t : Tlb) (bsPageIndex : Unsigned) (dirty : Byte) : Option (TlbEntry × Tlb) :=
  match h : scan bsPageIndex dirty t.entries with
  | none => none
  | some r => some (r.1, ⟨r.2, (scan_length h).trans t.length_eq⟩)

end Tlb

/-! ## Linking through the TLB -/

/-- `bs_page_index` of an untagged pointer. -/
def bsPageIndex (st : LStore σ) (unmaskedBsPtr : Uintptr) : Unsigned :=
  (st.lstoreGetMstoragePage unmaskedBsPtr >>> st.lstoreGetMpageBits).setWidth 32

/-- `page_offset` of an untagged pointer. -/
def pageOffset (st : LStore σ) (unmaskedBsPtr : Uintptr) : Unsigned :=
  (st.lstoreGetMstoragePage unmaskedBsPtr &&& (st.lstoreGetMpageSize - 1)).setWidth 32

/-- `removed_bs_page`, the pointer given to `notify_tlb_dropped`: the new pointer moved by the
difference of the page indices, taken in `unsigned` and then widened. -/
def removedBsPage (st : LStore σ) (unmaskedBsPtr : Uintptr) (removed : TlbEntry) : Uintptr :=
  unmaskedBsPtr -
    (bsPageIndex st unmaskedBsPtr - removed.bsPageIndex).setWidth 64 * st.lstoreGetMpageSize

/-- The entry that a miss writes to `tlb[0]`. -/
def missEntry (st : LStore σ) (unmaskedBsPtr res : Uintptr) (dirty : Byte) : TlbEntry where
  bsPageIndex := bsPageIndex st unmaskedBsPtr
  epcPageIndex :=
    ((res - st.lstoreGetMpageCacheBasePtr) >>> st.lstoreGetMpageBits).setWidth 16
  isDirty := dirty

/-- The address rebuilt from a TLB entry on a hit. -/
def hitAddress (st : LStore σ) (unmaskedBsPtr : Uintptr) (e : TlbEntry) : Uintptr :=
  st.lstoreGetMpageCacheBasePtr + e.epcPageIndex.setWidth 64 * st.lstoreGetMpageSize +
    (pageOffset st unmaskedBsPtr).setWidth 64

/-- `tlb[TLB_SIZE-1]` is given up: its page is notified unless its index is negative. -/
def dropLastEntry (env : Env σ) (s : StoreId) (unmaskedBsPtr : Uintptr) : Exec σ Unit := do
  let st := env.stores s
  let removed := (← getTlb st.lstoreGetTlb).last
  if 0 ≤ removed.bsPageIndex.toInt then
    let ptr := removedBsPage st unmaskedBsPtr removed
    record (.notifyTlbDropped s ptr (removed.isDirty ≠ 0) removed)
    callStore (st.notifyTlbDropped ptr (removed.isDirty ≠ 0))

/-- The page of `unmaskedBsPtr` becomes `tlb[0]`. -/
def insertEntry (env : Env σ) (s : StoreId) (unmaskedBsPtr res : Uintptr) (dirty : Byte) :
    Exec σ Unit := do
  let st := env.stores s
  record (.notifyTlbCached s unmaskedBsPtr)
  callStore (st.notifyTlbCached unmaskedBsPtr)
  let tlb ← getTlb st.lstoreGetTlb
  setTlb st.lstoreGetTlb (tlb.push (missEntry st unmaskedBsPtr res dirty))

/-- The part of the cached templates from the lookup on, which the two have in common. -/
def linkThroughTlb (env : Env σ) (s : StoreId) (unmaskedBsPtr : Uintptr) (ptrSize : Int)
    (dirty : Byte) : Exec σ Uintptr := do
  let st := env.stores s
  let tlb ← getTlb st.lstoreGetTlb
  match tlb.lookup (bsPageIndex st unmaskedBsPtr) dirty with
  | some (entry, tlb') =>
      setTlb st.lstoreGetTlb tlb'
      record (.tlbHit s entry)
      cAssert ((pageOffset st unmaskedBsPtr + BitVec.ofInt 32 ptrSize).setWidth 64 ≤
        st.lstoreGetMpageSize)
      return hitAddress st unmaskedBsPtr entry
  | none =>
      let res ← callStore (st.mpfHandlerC unmaskedBsPtr)
      record (.mpfHandlerC s unmaskedBsPtr res)
      dropLastEntry env s unmaskedBsPtr
      insertEntry env s unmaskedBsPtr res dirty
      cAssert ((((res - st.lstoreGetMpageCacheBasePtr) &&& (st.lstoreGetMpageSize - 1)) +
        BitVec.ofInt 64 ptrSize) ≤ st.lstoreGetMpageSize)
      return res

/-- `__carmor_link_cached_template`. -/
def carmorLinkCachedTemplate (env : Env σ) (s : StoreId) (ptr : Uintptr) (ptrSize : Int)
    (isVectorType dirty : Byte) : Exec σ Uintptr :=
  if !isCarmorPtr ptr then
    return ptr
  else do
    cAssert (isVectorType == 0)
    linkThroughTlb env s (makeOriginalPointer ptr) ptrSize dirty

/-- `__carmor_page_fault`. -/
def carmorPageFault (env : Env σ) (bsPtr : Uintptr) (dirty : Byte) : Exec σ Uintptr := do
  record (.pageFault bsPtr dirty)
  match switchCase bsPtr with
  | some s => (env.stores s).carmorLink bsPtr 0 0 dirty
  | none => throw .abort

/-! ## Accesses that cross a page -/

/-- `memcpy(dst, src, n)` and `memmove(dst, src, n)` of libc on memory. -/
def copyBytes (mem : Memory) (dst src : Uintptr) (n : Nat) : Memory := fun a =>
  if (a - dst).toNat < n then mem (src + (a - dst)) else mem a

/-- `memcpy` of libc. -/
def libcMemcpy (dst src : Uintptr) (n : SizeT) : Exec σ Unit :=
  onMem fun mem => ((), copyBytes mem dst src n.toNat)

/-- `page_offset + ptr_size > lstore_get_mpage_size()`. -/
def crossesPage (st : LStore σ) (bsPtr : Uintptr) (ptrSize : Int) : Bool :=
  st.lstoreGetMpageSize < (pageOffset st bsPtr + BitVec.ofInt 32 ptrSize).setWidth 64

/-- `bytes_to_copy_from_first_page`. -/
def bytesToCopyFromFirstPage (st : LStore σ) (bsPtr : Uintptr) : Unsigned :=
  (st.lstoreGetMpageSize - (pageOffset st bsPtr).setWidth 64).setWidth 32

/-- The branch of `__carmor_link_cached_cross_page_template` that loads both pages into
`gt_CrossPageBuffer`. -/
def loadCrossPage (env : Env σ) (s : StoreId) (ptr : Uintptr) (ptrSize : Int) (dirty : Byte) :
    Exec σ Uintptr := do
  let bytes := bytesToCopyFromFirstPage (env.stores s) (makeOriginalPointer ptr)
  let firstPagePtr ← carmorPageFault env ptr dirty
  let secondPagePtr ← carmorPageFault env (ptr + bytes.setWidth 64) dirty
  libcMemcpy env.gtCrossPageBuffer firstPagePtr (bytes.setWidth 64)
  libcMemcpy (env.gtCrossPageBuffer + bytes.setWidth 64) secondPagePtr
    ((BitVec.ofInt 32 ptrSize - bytes).setWidth 64)
  setCrosspage ptr ptrSize
  return env.gtCrossPageBuffer

/-- `__carmor_link_cached_cross_page_template`. -/
def carmorLinkCachedCrossPageTemplate (env : Env σ) (s : StoreId) (ptr : Uintptr)
    (ptrSize : Int) (isVectorType dirty : Byte) : Exec σ Uintptr :=
  if !isCarmorPtr ptr then
    return ptr
  else do
    cAssert (isVectorType == 0)
    if crossesPage (env.stores s) (makeOriginalPointer ptr) ptrSize then
      loadCrossPage env s ptr ptrSize dirty
    else
      linkThroughTlb env s (makeOriginalPointer ptr) ptrSize dirty

/-- `__carmor_writeback_cached_cross_page_template`. The pending pointer still has its tag. -/
def carmorWritebackCachedCrossPageTemplate (env : Env σ) (s : StoreId) : Exec σ Unit := do
  let bsPtr := (← get).gtCrosspageAccess
  if bsPtr ≠ 0 then
    let size := (← get).gtCrosspageAccessSize
    cAssert (size ≠ 0)
    setCrosspage 0 0
    let bytes := bytesToCopyFromFirstPage (env.stores s) bsPtr
    let firstPagePtr ← carmorPageFault env bsPtr 1
    let secondPagePtr ← carmorPageFault env (bsPtr + bytes.setWidth 64) 1
    libcMemcpy firstPagePtr env.gtCrossPageBuffer (bytes.setWidth 64)
    libcMemcpy secondPagePtr (env.gtCrossPageBuffer + bytes.setWidth 64)
      ((BitVec.ofInt 32 size - bytes).setWidth 64)

/-! ## Direct stores -/

/-- `__carmor_get_lstore_direct_buffer`. -/
def carmorGetLstoreDirectBuffer (env : Env σ) (mpageSize : SizeT) : Exec σ Uintptr := do
  if (← get).gtDirectBuffer == 0 then
    let buffer ← callStore (env.libc.memalign mpageSize mpageSize)
    modify fun w => { w with gtDirectBuffer := buffer }
    cAssert (buffer != 0)
  return (← get).gtDirectBuffer

/-- The switch that reads the page size in the direct templates. The `case` of store 3 has no
`break` and runs into `default`. -/
def directMpageSize (env : Env σ) (ptr : Uintptr) : Exec σ SizeT :=
  match switchCase ptr with
  | some .lstore0 => return (env.stores .lstore0).lstoreGetMpageSize
  | some .lstore1 => return (env.stores .lstore1).lstoreGetMpageSize
  | some .lstore2 => return (env.stores .lstore2).lstoreGetMpageSize
  | some .lstore3 => throw .abort
  | none => throw .abort

/-- `__carmor_link_direct_template`. -/
def carmorLinkDirectTemplate (env : Env σ) (s : StoreId) (ptr : Uintptr) (ptrSize : Int)
    (_isVectorType _dirty : Byte) : Exec σ Uintptr :=
  if !isCarmorPtr ptr then
    return ptr
  else do
    let unmaskedBsPtr := makeOriginalPointer ptr
    let mpageSize ← directMpageSize env ptr
    cAssert (BitVec.ofInt 64 ptrSize ≤ mpageSize)
    let dest ← carmorGetLstoreDirectBuffer env mpageSize
    record (.mpfHandlerD s unmaskedBsPtr dest (BitVec.ofInt 64 ptrSize))
    callStore ((env.stores s).mpfHandlerD unmaskedBsPtr dest (BitVec.ofInt 64 ptrSize))
    return dest

/-- `__carmor_writeback_direct_template`. -/
def carmorWritebackDirectTemplate (env : Env σ) (s : StoreId) (ptr : Uintptr) (ptrSize : Int) :
    Exec σ Unit :=
  if !isCarmorPtr ptr then
    return ()
  else do
    let unmaskedBsPtr := makeOriginalPointer ptr
    let mpageSize ← directMpageSize env ptr
    let dest ← carmorGetLstoreDirectBuffer env mpageSize
    record (.lstoreWriteBack s unmaskedBsPtr dest (BitVec.ofInt 64 ptrSize))
    callStore ((env.stores s).lstoreWriteBack unmaskedBsPtr dest (BitVec.ofInt 64 ptrSize))

/-! ## Iteration windows -/

/-- `__carmor_get_valid_iterations_template`: how many iterations of a loop, which moves the
linked pointer `ptr` by `stepVal`, may go without a new link. -/
def carmorGetValidIterationsTemplate (env : Env σ) (s : StoreId) (unlinkedPtr ptr : Uintptr)
    (stepVal : BitVec 64) (ptrSize : Int) : Exec σ Int :=
  let st := env.stores s
  if !isCarmorPtr unlinkedPtr then
    return 1 <<< 30
  else if ptr = env.gtCrossPageBuffer then
    return 1
  else
    let pageOffset :=
      toInt32 ((ptr - st.lstoreGetMpageCacheBasePtr) &&& (st.lstoreGetMpageSize - 1))
    let realStep := toInt32 stepVal
    let leftBytes :=
      if 0 < realStep then toInt32 (st.lstoreGetMpageSize - BitVec.ofInt 64 pageOffset)
      else -(pageOffset + 1)
    if realStep = 0 then
      throw .divisionByZero
    else
      let res := leftBytes.tdiv realStep
      -- the comparison converts the signed sum to `size_t`
      let past :=
        st.lstoreGetMpageSize < BitVec.ofInt 64 (pageOffset + (res - 1) * realStep + ptrSize)
      let res := if past then res - 1 else res
      return if res ≤ 0 then 1 else res

/-! ## Initialization -/

/-- `__carmor_initialize_template`. -/
def carmorInitializeTemplate (env : Env σ) (s : StoreId) (privData : Uintptr) : Exec σ Int := do
  let st := env.stores s
  let res ← callStore (st.lstoreInit privData)
  if res ≠ 0 then
    throw .abort
  if !st.lstoreIsDirect then
    setTlb .gtTLB (Tlb.memset 0xff)
    setCrosspage 0 0
  return res

end Carmor
