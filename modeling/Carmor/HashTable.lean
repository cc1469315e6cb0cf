import Carmor.Pointer
import Carmor.Lib.Exec

/-!
# The hash table

The macros of `mem/uthash.h` that `mem/memory.c` and `mem/example.c` rest on, one function a macro,
as they expand without `HASH_BLOOM` and without `HASH_NONFATAL_OOM`. An element is named by its
address and holds one hash handle, so `ELMT_FROM_HH` and `HH_FROM_ELMT` are left out; `none` is
`NULL`. The table belongs to one `head`, and a macro that takes `head` reads and assigns it in the
state. What the user chooses is a parameter: the hash function, the comparison and the outcomes of
`malloc`. A loop takes a bound on its iterations.
-/

namespace Carmor.HashTable

/-- `UT_hash_handle` of an element. `key` is the memory at the key pointer. -/
structure UTHashHandle where
  prev : Option Uintptr := none
  next : Option Uintptr := none
  hhPrev : Option Uintptr := none
  hhNext : Option Uintptr := none
  key : List Byte := []
  keylen : Unsigned := 0
  hashv : Unsigned := 0

structure UTHashBucket where
  hhHead : Option Uintptr := none
  count : Unsigned := 0
  expandMult : Unsigned := 0
  deriving DecidableEq, Repr

structure UTHashTable where
  buckets : List UTHashBucket := []
  numBuckets : Unsigned := 0
  log2NumBuckets : Unsigned := 0
  numItems : Unsigned := 0
  tail : Option Uintptr := none
  idealChainMaxlen : Unsigned := 0
  nonidealItems : Unsigned := 0
  ineffExpands : Unsigned := 0
  noexpand : Unsigned := 0

/-- `sizeof(UT_hash_table)`. -/
def sizeofTable : SizeT := 64

/-- `sizeof(struct UT_hash_bucket)`. -/
def sizeofBucket : SizeT := 16

/-- `HASH_INITIAL_NUM_BUCKETS`. -/
def hashInitialNumBuckets : Unsigned := 32

/-- `HASH_INITIAL_NUM_BUCKETS_LOG2`. -/
def hashInitialNumBucketsLog2 : Unsigned := 5

/-- `HASH_BKT_CAPACITY_THRESH`. -/
def hashBktCapacityThresh : Unsigned := 10

/-- How a macro can fail to complete. -/
inductive Stop where
  /-- `uthash_fatal("out of memory")`. -/
  | exit
  /-- `HASH_OOPS`, a failed check of `HASH_DEBUG`. -/
  | oops
  /-- An access to memory that is not allocated, or another undefined operation. -/
  | undefined
  /-- The iteration bound of a loop of the model is exhausted. -/
  | outOfFuel
  deriving DecidableEq, Repr

/-- The elements, of which those at `live` addresses are allocated, and the table of `head`.
`requests` counts the calls of `malloc` by the macros. -/
structure State where
  hh : Uintptr → UTHashHandle
  live : Uintptr → Bool
  head : Option Uintptr
  tbl : Option UTHashTable
  requests : Nat

abbrev Exec := EStateM Stop State

/-- The outcomes of `malloc`: whether the request of that number and size is granted. -/
abbrev Malloc := Nat → SizeT → Bool

/-! ## Memory -/

/-- Reads the handle of an element. -/
def load (a : Uintptr) : Exec UTHashHandle := fun S =>
  if S.live a then .ok (S.hh a) S else .error .undefined S

/-- Assigns fields of the handle of an element. -/
def store (a : Uintptr) (f : UTHashHandle → UTHashHandle) : Exec Unit := fun S =>
  if S.live a then .ok () { S with hh := Function.update S.hh a (f (S.hh a)) }
  else .error .undefined S

/-- `p->...`, where `p` may be `NULL`. -/
def deref : Option Uintptr → Exec Uintptr
  | some a => pure a
  | none => throw .undefined

/-- `if (p) p->... = ...`. -/
def storeIf (p : Option Uintptr) (f : UTHashHandle → UTHashHandle) : Exec Unit :=
  match p with
  | some a => store a f
  | none => pure ()

def setHead (p : Option Uintptr) : Exec Unit := fun S => .ok () { S with head := p }

/-- `*(head)->hh.tbl`. -/
def table : Exec UTHashTable := fun S =>
  match S.tbl with
  | some t => .ok t S
  | none => .error .undefined S

/-- Assigns fields of the table. -/
def setTable (f : UTHashTable → UTHashTable) : Exec Unit := fun S =>
  match S.tbl with
  | some t => .ok () { S with tbl := some (f t) }
  | none => .error .undefined S

/-- `head->hh.tbl = t`. -/
def makeTable (t : UTHashTable) : Exec Unit := fun S => .ok () { S with tbl := some t }

/-- `uthash_free` of the buckets and of the table, and `head = NULL`. -/
def freeTable : Exec Unit := fun S => .ok () { S with tbl := none, head := none }

/-- `buckets[bkt]`. -/
def bucketAt (bkt : Unsigned) : Exec UTHashBucket := do
  let t ← table
  match t.buckets[bkt.toNat]? with
  | some b => pure b
  | none => throw .undefined

/-- Assigns fields of `buckets[bkt]`. -/
def storeBucket (bkt : Unsigned) (f : UTHashBucket → UTHashBucket) : Exec Unit := do
  let b ← bucketAt bkt
  setTable fun t => { t with buckets := t.buckets.set bkt.toNat (f b) }

/-- A shift by `n`, which is undefined from 32 on. -/
def checkShift (n : Unsigned) : Exec Unit := if 32 ≤ n then throw .undefined else pure ()

/-- `uthash_malloc`, and `uthash_fatal` where it returns `NULL`. -/
def uthashMalloc (malloc : Malloc) (size : SizeT) : Exec Unit := fun S =>
  if malloc S.requests size then .ok () { S with requests := S.requests + 1 }
  else .error .exit { S with requests := S.requests + 1 }

/-- The user's `malloc` of an element, which returns the address `a`. -/
def mallocElement (a : Uintptr) : Exec Unit := fun S =>
  if S.live a then .error .undefined S
  else .ok () { S with live := Function.update S.live a true }

/-- The user's `free` of an element. -/
def freeElement (a : Uintptr) : Exec Unit := fun S =>
  if S.live a then .ok () { S with live := Function.update S.live a false }
  else .error .undefined S

/-! ## Buckets -/

/-- `HASH_TO_BKT`. -/
def hashToBkt (hashv numBkts : Unsigned) : Unsigned := hashv &&& (numBkts - 1)

/-- The body of the inner loop of `HASH_EXPAND_BUCKETS` up to its assignments of `hh_prev` and
`hh_next`: the new bucket with the element counted in. -/
def countExpanded (idealChainMaxlen : Unsigned) (b : UTHashBucket) : UTHashBucket :=
  let b := { b with count := b.count + 1 }
  if idealChainMaxlen < b.count ∧ b.expandMult * idealChainMaxlen < b.count then
    { b with expandMult := b.expandMult + 1 }
  else b

/-- The inner loop of `HASH_EXPAND_BUCKETS`: moves the chain that begins at `thh` to the new
buckets. -/
def expandChain (numBuckets : Unsigned) :
    Nat → Option Uintptr → List UTHashBucket → Exec (List UTHashBucket)
  | _, none, newBuckets => pure newBuckets
  | 0, some _, _ => throw .outOfFuel
  | fuel + 1, some thh, newBuckets => do
    let h ← load thh
    let bkt := hashToBkt h.hashv (numBuckets * 2)
    match newBuckets[bkt.toNat]? with
    | none => throw .undefined
    | some newbkt =>
      let t ← table
      let newbkt' := countExpanded t.idealChainMaxlen newbkt
      setTable fun t =>
        if t.idealChainMaxlen < newbkt'.count then { t with nonidealItems := t.nonidealItems + 1 }
        else t
      store thh fun h => { h with hhPrev := none, hhNext := newbkt.hhHead }
      storeIf newbkt.hhHead fun h => { h with hhPrev := some thh }
      expandChain numBuckets fuel h.hhNext
        (newBuckets.set bkt.toNat { newbkt' with hhHead := some thh })

/-- The outer loop of `HASH_EXPAND_BUCKETS`, over the old buckets that `is` numbers. -/
def expandChains (numBuckets : Unsigned) (fuel : Nat) :
    List Nat → List UTHashBucket → Exec (List UTHashBucket)
  | [], newBuckets => pure newBuckets
  | i :: is, newBuckets => do
    let b ← bucketAt (BitVec.ofNat 32 i)
    let newBuckets ← expandChain numBuckets fuel b.hhHead newBuckets
    expandChains numBuckets fuel is newBuckets

/-- `HASH_EXPAND_BUCKETS`. -/
def hashExpandBuckets (malloc : Malloc) (fuel : Nat) : Exec Unit := do
  let t ← table
  uthashMalloc malloc (2 * t.numBuckets.setWidth 64 * sizeofBucket)
  checkShift (t.log2NumBuckets + 1)
  setTable fun t => { t with
    idealChainMaxlen := (t.numItems >>> (t.log2NumBuckets + 1)) +
      (if t.numItems &&& (t.numBuckets * 2 - 1) ≠ 0 then 1 else 0)
    nonidealItems := 0 }
  let newBuckets ← expandChains t.numBuckets fuel (List.range t.numBuckets.toNat)
    (List.replicate (2 * t.numBuckets.toNat) {})
  setTable fun t => { t with
    numBuckets := t.numBuckets * 2
    log2NumBuckets := t.log2NumBuckets + 1
    buckets := newBuckets
    ineffExpands := if t.numItems >>> 1 < t.nonidealItems then t.ineffExpands + 1 else 0 }
  setTable fun t => { t with noexpand := if 1 < t.ineffExpands then 1 else t.noexpand }

/-- `HASH_ADD_TO_BKT`. -/
def hashAddToBkt (malloc : Malloc) (fuel : Nat) (bkt : Unsigned) (addhh : Uintptr) :
    Exec Unit := do
  storeBucket bkt fun b => { b with count := b.count + 1 }
  let b ← bucketAt bkt
  store addhh fun h => { h with hhNext := b.hhHead, hhPrev := none }
  storeIf b.hhHead fun h => { h with hhPrev := some addhh }
  storeBucket bkt fun b => { b with hhHead := some addhh }
  let t ← table
  if (b.expandMult + 1) * hashBktCapacityThresh ≤ b.count ∧ t.noexpand = 0 then
    hashExpandBuckets malloc fuel

/-- `HASH_DEL_IN_BKT`. -/
def hashDelInBkt (bkt : Unsigned) (delhh : Uintptr) : Exec Unit := do
  storeBucket bkt fun b => { b with count := b.count - 1 }
  let h ← load delhh
  storeBucket bkt fun b => if b.hhHead = some delhh then { b with hhHead := h.hhNext } else b
  storeIf h.hhPrev fun hp => { hp with hhNext := h.hhNext }
  let h ← load delhh
  storeIf h.hhNext fun hn => { hn with hhPrev := h.hhPrev }

/-! ## The check of `HASH_DEBUG` -/

/-- `if (c) HASH_OOPS(...)`. -/
def hashOops (c : Prop) [Decidable c] : Exec Unit := if c then throw .oops else pure ()

/-- A loop of `HASH_FSCK` along the pointers `next`, which compares the pointers `prev` with the
elements that it comes from, and the number of its rounds. -/
def fsckWalk (next prev : UTHashHandle → Option Uintptr) :
    Nat → Option Uintptr → Option Uintptr → Unsigned → Exec Unsigned
  | _, none, _, count => pure count
  | 0, some _, _, _ => throw .outOfFuel
  | fuel + 1, some thh, prevThh, count => do
    let h ← load thh
    hashOops (prevThh ≠ prev h)
    fsckWalk next prev fuel (next h) (some thh) (count + 1)

/-- The loop of `HASH_FSCK` over the buckets that `is` numbers. -/
def fsckBuckets (fuel : Nat) : List Nat → Unsigned → Exec Unsigned
  | [], count => pure count
  | i :: is, count => do
    let b ← bucketAt (BitVec.ofNat 32 i)
    let bktCount ← fsckWalk UTHashHandle.hhNext UTHashHandle.hhPrev fuel b.hhHead none 0
    hashOops (b.count ≠ bktCount)
    fsckBuckets fuel is (count + bktCount)

/-- `HASH_FSCK`. -/
def hashFsck (fuel : Nat) : Exec Unit := do
  let head := (← get).head
  match head with
  | none => pure ()
  | some _ =>
    let t ← table
    let count ← fsckBuckets fuel (List.range t.numBuckets.toNat) 0
    hashOops (count ≠ t.numItems)
    let count ← fsckWalk UTHashHandle.next UTHashHandle.prev fuel head none 0
    hashOops (count ≠ t.numItems)

/-! ## The macros of the interface -/

/-- `HASH_MAKE_TABLE`, with `head` the element `add`. -/
def hashMakeTable (malloc : Malloc) (add : Uintptr) : Exec Unit := do
  uthashMalloc malloc sizeofTable
  let t : UTHashTable := {
    tail := some add
    numBuckets := hashInitialNumBuckets
    log2NumBuckets := hashInitialNumBucketsLog2 }
  uthashMalloc malloc (hashInitialNumBuckets.setWidth 64 * sizeofBucket)
  makeTable { t with buckets := List.replicate hashInitialNumBuckets.toNat {} }

/-- `HASH_APPEND_LIST`. -/
def hashAppendList (add : Uintptr) : Exec Unit := do
  let t ← table
  store add fun h => { h with next := none, prev := t.tail }
  let last ← deref t.tail
  store last fun h => { h with next := some add }
  setTable fun t => { t with tail := some add }

/-- `HASH_ADD_TO_TABLE`. -/
def hashAddToTable (malloc : Malloc) (fuel : Nat) (hashval : Unsigned) (add : Uintptr) :
    Exec Unit := do
  setTable fun t => { t with numItems := t.numItems + 1 }
  let t ← table
  hashAddToBkt malloc fuel (hashToBkt hashval t.numBuckets) add

/-- The branches of `HASH_ADD_KEYPTR_BYHASHVALUE` on `head`: an element alone makes the table, and
another one comes last. -/
def hashAddLast (malloc : Malloc) (add : Uintptr) : Exec Unit := do
  match (← get).head with
  | none =>
    store add fun h => { h with next := none, prev := none }
    hashMakeTable malloc add
    setHead (some add)
  | some _ => hashAppendList add

/-- `HASH_ADD_KEYPTR_BYHASHVALUE`. -/
def hashAddKeyptrByhashvalue (malloc : Malloc) (fuel : Nat) (keyptr : List Byte)
    (hashval : Unsigned) (add : Uintptr) : Exec Unit := do
  store add fun h =>
    { h with hashv := hashval, key := keyptr, keylen := BitVec.ofNat 32 keyptr.length }
  hashAddLast malloc add
  hashAddToTable malloc fuel hashval add

/-- `HASH_AKBI_INNER_LOOP` from the element `iter`: the first element that `cmpfcn` puts behind
`add`. -/
def hashAkbiInnerLoop (cmpfcn : Uintptr → Uintptr → Int) (add : Uintptr) :
    Nat → Uintptr → Exec (Option Uintptr)
  | 0, _ => throw .outOfFuel
  | fuel + 1, iter =>
    if 0 < cmpfcn iter add then pure (some iter)
    else do
      let h ← load iter
      match h.next with
      | none => pure none
      | some next => hashAkbiInnerLoop cmpfcn add fuel next

/-- `if (prev) prev->next = next; else head = next;`. -/
def setNextOf (prev next : Option Uintptr) : Exec Unit :=
  match prev with
  | some p => store p fun h => { h with next := next }
  | none => setHead next

/-- The branches of `HASH_ADD_KEYPTR_BYHASHVALUE_INORDER` on `head`. -/
def hashAddSorted (malloc : Malloc) (fuel : Nat) (add : Uintptr)
    (cmpfcn : Uintptr → Uintptr → Int) : Exec Unit := do
  match (← get).head with
  | none =>
    store add fun h => { h with next := none, prev := none }
    hashMakeTable malloc add
    setHead (some add)
  | some head =>
    match ← hashAkbiInnerLoop cmpfcn add fuel head with
    | some iter =>
      let hi ← load iter
      store add fun h => { h with next := some iter, prev := hi.prev }
      setNextOf hi.prev (some add)
      store iter fun h => { h with prev := some add }
    | none => hashAppendList add

/-- `HASH_ADD_KEYPTR_BYHASHVALUE_INORDER`. -/
def hashAddKeyptrByhashvalueInorder (malloc : Malloc) (fuel : Nat) (keyptr : List Byte)
    (hashval : Unsigned) (add : Uintptr) (cmpfcn : Uintptr → Uintptr → Int) : Exec Unit := do
  store add fun h =>
    { h with hashv := hashval, key := keyptr, keylen := BitVec.ofNat 32 keyptr.length }
  hashAddSorted malloc fuel add cmpfcn
  hashAddToTable malloc fuel hashval add

/-- `HASH_FIND_IN_BKT` from the element `out` on. -/
def hashFindInBkt (keyptr : List Byte) (hashval : Unsigned) :
    Nat → Option Uintptr → Exec (Option Uintptr)
  | _, none => pure none
  | 0, some _ => throw .outOfFuel
  | fuel + 1, some out => do
    let h ← load out
    if h.hashv = hashval ∧ h.keylen.toNat = keyptr.length ∧
        h.key.take keyptr.length = keyptr then
      pure (some out)
    else hashFindInBkt keyptr hashval fuel h.hhNext

/-- `HASH_FIND_BYHASHVALUE`. -/
def hashFindByhashvalue (fuel : Nat) (keyptr : List Byte) (hashval : Unsigned) :
    Exec (Option Uintptr) := do
  match (← get).head with
  | none => pure none
  | some _ =>
    let t ← table
    let b ← bucketAt (hashToBkt hashval t.numBuckets)
    hashFindInBkt keyptr hashval fuel b.hhHead

/-- `HASH_DELETE_HH`. -/
def hashDeleteHh (del : Uintptr) : Exec Unit := do
  let h ← load del
  let t ← table
  if h.prev.isNone && h.next.isNone then
    freeTable
  else
    setTable fun t => if t.tail = some del then { t with tail := h.prev } else t
    setNextOf h.prev h.next
    let h ← load del
    storeIf h.next fun hn => { hn with prev := h.prev }
    hashDelInBkt (hashToBkt h.hashv t.numBuckets) del
    setTable fun t => { t with numItems := t.numItems - 1 }

/-- `HASH_CLEAR`. -/
def hashClear : Exec Unit := do
  match (← get).head with
  | none => pure ()
  | some _ =>
    let _ ← table
    freeTable

/-- `HASH_COUNT`. -/
def hashCount : Exec Unsigned := do
  match (← get).head with
  | none => pure 0
  | some _ => return (← table).numItems

/-- `(p != NULL) ? p->hh.next : NULL`. -/
def nextOrNull : Option Uintptr → Exec (Option Uintptr)
  | none => pure none
  | some a => return (← load a).next

/-- The loop of `HASH_ITER` with the loop variables `el` and `tmp`. `r` is what the body of the loop
keeps in variables of its own. -/
def hashIterLoop {ρ : Type} (body : Uintptr → ρ → Exec ρ) :
    Nat → Option Uintptr → Option Uintptr → ρ → Exec ρ
  | _, none, _, r => pure r
  | 0, some _, _, _ => throw .outOfFuel
  | fuel + 1, some el, tmp, r => do
    let r ← body el r
    hashIterLoop body fuel tmp (← nextOrNull tmp) r

/-- `HASH_ITER`. -/
def hashIter {ρ : Type} (fuel : Nat) (body : Uintptr → ρ → Exec ρ) (r : ρ) : Exec ρ := do
  let head := (← get).head
  hashIterLoop body fuel head (← nextOrNull head) r

section HashFunction

variable (malloc : Malloc) (hashFcn : List Byte → Unsigned) (fuel : Nat)

/-- `HASH_ADD`. -/
def hashAdd (key : List Byte) (add : Uintptr) : Exec Unit :=
  hashAddKeyptrByhashvalue malloc fuel key (hashFcn key) add

/-- `HASH_ADD_INORDER`. -/
def hashAddInorder (key : List Byte) (add : Uintptr) (cmpfcn : Uintptr → Uintptr → Int) :
    Exec Unit :=
  hashAddKeyptrByhashvalueInorder malloc fuel key (hashFcn key) add cmpfcn

/-- `HASH_FIND`. -/
def hashFind (keyptr : List Byte) : Exec (Option Uintptr) := do
  match (← get).head with
  | none => pure none
  | some _ => hashFindByhashvalue fuel keyptr (hashFcn keyptr)

/-- `if (replaced) HASH_DELETE(hh, head, replaced);`. -/
def hashDeleteReplaced : Option Uintptr → Exec Unit
  | some replaced => hashDeleteHh replaced
  | none => pure ()

/-- `HASH_REPLACE`, with the element that it removes. -/
def hashReplace (key : List Byte) (add : Uintptr) : Exec (Option Uintptr) := do
  let hashval := hashFcn key
  let replaced ← hashFindByhashvalue fuel key hashval
  hashDeleteReplaced replaced
  hashAddKeyptrByhashvalue malloc fuel key hashval add
  return replaced

/-- `HASH_REPLACE_INORDER`, with the element that it removes. -/
def hashReplaceInorder (key : List Byte) (add : Uintptr) (cmpfcn : Uintptr → Uintptr → Int) :
    Exec (Option Uintptr) := do
  let hashval := hashFcn key
  let replaced ← hashFindByhashvalue fuel key hashval
  hashDeleteReplaced replaced
  hashAddKeyptrByhashvalueInorder malloc fuel key hashval add cmpfcn
  return replaced

end HashFunction

end Carmor.HashTable
