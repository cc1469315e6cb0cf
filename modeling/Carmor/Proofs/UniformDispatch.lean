import Carmor.Proofs.HeapSteps
import Carmor.Proofs.Retagging

/-!
# Dispatch on the tag

Ten functions switch on the four upper bits of a pointer. Seven of them run the `case` of the
pointer's store for every store. In the other three the `case` of store 3 lacks its `break`: the
page size of store 3 is read and the function aborts.
-/

namespace Carmor

variable {σ : Type}

/-! ## One switch -/

/-- The functions that switch on the tag. -/
inductive SwitchOp where
  | free
  | realloc
  | pageFault
  | getValidIterationsGeneric
  | writebackDirect
  | writebackGeneric
  | linkDirect
  | linkGeneric
  | lstoreTypeIsDirect
  | getLstoreParameters
  deriving DecidableEq

/-- The switch reads the page size, and its `case` of store 3 has no `break`. -/
def SwitchOp.readsMpageSize : SwitchOp → Bool
  | .writebackDirect => true
  | .linkDirect => true
  | .getLstoreParameters => true
  | _ => false

/-- On the pointer `p` of store `s` with the untagged address `u` the function runs the callbacks
of store `s` only, on `u` where it untags the pointer, and returns when they do.
`__carmor_realloc` copies in between. -/
def Selects (env : Env σ) (s : StoreId) (p u : Uintptr) : SwitchOp → Prop
  | .free => carmorFree env p = lstoreFree env s u
  | .realloc => ∀ fuel size, carmorRealloc env fuel p size = do
      let origPtrSize := toInt32 (← lstoreAllocSize env s u)
      if size ≤ BitVec.ofInt 64 origPtrSize then
        return p
      else
        let res := makeMstorePtr s (← lstoreAlloc env s size)
        let _ ← carmorMemcpy env fuel res p (BitVec.ofInt 64 origPtrSize)
        lstoreFree env s u
        return res
  | .pageFault => ∀ dirty, carmorPageFault env p dirty = do
      record (.pageFault p dirty)
      (env.stores s).carmorLink p 0 0 dirty
  | .getValidIterationsGeneric => ∀ ptr stepVal ptrSize,
      carmorGetValidIterationsGeneric env p ptr stepVal ptrSize =
        (env.stores s).carmorGetValidIterations p ptr stepVal ptrSize
  | .writebackDirect => ∀ ptrSize, carmorWritebackDirectTemplate env s p ptrSize = do
      let dest ← carmorGetLstoreDirectBuffer env (env.stores s).lstoreGetMpageSize
      record (.lstoreWriteBack s u dest (BitVec.ofInt 64 ptrSize))
      callStore ((env.stores s).lstoreWriteBack u dest (BitVec.ofInt 64 ptrSize))
  | .writebackGeneric => ∀ ptrSize, carmorWritebackGeneric env p ptrSize =
      (env.stores s).carmorWritebackDirect p ptrSize
  | .linkDirect => ∀ ptrSize isVectorType dirty,
      carmorLinkDirectTemplate env s p ptrSize isVectorType dirty = do
        cAssert (BitVec.ofInt 64 ptrSize ≤ (env.stores s).lstoreGetMpageSize)
        let dest ← carmorGetLstoreDirectBuffer env (env.stores s).lstoreGetMpageSize
        record (.mpfHandlerD s u dest (BitVec.ofInt 64 ptrSize))
        callStore ((env.stores s).mpfHandlerD u dest (BitVec.ofInt 64 ptrSize))
        return dest
  | .linkGeneric => ∀ ptrSize isVectorType dirty,
      carmorLinkGeneric env p ptrSize isVectorType dirty =
        (env.stores s).carmorLink p ptrSize isVectorType dirty
  | .lstoreTypeIsDirect => lstoreTypeIsDirect env p = pure (env.stores s).lstoreIsDirect
  | .getLstoreParameters => getLstoreParameters env p =
      pure ((env.stores s).lstoreGetMpageCacheBasePtr, (env.stores s).lstoreGetMpageSize)

/-- The function selects store `s` for every pointer made with its tag and every offset. -/
def SwitchOp.Dispatches (op : SwitchOp) (s : StoreId) : Prop :=
  ∀ (σ : Type) (env : Env σ) (x k : Uintptr), x.toNat + k.toNat < 2 ^ 60 →
    Selects env s (makeMstorePtr s x + k) (x + k) op

/-- A direct store without callbacks of its own, at every position. -/
def plainStore : LStore Unit where
  lstoreInit := fun _ => pure 0
  lstoreIsDirect := true
  lstoreGetMpageSize := 0x1000
  lstoreGetMpageBits := 12
  lstoreGetMpageCacheBasePtr := 0
  lstoreGetMstoragePage := id
  lstoreGetTlb := .gtTLB
  lstoreGetMinSize := 0
  lstoreGetMaxSize := 0
  lstoreTag := id
  notifyTlbCached := fun _ => pure ()
  notifyTlbDropped := fun _ _ => pure ()
  mpfHandlerC := fun _ => pure 0
  mpfHandlerD := fun _ _ _ => pure ()
  lstoreWriteBack := fun _ _ _ => pure ()
  lstoreAlloc := fun _ => pure 0x3000
  lstoreAllocSize := fun _ => pure 16
  lstoreFree := fun _ => pure ()
  carmorLink := fun p _ _ _ => pure p
  carmorGetValidIterations := fun _ _ _ _ => pure 1
  carmorWritebackDirect := fun _ _ => pure ()

/-- The callbacks that the direct templates use. -/
def plainCallbacks : Env Unit where
  stores := fun _ => plainStore
  libc :=
    { malloc := fun _ => pure 0
      realloc := fun _ _ => pure 0
      free := fun _ => pure ()
      memalign := fun _ _ => pure 0x4000 }
  gtCrossPageBuffer := 0x8000

def plainEnv : Env Unit where
  stores := fun s =>
    { plainStore with
      carmorLink := carmorLinkDirectTemplate plainCallbacks s
      carmorWritebackDirect := carmorWritebackDirectTemplate plainCallbacks s }
  libc := plainCallbacks.libc
  gtCrossPageBuffer := plainCallbacks.gtCrossPageBuffer

def plainWorld : World Unit where
  mem := fun _ => 0
  store := ()
  toThread :=
    { tlb := fun _ => Tlb.memset 0xff
      gtDirectBuffer := 0
      gtCrosspageAccess := 0
      gtCrosspageAccessSize := 0
      trace := [] }

section Selects

variable {env : Env σ} {s : StoreId} {p u : Uintptr} (htag : switchCase p = some s)
  (horig : makeOriginalPointer p = u)
include htag horig

theorem selects_of_switchCase {op : SwitchOp} (hop : s = .lstore3 → op.readsMpageSize = false) :
    Selects env s p u op := by
  have htagged := isCarmorPtr_of_switchCase htag
  have hkept : op.readsMpageSize = true → s ≠ .lstore3 := by
    intro hreads hs
    rw [hop hs] at hreads
    cases hreads
  cases op with
  | free =>
    show carmorFree env p = lstoreFree env s u
    unfold carmorFree
    rw [htagged, htag, horig]
    rfl
  | realloc =>
    intro fuel size
    unfold carmorRealloc carmorFree
    rw [htagged, htag, horig]
    rfl
  | pageFault =>
    intro dirty
    unfold carmorPageFault
    rw [htag]
  | getValidIterationsGeneric =>
    intro ptr stepVal ptrSize
    unfold carmorGetValidIterationsGeneric
    rw [htagged, htag]
    rfl
  | writebackDirect =>
    intro ptrSize
    unfold carmorWritebackDirectTemplate
    rw [htagged, directMpageSize_eq htag, if_neg (hkept rfl), horig]
    rfl
  | writebackGeneric =>
    intro ptrSize
    unfold carmorWritebackGeneric
    rw [htagged, htag]
    rfl
  | linkDirect =>
    intro ptrSize isVectorType dirty
    unfold carmorLinkDirectTemplate
    rw [htagged, directMpageSize_eq htag, if_neg (hkept rfl), horig]
    rfl
  | linkGeneric =>
    intro ptrSize isVectorType dirty
    unfold carmorLinkGeneric
    rw [htagged, htag]
    rfl
  | lstoreTypeIsDirect =>
    show lstoreTypeIsDirect env p = pure (env.stores s).lstoreIsDirect
    unfold lstoreTypeIsDirect
    rw [htag]
  | getLstoreParameters =>
    show getLstoreParameters env p = pure _
    rw [getLstoreParameters_eq htag, if_neg (hkept rfl)]

end Selects

/-- A pointer of store 3 makes a switch that reads the page size abort. -/
theorem not_selects_lstore3 {op : SwitchOp} (hreads : op.readsMpageSize = true) :
    ¬ Selects plainEnv .lstore3 (makeMstorePtr .lstore3 0 + 0) (0 + 0) op := by
  intro h
  cases op with
  | writebackDirect =>
    have hrun := congrArg (fun x => Lib.succeeds (x plainWorld)) (h 0)
    cases hrun
  | linkDirect =>
    have hrun := congrArg (fun x => Lib.succeeds (x plainWorld)) (h 0 0 0)
    cases hrun
  | getLstoreParameters =>
    have hrun := congrArg (fun x => Lib.succeeds (x plainWorld)) h
    cases hrun
  | _ => cases hreads

theorem dispatches_iff (op : SwitchOp) (s : StoreId) :
    op.Dispatches s ↔ (s = .lstore3 → op.readsMpageSize = false) := by
  constructor
  · intro h hs
    subst hs
    by_contra hreads
    exact not_selects_lstore3 (Bool.not_eq_false _ ▸ hreads) (h Unit plainEnv 0 0 (by decide))
  · intro hop τ env x k hxk
    have hsum : (x + k).toNat < 2 ^ 60 := by
      rw [BitVec.toNat_add]
      omega
    rw [makeMstorePtr_add s hxk]
    exact selects_of_switchCase (switchCase_makeMstorePtr s hsum)
      (makeOriginalPointer_makeMstorePtr s hsum) hop

/-! ## The copy of `__carmor_realloc` -/

/-- The callbacks of store `s` return in a `realloc` of the block of `blockSize` bytes at `u`,
whose new block has room for them. -/
structure ReallocReady (env : Env σ) (s : StoreId) (u : Uintptr) (size blockSize : SizeT)
    (w : World σ) : Prop where
  mpageSize : IntSize (env.stores s).lstoreGetMpageSize
  inSpace : u.toNat + blockSize.toNat ≤ 2 ^ 60
  allocSize : ∃ m, (env.stores s).lstoreAllocSize u w.toMachine = .ok blockSize m
  alloc : ∀ m, ∃ b m', (env.stores s).lstoreAlloc size m = .ok b m' ∧ b.toNat < 2 ^ 60 ∧
    b.toNat + blockSize.toNat ≤ 2 ^ 60
  free : ∀ m, ∃ m', (env.stores s).lstoreFree u m = .ok () m'
  link : ∀ p dirty w', switchCase p = some s →
    ∃ a w'', (env.stores s).carmorLink p 0 0 dirty w' = .ok a w''

section Copy

variable {env : Env σ} {s : StoreId}

/-- The page faults inside a tagged range return. -/
theorem pageFault_returns
    (hlink : ∀ p dirty w', switchCase p = some s →
      ∃ a w'', (env.stores s).carmorLink p 0 0 dirty w' = .ok a w'')
    {x : Uintptr} (hx : x.toNat < 2 ^ 60) (i : Nat) (hi : x.toNat + i < 2 ^ 60) (dirty : Byte)
    (w : World σ) :
    ∃ a w', carmorPageFault env (makeMstorePtr s x + BitVec.ofNat 64 i) dirty w = .ok a w' := by
  have hin := toNat_ofNat_of_lt (i := i) (by omega)
  have hsum := toNat_add_ofNat (p := x) (i := i) (by omega)
  have htag : switchCase (makeMstorePtr s x + BitVec.ofNat 64 i) = some s := by
    rw [makeMstorePtr_add s (by omega), switchCase_makeMstorePtr s (by omega)]
  unfold carmorPageFault
  rw [htag, Lib.bind_of_ok (record_apply _ _)]
  exact hlink _ dirty _ htag

/-- The operand of a tagged range moves on. -/
theorem advanceLinked_returns
    (hlink : ∀ p dirty w', switchCase p = some s →
      ∃ a w'', (env.stores s).carmorLink p 0 0 dirty w' = .ok a w'')
    {x : Uintptr} (hx : x.toNat < 2 ^ 60) (i : Nat) (hi : x.toNat + i < 2 ^ 60) (o : Operand)
    (left minLeft : Int) (linkedPtr : Uintptr) (w : World σ) :
    ∃ a w', advanceLinked env o left minLeft linkedPtr (makeMstorePtr s x + BitVec.ofNat 64 i) w =
      .ok a w' := by
  unfold advanceLinked
  split
  · exact pageFault_returns hlink hx i hi o.dirty w
  · exact ⟨_, w, rfl⟩

variable (hsize : IntSize (env.stores s).lstoreGetMpageSize)
  (hlink : ∀ p dirty w', switchCase p = some s →
    ∃ a w'', (env.stores s).carmorLink p 0 0 dirty w' = .ok a w'')
  {x y : Uintptr} (hx : x.toNat < 2 ^ 60) (hy : y.toNat < 2 ^ 60)
include hsize hlink hx hy

/-- The copy between two blocks of a cached store returns. -/
theorem memcpy_returns (hs : s ≠ .lstore3) (hcached : (env.stores s).lstoreIsDirect = false)
    (n : SizeT) (fuel : Nat) (hxn : x.toNat + (toInt32 n).toNat ≤ 2 ^ 60)
    (hyn : y.toNat + (toInt32 n).toNat ≤ 2 ^ 60) (hfuel : (toInt32 n).toNat < fuel) (w : World σ) :
    ∃ a w', carmorMemcpy env fuel (makeMstorePtr s x) (makeMstorePtr s y) n w = .ok a w' := by
  have htagx := switchCase_makeMstorePtr s hx
  have htagy := switchCase_makeMstorePtr s hy
  have hcx := isCarmorPtr_of_switchCase htagx
  have hcy := isCarmorPtr_of_switchCase htagy
  let params := some ((env.stores s).lstoreGetMpageCacheBasePtr, (env.stores s).lstoreGetMpageSize)
  let b : BulkOp := ⟨⟨1, params⟩, ⟨0, params⟩, false, carmorMemcpyWrapper, false⟩
  have hsized : ∀ dirty, Operand.Sized ⟨dirty, params⟩ := by
    rintro dirty _ _ ⟨⟩
    exact hsize
  have hdirect : lstoreTypeIsDirect env
      (if isCarmorPtr (makeMstorePtr s x) then makeMstorePtr s x else makeMstorePtr s y) =
        pure false := by
    rw [if_pos hcx, lstoreTypeIsDirect_eq htagx, hcached]
  have hwrap := memWrapper_eq fuel 1 0 n carmorMemcpyWrapper false (by simp [hcx]) hdirect
    (by simp) (operandParameters_tagged htagx hs) (operandParameters_tagged htagy hs)
  have hinv : LoopInvariant env b (toInt32 n).toNat (makeMstorePtr s x) (makeMstorePtr s y)
      (fun _ _ _ _ => True) (fun _ _ => True) := by
    refine ⟨fun _ => trivial, ?_, ?_⟩
    · intro done left vl0 vr0 w _ _ hleft
      refine ⟨_, _, chunkCall_cached rfl _ _ _ _ _ w, ?_⟩
      rw [if_neg (by simp [b])]
      obtain ⟨vl0', w₁, hvl⟩ := advanceLinked_returns hlink hx (done + left) (by omega) b.vl
        (b.vl.leftIn vl0) left vl0 _
      obtain ⟨vr0', w₂, hvr⟩ := advanceLinked_returns hlink hy (done + left) (by omega) b.vr
        (b.vr.leftIn vr0) left vr0 w₁
      exact ⟨vl0', vr0', w₂, chunkAdvance_of_ok hvl hvr, trivial⟩
    · intro done vl0 vr0 w _ _ _
      refine ⟨_, _, chunkCall_cached rfl _ _ _ _ _ w, ?_⟩
      rw [if_neg (by simp [b])]
      trivial
  obtain ⟨vl0, w₁, hvl⟩ := pageFault_returns hlink hx 0 (by omega) 1 w
  obtain ⟨vr0, w₂, hvr⟩ := pageFault_returns hlink hy 0 (by omega) 0 w₁
  rw [BitVec.add_zero] at hvl hvr
  obtain ⟨res, w', hrun, -⟩ := hinv.returns_ctr ⟨hsized 1, hsized 0⟩ vl0 vr0 w₂ trivial hfuel
  refine ⟨makeMstorePtr s x, w', ?_⟩
  unfold carmorMemcpy
  refine Lib.bind_eq_ok.mpr ⟨res, w', ?_, rfl⟩
  rw [hwrap]
  refine Lib.bind_eq_ok.mpr ⟨vl0, w₁, hvl, ?_⟩
  exact Lib.bind_eq_ok.mpr ⟨vr0, w₂, hvr, hrun⟩

omit hsize hlink in
/-- In a direct store, and in store 3, the copy between two blocks does not return. -/
theorem memcpy_fails (h : s = .lstore3 ∨ (env.stores s).lstoreIsDirect = true) (n : SizeT)
    (fuel : Nat) (w : World σ) :
    ∃ e, carmorMemcpy env fuel (makeMstorePtr s x) (makeMstorePtr s y) n w = .error e w := by
  have htagx := switchCase_makeMstorePtr s hx
  have hcx := isCarmorPtr_of_switchCase htagx
  have hcy := isCarmorPtr_of_switchCase (switchCase_makeMstorePtr s hy)
  have hdirect : lstoreTypeIsDirect env
      (if isCarmorPtr (makeMstorePtr s x) then makeMstorePtr s x else makeMstorePtr s y) =
        pure (env.stores s).lstoreIsDirect := by
    rw [if_pos hcx, lstoreTypeIsDirect_eq htagx]
  unfold carmorMemcpy
  by_cases hstore : (env.stores s).lstoreIsDirect = true
  · refine ⟨.assertFailed, Lib.bind_of_error ?_ _⟩
    exact memWrapper_direct fuel 1 0 n carmorMemcpyWrapper false hdirect hstore
      (by rw [hcx, hcy]; rfl)
  · rcases h with rfl | h
    · have hwrap := memWrapper_eq_parameters fuel 1 0 n carmorMemcpyWrapper false (by simp [hcx])
        hdirect (fun h => absurd h hstore)
      refine ⟨.abort, Lib.bind_of_error ?_ _⟩
      rw [hwrap]
      exact Lib.bind_of_error (operandParameters_lstore3 htagx) _
    · exact absurd h hstore

end Copy

/-- `__carmor_realloc` returns when the callbacks do, unless the block has to grow in store 3 or
in a direct store. -/
theorem realloc_returns_iff {env : Env σ} {s : StoreId} {u : Uintptr} {size blockSize : SizeT}
    {w : World σ} (h : ReallocReady env s u size blockSize w) (hu : u.toNat < 2 ^ 60) {fuel : Nat}
    (hfuel : blockSize.toNat < fuel) :
    Lib.succeeds (carmorRealloc env fuel (makeMstorePtr s u) size w) = true ↔
      size ≤ BitVec.ofInt 64 (toInt32 blockSize) ∨
        s ≠ .lstore3 ∧ (env.stores s).lstoreIsDirect = false := by
  have htag := switchCase_makeMstorePtr s hu
  obtain ⟨m, hm⟩ := h.allocSize
  have hsize : lstoreAllocSize env s u w =
      .ok blockSize ((w.log (.lstoreAllocSize s u)).withMachine m) := by
    unfold lstoreAllocSize
    rw [Lib.bind_of_ok (record_apply _ _)]
    exact callStore_of_ok hm
  have hselects : Selects env s (makeMstorePtr s u) u .realloc :=
    selects_of_switchCase htag (makeOriginalPointer_makeMstorePtr s hu) fun _ => rfl
  rw [hselects fuel size, Lib.bind_of_ok hsize]
  by_cases hle : size ≤ BitVec.ofInt 64 (toInt32 blockSize)
  · rw [if_pos hle]
    simp [hle, Lib.succeeds]
  rw [if_neg hle]
  simp only [hle, false_or]
  obtain ⟨b, m₁, hb, hblt, hbroom⟩ := h.alloc m
  rw [Lib.bind_of_ok (lstoreAlloc_eq_ok.mpr ⟨m₁, hb, rfl⟩)]
  generalize ((((w.log (.lstoreAllocSize s u)).withMachine m).withMachine m₁).log
    (.lstoreAlloc s size b)) = w₁
  have hctr : (toInt32 (BitVec.ofInt 64 (toInt32 blockSize))).toNat ≤ blockSize.toNat := by
    have hle := toInt32_le blockSize
    rw [toInt32_ofInt_toInt32]
    omega
  constructor
  · intro hsucc
    by_contra hneg
    have hfails : s = .lstore3 ∨ (env.stores s).lstoreIsDirect = true := by
      by_cases hs : s = .lstore3
      · exact .inl hs
      · right
        by_contra hcached
        exact hneg ⟨hs, Bool.not_eq_true _ ▸ hcached⟩
    obtain ⟨e, hcopy⟩ := memcpy_fails hblt hu hfails (BitVec.ofInt 64 (toInt32 blockSize)) fuel w₁
    rw [Lib.bind_of_error hcopy] at hsucc
    cases hsucc
  · rintro ⟨hs, hcached⟩
    have hin := h.inSpace
    obtain ⟨a, w₂, hcopy⟩ := memcpy_returns h.mpageSize h.link hblt hu hs hcached
      (BitVec.ofInt 64 (toInt32 blockSize)) fuel (by omega) (by omega) (by omega) w₁
    obtain ⟨m₃, hfree⟩ := h.free (w₂.log (.lstoreFree s u)).toMachine
    have hfreed : lstoreFree env s u w₂ = .ok () ((w₂.log (.lstoreFree s u)).withMachine m₃) := by
      unfold lstoreFree
      rw [Lib.bind_of_ok (record_apply _ _)]
      exact callStore_of_ok hfree
    rw [Lib.bind_of_ok hcopy, Lib.bind_of_ok hfreed]
    rfl

/-! ## Moving a store -/

/-- The functions whose work does not depend on a store's position. -/
inductive FlatOp where
  | memcpy
  | memset
  | memcmp
  | linkDirect
  | writebackDirect

/-- On native operands and on operands in the stores of `S` the function commutes with retagging
by `π`, whatever the stores are. -/
def FlatOp.PositionFree (π : Equiv.Perm StoreId) (S : Set StoreId) (op : FlatOp) : Prop :=
  ∀ (σ : Type) (env env' : Env σ), env.Retagged π env' →
    match op with
    | .memcpy => ∀ fuel dest src n, InSpace S dest n.toNat → InSpace S src n.toNat →
        Lib.Commutes (World.retag π) (retagPtr π) (carmorMemcpy env fuel dest src n)
          (carmorMemcpy env' fuel (retagPtr π dest) (retagPtr π src) n)
    | .memset => ∀ fuel dest c n, InSpace S dest n.toNat →
        Lib.Commutes (World.retag π) (retagPtr π) (carmorMemset env fuel dest c n)
          (carmorMemset env' fuel (retagPtr π dest) c n)
    | .memcmp => ∀ fuel vl vr n, InSpace S vl n.toNat → InSpace S vr n.toNat →
        Retags π (carmorMemcmp env fuel vl vr n)
          (carmorMemcmp env' fuel (retagPtr π vl) (retagPtr π vr) n)
    | .linkDirect => ∀ s ptr ptrSize isVectorType dirty, InSpace S ptr 0 →
        Retags π (carmorLinkDirectTemplate env s ptr ptrSize isVectorType dirty)
          (carmorLinkDirectTemplate env' (π s) (retagPtr π ptr) ptrSize isVectorType dirty)
    | .writebackDirect => ∀ s ptr ptrSize, InSpace S ptr 0 →
        Retags π (carmorWritebackDirectTemplate env s ptr ptrSize)
          (carmorWritebackDirectTemplate env' (π s) (retagPtr π ptr) ptrSize)

theorem InSpace.native_or_tagged {S : Set StoreId} {p : Uintptr} {m : Nat} (h : InSpace S p m) :
    isCarmorPtr p = false ∨ ∃ s ∈ S, switchCase p = some s := by
  rcases h with ⟨hp, -⟩ | ⟨s, hs, x, rfl, hx, -⟩
  · exact .inl hp
  · exact .inr ⟨s, hs, switchCase_makeMstorePtr s hx⟩

theorem positionFree_of_keeps {π : Equiv.Perm StoreId} {S : Set StoreId}
    (hS : ∀ s ∈ S, KeepsLstore3 π s) (op : FlatOp) : op.PositionFree π S := by
  intro σ env env' h
  cases op with
  | memcpy =>
    intro fuel dest src n hdest hsrc
    unfold carmorMemcpy
    apply Lib.commutes_bind (retags_memWrapper h hS fuel 1 0 carmorMemcpyWrapper false hdest hsrc)
    intro _
    exact Lib.commutes_pure dest
  | memset =>
    intro fuel dest c n hdest
    unfold carmorMemset
    apply Lib.commutes_bind
      (retags_memWrapperSingle h hS fuel c carmorMemsetWrapper 1 false false hdest)
    intro _
    exact Lib.commutes_pure dest
  | memcmp =>
    intro fuel vl vr n hvl hvr
    exact retags_memWrapper h hS fuel 0 0 carmorMemcmpWrapper true hvl hvr
  | linkDirect =>
    intro s ptr ptrSize isVectorType dirty hptr
    rcases hptr.native_or_tagged with hnative | ⟨t, ht, htag⟩
    · unfold carmorLinkDirectTemplate
      rw [retagPtr_native π hnative, hnative]
      exact Lib.commutes_pure ptr
    · exact retags_linkDirect h (fun s hs => hS s (hptr.switchCase_mem hs)) htag s _ _ _
  | writebackDirect =>
    intro s ptr ptrSize hptr
    rcases hptr.native_or_tagged with hnative | ⟨t, ht, htag⟩
    · unfold carmorWritebackDirectTemplate
      rw [retagPtr_native π hnative, hnative]
      exact Lib.commutes_pure ()
    · exact retags_writebackDirect h (fun s hs => hS s (hptr.switchCase_mem hs)) htag s _

theorem plainEnv_retagged (π : Equiv.Perm StoreId) : plainEnv.Retagged π plainEnv where
  libc := rfl
  gtCrossPageBuffer := rfl
  callbacks := fun _ => ⟨rfl, rfl, rfl, rfl, rfl, rfl, rfl, rfl, rfl, rfl, rfl, rfl⟩
  mpageSize := fun _ => (⟨by decide, by decide⟩ : IntSize 0x1000)
  link := fun _ => .inl ⟨rfl, rfl⟩
  writeback := fun _ => ⟨rfl, rfl⟩

/-- Whether the function returns on the first address of store `s`. -/
def FlatOp.returnsOn (s : StoreId) (w : World Unit) : FlatOp → Bool
  | .memcpy => Lib.succeeds (carmorMemcpy plainEnv 1 (makeMstorePtr s 0) 0 0 w)
  | .memset => Lib.succeeds (carmorMemset plainEnv 1 (makeMstorePtr s 0) 0 0 w)
  | .memcmp => Lib.succeeds (carmorMemcmp plainEnv 1 (makeMstorePtr s 0) 0 0 w)
  | .linkDirect => Lib.succeeds (carmorLinkDirectTemplate plainEnv s (makeMstorePtr s 0) 0 0 0 w)
  | .writebackDirect =>
      Lib.succeeds (carmorWritebackDirectTemplate plainEnv s (makeMstorePtr s 0) 0 w)

theorem returnsOn_retag (op : FlatOp) (π : Equiv.Perm StoreId) (s : StoreId) :
    op.returnsOn s (plainWorld.retag π) = decide (s ≠ .lstore3) := by
  cases op <;> cases s <;> rfl

theorem returnsOn_plainWorld (op : FlatOp) (s : StoreId) :
    op.returnsOn s plainWorld = decide (s ≠ .lstore3) := by
  cases op <;> cases s <;> rfl

theorem FlatOp.PositionFree.returnsOn_eq {π : Equiv.Perm StoreId} {S : Set StoreId} {op : FlatOp}
    (h : op.PositionFree π S) {s : StoreId} (hs : s ∈ S) :
    op.returnsOn (π s) (plainWorld.retag π) = op.returnsOn s plainWorld := by
  have hzero : (0 : Uintptr).toNat < 2 ^ 60 := by decide
  have hin : InSpace S (makeMstorePtr s 0) 0 := .inr ⟨s, hs, 0, rfl, hzero, by decide⟩
  have hnative : InSpace S 0 0 := .inl ⟨rfl, by decide⟩
  have hretag : retagPtr π (makeMstorePtr s 0) = makeMstorePtr (π s) 0 :=
    retagPtr_makeMstorePtr π hzero
  have hcall := h Unit plainEnv plainEnv (plainEnv_retagged π)
  unfold FlatOp.returnsOn
  rw [← hretag]
  cases op with
  | memcpy => exact (hcall 1 _ _ 0 hin hnative).succeeds_eq plainWorld
  | memset => exact (hcall 1 _ 0 0 hin).succeeds_eq plainWorld
  | memcmp => exact (hcall 1 _ _ 0 hin hnative).succeeds_eq plainWorld
  | linkDirect => exact (hcall s _ 0 0 0 hin).succeeds_eq plainWorld
  | writebackDirect => exact (hcall s _ 0 hin).succeeds_eq plainWorld

theorem positionFree_iff (op : FlatOp) (π : Equiv.Perm StoreId) (S : Set StoreId) :
    op.PositionFree π S ↔ ∀ s ∈ S, KeepsLstore3 π s := by
  constructor
  · intro h s hs
    have hreturns := h.returnsOn_eq hs
    rw [returnsOn_retag, returnsOn_plainWorld, decide_eq_decide] at hreturns
    exact not_iff_not.mp hreturns.symm
  · intro hS
    exact positionFree_of_keeps hS op

/-! ## Uniform dispatch -/

/-- Every switch selects the pointer's store, except that the switches on the page size abort on
store 3. The copy of `__carmor_realloc` runs into such a switch, and into the assertion that
not both operands are in a direct store. The bulk and direct operations commute with retagging
exactly if no operand's store is moved from or to position 3. -/
theorem uniformDispatch_iff (op : SwitchOp) (flatOp : FlatOp) (s : StoreId)
    (π : Equiv.Perm StoreId) (S : Set StoreId) :
    (op.Dispatches s ↔ (s = .lstore3 → op.readsMpageSize = false)) ∧
    (∀ (σ : Type) (env : Env σ) (x k : Uintptr) (size blockSize : SizeT) (w : World σ)
      (fuel : Nat), x.toNat + k.toNat < 2 ^ 60 →
      ReallocReady env s (x + k) size blockSize w → blockSize.toNat < fuel →
      (Lib.succeeds (carmorRealloc env fuel (makeMstorePtr s x + k) size w) = true ↔
        size ≤ BitVec.ofInt 64 (toInt32 blockSize) ∨
          s ≠ .lstore3 ∧ (env.stores s).lstoreIsDirect = false)) ∧
    (flatOp.PositionFree π S ↔ ∀ t ∈ S, (t = .lstore3 ↔ π t = .lstore3)) := by
  refine ⟨dispatches_iff op s, ?_, positionFree_iff flatOp π S⟩
  intro σ env x k size blockSize w fuel hxk hready hfuel
  have hsum : (x + k).toNat < 2 ^ 60 := by
    rw [BitVec.toNat_add]
    omega
  rw [makeMstorePtr_add s hxk]
  exact realloc_returns_iff hready hsum hfuel

/-- Every page fault of `plainEnv` outside store 3 returns. -/
theorem plainEnv_link {s : StoreId} (hs : s ≠ .lstore3) {p : Uintptr} (htag : switchCase p = some s)
    (dirty : Byte) (w : World Unit) :
    ∃ a w', (plainEnv.stores s).carmorLink p 0 0 dirty w = .ok a w' := by
  have hbuffer : ∃ a w', carmorGetLstoreDirectBuffer plainCallbacks 0x1000 w = .ok a w' := by
    unfold carmorGetLstoreDirectBuffer
    rw [Lib.bind_of_ok (get_apply w)]
    by_cases hzero : (w.gtDirectBuffer == 0) = true
    · rw [if_pos hzero]
      exact ⟨_, _, rfl⟩
    · rw [if_neg hzero]
      exact ⟨_, _, rfl⟩
  obtain ⟨a, w', hbuffer⟩ := hbuffer
  refine ⟨a, w'.log (.mpfHandlerD s (makeOriginalPointer p) a 0), ?_⟩
  show carmorLinkDirectTemplate plainCallbacks s p 0 0 dirty w = _
  unfold carmorLinkDirectTemplate
  rw [isCarmorPtr_of_switchCase htag, directMpageSize_eq htag, if_neg hs]
  exact Lib.bind_of_ok hbuffer _

/-- Store 1: its parameters are read, a block that must grow is not copied as the store is
direct, and `memcpy` is the same as at position 0. -/
theorem uniformDispatch_lstore1 :
    SwitchOp.getLstoreParameters.Dispatches .lstore1 ∧
    Lib.succeeds (carmorRealloc plainEnv 17 (makeMstorePtr .lstore1 0x2000 + 0) 8 plainWorld) = true ∧
    Lib.succeeds (carmorRealloc plainEnv 17 (makeMstorePtr .lstore1 0x2000 + 0) 64 plainWorld) ≠
      true ∧
    FlatOp.memcpy.PositionFree (Equiv.swap .lstore0 .lstore1) {.lstore0, .lstore1} := by
  have hready : ∀ size, ReallocReady plainEnv .lstore1 (0x2000 + 0) size 16 plainWorld := by
    intro size
    refine ⟨(⟨by decide, by decide⟩ : IntSize 0x1000), by decide, ⟨_, rfl⟩, ?_, ?_, ?_⟩
    · exact fun m => ⟨0x3000, m, rfl, by decide, by decide⟩
    · exact fun m => ⟨m, rfl⟩
    · exact fun p dirty w htag => plainEnv_link (by decide) htag dirty w
  obtain ⟨hdispatch, hrealloc, hfree⟩ := uniformDispatch_iff .getLstoreParameters .memcpy .lstore1
    (Equiv.swap .lstore0 .lstore1) {.lstore0, .lstore1}
  refine ⟨hdispatch.mpr (by decide), ?_, ?_, hfree.mpr ?_⟩
  · have hiff := hrealloc Unit plainEnv 0x2000 0 8 16 plainWorld 17 (by decide) (hready 8)
      (by decide)
    exact hiff.mpr (.inl (by decide))
  · have hiff := hrealloc Unit plainEnv 0x2000 0 64 16 plainWorld 17 (by decide)
      (hready 64) (by decide)
    rw [Ne, hiff]
    rintro (hle | ⟨-, hcached⟩)
    · exact absurd hle (by decide)
    · cases hcached
  · intro s _
    cases s <;> decide

/-- The parameters of store 3 are not returned, and a `memcpy` that works at position 0 aborts at
position 3. -/
theorem not_uniformDispatch :
    getLstoreParameters plainEnv (makeMstorePtr .lstore3 0x2000 + 4) plainWorld =
      .error .abort plainWorld ∧
    ¬ SwitchOp.getLstoreParameters.Dispatches .lstore3 ∧
    ¬ FlatOp.memcpy.PositionFree (Equiv.swap .lstore0 .lstore3) {.lstore0} := by
  refine ⟨rfl, ?_, ?_⟩
  · rw [dispatches_iff]
    exact fun h => absurd (h rfl) (by decide)
  · rw [positionFree_iff]
    exact fun h => absurd ((h .lstore0 rfl).mpr (Equiv.swap_apply_left _ _)) (by decide)

end Carmor
