import Carmor.Proofs.HeapSteps
import Carmor.Proofs.Resident

/-!
# Failing allocations

What the allocation functions do when `lstore_alloc` returns NULL. Only
`__carmor_memalign_template` tests the result; the others tag it, and a tagged NULL is a pointer
to the start of the store.
-/

namespace Carmor

variable {σ : Type}

/-- A call of one of the functions that allocate from a store. -/
inductive AllocOp where
  | malloc (size : SizeT)
  | calloc (numOfElements elementsSize : SizeT)
  | memalign (alignment n : SizeT)
  | realloc (ptr : Uintptr) (size : SizeT)
  deriving DecidableEq

namespace AllocOp

def exec (env : Env σ) (s : StoreId) (fuel : Nat) : AllocOp → Exec σ Uintptr
  | malloc size => carmorMallocTemplate env s size
  | calloc numOfElements elementsSize => carmorCallocTemplate env s fuel numOfElements elementsSize
  | memalign alignment n => carmorMemalignTemplate env s alignment n
  | realloc ptr size => carmorRealloc env fuel ptr size

/-- The call reaches `lstore_alloc` of store `s`, which returns NULL and leaves the machine `m`. -/
inductive AllocFails (env : Env σ) (s : StoreId) (w : World σ) : AllocOp → Machine σ → Prop
  | malloc {size : SizeT} {m : Machine σ}
      (hrange : ¬ (size < (env.stores s).lstoreGetMinSize ∨ (env.stores s).lstoreGetMaxSize ≤ size))
      (hnull : (env.stores s).lstoreAlloc size w.toMachine = .ok 0 m) :
      AllocFails env s w (.malloc size) m
  | calloc {numOfElements elementsSize : SizeT} {m : Machine σ}
      (hrange : ¬ (numOfElements * elementsSize < (env.stores s).lstoreGetMinSize ∨
        (env.stores s).lstoreGetMaxSize ≤ numOfElements * elementsSize))
      (hnull : (env.stores s).lstoreAlloc (numOfElements * elementsSize) w.toMachine = .ok 0 m) :
      AllocFails env s w (.calloc numOfElements elementsSize) m
  | memalign {alignment n : SizeT} {m : Machine σ}
      (hnull : (env.stores s).lstoreAlloc (n + (alignment - 1) + 8) w.toMachine = .ok 0 m) :
      AllocFails env s w (.memalign alignment n) m
  | realloc {ptr : Uintptr} {size origSize : SizeT} {m₀ m : Machine σ}
      (htag : switchCase ptr = some s)
      (hsize : (env.stores s).lstoreAllocSize (makeOriginalPointer ptr) w.toMachine =
        .ok origSize m₀)
      (hgrow : ¬ size ≤ BitVec.ofInt 64 (toInt32 origSize))
      (hnull : (env.stores s).lstoreAlloc size m₀ = .ok 0 m) :
      AllocFails env s w (.realloc ptr size) m

/-- The call returns an untagged NULL, leaves the machine as the failed `lstore_alloc` left it and
frees nothing. -/
def FailureReported (env : Env σ) (s : StoreId) (w : World σ) (op : AllocOp) (m : Machine σ) :
    Prop :=
  ∃ fuel w' es, op.exec env s fuel w = .ok 0 w' ∧ w'.toMachine = m ∧ w'.trace = es ++ w.trace ∧
    ∀ t p, .lstoreFree t p ∉ es

end AllocOp

open AllocOp

section Results

variable {env : Env σ} {s : StoreId} {w w' : World σ} {m : Machine σ} {res : Uintptr}
  (htag : (env.stores s).lstoreTag = makeMstorePtr s)

include htag in
/-- `__carmor_malloc_template` tags the NULL it gets. -/
theorem malloc_of_null {size : SizeT}
    (hrange : ¬ (size < (env.stores s).lstoreGetMinSize ∨ (env.stores s).lstoreGetMaxSize ≤ size))
    (hnull : (env.stores s).lstoreAlloc size w.toMachine = .ok 0 m) :
    carmorMallocTemplate env s size w =
      .ok (makeMstorePtr s 0) ((w.withMachine m).log (.lstoreAlloc s size 0)) := by
  rw [malloc_eq_ok, if_neg hrange]
  exact ⟨0, m, hnull, by rw [htag], rfl⟩

include htag in
/-- `__carmor_calloc_template` returns the tagged NULL if its `memset` returns. -/
theorem calloc_of_null {fuel : Nat} {numOfElements elementsSize : SizeT}
    (hrange : ¬ (numOfElements * elementsSize < (env.stores s).lstoreGetMinSize ∨
      (env.stores s).lstoreGetMaxSize ≤ numOfElements * elementsSize))
    (hnull : (env.stores s).lstoreAlloc (numOfElements * elementsSize) w.toMachine = .ok 0 m)
    (h : carmorCallocTemplate env s fuel numOfElements elementsSize w = .ok res w') :
    res = makeMstorePtr s 0 := by
  rw [carmorCallocTemplate, Lib.bind_of_ok (malloc_of_null htag hrange hnull)] at h
  obtain ⟨_, w₁, -, hres⟩ := Lib.bind_eq_ok.mp h
  cases hres
  rfl

/-- `__carmor_realloc` copies to the tagged NULL, and frees the old block if the copy returns. -/
theorem realloc_of_null {fuel : Nat} {ptr : Uintptr} {size origSize : SizeT} {m₀ : Machine σ}
    (hptr : switchCase ptr = some s)
    (hsize : (env.stores s).lstoreAllocSize (makeOriginalPointer ptr) w.toMachine =
      .ok origSize m₀)
    (hgrow : ¬ size ≤ BitVec.ofInt 64 (toInt32 origSize))
    (hnull : (env.stores s).lstoreAlloc size m₀ = .ok 0 m)
    (h : carmorRealloc env fuel ptr size w = .ok res w') :
    res = makeMstorePtr s 0 ∧ .lstoreFree s (makeOriginalPointer ptr) ∈ w'.trace := by
  obtain ⟨n, m₁, hsize', hrest⟩ := realloc_eq_ok hptr h
  cases hsize.symm.trans hsize'
  rw [if_neg hgrow] at hrest
  obtain ⟨b, m₂, a, w₁, hnull', rfl, -, hfree⟩ := hrest
  cases hnull.symm.trans hnull'
  obtain ⟨m₃, -, rfl⟩ := free_eq_ok hptr hfree
  exact ⟨rfl, List.mem_cons_self⟩

/-- `__carmor_memalign_template` returns NULL and does nothing else. -/
theorem memalign_of_null {alignment n : SizeT}
    (hnull : (env.stores s).lstoreAlloc (n + (alignment - 1) + 8) w.toMachine = .ok 0 m) :
    carmorMemalignTemplate env s alignment n w =
      .ok 0 ((w.withMachine m).log (.lstoreAlloc s (n + (alignment - 1) + 8) 0)) := by
  rw [carmorMemalignTemplate, Lib.bind_of_ok (lstoreAlloc_eq_ok.mpr ⟨m, hnull, rfl⟩), if_pos rfl]
  rfl

end Results

theorem makeMstorePtr_zero_ne (s : StoreId) : makeMstorePtr s 0 ≠ 0 := by
  cases s <;> decide

/-- A failed allocation is reported as a NULL, with nothing written and nothing freed, exactly by
`__carmor_memalign_template`. -/
theorem failureReported_iff_memalign {env : Env σ} {s : StoreId}
    (htag : (env.stores s).lstoreTag = makeMstorePtr s) {w : World σ} {op : AllocOp}
    {m : Machine σ} (hfails : AllocFails env s w op m) :
    FailureReported env s w op m ↔ ∃ alignment n, op = .memalign alignment n := by
  have hne := makeMstorePtr_zero_ne s
  constructor
  · rintro ⟨fuel, w', es, hexec, -⟩
    cases hfails with
    | malloc hrange hnull =>
      have hres := (malloc_of_null htag hrange hnull).symm.trans hexec
      exact absurd (EStateM.Result.ok.inj hres).1 hne
    | calloc hrange hnull => exact absurd (calloc_of_null htag hrange hnull hexec).symm hne
    | memalign hnull => exact ⟨_, _, rfl⟩
    | realloc hptr hsize hgrow hnull =>
      exact absurd (realloc_of_null hptr hsize hgrow hnull hexec).1.symm hne
  · rintro ⟨alignment, n, rfl⟩
    cases hfails with
    | memalign hnull =>
      refine ⟨0, _, [.lstoreAlloc s (n + (alignment - 1) + 8) 0], memalign_of_null hnull, rfl, rfl,
        ?_⟩
      intro t p hmem
      cases List.mem_singleton.mp hmem

/-- `smallEnv` with a block of 16 bytes in a store that is full. -/
def fullEnv : Env Pins :=
  { smallEnv with stores := fun s => { smallEnv.stores s with lstoreAllocSize := fun _ => pure 16 } }

/-- A world of `fullEnv` in which the block at address `0x2000` holds the byte 7. -/
def fullWorld : World Pins :=
  initialWorld.withMem fun a => if a = smallGeometry.frameAddress 2 0 then 7 else 0

/-- The failure of a `memalign` is reported. -/
theorem failureReported_memalign :
    FailureReported fullEnv .lstore0 fullWorld (.memalign 64 100) fullWorld.toMachine :=
  (@failureReported_iff_memalign _ fullEnv .lstore0 rfl fullWorld _ _ (.memalign rfl)).mpr
    ⟨64, 100, rfl⟩

/-- Growing the block of a full store: `__carmor_realloc` overwrites the storage at address 0
with the old block, frees the old block and returns a tagged pointer. -/
theorem not_failureReported_realloc :
    AllocFails fullEnv .lstore0 fullWorld (.realloc (makeMstorePtr .lstore0 0x2000) 32)
      fullWorld.toMachine ∧
    ¬ FailureReported fullEnv .lstore0 fullWorld (.realloc (makeMstorePtr .lstore0 0x2000) 32)
      fullWorld.toMachine ∧
    ∃ w', carmorRealloc fullEnv 2 (makeMstorePtr .lstore0 0x2000) 32 fullWorld =
        .ok (makeMstorePtr .lstore0 0) w' ∧
      fullWorld.mem (smallGeometry.frameAddress 0 0) = 0 ∧
      w'.mem (smallGeometry.frameAddress 0 0) = 7 ∧ .lstoreFree .lstore0 0x2000 ∈ w'.trace := by
  have hsize : (fullEnv.stores .lstore0).lstoreAllocSize
      (makeOriginalPointer (makeMstorePtr .lstore0 0x2000)) fullWorld.toMachine =
        .ok 16 fullWorld.toMachine := rfl
  have hgrow : ¬ (32 : SizeT) ≤ BitVec.ofInt 64 (toInt32 16) := by decide
  have hnull : (fullEnv.stores .lstore0).lstoreAlloc 32 fullWorld.toMachine =
      .ok 0 fullWorld.toMachine := rfl
  refine ⟨.realloc (by decide) hsize hgrow hnull, ?_, ?_⟩
  · rintro ⟨fuel, w', es, hexec, -⟩
    exact absurd (realloc_of_null (by decide) hsize hgrow hnull hexec).1.symm
      (makeMstorePtr_zero_ne _)
  · obtain ⟨res, hexec⟩ := Lib.exists_ok_of_succeeds
      (r := carmorRealloc fullEnv 2 (makeMstorePtr .lstore0 0x2000) 32 fullWorld) (by decide +kernel)
    obtain ⟨rfl, hfree⟩ := realloc_of_null (by decide) hsize hgrow hnull hexec
    exact ⟨_, hexec, by decide +kernel, by decide +kernel, hfree⟩

end Carmor
