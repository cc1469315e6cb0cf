import Carmor.Proofs.PagedHeap
import Carmor.Proofs.Placement

/-!
# `__carmor_realloc`

In every heap that a program reaches by allocating, reallocating and freeing blocks in cached
stores, `__carmor_realloc` of a live block gives a live block of the same store with the old
contents, and leaves the other blocks alone.
-/

namespace Carmor

variable {σ : Type} {h : BlockHeap σ} {env : Env σ}

namespace BlockHeap

/-- The heap operations of a program; anything else that it does is `other`. -/
inductive Op where
  | malloc (s : StoreId) (size : SizeT)
  | realloc (p : Uintptr) (size : SizeT)
  | free (p : Uintptr)
  | other

/-- A heap operation whose allocation succeeds, with page faults that behave for its copy, and after
which all blocks are below `2 ^ 31` bytes. The program may do anything to its own state and to the
contents of its blocks. -/
def Step (h : BlockHeap σ) (env : Env σ) (fuel : Nat) (w : World σ) (op : Op) (w' : World σ) : Prop :=
  h.Small w' ∧ match op with
  | .malloc s size => BulkStore env h.residency s ∧ (env.stores s).InRange size ∧
      ∃ p, carmorMallocTemplate env s size w = .ok p w' ∧ makeOriginalPointer p ≠ 0
  | .realloc p size => h.live w.store p ≠ none ∧ h.FaultsBehave env p size w ∧
      ∃ res, carmorRealloc env fuel p size w = .ok res w' ∧ makeOriginalPointer res ≠ 0
  | .free p => h.live w.store p ≠ none ∧ carmorFree env p w = .ok () w'
  | .other => h.inv w' ∧ h.live w'.store = h.live w.store

/-- A pointer that is not NULL with a tag comes from an address that is not 0. -/
theorem ne_zero_of_makeOriginalPointer {s : StoreId} {b : Uintptr}
    (hb : makeOriginalPointer (makeMstorePtr s b) ≠ 0) : b ≠ 0 := by
  rintro rfl
  exact hb (makeOriginalPointer_makeMstorePtr s (by decide))

section Step

variable (hkeeps : h.Keeps env) {fuel : Nat} (hfuel : 2 ^ 31 ≤ fuel) {w w' : World σ}
  (hw : h.WellFormed env w) (hsmall : h.Small w)
include hkeeps hw hsmall

/-- A call of `__carmor_realloc` that has returned had its allocation. -/
theorem allocSucceeds_of_ok {p : Uintptr} {k : Nat} (hlive : h.live w.store p = some k)
    {size : SizeT} {res : Uintptr} (hrun : carmorRealloc env fuel p size w = .ok res w')
    (hres : makeOriginalPointer res ≠ 0) : AllocSucceeds env p size w := by
  intro s n m htag hquery hlt
  obtain ⟨-, -, ⟨m', hquery', -⟩, -⟩ := exists_lstoreAllocSize hkeeps hw hlive htag
  cases hquery.symm.trans hquery'
  obtain ⟨n, m', hquery'', hrest⟩ := realloc_eq_ok htag hrun
  cases hquery.symm.trans hquery''
  rw [ofInt_toInt32 (hsmall p k hlive), if_neg (BitVec.not_le.mpr hlt)] at hrest
  obtain ⟨b, m₁, a, w₁, hrun', rfl, -, -⟩ := hrest
  exact ⟨b, m₁, hrun', ne_zero_of_makeOriginalPointer hres⟩

include hfuel in
/-- Every operation keeps the heap well-formed. -/
theorem wellFormed_step {op : Op} (hstep : h.Step env fuel w op w') :
    h.WellFormed env w' ∧ h.Small w' := by
  obtain ⟨hsmall', hop⟩ := hstep
  refine ⟨?_, hsmall'⟩
  cases op with
  | malloc s size =>
    obtain ⟨hstore, hrange, p, hrun, hp⟩ := hop
    rw [malloc_eq_ok, if_neg (LStore.inRange_iff.mp hrange)] at hrun
    obtain ⟨b, m, hrun', rfl, rfl⟩ := hrun
    rw [hkeeps.tag] at hp
    obtain ⟨k, -, hw'⟩ :=
      exists_allocated hkeeps hw hstore hrun' (ne_zero_of_makeOriginalPointer hp)
    exact hw'
  | realloc p size =>
    obtain ⟨hne, hfaults, res, hrun, hres⟩ := hop
    obtain ⟨k, hlive⟩ := Option.ne_none_iff_exists'.mp hne
    have hk := hsmall p k hlive
    have halloc := allocSucceeds_of_ok hkeeps hw hsmall hlive hrun hres
    obtain ⟨res', k', w₁, hrun', -, hw'⟩ :=
      exists_realloc hkeeps hw hlive hk (show k < fuel by omega) halloc hfaults
    cases hrun.symm.trans hrun'
    exact hw'
  | free p =>
    obtain ⟨hne, hrun⟩ := hop
    obtain ⟨k, hlive⟩ := Option.ne_none_iff_exists'.mp hne
    obtain ⟨s, htag, -⟩ := (hw.block p k hlive).store
    obtain ⟨w₁, hrun', hw', -⟩ := exists_carmorFree hkeeps hw hlive htag
    cases hrun.symm.trans hrun'
    exact hw'
  | other =>
    obtain ⟨hinv, hlive⟩ := hop
    exact hw.congr hinv hlive

end Step

/-- The heap of a program without blocks. -/
theorem wellFormed_of_empty {w : World σ} (hinv : h.inv w) (hempty : ∀ p, h.live w.store p = none) :
    h.WellFormed env w ∧ h.Small w := by
  refine ⟨⟨hinv, ?_, ?_⟩, ?_⟩
  · intro p k hp
    simp [hempty] at hp
  · intro p q j k hp
    simp [hempty] at hp
  · intro p k hp
    simp [hempty] at hp

end BlockHeap

/-- In every heap reached from one without blocks `__carmor_realloc` of a live block returns a live
block of the same store and at least the new size, with the old contents up to the smaller size, in
place of the old one, and all other blocks keep their contents. -/
theorem realloc_preserves (hkeeps : h.Keeps env) {fuel : Nat} (hfuel : 2 ^ 31 ≤ fuel)
    {w₀ w : World σ} (hinv : h.inv w₀) (hempty : ∀ p, h.live w₀.store p = none)
    {ops : List BlockHeap.Op} (hrun : Lib.Run (h.Step env fuel) w₀ ops w) {p : Uintptr} {k : Nat}
    (hlive : h.live w.store p = some k) {size : SizeT}
    (halloc : BlockHeap.AllocSucceeds env p size w) (hfaults : h.FaultsBehave env p size w) :
    ∃ res k' w', carmorRealloc env fuel p size w = .ok res w' ∧
      h.Reallocated w p k size res k' w' := by
  obtain ⟨hw, hsmall⟩ := hrun.invariant (I := fun w => h.WellFormed env w ∧ h.Small w)
    (fun _ _ _ _ hw hstep => BlockHeap.wellFormed_step hkeeps hfuel hw.1 hw.2 hstep)
    (BlockHeap.wellFormed_of_empty hinv hempty)
  have hk := hsmall p k hlive
  obtain ⟨res, k', w', hrun', hr, -⟩ :=
    BlockHeap.exists_realloc hkeeps hw hlive hk (show k < fuel by omega) halloc hfaults
  exact ⟨res, k', w', hrun', hr⟩

/-! ## A store that evicts -/

namespace PagedStore

/-- The world after a `malloc`. -/
def worldAllocated : World PagedStore :=
  Lib.finalState (carmorMallocTemplate (pagedEnv true) .lstore0 100 (initialWorld true))

/-- Reads that fill the six frames. -/
def fillingReads : List LinkCall :=
  [0xa000, 0xb000, 0xc000, 0xd000, 0xe000, 0xf000].map fun u => linkAt u 0

/-- The world after them. -/
def worldFilled : World PagedStore :=
  Lib.finalState (LinkCall.execAll (pagedEnv true) .lstore0 fillingReads worldAllocated)

theorem fillingReads_inPage : ∀ c ∈ fillingReads, c.InPage .lstore0 smallGeometry 256 := by
  have hcalls : fillingReads.all (fun c => decide (c.InPage .lstore0 smallGeometry 256)) = true := by
    decide +kernel
  exact fun c hc => of_decide_eq_true (List.all_eq_true.mp hcalls c hc)

theorem carmorMalloc_pagedEnv :
    carmorMallocTemplate (pagedEnv true) .lstore0 100 (initialWorld true) =
      .ok (blockPtr 1) worldAllocated := rfl

theorem worldAllocated_inv : pagedHeap.inv worldAllocated :=
  pagedHeap_keeps.log (e := .lstoreAlloc .lstore0 100 0x1000)
    (inv_setBlock initialWorld_inv 1 (some 100) (by
      rintro k ⟨⟩
      decide))

theorem worldFilled_inv :
    pagedHeap.inv worldFilled ∧ worldFilled.store.block = worldAllocated.store.block :=
  inv_of_links fillingReads_inPage
    (LinkCall.run_of_execAll (Lib.exists_ok_of_succeeds (by decide +kernel)).choose_spec)
    worldAllocated_inv

theorem small_of_inv {w : World PagedStore} (hinv : pagedHeap.inv w) : pagedHeap.Small w := by
  intro p k hp
  obtain ⟨i, -, -, -, hsize⟩ := liveBlocks_eq_some hp
  have hle := hinv.2 i k hsize
  omega

theorem run_worldFilled : Lib.Run (pagedHeap.Step (pagedEnv true) (2 ^ 31)) (initialWorld true)
    [.malloc .lstore0 100, .other] worldFilled := by
  obtain ⟨hinv, hblock⟩ := worldFilled_inv
  have hlive : liveBlocks worldFilled.store = liveBlocks worldAllocated.store := by
    unfold liveBlocks
    rw [hblock]
  have hmalloc : pagedHeap.Step (pagedEnv true) (2 ^ 31) (initialWorld true) (.malloc .lstore0 100)
      worldAllocated := ⟨small_of_inv worldAllocated_inv, pagedEnv_bulkStore,
    ⟨by decide, by decide⟩, blockPtr 1, carmorMalloc_pagedEnv, by decide⟩
  exact .cons hmalloc (.cons ⟨small_of_inv hinv, hinv, hlive⟩ (.nil _))

/-- The block at page 1 has 100 bytes. -/
theorem liveBlocks_worldFilled : pagedHeap.live worldFilled.store (blockPtr 1) = some 100 := by
  have hblock : worldFilled.store.block 1 = some 100 := by
    rw [worldFilled_inv.2]
    rfl
  exact (live_blockPtr (by decide) (by decide) worldFilled.store).trans hblock

/-- Page 2 is free. -/
theorem freeBlock_worldFilled : freeBlock worldFilled.store = some 2 := by
  unfold freeBlock
  rw [worldFilled_inv.2]
  rfl

/-- A block of 100 bytes is moved to a block of 200 bytes. The six frames hold pages 10 to 15, so the
page faults of the copy evict two of them. -/
theorem realloc_preserves_evicting : ∃ res k' w',
    carmorRealloc (pagedEnv true) (2 ^ 31) (blockPtr 1) 200 worldFilled = .ok res w' ∧
      pagedHeap.Reallocated worldFilled (blockPtr 1) 100 200 res k' w' :=
  realloc_preserves pagedHeap_keeps (Nat.le_refl _) initialWorld_inv liveBlocks_initialWorld
    run_worldFilled liveBlocks_worldFilled
    (allocSucceeds_of_free freeBlock_worldFilled (by decide) (switchCase_blockPtr (by decide)))
    (faultsBehave worldFilled_inv.1 liveBlocks_worldFilled 200)

end PagedStore

end Carmor
