import Carmor.Lib.Blocks
import Carmor.Proofs.HeapSteps
import Carmor.Proofs.Memcpy

/-!
# Heaps of blocks in cached stores

`BlockHeap` is what a program knows of the blocks in its stores: which are live, and where their
bytes are in the flat memory. `Keeps` is the contract of the callbacks that allocate, and `CopyHeld`
what one copy needs of page faults. Under them `__carmor_realloc` replaces a block by one with the
same contents.
-/

namespace Carmor

variable {σ : Type}

/-- The blocks that a program has in its stores. -/
structure BlockHeap (σ : Type) where
  residency : Residency σ
  live : σ → Lib.Blocks Uintptr
  /-- The states of the program. -/
  inv : World σ → Prop

namespace BlockHeap

variable (h : BlockHeap σ) (env : Env σ)

/-- The bytes as the program sees them. -/
def flat (m : Machine σ) : Memory := h.residency.flat m

/-- The live blocks of the first state have the same contents in the second. -/
def SameBlocks (blocks : Lib.Blocks Uintptr) (m m' : Machine σ) : Prop :=
  Lib.Blocks.Same cells blocks (h.flat m) (h.flat m')

/-- A block of `k` bytes at a pointer of a cached store. -/
structure BlockAt (p : Uintptr) (k : Nat) : Prop where
  store : ∃ s, switchCase p = some s ∧ BulkStore env h.residency s
  inStore : (makeOriginalPointer p).toNat + k ≤ 2 ^ 60

/-- The store has allocated a fresh block of `k` bytes at `b`. -/
structure Allocated (s : StoreId) (size : SizeT) (m : Machine σ) (b : Uintptr) (m' : Machine σ)
    (k : Nat) : Prop where
  size_le : size.toNat ≤ k
  storage_lt : b.toNat < 2 ^ 60
  inStore : b.toNat + k ≤ 2 ^ 60
  fresh : h.live m.store (makeMstorePtr s b) = none
  clear : Lib.Blocks.Clear cells (h.live m.store) (makeMstorePtr s b) k
  live : h.live m'.store = (h.live m.store).insert (makeMstorePtr s b) k
  same : h.SameBlocks (h.live m.store) m m'

/-- The callbacks of the stores keep the heap: an allocation that succeeds, that is, does not return
0, gives a fresh block. -/
structure Keeps : Prop where
  log : ∀ {w e}, h.inv w → h.inv (w.log e)
  tag : ∀ s, (env.stores s).lstoreTag = makeMstorePtr s
  alloc : ∀ {w s size b m}, h.inv w → BulkStore env h.residency s →
    (env.stores s).lstoreAlloc size w.toMachine = .ok b m → b ≠ 0 →
    h.inv (w.withMachine m) ∧ ∃ k, h.Allocated s size w.toMachine b m k
  allocSize : ∀ {w s p k}, h.inv w → h.live w.store p = some k → switchCase p = some s →
    ∃ m, (env.stores s).lstoreAllocSize (makeOriginalPointer p) w.toMachine =
        .ok (BitVec.ofNat 64 k) m ∧
      h.inv (w.withMachine m) ∧ h.live m.store = h.live w.store ∧
      h.SameBlocks (h.live w.store) w.toMachine m
  free : ∀ {w s p k}, h.inv w → h.live w.store p = some k → switchCase p = some s →
    ∃ m, (env.stores s).lstoreFree (makeOriginalPointer p) w.toMachine = .ok () m ∧
      h.inv (w.withMachine m) ∧ h.live m.store = (h.live w.store).remove p ∧
      h.SameBlocks ((h.live w.store).remove p) w.toMachine m

/-- The page faults of a copy of `k` bytes from `p` to `q` hold the pages of these bytes, and no
others, until the copy ends. They keep the blocks. -/
def CopyHeld (q p : Uintptr) (k : Nat) (w : World σ) : Prop :=
  ∃ Inv, FaultsHeld env h.residency (operandPtrs q p k) Inv ∧ Inv ∅ w ∧
    ∀ K w', Inv K w' → h.inv w' ∧ h.live w'.store = h.live w.store

/-- The live blocks lie in cached stores and do not overlap. -/
structure WellFormed (w : World σ) : Prop where
  inv : h.inv w
  block : ∀ p k, h.live w.store p = some k → h.BlockAt env p k
  apart : Lib.Blocks.Apart cells (h.live w.store)

/-- The sizes of all live blocks are below `2 ^ 31`. -/
def Small (w : World σ) : Prop := ∀ p k, h.live w.store p = some k → k < 2 ^ 31

/-- If `__carmor_realloc` asks the store for a new block, it gets one. -/
def AllocSucceeds (p : Uintptr) (size : SizeT) (w : World σ) : Prop :=
  ∀ s n m, switchCase p = some s →
    (env.stores s).lstoreAllocSize (makeOriginalPointer p) w.toMachine = .ok n m → n < size →
    ∃ b m', (env.stores s).lstoreAlloc size m = .ok b m' ∧ b ≠ 0

/-- If `__carmor_realloc` copies the block at `p` to a new one, page faults behave for this copy. -/
def FaultsBehave (p : Uintptr) (size : SizeT) (w : World σ) : Prop :=
  ∀ s n w₁ b w₂, switchCase p = some s → lstoreAllocSize env s (makeOriginalPointer p) w = .ok n w₁ →
    n < size → lstoreAlloc env s size w₁ = .ok b w₂ → b ≠ 0 →
    h.CopyHeld env (makeMstorePtr s b) p n.toNat w₂

/-- `__carmor_realloc` has replaced the block of `k` bytes at `p` by one of `k'` bytes at `res`. -/
structure Reallocated (w : World σ) (p : Uintptr) (k : Nat) (size : SizeT) (res : Uintptr)
    (k' : Nat) (w' : World σ) : Prop where
  tag : switchCase res = switchCase p
  size_le : size.toNat ≤ k'
  /-- The new block takes the place of the old one among the live blocks. -/
  live : h.live w'.store = ((h.live w.store).remove p).insert res k'
  fresh : res = p ∨ h.live w.store res = none
  contents : ∀ i < min k size.toNat,
    h.flat w'.toMachine (cells res i) = h.flat w.toMachine (cells p i)
  others : h.SameBlocks ((h.live w.store).remove p) w.toMachine w'.toMachine

variable {h env}

/-! ## Blocks -/

section Blocks

variable {p : Uintptr} {k : Nat}

theorem BlockAt.bulkRange {s : StoreId} (hp : h.BlockAt env p k) (htag : switchCase p = some s)
    {n : Nat} (hn : n ≤ k) : BulkRange env h.residency p n := by
  obtain ⟨t, htag', hstore⟩ := hp.store
  cases htag.symm.trans htag'
  have hin := hp.inStore
  have horig := toNat_makeOriginalPointer p
  exact .tagged hstore (eq_makeMstorePtr_of_switchCase htag) (by omega) (by omega)

theorem Allocated.blockAt {s : StoreId} {size : SizeT} {m m' : Machine σ} {b : Uintptr}
    (ha : h.Allocated s size m b m' k) (hstore : BulkStore env h.residency s) :
    h.BlockAt env (makeMstorePtr s b) k := by
  refine ⟨⟨s, switchCase_makeMstorePtr s ha.storage_lt, hstore⟩, ?_⟩
  rw [makeOriginalPointer_makeMstorePtr s ha.storage_lt]
  exact ha.inStore

section Allocated

variable {s : StoreId} {size : SizeT} {m m' : Machine σ} {b : Uintptr}
  (ha : h.Allocated s size m b m' k)
include ha

theorem Allocated.live_new : h.live m'.store (makeMstorePtr s b) = some k := by
  rw [ha.live]
  exact Lib.Blocks.insert_eq_some.mpr (.inl ⟨rfl, rfl⟩)

theorem Allocated.ne_of_live {q : Uintptr} {j : Nat} (hold : h.live m.store q = some j) :
    makeMstorePtr s b ≠ q := by
  intro heq
  have hfresh := ha.fresh
  rw [heq, hold] at hfresh
  cases hfresh

theorem Allocated.live_old {q : Uintptr} {j : Nat} (hold : h.live m.store q = some j) :
    h.live m'.store q = some j := by
  rw [ha.live]
  exact Lib.Blocks.insert_eq_some.mpr (.inr ⟨(ha.ne_of_live hold).symm, hold⟩)

end Allocated

theorem WellFormed.log {w : World σ} (hkeeps : h.Keeps env) (hw : h.WellFormed env w)
    (e : Event σ) : h.WellFormed env (w.log e) :=
  ⟨hkeeps.log hw.inv, hw.block, hw.apart⟩

/-- The heap after an allocation. -/
theorem Allocated.wellFormed {s : StoreId} {size : SizeT} {w w' : World σ} {b : Uintptr}
    {m' : Machine σ} (ha : h.Allocated s size w.toMachine b m' k)
    (hstore : BulkStore env h.residency s) (hw : h.WellFormed env w) (hinv : h.inv w')
    (hlive : h.live w'.store = h.live m'.store) : h.WellFormed env w' := by
  refine ⟨hinv, ?_, ?_⟩
  · intro q j hq
    rw [hlive, ha.live] at hq
    rcases Lib.Blocks.insert_eq_some.mp hq with ⟨rfl, rfl⟩ | ⟨-, hold⟩
    · exact ha.blockAt hstore
    · exact hw.block q j hold
  · rw [hlive, ha.live]
    exact hw.apart.insert ha.clear

/-- The heap after a block has been freed. -/
theorem WellFormed.remove {w w' : World σ} (hw : h.WellFormed env w) (hinv : h.inv w')
    (hlive : h.live w'.store = (h.live w.store).remove p) : h.WellFormed env w' := by
  refine ⟨hinv, ?_, ?_⟩
  · intro q j hq
    rw [hlive] at hq
    exact hw.block q j (Lib.Blocks.remove_eq_some.mp hq).2
  · rw [hlive]
    exact hw.apart.remove p

/-- The heap after a step that keeps the live blocks. -/
theorem WellFormed.congr {w w' : World σ} (hw : h.WellFormed env w) (hinv : h.inv w')
    (hlive : h.live w'.store = h.live w.store) : h.WellFormed env w' := by
  refine ⟨hinv, ?_, ?_⟩
  · intro q j hq
    rw [hlive] at hq
    exact hw.block q j hq
  · rw [hlive]
    exact hw.apart

end Blocks

/-! ## One call of `__carmor_realloc` -/

/-- A size below `2 ^ 31` survives in an `int`. -/
theorem ofInt_toInt32 {k : Nat} (hk : k < 2 ^ 31) :
    BitVec.ofInt 64 (toInt32 (BitVec.ofNat 64 k)) = BitVec.ofNat 64 k := by
  have hn : (BitVec.ofNat 64 k).toNat = k := toNat_ofNat_of_lt (by omega)
  rw [toInt32_of_lt (by omega), hn, ofInt_natCast]

section Realloc

variable (hkeeps : h.Keeps env) {w : World σ} (hw : h.WellFormed env w) {p : Uintptr} {k : Nat}
  (hlive : h.live w.store p = some k) {s : StoreId} (htag : switchCase p = some s)
include hkeeps hw hlive htag

/-- The size of a live block. -/
theorem exists_lstoreAllocSize : ∃ w', lstoreAllocSize env s (makeOriginalPointer p) w =
      .ok (BitVec.ofNat 64 k) w' ∧
    (∃ m, (env.stores s).lstoreAllocSize (makeOriginalPointer p) w.toMachine =
      .ok (BitVec.ofNat 64 k) m ∧ w'.toMachine = m) ∧
    h.WellFormed env w' ∧ h.live w'.store = h.live w.store ∧
    h.SameBlocks (h.live w.store) w.toMachine w'.toMachine := by
  have hlogged := hw.log hkeeps (.lstoreAllocSize s (makeOriginalPointer p))
  obtain ⟨m, hrun, hinv, hlive', hsame⟩ := hkeeps.allocSize hlogged.inv hlive htag
  refine ⟨_, ?_, ⟨m, hrun, rfl⟩, hlogged.congr hinv hlive', hlive', hsame⟩
  rw [lstoreAllocSize, Lib.bind_of_ok (record_apply _ _)]
  exact callStore_of_ok hrun

/-- The release of a live block. -/
theorem exists_carmorFree : ∃ w', carmorFree env p w = .ok () w' ∧ h.WellFormed env w' ∧
    h.live w'.store = (h.live w.store).remove p ∧
    h.SameBlocks ((h.live w.store).remove p) w.toMachine w'.toMachine := by
  have hlogged := hw.log hkeeps (.lstoreFree s (makeOriginalPointer p))
  obtain ⟨m, hrun, hinv, hlive', hsame⟩ := hkeeps.free hlogged.inv hlive htag
  refine ⟨_, ?_, hlogged.remove hinv hlive', hlive', hsame⟩
  rw [carmorFree, if_neg (by simp [isCarmorPtr_of_switchCase htag]), htag]
  show lstoreFree env s (makeOriginalPointer p) w = _
  rw [lstoreFree, Lib.bind_of_ok (record_apply _ _)]
  exact callStore_of_ok hrun

variable {q : Uintptr} {j : Nat} (hlive' : h.live w.store q = some j) (hne : q ≠ p) {fuel : Nat}
include hlive' hne

omit hkeeps in
/-- The copy of a block over the start of a larger one. -/
theorem exists_copyBlock (hheld : h.CopyHeld env q p k w) (hk : k < 2 ^ 31) (hkj : k ≤ j) (hfuel : k < fuel) {t : StoreId}
    (htag' : switchCase q = some t) : ∃ w', carmorMemcpy env fuel q p (BitVec.ofNat 64 k) w = .ok q w' ∧
      h.WellFormed env w' ∧ h.live w'.store = h.live w.store ∧
      (∀ i < k, h.flat w'.toMachine (cells q i) = h.flat w.toMachine (cells p i)) ∧
      ∀ a, (∀ i < k, cells q i ≠ a) → h.flat w'.toMachine a = h.flat w.toMachine a := by
  have hn : (BitVec.ofNat 64 k).toNat = k := toNat_ofNat_of_lt (by omega)
  have hp := hw.block p k hlive
  have hq := hw.block q j hlive'
  have hdisjoint : ∀ i < k, ∀ i' < k, cells q i ≠ cells p i' := fun i hi i' hi' =>
    hw.apart q p j k hlive' hlive hne i (by omega) i' hi'
  obtain ⟨Inv, hfaults, hstart, hend⟩ := hheld
  have hptrs := mem_operandPtrs q p k
  rw [← hn] at hdisjoint
  obtain ⟨w', hrun, hcopied, ⟨K, hinv⟩, -⟩ := memcpy_copies hfaults hstart
    (hq.bulkRange htag' (by omega)) (hp.bulkRange htag (by omega)) hdisjoint (by omega)
    (show _ < fuel by omega) hptrs.1 (fun i hi => hptrs.2 i (by omega))
  rw [hn] at hcopied
  obtain ⟨hinv', hblocks⟩ := hend K w' hinv
  refine ⟨w', hrun, hw.congr hinv' hblocks, hblocks, ?_, ?_⟩
  · intro i hi
    unfold flat
    rw [hcopied]
    exact copyBytes_add (by omega) hi
  · intro a ha
    unfold flat
    rw [hcopied]
    exact copyBytes_of_ne ha

end Realloc

section Call

variable (hkeeps : h.Keeps env) {w : World σ} (hw : h.WellFormed env w)
include hkeeps hw

/-- An allocation that succeeds gives a fresh block in a well-formed heap. -/
theorem exists_allocated {s : StoreId} (hstore : BulkStore env h.residency s) {size : SizeT}
    {b : Uintptr} {m : Machine σ} (hrun : (env.stores s).lstoreAlloc size w.toMachine = .ok b m)
    (hb : b ≠ 0) : ∃ k, h.Allocated s size w.toMachine b m k ∧
      h.WellFormed env ((w.withMachine m).log (.lstoreAlloc s size b)) := by
  obtain ⟨hinv, k, ha⟩ := hkeeps.alloc hw.inv hstore hrun hb
  have hw' : h.WellFormed env (w.withMachine m) := ha.wellFormed hstore hw hinv rfl
  exact ⟨k, ha, hw'.log hkeeps _⟩

variable {p : Uintptr} {k : Nat} (hlive : h.live w.store p = some k) {size : SizeT}
include hlive

omit hkeeps hw in
/-- A step that keeps the blocks may come before. -/
theorem Reallocated.of_same {w₁ w' : World σ} {res : Uintptr} {k' : Nat}
    (hr : h.Reallocated w₁ p k size res k' w') (hlive₁ : h.live w₁.store = h.live w.store)
    (hsame : h.SameBlocks (h.live w.store) w.toMachine w₁.toMachine) :
    h.Reallocated w p k size res k' w' := by
  refine ⟨hr.tag, hr.size_le, hlive₁ ▸ hr.live, hlive₁ ▸ hr.fresh, ?_, ?_⟩
  · intro i hi
    rw [hr.contents i hi]
    exact hsame p k hlive i (by omega)
  · have hothers := hr.others
    rw [hlive₁] at hothers
    exact (hsame.mono fun q j hq => (Lib.Blocks.remove_eq_some.mp hq).2).trans hothers

/-- A new block, a copy of the old one and its release: the branch of `__carmor_realloc` in which
the block is too small. -/
theorem exists_moveBlock (hk : k < 2 ^ 31) {fuel : Nat} (hfuel : k < fuel) (hsize : k < size.toNat)
    {s : StoreId} (htag : switchCase p = some s) {b : Uintptr} {m : Machine σ}
    (hrun : (env.stores s).lstoreAlloc size w.toMachine = .ok b m) (hb : b ≠ 0)
    (hheld : ∀ w₂, lstoreAlloc env s size w = .ok b w₂ →
      h.CopyHeld env (makeMstorePtr s b) p k w₂) :
    ∃ k' w₂ w₃ w', lstoreAlloc env s size w = .ok b w₂ ∧
      carmorMemcpy env fuel (makeMstorePtr s b) p (BitVec.ofNat 64 k) w₂ = .ok (makeMstorePtr s b) w₃ ∧
      carmorFree env p w₃ = .ok () w' ∧ h.Reallocated w p k size (makeMstorePtr s b) k' w' ∧
      h.WellFormed env w' := by
  obtain ⟨t, htag', hstore⟩ := (hw.block p k hlive).store
  cases htag.symm.trans htag'
  obtain ⟨k', ha, hw₂⟩ := exists_allocated hkeeps hw hstore hrun hb
  have hsizeLe := ha.size_le
  have hres := switchCase_makeMstorePtr s ha.storage_lt
  have hne := ha.ne_of_live hlive
  obtain ⟨w₃, hcopy, hw₃, hlive₃, hcopied, hframe⟩ :=
    exists_copyBlock hw₂ (ha.live_old hlive) htag ha.live_new hne
      (hheld _ (lstoreAlloc_eq_ok.mpr ⟨m, hrun, rfl⟩)) hk (by omega) hfuel hres
  obtain ⟨w', hfree, hw', hlive', hsame'⟩ :=
    exists_carmorFree hkeeps hw₃ (by rw [hlive₃]; exact ha.live_old hlive) htag
  change h.live w₃.store = h.live m.store at hlive₃
  rw [hlive₃] at hlive' hsame'
  refine ⟨k', _, w₃, w', lstoreAlloc_eq_ok.mpr ⟨m, hrun, rfl⟩, hcopy, hfree,
    ⟨hres.trans htag.symm, hsizeLe, ?_, .inr ha.fresh, ?_, ?_⟩, hw'⟩
  · rw [hlive', ha.live, Lib.Blocks.remove_insert hne.symm]
  · intro i hi
    have hkept := hsame' _ k' (Lib.Blocks.remove_eq_some.mpr ⟨hne, ha.live_new⟩) i (by omega)
    rw [hkept, hcopied i (by omega)]
    exact ha.same p k hlive i (by omega)
  · -- the copy stays in the new block, which is clear of the others
    intro q j hq i hi
    obtain ⟨hqp, hold⟩ := Lib.Blocks.remove_eq_some.mp hq
    have hkept := hsame' q j (Lib.Blocks.remove_eq_some.mpr ⟨hqp, ha.live_old hold⟩) i hi
    rw [hkept, hframe _ fun i' hi' => ha.clear q j hold i' (by omega) i hi]
    exact ha.same q j hold i hi

/-- `__carmor_realloc` of a live block replaces it by a block of the same store with its
contents. -/
theorem exists_realloc (hk : k < 2 ^ 31) {fuel : Nat} (hfuel : k < fuel)
    (halloc : AllocSucceeds env p size w) (hfaults : h.FaultsBehave env p size w) :
    ∃ res k' w', carmorRealloc env fuel p size w = .ok res w' ∧ h.Reallocated w p k size res k' w' ∧
      h.WellFormed env w' := by
  obtain ⟨s, htag, -⟩ := (hw.block p k hlive).store
  have hn : (BitVec.ofNat 64 k).toNat = k := toNat_ofNat_of_lt (by omega)
  obtain ⟨w₁, hquery, ⟨m, hcallback, rfl⟩, hw₁, hlive₁, hsame₁⟩ :=
    exists_lstoreAllocSize hkeeps hw hlive htag
  have hptr := isCarmorPtr_of_switchCase htag
  unfold carmorRealloc
  rw [if_neg (by simp [hptr]), htag]
  simp only []
  rw [Lib.bind_of_ok hquery, ofInt_toInt32 hk]
  by_cases hle : size ≤ BitVec.ofNat 64 k
  · rw [if_pos hle]
    rw [BitVec.le_def, hn] at hle
    have hr : h.Reallocated w₁ p k size p k w₁ := by
      refine ⟨rfl, hle, ?_, .inl rfl, fun _ _ => rfl, fun _ _ _ _ _ => rfl⟩
      rw [Lib.Blocks.insert_remove_self (hlive₁ ▸ hlive)]
    exact ⟨p, k, w₁, rfl, hr.of_same hlive hlive₁ hsame₁, hw₁⟩
  · rw [if_neg hle]
    rw [BitVec.le_def, hn, Nat.not_le] at hle
    have hlt : BitVec.ofNat 64 k < size := by
      rw [BitVec.lt_def, hn]
      exact hle
    obtain ⟨b, m₂, hrun, hb⟩ := halloc s _ _ htag hcallback hlt
    have hheld : ∀ w₂, lstoreAlloc env s size w₁ = .ok b w₂ →
        h.CopyHeld env (makeMstorePtr s b) p k w₂ := by
      intro w₂ hnew
      have hcopy := hfaults s _ w₁ b w₂ htag hquery hlt hnew hb
      rwa [hn] at hcopy
    obtain ⟨k', w₂, w₃, w', hnew, hcopy, hfree, hr, hw'⟩ :=
      exists_moveBlock hkeeps hw₁ (hlive₁ ▸ hlive) hk hfuel hle htag hrun hb hheld
    refine ⟨makeMstorePtr s b, k', w', ?_, hr.of_same hlive hlive₁ hsame₁, hw'⟩
    rw [Lib.bind_of_ok hnew, Lib.bind_of_ok hcopy, Lib.bind_of_ok hfree]
    rfl

end Call

end BlockHeap

end Carmor
