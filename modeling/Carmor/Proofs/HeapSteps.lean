import Carmor.Heap

/-!
# What an allocation function can do

One inversion lemma for each allocation function that returns: the calls it makes and the
pointer it gives back.
-/

namespace Carmor

variable {σ : Type} {env : Env σ} {s : StoreId} {w w' : World σ} {res : Uintptr}

theorem lstoreAlloc_eq_ok {size : SizeT} :
    lstoreAlloc env s size w = .ok res w' ↔
      ∃ m, (env.stores s).lstoreAlloc size w.toMachine = .ok res m ∧
        w' = (w.withMachine m).log (.lstoreAlloc s size res) := by
  rw [lstoreAlloc, Lib.bind_eq_ok]
  constructor
  · rintro ⟨a, w₁, hcall, hrest⟩
    obtain ⟨m, hm, rfl⟩ := callStore_eq_ok.mp hcall
    cases hrest
    exact ⟨m, hm, rfl⟩
  · rintro ⟨m, hm, rfl⟩
    exact ⟨res, _, callStore_of_ok hm, rfl⟩

/-- `__carmor_malloc_template` calls libc outside the store's range of sizes, and otherwise tags
what the store returns. -/
theorem malloc_eq_ok {size : SizeT} :
    carmorMallocTemplate env s size w = .ok res w' ↔
      if size < (env.stores s).lstoreGetMinSize ∨ (env.stores s).lstoreGetMaxSize ≤ size then
        ∃ m, env.libc.malloc size w.toMachine = .ok res m ∧
          w' = (w.withMachine m).log (.malloc size res)
      else
        ∃ b m, (env.stores s).lstoreAlloc size w.toMachine = .ok b m ∧
          res = (env.stores s).lstoreTag b ∧
          w' = (w.withMachine m).log (.lstoreAlloc s size b) := by
  rw [carmorMallocTemplate]
  split
  · rw [libcMalloc, Lib.bind_eq_ok]
    constructor
    · rintro ⟨a, w₁, hcall, hrest⟩
      obtain ⟨m, hm, rfl⟩ := callStore_eq_ok.mp hcall
      cases hrest
      exact ⟨m, hm, rfl⟩
    · rintro ⟨m, hm, rfl⟩
      exact ⟨res, _, callStore_of_ok hm, rfl⟩
  · rw [Lib.bind_eq_ok]
    constructor
    · rintro ⟨b, w₁, hcall, hrest⟩
      obtain ⟨m, hm, rfl⟩ := lstoreAlloc_eq_ok.mp hcall
      cases hrest
      exact ⟨b, m, hm, rfl, rfl⟩
    · rintro ⟨b, m, hm, rfl, rfl⟩
      exact ⟨b, _, lstoreAlloc_eq_ok.mpr ⟨m, hm, rfl⟩, rfl⟩

/-- `__carmor_memalign_template` allocates one padded block. -/
theorem memalign_eq_ok {alignment n : SizeT}
    (h : carmorMemalignTemplate env s alignment n w = .ok res w') :
    ∃ b m, (env.stores s).lstoreAlloc (n + (alignment - 1) + 8) w.toMachine = .ok b m ∧
      w'.trace = .lstoreAlloc s (n + (alignment - 1) + 8) b :: w.trace ∧
      res = if b = 0 then 0 else (env.stores s).lstoreTag (bsAlignedMem b alignment) := by
  rw [carmorMemalignTemplate] at h
  obtain ⟨b, w₁, halloc, hrest⟩ := Lib.bind_eq_ok.mp h
  obtain ⟨m, hm, rfl⟩ := lstoreAlloc_eq_ok.mp halloc
  refine ⟨b, m, hm, ?_⟩
  by_cases hb : b = 0
  · rw [if_pos hb] at hrest ⊢
    cases hrest
    exact ⟨rfl, rfl⟩
  · rw [if_neg hb] at hrest ⊢
    cases hrest
    exact ⟨rfl, rfl⟩

/-- `__carmor_free` of a tagged pointer is the `lstore_free` of its store. -/
theorem free_eq_ok {p : Uintptr} (hp : switchCase p = some s) {u : Unit}
    (h : carmorFree env p w = .ok u w') :
    ∃ m, (env.stores s).lstoreFree (makeOriginalPointer p) w.toMachine = .ok () m ∧
      w' = (w.log (.lstoreFree s (makeOriginalPointer p))).withMachine m := by
  rw [carmorFree, if_neg (by simp [isCarmorPtr_of_switchCase hp]), hp] at h
  obtain ⟨_, w₁, hrecord, hcall⟩ := Lib.bind_eq_ok.mp h
  obtain ⟨m, hm, rfl⟩ := callStore_eq_ok.mp hcall
  cases hrecord
  exact ⟨m, hm, rfl⟩

theorem free_native_eq_ok {p : Uintptr} (hp : isCarmorPtr p = false) {u : Unit}
    (h : carmorFree env p w = .ok u w') : w'.trace = .free p :: w.trace := by
  rw [carmorFree, hp] at h
  obtain ⟨_, w₁, hrecord, hcall⟩ := Lib.bind_eq_ok.mp h
  obtain ⟨m, hm, rfl⟩ := callStore_eq_ok.mp hcall
  cases hrecord
  rfl

theorem realloc_native_eq_ok {fuel : Nat} {p : Uintptr} {size : SizeT}
    (hp : isCarmorPtr p = false) (h : carmorRealloc env fuel p size w = .ok res w') :
    w'.trace = .realloc p size res :: w.trace := by
  rw [carmorRealloc, hp] at h
  obtain ⟨_, w₁, hcall, hrest⟩ := Lib.bind_eq_ok.mp h
  obtain ⟨m, hm, rfl⟩ := callStore_eq_ok.mp hcall
  cases hrest
  rfl

/-- `__carmor_realloc` of a tagged pointer keeps a block that is large enough, and otherwise
allocates, copies and frees. -/
theorem realloc_eq_ok {fuel : Nat} {p : Uintptr} {size : SizeT} (hp : switchCase p = some s)
    (h : carmorRealloc env fuel p size w = .ok res w') :
    ∃ n m, (env.stores s).lstoreAllocSize (makeOriginalPointer p) w.toMachine = .ok n m ∧
      if size ≤ BitVec.ofInt 64 (toInt32 n) then
        res = p ∧ w' = (w.log (.lstoreAllocSize s (makeOriginalPointer p))).withMachine m
      else
        ∃ b m₁ a w₁, (env.stores s).lstoreAlloc size m = .ok b m₁ ∧ res = makeMstorePtr s b ∧
          carmorMemcpy env fuel (makeMstorePtr s b) p (BitVec.ofInt 64 (toInt32 n))
            (((w.log (.lstoreAllocSize s (makeOriginalPointer p))).withMachine m₁).log
              (.lstoreAlloc s size b)) = .ok a w₁ ∧
          carmorFree env p w₁ = .ok () w' := by
  rw [carmorRealloc, if_neg (by simp [isCarmorPtr_of_switchCase hp]), hp] at h
  obtain ⟨n, w₁, hsize, hrest⟩ := Lib.bind_eq_ok.mp h
  rw [lstoreAllocSize, Lib.bind_of_ok (record_apply _ _)] at hsize
  obtain ⟨m, hm, rfl⟩ := callStore_eq_ok.mp hsize
  refine ⟨n, m, hm, ?_⟩
  by_cases hle : size ≤ BitVec.ofInt 64 (toInt32 n)
  · rw [if_pos hle] at hrest ⊢
    cases hrest
    exact ⟨rfl, rfl⟩
  · rw [if_neg hle] at hrest ⊢
    obtain ⟨b, w₂, halloc, hrest⟩ := Lib.bind_eq_ok.mp hrest
    obtain ⟨m₁, hm₁, rfl⟩ := lstoreAlloc_eq_ok.mp halloc
    obtain ⟨a, w₃, hcopy, hrest⟩ := Lib.bind_eq_ok.mp hrest
    obtain ⟨_, w₄, hfree, hres⟩ := Lib.bind_eq_ok.mp hrest
    cases hres
    exact ⟨b, m₁, a, w₃, hm₁, rfl, hcopy, hfree⟩

end Carmor
