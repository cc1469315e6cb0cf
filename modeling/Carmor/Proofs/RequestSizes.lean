import Carmor.Proofs.DirectWrites
import Carmor.Proofs.HeapCalls
import Carmor.Proofs.Lengths
import Carmor.Proofs.Memalign
import Carmor.Proofs.Memset
import Carmor.Proofs.Realloc

/-!
# The sizes that the allocation templates ask for

`__carmor_calloc_template` multiplies and `__carmor_memalign_template` adds in 64 bits, and the
zeroes of `__carmor_calloc_template` are counted by an `int`. This module says for all arguments
when the block that was obtained has the room that was asked for, and when all of it is zero.
-/

namespace Carmor

variable {σ : Type}

/-! ## The block of a call -/

/-- The event obtains a block of `size` bytes, to which `res` points. -/
def Event.Grants (s : StoreId) (size : SizeT) (res : Uintptr) : Event σ → Prop
  | .lstoreAlloc t k b => t = s ∧ k = size ∧ b ≠ 0 ∧ res = makeMstorePtr s b
  | .malloc k b => k = size ∧ b ≠ 0 ∧ res = b
  | _ => False

/-- Between the worlds a block with room for `room` bytes was obtained, to which `res` points. -/
def HasRoom (s : StoreId) (room : Nat) (res : Uintptr) (w w' : World σ) : Prop :=
  ∃ es e size, w'.trace = es ++ w.trace ∧ e ∈ es ∧ e.Grants s size res ∧ room ≤ size.toNat

/-- A call that obtains a block and then calls no allocation function. -/
theorem hasRoom_iff {s : StoreId} {room : Nat} {res : Uintptr} {w w₁ w' : World σ} {e : Event σ}
    (htrace : w₁.trace = e :: w.trace) (hquiet : NoHeapCalls w₁ w') :
    HasRoom s room res w w' ↔ ∃ size, e.Grants s size res ∧ room ≤ size.toNat := by
  obtain ⟨es, htrace', hes⟩ := hquiet
  have hall : w'.trace = (es ++ [e]) ++ w.trace := by
    rw [htrace', htrace, List.append_assoc]
    rfl
  constructor
  · rintro ⟨fs, f, size, hfs, hf, hgrants, hroom⟩
    obtain rfl := List.append_cancel_right (hfs.symm.trans hall)
    rcases List.mem_append.mp hf with hf | hf
    · -- an event without heap calls grants nothing
      have hheap := hes f hf
      cases f with
      | lstoreAlloc => cases hheap
      | malloc => cases hheap
      | _ => exact hgrants.elim
    · obtain rfl := List.mem_singleton.mp hf
      exact ⟨size, hgrants, hroom⟩
  · rintro ⟨size, hgrants, hroom⟩
    exact ⟨_, e, size, hall, by simp, hgrants, hroom⟩

/-- A product of sizes is what it is in 64 bits if it fits. -/
theorem mul_le_toNat_mul_iff (x y : SizeT) :
    x.toNat * y.toNat ≤ (x * y).toNat ↔ x.toNat * y.toNat < 2 ^ 64 := by
  rw [BitVec.toNat_mul]
  constructor
  · intro hle
    exact Nat.lt_of_le_of_lt hle (Nat.mod_lt _ (by decide))
  · intro hlt
    rw [Nat.mod_eq_of_lt hlt]

/-- The `int` counts all of a product that it holds. -/
theorem toNat_toInt32_mul {x y : SizeT} (h : x.toNat * y.toNat < 2 ^ 31) :
    (toInt32 (x * y)).toNat = x.toNat * y.toNat := by
  have hmul : (x * y).toNat = x.toNat * y.toNat := by
    rw [BitVec.toNat_mul, Nat.mod_eq_of_lt (by omega)]
  rw [← hmul]
  exact (toNat_toInt32_eq_iff (x * y)).mpr (by omega)

/-! ## `__carmor_calloc_template` -/

/-- The call has obtained a block with room for `x` elements of `y` bytes, and all of them are zero,
where `byte` reads the block. -/
def CallocFits (s : StoreId) (x y : SizeT) (byte : Nat → Byte) (res : Uintptr) (w w' : World σ) :
    Prop :=
  HasRoom s (x.toNat * y.toNat) res w w' ∧ ∀ i < x.toNat * y.toNat, byte i = 0

section Calloc

variable {env : Env σ} {s : StoreId} {x y : SizeT} {w : World σ} {m : Machine σ} {b : Uintptr}
  {fuel : Nat}

/-- A block of libc is filled with zeroes. -/
theorem calloc_native_iff
    (houtside : x * y < (env.stores s).lstoreGetMinSize ∨ (env.stores s).lstoreGetMaxSize ≤ x * y)
    (hmalloc : env.libc.malloc (x * y) w.toMachine = .ok b m) (hnative : isCarmorPtr b = false)
    (hb : b ≠ 0) :
    ∃ w', carmorCallocTemplate env s fuel x y w = .ok b w' ∧
      (CallocFits s x y (fun i => w'.mem (cells b i)) b w w' ↔ x.toNat * y.toNat < 2 ^ 64) := by
  let w₁ := (w.withMachine m).log (.malloc (x * y) b)
  have hrun : carmorMallocTemplate env s (x * y) w = .ok b w₁ := by
    rw [malloc_eq_ok, if_pos houtside]
    exact ⟨m, hmalloc, rfl⟩
  have hmemset : carmorMemset env fuel b 0 (x * y) w₁ =
      .ok b (w₁.withMem (fillBytes w₁.mem b (BitVec.ofInt 8 0) (x * y).toNat)) := by
    unfold carmorMemset
    rw [memWrapperSingle_native fuel 0 (x * y) carmorMemsetWrapper 1 false false hnative]
    rfl
  refine ⟨_, Lib.bind_eq_ok.mpr ⟨b, w₁, hrun, Lib.bind_eq_ok.mpr ⟨b, _, hmemset, rfl⟩⟩, ?_⟩
  have hquiet : NoHeapCalls w₁ (w₁.withMem (fillBytes w₁.mem b (BitVec.ofInt 8 0) (x * y).toNat)) :=
    .of_trace_eq rfl
  unfold CallocFits
  rw [hasRoom_iff (w := w) (e := .malloc (x * y) b) rfl hquiet]
  constructor
  · rintro ⟨⟨size, ⟨rfl, -, -⟩, hle⟩, -⟩
    exact (mul_le_toNat_mul_iff x y).mp hle
  · intro hlt
    have hle := (mul_le_toNat_mul_iff x y).mpr hlt
    refine ⟨⟨x * y, ⟨rfl, hb, rfl⟩, hle⟩, fun i hi => ?_⟩
    exact fillBytes_cells _ _ _ (by omega) (Nat.le_of_lt (x * y).isLt)

variable (hinst : ∀ t, TemplateInstance env t) (htag : (env.stores s).lstoreTag = makeMstorePtr s)
  (hinside : ¬ (x * y < (env.stores s).lstoreGetMinSize ∨ (env.stores s).lstoreGetMaxSize ≤ x * y))
  (halloc : (env.stores s).lstoreAlloc (x * y) w.toMachine = .ok b m)
include htag hinside halloc

/-- A block of the store, which its `memset` then fills. -/
theorem calloc_of_memset {w' : World σ}
    (hmemset : carmorMemset env fuel (makeMstorePtr s b) 0 (x * y)
      ((w.withMachine m).log (.lstoreAlloc s (x * y) b)) = .ok (makeMstorePtr s b) w') :
    carmorCallocTemplate env s fuel x y w = .ok (makeMstorePtr s b) w' := by
  have hrun : carmorMallocTemplate env s (x * y) w = .ok (makeMstorePtr s b)
      ((w.withMachine m).log (.lstoreAlloc s (x * y) b)) := by
    rw [malloc_eq_ok, if_neg hinside]
    exact ⟨b, m, halloc, by rw [htag], rfl⟩
  exact Lib.bind_eq_ok.mpr ⟨_, _, hrun, Lib.bind_eq_ok.mpr ⟨_, w', hmemset, rfl⟩⟩

omit htag hinside halloc in
include hinst in
/-- The block fits exactly if it was obtained, the product fits, and what lies past the zeroes that
the `int` counts is zero. -/
theorem callocFits_iff {w' : World σ} {byte rest : Nat → Byte} {res : Uintptr}
    (hmemset : carmorMemset env fuel (makeMstorePtr s b) 0 (x * y)
      ((w.withMachine m).log (.lstoreAlloc s (x * y) b)) = .ok res w')
    (hbyte : ∀ i < (x * y).toNat, byte i = if i < (toInt32 (x * y)).toNat then 0 else rest i) :
    CallocFits s x y byte (makeMstorePtr s b) w w' ↔ b ≠ 0 ∧ x.toNat * y.toNat < 2 ^ 64 ∧
      ∀ i, (toInt32 (x * y)).toNat ≤ i → i < x.toNat * y.toNat → rest i = 0 := by
  have hquiet := (heapQuiet_memset hinst fuel (makeMstorePtr s b) 0 (x * y)).of_ok hmemset
  unfold CallocFits
  rw [hasRoom_iff (w := w) (e := .lstoreAlloc s (x * y) b) rfl hquiet]
  constructor
  · rintro ⟨⟨size, ⟨-, rfl, hb, -⟩, hle⟩, hzero⟩
    refine ⟨hb, (mul_le_toNat_mul_iff x y).mp hle, fun i hlow hi => ?_⟩
    have hbyte' := hbyte i (by omega)
    rwa [hzero i hi, if_neg (by omega), eq_comm] at hbyte'
  · rintro ⟨hb, hlt, hrest⟩
    have hle := (mul_le_toNat_mul_iff x y).mpr hlt
    refine ⟨⟨x * y, ⟨rfl, rfl, hb, rfl⟩, hle⟩, fun i hi => ?_⟩
    rw [hbyte i (by omega)]
    split
    · rfl
    · exact hrest i (by omega) hi

include hinst

/-- A block in a cached store. -/
theorem calloc_cached_iff {r : Residency σ} {R : Set Uintptr} {Inv : Set PageOf → World σ → Prop}
    (hfaults : FaultsUntilNext env r R Inv) (hstore : BulkStore env r s)
    (hspace : b.toNat + (x * y).toNat < 2 ^ 60)
    (hR : ∀ i, i = 0 ∨ i < (toInt32 (x * y)).toNat → cells (makeMstorePtr s b) i ∈ R)
    (hfuel : (toInt32 (x * y)).toNat < fuel) {K : Set PageOf} (hinv : Inv K (w.withMachine m)) :
    ∃ w', carmorCallocTemplate env s fuel x y w = .ok (makeMstorePtr s b) w' ∧
      (CallocFits s x y (fun i => r.flat w'.toMachine (cells (makeMstorePtr s b) i))
          (makeMstorePtr s b) w w' ↔
        b ≠ 0 ∧ x.toNat * y.toNat < 2 ^ 64 ∧ ∀ i, (toInt32 (x * y)).toNat ≤ i →
          i < x.toNat * y.toNat → r.flat m (cells (makeMstorePtr s b) i) = 0) := by
  have hlen := toNat_intLength (x * y)
  have hlt := toNat_toInt32_lt (x * y)
  have hle := toInt32_le (x * y)
  have hptr := switchCase_makeMstorePtr s (show b.toNat < 2 ^ 60 by omega)
  have hrange : BulkRange env r (makeMstorePtr s b) (intLength (x * y)).toNat :=
    .tagged hstore rfl (by omega) (by omega)
  have hcount : (intLength (x * y)).toNat < fuel := by omega
  let w₁ := (w.withMachine m).log (.lstoreAlloc s (x * y) b)
  obtain ⟨res, w', hwrapper, hpost⟩ := memWrapperSingle_returns hfaults hrange hptr
    (fill_singleRule hfaults (r.flat w₁.toMachine) 0 (makeMstorePtr s b) (intLength (x * y)).isLt)
    (hfaults.log hinv : Inv K w₁) (fillBytes_zero _ _ _).symm (by omega) hcount (by rwa [hlen]) 1
  have hmemset : carmorMemset env fuel (makeMstorePtr s b) 0 (x * y) w₁ =
      .ok (makeMstorePtr s b) w' := by
    unfold carmorMemset
    rw [memWrapperSingle_intLength env fuel (isCarmorPtr_of_switchCase hptr)]
    exact Lib.bind_eq_ok.mpr ⟨res, w', hwrapper, rfl⟩
  refine ⟨w', calloc_of_memset htag hinside halloc hmemset, ?_⟩
  apply callocFits_iff hinst hmemset
  intro i hi
  have hfilled : r.flat w'.toMachine = fillBytes (r.flat w₁.toMachine) (makeMstorePtr s b)
      (BitVec.ofInt 8 0) (intLength (x * y)).toNat := hpost.returned
  rw [hfilled, hlen]
  by_cases hlow : i < (toInt32 (x * y)).toNat
  · rw [if_pos hlow, fillBytes_cells _ _ _ hlow (by omega)]
    rfl
  · rw [if_neg hlow]
    apply fillBytes_of_ne
    intro j hj heq
    have hij := cells_inj (by omega) (by omega) heq
    omega

/-- What a direct store holds at `i` past the first `k` bytes from `b` on when zeroes have been
written there: up to the end of the last page that was written back, what was left in the direct
buffer. -/
def pastZeroes (st : LStore σ) (storage : σ → Memory) (buffer b : Uintptr) (k : Nat) (m : Machine σ)
    (i : Nat) : Byte :=
  let last := Lib.fullChunks (st.directChunk buffer) k * st.directChunk buffer
  if 0 < k ∧ i < last + st.lstoreGetMpageSize.toNat then
    Lib.leftover (fun _ => 0) (fun j => m.mem (cells buffer j)) (st.directChunk buffer) k (i - last)
  else storage m.store (cells b i)

/-- A block in a direct store. -/
theorem calloc_direct_iff {storage : σ → Memory} (h : DirectStore env s storage)
    (hspace : b.toNat + (x * y).toNat < 2 ^ 60) (hfuel : (toInt32 (x * y)).toNat < fuel)
    {buffer : Uintptr} (hnull : buffer ≠ 0) {m₁ : Machine σ}
    (hbuffer : DirectBuffer env (env.stores s).lstoreGetMpageSize buffer (w.withMachine m) m₁) :
    ∃ w', carmorCallocTemplate env s fuel x y w = .ok (makeMstorePtr s b) w' ∧
      (CallocFits s x y (fun i => storage w'.store (cells b i)) (makeMstorePtr s b) w w' ↔
        b ≠ 0 ∧ x.toNat * y.toNat < 2 ^ 64 ∧ ∀ i, (toInt32 (x * y)).toNat ≤ i →
          i < x.toNat * y.toNat →
          pastZeroes (env.stores s) storage buffer b (toInt32 (x * y)).toNat m₁ i = 0) := by
  have hlen := toNat_intLength (x * y)
  have hlt := toNat_toInt32_lt (x * y)
  have hle := toInt32_le (x * y)
  have hb : b.toNat < 2 ^ 60 := by omega
  have hptr := switchCase_makeMstorePtr s hb
  have horig := makeOriginalPointer_makeMstorePtr s hb
  let w₁ := (w.withMachine m).log (.lstoreAlloc s (x * y) b)
  have hcount : (intLength (x * y)).toNat < fuel := by omega
  have hend : (makeOriginalPointer (makeMstorePtr s b)).toNat + (intLength (x * y)).toNat ≤ 2 ^ 60 := by
    rw [horig]
    omega
  obtain ⟨w', hwrapper, hwritten⟩ := memset_direct hptr 0 h hnull hend (by omega) hcount
    (hbuffer.log (.lstoreAlloc s (x * y) b))
  have hmemset : carmorMemset env fuel (makeMstorePtr s b) 0 (x * y) w₁ =
      .ok (makeMstorePtr s b) w' := by
    unfold carmorMemset at hwrapper ⊢
    rwa [memWrapperSingle_intLength env fuel (isCarmorPtr_of_switchCase hptr)]
  refine ⟨w', calloc_of_memset htag hinside halloc hmemset, ?_⟩
  apply callocFits_iff hinst hmemset
  intro i hi
  have hcell := hwritten.storageBytes i (by omega)
  rw [horig, hlen] at hcell
  rw [hcell]
  unfold pastZeroes
  rcases Nat.eq_zero_or_pos (toInt32 (x * y)).toNat with hzero | hpos
  · rw [hzero, Lib.writeRange, if_pos rfl, if_neg (by omega), if_neg (by omega)]
    rfl
  · rw [Lib.cells_writeRange hpos (h.directChunk_pos buffer) ((env.stores s).directChunk_le buffer)]
    simp only [hpos, true_and]
    rfl

omit hinst in
/-- The `memset` of a block in `lstore3` aborts. -/
theorem calloc_lstore3 (hs : s = .lstore3) (hb : b.toNat < 2 ^ 60) (res : Uintptr) (w' : World σ) :
    carmorCallocTemplate env s fuel x y w ≠ .ok res w' := by
  intro hrun
  obtain ⟨p, w₁, hmalloc, hrest⟩ := Lib.bind_eq_ok.mp hrun
  rw [malloc_eq_ok, if_neg hinside] at hmalloc
  obtain ⟨b', m', halloc', rfl, rfl⟩ := hmalloc
  cases halloc.symm.trans halloc'
  obtain ⟨_, w₂, hmemset, -⟩ := Lib.bind_eq_ok.mp hrest
  have hptr : switchCase (makeMstorePtr s b) = some .lstore3 := by
    rw [switchCase_makeMstorePtr s hb, hs]
  obtain ⟨_, _, hwrapper, -⟩ := Lib.bind_eq_ok.mp hmemset
  rw [htag, memWrapperSingle_lstore3 fuel 0 (x * y) carmorMemsetWrapper 1 false false hptr] at hwrapper
  cases hwrapper

end Calloc

/-! ## `__carmor_memalign_template` -/

/-- The call has obtained a block with room for `n` bytes from the aligned address in it, to which
`res` points. -/
def MemalignFits (env : Env σ) (s : StoreId) (alignment n : SizeT) (res : Uintptr) (w w' : World σ) :
    Prop :=
  ∃ es size b, w'.trace = es ++ w.trace ∧ .lstoreAlloc s size b ∈ es ∧ b ≠ 0 ∧
    res = (env.stores s).lstoreTag (bsAlignedMem b alignment) ∧
    b.toNat ≤ (bsAlignedMem b alignment).toNat ∧
    (bsAlignedMem b alignment).toNat + n.toNat ≤ b.toNat + size.toNat

/-- A call that returns a pointer has room exactly if the padded size fits. -/
theorem memalignFits_iff {env : Env σ} {s : StoreId} {alignment n : SizeT} {k : Nat}
    (halign : alignment.toNat = 2 ^ k) {w w' : World σ} {res : Uintptr}
    (hspace : ∀ b m, (env.stores s).lstoreAlloc (n + (alignment - 1) + 8) w.toMachine = .ok b m →
      b.toNat + (n + (alignment - 1) + 8).toNat ≤ 2 ^ 60)
    (hrun : carmorMemalignTemplate env s alignment n w = .ok res w') (hres : res ≠ 0) :
    MemalignFits env s alignment n res w w' ↔ paddedSize alignment n < 2 ^ 64 := by
  obtain ⟨b, m, halloc, htrace, hptr⟩ := memalign_eq_ok hrun
  have hb : b ≠ 0 := by
    intro hb
    rw [if_pos hb] at hptr
    exact hres hptr
  rw [if_neg hb] at hptr
  have hblock := hspace b m halloc
  have hpow : alignment.toNat ≤ 2 ^ 63 := by
    have hlt := alignment.isLt
    rw [halign] at hlt ⊢
    exact Nat.pow_le_pow_right (by decide)
      (Nat.le_of_lt_succ ((Nat.pow_lt_pow_iff_right (by decide)).mp hlt))
  obtain ⟨hlo, hhi⟩ := bsAlignedMem_bounds halign (b := b) (by omega)
  constructor
  · rintro ⟨es, size, b', hes, hmem, -, -, -, hroom⟩
    obtain rfl : es = [.lstoreAlloc s (n + (alignment - 1) + 8) b] :=
      List.append_cancel_right (hes.symm.trans htrace)
    obtain ⟨rfl, rfl⟩ : size = n + (alignment - 1) + 8 ∧ b' = b := by simpa using hmem
    -- a padded size that wraps is less than `n`
    have hsize := toNat_paddedSize_mod (n := n) halign
    have hn := n.isLt
    unfold paddedSize at hsize ⊢
    omega
  · intro hfits
    have hpadded := toNat_paddedSize halign hfits
    unfold paddedSize at hpadded
    exact ⟨[.lstoreAlloc s (n + (alignment - 1) + 8) b], _, b, htrace, List.mem_singleton_self _,
      hb, hptr, by omega, by omega⟩

/-! ## Both templates -/

/-- Blocks of libc fit exactly if the product fits in 64 bits. Blocks of a store fit exactly if
moreover the allocation succeeds and the bytes past those that the `int` counts are zero already; in
`lstore3` no call returns. Aligned blocks fit exactly if the padded size fits in 64 bits. -/
theorem requests_fit_iff {env : Env σ} {s : StoreId} (hinst : ∀ t, TemplateInstance env t)
    (htag : (env.stores s).lstoreTag = makeMstorePtr s) :
    (∀ {x y : SizeT} {w : World σ} {b : Uintptr} {m : Machine σ} (fuel : Nat),
      (x * y < (env.stores s).lstoreGetMinSize ∨ (env.stores s).lstoreGetMaxSize ≤ x * y) →
      env.libc.malloc (x * y) w.toMachine = .ok b m → isCarmorPtr b = false → b ≠ 0 →
      ∃ w', carmorCallocTemplate env s fuel x y w = .ok b w' ∧
        (CallocFits s x y (fun i => w'.mem (cells b i)) b w w' ↔ x.toNat * y.toNat < 2 ^ 64)) ∧
    (∀ {x y : SizeT} {w : World σ} {b : Uintptr} {m : Machine σ} {fuel : Nat},
      ¬ (x * y < (env.stores s).lstoreGetMinSize ∨ (env.stores s).lstoreGetMaxSize ≤ x * y) →
      (env.stores s).lstoreAlloc (x * y) w.toMachine = .ok b m →
      b.toNat + (x * y).toNat < 2 ^ 60 → (toInt32 (x * y)).toNat < fuel →
      (∀ {r : Residency σ} {R : Set Uintptr} {Inv : Set PageOf → World σ → Prop} {K : Set PageOf},
        FaultsUntilNext env r R Inv → BulkStore env r s →
        (∀ i, i = 0 ∨ i < (toInt32 (x * y)).toNat → cells (makeMstorePtr s b) i ∈ R) →
        Inv K (w.withMachine m) →
        ∃ w', carmorCallocTemplate env s fuel x y w = .ok (makeMstorePtr s b) w' ∧
          (CallocFits s x y (fun i => r.flat w'.toMachine (cells (makeMstorePtr s b) i))
              (makeMstorePtr s b) w w' ↔
            b ≠ 0 ∧ x.toNat * y.toNat < 2 ^ 64 ∧ ∀ i, (toInt32 (x * y)).toNat ≤ i →
              i < x.toNat * y.toNat → r.flat m (cells (makeMstorePtr s b) i) = 0)) ∧
      (∀ {storage : σ → Memory} {buffer : Uintptr} {m₁ : Machine σ}, DirectStore env s storage →
        buffer ≠ 0 →
        DirectBuffer env (env.stores s).lstoreGetMpageSize buffer (w.withMachine m) m₁ →
        ∃ w', carmorCallocTemplate env s fuel x y w = .ok (makeMstorePtr s b) w' ∧
          (CallocFits s x y (fun i => storage w'.store (cells b i)) (makeMstorePtr s b) w w' ↔
            b ≠ 0 ∧ x.toNat * y.toNat < 2 ^ 64 ∧ ∀ i, (toInt32 (x * y)).toNat ≤ i →
              i < x.toNat * y.toNat →
              pastZeroes (env.stores s) storage buffer b (toInt32 (x * y)).toNat m₁ i = 0)) ∧
      (s = .lstore3 → ∀ res w', carmorCallocTemplate env s fuel x y w ≠ .ok res w')) ∧
    (∀ {alignment n : SizeT} {k : Nat} {w w' : World σ} {res : Uintptr},
      alignment.toNat = 2 ^ k →
      (∀ b m, (env.stores s).lstoreAlloc (n + (alignment - 1) + 8) w.toMachine = .ok b m →
        b.toNat + (n + (alignment - 1) + 8).toNat ≤ 2 ^ 60) →
      carmorMemalignTemplate env s alignment n w = .ok res w' → res ≠ 0 →
      (MemalignFits env s alignment n res w w' ↔ paddedSize alignment n < 2 ^ 64)) := by
  refine ⟨?_, ?_, ?_⟩
  · intro x y w b m fuel houtside hmalloc hnative hb
    exact calloc_native_iff houtside hmalloc hnative hb
  · intro x y w b m fuel hinside halloc hspace hfuel
    refine ⟨?_, ?_, ?_⟩
    · intro r R Inv K hfaults hstore hR hinv
      exact calloc_cached_iff hinst htag hinside halloc hfaults hstore hspace hR hfuel hinv
    · intro storage buffer m₁ hdirect hnull hbuffer
      exact calloc_direct_iff hinst htag hinside halloc hdirect hspace hfuel hnull hbuffer
    · intro hs res w'
      exact calloc_lstore3 htag hinside halloc hs (by omega) res w'
  · intro alignment n k w w' res halign hspace hrun hres
    exact memalignFits_iff halign hspace hrun hres

/-! ## Small instances -/

/-- Direct stores that allocate at `0x1000`. -/
def directBlockEnv : Env Memory :=
  { directEnv with stores := fun s =>
      { directEnv.stores s with lstoreAlloc := fun _ => pure 0x1000 } }

theorem directBlockEnv_directStore {s : StoreId} (hs : s ≠ .lstore3) :
    DirectStore directBlockEnv s id where
  ne_lstore3 := hs
  isDirect := rfl
  pageSize_pos := (directEnv_directStore hs).pageSize_pos
  pageSize_le := (directEnv_directStore hs).pageSize_le
  link := rfl
  writeback := rfl
  mpfHandlerD := (directEnv_directStore hs).mpfHandlerD
  lstoreWriteBack := (directEnv_directStore hs).lstoreWriteBack

/-- `smallEnv` with stores for blocks of at least 64 bytes, beside a libc that allocates at
`0x5000`. -/
def libcBlockEnv : Env Pins :=
  { smallEnv with
    stores := fun s => { smallEnv.stores s with lstoreGetMinSize := 64 }
    libc := { smallEnv.libc with malloc := fun _ => pure 0x5000 } }

theorem pagedEnv_instance (s : StoreId) : TemplateInstance (PagedStore.pagedEnv true) s :=
  ⟨.inr ⟨.inl rfl, smallGeometry, rfl, rfl, rfl, fun _ => rfl⟩, rfl⟩

theorem libcBlockEnv_instance (s : StoreId) : TemplateInstance libcBlockEnv s :=
  ⟨.inr ⟨.inl rfl, smallGeometry, rfl, rfl, rfl, fun _ => rfl⟩, rfl⟩

theorem directBlockEnv_instance (s : StoreId) : TemplateInstance directBlockEnv s :=
  ⟨.inl rfl, rfl⟩

open PagedStore in
/-- 10 elements of 20 bytes in a cached store, 3 elements of one byte in a direct store, 4 elements
of 4 bytes from libc, and 100 bytes aligned to 64. -/
theorem requests_fit_instances :
    (∃ w', carmorCallocTemplate (pagedEnv true) .lstore0 201 10 20 (PagedStore.initialWorld true) =
        .ok (makeMstorePtr .lstore0 0x1000) w' ∧
      CallocFits .lstore0 10 20
        (fun i => pagedResidency.flat w'.toMachine (cells (makeMstorePtr .lstore0 0x1000) i))
        (makeMstorePtr .lstore0 0x1000) (PagedStore.initialWorld true) w') ∧
    (∃ w', carmorCallocTemplate directBlockEnv .lstore0 4 3 1 directWorld =
        .ok (makeMstorePtr .lstore0 0x1000) w' ∧
      CallocFits .lstore0 3 1 (fun i => w'.store (cells 0x1000 i)) (makeMstorePtr .lstore0 0x1000)
        directWorld w') ∧
    (∃ w', carmorCallocTemplate libcBlockEnv .lstore0 0 4 4 initialWorld = .ok 0x5000 w' ∧
      CallocFits .lstore0 4 4 (fun i => w'.mem (cells 0x5000 i)) 0x5000 initialWorld w') ∧
    ∃ w', carmorMemalignTemplate (pagedEnv true) .lstore0 64 100 (PagedStore.initialWorld true) =
        .ok (makeMstorePtr .lstore0 0x1040) w' ∧
      MemalignFits (pagedEnv true) .lstore0 64 100 (makeMstorePtr .lstore0 0x1040)
        (PagedStore.initialWorld true) w' := by
  obtain ⟨-, hcached, hmemalign⟩ := requests_fit_iff (s := .lstore0) pagedEnv_instance rfl
  obtain ⟨-, hdirect, -⟩ := requests_fit_iff (s := .lstore0) directBlockEnv_instance rfl
  obtain ⟨hnative, -, -⟩ := requests_fit_iff (s := .lstore0) libcBlockEnv_instance rfl
  refine ⟨?_, ?_, ?_, ?_⟩
  · have hptrs : ∀ i, i = 0 ∨ i < (toInt32 (10 * 20)).toNat →
        cells (makeMstorePtr .lstore0 0x1000) i ∈ operandPtrs (blockPtr 1) (blockPtr 1) 200 := by
      intro i hi
      have hlen : (toInt32 (10 * 20)).toNat = 200 := by decide
      exact ⟨i, by omega, .inl rfl⟩
    have hcount : (toInt32 (10 * 20)).toNat < 201 := by decide
    have hinv := inv_setBlock initialWorld_inv 1 (some 200) (by
      rintro k ⟨⟩
      decide)
    have hfaults : FaultsHeld (pagedEnv true) pagedResidency _ (PagesHeld 1 1
        ((PagedStore.initialWorld true).withMachine
          (setBlock (PagedStore.initialWorld true).toMachine 1 (some 200))).store.block) :=
      faultsHeld (by decide) (by decide)
        (operandPtrs_blocks (k := 200) (by decide) (by decide) (by decide))
    obtain ⟨w', hrun, hfits⟩ := (hcached (x := 10) (y := 20) (b := 0x1000) (by decide) rfl
      (by decide) hcount).1 hfaults.untilNext pagedEnv_bulkStore hptrs
      ⟨∅, Set.Subset.refl _, pagesHeld_empty hinv 1 1⟩
    refine ⟨w', hrun, hfits.mpr ⟨by decide, by decide, fun i hlow hi => ?_⟩⟩
    rw [toNat_toInt32_mul (by decide)] at hlow
    omega
  · have hbuffer : DirectBuffer directBlockEnv 0x1000 0x200000
        (directWorld.withMachine directWorld.toMachine) directWorld.toMachine := .present rfl
    have hcount : (toInt32 (3 * 1)).toNat < 4 := by decide
    obtain ⟨w', hrun, hfits⟩ := (hdirect (x := 3) (y := 1) (w := directWorld) (b := 0x1000)
      (by decide) rfl (by decide) hcount).2.1 (directBlockEnv_directStore (by decide)) (by decide)
      hbuffer
    refine ⟨w', hrun, hfits.mpr ⟨by decide, by decide, fun i hlow hi => ?_⟩⟩
    rw [toNat_toInt32_mul (by decide)] at hlow
    omega
  · obtain ⟨w', hrun, hfits⟩ := hnative (x := 4) (y := 4) (w := initialWorld) 0 (by decide) rfl
      (by decide) (by decide)
    exact ⟨w', hrun, hfits.mpr (by decide)⟩
  · have hrun : ∃ w', carmorMemalignTemplate (pagedEnv true) .lstore0 64 100
        (PagedStore.initialWorld true) = .ok (makeMstorePtr .lstore0 0x1040) w' := ⟨_, rfl⟩
    obtain ⟨w', hrun⟩ := hrun
    refine ⟨w', hrun, (hmemalign (show (64 : SizeT).toNat = 2 ^ 6 by decide) ?_ hrun
      (by decide)).mpr (by decide)⟩
    rintro b m halloc
    cases halloc
    decide

/-- `2 ^ 32` elements of `2 ^ 32` bytes get an empty block, `2 ^ 31` bytes of a direct store are not
zeroed, and `2 ^ 64 - 4` aligned bytes get a block of four bytes. -/
theorem requests_wrap :
    (∃ w', carmorCallocTemplate largeEnv .lstore0 1 0x100000000 0x100000000 initialWorld =
        .ok (makeMstorePtr .lstore0 0x100000000) w' ∧
      ∀ byte, ¬ CallocFits .lstore0 0x100000000 0x100000000 byte (makeMstorePtr .lstore0 0x100000000)
        initialWorld w') ∧
    (∃ w', carmorCallocTemplate directBlockEnv .lstore0 1 1 0x80000000 directWorld =
        .ok (makeMstorePtr .lstore0 0x1000) w' ∧
      ¬ CallocFits .lstore0 1 0x80000000 (fun i => w'.store (cells 0x1000 i))
        (makeMstorePtr .lstore0 0x1000) directWorld w') ∧
    ∃ w', carmorMemalignTemplate largeEnv .lstore0 1 0xfffffffffffffffc initialWorld =
        .ok (makeMstorePtr .lstore0 0x100000008) w' ∧
      ¬ MemalignFits largeEnv .lstore0 1 0xfffffffffffffffc (makeMstorePtr .lstore0 0x100000008)
        initialWorld w' := by
  refine ⟨⟨_, rfl, ?_⟩, ⟨_, rfl, ?_⟩, ⟨_, rfl, ?_⟩⟩
  · rintro byte ⟨⟨es, e, size, -, -, -, hroom⟩, -⟩
    have hlt := size.isLt
    have hproduct : (0x100000000 : SizeT).toNat * (0x100000000 : SizeT).toNat = 2 ^ 64 := by decide
    omega
  · rintro ⟨-, hzero⟩
    have hbyte := hzero 0 (by decide)
    exact absurd hbyte (by decide +kernel)
  · rintro ⟨es, size, b, htrace, hmem, -, -, -, hroom⟩
    -- the trace of `initialWorld` is empty
    obtain rfl : es = [.lstoreAlloc .lstore0 4 0x100000000] :=
      ((List.append_nil es).symm.trans htrace.symm).trans rfl
    obtain ⟨rfl, rfl⟩ : size = 4 ∧ b = 0x100000000 := by simpa using hmem
    exact absurd hroom (by decide)

end Carmor
