import Carmor.Proofs.BulkCopy
import Carmor.Proofs.Transparency

/-!
# `__carmor_memcpy`

Between disjoint ranges `__carmor_memcpy` copies on the flat memory, wherever the pages of the two
operands start and end, and it faults inside the two ranges only.
-/

namespace Carmor

variable {σ : Type}

/-- The pointers at which an operation on two ranges of `n` bytes links: the starts, and the bytes
inside. -/
def operandPtrs (dest src : Uintptr) (n : Nat) : Set Uintptr :=
  {q | ∃ i, (i = 0 ∨ i < n) ∧ (q = cells dest i ∨ q = cells src i)}

theorem mem_operandPtrs (dest src : Uintptr) (n : Nat) :
    (dest ∈ operandPtrs dest src n ∧ src ∈ operandPtrs dest src n) ∧
      ∀ i < n, cells dest i ∈ operandPtrs dest src n ∧ cells src i ∈ operandPtrs dest src n := by
  refine ⟨⟨⟨0, .inl rfl, .inl (cells_zero _).symm⟩, ⟨0, .inl rfl, .inr (cells_zero _).symm⟩⟩, ?_⟩
  intro i hi
  exact ⟨⟨i, .inr hi, .inl rfl⟩, ⟨i, .inr hi, .inr rfl⟩⟩

/-- The copy of a range, as a copy of cells. -/
theorem copies_cells (mem : Memory) (d s : Uintptr) {n : Nat} (hn : n ≤ 2 ^ 64) :
    Lib.Copies (cells d) (cells s) {i | i < n} mem (copyBytes mem d s n) := by
  have hcopies := copies_copyBytes mem d s 0 hn
  simp only [Nat.sub_zero, Nat.zero_le, true_and, Nat.zero_add] at hcopies
  exact hcopies

section Memcpy

variable {env : Env σ} {r : Residency σ} {Inv : Set PageOf → World σ → Prop} {dest src : Uintptr}
  {n : SizeT} {fuel : Nat} {w : World σ}

/-- `__carmor_memcpy` of disjoint ranges on the flat memory. -/
theorem memcpy_copies {R : Set Uintptr} (hfaults : FaultsHeld env r R Inv) (hinv : Inv ∅ w)
    (hdest : BulkRange env r dest n.toNat) (hsrc : BulkRange env r src n.toNat)
    (hdisjoint : ∀ i < n.toNat, ∀ j < n.toNat, cells dest i ≠ cells src j)
    (hn : n.toNat < 2 ^ 31) (hfuel : n.toNat < fuel) (hR : dest ∈ R ∧ src ∈ R)
    (hR' : ∀ i < n.toNat, cells dest i ∈ R ∧ cells src i ∈ R) :
    ∃ w', carmorMemcpy env fuel dest src n w = .ok dest w' ∧
      r.flat w'.toMachine = copyBytes (r.flat w.toMachine) dest src n.toNat ∧
      (∃ K, Inv K w') ∧ FaultsIn R w w' := by
  obtain ⟨res, w', hrun, hcopied, hheld, hin⟩ :=
    memWrapper_copies hfaults hdest hsrc hinv hn hfuel hR hR'
  have hcells : ∀ i < n.toNat, ∀ j < n.toNat, cells dest i = cells dest j → i = j :=
    fun i hi j hj => cells_inj (by omega) (by omega)
  have hcopies := hcopied.copies_of_disjoint hcells hdisjoint
  refine ⟨w', ?_, hcopies.unique (copies_cells _ _ _ (by omega)), hheld, hin⟩
  unfold carmorMemcpy
  exact Lib.bind_eq_ok.mpr ⟨res, w', hrun, rfl⟩

/-- `__carmor_memcpy` of disjoint ranges returns, copies the range on the flat memory and faults at
bytes of the two ranges only. -/
theorem memcpy_correct (hfaults : FaultsHeld env r (operandPtrs dest src n.toNat) Inv)
    (hinv : Inv ∅ w) (hdest : BulkRange env r dest n.toNat) (hsrc : BulkRange env r src n.toNat)
    (hdisjoint : ∀ i < n.toNat, ∀ j < n.toNat, cells dest i ≠ cells src j)
    (hn : n.toNat < 2 ^ 31) (hfuel : n.toNat < fuel) :
    ∃ w', carmorMemcpy env fuel dest src n w = .ok dest w' ∧
      r.flat w'.toMachine = copyBytes (r.flat w.toMachine) dest src n.toNat ∧
      (0 < n.toNat → ∃ es, w'.trace = es ++ w.trace ∧ ∀ q dirty, Event.pageFault q dirty ∈ es →
        ∃ i < n.toNat, q = cells dest i ∨ q = cells src i) := by
  have hmem := mem_operandPtrs dest src n.toNat
  obtain ⟨w', hrun, hcopied, -, es, htrace, hes⟩ := memcpy_copies hfaults hinv hdest hsrc hdisjoint hn
    hfuel hmem.1 hmem.2
  refine ⟨w', hrun, hcopied, ?_⟩
  intro hpos
  refine ⟨es, htrace, ?_⟩
  intro q dirty hq
  obtain ⟨i, hi, hqi⟩ := hes q dirty hq
  exact ⟨i, by omega, hqi⟩

end Memcpy

/-! ## A small instance -/

/-- The flat memory of a program with one store in `smallEnv`: its 256 pages are in their frames,
and the program has 1 MiB of native memory at `0x400000`. -/
def smallResidency : Residency Pins where
  geometry _ := smallGeometry
  native p := decide (0x400000 ≤ p.toNat ∧ p.toNat < 0x500000)
  frame _ s page := if s = .lstore0 ∧ page < 256 then some page else none
  stored _ _ := 0

theorem smallResidency_place_tagged {st : Pins} {p a : Uintptr} {s : StoreId}
    (htag : switchCase p = some s) (h : smallResidency.place st p = some a) :
    s = .lstore0 ∧ (makeOriginalPointer p).toNat < 0x100000 ∧
      a.toNat = 0x100000 + (makeOriginalPointer p).toNat := by
  rw [smallResidency.place_tagged htag, Option.map_eq_some_iff] at h
  obtain ⟨f, hf, rfl⟩ := h
  have hoff : (smallResidency.geometry s).offset (makeOriginalPointer p) =
      (makeOriginalPointer p).toNat := by
    show (makeOriginalPointer p - 0#64).toNat = _
    simp
  have hpage : (smallResidency.geometry s).page (makeOriginalPointer p) =
      (makeOriginalPointer p).toNat / 0x1000 := by
    rw [StoreGeometry.page, hoff]
    rfl
  have hin : (smallResidency.geometry s).inPage (makeOriginalPointer p) =
      (makeOriginalPointer p).toNat % 0x1000 := by
    rw [StoreGeometry.inPage, hoff]
    rfl
  rw [hpage] at hf
  by_cases hcond : s = .lstore0 ∧ (makeOriginalPointer p).toNat / 0x1000 < 256
  · have hframe : f = (makeOriginalPointer p).toNat / 0x1000 := by
      have hsome : some ((makeOriginalPointer p).toNat / 0x1000) = some f :=
        (if_pos hcond).symm.trans hf
      exact (Option.some.inj hsome).symm
    refine ⟨hcond.1, by omega, ?_⟩
    rw [hin, hframe]
    show (0x100000 + BitVec.ofNat 64 (_ * 0x1000 + _)).toNat = _
    rw [Nat.div_add_mod', toNat_add_ofNat]
    · rfl
    · show 0x100000 + _ < _
      omega
  · have hnone : (none : Option Nat) = some f := (if_neg hcond).symm.trans hf
    cases hnone

theorem smallResidency_place_native {st : Pins} {p a : Uintptr} (htag : switchCase p = none)
    (h : smallResidency.place st p = some a) : a = p ∧ 0x400000 ≤ p.toNat := by
  rw [smallResidency.place_native htag] at h
  by_cases hnative : smallResidency.native p = true
  · rw [if_pos hnative] at h
    exact ⟨(Option.some.inj h).symm, (of_decide_eq_true hnative).1⟩
  · rw [if_neg hnative] at h
    cases h

theorem smallResidency_place_inj {st : Pins} {p q a : Uintptr}
    (hp : smallResidency.place st p = some a) (hq : smallResidency.place st q = some a) : p = q := by
  cases htagp : switchCase p with
  | none =>
    obtain ⟨rfl, hlo⟩ := smallResidency_place_native htagp hp
    cases htagq : switchCase q with
    | none => exact (smallResidency_place_native htagq hq).1
    | some t =>
      obtain ⟨-, hlt, heq⟩ := smallResidency_place_tagged htagq hq
      omega
  | some s =>
    obtain ⟨rfl, hlt, heq⟩ := smallResidency_place_tagged htagp hp
    cases htagq : switchCase q with
    | none =>
      obtain ⟨rfl, hlo⟩ := smallResidency_place_native htagq hq
      omega
    | some t =>
      obtain ⟨rfl, hlt', heq'⟩ := smallResidency_place_tagged htagq hq
      rw [eq_makeMstorePtr_of_switchCase htagp, eq_makeMstorePtr_of_switchCase htagq]
      congr 1
      apply BitVec.eq_of_toNat_eq
      omega

/-- A passage through the TLB of a resident store does not touch memory. -/
theorem smallEnv_linkStep_mem {u a : Uintptr} {ptrSize : Int} {dirty : Byte} {w w' : World Pins}
    (h : LinkStep smallEnv .lstore0 u ptrSize dirty w a w') : w'.mem = w.mem := by
  cases h with
  | hit => rfl
  | miss hlookup hhandler hdrop hcached hsize =>
    cases hhandler
    cases hcached
    unfold DropStep at hdrop
    split at hdrop
    · cases hdrop
      rfl
    · rw [hdrop]
      rfl

/-- The page faults of `smallEnv` on pages of `lstore0` hold. -/
theorem smallEnv_faultsHeld {R : Set Uintptr} (hR : ∀ p ∈ R, ∀ s, switchCase p = some s →
    s = .lstore0 ∧ smallGeometry.page (makeOriginalPointer p) < 256) :
    FaultsHeld smallEnv smallResidency R
      (fun _ w => Transparent (residentCache .lstore0 256) w) where
  place_inj _ hp hq := smallResidency_place_inj hp hq
  write hinv _ := ⟨hinv.valid, hinv.distinct, hinv.mapped, hinv.pins_nonneg⟩
  log hinv := ⟨hinv.valid, hinv.distinct, hinv.mapped, hinv.pins_nonneg⟩
  fault := by
    intro K w p s dirty hinv hp htag
    obtain ⟨rfl, hpage⟩ := hR p hp s htag
    have hlogged : Transparent (residentCache .lstore0 256) (w.log (.pageFault p dirty)) :=
      ⟨hinv.valid, hinv.distinct, hinv.mapped, hinv.pins_nonneg⟩
    have hin : (smallGeometry.inPage (makeOriginalPointer p) : Int) + 0 ≤ smallGeometry.pageSize := by
      have hlt := smallGeometry.inPage_lt (makeOriginalPointer p)
      omega
    obtain ⟨f, w', hlink, hf, hinv'⟩ := exists_linkStep smallEnv_cachedStore.geometry
      smallEnv_cachedStore.tlb (residentCache_maintained _ _ _ (by decide)) (by decide) hpage
      (by omega) hlogged (fun _ => ⟨_, _, rfl⟩) (Int.le_refl 0) hin dirty
    have hrun := (carmorPageFault_eq_ok smallEnv_cachedStore.geometry smallEnv_cachedStore.link
      htag).mpr hlink
    refine ⟨f, w', hrun, ?_, hinv', fun _ _ => rfl, ?_⟩
    · have hframe : some (smallGeometry.page (makeOriginalPointer p)) = some f :=
        (if_pos hpage).symm.trans hf
      rw [← hframe]
      exact if_pos ⟨rfl, hpage⟩
    · have hmem : w'.mem = (w.log (.pageFault p dirty)).mem := smallEnv_linkStep_mem hlink
      unfold Residency.flat
      rw [hmem]
      rfl

theorem initialWorld_transparent : Transparent (residentCache .lstore0 256) initialWorld :=
  transparent_of_initialize smallEnv_cachedStore carmorInitialize_smallEnv trivial
    fun _ _ => Int.le_refl _

theorem smallEnv_bulkStore : BulkStore smallEnv smallResidency .lstore0 where
  ne_lstore3 := by decide
  isCached := rfl
  geometry := smallEnv_cachedStore.geometry
  pageBits := by decide
  link := smallEnv_cachedStore.link

/-- A tagged range of `n` bytes from storage address `x` on. -/
theorem smallEnv_bulkRange {x n : Nat} (hx : x + n ≤ 0x100000) :
    BulkRange smallEnv smallResidency (makeMstorePtr .lstore0 (BitVec.ofNat 64 x)) n := by
  have hnat := toNat_ofNat_of_lt (show x < 2 ^ 64 by omega)
  exact .tagged smallEnv_bulkStore rfl (by omega) (by omega)

/-- The `i`-th byte from storage address `x` on. -/
theorem cells_makeMstorePtr (s : StoreId) {x i : Nat} (hi : x + i < 2 ^ 60) :
    cells (makeMstorePtr s (BitVec.ofNat 64 x)) i = makeMstorePtr s (BitVec.ofNat 64 (x + i)) := by
  have hx := toNat_ofNat_of_lt (show x < 2 ^ 64 by omega)
  have hk := toNat_ofNat_of_lt (show i < 2 ^ 64 by omega)
  unfold cells
  rw [makeMstorePtr_add s (by omega), BitVec.ofNat_add]

/-- Different storage addresses have different pointers. -/
theorem makeMstorePtr_ofNat_inj {s t : StoreId} {x y : Nat} (hx : x < 2 ^ 60) (hy : y < 2 ^ 60)
    (h : makeMstorePtr s (BitVec.ofNat 64 x) = makeMstorePtr t (BitVec.ofNat 64 y)) : x = y := by
  have hxn := toNat_ofNat_of_lt (show x < 2 ^ 64 by omega)
  have hyn := toNat_ofNat_of_lt (show y < 2 ^ 64 by omega)
  have heq := (makeMstorePtr_inj (by omega) (by omega) h).2
  rw [← hxn, ← hyn, heq]

/-- Addresses below 1 MiB are in the 256 pages. -/
theorem smallGeometry_page_lt {x i : Nat} (hi : x + i < 0x100000) {s : StoreId}
    (hs : switchCase (cells (makeMstorePtr .lstore0 (BitVec.ofNat 64 x)) i) = some s) :
    s = .lstore0 ∧ smallGeometry.page (makeOriginalPointer
      (cells (makeMstorePtr .lstore0 (BitVec.ofNat 64 x)) i)) < 256 := by
  have hnat := toNat_ofNat_of_lt (show x + i < 2 ^ 64 by omega)
  rw [cells_makeMstorePtr _ (by omega)] at hs ⊢
  rw [switchCase_makeMstorePtr _ (by omega)] at hs
  refine ⟨(Option.some.inj hs).symm, ?_⟩
  rw [makeOriginalPointer_makeMstorePtr _ (by omega)]
  show (BitVec.ofNat 64 (x + i) - 0#64).toNat / 0x1000 < 256
  rw [BitVec.sub_zero, hnat]
  omega

/-- The storage addresses of the operands are in the 256 pages. -/
theorem smallEnv_operandPtrs {x y n : Nat} (hx : x + n ≤ 0x100000) (hy : y + n ≤ 0x100000)
    (hn : 0 < n) : ∀ p ∈ operandPtrs (makeMstorePtr .lstore0 (BitVec.ofNat 64 x))
      (makeMstorePtr .lstore0 (BitVec.ofNat 64 y)) n, ∀ s, switchCase p = some s →
      s = .lstore0 ∧ smallGeometry.page (makeOriginalPointer p) < 256 := by
  intro p hp s hs
  obtain ⟨i, hi, rfl | rfl⟩ := hp
  · exact smallGeometry_page_lt (by omega) hs
  · exact smallGeometry_page_lt (by omega) hs

/-- A copy of 48 bytes in which both operands cross a page, at different bytes. -/
theorem memcpy_correct_smallEnv :
    ∃ w', carmorMemcpy smallEnv 64 (makeMstorePtr .lstore0 0x1ff0) (makeMstorePtr .lstore0 0x5ff8)
        0x30 initialWorld = .ok (makeMstorePtr .lstore0 0x1ff0) w' ∧
      smallResidency.flat w'.toMachine = copyBytes (smallResidency.flat initialWorld.toMachine)
        (makeMstorePtr .lstore0 0x1ff0) (makeMstorePtr .lstore0 0x5ff8) 0x30 ∧
      (0 < 0x30 → ∃ es, w'.trace = es ++ initialWorld.trace ∧
        ∀ q dirty, Event.pageFault q dirty ∈ es → ∃ i < 0x30,
          q = cells (makeMstorePtr .lstore0 0x1ff0) i ∨
            q = cells (makeMstorePtr .lstore0 0x5ff8) i) := by
  have hdisjoint : ∀ i < 0x30, ∀ j < 0x30, cells (makeMstorePtr .lstore0 (BitVec.ofNat 64 0x1ff0)) i ≠
      cells (makeMstorePtr .lstore0 (BitVec.ofNat 64 0x5ff8)) j := by
    intro i hi j hj heq
    rw [cells_makeMstorePtr _ (by omega), cells_makeMstorePtr _ (by omega)] at heq
    have hxy := makeMstorePtr_ofNat_inj (by omega) (by omega) heq
    omega
  exact memcpy_correct (n := 0x30)
    (smallEnv_faultsHeld (smallEnv_operandPtrs (by decide) (by decide) (by decide)))
    initialWorld_transparent (smallEnv_bulkRange (by decide)) (smallEnv_bulkRange (by decide))
    hdisjoint (by decide) (by decide)

end Carmor
