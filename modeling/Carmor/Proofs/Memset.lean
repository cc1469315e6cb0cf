import Carmor.Proofs.LinkedSingle
import Carmor.Proofs.Memcmp

/-!
# `__carmor_memset`

On a cached store `__carmor_memset` fills its range on the flat memory, and nothing else. It faults
every page of the range once, for writing, and fills only bytes of the frame that holds the page.
-/

namespace Carmor

variable {σ : Type}

/-! ## Fills -/

section Fill

variable (mem : Memory) (p : Uintptr) (c : Byte) {n : Nat}

theorem fillBytes_cells {i : Nat} (hi : i < n) (hn : n ≤ 2 ^ 64) :
    fillBytes mem p c n (cells p i) = c := by
  unfold fillBytes
  rw [toNat_cells_sub p (by omega), if_pos hi]

theorem fillBytes_of_ne {a : Uintptr} (ha : ∀ i < n, cells p i ≠ a) :
    fillBytes mem p c n a = mem a := by
  unfold fillBytes
  rw [if_neg]
  intro hlt
  exact ha _ hlt (cells_toNat_sub p a)

theorem fillBytes_zero : fillBytes mem p c 0 = mem := by
  funext a
  exact fillBytes_of_ne mem p c (by omega)

/-- A fill goes on at its end. -/
theorem fillBytes_add {k : Nat} (hk : n + k ≤ 2 ^ 64) :
    fillBytes (fillBytes mem p c n) (cells p n) c k = fillBytes mem p c (n + k) := by
  funext a
  by_cases hnew : ∃ i < k, cells (cells p n) i = a
  · obtain ⟨i, hi, rfl⟩ := hnew
    have hcell : cells (cells p n) i = cells p (n + i) := cells_add p n i
    rw [fillBytes_cells _ _ _ hi (by omega), hcell, fillBytes_cells _ _ _ (by omega) hk]
  · have hout : ∀ i < k, cells (cells p n) i ≠ a := fun i hi heq => hnew ⟨i, hi, heq⟩
    rw [fillBytes_of_ne _ _ _ hout]
    by_cases hold : ∃ i < n, cells p i = a
    · obtain ⟨i, hi, rfl⟩ := hold
      rw [fillBytes_cells _ _ _ hi (by omega), fillBytes_cells _ _ _ (by omega) hk]
    · have hout' : ∀ i < n + k, cells p i ≠ a := by
        intro i hi heq
        by_cases hin : i < n
        · exact hold ⟨i, hin, heq⟩
        · refine hnew ⟨i - n, by omega, ?_⟩
          rw [show cells (cells p n) (i - n) = cells p (n + (i - n)) from cells_add p n (i - n),
            Nat.add_sub_cancel' (by omega), heq]
      rw [fillBytes_of_ne _ _ _ fun i hi heq => hold ⟨i, hi, heq⟩, fillBytes_of_ne _ _ _ hout']

end Fill

section Memset

variable {env : Env σ} {r : Residency σ} {R : Set Uintptr} {Inv : Set PageOf → World σ → Prop}

/-- A fill of linked bytes, on the flat memory. -/
theorem FaultsUntilNext.flat_fillBytes (hfaults : FaultsUntilNext env r R Inv) {K : Set PageOf}
    {w : World σ} (hinv : Inv K w) {q dst0 : Uintptr} {k : Nat} (hk : k ≤ 2 ^ 64)
    (hlinked : ∀ i < k, Linked r K w (cells q i) (cells dst0 i)) (c : Byte) :
    r.flat (w.withMem (fillBytes w.mem dst0 c k)).toMachine = fillBytes (r.flat w.toMachine) q c k := by
  funext u
  by_cases hu : ∃ i < k, cells q i = u
  · obtain ⟨i, hi, rfl⟩ := hu
    have hlinked' : Linked r K (w.withMem (fillBytes w.mem dst0 c k)) (cells q i) (cells dst0 i) :=
      ⟨(hlinked i hi).place, (hlinked i hi).held⟩
    rw [hlinked'.flat_eq, World.withMem_mem, fillBytes_cells _ _ _ hi hk, fillBytes_cells _ _ _ hi hk]
  · have hout : ∀ i < k, cells q i ≠ u := fun i hi heq => hu ⟨i, hi, heq⟩
    rw [fillBytes_of_ne _ _ _ hout]
    show Lib.read (r.place w.store) (r.stored w.store) (fillBytes w.mem dst0 c k) u =
      Lib.read (r.place w.store) (r.stored w.store) w.mem u
    cases hplace : r.place w.store u with
    | none => rw [Lib.read, Lib.read, hplace]
    | some a =>
      rw [Lib.read_of_place hplace, Lib.read_of_place hplace]
      apply fillBytes_of_ne
      intro i hi heq
      exact hout i hi (hfaults.place_inj hinv (hlinked i hi).place (heq ▸ hplace))

/-- On the flat memory a chunk goes on with the fill. -/
theorem fill_singleRule (hfaults : FaultsUntilNext env r R Inv) (m₀ : Memory) (c : Int)
    (p : Uintptr) {n : Nat} (hn : n < 2 ^ 64) :
    SingleRule r Inv carmorMemsetWrapper c false p n
      (fun done m => m = fillBytes m₀ p (BitVec.ofInt 8 c) done)
      (fun _ m => m = fillBytes m₀ p (BitVec.ofInt 8 c) n) := by
  refine ⟨id, ?_⟩
  intro K w done k dst0 hinv hfilled hk hlinked
  have hcells : ∀ i < k, Linked r K w (cells (cells p done) i) (cells dst0 i) := by
    intro i hi
    have hcell : cells (cells p done) i = cells p (done + i) := cells_add p done i
    rw [hcell]
    exact hlinked i hi
  have hrun : carmorMemsetWrapper dst0 c (BitVec.ofNat 64 k) w.mem =
      (dst0, fillBytes w.mem dst0 (BitVec.ofInt 8 c) k) := by
    unfold carmorMemsetWrapper
    rw [toNat_ofNat_of_lt (show k < 2 ^ 64 by omega)]
  refine ⟨dst0, fillBytes w.mem dst0 (BitVec.ofInt 8 c) k, hrun, ?_, ?_⟩
  · apply hfaults.write hinv
    intro a hout
    apply fillBytes_of_ne
    intro i hi heq
    obtain ⟨page, hpage, hof⟩ := hout _ ((hlinked i hi).place.trans (congrArg some heq))
    exact hpage ((hlinked i hi).held page hof)
  · rw [if_neg (by simp), hfaults.flat_fillBytes hinv (by omega) hcells, hfilled,
      fillBytes_add _ _ _ (by omega)]

/-- `__carmor_memset` on a cached store returns, fills its range on the flat memory, and adds to the
trace one fault for writing of every page of the range and calls on bytes of a frame. -/
theorem memset_correct {p : Uintptr} {s : StoreId} {n : SizeT}
    (hfaults : FaultsUntilNext env r {q | ∃ i < n.toNat, q = cells p i} Inv)
    (htag : switchCase p = some s) (hrange : BulkRange env r p n.toNat) (hpos : 0 < n.toNat)
    (hn : n.toNat < 2 ^ 31) {fuel : Nat} (hfuel : n.toNat < fuel) (c : Int) {w : World σ}
    (hinv : Inv ∅ w) :
    ∃ w' es, carmorMemset env fuel p c n w = .ok p w' ∧
      r.flat w'.toMachine = fillBytes (r.flat w.toMachine) p (BitVec.ofInt 8 c) n.toNat ∧
      w'.trace = es ++ w.trace ∧ SingleTrace r s p 1 n.toNat es := by
  have hR : ∀ i, i = 0 ∨ i < n.toNat → cells p i ∈ {q | ∃ i < n.toNat, q = cells p i} := by
    intro i hi
    exact ⟨i, by omega, rfl⟩
  obtain ⟨res, w', hrun, hpost⟩ := memWrapperSingle_returns hfaults hrange htag
    (fill_singleRule hfaults (r.flat w.toMachine) c p n.isLt) hinv
    (fillBytes_zero _ _ _).symm hn hfuel hR 1
  obtain ⟨es, reach, htrace, hes, hreach⟩ := hpost.trace
  rw [hreach hpos rfl] at hes
  refine ⟨w', es, ?_, hpost.returned, htrace, hes⟩
  unfold carmorMemset
  exact Lib.bind_eq_ok.mpr ⟨res, w', hrun, rfl⟩

end Memset

/-- A fill that crosses a page and ends with the next one. -/
theorem memset_correct_smallEnv :
    ∃ w' es, carmorMemset smallEnv 0x2000 (makeMstorePtr .lstore0 0x1ff0) 0x5a 0x1010 initialWorld =
        .ok (makeMstorePtr .lstore0 0x1ff0) w' ∧
      smallResidency.flat w'.toMachine = fillBytes (smallResidency.flat initialWorld.toMachine)
        (makeMstorePtr .lstore0 0x1ff0) (BitVec.ofInt 8 0x5a) 0x1010 ∧
      w'.trace = es ++ initialWorld.trace ∧
      SingleTrace smallResidency .lstore0 (makeMstorePtr .lstore0 0x1ff0) 1 0x1010 es := by
  have hptrs : ∀ q ∈ {q | ∃ i < 0x1010, q = cells (makeMstorePtr .lstore0 0x1ff0) i}, ∀ s,
      switchCase q = some s → s = .lstore0 ∧ smallGeometry.page (makeOriginalPointer q) < 256 := by
    rintro q ⟨i, hi, rfl⟩ s hs
    exact smallGeometry_page_lt (x := 0x1ff0) (by omega) hs
  exact memset_correct (n := 0x1010) (smallEnv_faultsHeld hptrs).untilNext (by decide)
    (smallEnv_bulkRange (by decide)) (by decide) (by decide) (by decide) 0x5a
    ⟨∅, Set.Subset.refl _, initialWorld_transparent⟩

end Carmor
