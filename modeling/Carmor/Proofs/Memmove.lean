import Carmor.Proofs.Memcpy

/-!
# `__carmor_memmove`

`__carmor_memmove` runs the forward loop of `__carmor_memcpy`, so a source byte that a former chunk
has overwritten is read again. `ForwardSafe` says when this does not show.
-/

namespace Carmor

variable {σ : Type}

/-- A source byte that a chunk before it overwrites holds what it is overwritten with. Chunks start
where a page of an operand starts: `c` is such a start after the byte `t'` and not after `t`. -/
def ForwardSafe (r : Residency σ) (mem : Memory) (dest src : Uintptr) (n : Nat) : Prop :=
  ∀ t < n, ∀ t' c, PageCut r dest src c → t' < c → c ≤ t → cells dest t' = cells src t →
    mem (cells src t') = mem (cells src t)

section Memmove

variable {env : Env σ} {r : Residency σ} {Inv : Set PageOf → World σ → Prop} {dest src : Uintptr}
  {n : SizeT} {fuel : Nat} {w : World σ} (hfaults : FaultsHeld env r (operandPtrs dest src n.toNat) Inv)
  (hinv : Inv ∅ w) (hdest : BulkRange env r dest n.toNat) (hsrc : BulkRange env r src n.toNat)
  (hn : n.toNat < 2 ^ 31) (hfuel : n.toNat < fuel)
include hfaults hinv hdest hsrc hn hfuel

/-- `__carmor_memmove` returns, and copies the range in pieces. -/
theorem memmove_forwardCopy : ∃ w', carmorMemmove env fuel dest src n w = .ok dest w' ∧
    Lib.ForwardCopy (PageCut r dest src) (cells dest) (cells src) (r.flat w.toMachine) n.toNat
      (r.flat w'.toMachine) := by
  have hmem := mem_operandPtrs dest src n.toNat
  obtain ⟨res, w', hrun, hcopied, -⟩ :=
    memWrapper_copies hfaults hdest hsrc hinv hn hfuel hmem.1 hmem.2
  refine ⟨w', ?_, hcopied⟩
  unfold carmorMemmove
  exact Lib.bind_eq_ok.mpr ⟨res, w', hrun, rfl⟩

/-- `__carmor_memmove` moves the range on the flat memory exactly if no chunk overwrites source
bytes of a later one with other values. -/
theorem memmove_correct_iff : ∃ w', carmorMemmove env fuel dest src n w = .ok dest w' ∧
    (r.flat w'.toMachine = copyBytes (r.flat w.toMachine) dest src n.toNat ↔
      ForwardSafe r (r.flat w.toMachine) dest src n.toNat) := by
  obtain ⟨w', hrun, hcopied⟩ := memmove_forwardCopy hfaults hinv hdest hsrc hn hfuel
  have hcells : ∀ i < n.toNat, ∀ j < n.toNat, cells dest i = cells dest j → i = j :=
    fun i hi j hj => cells_inj (by omega) (by omega)
  have hcopy := copies_cells (r.flat w.toMachine) dest src (n := n.toNat) (by omega)
  refine ⟨w', hrun, Iff.trans ?_ (hcopied.iff_of_cut hcells)⟩
  constructor
  · intro heq
    rw [heq]
    exact hcopy
  · intro hcopies
    exact hcopies.unique hcopy

end Memmove

/-- A move to a place that is not inside the source is safe. -/
theorem forwardSafe_of_notMem {r : Residency σ} {dest src : Uintptr} {n : Nat} (mem : Memory)
    (h : ∀ i < n, 0 < i → dest ≠ cells src i) : ForwardSafe r mem dest src n := by
  intro t ht t' c _ ht' hct heq
  refine absurd ?_ (h (t - t') (by omega) (by omega))
  obtain ⟨d, rfl⟩ := Nat.exists_eq_add_of_lt (show t' < t by omega)
  unfold cells at heq ⊢
  rw [show t' + d + 1 - t' = d + 1 by omega]
  rw [show t' + d + 1 = (d + 1) + t' by omega, BitVec.ofNat_add, ← BitVec.add_assoc] at heq
  exact (BitVec.add_left_inj _).mp heq

/-- A move inside one page of each operand is safe. -/
theorem forwardSafe_of_onePage {r : Residency σ} {dest src : Uintptr} {n : Nat} (mem : Memory)
    (h : ∀ c < n, 0 < c → ¬ PageCut r dest src c) : ForwardSafe r mem dest src n := by
  intro t ht t' c hcut ht' hct _
  exact absurd hcut (h c (by omega) (by omega))

/-! ## Runs on the small instance -/

/-- `initialWorld` with a memory in which a byte is the end of its address. -/
def countingWorld : World Pins := initialWorld.withMem fun a => a.setWidth 8

theorem countingWorld_transparent : Transparent (residentCache .lstore0 256) countingWorld :=
  ⟨initialWorld_transparent.valid, initialWorld_transparent.distinct,
    initialWorld_transparent.mapped, initialWorld_transparent.pins_nonneg⟩

/-- A move of 16 bytes, by 4 bytes backward over the end of a page. -/
theorem memmove_correct_iff_backward :
    ∃ w', carmorMemmove smallEnv 17 (makeMstorePtr .lstore0 0xff8) (makeMstorePtr .lstore0 0xffc) 16
        countingWorld = .ok (makeMstorePtr .lstore0 0xff8) w' ∧
      (smallResidency.flat w'.toMachine = copyBytes (smallResidency.flat countingWorld.toMachine)
          (makeMstorePtr .lstore0 0xff8) (makeMstorePtr .lstore0 0xffc) 16 ↔
        ForwardSafe smallResidency (smallResidency.flat countingWorld.toMachine)
          (makeMstorePtr .lstore0 0xff8) (makeMstorePtr .lstore0 0xffc) 16) :=
  memmove_correct_iff (n := 16)
    (smallEnv_faultsHeld (smallEnv_operandPtrs (by decide) (by decide) (by decide)))
    countingWorld_transparent (smallEnv_bulkRange (by decide)) (smallEnv_bulkRange (by decide))
    (by decide) (by decide)

/-- A move of 16 bytes, by 4 bytes forward over the end of a page, repeats the 4 bytes before the
end in the page after it. -/
theorem not_memmove_forward :
    ¬ ∃ w', carmorMemmove smallEnv 17 (makeMstorePtr .lstore0 0xffc) (makeMstorePtr .lstore0 0xff8)
        16 countingWorld = .ok (makeMstorePtr .lstore0 0xffc) w' ∧
      smallResidency.flat w'.toMachine = copyBytes (smallResidency.flat countingWorld.toMachine)
        (makeMstorePtr .lstore0 0xffc) (makeMstorePtr .lstore0 0xff8) 16 := by
  rintro ⟨w', hrun, hflat⟩
  have hw' : w' = Lib.finalState (carmorMemmove smallEnv 17 (makeMstorePtr .lstore0 0xffc)
      (makeMstorePtr .lstore0 0xff8) 16 countingWorld) := by
    rw [hrun]
    rfl
  have hbyte := congrFun hflat (makeMstorePtr .lstore0 0x1000)
  rw [hw'] at hbyte
  revert hbyte
  decide +kernel

end Carmor
