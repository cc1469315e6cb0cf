import Carmor.Proofs.LinkedLoop

/-!
# Bulk copies on the flat memory

`__carmor_mem_wrapper` with a copy function walks over two ranges and calls the function on
chunks that end where a page of an operand ends. On the flat memory the loop is a
`Lib.ForwardCopy` that is cut at these page ends. For disjoint ranges the cuts do not matter:
`__carmor_memcpy` is a copy.
-/

namespace Carmor

variable {σ : Type}

/-! ## Chunks -/

/-- A copy inside one memory. -/
theorem copyBytes_eq_transfer (mem : Memory) (d s : Uintptr) (k : Nat) :
    copyBytes mem d s k = transfer mem d mem s k := rfl

theorem copyBytes_add {mem : Memory} {d s : Uintptr} {k j : Nat} (hk : k ≤ 2 ^ 64) (hj : j < k) :
    copyBytes mem d s k (d + BitVec.ofNat 64 j) = mem (s + BitVec.ofNat 64 j) := by
  rw [copyBytes_eq_transfer]
  exact transfer_cells_of_lt mem mem d s hj hk

theorem copyBytes_of_ne {mem : Memory} {d s a : Uintptr} {k : Nat}
    (ha : ∀ j < k, d + BitVec.ofNat 64 j ≠ a) : copyBytes mem d s k a = mem a := by
  rw [copyBytes_eq_transfer]
  exact transfer_of_ne mem mem d s ha

/-- `copyBytes` is a copy of the cells with the indices `c, ..., c + k - 1`. -/
theorem copies_copyBytes (mem : Memory) (d s : Uintptr) (c : Nat) {k : Nat} (hk : k ≤ 2 ^ 64) :
    Lib.Copies (fun i => d + BitVec.ofNat 64 (i - c)) (fun i => s + BitVec.ofNat 64 (i - c))
      {i | c ≤ i ∧ i < c + k} mem (copyBytes mem d s k) := by
  constructor
  · intro i hi
    exact copyBytes_add hk (by have hic := hi.1; have hik := hi.2; omega)
  · intro a ha
    apply copyBytes_of_ne
    intro j hj heq
    apply ha (c + j) ⟨by omega, by omega⟩
    rw [Nat.add_sub_cancel_left, heq]

section Copy

variable {env : Env σ} {r : Residency σ} {R : Set Uintptr} {Inv : Set PageOf → World σ → Prop}
  (hfaults : FaultsHeld env r R Inv)
include hfaults

/-- On the flat memory a chunk is one more piece of a copy. -/
theorem copy_chunkRule (m₀ : Memory) (dest src : Uintptr) {n : Nat} (hn : n < 2 ^ 64) :
    ChunkRule r Inv carmorMemcpyWrapper false dest src n
      (Lib.ForwardCopy (PageCut r dest src) (cells dest) (cells src) m₀)
      (fun _ => Lib.ForwardCopy (PageCut r dest src) (cells dest) (cells src) m₀ n) := by
  refine ⟨id, ?_⟩
  intro K w done k vl0 vr0 hinv hcopied hstart hk hinside hlinked
  have hres : carmorMemcpyWrapper vl0 vr0 (BitVec.ofNat 64 k) w.mem =
      (0, copyBytes w.mem vl0 vr0 k) := by
    unfold carmorMemcpyWrapper
    rw [toNat_ofNat_of_lt (show k < 2 ^ 64 by omega)]
  refine ⟨0, copyBytes w.mem vl0 vr0 k, hres, ?_, ?_⟩
  · apply hfaults.write hinv
    intro a hout
    apply copyBytes_of_ne
    intro j hj heq
    have hl := (hlinked j hj).1
    obtain ⟨page, hpage, hof⟩ := hout (cells dest (done + j)) (hl.place.trans (congrArg some heq))
    exact hpage (hl.held page hof)
  · rw [if_pos rfl]
    refine .piece hcopied hstart hinside ?_
    apply Lib.copies_read (fun l l' a hl hl' => hfaults.place_inj hinv hl hl')
      (d := fun i => vl0 + BitVec.ofNat 64 (i - done)) (s := fun i => vr0 + BitVec.ofNat 64 (i - done))
    · rintro i ⟨hi, hik⟩
      have hl := (hlinked (i - done) (by omega)).1.place
      rwa [Nat.add_sub_cancel' hi] at hl
    · rintro i ⟨hi, hik⟩
      have hr := (hlinked (i - done) (by omega)).2.place
      rwa [Nat.add_sub_cancel' hi] at hr
    · exact copies_copyBytes w.mem vl0 vr0 done (by omega)

/-! ## `__carmor_mem_wrapper` -/

variable {dest src : Uintptr} {n : SizeT} {fuel : Nat} {w : World σ}
  (hdest : BulkRange env r dest n.toNat) (hsrc : BulkRange env r src n.toNat) (hinv : Inv ∅ w)
include hdest hsrc hinv

/-- The wrapper with a copy function returns, and on the flat memory it copies the range in pieces
that are cut where pages start. -/
theorem memWrapper_copies (hn : n.toNat < 2 ^ 31) (hfuel : n.toNat < fuel)
    (hR : dest ∈ R ∧ src ∈ R) (hR' : ∀ i < n.toNat, cells dest i ∈ R ∧ cells src i ∈ R) :
    ∃ res w', carmorMemWrapper env fuel dest 1 src 0 n carmorMemcpyWrapper false w = .ok res w' ∧
      Lib.ForwardCopy (PageCut r dest src) (cells dest) (cells src) (r.flat w.toMachine) n.toNat
        (r.flat w'.toMachine) ∧ (∃ K, Inv K w') ∧ FaultsIn R w w' := by
  obtain ⟨res, w', hrun, hpost⟩ := memWrapper_returns 1 0 hfaults hdest hsrc hinv
    (copy_chunkRule hfaults (r.flat w.toMachine) dest src n.isLt) .zero hn hfuel hR hR'
  exact ⟨res, w', hrun, hpost.returned, hpost.held, hpost.faults⟩

end Copy

end Carmor
