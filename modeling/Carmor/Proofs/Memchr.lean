import Carmor.Proofs.LinkedSingle
import Carmor.Proofs.Memcmp

/-!
# `__carmor_memchr`

On a cached store `__carmor_memchr` searches the linked pages and returns what the search finds
there: an address in the page cache, not a pointer of the program. The result is right for native
ranges, and where there is nothing to find.
-/

namespace Carmor

variable {σ : Type}

/-- `res` is the result of `memchr`: the pointer to the first of the `n` bytes at `p` that is `c`,
or null. -/
def FindsByte (mem : Memory) (p : Uintptr) (c : Byte) (n : Nat) (res : Uintptr) : Prop :=
  (∃ i < n, mem (cells p i) = c ∧ (∀ j < i, mem (cells p j) ≠ c) ∧ res = cells p i) ∨
    (∀ i < n, mem (cells p i) ≠ c) ∧ res = 0

theorem findsByte_findByte (mem : Memory) (p : Uintptr) (c : Byte) (n : Nat) :
    FindsByte mem p c n (findByte mem p c n) := by
  induction n generalizing p with
  | zero => exact .inr ⟨by omega, rfl⟩
  | succ n ih =>
    have hnext : ∀ i, cells (p + 1) i = cells p (i + 1) := by
      intro i
      rw [Nat.add_comm]
      exact cells_add p 1 i
    unfold findByte
    by_cases hfirst : mem p = c
    · rw [if_pos hfirst]
      exact .inl ⟨0, by omega, by rw [cells_zero, hfirst], by omega, (cells_zero p).symm⟩
    · rw [if_neg hfirst]
      have hzero : mem (cells p 0) ≠ c := by rwa [cells_zero]
      rcases ih (p + 1) with ⟨i, hi, hc, hbefore, hres⟩ | ⟨hnone, hres⟩
      · refine .inl ⟨i + 1, by omega, by rw [← hnext, hc], ?_, by rw [hres, hnext]⟩
        intro j hj
        cases j with
        | zero => exact hzero
        | succ j =>
          rw [← hnext]
          exact hbefore j (by omega)
      · refine .inr ⟨?_, hres⟩
        intro i hi
        cases i with
        | zero => exact hzero
        | succ i =>
          rw [← hnext]
          exact hnone i (by omega)

theorem FindsByte.congr {mem mem' : Memory} {p res : Uintptr} {c : Byte} {n : Nat}
    (h : FindsByte mem p c n res) (hmem : ∀ i < n, mem' (cells p i) = mem (cells p i)) :
    FindsByte mem' p c n res := by
  rcases h with ⟨i, hi, hc, hbefore, hres⟩ | ⟨hnone, hres⟩
  · refine .inl ⟨i, hi, by rw [hmem i hi, hc], ?_, hres⟩
    intro j hj
    rw [hmem j (by omega)]
    exact hbefore j hj
  · refine .inr ⟨?_, hres⟩
    intro i hi
    rw [hmem i hi]
    exact hnone i hi

section Memchr

variable {env : Env σ} {r : Residency σ} {R : Set Uintptr} {Inv : Set PageOf → World σ → Prop}
  (hcache : ∀ {st q s a}, switchCase q = some s → r.place st q = some a → isCarmorPtr a = false)

include hcache in
/-- What the search of a chunk finds is an address in the page cache. -/
theorem find_singleRule (m₀ : Memory) (c : Int) {p : Uintptr} {s : StoreId}
    {n : Nat} (hrange : BulkRange env r p n) (htag : switchCase p = some s) (hn : n < 2 ^ 64) :
    SingleRule r Inv carmorMemchrWrapper c true p n (fun _ m => m = m₀)
      (fun res m => m = m₀ ∧ isCarmorPtr res = false ∧
        ((∀ i < n, m₀ (cells p i) ≠ BitVec.ofInt 8 c) → res = 0)) := by
  refine ⟨fun hm => ⟨hm, rfl, fun _ => rfl⟩, ?_⟩
  intro K w done k dst0 hinv hm hk hlinked
  have hfinds := findsByte_findByte w.mem dst0 (BitVec.ofInt 8 c) k
  have hrun : carmorMemchrWrapper dst0 c (BitVec.ofNat 64 k) w.mem =
      (findByte w.mem dst0 (BitVec.ofInt 8 c) k, w.mem) := by
    unfold carmorMemchrWrapper
    rw [toNat_ofNat_of_lt (show k < 2 ^ 64 by omega)]
  generalize findByte w.mem dst0 (BitVec.ofInt 8 c) k = res at hfinds hrun
  refine ⟨res, w.mem, hrun, hinv, ?_⟩
  by_cases hres : res = 0
  · rw [if_neg fun hfound => hfound.2 hres]
    exact hm
  · rw [if_pos ⟨rfl, hres⟩]
    rcases hfinds with ⟨i, hi, hc, -, hfound⟩ | ⟨-, hzero⟩
    · have htag' : switchCase (cells p (done + i)) = some s :=
        (hrange.switchCase_add (by omega)).trans htag
      refine ⟨hm, hfound ▸ hcache htag' (hlinked i hi).place, ?_⟩
      intro hnone
      have hbyte := hnone (done + i) (by omega)
      rw [← hm, (hlinked i hi).flat_eq] at hbyte
      exact absurd hc hbyte
    · exact absurd hzero hres

variable {p : Uintptr} {n : SizeT} {fuel : Nat} {w : World σ}

/-- On native memory `__carmor_memchr` is `memchr`. -/
theorem memchr_native (hrange : BulkRange env r p n.toNat) (hp : isCarmorPtr p = false) (c : Int) :
    ∃ res, carmorMemchr env fuel p c n w = .ok res w ∧
      FindsByte (r.flat w.toMachine) p (BitVec.ofInt 8 c) n.toNat res := by
  have htag := switchCase_native hp
  refine ⟨findByte w.mem p (BitVec.ofInt 8 c) n.toNat, ?_, ?_⟩
  · unfold carmorMemchr
    rw [memWrapperSingle_native fuel c n carmorMemchrWrapper 0 true false hp]
    rfl
  · apply (findsByte_findByte w.mem p (BitVec.ofInt 8 c) n.toNat).congr
    intro i hi
    have hlinked : Linked r ∅ w p p := linked_native hrange htag (by omega)
    have hcell : Linked r ∅ w (cells p i) (cells p i) := hlinked.add hrange 0 hi (by simp [htag])
    exact hcell.flat_eq

/-- `__carmor_memchr` returns, and its result is the pointer that `memchr` returns exactly if the
range is native or has no byte `c`. -/
theorem memchr_correct_iff
    (hfaults : FaultsUntilNext env r {q | ∃ i, (i = 0 ∨ i < n.toNat) ∧ q = cells p i} Inv)
    (hinv : Inv ∅ w) (hrange : BulkRange env r p n.toNat)
    (hcache : ∀ {st q s a}, switchCase q = some s → r.place st q = some a → isCarmorPtr a = false)
    (hn : n.toNat < 2 ^ 31) (hfuel : n.toNat < fuel) (c : Int) :
    ∃ res w', carmorMemchr env fuel p c n w = .ok res w' ∧
      (FindsByte (r.flat w.toMachine) p (BitVec.ofInt 8 c) n.toNat res ↔
        isCarmorPtr p = false ∨
          ∀ i < n.toNat, r.flat w.toMachine (cells p i) ≠ BitVec.ofInt 8 c) := by
  cases htag : switchCase p with
  | none =>
    have hp := hrange.isCarmorPtr_eq
    rw [htag] at hp
    obtain ⟨res, hrun, hfinds⟩ : ∃ res, carmorMemchr env fuel p c n w = .ok res w ∧
        FindsByte (r.flat w.toMachine) p (BitVec.ofInt 8 c) n.toNat res := memchr_native hrange hp c
    exact ⟨res, w, hrun, iff_of_true hfinds (.inl hp)⟩
  | some s =>
    have hp := isCarmorPtr_of_switchCase htag
    obtain ⟨res, w', hrun, hpost⟩ := memWrapperSingle_returns hfaults hrange htag
      (find_singleRule hcache (r.flat w.toMachine) c hrange htag n.isLt) hinv rfl hn hfuel
      (fun i hi => ⟨i, hi, rfl⟩) 0
    obtain ⟨-, hnative, hzero⟩ := hpost.returned
    refine ⟨res, w', hrun, ?_⟩
    constructor
    · rintro (⟨i, hi, -, -, hfound⟩ | ⟨hnone, -⟩)
      · have htag' : switchCase (cells p i) = some s := (hrange.switchCase_add hi).trans htag
        rw [hfound, isCarmorPtr_of_switchCase htag'] at hnative
        cases hnative
      · exact .inr hnone
    · rintro (hfalse | hnone)
      · rw [hp] at hfalse
        cases hfalse
      · exact .inr ⟨hnone, hzero hnone⟩

end Memchr

/-! ## A small instance -/

/-- The page cache of `smallEnv` is native memory. -/
theorem smallResidency_cache {st : Pins} {q a : Uintptr} {s : StoreId}
    (htag : switchCase q = some s) (h : smallResidency.place st q = some a) : isCarmorPtr a = false := by
  obtain ⟨-, hlt, heq⟩ := smallResidency_place_tagged htag h
  rw [← Bool.not_eq_true, isCarmorPtr_iff]
  omega

/-- A search over a page end. -/
theorem memchr_correct_iff_smallEnv :
    ∃ res w', carmorMemchr smallEnv 64 (makeMstorePtr .lstore0 0x1ff0) 0x5a 0x30 initialWorld =
        .ok res w' ∧
      (FindsByte (smallResidency.flat initialWorld.toMachine) (makeMstorePtr .lstore0 0x1ff0)
          (BitVec.ofInt 8 0x5a) 0x30 res ↔
        isCarmorPtr (makeMstorePtr .lstore0 0x1ff0) = false ∨
          ∀ i < 0x30, smallResidency.flat initialWorld.toMachine
            (cells (makeMstorePtr .lstore0 0x1ff0) i) ≠ BitVec.ofInt 8 0x5a) := by
  have hptrs : ∀ q ∈ {q | ∃ i, (i = 0 ∨ i < 0x30) ∧ q = cells (makeMstorePtr .lstore0 0x1ff0) i},
      ∀ s, switchCase q = some s →
        s = .lstore0 ∧ smallGeometry.page (makeOriginalPointer q) < 256 := by
    rintro q ⟨i, hi, rfl⟩ s hs
    exact smallGeometry_page_lt (x := 0x1ff0) (by omega) hs
  exact memchr_correct_iff (n := 0x30) (smallEnv_faultsHeld hptrs).untilNext
    ⟨∅, Set.Subset.refl _, initialWorld_transparent⟩ (smallEnv_bulkRange (by decide))
    smallResidency_cache (by decide) (by decide) 0x5a

/-- The search for a byte that is there returns its address in the page cache. -/
theorem not_findsByte_cacheAddress :
    ∃ w', carmorMemchr smallEnv 8 (makeMstorePtr .lstore0 0x1000) 0 1 initialWorld =
        .ok 0x101000 w' ∧
      ¬ FindsByte (smallResidency.flat initialWorld.toMachine) (makeMstorePtr .lstore0 0x1000) 0 1
        0x101000 := by
  refine ⟨_, rfl, ?_⟩
  rintro (⟨i, hi, -, -, hfound⟩ | ⟨-, hzero⟩)
  · obtain rfl : i = 0 := by omega
    exact absurd hfound (by decide)
  · exact absurd hzero (by decide)

end Carmor
