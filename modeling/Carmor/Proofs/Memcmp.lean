import Carmor.Proofs.Memcpy

/-!
# `__carmor_memcmp`

`__carmor_memcmp` compares chunk by chunk and returns at the first chunk that differs. On the flat
memory its result is that of one `memcmp` of the two ranges, wherever the pages of the operands
start and end.
-/

namespace Carmor

variable {σ : Type}

/-! ## Comparison of byte sequences -/

/-- The difference of the first two bytes that differ, or 0. -/
def byteDifference (a b : Nat → Byte) : Nat → Int
  | 0 => 0
  | n + 1 =>
      if byteDifference a b n = 0 then (a n).toNat - (b n).toNat else byteDifference a b n

section ByteDifference

variable {a b : Nat → Byte}

theorem byteDifference_eq_zero (n : Nat) : byteDifference a b n = 0 ↔ ∀ i < n, a i = b i := by
  induction n with
  | zero => simp [byteDifference]
  | succ n ih =>
    unfold byteDifference
    by_cases hzero : byteDifference a b n = 0
    · rw [if_pos hzero]
      have hall := ih.mp hzero
      constructor
      · intro hlast i hi
        rcases Nat.lt_succ_iff_lt_or_eq.mp hi with hlt | rfl
        · exact hall i hlt
        · apply BitVec.eq_of_toNat_eq
          omega
      · intro heq
        rw [heq n (Nat.lt_succ_self n), Int.sub_self]
    · rw [if_neg hzero]
      constructor
      · intro hfalse
        exact absurd hfalse hzero
      · intro heq
        exact absurd (ih.mpr fun i hi => heq i (by omega)) hzero

/-- Equal bytes at the start do not matter. -/
theorem byteDifference_of_eq {c : Nat} (h : ∀ i < c, a i = b i) (k : Nat) :
    byteDifference a b (c + k) = byteDifference (fun i => a (c + i)) (fun i => b (c + i)) k := by
  induction k with
  | zero => exact (byteDifference_eq_zero c).mpr h
  | succ k ih => rw [← Nat.add_assoc, byteDifference, byteDifference, ih]

/-- A difference decides the comparison. -/
theorem byteDifference_of_ne {c : Nat} (h : byteDifference a b c ≠ 0) (k : Nat) :
    byteDifference a b (c + k) = byteDifference a b c := by
  induction k with
  | zero => rfl
  | succ k ih => rw [← Nat.add_assoc, byteDifference, ih, if_neg h]

theorem byteDifference_congr {a' b' : Nat → Byte} {n : Nat} (ha : ∀ i < n, a i = a' i)
    (hb : ∀ i < n, b i = b' i) : byteDifference a b n = byteDifference a' b' n := by
  induction n with
  | zero => rfl
  | succ n ih =>
    have hprev := ih (fun i hi => ha i (by omega)) fun i hi => hb i (by omega)
    rw [byteDifference, byteDifference, hprev, ha n (by omega), hb n (by omega)]

end ByteDifference

/-- `memcmp` of libc compares the bytes in order. -/
theorem compareBytes_eq (mem : Memory) (vl vr : Uintptr) (n : Nat) : compareBytes mem vl vr n =
    byteDifference (fun i => mem (cells vl i)) (fun i => mem (cells vr i)) n := by
  induction n generalizing vl vr with
  | zero => rfl
  | succ n ih =>
    have hnext : ∀ p i, cells (p + 1) i = cells p (1 + i) := fun p i => cells_add p 1 i
    unfold compareBytes
    by_cases heq : mem vl = mem vr
    · have hfirst : ∀ i < 1, mem (cells vl i) = mem (cells vr i) := by
        intro i hi
        rw [show i = 0 by omega, cells_zero, cells_zero, heq]
      rw [if_pos heq, ih, Nat.add_comm n 1, byteDifference_of_eq hfirst]
      simp only [hnext]
    · have hfirst : byteDifference (fun i => mem (cells vl i)) (fun i => mem (cells vr i)) 1 =
          (mem vl).toNat - (mem vr).toNat := by
        simp [byteDifference, cells_zero]
      have hne : ((mem vl).toNat : Int) - (mem vr).toNat ≠ 0 := by
        intro hzero
        apply heq
        apply BitVec.eq_of_toNat_eq
        omega
      rw [if_neg heq, Nat.add_comm n 1, byteDifference_of_ne (hfirst ▸ hne), hfirst]

/-! ## What `memcmp` returns -/

/-- `res` is a result of `memcmp` on two sequences of `n` bytes: zero if they are equal, otherwise
with the sign of the first pair of bytes that differ. -/
structure ComparesAs (a b : Nat → Byte) (n : Nat) (res : Int) : Prop where
  eq_zero : res = 0 ↔ ∀ i < n, a i = b i
  first : ∀ i < n, (∀ j < i, a j = b j) → a i ≠ b i →
    (0 < res ↔ (b i).toNat < (a i).toNat) ∧ (res < 0 ↔ (a i).toNat < (b i).toNat)

section ComparesAs

variable {a b : Nat → Byte} {n : Nat} {res : Int}

theorem ComparesAs.congr {a' b' : Nat → Byte} (h : ComparesAs a b n res) (ha : ∀ i < n, a' i = a i)
    (hb : ∀ i < n, b' i = b i) : ComparesAs a' b' n res := by
  constructor
  · rw [h.eq_zero]
    constructor
    · intro heq i hi
      rw [ha i hi, hb i hi, heq i hi]
    · intro heq i hi
      rw [← ha i hi, ← hb i hi, heq i hi]
  · intro i hi hbefore hne
    rw [ha i hi, hb i hi] at hne ⊢
    apply h.first i hi _ hne
    intro j hj
    rw [← ha j (by omega), ← hb j (by omega), hbefore j hj]

/-- Equal bytes in front do not matter. -/
theorem ComparesAs.after {c : Nat} (heq : ∀ i < c, a i = b i)
    (h : ComparesAs (fun i => a (c + i)) (fun i => b (c + i)) n res) :
    ComparesAs a b (c + n) res := by
  constructor
  · rw [h.eq_zero]
    constructor
    · intro hrest i hi
      by_cases hic : i < c
      · exact heq i hic
      · rw [← Nat.add_sub_cancel' (Nat.le_of_not_lt hic)]
        exact hrest (i - c) (by omega)
    · exact fun hall i hi => hall (c + i) (by omega)
  · intro i hi hbefore hne
    have hic : c ≤ i := by
      by_contra hlt
      exact hne (heq i (by omega))
    rw [← Nat.add_sub_cancel' hic] at hne ⊢
    exact h.first (i - c) (by omega) (fun j hj => hbefore (c + j) (by omega)) hne

/-- A difference decides, whatever follows. -/
theorem ComparesAs.extend (h : ComparesAs a b n res) (hres : res ≠ 0) (k : Nat) :
    ComparesAs a b (n + k) res := by
  constructor
  · constructor
    · exact fun hzero => absurd hzero hres
    · exact fun hall => h.eq_zero.mpr fun i hi => hall i (by omega)
  · intro i hi hbefore hne
    have hin : i < n := by
      by_contra hlt
      exact hres (h.eq_zero.mpr fun j hj => hbefore j (by omega))
    exact h.first i hin hbefore hne

theorem comparesAs_byteDifference (a b : Nat → Byte) (n : Nat) :
    ComparesAs a b n (byteDifference a b n) := by
  constructor
  · exact byteDifference_eq_zero n
  · intro i hi hbefore hne
    have hfirst : byteDifference a b (i + 1) = (a i).toNat - (b i).toNat := by
      rw [byteDifference, if_pos ((byteDifference_eq_zero i).mpr hbefore)]
    have hdiff : byteDifference a b (i + 1) ≠ 0 := by
      intro hzero
      exact hne ((byteDifference_eq_zero _).mp hzero i (Nat.lt_succ_self i))
    have hall := byteDifference_of_ne hdiff (n - (i + 1))
    rw [Nat.add_sub_cancel' hi] at hall
    rw [hall, hfirst]
    omega

end ComparesAs

/-- What the loop relies on of the function: it is a `memcmp`. -/
def IsMemcmp (func : MemFunction) : Prop :=
  ∀ vl vr n mem, ∃ res, func vl vr n mem = (res, mem) ∧
    ComparesAs (fun i => mem (cells vl i)) (fun i => mem (cells vr i)) n.toNat res

theorem isMemcmp_carmorMemcmpWrapper : IsMemcmp carmorMemcmpWrapper := by
  intro vl vr n mem
  refine ⟨compareBytes mem vl vr n.toNat, rfl, ?_⟩
  rw [compareBytes_eq]
  exact comparesAs_byteDifference _ _ _

/-! ## The wrapper with `memcmp` -/

section Memcmp

variable {env : Env σ} {r : Residency σ} {Inv : Set PageOf → World σ → Prop}

/-- A linked operand shows the bytes of the flat memory. -/
theorem Linked.flat_eq {K : Set PageOf} {w : World σ} {p a : Uintptr} (h : Linked r K w p a) :
    r.flat w.toMachine p = w.mem a := Lib.read_of_place h.place

/-- Chunks that compare equal leave the comparison to the rest. -/
theorem compare_chunkRule {func : MemFunction} (hfunc : IsMemcmp func) (m₀ : Memory)
    (vl vr : Uintptr) {n : Nat} (hn : n < 2 ^ 64) :
    ChunkRule r Inv func true vl vr n
      (fun done m => m = m₀ ∧ ∀ i < done, m₀ (cells vl i) = m₀ (cells vr i))
      (fun res m => m = m₀ ∧
        ComparesAs (fun i => m₀ (cells vl i)) (fun i => m₀ (cells vr i)) n res) := by
  constructor
  · rintro m ⟨hm, hall⟩
    refine ⟨hm, iff_of_true rfl hall, ?_⟩
    intro i hi _ hne
    exact absurd (hall i hi) hne
  · rintro K w done k vl0 vr0 hinv ⟨hm, hall⟩ - hk - hlinked
    obtain ⟨res, hrun, hcompares⟩ := hfunc vl0 vr0 (BitVec.ofNat 64 k) w.mem
    rw [toNat_ofNat_of_lt (show k < 2 ^ 64 by omega)] at hcompares
    have hchunk : ComparesAs (fun i => m₀ (cells vl (done + i))) (fun i => m₀ (cells vr (done + i)))
        k res := by
      apply hcompares.congr
      · intro i hi
        rw [← hm, (hlinked i hi).1.flat_eq]
      · intro i hi
        rw [← hm, (hlinked i hi).2.flat_eq]
    have hprefix := hchunk.after (a := fun i => m₀ (cells vl i)) (b := fun i => m₀ (cells vr i)) hall
    refine ⟨res, w.mem, hrun, hinv, ?_⟩
    by_cases hzero : res = 0
    · rw [if_pos hzero]
      exact ⟨hm, hprefix.eq_zero.mp hzero⟩
    · rw [if_neg hzero]
      have hwhole := hprefix.extend hzero (n - (done + k))
      rw [Nat.add_sub_cancel' hk] at hwhole
      exact ⟨rfl, hm, hwhole⟩

variable {vl vr : Uintptr} {n : SizeT} {fuel : Nat} {w : World σ}

/-- `__carmor_memcmp` returns what `memcmp` returns on the flat memory, and does not change it. -/
theorem memcmp_correct (hfaults : FaultsHeld env r (operandPtrs vl vr n.toNat) Inv)
    (hinv : Inv ∅ w) (hl : BulkRange env r vl n.toNat) (hr : BulkRange env r vr n.toNat)
    (hn : n.toNat < 2 ^ 31) (hfuel : n.toNat < fuel) :
    ∃ res w', carmorMemcmp env fuel vl vr n w = .ok res w' ∧
      ComparesAs (fun i => r.flat w.toMachine (cells vl i))
        (fun i => r.flat w.toMachine (cells vr i)) n.toNat res ∧
      r.flat w'.toMachine = r.flat w.toMachine := by
  have hmem := mem_operandPtrs vl vr n.toNat
  obtain ⟨res, w', hrun, hpost⟩ := memWrapper_returns 0 0 hfaults hl hr hinv
    (compare_chunkRule isMemcmp_carmorMemcmpWrapper (r.flat w.toMachine) vl vr n.isLt)
    ⟨rfl, by omega⟩ hn hfuel hmem.1 hmem.2
  exact ⟨res, w', hrun, hpost.returned.2, hpost.returned.1⟩

end Memcmp

/-- A comparison of 48 bytes in which both operands cross a page, at different bytes. -/
theorem memcmp_correct_smallEnv :
    ∃ res w', carmorMemcmp smallEnv 64 (makeMstorePtr .lstore0 0x1ff0)
        (makeMstorePtr .lstore0 0x5ff8) 0x30 initialWorld = .ok res w' ∧
      ComparesAs
        (fun i => smallResidency.flat initialWorld.toMachine (cells (makeMstorePtr .lstore0 0x1ff0) i))
        (fun i => smallResidency.flat initialWorld.toMachine (cells (makeMstorePtr .lstore0 0x5ff8) i))
        0x30 res ∧
      smallResidency.flat w'.toMachine = smallResidency.flat initialWorld.toMachine :=
  memcmp_correct (n := 0x30)
    (smallEnv_faultsHeld (smallEnv_operandPtrs (by decide) (by decide) (by decide)))
    initialWorld_transparent (smallEnv_bulkRange (by decide)) (smallEnv_bulkRange (by decide))
    (by decide) (by decide)

end Carmor
