import Mathlib.Data.Set.Basic

/-!
# Copies in pieces, and copies through a placement

`D i` and `S i` are the `i`-th cells of a destination and of a source. `Copies D S I m m'` is the
effect of one `memmove` of the cells with an index in `I`. `ForwardCopy` is a copy done piece by
piece from the first cell on, where a piece ends at the next cut: each piece is moved as by
`memmove`, but it reads what the pieces before it have left. `ForwardCopy.iff_of_cut` says when
the result is that of one copy.

`read` is a memory seen through a placement of its cells at other addresses.
-/

namespace Lib

variable {A L β : Type*}

/-- `m'` is `m` with the cells `D i` overwritten by the old cells `S i`, for `i` in `I`. -/
structure Copies (D S : Nat → A) (I : Set Nat) (m m' : A → β) : Prop where
  copied : ∀ i ∈ I, m' (D i) = m (S i)
  kept : ∀ a, (∀ i ∈ I, D i ≠ a) → m' a = m a

/-- A copy has one result. -/
theorem Copies.unique {D S : Nat → A} {I : Set Nat} {m m₁ m₂ : A → β} (h₁ : Copies D S I m m₁)
    (h₂ : Copies D S I m m₂) : m₁ = m₂ := by
  funext a
  by_cases ha : ∃ i ∈ I, D i = a
  · obtain ⟨i, hi, rfl⟩ := ha
    rw [h₁.copied i hi, h₂.copied i hi]
  · have hout : ∀ i ∈ I, D i ≠ a := fun i hi heq => ha ⟨i, hi, heq⟩
    rw [h₁.kept a hout, h₂.kept a hout]

/-- Only the cells with an index in `I` matter. -/
theorem Copies.congr {D D' S S' : Nat → A} {I : Set Nat} {m m' : A → β} (h : Copies D' S' I m m')
    (hD : ∀ i ∈ I, D i = D' i) (hS : ∀ i ∈ I, S i = S' i) : Copies D S I m m' := by
  constructor
  · intro i hi
    rw [hD i hi, hS i hi, h.copied i hi]
  · intro a ha
    apply h.kept
    intro i hi heq
    exact ha i hi ((hD i hi).trans heq)

/-! ## Copies in pieces -/

/-- The first cells are copied in pieces, each of which starts at the first cell or at a cut and
has no cut inside. -/
inductive ForwardCopy (cut : Nat → Prop) (D S : Nat → A) (m : A → β) : Nat → (A → β) → Prop
  | zero : ForwardCopy cut D S m 0 m
  | piece {c k : Nat} {m₁ m₂ : A → β} :
      ForwardCopy cut D S m c m₁ → (c = 0 ∨ cut c) → (∀ i, c < i → i < c + k → ¬ cut i) →
      Copies D S {i | c ≤ i ∧ i < c + k} m₁ m₂ → ForwardCopy cut D S m (c + k) m₂

section ForwardCopy

variable {cut : Nat → Prop} {D S : Nat → A} {m m' : A → β} {n : Nat}

/-- Cells outside the destination are kept. -/
theorem ForwardCopy.kept (h : ForwardCopy cut D S m n m') (a : A) (ha : ∀ i < n, D i ≠ a) :
    m' a = m a := by
  induction h with
  | zero => rfl
  | @piece c k m₁ m₂ _ _ _ hcopies ih =>
    rw [hcopies.kept a fun i hi => ha i hi.2]
    exact ih fun i hi => ha i (by omega)

/-- What cell `t` is overwritten by: a cell of the destination that a former piece has already
overwritten, or an old cell. -/
theorem ForwardCopy.copied (h : ForwardCopy cut D S m n m')
    (hD : ∀ i < n, ∀ j < n, D i = D j → i = j) {t : Nat} (ht : t < n) :
    (∀ t' c, cut c → t' < c → c ≤ t → D t' = S t → m' (D t) = m' (D t')) ∧
      ((∀ t' c, cut c → t' < c → c ≤ t → D t' ≠ S t) → m' (D t) = m (S t)) := by
  induction h with
  | zero => omega
  | @piece c k m₁ m₂ hprefix hstart hinside hcopies ih =>
    -- the new piece keeps the cells of the former ones
    have hkept : ∀ i < c, m₂ (D i) = m₁ (D i) := by
      intro i hi
      apply hcopies.kept
      intro j hj heq
      have hij := hD j hj.2 i (by omega) heq
      have hcj := hj.1
      omega
    by_cases htc : t < c
    · obtain ⟨hagain, hfresh⟩ := ih (fun i hi j hj => hD i (by omega) j (by omega)) htc
      constructor
      · intro t' d hd ht' hdt heq
        rw [hkept t htc, hkept t' (by omega)]
        exact hagain t' d hd ht' hdt heq
      · intro hnone
        rw [hkept t htc]
        exact hfresh hnone
    · have hnew : m₂ (D t) = m₁ (S t) := hcopies.copied t ⟨by omega, ht⟩
      constructor
      · intro t' d hd ht' hdt heq
        have hdc : d ≤ c := by
          by_contra hlt
          exact hinside d (by omega) (by omega) hd
        rw [hnew, ← heq, hkept t' (by omega)]
      · intro hnone
        rw [hnew]
        apply hprefix.kept
        intro i hi heq
        rcases hstart with hzero | hcut
        · omega
        · exact hnone i c hcut hi (by omega) heq

/-- A copy in pieces has the effect of one copy exactly if a source cell that a former piece
overwrites holds what it overwrites it with. -/
theorem ForwardCopy.iff_of_cut (h : ForwardCopy cut D S m n m')
    (hD : ∀ i < n, ∀ j < n, D i = D j → i = j) :
    Copies D S {i | i < n} m m' ↔
      ∀ t < n, ∀ t' c, cut c → t' < c → c ≤ t → D t' = S t → m (S t') = m (S t) := by
  constructor
  · intro hcopies t ht t' c hcut ht' hct heq
    have hsame := (h.copied hD ht).1 t' c hcut ht' hct heq
    rw [hcopies.copied t ht, hcopies.copied t' (show t' < n by omega)] at hsame
    exact hsame.symm
  · intro hcond
    refine ⟨?_, fun a ha => h.kept a ha⟩
    intro t (ht : t < n)
    induction t using Nat.strongRecOn with
    | ind t ih =>
      obtain ⟨hagain, hfresh⟩ := h.copied hD ht
      by_cases hover : ∃ t' c, cut c ∧ t' < c ∧ c ≤ t ∧ D t' = S t
      · obtain ⟨t', c, hcut, ht', hct, heq⟩ := hover
        rw [hagain t' c hcut ht' hct heq, ih t' (by omega) (by omega)]
        exact hcond t ht t' c hcut ht' hct heq
      · exact hfresh fun t' c hcut ht' hct heq => hover ⟨t', c, hcut, ht', hct, heq⟩

/-- Between disjoint ranges the pieces do not matter. -/
theorem ForwardCopy.copies_of_disjoint (h : ForwardCopy cut D S m n m')
    (hD : ∀ i < n, ∀ j < n, D i = D j → i = j) (hdisjoint : ∀ i < n, ∀ j < n, D i ≠ S j) :
    Copies D S {i | i < n} m m' := by
  apply (h.iff_of_cut hD).mpr
  intro t ht t' c _ ht' hct heq
  exact absurd heq (hdisjoint t' (by omega) t ht)

end ForwardCopy

/-! ## Placements -/

/-- The cells of a memory `mem` under the addresses `L`: a cell is in `mem` where `place` puts it,
or it is stored elsewhere. -/
def read (place : L → Option A) (stored : L → β) (mem : A → β) (l : L) : β :=
  match place l with
  | some a => mem a
  | none => stored l

section Placement

variable {place : L → Option A} {stored : L → β} {mem mem' : A → β}

theorem read_of_place {l : L} {a : A} (h : place l = some a) : read place stored mem l = mem a := by
  rw [read, h]

/-- A copy between placed cells is a copy between the cells as they are seen. -/
theorem copies_read (hinj : ∀ l l' a, place l = some a → place l' = some a → l = l')
    {D S : Nat → L} {d s : Nat → A} {I : Set Nat} (hD : ∀ i ∈ I, place (D i) = some (d i))
    (hS : ∀ i ∈ I, place (S i) = some (s i)) (h : Copies d s I mem mem') :
    Copies D S I (read place stored mem) (read place stored mem') := by
  constructor
  · intro i hi
    rw [read_of_place (hD i hi), read_of_place (hS i hi), h.copied i hi]
  · intro l hl
    cases hplace : place l with
    | none => rw [read, read, hplace]
    | some a =>
      rw [read_of_place hplace, read_of_place hplace]
      apply h.kept
      intro i hi heq
      exact hl i hi (hinj _ _ _ (hD i hi) (heq ▸ hplace))

end Placement

end Lib
