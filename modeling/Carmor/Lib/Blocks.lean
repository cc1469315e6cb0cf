import Mathlib.Logic.Function.Basic

/-!
# Heaps of blocks

The live blocks of a heap as a finite map from pointers to sizes, over any type of pointers with a
numbering of the cells behind each pointer. `Apart` keeps blocks from sharing cells under insertion
of a `Clear` block and under removal; `Same` says that the live blocks keep their contents.
-/

namespace Lib

universe u v w

variable {P : Type u} {A : Type v} {V : Type w}

/-- The live blocks: their pointers and sizes. -/
abbrev Blocks (P : Type u) := P → Option Nat

namespace Blocks

section Update

variable [DecidableEq P]

/-- The blocks with a new one. -/
def insert (blocks : Blocks P) (p : P) (size : Nat) : Blocks P :=
  Function.update blocks p (some size)

/-- The blocks without the one at `p`. -/
def remove (blocks : Blocks P) (p : P) : Blocks P := Function.update blocks p none

variable {blocks : Blocks P} {p q : P} {j k : Nat}

theorem insert_eq_some : blocks.insert p k q = some j ↔ q = p ∧ k = j ∨ q ≠ p ∧ blocks q = some j := by
  by_cases h : q = p
  · subst h
    simp [insert]
  · simp [insert, h]

theorem remove_eq_some : blocks.remove p q = some j ↔ q ≠ p ∧ blocks q = some j := by
  by_cases h : q = p
  · subst h
    simp [remove]
  · simp [remove, h]

theorem remove_insert (h : p ≠ q) : (blocks.insert q k).remove p = (blocks.remove p).insert q k :=
  Function.update_comm h.symm _ _ _

/-- A block that is replaced by itself. -/
theorem insert_remove_self (h : blocks p = some k) : (blocks.remove p).insert p k = blocks := by
  unfold insert remove
  rw [Function.update_idem, ← h, Function.update_eq_self]

end Update

variable (cell : P → Nat → A) {blocks : Blocks P} {p : P} {k : Nat}

/-- Different live blocks have no cell in common. -/
def Apart (blocks : Blocks P) : Prop :=
  ∀ p q j k, blocks p = some j → blocks q = some k → p ≠ q → ∀ i < j, ∀ i' < k,
    cell p i ≠ cell q i'

/-- The first `k` cells behind `p` are in no live block. -/
def Clear (blocks : Blocks P) (p : P) (k : Nat) : Prop :=
  ∀ q j, blocks q = some j → ∀ i < k, ∀ i' < j, cell p i ≠ cell q i'

/-- The live blocks have the same contents. -/
def Same (blocks : Blocks P) (mem mem' : A → V) : Prop :=
  ∀ q j, blocks q = some j → ∀ i < j, mem' (cell q i) = mem (cell q i)

variable {cell}

theorem Apart.insert [DecidableEq P] (h : Apart cell blocks) (hclear : Clear cell blocks p k) :
    Apart cell (blocks.insert p k) := by
  intro q q' j j' hq hq' hne i hi i' hi'
  rcases insert_eq_some.mp hq with ⟨rfl, rfl⟩ | ⟨-, hold⟩
  · rcases insert_eq_some.mp hq' with ⟨rfl, -⟩ | ⟨-, hold'⟩
    · exact absurd rfl hne
    · exact hclear q' j' hold' i hi i' hi'
  · rcases insert_eq_some.mp hq' with ⟨rfl, rfl⟩ | ⟨-, hold'⟩
    · exact (hclear q j hold i' hi' i hi).symm
    · exact h q q' j j' hold hold' hne i hi i' hi'

theorem Apart.remove [DecidableEq P] (h : Apart cell blocks) (p : P) :
    Apart cell (blocks.remove p) := by
  intro q q' j j' hq hq'
  exact h q q' j j' (remove_eq_some.mp hq).2 (remove_eq_some.mp hq').2

theorem Same.trans {mem mem₁ mem₂ : A → V} (h : Same cell blocks mem mem₁)
    (h' : Same cell blocks mem₁ mem₂) : Same cell blocks mem mem₂ := by
  intro q j hq i hi
  rw [h' q j hq i hi, h q j hq i hi]

theorem Same.mono {mem mem' : A → V} {blocks' : Blocks P} (h : Same cell blocks mem mem')
    (hsub : ∀ q j, blocks' q = some j → blocks q = some j) : Same cell blocks' mem mem' :=
  fun q j hq => h q j (hsub q j hq)

/-- A change of cells that are in no live block. -/
theorem Clear.same {mem mem' : A → V} (h : Clear cell blocks p k)
    (hmem : ∀ a, (∀ i < k, cell p i ≠ a) → mem' a = mem a) : Same cell blocks mem mem' := by
  intro q j hq i hi
  apply hmem
  intro i' hi'
  exact h q j hq i' hi' i hi

end Blocks

end Lib
