import Carmor.Proofs.HeapSteps
import Carmor.Proofs.Resident
import Mathlib.Data.Set.Insert

/-!
# Placement of blocks

A store takes the blocks whose size lies in its range; `__carmor_malloc_template` is the only
function that tests the size. `Placed` says that the live blocks are where their last requested
size puts them. It is lost where `__carmor_realloc` leaves a native pointer, or NULL, to libc.
-/

namespace Carmor

variable {σ : Type}

/-- The sizes that belong in the store: at least the minimum and below the maximum. -/
def LStore.InRange (st : LStore σ) (size : SizeT) : Prop :=
  st.lstoreGetMinSize ≤ size ∧ size < st.lstoreGetMaxSize

theorem LStore.inRange_iff {st : LStore σ} {size : SizeT} :
    st.InRange size ↔ ¬ (size < st.lstoreGetMinSize ∨ st.lstoreGetMaxSize ≤ size) := by
  rw [LStore.InRange, BitVec.le_def, BitVec.lt_def, BitVec.lt_def, BitVec.le_def]
  omega

/-- Tagging sets the uppermost bit, whatever it is applied to. -/
theorem isCarmorPtr_tag (s : StoreId) (x : Uintptr) : isCarmorPtr (makeMstorePtr s x) = true := by
  rw [isCarmorPtr_iff]
  have hmask : 2 ^ 63 ≤ (mstoreBitMask s).toNat := by cases s <;> decide
  rw [makeMstorePtr, BitVec.toNat_or]
  exact Nat.le_trans hmask Nat.right_le_or

namespace Placement

/-- A live block: its pointer, the last size requested for it, and the store by whose range it is
placed. -/
structure Block where
  ptr : Uintptr
  size : SizeT
  store : StoreId

/-- A program with its live blocks. -/
structure Client (σ : Type) where
  world : World σ
  blocks : Set Block

/-- The blocks without those at a pointer. -/
def Client.without (c : Client σ) (ptr : Uintptr) : Set Block := {b ∈ c.blocks | b.ptr ≠ ptr}

/-- The heap calls of a program; `reallocNull` is `realloc(NULL, size)` in code that allocates
from store `s`. Anything else that the program does is `other`. -/
inductive Call where
  | malloc (s : StoreId) (size : SizeT)
  | calloc (s : StoreId) (numOfElements elementsSize : SizeT)
  | realloc (b : Block) (size : SizeT)
  | reallocNull (s : StoreId) (size : SizeT)
  | free (b : Block)
  | other

/-- What libc's `realloc` returns when it succeeds. -/
def IsNative (p : Uintptr) : Prop := isCarmorPtr p = false ∧ p ≠ 0

/-- A heap call that succeeds. -/
inductive Step (env : Env σ) : Client σ → Call → Client σ → Prop
  | malloc {c : Client σ} {s : StoreId} {size : SizeT} {p : Uintptr} {w : World σ}
      (h : carmorMallocTemplate env s size c.world = .ok p w) :
      Step env c (.malloc s size) ⟨w, insert ⟨p, size, s⟩ c.blocks⟩
  | calloc {c : Client σ} {s : StoreId} {fuel : Nat} {numOfElements elementsSize : SizeT}
      {p : Uintptr} {w : World σ}
      (h : carmorCallocTemplate env s fuel numOfElements elementsSize c.world = .ok p w) :
      Step env c (.calloc s numOfElements elementsSize)
        ⟨w, insert ⟨p, numOfElements * elementsSize, s⟩ c.blocks⟩
  | realloc {c : Client σ} {b : Block} {size : SizeT} {fuel : Nat} {p : Uintptr} {w : World σ}
      (hb : b ∈ c.blocks) (h : carmorRealloc env fuel b.ptr size c.world = .ok p w)
      (hnative : isCarmorPtr b.ptr = false → IsNative p) :
      Step env c (.realloc b size) ⟨w, insert ⟨p, size, b.store⟩ (c.without b.ptr)⟩
  | reallocNull {c : Client σ} {s : StoreId} {size : SizeT} {fuel : Nat} {p : Uintptr} {w : World σ}
      (h : carmorRealloc env fuel 0 size c.world = .ok p w) (hnative : IsNative p) :
      Step env c (.reallocNull s size) ⟨w, insert ⟨p, size, s⟩ c.blocks⟩
  | free {c : Client σ} {b : Block} {w : World σ} (hb : b ∈ c.blocks)
      (h : carmorFree env b.ptr c.world = .ok () w) :
      Step env c (.free b) ⟨w, c.without b.ptr⟩
  | other {c : Client σ} (w : World σ) : Step env c .other { c with world := w }

/-- Every live block whose last requested size lies in its store's range is held in a store. -/
def Placed (env : Env σ) (c : Client σ) : Prop :=
  ∀ b ∈ c.blocks, (env.stores b.store).InRange b.size → isCarmorPtr b.ptr = true

/-- The call does not ask `__carmor_realloc` for a size in the store's range with a native pointer
or NULL. -/
def Call.Respects (env : Env σ) : Call → Prop
  | .realloc b size => isCarmorPtr b.ptr = true ∨ ¬ (env.stores b.store).InRange size
  | .reallocNull s size => ¬ (env.stores s).InRange size
  | _ => True

/-! ## One call -/

section Step

variable {env : Env σ} (htag : ∀ s, (env.stores s).lstoreTag = makeMstorePtr s) {w w' : World σ}
  {p : Uintptr}

include htag in
/-- `__carmor_malloc_template` takes a block in range from the store. -/
theorem malloc_placed {s : StoreId} {size : SizeT} (h : carmorMallocTemplate env s size w = .ok p w')
    (hrange : (env.stores s).InRange size) : isCarmorPtr p = true := by
  rw [malloc_eq_ok, if_neg (LStore.inRange_iff.mp hrange)] at h
  obtain ⟨b, m, -, rfl, -⟩ := h
  rw [htag]
  exact isCarmorPtr_tag s b

/-- `__carmor_realloc` keeps a block of a store in that store. -/
theorem realloc_tagged {fuel : Nat} {ptr : Uintptr} {size : SizeT} (hptr : isCarmorPtr ptr = true)
    (h : carmorRealloc env fuel ptr size w = .ok p w') : isCarmorPtr p = true := by
  cases hs : switchCase ptr with
  | none =>
    rw [carmorRealloc, hptr, hs] at h
    cases h
  | some s =>
    obtain ⟨n, m, -, hrest⟩ := realloc_eq_ok hs h
    split at hrest
    · obtain ⟨rfl, -⟩ := hrest
      exact hptr
    · obtain ⟨b, m₁, a, w₁, -, rfl, -, -⟩ := hrest
      exact isCarmorPtr_tag s b

theorem placed_insert {c : Client σ} {b : Block} {blocks : Set Block} (h : Placed env c)
    (hsub : blocks ⊆ c.blocks) (w : World σ) :
    Placed env ⟨w, insert b blocks⟩ ↔
      ((env.stores b.store).InRange b.size → isCarmorPtr b.ptr = true) := by
  constructor
  · intro hplaced
    exact hplaced b (Set.mem_insert b blocks)
  · rintro hb d (rfl | hd)
    · exact hb
    · exact h d (hsub hd)

theorem without_subset (c : Client σ) (ptr : Uintptr) : c.without ptr ⊆ c.blocks :=
  fun _ hb => hb.1

include htag in
/-- A call keeps the blocks placed exactly if it respects the ranges. -/
theorem placed_step_iff {c c' : Client σ} {call : Call} (h : Placed env c)
    (hstep : Step env c call c') : Placed env c' ↔ call.Respects env := by
  cases hstep with
  | malloc hcall =>
    rw [placed_insert h (Set.Subset.refl _)]
    exact iff_of_true (malloc_placed htag hcall) trivial
  | calloc hcall =>
    obtain ⟨q, w₁, hmalloc, hrest⟩ := Lib.bind_eq_ok.mp hcall
    obtain ⟨a, w₂, -, hres⟩ := Lib.bind_eq_ok.mp hrest
    cases hres
    rw [placed_insert h (Set.Subset.refl _)]
    exact iff_of_true (malloc_placed htag hmalloc) trivial
  | @realloc b size fuel p w hb hcall hnative =>
    rw [placed_insert h (without_subset c b.ptr)]
    cases hptr : isCarmorPtr b.ptr with
    | true =>
      have hp := realloc_tagged hptr hcall
      exact iff_of_true (fun _ => hp) (Or.inl hptr)
    | false =>
      obtain ⟨hp, -⟩ := hnative hptr
      simp [Call.Respects, hptr, hp]
  | reallocNull hcall hnative =>
    rw [placed_insert h (Set.Subset.refl _)]
    simp [Call.Respects, hnative.1]
  | @free b w hb hcall =>
    exact iff_of_true (fun d hd => h d (without_subset c b.ptr hd)) trivial
  | other w => exact iff_of_true h trivial

end Step

/-! ## Runs -/

/-- In a run from a program without blocks the blocks are placed in every state exactly if no
call asks `__carmor_realloc` for a size in range with a native pointer or NULL. -/
theorem placed_iff_respects {env : Env σ} (htag : ∀ s, (env.stores s).lstoreTag = makeMstorePtr s)
    {c₀ c : Client σ} (hempty : c₀.blocks = ∅) {calls : List Call}
    (hrun : Lib.Run (Step env) c₀ calls c) :
    Lib.Run.AllStates (Step env) (Placed env) c₀ calls c ↔ ∀ call ∈ calls, call.Respects env := by
  have hstart : Placed env c₀ := by
    intro b hb
    rw [hempty] at hb
    cases hb
  have hstep : ∀ c call c', Placed env c → Step env c call c' →
      (Placed env c' ↔ call.Respects env) := fun _ _ _ => placed_step_iff htag
  rw [Lib.Run.allStates_iff_allSteps hstep hstart]
  exact hrun.allSteps_label

/-- `smallEnv` with stores for blocks of at least 64 bytes. -/
def minSizeEnv : Env Pins where
  stores := fun s =>
    { smallEnv.stores s with
      lstoreGetMinSize := 64
      lstoreAlloc := fun _ => pure 0x2000
      lstoreAllocSize := fun _ => pure 64 }
  libc := ⟨fun _ => pure 0x5000, fun _ _ => pure 0x6000, fun _ => pure (), fun _ _ => pure 0x7000⟩
  gtCrossPageBuffer := 0x200000

/-- A native block of 16 bytes. -/
def smallBlock : Block := ⟨0x5000, 16, .lstore0⟩

def withSmallBlock : Client Pins := ⟨initialWorld.log (.malloc 16 0x5000), insert smallBlock ∅⟩

/-- The program after its small block has been given the size `size`. -/
def withGrownBlock (size : SizeT) : Client Pins :=
  ⟨withSmallBlock.world.log (.realloc 0x5000 size 0x6000),
    insert ⟨0x6000, size, .lstore0⟩ (withSmallBlock.without 0x5000)⟩

theorem run_withGrownBlock (size : SizeT) :
    Lib.Run (Step minSizeEnv) ⟨initialWorld, ∅⟩ [.malloc .lstore0 16, .realloc smallBlock size]
      (withGrownBlock size) := by
  have hmalloc : Step minSizeEnv ⟨initialWorld, ∅⟩ (.malloc .lstore0 16) withSmallBlock := .malloc rfl
  have hcall : carmorRealloc minSizeEnv 0 smallBlock.ptr size withSmallBlock.world =
      .ok 0x6000 (withGrownBlock size).world := rfl
  have hgrow : Step minSizeEnv withSmallBlock (.realloc smallBlock size) (withGrownBlock size) :=
    .realloc (Set.mem_insert smallBlock ∅) hcall fun _ => ⟨by decide, by decide⟩
  exact .cons hmalloc (.cons hgrow (.nil _))

/-- A block of 16 bytes that grows but stays below the minimum size. -/
theorem placed_iff_respects_smallBlock :
    Lib.Run.AllStates (Step minSizeEnv) (Placed minSizeEnv) ⟨initialWorld, ∅⟩
        [.malloc .lstore0 16, .realloc smallBlock 32] (withGrownBlock 32) ↔
      ∀ call ∈ [.malloc .lstore0 16, .realloc smallBlock 32], Call.Respects minSizeEnv call :=
  placed_iff_respects (fun _ => rfl) rfl (run_withGrownBlock 32)

/-- A block of 16 bytes that grows to the minimum size, and a block of 100 bytes from NULL, are
left in native memory. -/
theorem not_placed_grown :
    (∃ c, Lib.Run (Step minSizeEnv) ⟨initialWorld, ∅⟩ [.malloc .lstore0 16, .realloc smallBlock 64] c ∧
      ¬ Placed minSizeEnv c) ∧
    ∃ c, Lib.Run (Step minSizeEnv) ⟨initialWorld, ∅⟩ [.reallocNull .lstore0 100] c ∧
      ¬ Placed minSizeEnv c := by
  constructor
  · refine ⟨_, run_withGrownBlock 64, ?_⟩
    intro hplaced
    exact absurd (hplaced ⟨0x6000, 64, .lstore0⟩ (Set.mem_insert _ _) ⟨by decide, by decide⟩)
      (by decide)
  · have hnull : carmorRealloc minSizeEnv 0 0 100 initialWorld =
        .ok 0x6000 (initialWorld.log (.realloc 0 100 0x6000)) := rfl
    refine ⟨_, .cons (.reallocNull hnull ⟨by decide, by decide⟩) (.nil _), ?_⟩
    intro hplaced
    exact absurd (hplaced ⟨0x6000, 100, .lstore0⟩ (Set.mem_insert _ _) ⟨by decide, by decide⟩)
      (by decide)

end Placement

end Carmor
