import Carmor.Proofs.Resident
import Mathlib.Data.Finset.Card
import Mathlib.Data.Nat.Find

/-!
# Six frames

A cached store needs one frame more than its TLB has entries. `FrameMap` says which page is in
which frame of a store that has no more than these: a page is brought into the highest frame that
holds no page of the TLB, and the page that was there is in no frame any more.
-/

namespace Carmor

/-- The frame that holds a page. -/
abbrev FrameMap := Nat → Option Nat

namespace FrameMap

/-- The frame of the next page that is brought in: the highest without a page of `kept`. -/
def free (m : FrameMap) (kept : List Nat) : Nat :=
  Nat.findGreatest (fun f => some f ∉ kept.map m) tlbSize

/-- The frames after page `p` has been brought into frame `f`. -/
def moved (m : FrameMap) (p f : Nat) : FrameMap := fun q =>
  if q = p then some f else if m q = some f then none else m q

/-- Bring a page into a frame. -/
def load (m : FrameMap) (kept : List Nat) (p : Nat) : Nat × FrameMap :=
  match m p with
  | some f => (f, m)
  | none => (m.free kept, m.moved p (m.free kept))

/-- The pages are in the six frames, no two in one. -/
structure Valid (m : FrameMap) : Prop where
  frame_le : ∀ p f, m p = some f → f ≤ tlbSize
  inj : ∀ p q f, m p = some f → m q = some f → p = q

variable {m : FrameMap} {kept : List Nat}

/-- There is a frame without a page that is kept, if these are no more than the TLB has entries. -/
theorem exists_free (m : FrameMap) (hkept : kept.length ≤ tlbSize) :
    ∃ f, f ≤ tlbSize ∧ some f ∉ kept.map m := by
  by_contra hnone
  push Not at hnone
  have hsub : (Finset.range (tlbSize + 1)).image some ⊆ (kept.map m).toFinset := by
    intro o ho
    obtain ⟨f, hf, rfl⟩ := Finset.mem_image.mp ho
    exact List.mem_toFinset.mpr (hnone f (Nat.le_of_lt_succ (Finset.mem_range.mp hf)))
  have hcard := Finset.card_le_card hsub
  have hlen := List.toFinset_card_le (kept.map m)
  rw [Finset.card_image_of_injective _ (Option.some_injective Nat), Finset.card_range] at hcard
  rw [List.length_map] at hlen
  omega

theorem free_spec (m : FrameMap) (hkept : kept.length ≤ tlbSize) :
    m.free kept ≤ tlbSize ∧ ∀ p ∈ kept, m p ≠ some (m.free kept) := by
  obtain ⟨f, hf, hunused⟩ := exists_free m hkept
  have hspec := Nat.findGreatest_spec (P := fun f => some f ∉ kept.map m) hf hunused
  exact ⟨Nat.findGreatest_le _, fun p hp heq => hspec (List.mem_map.mpr ⟨p, hp, heq⟩)⟩

/-- No page is in a frame. -/
theorem valid_empty : Valid fun _ => none :=
  ⟨fun _ _ h => (nomatch h), fun _ _ _ h => (nomatch h)⟩

@[simp] theorem moved_self (m : FrameMap) (p f : Nat) : m.moved p f p = some f := if_pos rfl

/-- The page that was in the frame is in none any more. -/
theorem moved_evicted {p f q : Nat} (hne : q ≠ p) (hq : m q = some f) : m.moved p f q = none := by
  unfold moved
  rw [if_neg hne, if_pos hq]

/-- All other pages stay where they are. -/
theorem moved_other {p f q : Nat} (hne : q ≠ p) (hq : m q ≠ some f) : m.moved p f q = m q := by
  unfold moved
  rw [if_neg hne, if_neg hq]

theorem moved_valid (hm : m.Valid) {p f : Nat} (hf : f ≤ tlbSize) : (m.moved p f).Valid := by
  have hcases : ∀ {q f'}, m.moved p f q = some f' → q = p ∧ f' = f ∨ m q = some f' ∧ f' ≠ f := by
    intro q f' hq
    unfold moved at hq
    split at hq
    · rename_i heq
      exact .inl ⟨heq, (Option.some.inj hq).symm⟩
    · split at hq
      · cases hq
      · rename_i hne
        exact .inr ⟨hq, fun heq => hne (heq ▸ hq)⟩
  constructor
  · intro q f' hq
    rcases hcases hq with ⟨-, rfl⟩ | ⟨hold, -⟩
    · exact hf
    · exact hm.frame_le q f' hold
  · intro q q' f' hq hq'
    rcases hcases hq with ⟨rfl, hff⟩ | ⟨hold, hne⟩
    · rcases hcases hq' with ⟨rfl, -⟩ | ⟨-, hne⟩
      · rfl
      · exact absurd hff hne
    · rcases hcases hq' with ⟨-, hff⟩ | ⟨hold', -⟩
      · exact absurd hff hne
      · exact hm.inj q q' f' hold hold'

theorem load_of_some {p f : Nat} (hp : m p = some f) : m.load kept p = (f, m) := by
  unfold load
  rw [hp]

theorem load_of_none {p : Nat} (hp : m p = none) :
    m.load kept p = (m.free kept, m.moved p (m.free kept)) := by
  unfold load
  rw [hp]

/-- A page that is brought in leaves the pages that are kept where they are. -/
theorem load_spec (hm : m.Valid) (hkept : kept.length ≤ tlbSize) (p : Nat) :
    (m.load kept p).1 ≤ tlbSize ∧ (m.load kept p).2 p = some (m.load kept p).1 ∧
      (m.load kept p).2.Valid ∧
      ∀ q f, q ∈ kept ∨ q = p → m q = some f → (m.load kept p).2 q = some f := by
  cases hp : m p with
  | some f =>
    rw [load_of_some hp]
    exact ⟨hm.frame_le p f hp, hp, hm, fun _ _ _ hq => hq⟩
  | none =>
    obtain ⟨hfree, hunused⟩ := free_spec m hkept
    rw [load_of_none hp]
    refine ⟨hfree, moved_self _ _ _, moved_valid hm hfree, ?_⟩
    intro q f hmem hq
    have hne : q ≠ p := by
      rintro rfl
      rw [hp] at hq
      cases hq
    exact (moved_other hne (hunused q (hmem.resolve_right hne))).trans hq

end FrameMap

/-! ## Stores that evict -/

/-- The callbacks in which these stores differ. -/
structure PageCallbacks (σ : Type) where
  notifyTlbCached : Uintptr → StoreExec σ Unit
  notifyTlbDropped : Uintptr → Bool → StoreExec σ Unit
  mpfHandlerC : Uintptr → StoreExec σ Uintptr
  lstoreAlloc : SizeT → StoreExec σ Uintptr := fun _ => pure 0
  lstoreAllocSize : Uintptr → StoreExec σ SizeT := fun _ => pure 0
  lstoreFree : Uintptr → StoreExec σ Unit := fun _ => pure ()
  lstoreGetTlb : TlbRef := .gtTLB

namespace PageCallbacks

variable {σ : Type}

/-- A cached store with these callbacks and the geometry `g`, installed at `s`. -/
def lstore (k : PageCallbacks σ) (g : StoreGeometry) (s : StoreId)
    (link : Uintptr → Int → Byte → Byte → Exec σ Uintptr)
    (writeback : Uintptr → Int → Exec σ Unit) : LStore σ where
  lstoreInit _ := pure 0
  lstoreIsDirect := false
  lstoreGetMpageSize := BitVec.ofNat 64 g.pageSize
  lstoreGetMpageBits := g.pageBits
  lstoreGetMpageCacheBasePtr := g.cacheBase
  lstoreGetMstoragePage p := p - g.storageBase
  lstoreGetTlb := k.lstoreGetTlb
  lstoreGetMinSize := 0
  lstoreGetMaxSize := 1000000000000
  lstoreTag := makeMstorePtr s
  notifyTlbCached := k.notifyTlbCached
  notifyTlbDropped := k.notifyTlbDropped
  mpfHandlerC := k.mpfHandlerC
  mpfHandlerD _ _ _ := pure ()
  lstoreWriteBack _ _ _ := pure ()
  lstoreAlloc := k.lstoreAlloc
  lstoreAllocSize := k.lstoreAllocSize
  lstoreFree := k.lstoreFree
  carmorLink := link
  carmorGetValidIterations _ _ _ _ := pure 1
  carmorWritebackDirect := writeback

/-- Such stores at the four positions. -/
def env (k : StoreId → PageCallbacks σ) (g : StoreId → StoreGeometry) : Env σ :=
  let libc : Libc σ := ⟨fun _ => pure 0, fun _ _ => pure 0, fun _ => pure (), fun _ _ => pure 0⟩
  let unlinked : Env σ :=
    ⟨fun s => (k s).lstore (g s) s (fun _ _ _ _ => throw .abort) fun _ _ => throw .abort, libc,
      0x200000⟩
  ⟨fun s => (k s).lstore (g s) s (carmorLinkCachedTemplate unlinked s)
    (carmorWritebackDirectTemplate unlinked s), libc, 0x200000⟩

theorem env_geometry (k : StoreId → PageCallbacks σ) (g : StoreId → StoreGeometry) (s : StoreId) :
    ((env k g).stores s).HasGeometry (g s) := ⟨rfl, rfl, rfl, fun _ => rfl⟩

theorem env_cachedStore {k : StoreId → PageCallbacks σ} (g : StoreId → StoreGeometry) {s : StoreId}
    (hs : (k s).lstoreGetTlb = .gtTLB) : CachedStore (env k g) s (g s) where
  geometry := env_geometry k g s
  isCached := rfl
  tlb := hs
  link := Or.inl rfl

/-- The world after `__carmor_initialize_template` for `lstore0`, with the store in the state
`st`. -/
def initialWorld (k : StoreId → PageCallbacks σ) (g : StoreId → StoreGeometry) (st : σ) : World σ :=
  Lib.finalState (carmorInitializeTemplate (env k g) .lstore0 0
    { mem := fun _ => 0
      store := st
      tlb := fun _ => Tlb.memset 0
      gtDirectBuffer := 0
      gtCrosspageAccess := 0
      gtCrosspageAccessSize := 0
      trace := [] })

theorem carmorInitialize_env (k : StoreId → PageCallbacks σ) (g : StoreId → StoreGeometry) (st : σ) :
    ∃ w₀, carmorInitializeTemplate (env k g) .lstore0 0 w₀ = .ok 0 (initialWorld k g st) := ⟨_, rfl⟩

end PageCallbacks

end Carmor
