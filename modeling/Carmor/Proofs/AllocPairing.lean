import Carmor.Lib.Trace
import Carmor.Proofs.AllocFailure
import Carmor.Proofs.HeapCalls
import Mathlib.Data.Set.Insert

/-!
# Pairing of allocations and frees

The trace of a program says which blocks of a store are allocated. `Paired` asks that a store
is only ever handed such blocks. `Accounted` relates the blocks to the pointers that the program
holds; it is kept by every call that does not free or reallocate a pointer of
`__carmor_memalign_template`, whose block starts below the pointer.
-/

namespace Carmor

variable {σ : Type}

/-! ## Blocks of a trace -/

/-- The blocks that `lstore_alloc` of store `s` returned and that were not freed since. -/
def allocated (s : StoreId) : List (Event σ) → List Uintptr
  | [] => []
  | .lstoreAlloc t _ res :: trace =>
      if t = s then res :: allocated s trace else allocated s trace
  | .lstoreFree t p :: trace =>
      if t = s then (allocated s trace).filter (· ≠ p) else allocated s trace
  | _ :: trace => allocated s trace

/-- A block that is handed to its store is allocated. -/
def EventPaired (older : List (Event σ)) : Event σ → Prop
  | .lstoreFree s p => p ∈ allocated s older
  | .lstoreAllocSize s p => p ∈ allocated s older
  | _ => True

/-- Every block handed to `lstore_free` or `lstore_alloc_size` was returned by `lstore_alloc` and
not freed since. -/
def Paired (trace : List (Event σ)) : Prop :=
  Lib.Trace.Everywhere EventPaired trace

/-- A successful allocation: the block is new and its address leaves room for the tag; libc
returns native pointers. -/
def EventSucceeds (older : List (Event σ)) : Event σ → Prop
  | .lstoreAlloc s _ res => res ≠ 0 ∧ res.toNat < 2 ^ 60 ∧ res ∉ allocated s older
  | .malloc _ res => isCarmorPtr res = false
  | .realloc _ _ res => isCarmorPtr res = false
  | _ => True

/-- All allocations of the trace succeed. -/
def AllocsSucceed (trace : List (Event σ)) : Prop :=
  Lib.Trace.Everywhere EventSucceeds trace

section Trace

variable {es trace : List (Event σ)} {s : StoreId}

theorem allocated_of_noHeap (hes : ∀ e ∈ es, e.isHeapCall = false) :
    allocated s (es ++ trace) = allocated s trace := by
  induction es with
  | nil => rfl
  | cons e es ih =>
    have hrest := ih fun e he => hes e (List.mem_cons_of_mem _ he)
    have he := hes e List.mem_cons_self
    cases e <;> first | exact hrest | cases he

theorem paired_of_noHeap (hes : ∀ e ∈ es, e.isHeapCall = false) (h : Paired trace) :
    Paired (es ++ trace) := by
  refine Lib.Trace.Everywhere.append ?_ h
  intro e he older
  have hheap := hes e he
  cases e <;> trivial

end Trace

/-! ## Pointers and blocks -/

/-- The blocks of the trace and the live pointers of the program, where `aligned` are those that
`__carmor_memalign_template` returned. -/
structure Accounted (trace : List (Event σ)) (live aligned : Set Uintptr) : Prop where
  blocks : ∀ p ∈ live, isCarmorPtr p = false ∨ ∃ s b, p = makeMstorePtr s b ∧ b ∈ allocated s trace
  below : ∀ s, ∀ b ∈ allocated s trace, b.toNat < 2 ^ 60
  covered : aligned = ∅ → ∀ s, ∀ b ∈ allocated s trace, makeMstorePtr s b ∈ live
  paired : Paired trace

section Accounted

variable {trace : List (Event σ)} {live aligned : Set Uintptr} (h : Accounted trace live aligned)
include h

/-- Calls that are no heap calls change nothing. -/
theorem Accounted.noHeap {es : List (Event σ)} (hes : ∀ e ∈ es, e.isHeapCall = false) :
    Accounted (es ++ trace) live aligned := by
  have hsame : ∀ s, allocated s (es ++ trace) = allocated s trace :=
    fun _ => allocated_of_noHeap hes
  refine ⟨?_, ?_, ?_, paired_of_noHeap hes h.paired⟩
  · simpa only [hsame] using h.blocks
  · simpa only [hsame] using h.below
  · simpa only [hsame] using h.covered

/-- A new block is accounted for by its tagged pointer. -/
theorem Accounted.alloc (s : StoreId) (size : SizeT) {b : Uintptr} (hb : b.toNat < 2 ^ 60) :
    Accounted (.lstoreAlloc s size b :: trace) (insert (makeMstorePtr s b) live) aligned := by
  have hmem : ∀ t c, c ∈ allocated t (Event.lstoreAlloc s size b :: trace) ↔
      t = s ∧ c = b ∨ c ∈ allocated t trace := by
    intro t c
    rw [allocated]
    by_cases hts : s = t
    · subst hts
      simp
    · simp [hts, Ne.symm hts]
  refine ⟨?_, ?_, ?_, Lib.Trace.everywhere_cons.mpr ⟨trivial, h.paired⟩⟩
  · intro p hp
    rcases Set.mem_insert_iff.mp hp with rfl | hp
    · exact Or.inr ⟨s, b, rfl, (hmem s b).mpr (Or.inl ⟨rfl, rfl⟩)⟩
    · refine (h.blocks p hp).imp_right ?_
      rintro ⟨t, c, heq, hc⟩
      exact ⟨t, c, heq, (hmem t c).mpr (Or.inr hc)⟩
  · intro t c hc
    rcases (hmem t c).mp hc with ⟨rfl, rfl⟩ | hc
    · exact hb
    · exact h.below t c hc
  · intro hempty t c hc
    rcases (hmem t c).mp hc with ⟨rfl, rfl⟩ | hc
    · exact Set.mem_insert _ _
    · exact Set.mem_insert_of_mem _ (h.covered hempty t c hc)

/-- The block of a live tagged pointer is allocated. -/
theorem Accounted.block_allocated {s : StoreId} {p : Uintptr} (hp : p ∈ live)
    (htag : switchCase p = some s) : makeOriginalPointer p ∈ allocated s trace := by
  rcases h.blocks p hp with hnative | ⟨t, b, rfl, hb⟩
  · rw [isCarmorPtr_of_switchCase htag] at hnative
    cases hnative
  · have hlt := h.below t b hb
    rw [switchCase_makeMstorePtr t hlt] at htag
    obtain rfl := Option.some.inj htag
    rwa [makeOriginalPointer_makeMstorePtr t hlt]

/-- Freeing a live tagged pointer frees its block. -/
theorem Accounted.free {s : StoreId} {p : Uintptr} (hp : p ∈ live) (htag : switchCase p = some s) :
    Accounted (.lstoreFree s (makeOriginalPointer p) :: trace) (live \ {p}) aligned := by
  have hmem : ∀ t c, c ∈ allocated t (Event.lstoreFree s (makeOriginalPointer p) :: trace) ↔
      c ∈ allocated t trace ∧ ¬ (t = s ∧ c = makeOriginalPointer p) := by
    intro t c
    rw [allocated]
    by_cases hts : s = t
    · subst hts
      simp
    · simp [hts, Ne.symm hts]
  have hp' := eq_makeMstorePtr_of_switchCase htag
  refine ⟨?_, ?_, ?_, Lib.Trace.everywhere_cons.mpr
    ⟨h.block_allocated hp htag, h.paired⟩⟩
  · rintro q ⟨hq, hqp⟩
    refine (h.blocks q hq).imp_right ?_
    rintro ⟨t, c, rfl, hc⟩
    refine ⟨t, c, rfl, (hmem t c).mpr ⟨hc, ?_⟩⟩
    rintro ⟨rfl, rfl⟩
    exact hqp hp'.symm
  · intro t c hc
    exact h.below t c ((hmem t c).mp hc).1
  · intro hempty t c hc
    obtain ⟨hold, hne⟩ := (hmem t c).mp hc
    refine ⟨h.covered hempty t c hold, ?_⟩
    intro heq
    rw [Set.mem_singleton_iff, hp'] at heq
    have horig := toNat_makeOriginalPointer p
    exact hne (makeMstorePtr_inj (h.below t c hold) (by omega) heq)

/-- Asking for the size of a live block changes nothing. -/
theorem Accounted.allocSize {s : StoreId} {p : Uintptr} (hp : p ∈ live)
    (htag : switchCase p = some s) :
    Accounted (.lstoreAllocSize s (makeOriginalPointer p) :: trace) live aligned :=
  ⟨h.blocks, h.below, h.covered,
    Lib.Trace.everywhere_cons.mpr ⟨h.block_allocated hp htag, h.paired⟩⟩

/-- Native pointers come and go without a block. -/
theorem Accounted.native {trace' : List (Event σ)} {live' : Set Uintptr}
    (hallocated : ∀ s, allocated s trace' = allocated s trace) (hpaired : Paired trace')
    (hlive : ∀ p ∈ live', isCarmorPtr p = false ∨ p ∈ live)
    (hkept : ∀ p ∈ live, isCarmorPtr p = true → p ∈ live') :
    Accounted trace' live' aligned := by
  refine ⟨?_, ?_, ?_, hpaired⟩
  · intro p hp
    simp only [hallocated]
    rcases hlive p hp with hnative | hp
    · exact Or.inl hnative
    · exact h.blocks p hp
  · simpa only [hallocated] using h.below
  · intro hempty s b hb
    rw [hallocated] at hb
    exact hkept _ (h.covered hempty s b hb) (isCarmorPtr_makeMstorePtr s b)

end Accounted

/-! ## Programs that use the heap -/

/-- A program's heap calls. Any other step, such as an access through a linked pointer, is
`other`. -/
inductive HeapCall where
  | malloc (s : StoreId) (size : SizeT)
  | calloc (s : StoreId) (numOfElements elementsSize : SizeT)
  | memalign (s : StoreId) (alignment n : SizeT)
  | realloc (ptr : Uintptr) (size : SizeT)
  | free (ptr : Uintptr)
  | other

/-- A program with the pointers it was given and has not freed: those of
`__carmor_memalign_template` in `aligned`, the others in `live`. -/
structure Client (σ : Type) where
  world : World σ
  live : Set Uintptr
  aligned : Set Uintptr

/-- A heap call that returns. The program frees and reallocates live pointers only. -/
inductive Client.Step (env : Env σ) : Client σ → HeapCall → Client σ → Prop
  | malloc {c : Client σ} {s : StoreId} {size : SizeT} {p : Uintptr} {w : World σ}
      (h : carmorMallocTemplate env s size c.world = .ok p w) :
      Step env c (.malloc s size) ⟨w, insert p c.live, c.aligned⟩
  | calloc {c : Client σ} {s : StoreId} {fuel : Nat} {numOfElements elementsSize : SizeT}
      {p : Uintptr} {w : World σ}
      (h : carmorCallocTemplate env s fuel numOfElements elementsSize c.world = .ok p w) :
      Step env c (.calloc s numOfElements elementsSize) ⟨w, insert p c.live, c.aligned⟩
  | memalign {c : Client σ} {s : StoreId} {alignment n : SizeT} {p : Uintptr} {w : World σ}
      (h : carmorMemalignTemplate env s alignment n c.world = .ok p w) :
      Step env c (.memalign s alignment n) ⟨w, c.live, insert p c.aligned⟩
  | realloc {c : Client σ} {fuel : Nat} {ptr p : Uintptr} {size : SizeT} {w : World σ}
      (hptr : ptr ∈ c.live ∪ c.aligned) (h : carmorRealloc env fuel ptr size c.world = .ok p w) :
      Step env c (.realloc ptr size) ⟨w, insert p (c.live \ {ptr}), c.aligned \ {ptr}⟩
  | free {c : Client σ} {ptr : Uintptr} {w : World σ} (hptr : ptr ∈ c.live ∪ c.aligned)
      (h : carmorFree env ptr c.world = .ok () w) :
      Step env c (.free ptr) ⟨w, c.live \ {ptr}, c.aligned \ {ptr}⟩
  | other {c : Client σ} {w : World σ} (h : NoHeapCalls c.world w) :
      Step env c .other { c with world := w }

/-- The call frees or reallocates no pointer of `__carmor_memalign_template`. -/
def HeapCall.SparesAligned (c : Client σ) : HeapCall → Prop
  | .realloc ptr _ => ptr ∉ c.aligned
  | .free ptr => ptr ∉ c.aligned
  | _ => True

/-- A heap call that returns and frees or reallocates no pointer of
`__carmor_memalign_template`. -/
def Client.SparingStep (env : Env σ) (c : Client σ) (l : HeapCall) (c' : Client σ) : Prop :=
  Client.Step env c l c' ∧ l.SparesAligned c

section Step

variable {env : Env σ} (hinst : ∀ s, TemplateInstance env s)
  (htag : ∀ s, (env.stores s).lstoreTag = makeMstorePtr s) {trace : List (Event σ)}
  {live aligned : Set Uintptr} {w w' : World σ} {p : Uintptr}

include htag in
/-- What `__carmor_malloc_template` returns is accounted for. -/
theorem accounted_malloc {s : StoreId} {size : SizeT} (h : Accounted w.trace live aligned)
    (hcall : carmorMallocTemplate env s size w = .ok p w') (hok : AllocsSucceed w'.trace) :
    Accounted w'.trace (insert p live) aligned := by
  rw [malloc_eq_ok] at hcall
  split at hcall
  · obtain ⟨m, -, rfl⟩ := hcall
    have hnative : isCarmorPtr p = false := (Lib.Trace.everywhere_cons.mp hok).1
    refine h.native (fun s => rfl) (Lib.Trace.everywhere_cons.mpr ⟨trivial, h.paired⟩) ?_ ?_
    · rintro q (rfl | hq)
      · exact Or.inl hnative
      · exact Or.inr hq
    · intro q hq _
      exact Set.mem_insert_of_mem _ hq
  · obtain ⟨b, m, -, rfl, rfl⟩ := hcall
    have hnew := (Lib.Trace.everywhere_cons.mp hok).1
    rw [htag]
    exact h.alloc _ _ hnew.2.1

theorem accounted_noHeapCalls (h : Accounted w.trace live aligned) (hquiet : NoHeapCalls w w') :
    Accounted w'.trace live aligned := by
  obtain ⟨es, htrace, hes⟩ := hquiet
  rw [htrace]
  exact h.noHeap hes

include hinst htag in
/-- The `memset` of `__carmor_calloc_template` makes no heap calls. -/
theorem accounted_calloc {s : StoreId} {fuel : Nat} {numOfElements elementsSize : SizeT}
    (h : Accounted w.trace live aligned)
    (hcall : carmorCallocTemplate env s fuel numOfElements elementsSize w = .ok p w')
    (hok : AllocsSucceed w'.trace) : Accounted w'.trace (insert p live) aligned := by
  obtain ⟨q, w₁, hmalloc, hrest⟩ := Lib.bind_eq_ok.mp hcall
  obtain ⟨a, w₂, hmemset, hres⟩ := Lib.bind_eq_ok.mp hrest
  cases hres
  have hquiet := (heapQuiet_memset hinst fuel p 0 (numOfElements * elementsSize)).of_ok hmemset
  have hok₁ := Lib.Trace.Everywhere.suffix hok hquiet.trace_suffix
  exact accounted_noHeapCalls (accounted_malloc htag h hmalloc hok₁) hquiet

/-- The block of `__carmor_memalign_template` is allocated, but no live pointer is its address. -/
theorem accounted_memalign {s : StoreId} {alignment n : SizeT} (h : Accounted w.trace live aligned)
    (hcall : carmorMemalignTemplate env s alignment n w = .ok p w') (hok : AllocsSucceed w'.trace) :
    Accounted w'.trace live (insert p aligned) := by
  obtain ⟨b, m, -, htrace, -⟩ := memalign_eq_ok hcall
  rw [htrace] at hok ⊢
  have hnew := (Lib.Trace.everywhere_cons.mp hok).1
  have halloc := h.alloc s (n + (alignment - 1) + 8) hnew.2.1
  refine ⟨?_, halloc.below, ?_, halloc.paired⟩
  · intro q hq
    exact halloc.blocks q (Set.mem_insert_of_mem _ hq)
  · intro hempty
    exact absurd hempty (Set.insert_nonempty _ _).ne_empty

/-- A live pointer is native or reaches a `case`. -/
theorem Accounted.native_or_switchCase (h : Accounted trace live aligned) (hp : p ∈ live) :
    isCarmorPtr p = false ∨ ∃ s, switchCase p = some s := by
  refine (h.blocks p hp).imp_right ?_
  rintro ⟨s, b, rfl, hb⟩
  exact ⟨s, switchCase_makeMstorePtr s (h.below s b hb)⟩

theorem accounted_free (h : Accounted w.trace live aligned) (hp : p ∈ live)
    (hcall : carmorFree env p w = .ok () w') : Accounted w'.trace (live \ {p}) aligned := by
  rcases h.native_or_switchCase hp with hnative | ⟨s, hs⟩
  · rw [free_native_eq_ok hnative hcall]
    refine h.native (fun s => rfl) (Lib.Trace.everywhere_cons.mpr ⟨trivial, h.paired⟩) ?_ ?_
    · intro q hq
      exact Or.inr hq.1
    · intro q hq hcarmor
      refine ⟨hq, ?_⟩
      rintro rfl
      rw [hnative] at hcarmor
      cases hcarmor
  · obtain ⟨m, -, rfl⟩ := free_eq_ok hs hcall
    exact h.free hp hs

include hinst in
theorem accounted_realloc {fuel : Nat} {size : SizeT} {res : Uintptr}
    (h : Accounted w.trace live aligned) (hp : p ∈ live)
    (hcall : carmorRealloc env fuel p size w = .ok res w') (hok : AllocsSucceed w'.trace) :
    Accounted w'.trace (insert res (live \ {p})) aligned := by
  rcases h.native_or_switchCase hp with hnative | ⟨s, hs⟩
  · have htrace := realloc_native_eq_ok hnative hcall
    rw [htrace] at hok ⊢
    have hres : isCarmorPtr res = false := (Lib.Trace.everywhere_cons.mp hok).1
    refine h.native (fun s => rfl) (Lib.Trace.everywhere_cons.mpr ⟨trivial, h.paired⟩) ?_ ?_
    · rintro q (rfl | hq)
      · exact Or.inl hres
      · exact Or.inr hq.1
    · intro q hq hcarmor
      refine Set.mem_insert_of_mem _ ⟨hq, ?_⟩
      rintro rfl
      rw [hnative] at hcarmor
      cases hcarmor
  · obtain ⟨n, m, -, hrest⟩ := realloc_eq_ok hs hcall
    have hsize := h.allocSize hp hs
    split at hrest
    · obtain ⟨rfl, rfl⟩ := hrest
      rw [Set.insert_sdiff_singleton, Set.insert_eq_of_mem hp]
      exact hsize
    · obtain ⟨b, m₁, a, w₁, -, rfl, hcopy, hfree⟩ := hrest
      have hquiet := (heapQuiet_memcpy hinst _ _ _ _).of_ok hcopy
      obtain ⟨m₂, -, hw'⟩ := free_eq_ok hs hfree
      have hsuffix : .lstoreAlloc s size b :: .lstoreAllocSize s (makeOriginalPointer p) ::
          w.trace <:+ w'.trace := by
        obtain ⟨es, htrace, -⟩ := hquiet
        rw [hw']
        exact ⟨.lstoreFree s (makeOriginalPointer p) :: es, by simp [htrace]⟩
      obtain ⟨-, hlt, hfresh⟩ :=
        (Lib.Trace.everywhere_cons.mp (Lib.Trace.Everywhere.suffix hok hsuffix)).1
      have hne : makeMstorePtr s b ≠ p := by
        rintro rfl
        have hb := hsize.block_allocated hp hs
        rw [makeOriginalPointer_makeMstorePtr s hlt] at hb
        exact hfresh hb
      rw [Set.insert_sdiff_singleton_comm hne]
      exact accounted_free (accounted_noHeapCalls (hsize.alloc _ _ hlt) hquiet)
        (Set.mem_insert_of_mem _ hp) hfree

end Step

/-- A step that spares the pointers of `__carmor_memalign_template` keeps the accounts. -/
theorem accounted_step {env : Env σ} (hinst : ∀ s, TemplateInstance env s)
    (htag : ∀ s, (env.stores s).lstoreTag = makeMstorePtr s) {c c' : Client σ} {l : HeapCall}
    (hstep : Client.SparingStep env c l c') (hok : AllocsSucceed c'.world.trace)
    (h : Accounted c.world.trace c.live c.aligned) :
    Accounted c'.world.trace c'.live c'.aligned := by
  obtain ⟨hstep, hspares⟩ := hstep
  cases hstep with
  | malloc hcall => exact accounted_malloc htag h hcall hok
  | calloc hcall => exact accounted_calloc hinst htag h hcall hok
  | memalign hcall => exact accounted_memalign h hcall hok
  | @realloc fuel ptr p size w hptr hcall =>
    show Accounted _ _ (c.aligned \ {ptr})
    rw [Set.sdiff_singleton_eq_self hspares]
    exact accounted_realloc hinst h (hptr.resolve_right hspares) hcall hok
  | @free ptr w hptr hcall =>
    show Accounted _ _ (c.aligned \ {ptr})
    rw [Set.sdiff_singleton_eq_self hspares]
    exact accounted_free h (hptr.resolve_right hspares) hcall
  | other hquiet => exact accounted_noHeapCalls h hquiet

/-! ## Runs -/

section Suffix

variable {env : Env σ} (hinst : ∀ s, TemplateInstance env s) {w w' : World σ} {p res : Uintptr}

theorem malloc_suffix {s : StoreId} {size : SizeT}
    (h : carmorMallocTemplate env s size w = .ok res w') : w.trace <:+ w'.trace := by
  rw [malloc_eq_ok] at h
  split at h
  · obtain ⟨m, -, rfl⟩ := h
    exact List.suffix_cons _ _
  · obtain ⟨b, m, -, -, rfl⟩ := h
    exact List.suffix_cons _ _

theorem free_suffix (h : carmorFree env p w = .ok () w') : w.trace <:+ w'.trace := by
  cases hp : isCarmorPtr p with
  | false =>
    rw [free_native_eq_ok hp h]
    exact List.suffix_cons _ _
  | true =>
    cases hs : switchCase p with
    | none =>
      rw [carmorFree, hp, hs] at h
      cases h
    | some s =>
      obtain ⟨m, -, rfl⟩ := free_eq_ok hs h
      exact List.suffix_cons _ _

include hinst in
theorem realloc_suffix {fuel : Nat} {size : SizeT}
    (h : carmorRealloc env fuel p size w = .ok res w') : w.trace <:+ w'.trace := by
  cases hp : isCarmorPtr p with
  | false =>
    rw [realloc_native_eq_ok hp h]
    exact List.suffix_cons _ _
  | true =>
    cases hs : switchCase p with
    | none =>
      rw [carmorRealloc, hp, hs] at h
      cases h
    | some s =>
      obtain ⟨n, m, -, hrest⟩ := realloc_eq_ok hs h
      split at hrest
      · obtain ⟨-, rfl⟩ := hrest
        exact List.suffix_cons _ _
      · obtain ⟨b, m₁, a, w₁, -, -, hcopy, hfree⟩ := hrest
        have hquiet := (heapQuiet_memcpy hinst _ _ _ _).of_ok hcopy
        have hheader := (List.suffix_cons (.lstoreAllocSize s (makeOriginalPointer p)) w.trace).trans
          (List.suffix_cons (.lstoreAlloc s size b) _)
        exact (hheader.trans hquiet.trace_suffix).trans (free_suffix hfree)

include hinst in
theorem Client.Step.trace_suffix {c c' : Client σ} {l : HeapCall} (h : Client.Step env c l c') :
    c.world.trace <:+ c'.world.trace := by
  cases h with
  | malloc hcall => exact malloc_suffix hcall
  | calloc hcall =>
    obtain ⟨q, w₁, hmalloc, hrest⟩ := Lib.bind_eq_ok.mp hcall
    obtain ⟨a, w₂, hmemset, hres⟩ := Lib.bind_eq_ok.mp hrest
    cases hres
    exact (malloc_suffix hmalloc).trans ((heapQuiet_memset hinst _ _ _ _).of_ok hmemset).trace_suffix
  | @memalign s alignment n p w hcall =>
    obtain ⟨b, m, -, htrace, -⟩ := memalign_eq_ok hcall
    show c.world.trace <:+ w.trace
    rw [htrace]
    exact List.suffix_cons _ _
  | realloc hptr hcall => exact realloc_suffix hinst hcall
  | free hptr hcall => exact free_suffix hcall
  | other hquiet => exact hquiet.trace_suffix

end Suffix

/-- The accounts are kept over runs. -/
theorem accounted_run {env : Env σ} (hinst : ∀ s, TemplateInstance env s)
    (htag : ∀ s, (env.stores s).lstoreTag = makeMstorePtr s) {c₀ c : Client σ}
    {calls : List HeapCall} (hrun : Lib.Run (Client.SparingStep env) c₀ calls c)
    (hok : AllocsSucceed c.world.trace) (h : Accounted c₀.world.trace c₀.live c₀.aligned) :
    Accounted c.world.trace c.live c.aligned := by
  induction hrun with
  | nil => exact h
  | @cons c₀ c₁ c l calls hstep hrest ih =>
    have hsuffix : c₁.world.trace <:+ c.world.trace := by
      refine hrest.invariant (I := fun c => c₁.world.trace <:+ c.world.trace) ?_
        (List.suffix_refl _)
      intro c l c' _ hc hstep
      exact hc.trans (hstep.1.trace_suffix hinst)
    exact ih hok (accounted_step hinst htag hstep (Lib.Trace.Everywhere.suffix hok hsuffix) h)

/-- In every run whose allocations succeed and that frees or reallocates no pointer of
`__carmor_memalign_template`, the stores are handed allocated blocks only, and no block remains
when no pointer is live. -/
theorem paired_of_sparingRun {env : Env σ} (hinst : ∀ s, TemplateInstance env s)
    (htag : ∀ s, (env.stores s).lstoreTag = makeMstorePtr s) {w₀ : World σ}
    (htrace : w₀.trace = []) {calls : List HeapCall} {c : Client σ}
    (hrun : Lib.Run (Client.SparingStep env) ⟨w₀, ∅, ∅⟩ calls c)
    (hok : AllocsSucceed c.world.trace) :
    Paired c.world.trace ∧
      (c.live = ∅ → c.aligned = ∅ → ∀ s, allocated s c.world.trace = []) := by
  have hstart : Accounted w₀.trace ∅ ∅ := by
    rw [htrace]
    refine ⟨?_, ?_, ?_, Lib.Trace.everywhere_nil⟩
    · intro p hp
      cases hp
    · intro s b hb
      cases hb
    · intro _ s b hb
      cases hb
  have hfinal := accounted_run hinst htag hrun hok hstart
  refine ⟨hfinal.paired, ?_⟩
  intro hlive haligned s
  refine List.eq_nil_iff_forall_not_mem.mpr ?_
  intro b hb
  have hp := hfinal.covered haligned s b hb
  rw [hlive] at hp
  cases hp

/-- `smallEnv` with stores that have room for one block of 128 bytes. -/
def oneBlockEnv : Env Pins :=
  { smallEnv with stores := fun s =>
      { smallEnv.stores s with
        lstoreAlloc := fun _ => pure 0x2000
        lstoreAllocSize := fun _ => pure 128 } }

theorem oneBlockEnv_instance (s : StoreId) : TemplateInstance oneBlockEnv s where
  link := Or.inr ⟨Or.inl rfl, smallGeometry, rfl, rfl, rfl, fun _ => rfl⟩
  writeback := rfl

/-- The pointer to the block, and the one to its part that is aligned to 64 bytes. -/
def oneBlockPtr : Uintptr := makeMstorePtr .lstore0 0x2000
def alignedPtr : Uintptr := makeMstorePtr .lstore0 0x2040

/-- A block that is allocated, reallocated in place and freed. -/
theorem paired_mallocReallocFree : ∃ c,
    Lib.Run (Client.SparingStep oneBlockEnv) ⟨initialWorld, ∅, ∅⟩ [.malloc .lstore0 16,
      .realloc oneBlockPtr 64, .free oneBlockPtr] c ∧
    Paired c.world.trace ∧ ∀ s, allocated s c.world.trace = [] := by
  let w₁ := initialWorld.log (.lstoreAlloc .lstore0 16 0x2000)
  let w₂ := w₁.log (.lstoreAllocSize .lstore0 0x2000)
  let w₃ := w₂.log (.lstoreFree .lstore0 0x2000)
  have hmalloc : carmorMallocTemplate oneBlockEnv .lstore0 16 initialWorld = .ok oneBlockPtr w₁ := rfl
  have hp : switchCase oneBlockPtr = some .lstore0 := by decide
  have hrealloc : carmorRealloc oneBlockEnv 0 oneBlockPtr 64 w₁ = .ok oneBlockPtr w₂ := by
    have hle : (64 : SizeT) ≤ BitVec.ofInt 64 (toInt32 128) := by decide
    rw [carmorRealloc, if_neg (by decide), hp]
    refine Lib.bind_eq_ok.mpr ⟨128, w₂, rfl, ?_⟩
    rw [if_pos hle]
    rfl
  have hfree : carmorFree oneBlockEnv oneBlockPtr w₂ = .ok () w₃ := by
    rw [carmorFree, if_neg (by decide), hp]
    rfl
  have hrun : Lib.Run (Client.SparingStep oneBlockEnv) ⟨initialWorld, ∅, ∅⟩
      [.malloc .lstore0 16, .realloc oneBlockPtr 64, .free oneBlockPtr] _ :=
    .cons ⟨.malloc hmalloc, trivial⟩
      (.cons ⟨.realloc (Or.inl (Set.mem_insert oneBlockPtr ∅)) hrealloc, id⟩
      (.cons ⟨.free (Or.inl (Set.mem_insert oneBlockPtr _)) hfree, fun h => h.1⟩ (.nil _)))
  have hok : AllocsSucceed w₃.trace := by
    refine Lib.Trace.everywhere_cons.mpr ⟨trivial, Lib.Trace.everywhere_cons.mpr ⟨trivial, ?_⟩⟩
    refine Lib.Trace.everywhere_cons.mpr ⟨⟨by decide, by decide, ?_⟩, Lib.Trace.everywhere_nil⟩
    intro hb
    cases hb
  obtain ⟨hpaired, hnone⟩ := paired_of_sparingRun oneBlockEnv_instance (fun _ => rfl) rfl hrun hok
  refine ⟨_, hrun, hpaired, hnone ?_ ?_⟩
  · simp
  · simp

/-- Freeing the pointer of `__carmor_memalign_template` hands its store an address that it did
not allocate. -/
theorem not_paired_memalignFree : ∃ c,
    Lib.Run (Client.Step oneBlockEnv) ⟨initialWorld, ∅, ∅⟩
      [.memalign .lstore0 64 32, .free alignedPtr] c ∧
    AllocsSucceed c.world.trace ∧ ¬ Paired c.world.trace := by
  let w₁ := (initialWorld.withMem (storePointer initialWorld.mem 0x2038 0x2000)).log
    (.lstoreAlloc .lstore0 103 0x2000)
  let w₂ := w₁.log (.lstoreFree .lstore0 0x2040)
  have hmemalign :
      carmorMemalignTemplate oneBlockEnv .lstore0 64 32 initialWorld = .ok alignedPtr w₁ := rfl
  have hfree : carmorFree oneBlockEnv alignedPtr w₁ = .ok () w₂ := by
    have hp : switchCase alignedPtr = some .lstore0 := by decide
    rw [carmorFree, if_neg (by decide), hp]
    rfl
  refine ⟨_, .cons (.memalign hmemalign)
    (.cons (.free (Or.inr (Set.mem_insert alignedPtr ∅)) hfree) (.nil _)), ?_, ?_⟩
  · refine Lib.Trace.everywhere_cons.mpr ⟨trivial, ?_⟩
    refine Lib.Trace.everywhere_cons.mpr ⟨⟨by decide, by decide, ?_⟩, Lib.Trace.everywhere_nil⟩
    intro hb
    cases hb
  · intro hpaired
    have hfreed := (Lib.Trace.everywhere_cons.mp hpaired).1
    exact absurd (List.mem_singleton.mp hfreed) (by decide)

end Carmor
