import Carmor.Proofs.LinkedLoop
import Carmor.Proofs.KnownTlb

/-!
# Residency during bulk operations

`__carmor_mem_wrapper` keeps the linked address of an operand while it faults on pages of the other
one. An address is in a wrong frame from the beginning if the fault finds the entry of another store
in a TLB that they share: `bulkFaults` lists the faults of an operation, and `FindsOwn` must hold at
each. The frame of a right address is reused only by a later fault of the same store. The operand
whose page was faulted last is safe, since its page is in the TLB, and the faults of two operands in
one store alternate. Only the first fault after the two initial ones can come out of turn:
`Displaced` describes the TLB contents with which the frame of the left operand may be reused by
then.
-/

namespace Carmor

variable {σ : Type}

/-- The bytes from an address to the end of its page. -/
def StoreGeometry.rest (g : StoreGeometry) (u : Uintptr) : Nat := g.pageSize - g.inPage u

theorem StoreGeometry.rest_add {g : StoreGeometry} {u : Uintptr} {i : Nat} (hi : i < g.rest u) :
    g.rest (u + BitVec.ofNat 64 i) = g.rest u - i := by
  unfold rest at hi ⊢
  rw [g.inPage_add (by omega)]
  omega

theorem StoreGeometry.rest_add_rest (g : StoreGeometry) (u : Uintptr) :
    g.rest (u + BitVec.ofNat 64 (g.rest u)) = g.pageSize := by
  have hlt := g.inPage_lt u
  have hzero := g.inPage_add_rest (show g.inPage u + g.rest u = g.pageSize by unfold rest; omega)
  rw [rest, hzero]
  rfl

theorem StoreGeometry.rest_bounds (g : StoreGeometry) (u : Uintptr) :
    0 < g.rest u ∧ g.rest u ≤ g.pageSize := by
  have hlt := g.inPage_lt u
  unfold rest
  omega

/-- The page after the page of an address is another one. -/
theorem StoreGeometry.page_add_rest_ne (g : StoreGeometry) (u : Uintptr) :
    g.page (u + BitVec.ofNat 64 (g.rest u)) ≠ g.page u := by
  have hsize : g.pageSize ≤ 2 ^ 63 :=
    Nat.pow_le_pow_right (by decide) (Nat.lt_succ_iff.mp g.pageBits_lt)
  have hbounds := g.rest_bounds u
  have hlt := g.inPage_lt u
  have hzero := g.inPage_add_rest (show g.inPage u + g.rest u = g.pageSize by unfold rest; omega)
  have hne := g.page_ne_of_start hbounds.1 (by omega) hzero
  rw [BitVec.add_zero] at hne
  exact hne.symm

/-- The frame that `a` addresses holds the page of the tagged pointer `p`. -/
def HoldsPage (r : Residency σ) (st : σ) (p a : Uintptr) : Prop :=
  ∀ s, switchCase p = some s → r.place st p = some a

/-- At the calls of `func` among the events the frames that `vl0` and `vr0` address hold the pages
of `vl1` and `vr1`. -/
def FuncsResident (r : Residency σ) (es : List (Event σ)) : Prop :=
  ∀ st vl0 vr0 vl1 vr1 n, Event.func st vl0 vr0 vl1 vr1 n ∈ es →
    HoldsPage r st vl1 vl0 ∧ HoldsPage r st vr1 vr0

/-- The address `a` is at the offset of `u` in a frame. -/
def AtOffset (g : StoreGeometry) (u a : Uintptr) : Prop := ∃ f, a = g.frameAddress f (g.inPage u)

/-! ## The faults of an operation -/

/-- The fault of an operand whose page ends before its `i`-th byte. -/
def pageFaultAt (g : StoreGeometry) (s : StoreId) (x : Uintptr) (i : Nat) :
    List (StoreId × Unsigned) :=
  if g.inPage (cells x i) = 0 then [(s, g.index (cells x i))] else []

/-- The faults of the loop on `n` bytes at `x` of store `s` and `y` of store `t` when `done` bytes
are processed: at the ends of the pages, and the left operand first. -/
def chunkFaults (g : StoreId → StoreGeometry) (s t : StoreId) (x y : Uintptr) (n done : Nat) :
    List (StoreId × Unsigned) :=
  (List.range' (done + 1) (n - (done + 1))).flatMap fun i =>
    pageFaultAt (g s) s x i ++ pageFaultAt (g t) t y i

/-- The faults of an operation. -/
def bulkFaults (g : StoreId → StoreGeometry) (s t : StoreId) (x y : Uintptr) (n : Nat) :
    List (StoreId × Unsigned) :=
  (s, (g s).index x) :: (t, (g t).index y) :: chunkFaults g s t x y n 0

/-- Accesses of the TLBs of which none finds an entry of another store. -/
abbrev TlbOwners.FindAllOwn (refs : StoreId → TlbRef) (T : TlbOwners)
    (ls : List (StoreId × Unsigned)) : Prop :=
  Lib.Run.Followed (TlbOwners.access refs) (TlbOwners.FindsOwn refs) T ls

/-- No page ends inside a page. -/
theorem pageFaultAt_inside {g : StoreGeometry} {s : StoreId} {x : Uintptr} {i k : Nat} (hpos : 0 < k)
    (hk : k < g.rest (cells x i)) : pageFaultAt g s x (i + k) = [] := by
  unfold StoreGeometry.rest at hk
  refine if_neg ?_
  rw [← cells_add, g.inPage_add (by omega)]
  omega

theorem pageFaultAt_end {g : StoreGeometry} {s : StoreId} {x : Uintptr} {i k : Nat}
    (hk : k = g.rest (cells x i)) :
    pageFaultAt g s x (i + k) = [(s, g.index (cells x (i + k)))] := by
  have hlt := g.inPage_lt (cells x i)
  refine if_pos ?_
  rw [← cells_add]
  exact g.inPage_add_rest (by unfold StoreGeometry.rest at hk; omega)

section ChunkFaults

variable {g : StoreId → StoreGeometry} {s t : StoreId} {x y : Uintptr} {n done left : Nat}
  (hx : left ≤ (g s).rest (cells x done)) (hy : left ≤ (g t).rest (cells y done))
include hx hy

/-- No page of the operands ends before the chunk does. -/
theorem pageFaultsAt_inside {i : Nat} (hi : done < i) (hlt : i < done + left) :
    pageFaultAt (g s) s x i ++ pageFaultAt (g t) t y i = [] := by
  obtain ⟨k, rfl⟩ : ∃ k, i = done + k := ⟨i - done, by omega⟩
  rw [pageFaultAt_inside (by omega) (by omega), pageFaultAt_inside (by omega) (by omega)]
  rfl

/-- The next faults are at the end of the chunk. -/
theorem chunkFaults_eq (hpos : 0 < left) (hlt : done + left < n) :
    chunkFaults g s t x y n done =
      pageFaultAt (g s) s x (done + left) ++ (pageFaultAt (g t) t y (done + left) ++
        chunkFaults g s t x y n (done + left)) := by
  have hcount : n - (done + 1) = (left - 1) + (n - (done + left + 1) + 1) := by omega
  have hnone : (List.range' (done + 1) (left - 1)).flatMap (fun i =>
      pageFaultAt (g s) s x i ++ pageFaultAt (g t) t y i) = [] := by
    refine List.flatMap_eq_nil_iff.mpr fun i hi => ?_
    obtain ⟨hge, hle⟩ := List.mem_range'_1.mp hi
    exact pageFaultsAt_inside hx hy (by omega) (by omega)
  rw [chunkFaults, hcount, ← List.range'_append_1, List.flatMap_append, hnone, List.nil_append,
    show done + 1 + (left - 1) = done + left by omega, List.range'_succ, List.flatMap_cons,
    List.append_assoc]
  rfl

/-- The last chunk is followed by no fault. -/
theorem chunkFaults_last (hlast : n ≤ done + left) : chunkFaults g s t x y n done = [] := by
  refine List.flatMap_eq_nil_iff.mpr fun i hi => ?_
  obtain ⟨hge, hle⟩ := List.mem_range'_1.mp hi
  exact pageFaultsAt_inside hx hy (by omega) (by omega)

end ChunkFaults

/-! ## Page faults -/

/-- What a page fault at the pointer `p` of a store that knows its TLB does: it returns the address
`a`, in the frame of the store whose entry serves it. -/
structure KnownFault (env : Env σ) (r : Residency σ) (knows : TlbOwners → σ → Prop)
    (refs : StoreId → TlbRef) (s : StoreId) (p : Uintptr) (T : TlbOwners) (w : World σ) (a : Uintptr)
    (w' : World σ) : Prop where
  run : ∃ dirty, carmorPageFault env p dirty w = .ok a w'
  resident : TlbResident r knows refs
    (T.access refs (s, (r.geometry s).index (makeOriginalPointer p))) w'
  address : ∃ f, a = (r.geometry s).frameAddress f ((r.geometry s).inPage (makeOriginalPointer p)) ∧
    r.frame w'.store
      (Lib.Fifo.found (T (refs s)) (s, (r.geometry s).index (makeOriginalPointer p))).1
      ((r.geometry s).page (makeOriginalPointer p)) = some f
  kept : FramesKept r refs T s ((r.geometry s).page (makeOriginalPointer p)) w.store w'.store
  others : ∀ t, t ≠ s → r.frame w'.store t = r.frame w.store t
  funcs : FuncsResident r w.trace → FuncsResident r w'.trace

/-- An operand in a cached store that knows its TLB. -/
structure KnownRange (env : Env σ) (r : Residency σ) (knows : TlbOwners → σ → Prop)
    (refs : StoreId → TlbRef) (s : StoreId) (p : Uintptr) (n : Nat) : Prop where
  range : BulkRange env r p n
  tag : switchCase p = some s
  store : KnownStore env r knows refs s
  page_lt : ∀ i, i = 0 ∨ i < n → (r.geometry s).page (cells (makeOriginalPointer p) i) < 2 ^ 32 - 1

/-- A passage through the TLB calls no chunk function. -/
theorem LinkStep.funcsResident {env : Env σ} {s : StoreId} {u a : Uintptr} {ptrSize : Int}
    {dirty : Byte} {w w' : World σ} (h : LinkStep env s u ptrSize dirty w a w') {r : Residency σ}
    (hw : FuncsResident r w.trace) : FuncsResident r w'.trace := by
  obtain ⟨es, htrace, hes⟩ := h.tlbEvents
  rw [htrace]
  intro st vl0 vr0 vl1 vr1 n hmem
  rcases List.mem_append.mp hmem with hmem | hmem
  · exact (hes _ hmem).elim
  · exact hw st vl0 vr0 vl1 vr1 n hmem

section Range

variable {env : Env σ} {r : Residency σ} {knows : TlbOwners → σ → Prop} {refs : StoreId → TlbRef}
  {s : StoreId} {p a : Uintptr} {n : Nat} (h : KnownRange env r knows refs s p n)
include h

theorem KnownRange.tag_cells {i : Nat} (hi : i < n) : switchCase (cells p i) = some s :=
  (h.range.switchCase_add hi).trans h.tag

theorem KnownRange.orig_cells {i : Nat} (hi : i < n) :
    makeOriginalPointer (cells p i) = cells (makeOriginalPointer p) i :=
  h.range.makeOriginalPointer_add h.tag hi

theorem KnownRange.pageBits : (r.geometry s).pageBits ≤ 30 := (h.range.bulkStore h.tag).pageBits

/-- A page fault at a pointer of the store. -/
theorem KnownRange.exists_pageFault {T : TlbOwners} {w : World σ} {q : Uintptr}
    (hq : switchCase q = some s)
    (hpage : (r.geometry s).page (makeOriginalPointer q) < 2 ^ 32 - 1)
    (hw : TlbResident r knows refs T w) (dirty : Byte) :
    ∃ a w', carmorPageFault env q dirty w = .ok a w' ∧ KnownFault env r knows refs s q T w a w' := by
  have hlogged : TlbResident r knows refs T (w.log (.pageFault q dirty)) :=
    ⟨hw.valid, hw.known, hw.mapped⟩
  obtain ⟨f, w', hlink, hframe, hw', hkept, hothers⟩ :=
    h.store.exists_linkStep h.pageBits hlogged hpage dirty
  have hrun := (carmorPageFault_eq_ok h.store.geometry h.store.link hq).mpr hlink
  refine ⟨_, w', hrun, ⟨dirty, hrun⟩, hw', ⟨f, rfl, hframe⟩, hkept, hothers, ?_⟩
  intro hfuncs
  apply hlink.funcsResident
  intro st vl0 vr0 vl1 vr1 n hmem
  exact hfuncs st vl0 vr0 vl1 vr1 n (by simpa using hmem)

theorem KnownRange.linkOperand_eq (dirty : Byte) :
    linkOperand env (operandOf env p dirty) p = carmorPageFault env p dirty :=
  if_pos (by simp [Operand.linked, operandOf, h.tag])

/-- The bytes left in the page of the operand. -/
theorem KnownRange.leftIn_eq {i : Nat}
    (ha : AtOffset (r.geometry s) (cells (makeOriginalPointer p) i) a) (dirty : Byte) :
    (operandOf env p dirty).leftIn a = (r.geometry s).rest (cells (makeOriginalPointer p) i) := by
  obtain ⟨f, rfl⟩ := ha
  exact h.range.leftIn_tagged h.tag dirty

/-- The frame of an operand is that of its page. -/
theorem KnownRange.place_cells {i : Nat} (hi : i < n) (st : σ) :
    r.place st (cells p i) = (r.frame st s ((r.geometry s).page (cells (makeOriginalPointer p) i))).map
      fun f => (r.geometry s).frameAddress f
        ((r.geometry s).inPage (cells (makeOriginalPointer p) i)) := by
  rw [r.place_tagged (h.tag_cells hi), h.orig_cells hi]

theorem KnownRange.atOffset {i : Nat} (hi : i < n) {st : σ} (ha : r.place st (cells p i) = some a) :
    AtOffset (r.geometry s) (cells (makeOriginalPointer p) i) a := by
  rw [h.place_cells hi, Option.map_eq_some_iff] at ha
  obtain ⟨f, -, rfl⟩ := ha
  exact ⟨f, rfl⟩

end Range

theorem KnownFault.atOffset {env : Env σ} {r : Residency σ} {knows : TlbOwners → σ → Prop}
    {refs : StoreId → TlbRef} {s : StoreId} {p a : Uintptr} {T : TlbOwners} {w w' : World σ}
    (h : KnownFault env r knows refs s p T w a w') :
    AtOffset (r.geometry s) (cells (makeOriginalPointer p) 0) a := by
  obtain ⟨f, hf, -⟩ := h.address
  exact ⟨f, by rw [cells_zero]; exact hf⟩

/-- Inside a page the offset moves with the address. -/
theorem AtOffset.add {g : StoreGeometry} {x a : Uintptr} {i k : Nat} (h : AtOffset g (cells x i) a)
    (hk : k < g.rest (cells x i)) : AtOffset g (cells x (i + k)) (a + BitVec.ofNat 64 k) := by
  obtain ⟨f, rfl⟩ := h
  unfold StoreGeometry.rest at hk
  refine ⟨f, ?_⟩
  rw [← cells_add, g.inPage_add (by omega), g.frameAddress_add]

theorem StoreGeometry.page_inside {g : StoreGeometry} {x : Uintptr} {i k : Nat}
    (hk : k < g.rest (cells x i)) : g.page (cells x (i + k)) = g.page (cells x i) := by
  unfold StoreGeometry.rest at hk
  rw [← cells_add, g.page_add (by omega)]

theorem StoreGeometry.rest_end {g : StoreGeometry} {x : Uintptr} {i k : Nat}
    (hk : k = g.rest (cells x i)) : g.rest (cells x (i + k)) = g.pageSize := by
  rw [← cells_add, hk]
  exact g.rest_add_rest _

/-- An operand moves on by `k` bytes from its `i`-th one, where it is linked at `a`: inside its page
or, at the end of the page, with a page fault. -/
inductive Advanced (env : Env σ) (r : Residency σ) (knows : TlbOwners → σ → Prop)
    (refs : StoreId → TlbRef) (s : StoreId) (p : Uintptr) (i k : Nat) (a : Uintptr) (T : TlbOwners)
    (w : World σ) : TlbOwners → Uintptr → World σ → Prop
  | inside (hk : k < (r.geometry s).rest (cells (makeOriginalPointer p) i)) :
      Advanced env r knows refs s p i k a T w T (a + BitVec.ofNat 64 k) w
  | ends {a' : Uintptr} {w' : World σ}
      (hk : k = (r.geometry s).rest (cells (makeOriginalPointer p) i))
      (hfault : KnownFault env r knows refs s (cells p (i + k)) T w a' w') :
      Advanced env r knows refs s p i k a T w
        (T.access refs (s, (r.geometry s).index (makeOriginalPointer (cells p (i + k))))) a' w'

/-- A fault that finds no entry of another store links the pointer in the frame of its page. -/
theorem KnownFault.placed {env : Env σ} {r : Residency σ} {knows : TlbOwners → σ → Prop}
    {refs : StoreId → TlbRef} {s : StoreId} {p a : Uintptr} {T : TlbOwners} {w w' : World σ}
    (h : KnownFault env r knows refs s p T w a w') (hp : switchCase p = some s)
    (hown : T.FindsOwn refs (s, (r.geometry s).index (makeOriginalPointer p))) :
    r.place w'.store p = some a := by
  obtain ⟨f, rfl, hf⟩ := h.address
  rw [hown] at hf
  rw [r.place_tagged hp, hf]
  rfl

section Advance

variable {env : Env σ} {r : Residency σ} {knows : TlbOwners → σ → Prop} {refs : StoreId → TlbRef}
  {s : StoreId} {p a a' : Uintptr} {n i k : Nat} (h : KnownRange env r knows refs s p n)
  {T T' : TlbOwners} {w w' : World σ}
include h

theorem KnownRange.exists_advanced (hw : TlbResident r knows refs T w) (hi : i + k < n)
    (ha : AtOffset (r.geometry s) (cells (makeOriginalPointer p) i) a)
    (hk : k ≤ (r.geometry s).rest (cells (makeOriginalPointer p) i)) (dirty : Byte) :
    ∃ T' a' w', advanceLinked env (operandOf env p dirty) ((operandOf env p dirty).leftIn a) k a
      (cells p (i + k)) w = .ok a' w' ∧ Advanced env r knows refs s p i k a T w T' a' w' := by
  have hlinked : (operandOf env p dirty).linked = true := by
    simp [Operand.linked, operandOf, h.tag]
  unfold advanceLinked
  rw [h.leftIn_eq ha]
  rcases Nat.lt_or_eq_of_le hk with hinside | hend
  · rw [if_neg (by omega), ofInt_natCast]
    exact ⟨_, _, _, rfl, .inside hinside⟩
  · have hpage := h.page_lt (i + k) (.inr hi)
    rw [← h.orig_cells hi] at hpage
    obtain ⟨a', w', hrun, hfault⟩ := h.exists_pageFault (h.tag_cells hi) hpage hw dirty
    rw [← hend, if_pos ⟨rfl, hlinked⟩]
    exact ⟨_, a', w', hrun, .ends hend hfault⟩

variable (hadv : Advanced env r knows refs s p i k a T w T' a' w') (hi : i + k < n)
include hadv hi

omit h hi in
theorem Advanced.resident (hw : TlbResident r knows refs T w) : TlbResident r knows refs T' w' := by
  cases hadv with
  | inside => exact hw
  | ends hk hfault => exact hfault.resident

omit h hi in
theorem Advanced.funcs (hw : FuncsResident r w.trace) : FuncsResident r w'.trace := by
  cases hadv with
  | inside => exact hw
  | ends hk hfault => exact hfault.funcs hw

omit h hi in
/-- Inside its page an operand moves on without a fault. -/
theorem Advanced.eq_of_inside
    (hinside : k < (r.geometry s).rest (cells (makeOriginalPointer p) i)) : w' = w := by
  cases hadv with
  | inside => rfl
  | ends hend => omega

/-- The accesses of the TLBs are the listed ones. -/
theorem Advanced.owners (hk : 0 < k) :
    T' = (pageFaultAt (r.geometry s) s (makeOriginalPointer p) (i + k)).foldl
      (TlbOwners.access refs) T := by
  cases hadv with
  | inside hinside =>
    rw [pageFaultAt_inside hk hinside]
    rfl
  | ends hend hfault =>
    rw [pageFaultAt_end hend, h.orig_cells hi]
    rfl

theorem Advanced.atOffset (ha : AtOffset (r.geometry s) (cells (makeOriginalPointer p) i) a) :
    AtOffset (r.geometry s) (cells (makeOriginalPointer p) (i + k)) a' := by
  cases hadv with
  | inside hinside => exact ha.add hinside
  | ends hend hfault =>
    obtain ⟨f, rfl, -⟩ := hfault.address
    exact ⟨f, by rw [h.orig_cells hi]⟩

/-- The operand is linked in the frame of its page again if its fault finds no entry of another
store. -/
theorem Advanced.placed (hown : T.FindAllOwn refs
      (pageFaultAt (r.geometry s) s (makeOriginalPointer p) (i + k)))
    (ha : k < (r.geometry s).rest (cells (makeOriginalPointer p) i) →
      r.place w.store (cells p i) = some a) : r.place w'.store (cells p (i + k)) = some a' := by
  rw [h.place_cells hi]
  cases hadv with
  | inside hinside =>
    have hplace := ha hinside
    rw [h.place_cells (by omega), Option.map_eq_some_iff] at hplace
    obtain ⟨f, hf, rfl⟩ := hplace
    have hin := hinside
    unfold StoreGeometry.rest at hin
    rw [StoreGeometry.page_inside hinside, hf, ← (r.geometry s).frameAddress_add, ← cells_add,
      (r.geometry s).inPage_add (by omega)]
    rfl
  | ends hend hfault =>
    rw [pageFaultAt_end hend] at hown
    rw [← h.place_cells hi]
    refine hfault.placed (h.tag_cells hi) ?_
    rw [h.orig_cells hi]
    exact hown.1

end Advance

/-- The page that an operand moves on to is in the TLB then. -/
theorem Advanced.mem {env : Env σ} {r : Residency σ} {knows : TlbOwners → σ → Prop}
    {refs : StoreId → TlbRef} {s : StoreId} {p a a' : Uintptr} {n i k : Nat} {T T' : TlbOwners}
    {w w' : World σ} (h : KnownRange env r knows refs s p n)
    (hadv : Advanced env r knows refs s p i k a T w T' a' w') (hi : i + k < n)
    (hend : k = (r.geometry s).rest (cells (makeOriginalPointer p) i))
    (hown : T.FindAllOwn refs (pageFaultAt (r.geometry s) s (makeOriginalPointer p) (i + k))) :
    (s, (r.geometry s).index (cells (makeOriginalPointer p) (i + k))) ∈ T' (refs s) := by
  rw [pageFaultAt_end hend] at hown
  cases hadv with
  | inside hinside => omega
  | ends _ hfault =>
    rw [h.orig_cells hi, TlbOwners.access_self refs T (s, _)]
    exact Lib.Fifo.mem_touchOwned_self hown.1

/-- What a page fault leaves in its frame: a byte of another store, of a page in the TLB or of the
page that is fetched, and on a hit every byte. -/
theorem KnownFault.place_eq {env : Env σ} {r : Residency σ} {knows : TlbOwners → σ → Prop}
    {refs : StoreId → TlbRef} {s t : StoreId} {p q a b : Uintptr} {T : TlbOwners} {w w' : World σ}
    (h : KnownFault env r knows refs s p T w a w') (hq : switchCase q = some t)
    (hpage : (r.geometry t).page (makeOriginalPointer q) < 2 ^ 32 - 1)
    (hmem : t = s →
      (s, (r.geometry s).index (makeOriginalPointer q)) ∈ T (refs s) ∨
      (r.geometry s).page (makeOriginalPointer q) = (r.geometry s).page (makeOriginalPointer p) ∨
      (r.geometry s).index (makeOriginalPointer p) ∈ (T (refs s)).map Prod.snd)
    (hb : r.place w.store q = some b) : r.place w'.store q = some b := by
  rw [r.place_tagged hq] at hb ⊢
  by_cases hts : t = s
  · subst hts
    rw [Option.map_eq_some_iff] at hb
    obtain ⟨f, hf, rfl⟩ := hb
    have hkept := h.kept _ f ((hmem rfl).imp_left fun hin => ?_) hf
    · rw [hkept]
      rfl
    · exact TlbOwners.mem_pages.mpr ⟨_, hin, StoreGeometry.toNat_index hpage⟩
  · rw [h.others t hts, hb]

/-- The same for an operand that moves on: without a fault nothing changes. -/
theorem Advanced.place_eq {env : Env σ} {r : Residency σ} {knows : TlbOwners → σ → Prop}
    {refs : StoreId → TlbRef} {s t : StoreId} {p q a a' b : Uintptr} {n i k : Nat} {T T' : TlbOwners}
    {w w' : World σ} (h : KnownRange env r knows refs s p n)
    (hadv : Advanced env r knows refs s p i k a T w T' a' w') (hi : i + k < n)
    (hq : switchCase q = some t)
    (hpage : (r.geometry t).page (makeOriginalPointer q) < 2 ^ 32 - 1)
    (hmem : k = (r.geometry s).rest (cells (makeOriginalPointer p) i) → t = s →
      (s, (r.geometry s).index (makeOriginalPointer q)) ∈ T (refs s) ∨
      (r.geometry s).page (makeOriginalPointer q) =
        (r.geometry s).page (cells (makeOriginalPointer p) (i + k)) ∨
      (r.geometry s).index (cells (makeOriginalPointer p) (i + k)) ∈ (T (refs s)).map Prod.snd)
    (hb : r.place w.store q = some b) : r.place w'.store q = some b := by
  cases hadv with
  | inside => exact hb
  | ends hend hfault =>
    refine hfault.place_eq hq hpage (fun hts => ?_) hb
    rw [h.orig_cells hi]
    exact hmem hend hts

/-! ## The loop -/

section Operands

variable {env : Env σ} {r : Residency σ} {knows : TlbOwners → σ → Prop} {refs : StoreId → TlbRef}
  {s t : StoreId} {vl vr : Uintptr} {n : Nat} (hl : KnownRange env r knows refs s vl n)
  (hr : KnownRange env r knows refs t vr n) {T : TlbOwners} {w : World σ}
  {done left : Nat} {vl0 vr0 : Uintptr} (vlDirty vrDirty : Byte) (func : MemFunction)
  (partialReturn : Bool) (hvl0 : AtOffset (r.geometry s) (cells (makeOriginalPointer vl) done) vl0)
  (hvr0 : AtOffset (r.geometry t) (cells (makeOriginalPointer vr) done) vr0)
include hl hr hvl0 hvr0

/-- The next call of `func` ends where the first of the two pages ends. -/
theorem minLeft_cachedOp :
    (cachedOp env vl vlDirty vr vrDirty func partialReturn).minLeft vl0 vr0 =
      min ((r.geometry s).rest (cells (makeOriginalPointer vl) done))
        ((r.geometry t).rest (cells (makeOriginalPointer vr) done)) := by
  show min ((operandOf env vl vlDirty).leftIn vl0).toNat
    ((operandOf env vr vrDirty).leftIn vr0).toNat = _
  rw [hl.leftIn_eq hvl0 vlDirty, hr.leftIn_eq hvr0 vrDirty, Int.toNat_natCast, Int.toNat_natCast]

/-- Both operands move on to the next chunk. -/
theorem exists_chunkAdvance (hw : TlbResident r knows refs T w) (hlt : done + left < n)
    (hleft : (cachedOp env vl vlDirty vr vrDirty func partialReturn).minLeft vl0 vr0 = left) :
    ∃ T₁ T₂ vl0' vr0' w₁ w₂,
      chunkAdvance env (cachedOp env vl vlDirty vr vrDirty func partialReturn) vl0 vr0
        (cells vl (done + left)) (cells vr (done + left)) left w = .ok (vl0', vr0') w₂ ∧
      Advanced env r knows refs s vl done left vl0 T w T₁ vl0' w₁ ∧
      Advanced env r knows refs t vr done left vr0 T₁ w₁ T₂ vr0' w₂ := by
  rw [minLeft_cachedOp hl hr vlDirty vrDirty func partialReturn hvl0 hvr0] at hleft
  obtain ⟨T₁, vl0', w₁, hrunl, hadvl⟩ := hl.exists_advanced hw hlt hvl0 (by omega) vlDirty
  obtain ⟨T₂, vr0', w₂, hrunr, hadvr⟩ :=
    hr.exists_advanced (hadvl.resident hw) hlt hvr0 (by omega) vrDirty
  exact ⟨T₁, T₂, vl0', vr0', w₁, w₂, chunkAdvance_of_ok hrunl hrunr, hadvl, hadvr⟩

end Operands

/-- Two operands at `u` and `v` of store `s`, with `count` bytes to go: the next fault leaves the
page of the operand that it does not concern in its frame. -/
structure InOrder (g : StoreGeometry) (s : StoreId) (T : List (StoreId × Unsigned)) (u v : Uintptr)
    (count : Nat) : Prop where
  left : g.rest u < g.rest v → (s, g.index v) ∈ T
  right : g.rest v < g.rest u → g.rest v < count → (s, g.index u) ∈ T ∨
    g.page u = g.page (v + BitVec.ofNat 64 (g.rest v)) ∨
    g.index (v + BitVec.ofNat 64 (g.rest v)) ∈ T.map Prod.snd

/-- The page that the next fault does not concern has been faulted at the end of the chunk. -/
theorem Advanced.inOrder {env : Env σ} {r : Residency σ} {knows : TlbOwners → σ → Prop}
    {refs : StoreId → TlbRef} {s : StoreId} {vl vr vl0 vr0 vl0' vr0' : Uintptr} {n done left : Nat}
    {T T₁ T₂ : TlbOwners} {w w₁ w₂ : World σ} (hl : KnownRange env r knows refs s vl n)
    (hr : KnownRange env r knows refs s vr n) (hlt : done + left < n)
    (hleft : min ((r.geometry s).rest (cells (makeOriginalPointer vl) done))
      ((r.geometry s).rest (cells (makeOriginalPointer vr) done)) = left)
    (hadvl : Advanced env r knows refs s vl done left vl0 T w T₁ vl0' w₁)
    (hadvr : Advanced env r knows refs s vr done left vr0 T₁ w₁ T₂ vr0' w₂)
    (hownl : T.FindAllOwn refs
      (pageFaultAt (r.geometry s) s (makeOriginalPointer vl) (done + left)))
    (hownr : T₁.FindAllOwn refs
      (pageFaultAt (r.geometry s) s (makeOriginalPointer vr) (done + left))) (count : Nat) :
    InOrder (r.geometry s) s (T₂ (refs s)) (cells (makeOriginalPointer vl) (done + left))
      (cells (makeOriginalPointer vr) (done + left)) count := by
  have hboundl := (r.geometry s).rest_bounds (cells (makeOriginalPointer vl) (done + left))
  have hboundr := (r.geometry s).rest_bounds (cells (makeOriginalPointer vr) (done + left))
  by_cases hendl : left = (r.geometry s).rest (cells (makeOriginalPointer vl) done)
  · have hrestl := StoreGeometry.rest_end hendl
    by_cases hendr : left = (r.geometry s).rest (cells (makeOriginalPointer vr) done)
    · have hrestr := StoreGeometry.rest_end hendr
      exact ⟨fun hlt' => by omega, fun hlt' => by omega⟩
    · -- only the left page ends, so that the next one to end is the right one
      have hmem := hadvl.mem hl hlt hendl hownl
      cases hadvr with
      | inside => exact ⟨fun hlt' => by omega, fun _ _ => .inl hmem⟩
      | ends hk => exact absurd hk hendr
  · have hendr : left = (r.geometry s).rest (cells (makeOriginalPointer vr) done) := by omega
    have hrestr := StoreGeometry.rest_end hendr
    exact ⟨fun _ => hadvr.mem hr hlt hendr hownr, fun hlt' => by omega⟩

/-- The state of the loop when `done` bytes are processed: both operands are linked in the frames
that hold their pages, and no fault to come finds an entry of another store. -/
structure ResidentState (r : Residency σ) (knows : TlbOwners → σ → Prop) (refs : StoreId → TlbRef)
    (s t : StoreId) (vl vr : Uintptr) (n : Nat) (T : TlbOwners) (done : Nat) (vl0 vr0 : Uintptr)
    (w : World σ) : Prop where
  resident : TlbResident r knows refs T w
  placed : done < n → r.place w.store (cells vl done) = some vl0 ∧
    r.place w.store (cells vr done) = some vr0
  order : t = s → done < n → InOrder (r.geometry s) s (T (refs s))
    (cells (makeOriginalPointer vl) done) (cells (makeOriginalPointer vr) done) (n - done)
  ahead : done < n → T.FindAllOwn refs (chunkFaults r.geometry s t (makeOriginalPointer vl)
    (makeOriginalPointer vr) n done)
  funcs : FuncsResident r w.trace

section Loop

variable {env : Env σ} {r : Residency σ} {knows : TlbOwners → σ → Prop} {refs : StoreId → TlbRef}
  {s t : StoreId} {vl vr : Uintptr} {n : Nat} (hl : KnownRange env r knows refs s vl n)
  (hr : KnownRange env r knows refs t vr n)
include hl hr

/-- The operands move on to the next chunk, and each stays where it is when the other one is
faulted. -/
theorem ResidentState.exists_advance {T : TlbOwners} {done left : Nat} {vl0 vr0 : Uintptr}
    {w : World σ} (h : ResidentState r knows refs s t vl vr n T done vl0 vr0 w)
    (hlt : done + left < n) (vlDirty vrDirty : Byte) (func : MemFunction) (partialReturn : Bool)
    (hleft : (cachedOp env vl vlDirty vr vrDirty func partialReturn).minLeft vl0 vr0 = left) :
    ∃ T' vl0' vr0' w', chunkAdvance env (cachedOp env vl vlDirty vr vrDirty func partialReturn) vl0
        vr0 (cells vl (done + left)) (cells vr (done + left)) left w = .ok (vl0', vr0') w' ∧
      ResidentState r knows refs s t vl vr n T' (done + left) vl0' vr0' w' := by
  have hdone : done < n := by omega
  obtain ⟨hpl, hpr⟩ := h.placed hdone
  have hvl0 := hl.atOffset hdone hpl
  have hvr0 := hr.atOffset hdone hpr
  obtain ⟨T₁, T₂, vl0', vr0', w₁, w₂, hrun, hadvl, hadvr⟩ :=
    exists_chunkAdvance hl hr vlDirty vrDirty func partialReturn hvl0 hvr0 h.resident hlt hleft
  rw [minLeft_cachedOp hl hr vlDirty vrDirty func partialReturn hvl0 hvr0] at hleft
  have hboundl := (r.geometry s).rest_bounds (cells (makeOriginalPointer vl) done)
  have hboundr := (r.geometry t).rest_bounds (cells (makeOriginalPointer vr) done)
  -- the faults at the end of the chunk, and those after it
  have hahead := h.ahead hdone
  rw [chunkFaults_eq (by omega) (by omega) (by omega) hlt] at hahead
  obtain ⟨hownl, hrest⟩ := Lib.Run.followed_append.mp hahead
  rw [← hadvl.owners hl hlt (by omega)] at hrest
  obtain ⟨hownr, hahead'⟩ := Lib.Run.followed_append.mp hrest
  rw [← hadvr.owners hr hlt (by omega)] at hahead'
  have hpl' := hadvl.placed hl hlt hownl fun _ => hpl
  have hpagel := hl.page_lt (done + left) (.inr hlt)
  have hpager := hr.page_lt done (.inr hdone)
  rw [← hl.orig_cells hlt] at hpagel
  rw [← hr.orig_cells hdone] at hpager
  refine ⟨T₂, vl0', vr0', w₂, hrun, hadvr.resident (hadvl.resident h.resident), fun _ => ⟨?_, ?_⟩, ?_,
    fun _ => hahead', hadvr.funcs (hadvl.funcs h.funcs)⟩
  · refine hadvr.place_eq hr hlt (hl.tag_cells hlt) hpagel (fun hendr hst => ?_) hpl'
    subst hst
    rw [hl.orig_cells hlt]
    by_cases hendl : left = (r.geometry s).rest (cells (makeOriginalPointer vl) done)
    · exact .inl (hadvl.mem hl hlt hendl hownl)
    · -- the page of the left operand was faulted before, and is still in the TLB
      have hinside : left < (r.geometry s).rest (cells (makeOriginalPointer vl) done) := by omega
      have hright := (h.order rfl hdone).right (by omega) (by omega)
      rw [← hendr, cells_add] at hright
      unfold StoreGeometry.index at hright ⊢
      rw [StoreGeometry.page_inside hinside]
      cases hadvl with
      | inside => exact hright
      | ends hk => exact absurd hk hendl
  · refine hadvr.placed hr hlt hownr fun hinside => ?_
    refine hadvl.place_eq hl hlt (hr.tag_cells hdone) hpager (fun hendl hts => ?_) hpr
    subst hts
    rw [hr.orig_cells hdone]
    exact .inl ((h.order rfl hdone).left (by omega))
  · intro hts _
    subst hts
    exact hadvl.inOrder hl hr hlt hleft hadvr hownl hownr _

omit hl hr in
theorem TlbResident.afterChunk {T : TlbOwners} {w : World σ} (h : TlbResident r knows refs T w)
    (b : BulkOp) (vl0 vr0 vl1 vr1 : Uintptr) (k : Nat) :
    TlbResident r knows refs T (b.afterChunk vl0 vr0 vl1 vr1 k w) :=
  ⟨h.valid, h.known, h.mapped⟩

omit hl hr in
/-- A call of `func` in the state of the loop. -/
theorem ResidentState.afterChunk {T : TlbOwners} {done : Nat} {vl0 vr0 : Uintptr} {w : World σ}
    (h : ResidentState r knows refs s t vl vr n T done vl0 vr0 w) (hdone : done < n) (b : BulkOp)
    (k : Nat) : ResidentState r knows refs s t vl vr n T done vl0 vr0
      (b.afterChunk vl0 vr0 (cells vl done) (cells vr done) k w) := by
  obtain ⟨hpl, hpr⟩ := h.placed hdone
  refine ⟨h.resident.afterChunk b _ _ _ _ k, h.placed, h.order, h.ahead, ?_⟩
  intro st vl0' vr0' vl1 vr1 n' hmem
  have htrace : (b.afterChunk vl0 vr0 (cells vl done) (cells vr done) k w).trace =
      .func w.store vl0 vr0 (cells vl done) (cells vr done) (BitVec.ofNat 64 k) :: w.trace := rfl
  rw [htrace] at hmem
  rcases List.mem_cons.mp hmem with hnew | hold
  · cases hnew
    exact ⟨fun _ _ => hpl, fun _ _ => hpr⟩
  · exact h.funcs st vl0' vr0' vl1 vr1 n' hold

/-- `ResidentState` is an invariant of the loop. -/
theorem resident_loopInvariant (vlDirty vrDirty : Byte) (func : MemFunction)
    (partialReturn : Bool) :
    LoopInvariant env (cachedOp env vl vlDirty vr vrDirty func partialReturn) n vl vr
      (fun done vl0 vr0 w => ∃ T, ResidentState r knows refs s t vl vr n T done vl0 vr0 w)
      (fun _ w => FuncsResident r w.trace) := by
  refine ⟨fun ⟨T, h⟩ => h.funcs, ?_, ?_⟩
  · rintro done left vl0 vr0 w ⟨T, h⟩ hleft hlt
    refine ⟨_, _, chunkCall_cached rfl _ _ _ _ _ w, ?_⟩
    have hafter := h.afterChunk (show done < n by omega)
      (cachedOp env vl vlDirty vr vrDirty func partialReturn) left
    split
    · exact hafter.funcs
    · obtain ⟨T', vl0', vr0', w', hrun, hstate⟩ :=
        hafter.exists_advance hl hr hlt vlDirty vrDirty func partialReturn hleft
      exact ⟨vl0', vr0', w', hrun, T', hstate⟩
  · rintro done vl0 vr0 w ⟨T, h⟩ hdone hlast
    refine ⟨_, _, chunkCall_cached rfl _ _ _ _ _ w, ?_⟩
    have hafter := h.afterChunk hdone (cachedOp env vl vlDirty vr vrDirty func partialReturn)
      (n - done)
    split
    · exact hafter.funcs
    · exact hafter.funcs

end Loop

/-! ## `__carmor_mem_wrapper` -/

/-- The page indices `T` of a TLB with which an operation on `count` bytes from `u` and `v` of one
store may lose the frame of its left operand: the page of `u` is in the last entry only, the first
fault at `v` pushes it out, and the first page that ends is that of `v`, whose next page then
misses. -/
structure Displaced (g : StoreGeometry) (T : List Unsigned) (u v : Uintptr) (count : Nat) :
    Prop where
  rest_lt : g.rest v < g.rest u
  next : g.rest v < count
  last : g.index u ∈ T ∧ g.index u ∉ T.dropLast
  miss : g.index v ∉ T
  next_miss : g.index (v + BitVec.ofNat 64 (g.rest v)) ∉ T.dropLast
  next_ne : g.page (v + BitVec.ofNat 64 (g.rest v)) ≠ g.page u

/-- Without it the two initial faults leave the operands in order, if they find no entry of another
store. -/
theorem inOrder_of_not_displaced {g : StoreGeometry} {s : StoreId} {T : List (StoreId × Unsigned)}
    {u v : Uintptr} {count : Nat} (hlength : 2 ≤ T.length)
    (hu : Lib.Fifo.found T (s, g.index u) = (s, g.index u))
    (hv : Lib.Fifo.found (Lib.Fifo.touchOwned T (s, g.index u)) (s, g.index v) = (s, g.index v))
    (h : ¬ Displaced g (T.map Prod.snd) u v count) :
    InOrder g s (Lib.Fifo.touchOwned (Lib.Fifo.touchOwned T (s, g.index u)) (s, g.index v)) u v
      count := by
  refine ⟨fun _ => Lib.Fifo.mem_touchOwned_self hv, ?_⟩
  intro hlt hnext
  by_contra hnone
  rw [not_or, not_or] at hnone
  obtain ⟨hgone, hne, hmiss⟩ := hnone
  obtain ⟨hlast, hmissv⟩ := Lib.Fifo.of_notMem_touchOwned_touchOwned hlength hu hgone
  rw [Lib.Fifo.map_snd_touchOwned, Lib.Fifo.map_snd_touchOwned,
    Lib.Fifo.touch_of_mem hlast.1] at hmiss
  exact h ⟨hlt, hnext, hlast, hmissv,
    fun hmem => hmiss (Lib.Fifo.mem_touch_of_mem_dropLast _ hmem), Ne.symm hne⟩

section Wrapper

variable {env : Env σ} {r : Residency σ} {knows : TlbOwners → σ → Prop} {refs : StoreId → TlbRef}
  {s t : StoreId} {vl vr : Uintptr} {n : SizeT}
  (hl : KnownRange env r knows refs s vl (toInt32 n).toNat)
  (hr : KnownRange env r knows refs t vr (toInt32 n).toNat) {T : TlbOwners} {w : World σ}
  (hres : TlbResident r knows refs T w)
include hl hr

/-- The wrapper links both operands and then runs its loop. -/
theorem memWrapper_cached_eq {fuel : Nat} {vlDirty vrDirty : Byte} {vl0 vr0 : Uintptr}
    {w₁ w₂ : World σ} (hrunl : linkOperand env (operandOf env vl vlDirty) vl w = .ok vl0 w₁)
    (hrunr : linkOperand env (operandOf env vr vrDirty) vr w₁ = .ok vr0 w₂) (func : MemFunction)
    (partialReturn : Bool) :
    carmorMemWrapper env fuel vl vlDirty vr vrDirty n func partialReturn w =
      memWrapperLoop env (cachedOp env vl vlDirty vr vrDirty func partialReturn) fuel (toInt32 n) vl0
        vr0 vl vr w₂ := by
  have hcarmor := isCarmorPtr_of_switchCase hl.tag
  have hdirect : lstoreTypeIsDirect env (if isCarmorPtr vl then vl else vr) = pure false := by
    rw [if_pos hcarmor, lstoreTypeIsDirect_eq hl.tag, hl.store.isCached]
  rw [memWrapper_eq fuel vlDirty vrDirty n func partialReturn (by simp [hcarmor]) hdirect (by simp)
    (hl.range.operandParameters_eq vlDirty) (hr.range.operandParameters_eq vrDirty)]
  exact (Lib.bind_of_ok hrunl _).trans (Lib.bind_of_ok hrunr _)

include hres

/-- The two initial faults. -/
theorem exists_linkOperands (vlDirty vrDirty : Byte) :
    ∃ vl0 vr0 w₁ w₂, linkOperand env (operandOf env vl vlDirty) vl w = .ok vl0 w₁ ∧
      linkOperand env (operandOf env vr vrDirty) vr w₁ = .ok vr0 w₂ ∧
      KnownFault env r knows refs s vl T w vl0 w₁ ∧
      KnownFault env r knows refs t vr
        (T.access refs (s, (r.geometry s).index (makeOriginalPointer vl))) w₁ vr0 w₂ := by
  have hpagel := hl.page_lt 0 (.inl rfl)
  have hpager := hr.page_lt 0 (.inl rfl)
  rw [cells_zero] at hpagel hpager
  obtain ⟨vl0, w₁, hrunl, hfaultl⟩ := hl.exists_pageFault hl.tag hpagel hres vlDirty
  obtain ⟨vr0, w₂, hrunr, hfaultr⟩ := hr.exists_pageFault hr.tag hpager hfaultl.resident vrDirty
  exact ⟨vl0, vr0, w₁, w₂, (congrFun (hl.linkOperand_eq _) w).trans hrunl,
    (congrFun (hr.linkOperand_eq _) w₁).trans hrunr, hfaultl, hfaultr⟩

/-- Past the two initial faults. -/
theorem exists_residentState (hfuncs : FuncsResident r w.trace)
    (hown : 0 < (toInt32 n).toNat → T.FindAllOwn refs (bulkFaults r.geometry s t
      (makeOriginalPointer vl) (makeOriginalPointer vr) (toInt32 n).toNat))
    (hdisplaced : t = s → ¬ Displaced (r.geometry s) ((T (refs s)).map Prod.snd)
      (makeOriginalPointer vl) (makeOriginalPointer vr) (toInt32 n).toNat)
    (vlDirty vrDirty : Byte) :
    ∃ T' vl0 vr0 w₁ w₂, linkOperand env (operandOf env vl vlDirty) vl w = .ok vl0 w₁ ∧
      linkOperand env (operandOf env vr vrDirty) vr w₁ = .ok vr0 w₂ ∧
      ResidentState r knows refs s t vl vr (toInt32 n).toNat T' 0 vl0 vr0 w₂ := by
  obtain ⟨vl0, vr0, w₁, w₂, hrunl, hrunr, hfaultl, hfaultr⟩ :=
    exists_linkOperands hl hr hres vlDirty vrDirty
  refine ⟨_, vl0, vr0, w₁, w₂, hrunl, hrunr, hfaultr.resident, fun hpos => ?_, fun hts hpos => ?_,
    fun hpos => (hown hpos).2.2, hfaultr.funcs (hfaultl.funcs hfuncs)⟩
  · obtain ⟨hownl, hownr, -⟩ := hown hpos
    have hpagel := hl.page_lt 0 (.inl rfl)
    rw [cells_zero] at hpagel
    rw [cells_zero, cells_zero]
    refine ⟨hfaultr.place_eq hl.tag hpagel (fun hst => .inl ?_) (hfaultl.placed hl.tag hownl),
      hfaultr.placed hr.tag hownr⟩
    subst hst
    rw [TlbOwners.access_self refs T (s, _)]
    exact Lib.Fifo.mem_touchOwned_self hownl
  · subst hts
    obtain ⟨hownl, hownr, -⟩ := hown hpos
    unfold TlbOwners.FindsOwn at hownr
    rw [TlbOwners.access_self refs T (t, _)] at hownr
    rw [cells_zero, cells_zero, TlbOwners.access_self refs _ (t, _),
      TlbOwners.access_self refs T (t, _)]
    exact inOrder_of_not_displaced (by rw [hres.valid.length]; decide) hownl hownr (hdisplaced rfl)

/-- The wrapper returns, and at its calls of `func` the operands are in the frames of their
pages. -/
theorem memWrapper_funcsResident (hfuncs : FuncsResident r w.trace)
    (hown : 0 < (toInt32 n).toNat → T.FindAllOwn refs (bulkFaults r.geometry s t
      (makeOriginalPointer vl) (makeOriginalPointer vr) (toInt32 n).toNat))
    (hdisplaced : t = s → ¬ Displaced (r.geometry s) ((T (refs s)).map Prod.snd)
      (makeOriginalPointer vl) (makeOriginalPointer vr) (toInt32 n).toNat)
    {fuel : Nat} (hfuel : (toInt32 n).toNat < fuel) (vlDirty vrDirty : Byte) (func : MemFunction)
    (partialReturn : Bool) :
    ∃ res w', carmorMemWrapper env fuel vl vlDirty vr vrDirty n func partialReturn w = .ok res w' ∧
      FuncsResident r w'.trace := by
  obtain ⟨T', vl0, vr0, w₁, w₂, hrunl, hrunr, hstate⟩ :=
    exists_residentState hl hr hres hfuncs hown hdisplaced vlDirty vrDirty
  rw [memWrapper_cached_eq hl hr hrunl hrunr]
  exact (resident_loopInvariant hl hr vlDirty vrDirty func partialReturn).returns_ctr
    ⟨hl.range.sized vlDirty, hr.range.sized vrDirty⟩ vl0 vr0 w₂ ⟨T', hstate⟩ hfuel

end Wrapper

end Carmor
