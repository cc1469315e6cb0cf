import Carmor.Proofs.HeapCalls
import Carmor.Proofs.Memcpy
import Carmor.Proofs.SixFrames

/-!
# When a bulk operation uses a wrong frame

`funcsResident_iff` is the exact condition under which the operands of `__carmor_mem_wrapper` are
resident at every call of `func`, whatever the stores do that the contract allows: no fault of the
operation finds an entry of another store in a TLB that the stores share, and the TLB of operands in
one store is not `Displaced`. The stores with six frames show that both are necessary.
-/

namespace Carmor

variable {σ : Type}

/-- A range of storage addresses, on pages that have an index. -/
structure StorageRange (g : StoreGeometry) (x : Uintptr) (n : Nat) : Prop where
  lt : x.toNat < 2 ^ 60
  end_le : x.toNat + n ≤ 2 ^ 60
  page_lt : ∀ i, i = 0 ∨ i < n → g.page (cells x i) < 2 ^ 32 - 1

/-- The stores of two operands before an operation: `refs` are the TLBs that the stores use, and `T`
the entries in them. -/
structure BulkSetting (env : Env σ) (r : Residency σ) (knows : TlbOwners → σ → Prop)
    (g : StoreId → StoreGeometry) (refs : StoreId → TlbRef) (s t : StoreId) (T : TlbOwners)
    (w : World σ) : Prop where
  geometry : r.geometry = g
  left : KnownStore env r knows refs s
  right : KnownStore env r knows refs t
  resident : TlbResident r knows refs T w
  trace : w.trace = []

theorem StorageRange.knownRange {env : Env σ} {r : Residency σ} {knows : TlbOwners → σ → Prop}
    {refs : StoreId → TlbRef} {s : StoreId} {x : Uintptr} {n : Nat}
    (h : StorageRange (r.geometry s) x n) (hbits : (r.geometry s).pageBits ≤ 30)
    (hs : s ≠ .lstore3) (hstore : KnownStore env r knows refs s) :
    KnownRange env r knows refs s (makeMstorePtr s x) n where
  range := .tagged ⟨hs, hstore.isCached, hstore.geometry, hbits, hstore.link⟩ rfl h.lt h.end_le
  tag := switchCase_makeMstorePtr s h.lt
  store := hstore
  page_lt i hi := by
    rw [makeOriginalPointer_makeMstorePtr s h.lt]
    exact h.page_lt i hi

/-- An operand in store 3 makes the wrapper abort before it calls anything. -/
theorem memWrapper_lstore3 {env : Env σ} {s t : StoreId} {x y : Uintptr} (hx : x.toNat < 2 ^ 60)
    (hy : y.toNat < 2 ^ 60) (hcached : (env.stores s).lstoreIsDirect = false)
    (hst : s = .lstore3 ∨ t = .lstore3) (fuel : Nat) (vlDirty vrDirty : Byte) (n : SizeT)
    (func : MemFunction) (partialReturn : Bool) (w : World σ) :
    carmorMemWrapper env fuel (makeMstorePtr s x) vlDirty (makeMstorePtr t y) vrDirty n func
      partialReturn w = .error .abort w := by
  have htags := switchCase_makeMstorePtr s hx
  have htagt := switchCase_makeMstorePtr t hy
  have hcarmor := isCarmorPtr_makeMstorePtr s x
  have hdirect : lstoreTypeIsDirect env
      (if isCarmorPtr (makeMstorePtr s x) then makeMstorePtr s x else makeMstorePtr t y) =
        pure false := by
    rw [if_pos hcarmor, lstoreTypeIsDirect_eq htags, hcached]
  rw [memWrapper_eq_parameters fuel vlDirty vrDirty n func partialReturn (by simp [hcarmor]) hdirect
    (by simp)]
  by_cases hs : s = .lstore3
  · subst hs
    rw [Lib.bind_of_error (operandParameters_lstore3 htags)]
  · obtain rfl := hst.resolve_left hs
    rw [operandParameters_tagged htags hs, pure_bind,
      Lib.bind_of_error (operandParameters_lstore3 htagt)]

/-- Within the loop a call of `func` is made first. -/
theorem func_mem_memWrapperLoop {env : Env σ} (hinst : ∀ s, TemplateInstance env s) {b : BulkOp}
    (hb : b.Sized) (hcached : b.isLstoreDirect = false) (fuel : Nat) {n : Nat} (hn : 0 < n)
    (vl0 vr0 vl1 vr1 : Uintptr) (w : World σ) :
    ∃ k, Event.func w.store vl0 vr0 vl1 vr1 k ∈
      (Lib.finalState (memWrapperLoop env b (fuel + 1) n vl0 vr0 vl1 vr1 w)).trace := by
  have hrest : ∀ {α : Type} {x : Exec σ α} (k : Nat), HeapQuiet x →
      Event.func w.store vl0 vr0 vl1 vr1 (BitVec.ofNat 64 k) ∈
        (Lib.finalState (x (b.afterChunk vl0 vr0 vl1 vr1 k w))).trace := by
    intro α x k hx
    have hcalled : Event.func w.store vl0 vr0 vl1 vr1 (BitVec.ofNat 64 k) ∈
        (b.afterChunk vl0 vr0 vl1 vr1 k w).trace := List.mem_cons_self
    exact (hx (b.afterChunk vl0 vr0 vl1 vr1 k w)).trace_suffix.mem hcalled
  have hadvance : ∀ o left minLeft p q, HeapQuiet (advanceLinked env o left minLeft p q) :=
    fun o left minLeft p q =>
      heapQuiet_ite (heapQuiet_pageFault hinst _ _) (heapQuiet_pure _)
  by_cases hlast : n ≤ b.minLeft vl0 vr0
  · rw [memWrapperLoop_last hb hn hlast, Lib.bind_of_ok (chunkCall_cached hcached _ _ _ _ _ _)]
    exact ⟨_, hrest n (heapQuiet_ite (heapQuiet_pure _) (heapQuiet_memWrapperLoop hinst _ _ _ _ _ _ _))⟩
  · rw [memWrapperLoop_chunk hb rfl (by omega), Lib.bind_of_ok (chunkCall_cached hcached _ _ _ _ _ _)]
    refine ⟨_, hrest _ (heapQuiet_ite (heapQuiet_pure _) ?_)⟩
    refine heapQuiet_bind ?_ fun linked => heapQuiet_memWrapperLoop hinst _ _ _ _ _ _ _
    refine heapQuiet_bind (hadvance _ _ _ _ _) fun vl0' => ?_
    exact heapQuiet_bind (hadvance _ _ _ _ _) fun vr0' => heapQuiet_pure _

/-! ## Runs on six frames -/

section SixFrames

variable {refs : StoreId → TlbRef} {g : StoreId → StoreGeometry}

theorem sixFrameEnv_instance (s : StoreId) : TemplateInstance (sixFrameEnv refs g) s where
  link := .inr ⟨.inl rfl, g s, sixFrameEnv_geometry refs s⟩
  writeback := rfl

/-- An address in a frame of another store. -/
def Misplaced (g : StoreGeometry) (s : StoreId) (u a : Uintptr) : Prop :=
  ∃ o f, o ≠ s ∧ f ≤ tlbSize ∧ a = g.frameAddress (SixFrames.frameNumber o f) (g.inPage u)

/-- Such an address is never that of the page. -/
theorem Misplaced.not_holdsPage {s : StoreId} {p a : Uintptr} (hbits : (g s).pageBits ≤ 30)
    (h : Misplaced (g s) s (makeOriginalPointer p) a) (hp : switchCase p = some s)
    {c : SixFrames} (hc : ∀ s, (c.frame s).Valid) : ¬ HoldsPage (sixFrameResidency g) c p a := by
  obtain ⟨o, f, ho, hf, rfl⟩ := h
  intro hholds
  have hplace := hholds s hp
  rw [(sixFrameResidency g).place_tagged hp, Option.map_eq_some_iff] at hplace
  obtain ⟨number, hnumber, heq⟩ := hplace
  obtain ⟨f', hf', rfl⟩ := Option.map_eq_some_iff.mp hnumber
  have hle := (hc s).frame_le _ f' hf'
  have hlt := (g s).inPage_lt (makeOriginalPointer p)
  obtain ⟨hsame, -⟩ := (g s).frameAddress_inj (by omega) (SixFrames.frameNumber_lt hle)
    (SixFrames.frameNumber_lt hf) hlt hlt heq
  exact ho (SixFrames.frameNumber_inj hle hf hsame).symm

section Fault

variable {s : StoreId} {p a : Uintptr} {T : TlbOwners} {w w' : World SixFrames}
  (h : KnownFault (sixFrameEnv refs g) (sixFrameResidency g) (SixFrames.Knows refs) refs s p T w a w')
include h

theorem sixFrame_pageFault (hp : switchCase p = some s)
    (hw : TlbResident (sixFrameResidency g) (SixFrames.Knows refs) refs T w) :
    w'.store = w.store.access refs (g s) s (makeOriginalPointer p) ∧ w'.mem = w.mem := by
  obtain ⟨dirty, hrun⟩ := h.run
  have hlogged : TlbResident (sixFrameResidency g) (SixFrames.Knows refs) refs T
      (w.log (.pageFault p dirty)) := ⟨hw.valid, hw.known, hw.mapped⟩
  have hlink := (carmorPageFault_eq_ok (sixFrameEnv_geometry refs s) (.inl rfl) hp).mp hrun
  have hstep := sixFrame_linkStep s hlogged hlink
  exact hstep

/-- A fault that finds an entry of another store returns an address in a frame of that store. -/
theorem sixFrame_misplaced
    (hother : ¬ T.FindsOwn refs (s, (g s).index (makeOriginalPointer p))) :
    Misplaced (g s) s (makeOriginalPointer p) a := by
  obtain ⟨number, rfl, hnumber⟩ := h.address
  obtain ⟨f, hf, rfl⟩ := Option.map_eq_some_iff.mp hnumber
  refine ⟨_, f, fun heq => hother (Prod.ext heq (Lib.Fifo.found_snd _ _)),
    (h.resident.known.2.2 _).frame_le _ f hf, rfl⟩

end Fault

section Advance

variable {s : StoreId} {p a a' : Uintptr} {n i k : Nat} {T T' : TlbOwners} {w w' : World SixFrames}
  (h : KnownRange (sixFrameEnv refs g) (sixFrameResidency g) (SixFrames.Knows refs) refs s p n)
  (hadv : Advanced (sixFrameEnv refs g) (sixFrameResidency g) (SixFrames.Knows refs) refs s p i k a T
    w T' a' w') (hi : i + k < n)
include h hadv hi

theorem sixFrame_advanced_mem
    (hw : TlbResident (sixFrameResidency g) (SixFrames.Knows refs) refs T w) : w'.mem = w.mem := by
  cases hadv with
  | inside => rfl
  | ends hend hfault => exact (sixFrame_pageFault hfault (h.tag_cells hi) hw).2

/-- At the end of its page an operand is faulted on the next one. -/
theorem sixFrame_advanced_store
    (hw : TlbResident (sixFrameResidency g) (SixFrames.Knows refs) refs T w)
    (hend : k = (g s).rest (cells (makeOriginalPointer p) i)) :
    w'.store = w.store.access refs (g s) s (cells (makeOriginalPointer p) (i + k)) := by
  cases hadv with
  | inside hinside =>
    change k < (g s).rest _ at hinside
    omega
  | ends _ hfault => rw [(sixFrame_pageFault hfault (h.tag_cells hi) hw).1, h.orig_cells hi]

theorem sixFrame_advanced_misplaced (hk : 0 < k)
    (hother : ¬ T.FindAllOwn refs (pageFaultAt (g s) s (makeOriginalPointer p) (i + k))) :
    Misplaced (g s) s (makeOriginalPointer (cells p (i + k))) a' := by
  cases hadv with
  | inside hinside =>
    change k < (g s).rest _ at hinside
    rw [pageFaultAt_inside hk hinside] at hother
    exact absurd trivial hother
  | ends hend hfault =>
    change k = (g s).rest _ at hend
    refine sixFrame_misplaced hfault fun hown => hother ?_
    rw [pageFaultAt_end hend, ← h.orig_cells hi]
    exact ⟨hown, trivial⟩

end Advance

section Loop

variable {s t : StoreId} {vl vr : Uintptr} {n : Nat}
  (hl : KnownRange (sixFrameEnv refs g) (sixFrameResidency g) (SixFrames.Knows refs) refs s vl n)
  (hr : KnownRange (sixFrameEnv refs g) (sixFrameResidency g) (SixFrames.Knows refs) refs t vr n)
  {T : TlbOwners} {w : World SixFrames} {done : Nat} {vl0 vr0 : Uintptr}
include hl hr

/-- The call of `func` that follows on such an address. -/
theorem not_funcsResident_of_misplaced
    (hw : TlbResident (sixFrameResidency g) (SixFrames.Knows refs) refs T w) (hdone : done < n)
    (hbad : Misplaced (g s) s (makeOriginalPointer (cells vl done)) vl0 ∨
      Misplaced (g t) t (makeOriginalPointer (cells vr done)) vr0)
    (vlDirty vrDirty : Byte) (func : MemFunction) (partialReturn : Bool) {fuel : Nat}
    (hfuel : 0 < fuel) :
    ¬ FuncsResident (sixFrameResidency g) (Lib.finalState (memWrapperLoop (sixFrameEnv refs g)
      (cachedOp (sixFrameEnv refs g) vl vlDirty vr vrDirty func partialReturn) fuel (n - done : Nat)
      vl0 vr0 (cells vl done) (cells vr done) w)).trace := by
  obtain ⟨fuel, rfl⟩ : ∃ k, fuel = k + 1 := ⟨fuel - 1, by omega⟩
  obtain ⟨k, hcall⟩ := func_mem_memWrapperLoop sixFrameEnv_instance
    (b := cachedOp (sixFrameEnv refs g) vl vlDirty vr vrDirty func partialReturn)
    ⟨hl.range.sized vlDirty, hr.range.sized vrDirty⟩ rfl fuel (show 0 < n - done by omega)
    vl0 vr0 (cells vl done) (cells vr done) w
  intro hfuncs
  obtain ⟨hholdsl, hholdsr⟩ := hfuncs _ _ _ _ _ _ hcall
  rcases hbad with hbad | hbad
  · exact hbad.not_holdsPage hl.pageBits (hl.tag_cells hdone) hw.known.2.2 hholdsl
  · exact hbad.not_holdsPage hr.pageBits (hr.tag_cells hdone) hw.known.2.2 hholdsr

/-- A chunk after which the loop goes on, and the faults at its end. -/
theorem sixFrame_loopStep
    (hw : TlbResident (sixFrameResidency g) (SixFrames.Knows refs) refs T w)
    (hvl0 : AtOffset (g s) (cells (makeOriginalPointer vl) done) vl0)
    (hvr0 : AtOffset (g t) (cells (makeOriginalPointer vr) done) vr0)
    {vlDirty vrDirty : Byte} {func : MemFunction} {partialReturn : Bool}
    (hfunc : partialReturn = true → ∀ p q k, func p q k w.mem = (0, w.mem)) {left : Nat}
    (hleft : (cachedOp (sixFrameEnv refs g) vl vlDirty vr vrDirty func partialReturn).minLeft vl0
      vr0 = left) (hlt : done + left < n) (fuel : Nat) :
    ∃ T₁ T₂ vl0' vr0' w₁ w₂ w₃, w₁.store = w.store ∧ (partialReturn = true → w₁.mem = w.mem) ∧
      TlbResident (sixFrameResidency g) (SixFrames.Knows refs) refs T w₁ ∧
      Advanced (sixFrameEnv refs g) (sixFrameResidency g) (SixFrames.Knows refs) refs s vl done left
        vl0 T w₁ T₁ vl0' w₂ ∧
      Advanced (sixFrameEnv refs g) (sixFrameResidency g) (SixFrames.Knows refs) refs t vr done left
        vr0 T₁ w₂ T₂ vr0' w₃ ∧
      memWrapperLoop (sixFrameEnv refs g)
          (cachedOp (sixFrameEnv refs g) vl vlDirty vr vrDirty func partialReturn) (fuel + 1)
          (n - done : Nat) vl0 vr0 (cells vl done) (cells vr done) w =
        memWrapperLoop (sixFrameEnv refs g)
          (cachedOp (sixFrameEnv refs g) vl vlDirty vr vrDirty func partialReturn) fuel
          (n - (done + left) : Nat) vl0' vr0' (cells vl (done + left)) (cells vr (done + left))
          w₃ := by
  generalize hop : cachedOp (sixFrameEnv refs g) vl vlDirty vr vrDirty func partialReturn = op at *
  have hcached : op.isLstoreDirect = false := by rw [← hop]; rfl
  have hcalls : op.func = func := by rw [← hop]; rfl
  have hreturns : op.partialReturn = partialReturn := by rw [← hop]; rfl
  have hsized : op.Sized := by
    rw [← hop]
    exact ⟨hl.range.sized vlDirty, hr.range.sized vrDirty⟩
  have hchunk := @chunkCall_cached _ (sixFrameEnv refs g) op hcached vl0 vr0 (cells vl done)
    (cells vr done) left w
  have hres := hw.afterChunk op vl0 vr0 (cells vl done) (cells vr done) left
  have hstay : ¬ (op.partialReturn = true ∧ (op.func vl0 vr0 (BitVec.ofNat 64 left) w.mem).1 ≠ 0) := by
    rw [hreturns, hcalls]
    rintro ⟨hp, hne⟩
    rw [hfunc hp] at hne
    exact hne rfl
  obtain ⟨T₁, T₂, vl0', vr0', w₂, w₃, hrun, hadvl, hadvr⟩ :=
    exists_chunkAdvance hl hr vlDirty vrDirty func partialReturn hvl0 hvr0 hres hlt (hop ▸ hleft)
  rw [hop, ← cells_add, ← cells_add] at hrun
  have hloop := memWrapperLoop_next hsized fuel hleft (show left < n - done by omega) hchunk hstay
    hrun
  rw [cells_add, cells_add, Nat.sub_sub] at hloop
  refine ⟨T₁, T₂, vl0', vr0', op.afterChunk vl0 vr0 (cells vl done) (cells vr done) left w, w₂, w₃,
    rfl, fun hp => ?_, hres, hadvl, hadvr, hloop⟩
  show (op.func vl0 vr0 (BitVec.ofNat 64 left) w.mem).2 = w.mem
  rw [hcalls, hfunc hp]

/-- A loop with a fault ahead that finds an entry of another store. -/
theorem not_funcsResident_of_ahead
    (hw : TlbResident (sixFrameResidency g) (SixFrames.Knows refs) refs T w) (hdone : done < n)
    (hvl0 : AtOffset (g s) (cells (makeOriginalPointer vl) done) vl0)
    (hvr0 : AtOffset (g t) (cells (makeOriginalPointer vr) done) vr0)
    (hahead : ¬ T.FindAllOwn refs
      (chunkFaults g s t (makeOriginalPointer vl) (makeOriginalPointer vr) n done))
    (vlDirty vrDirty : Byte) {func : MemFunction} {partialReturn : Bool}
    (hfunc : partialReturn = true → ∀ p q k, func p q k w.mem = (0, w.mem)) {fuel : Nat}
    (hfuel : n - done < fuel) :
    ¬ FuncsResident (sixFrameResidency g) (Lib.finalState (memWrapperLoop (sixFrameEnv refs g)
      (cachedOp (sixFrameEnv refs g) vl vlDirty vr vrDirty func partialReturn) fuel (n - done : Nat)
      vl0 vr0 (cells vl done) (cells vr done) w)).trace := by
  induction fuel generalizing done vl0 vr0 w T with
  | zero => omega
  | succ fuel ih =>
    have hboundl := (g s).rest_bounds (cells (makeOriginalPointer vl) done)
    have hboundr := (g t).rest_bounds (cells (makeOriginalPointer vr) done)
    obtain ⟨left, hleft⟩ : ∃ left, (cachedOp (sixFrameEnv refs g) vl vlDirty vr vrDirty func
      partialReturn).minLeft vl0 vr0 = left := ⟨_, rfl⟩
    have hmin := hleft
    rw [minLeft_cachedOp hl hr vlDirty vrDirty func partialReturn hvl0 hvr0] at hmin
    change min ((g s).rest _) ((g t).rest _) = left at hmin
    have hlt : done + left < n := by
      by_contra hlast
      rw [chunkFaults_last (show left ≤ _ by omega) (show left ≤ _ by omega) (by omega)] at hahead
      exact hahead trivial
    obtain ⟨T₁, T₂, vl0', vr0', w₁, w₂, w₃, -, hmem₁, hres₁, hadvl, hadvr, hloop⟩ :=
      sixFrame_loopStep hl hr hw hvl0 hvr0 hfunc hleft hlt fuel
    have hres₂ := hadvl.resident hres₁
    have hres₃ := hadvr.resident hres₂
    rw [hloop]
    -- the first such fault is the left one, the right one or a later one
    rw [chunkFaults_eq (show left ≤ _ by omega) (show left ≤ _ by omega) (by omega) hlt] at hahead
    by_cases hownl : T.FindAllOwn refs (pageFaultAt (g s) s (makeOriginalPointer vl) (done + left))
    swap
    · exact not_funcsResident_of_misplaced hl hr hres₃ hlt
        (.inl (sixFrame_advanced_misplaced hl hadvl hlt (by omega) hownl)) vlDirty vrDirty func
        partialReturn (by omega)
    by_cases hownr : T₁.FindAllOwn refs (pageFaultAt (g t) t (makeOriginalPointer vr) (done + left))
    swap
    · exact not_funcsResident_of_misplaced hl hr hres₃ hlt
        (.inr (sixFrame_advanced_misplaced hr hadvr hlt (by omega) hownr)) vlDirty vrDirty func
        partialReturn (by omega)
    · refine ih hres₃ hlt (hadvl.atOffset hl hlt hvl0) (hadvr.atOffset hr hlt hvr0) ?_ ?_ (by omega)
      · intro hrest
        have hownersl : T₁ = (pageFaultAt (g s) s _ (done + left)).foldl _ T :=
          hadvl.owners hl hlt (by omega)
        have hownersr : T₂ = (pageFaultAt (g t) t _ (done + left)).foldl _ T₁ :=
          hadvr.owners hr hlt (by omega)
        refine hahead (Lib.Run.followed_append.mpr ⟨hownl, ?_⟩)
        rw [← hownersl]
        refine Lib.Run.followed_append.mpr ⟨hownr, ?_⟩
        rw [← hownersr]
        exact hrest
      · intro hp
        rw [sixFrame_advanced_mem hr hadvr hlt hres₂, sixFrame_advanced_mem hl hadvl hlt hres₁,
          hmem₁ hp]
        exact hfunc hp

end Loop

section Wrapper

variable {s t : StoreId} (hbits : ∀ q, (g q).pageBits ≤ 30) (hs : s ≠ .lstore3) (ht : t ≠ .lstore3)
  {x y : Uintptr} {n : SizeT} (hx : StorageRange (g s) x (toInt32 n).toNat)
  (hy : StorageRange (g t) y (toInt32 n).toNat) {T : TlbOwners} (hT : T.Valid refs)
include hbits hs ht hx hy hT

/-- An operation with a fault that finds an entry of another store. -/
theorem not_funcsResident_of_bulkFaults (hn : 0 < toInt32 n)
    (hother : ¬ T.FindAllOwn refs (bulkFaults g s t x y (toInt32 n).toNat)) (vlDirty vrDirty : Byte)
    {func : MemFunction} {partialReturn : Bool} {mem : Memory}
    (hfunc : partialReturn = true → ∀ p q k, func p q k mem = (0, mem)) {fuel : Nat}
    (hfuel : (toInt32 n).toNat < fuel) :
    ¬ FuncsResident (sixFrameResidency g) (Lib.finalState (carmorMemWrapper (sixFrameEnv refs g) fuel
      (makeMstorePtr s x) vlDirty (makeMstorePtr t y) vrDirty n func partialReturn
      (sixFrameWorld refs mem T))).trace := by
  have hl := hx.knownRange (r := sixFrameResidency g) (hbits s) hs (sixFrame_knownStore refs s)
  have hr := hy.knownRange (r := sixFrameResidency g) (hbits t) ht (sixFrame_knownStore refs t)
  have hres := sixFrameWorld_resident (g := g) mem hT
  have horigl := makeOriginalPointer_makeMstorePtr s hx.lt
  have horigr := makeOriginalPointer_makeMstorePtr t hy.lt
  generalize makeMstorePtr s x = vl at *
  generalize makeMstorePtr t y = vr at *
  obtain ⟨vl0, vr0, w₁, w₂, hrunl, hrunr, hfaultl, hfaultr⟩ :=
    exists_linkOperands hl hr hres vlDirty vrDirty
  have hmem₂ : w₂.mem = mem := by
    rw [(sixFrame_pageFault hfaultr hr.tag hfaultl.resident).2,
      (sixFrame_pageFault hfaultl hl.tag hres).2]
    rfl
  have hpos : 0 < (toInt32 n).toNat := by omega
  have hctr : toInt32 n = ((toInt32 n).toNat - 0 : Nat) := by omega
  rw [memWrapper_cached_eq hl hr hrunl hrunr, hctr]
  rw [← cells_zero vl] at hfaultl
  rw [← cells_zero vr, ← cells_zero vl] at hfaultr
  rw [← horigl, ← horigr] at hother
  have hstart : FuncsResident (sixFrameResidency g) (Lib.finalState (memWrapperLoop
      (sixFrameEnv refs g) (cachedOp (sixFrameEnv refs g) vl vlDirty vr vrDirty func partialReturn)
      fuel ((toInt32 n).toNat - 0 : Nat) vl0 vr0 (cells vl 0) (cells vr 0) w₂)).trace → False := by
    by_cases hownl : T.FindsOwn refs (s, (g s).index (makeOriginalPointer (cells vl 0)))
    swap
    · exact not_funcsResident_of_misplaced hl hr hfaultr.resident hpos
        (.inl (sixFrame_misplaced hfaultl hownl)) vlDirty vrDirty func partialReturn (by omega)
    by_cases hownr : (T.access refs (s, (g s).index (makeOriginalPointer (cells vl 0)))).FindsOwn refs
        (t, (g t).index (makeOriginalPointer (cells vr 0)))
    swap
    · exact not_funcsResident_of_misplaced hl hr hfaultr.resident hpos
        (.inr (sixFrame_misplaced hfaultr hownr)) vlDirty vrDirty func partialReturn (by omega)
    obtain ⟨fl, hfl, -⟩ := hfaultl.address
    obtain ⟨fr, hfr, -⟩ := hfaultr.address
    rw [hl.orig_cells hpos] at hfl hownl
    rw [hr.orig_cells hpos] at hfr hownr
    refine not_funcsResident_of_ahead hl hr hfaultr.resident hpos ⟨fl, hfl⟩ ⟨fr, hfr⟩ ?_ vlDirty
      vrDirty (fun hp => hmem₂ ▸ hfunc hp) (by omega)
    intro hahead
    rw [hl.orig_cells hpos, hr.orig_cells hpos] at hahead
    rw [cells_zero] at hownl hownr hahead
    rw [cells_zero] at hownr hahead
    exact hother ⟨hownl, hownr, hahead⟩
  rwa [cells_zero, cells_zero] at hstart

end Wrapper

section Displaced

variable {s : StoreId} (hbits : ∀ q, (g q).pageBits ≤ 30) (hs : s ≠ .lstore3) {x y : Uintptr}
  {n : SizeT} (hx : StorageRange (g s) x (toInt32 n).toNat)
  (hy : StorageRange (g s) y (toInt32 n).toNat) {T : TlbOwners} (hT : T.Valid refs)
  (hown : T.FindAllOwn refs (bulkFaults g s s x y (toInt32 n).toNat))
  (hdisplaced : Displaced (g s) ((T (refs s)).map Prod.snd) x y (toInt32 n).toNat)
include hbits hs hx hy hT hown hdisplaced

/-- On a displaced TLB the left operand's frame is reused before the second call of `func`, whose
operands are still in their first pages. -/
theorem Displaced.exists_lostCall (vlDirty vrDirty : Byte) {func : MemFunction}
    {partialReturn : Bool} {mem : Memory}
    (hfunc : partialReturn = true → ∀ p q k, func p q k mem = (0, mem)) (fuel : Nat) :
    ∃ st vl0 vr0 k, Event.func st vl0 vr0 (cells (makeMstorePtr s x) ((g s).rest y))
        (cells (makeMstorePtr s y) ((g s).rest y)) k ∈
      (Lib.finalState (carmorMemWrapper (sixFrameEnv refs g) (fuel + 2) (makeMstorePtr s x) vlDirty
        (makeMstorePtr s y) vrDirty n func partialReturn (sixFrameWorld refs mem T))).trace ∧
      st.frame s ((g s).page x) = none := by
  have hl := hx.knownRange (r := sixFrameResidency g) (hbits s) hs (sixFrame_knownStore refs s)
  have hr := hy.knownRange (r := sixFrameResidency g) (hbits s) hs (sixFrame_knownStore refs s)
  have hres := sixFrameWorld_resident (g := g) mem hT
  have horigl := makeOriginalPointer_makeMstorePtr s hx.lt
  have horigr := makeOriginalPointer_makeMstorePtr s hy.lt
  generalize makeMstorePtr s x = vl at *
  generalize makeMstorePtr s y = vr at *
  have hlt : 0 + (g s).rest y < (toInt32 n).toNat := by
    rw [Nat.zero_add]
    exact hdisplaced.next
  -- the two initial faults
  obtain ⟨vl0, vr0, w₁, w₂, hrunl, hrunr, hfaultl, hfaultr⟩ :=
    exists_linkOperands hl hr hres vlDirty vrDirty
  obtain ⟨hstore₁, hmem₁⟩ := sixFrame_pageFault hfaultl hl.tag hres
  obtain ⟨hstore₂, hmem₂⟩ := sixFrame_pageFault hfaultr hr.tag hfaultl.resident
  rw [horigl] at hstore₁
  rw [horigr] at hstore₂
  have hrestl : (g s).rest (cells (makeOriginalPointer vl) 0) = (g s).rest x := by
    rw [cells_zero, horigl]
  have hrestr : (g s).rest (cells (makeOriginalPointer vr) 0) = (g s).rest y := by
    rw [cells_zero, horigr]
  -- the first call, up to the end of the page of the right operand
  have hmin : (cachedOp (sixFrameEnv refs g) vl vlDirty vr vrDirty func partialReturn).minLeft vl0
      vr0 = (g s).rest y := by
    refine (minLeft_cachedOp hl hr vlDirty vrDirty func partialReturn hfaultl.atOffset
      hfaultr.atOffset).trans ?_
    show min ((g s).rest _) ((g s).rest _) = _
    rw [hrestl, hrestr]
    exact Nat.min_eq_right (Nat.le_of_lt hdisplaced.rest_lt)
  -- the fault after it takes the frame of the left operand
  obtain ⟨T₁, T₂, vl0', vr0', w₃, w₄, w₅, hstore₃, -, hres₃, hadvl, hadvr, hloop⟩ :=
    sixFrame_loopStep hl hr hfaultr.resident hfaultl.atOffset hfaultr.atOffset
      (fun hp p q k => by rw [hmem₂, hmem₁]; exact hfunc hp p q k) hmin hlt (fuel + 1)
  have hinside : w₄ = w₃ := by
    refine hadvl.eq_of_inside ?_
    show (g s).rest y < (g s).rest _
    rw [hrestl]
    exact hdisplaced.rest_lt
  have hstore₅ := sixFrame_advanced_store hr hadvr hlt (hadvl.resident hres₃) hrestr.symm
  rw [hinside, horigr] at hstore₅
  rw [Nat.zero_add] at hstore₅ hlt hloop
  rw [Nat.sub_zero, cells_zero, cells_zero] at hloop
  -- the second call
  obtain ⟨k, hcall⟩ := func_mem_memWrapperLoop sixFrameEnv_instance
    (b := cachedOp (sixFrameEnv refs g) vl vlDirty vr vrDirty func partialReturn)
    ⟨hl.range.sized vlDirty, hr.range.sized vrDirty⟩ rfl fuel
    (show 0 < (toInt32 n).toNat - (g s).rest y by omega) vl0' vr0'
    (cells vl ((g s).rest y)) (cells vr ((g s).rest y)) w₅
  have hctr : toInt32 n = ((toInt32 n).toNat : Int) := by omega
  have hlost : w₅.store.frame s ((g s).page x) = none := by
    rw [hstore₅, hstore₃, hstore₂, hstore₁]
    have hpagel := hx.page_lt 0 (.inl rfl)
    have hpager := hy.page_lt 0 (.inl rfl)
    rw [cells_zero] at hpagel hpager
    exact SixFrames.frame_lost hT hdisplaced hown.1 hpagel hpager (hy.page_lt _ (.inr hlt))
  rw [memWrapper_cached_eq hl hr hrunl hrunr, hctr, hloop]
  exact ⟨w₅.store, vl0', vr0', k, hcall, hlost⟩

/-- On a displaced TLB the second call of `func` finds the left operand's frame reused. -/
theorem Displaced.not_funcsResident (vlDirty vrDirty : Byte) {func : MemFunction}
    {partialReturn : Bool} {mem : Memory}
    (hfunc : partialReturn = true → ∀ p q k, func p q k mem = (0, mem)) (fuel : Nat) :
    ¬ FuncsResident (sixFrameResidency g) (Lib.finalState (carmorMemWrapper (sixFrameEnv refs g)
      (fuel + 2) (makeMstorePtr s x) vlDirty (makeMstorePtr s y) vrDirty n func partialReturn
      (sixFrameWorld refs mem T))).trace := by
  have hl := hx.knownRange (r := sixFrameResidency g) (hbits s) hs (sixFrame_knownStore refs s)
  have horigl := makeOriginalPointer_makeMstorePtr s hx.lt
  obtain ⟨st, vl0, vr0, k, hcall, hlost⟩ :=
    hdisplaced.exists_lostCall hbits hs hx hy hT hown vlDirty vrDirty hfunc fuel
  generalize makeMstorePtr s x = vl at *
  have hinside : (g s).rest y < (g s).rest (cells x 0) := by
    rw [cells_zero]
    exact hdisplaced.rest_lt
  have hpage : (g s).page (cells x ((g s).rest y)) = (g s).page x := by
    have hsame := StoreGeometry.page_inside hinside
    rwa [cells_zero, Nat.zero_add] at hsame
  intro hfuncs
  obtain ⟨hholds, -⟩ := hfuncs st vl0 vr0 _ _ k hcall
  have hplace := hholds s (hl.tag_cells hdisplaced.next)
  rw [hl.place_cells hdisplaced.next, horigl] at hplace
  change Option.map _ (Option.map _ (st.frame s ((g s).page _))) = _ at hplace
  rw [hpage, hlost] at hplace
  cases hplace

end Displaced

end SixFrames

/-! ## The condition -/

/-- The stores with six frames in a world whose TLBs hold the entries `T`. -/
theorem sixFrame_bulkSetting (refs : StoreId → TlbRef) (g : StoreId → StoreGeometry) (s t : StoreId)
    (mem : Memory) {T : TlbOwners} (hT : T.Valid refs) :
    BulkSetting (sixFrameEnv refs g) (sixFrameResidency g) (SixFrames.Knows refs) g refs s t T
      (sixFrameWorld refs mem T) :=
  ⟨rfl, sixFrame_knownStore refs s, sixFrame_knownStore refs t, sixFrameWorld_resident mem hT, rfl⟩

/-- The condition is enough, whatever the stores do. -/
theorem BulkSetting.funcsResident {env : Env σ} {r : Residency σ} {knows : TlbOwners → σ → Prop}
    {g : StoreId → StoreGeometry} (hbits : ∀ q, (g q).pageBits ≤ 30) {refs : StoreId → TlbRef}
    {s t : StoreId} {T : TlbOwners} {w : World σ} (h : BulkSetting env r knows g refs s t T w)
    {x y : Uintptr} {n : SizeT} (hx : StorageRange (g s) x (toInt32 n).toNat)
    (hy : StorageRange (g t) y (toInt32 n).toNat)
    (hcond : s = .lstore3 ∨ t = .lstore3 ∨ toInt32 n ≤ 0 ∨
      T.FindAllOwn refs (bulkFaults g s t x y (toInt32 n).toNat) ∧
        ¬ (t = s ∧ Displaced (g s) ((T (refs s)).map Prod.snd) x y (toInt32 n).toNat))
    (vlDirty vrDirty : Byte) (func : MemFunction) (partialReturn : Bool) {fuel : Nat}
    (hfuel : (toInt32 n).toNat < fuel) :
    FuncsResident r (Lib.finalState (carmorMemWrapper env fuel (makeMstorePtr s x) vlDirty
      (makeMstorePtr t y) vrDirty n func partialReturn w)).trace := by
  have hquiet : FuncsResident r w.trace := by
    intro st vl0 vr0 vl1 vr1 k hmem
    rw [h.trace] at hmem
    cases hmem
  obtain rfl := h.geometry
  by_cases hthree : s = .lstore3 ∨ t = .lstore3
  · rw [memWrapper_lstore3 hx.lt hy.lt h.left.isCached hthree]
    exact hquiet
  · rw [not_or] at hthree
    have hrun := (hcond.resolve_left hthree.1).resolve_left hthree.2
    have hl := hx.knownRange (hbits s) hthree.1 h.left
    have hr := hy.knownRange (hbits t) hthree.2 h.right
    have horigl := makeOriginalPointer_makeMstorePtr s hx.lt
    have horigr := makeOriginalPointer_makeMstorePtr t hy.lt
    have hown : 0 < (toInt32 n).toNat → T.FindAllOwn refs (bulkFaults r.geometry s t
        (makeOriginalPointer (makeMstorePtr s x)) (makeOriginalPointer (makeMstorePtr t y))
        (toInt32 n).toNat) := by
      intro hpos
      rw [horigl, horigr]
      exact (hrun.resolve_left (by omega)).1
    have hdisplaced : t = s → ¬ Displaced (r.geometry s) ((T (refs s)).map Prod.snd)
        (makeOriginalPointer (makeMstorePtr s x)) (makeOriginalPointer (makeMstorePtr t y))
        (toInt32 n).toNat := by
      intro hts hdisplaced
      rw [horigl, horigr] at hdisplaced
      have hnext := hdisplaced.next
      exact (hrun.resolve_left (by omega)).2 ⟨hts, hdisplaced⟩
    obtain ⟨res, w', hret, hfuncs⟩ := memWrapper_funcsResident hl hr h.resident hquiet hown
      hdisplaced hfuel vlDirty vrDirty func partialReturn
    rw [hret]
    exact hfuncs

/-- `memcmp` of equal bytes. -/
theorem compareBytes_const (c : Byte) (p q : Uintptr) (n : Nat) :
    compareBytes (fun _ => c) p q n = 0 := by
  induction n generalizing p q with
  | zero => rfl
  | succ n ih =>
    unfold compareBytes
    rw [if_pos rfl]
    exact ih _ _

theorem smallGeometry_storageRange {x n : Nat} (hx : x < 0x100000) (hn : x + n ≤ 0x100000) :
    StorageRange smallGeometry (BitVec.ofNat 64 x) n := by
  have hnat := toNat_ofNat_of_lt (show x < 2 ^ 64 by omega)
  refine ⟨by omega, by omega, ?_⟩
  intro i hi
  have hsum := toNat_add_ofNat (p := BitVec.ofNat 64 x) (i := i) (by omega)
  show (BitVec.ofNat 64 x + BitVec.ofNat 64 i - 0#64).toNat / 0x1000 < _
  rw [BitVec.sub_zero, hsum, hnat]
  omega

/-- The entries of `gt_TLB` after `__carmor_initialize_template`. -/
def emptyOwners : TlbOwners := fun _ => List.replicate tlbSize (.lstore0, emptyIndex)

theorem emptyOwners_valid (refs : StoreId → TlbRef) : emptyOwners.Valid refs :=
  ⟨fun _ => List.length_replicate, fun _ _ he => .inl (congrArg Prod.snd (List.eq_of_mem_replicate he))⟩

/-- A `gt_TLB` with pages of `lstore0`, of which page 1 is in the last entry. -/
def displacedOwners : TlbOwners := fun _ =>
  [(.lstore0, 12), (.lstore0, 11), (.lstore0, 10), (.lstore0, 9), (.lstore0, 1)]

theorem displacedOwners_valid : displacedOwners.Valid fun _ => .gtTLB :=
  ⟨fun _ => rfl, fun _ _ _ => .inr rfl⟩

theorem displacedOwners_displaced :
    Displaced smallGeometry ((displacedOwners .gtTLB).map Prod.snd) 0x1000 0x5ff8 16 := by
  constructor <;> decide +kernel

end Carmor
