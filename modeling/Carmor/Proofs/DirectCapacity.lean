import Carmor.Process
import Carmor.Proofs.DirectStore
import Carmor.Proofs.Frames

/-!
# The capacity of the direct buffer

A thread has one direct buffer for all its direct stores. `__carmor_get_lstore_direct_buffer`
allocates it at the first access, with the page size of the store accessed then, and returns it for
every store after that. So whether a store's page fits depends on the order in which a run first
touches the stores.
-/

namespace Carmor

variable {σ α : Type}

/-! ## Accesses through the buffer -/

/-- The store of a call of `mpf_handler_d` or of `lstore_write_back`. -/
def Event.directStore : Event σ → Option StoreId
  | .mpfHandlerD s _ _ _ => some s
  | .lstoreWriteBack s _ _ _ => some s
  | _ => none

/-- The stores that a thread has accessed through its direct buffer, the latest first. -/
def World.directStores (w : World σ) : List StoreId := w.trace.filterMap Event.directStore

/-- The block at `buffer` has room for a page of the store and is aligned to it. -/
def LStore.PageFits (st : LStore σ) (sizes : Uintptr → Option Nat) (buffer : Uintptr) : Prop :=
  ∃ capacity, sizes buffer = some capacity ∧ st.lstoreGetMpageSize.toNat ≤ capacity ∧
    st.lstoreGetMpageSize.toNat ∣ buffer.toNat

/-- The `size` bytes at `buffer` are in the block there. -/
def InBlock (sizes : Uintptr → Option Nat) (buffer : Uintptr) (size : SizeT) : Prop :=
  ∃ capacity, sizes buffer = some capacity ∧ size.toNat ≤ capacity

/-- The buffer of an access has room for a page of its store, and the access is inside. The link
template has asserted that its access is at most a page long; a write-back may be longer. -/
def Event.FitsBuffer (env : Env σ) (sizes : Uintptr → Option Nat) : Event σ → Prop
  | .mpfHandlerD s _ dst size => (env.stores s).PageFits sizes dst ∧ InBlock sizes dst size
  | .lstoreWriteBack s _ src size => (env.stores s).PageFits sizes src ∧
      (size ≤ (env.stores s).lstoreGetMpageSize → InBlock sizes src size)
  | _ => True

/-- Every access of the thread so far has had a buffer that fits. -/
def World.BuffersFit (env : Env σ) (sizes : Uintptr → Option Nat) (w : World σ) : Prop :=
  ∀ e ∈ w.trace, e.FitsBuffer env sizes

/-- The page size of the store accessed first is a power of two, and a multiple of the page size of
every store accessed. -/
def World.FirstCovers (env : Env σ) (w : World σ) : Prop :=
  ∀ first, w.directStores.getLast? = some first →
    (env.stores first).lstoreGetMpageSize.toNat.isPowerOfTwo ∧
    ∀ s ∈ w.directStores,
      (env.stores s).lstoreGetMpageSize.toNat ∣ (env.stores first).lstoreGetMpageSize.toNat

/-! ## The heap under the runtime -/

/-- The blocks that the runtime owns are still there. -/
def KeepsBlocks (blocks : σ → Uintptr → Option Nat) (m m' : Machine σ) : Prop :=
  ∀ b size, blocks m.store b = some size → blocks m'.store b = some size

/-- `memalign` gives the runtime a block of the size asked for, aligned when the alignment is a
power of two, and no callback of a store frees or shrinks a block of the runtime. -/
structure DirectHeap (env : Env σ) (blocks : σ → Uintptr → Option Nat) : Prop where
  memalign : ∀ {n b : BitVec 64} {m m' : Machine σ}, env.libc.memalign n n m = .ok b m' → b ≠ 0 →
    blocks m'.store b = some n.toNat ∧ (n.toNat.isPowerOfTwo → n.toNat ∣ b.toNat)
  mpfHandlerC : ∀ s u, Lib.Respects (KeepsBlocks blocks) ((env.stores s).mpfHandlerC u)
  mpfHandlerD : ∀ s u dst n, Lib.Respects (KeepsBlocks blocks) ((env.stores s).mpfHandlerD u dst n)
  lstoreWriteBack : ∀ s u src n,
    Lib.Respects (KeepsBlocks blocks) ((env.stores s).lstoreWriteBack u src n)
  notifyTlbDropped : ∀ s u d,
    Lib.Respects (KeepsBlocks blocks) ((env.stores s).notifyTlbDropped u d)
  notifyTlbCached : ∀ s u, Lib.Respects (KeepsBlocks blocks) ((env.stores s).notifyTlbCached u)

/-! ## Runs -/

/-- A call that a thread makes on its direct stores. -/
inductive DirectOp where
  | link (ptr : Uintptr) (ptrSize : Int) (isVectorType dirty : Byte)
  | writeback (ptr : Uintptr) (ptrSize : Int)
  | memmove (dest src : Uintptr) (n : SizeT)
  | memcpy (dest src : Uintptr) (n : SizeT)
  | memcmp (vl vr : Uintptr) (n : SizeT)
  | memchr (dest : Uintptr) (c : Int) (n : SizeT)
  | memset (dest : Uintptr) (c : Int) (n : SizeT)

/-- The call. The templates are the instances of the pointer's store; for a pointer without a store
it does not matter whose they are. -/
def DirectOp.exec (env : Env σ) (fuel : Nat) : DirectOp → Exec σ Unit
  | .link ptr ptrSize isVectorType dirty => do
      let s := (switchCase ptr).getD .lstore0
      let _ ← carmorLinkDirectTemplate env s ptr ptrSize isVectorType dirty
  | .writeback ptr ptrSize =>
      carmorWritebackDirectTemplate env ((switchCase ptr).getD .lstore0) ptr ptrSize
  | .memmove dest src n => do let _ ← carmorMemmove env fuel dest src n
  | .memcpy dest src n => do let _ ← carmorMemcpy env fuel dest src n
  | .memcmp vl vr n => do let _ ← carmorMemcmp env fuel vl vr n
  | .memchr dest c n => do let _ ← carmorMemchr env fuel dest c n
  | .memset dest c n => do let _ ← carmorMemset env fuel dest c n

/-- A step of a run: a call returns, or the program around the calls changes memory and stores. -/
inductive DirectStep (env : Env σ) (blocks : σ → Uintptr → Option Nat) :
    World σ → Option DirectOp → World σ → Prop
  | call {w w' : World σ} {op : DirectOp} {fuel : Nat} :
      op.exec env fuel w = .ok () w' → DirectStep env blocks w (some op) w'
  | other {w : World σ} {m : Machine σ} :
      KeepsBlocks blocks w.toMachine m → DirectStep env blocks w none (w.withMachine m)

/-- The worlds that a thread reaches from its start: after a run, and where a call stops. -/
def DirectReached (env : Env σ) (blocks : σ → Uintptr → Option Nat) (w : World σ) : Prop :=
  ∃ w₀ ops w₁, w₀.toThread = Thread.fresh ∧ Lib.Run (DirectStep env blocks) w₀ ops w₁ ∧
    (w = w₁ ∨ ∃ op fuel, w = Lib.finalState (DirectOp.exec env fuel op w₁))

/-! ## The invariant -/

/-- An access of a thread whose buffer is at `buffer`. -/
def Event.UsesBuffer (env : Env σ) (buffer : Uintptr) : Event σ → Prop
  | .mpfHandlerD s _ dst size => dst = buffer ∧ size ≤ (env.stores s).lstoreGetMpageSize
  | .lstoreWriteBack _ _ src _ => src = buffer
  | _ => True

/-- Without a buffer there was no access. The buffer is a block for a page of the store that was
accessed first, and all accesses use it. -/
inductive BufferInv (env : Env σ) (blocks : σ → Uintptr → Option Nat) (w : World σ) : Prop
  | unallocated : w.gtDirectBuffer = 0 → w.directStores = [] → BufferInv env blocks w
  | allocated {first : StoreId} : w.gtDirectBuffer ≠ 0 →
      w.directStores.getLast? = some first →
      blocks w.store w.gtDirectBuffer = some (env.stores first).lstoreGetMpageSize.toNat →
      ((env.stores first).lstoreGetMpageSize.toNat.isPowerOfTwo →
        (env.stores first).lstoreGetMpageSize.toNat ∣ w.gtDirectBuffer.toNat) →
      (∀ e ∈ w.trace, e.UsesBuffer env w.gtDirectBuffer) → BufferInv env blocks w

/-- The computation keeps the invariant, also where it stops. -/
abbrev KeepsBufferInv (env : Env σ) (blocks : σ → Uintptr → Option Nat) (x : Exec σ α) : Prop :=
  Lib.Respects (fun w w' => BufferInv env blocks w → BufferInv env blocks w') x

theorem Event.usesBuffer_of_directStore_eq_none {env : Env σ} {e : Event σ}
    (h : e.directStore = none) (buffer : Uintptr) : e.UsesBuffer env buffer := by
  cases e with
  | mpfHandlerD | lstoreWriteBack => cases h
  | _ => trivial

theorem bufferInv_fresh {env : Env σ} {blocks : σ → Uintptr → Option Nat} {w : World σ}
    (h : w.toThread = Thread.fresh) : BufferInv env blocks w := by
  refine .unallocated (congrArg Thread.gtDirectBuffer h) ?_
  have htrace : w.trace = [] := congrArg Thread.trace h
  rw [World.directStores, htrace]
  rfl

section Invariant

variable {env : Env σ} {blocks : σ → Uintptr → Option Nat}

/-- Steps that leave the buffer alone keep the invariant. -/
theorem BufferInv.frame {w w' : World σ} (h : BufferInv env blocks w) (es : List (Event σ))
    (hbuffer : w'.gtDirectBuffer = w.gtDirectBuffer) (htrace : w'.trace = es ++ w.trace)
    (hes : ∀ e ∈ es, e.directStore = none)
    (hblocks : KeepsBlocks blocks w.toMachine w'.toMachine) : BufferInv env blocks w' := by
  have hstores : w'.directStores = w.directStores := by
    rw [World.directStores, htrace, List.filterMap_append, List.filterMap_eq_nil_iff.mpr hes]
    rfl
  cases h with
  | unallocated hnull hnone =>
    exact .unallocated (hbuffer.trans hnull) (hstores.trans hnone)
  | allocated hnull hfirst hblock haligned huses =>
    rw [← hbuffer] at hnull hblock haligned huses
    refine .allocated hnull (hstores ▸ hfirst) (hblocks _ _ hblock) haligned ?_
    intro e he
    rw [htrace] at he
    rcases List.mem_append.mp he with he | he
    · exact Event.usesBuffer_of_directStore_eq_none (hes e he) _
    · exact huses e he

theorem BufferInv.log {w : World σ} {e : Event σ} (h : BufferInv env blocks w)
    (he : e.directStore = none) : BufferInv env blocks (w.log e) :=
  h.frame [e] rfl rfl (by simpa using he) fun _ _ hb => hb

theorem keepsBufferInv_callStore {f : StoreExec σ α} (hf : Lib.Respects (KeepsBlocks blocks) f) :
    KeepsBufferInv env blocks (callStore f) := by
  intro w hw
  have hblocks := hf w.toMachine
  rw [callStore]
  cases hrun : f w.toMachine with
  | ok a m =>
    rw [hrun] at hblocks
    exact hw.frame [] rfl rfl (by simp) hblocks
  | error e m =>
    rw [hrun] at hblocks
    exact hw.frame [] rfl rfl (by simp) hblocks

/-- A request for the buffer stops without one, or returns a buffer that the access of the same
store may use. -/
theorem BufferInv.request {w : World σ} (h : BufferInv env blocks w) (hheap : DirectHeap env blocks)
    (s : StoreId) :
    (∃ stop w', carmorGetLstoreDirectBuffer env (env.stores s).lstoreGetMpageSize w =
      .error stop w' ∧ BufferInv env blocks w') ∨
    ∃ buffer w', carmorGetLstoreDirectBuffer env (env.stores s).lstoreGetMpageSize w =
      .ok buffer w' ∧ ∀ e : Event σ, e.directStore = some s → e.UsesBuffer env buffer →
        BufferInv env blocks (w'.log e) := by
  cases h with
  | unallocated hnull hnone =>
    cases halloc : env.libc.memalign (env.stores s).lstoreGetMpageSize
      (env.stores s).lstoreGetMpageSize w.toMachine with
    | error stop m =>
      have hget := getLstoreDirectBuffer_of_error hnull halloc
      exact .inl ⟨stop, _, hget, .unallocated hnull hnone⟩
    | ok buffer m =>
      by_cases hbuffer : buffer = 0
      · rw [hbuffer] at halloc
        have hget := getLstoreDirectBuffer_of_null hnull halloc
        exact .inl ⟨.assertFailed, _, hget, .unallocated rfl hnone⟩
      · obtain ⟨hsize, haligned⟩ := hheap.memalign halloc hbuffer
        refine .inr ⟨buffer, _, getLstoreDirectBuffer_eq (.allocated hnull halloc) hbuffer, ?_⟩
        intro e he huses
        have hstores : (((w.withMachine m).withDirectBuffer buffer).log e).directStores = [s] := by
          show List.filterMap _ (e :: w.trace) = [s]
          rw [List.filterMap_cons_some he]
          exact congrArg _ hnone
        refine .allocated hbuffer (by rw [hstores]; rfl) hsize haligned ?_
        intro d hd
        rcases List.mem_cons.mp hd with rfl | hd
        · exact huses
        · exact Event.usesBuffer_of_directStore_eq_none (List.filterMap_eq_nil_iff.mp hnone d hd) _
  | allocated hnull hfirst hblock haligned huses =>
    refine .inr ⟨w.gtDirectBuffer, _, getLstoreDirectBuffer_eq (.present rfl) hnull, ?_⟩
    intro e he hbuffer
    have hstores : (w.log e).directStores = s :: w.directStores := by
      rw [World.directStores, World.log_trace, List.filterMap_cons_some he]
      rfl
    refine .allocated (w := w.log e) hnull ?_ hblock haligned ?_
    · rw [hstores, List.getLast?_cons, hfirst]
      rfl
    · intro d hd
      rcases List.mem_cons.mp hd with rfl | hd
      · exact hbuffer
      · exact huses d hd

theorem keepsBufferInv_pure (a : α) : KeepsBufferInv env blocks (pure a : Exec σ α) :=
  Lib.respects_pure (fun _ h => h) a

theorem keepsBufferInv_throw (e : Stop) : KeepsBufferInv env blocks (throw e : Exec σ α) :=
  Lib.respects_throw (fun _ h => h) e

theorem keepsBufferInv_bind {β : Type} {x : Exec σ α} {f : α → Exec σ β}
    (hx : KeepsBufferInv env blocks x) (hf : ∀ a, KeepsBufferInv env blocks (f a)) :
    KeepsBufferInv env blocks (x >>= f) :=
  Lib.respects_bind (fun _ _ _ h h' hw => h' (h hw)) hx hf

variable (hheap : DirectHeap env blocks)
include hheap

/-! ## Calls -/

/-- An access: the buffer is requested, the access recorded, and the callback called. -/
theorem keepsBufferInv_access {s : StoreId} {e : Uintptr → Event σ} {x : Uintptr → Exec σ α}
    (hstore : ∀ b, (e b).directStore = some s) (huses : ∀ b, (e b).UsesBuffer env b)
    (hx : ∀ b, KeepsBufferInv env blocks (x b)) :
    KeepsBufferInv env blocks (do
      let dest ← carmorGetLstoreDirectBuffer env (env.stores s).lstoreGetMpageSize
      record (e dest)
      x dest) := by
  intro w hw
  rcases hw.request hheap s with ⟨stop, w', hget, hw'⟩ | ⟨buffer, w', hget, hlog⟩
  · rw [Lib.bind_of_error hget]
    exact hw'
  · rw [Lib.bind_of_ok hget, Lib.bind_of_ok (record_apply _ _)]
    exact hx buffer _ (hlog (e buffer) (hstore buffer) (huses buffer))

variable {s : StoreId} {p : Uintptr} (htag : ∀ t, switchCase p = some t → t = s)
include htag

omit hheap in
/-- The direct templates go on from the page size of the pointer's store. -/
theorem keepsBufferInv_directMpageSize {x : SizeT → Exec σ α}
    (hx : KeepsBufferInv env blocks (x (env.stores s).lstoreGetMpageSize)) :
    KeepsBufferInv env blocks (directMpageSize env p >>= x) := by
  cases hcase : switchCase p with
  | none =>
    rw [directMpageSize_of_none hcase]
    exact keepsBufferInv_throw .abort
  | some t =>
    obtain rfl := htag t hcase
    rw [directMpageSize_eq hcase]
    split
    · exact keepsBufferInv_throw .abort
    · exact hx

theorem keepsBufferInv_linkDirect (ptrSize : Int) (v d : Byte) :
    KeepsBufferInv env blocks (carmorLinkDirectTemplate env s p ptrSize v d) := by
  refine Lib.respects_ite (keepsBufferInv_pure p) ?_
  refine keepsBufferInv_directMpageSize htag ?_
  by_cases hsize : BitVec.ofInt 64 ptrSize ≤ (env.stores s).lstoreGetMpageSize
  · rw [decide_eq_true hsize]
    refine keepsBufferInv_bind (keepsBufferInv_pure ()) fun _ => ?_
    refine keepsBufferInv_access hheap (e := fun b => .mpfHandlerD s _ b _) (fun _ => rfl)
      (fun _ => ⟨rfl, hsize⟩) fun b => ?_
    exact keepsBufferInv_bind (keepsBufferInv_callStore (hheap.mpfHandlerD s _ b _)) fun _ =>
      keepsBufferInv_pure b
  · rw [decide_eq_false hsize]
    exact keepsBufferInv_throw .assertFailed

theorem keepsBufferInv_writebackDirect (ptrSize : Int) :
    KeepsBufferInv env blocks (carmorWritebackDirectTemplate env s p ptrSize) := by
  refine Lib.respects_ite (keepsBufferInv_pure ()) ?_
  refine keepsBufferInv_directMpageSize htag ?_
  exact keepsBufferInv_access hheap (e := fun b => .lstoreWriteBack s _ b _) (fun _ => rfl)
    (fun _ => rfl) fun b => keepsBufferInv_callStore (hheap.lstoreWriteBack s _ b _)

omit htag

theorem keepsBufferInv_tlbFrame (dirty : Byte) :
    TlbFrame env dirty (fun w w' => BufferInv env blocks w → BufferInv env blocks w') where
  refl _ hw := hw
  trans _ _ _ h h' hw := h' (h hw)
  log e w he hw := by
    refine hw.log ?_
    cases e with
    | mpfHandlerD | lstoreWriteBack => exact he.elim
    | _ => rfl
  mpfHandlerC s u := keepsBufferInv_callStore (hheap.mpfHandlerC s u)
  notifyTlbDropped s u d := keepsBufferInv_callStore (hheap.notifyTlbDropped s u d)
  notifyTlbCached s u := keepsBufferInv_callStore (hheap.notifyTlbCached s u)
  hit _ hw := hw.frame [] rfl rfl (by simp) fun _ _ hb => hb
  miss _ _ _ _ _ hw := hw.frame [] rfl rfl (by simp) fun _ _ hb => hb

variable (hinst : ∀ s, TemplateInstance env s)
include hinst

theorem keepsBufferInv_bulkFrame :
    BulkFrame env (fun w w' => BufferInv env blocks w → BufferInv env blocks w') where
  refl _ hw := hw
  trans _ _ _ h h' hw := h' (h hw)
  func w _ _ _ _ _ hw := hw.log rfl
  funcSingle w _ _ _ hw := hw.log rfl
  withMem w mem hw := hw.frame [] rfl rfl (by simp) fun _ _ hb => hb
  pageFault p dirty := by
    refine (keepsBufferInv_tlbFrame hheap dirty).pageFault hinst (fun w hw => hw.log rfl) ?_
    intro s htag
    have hstore : ∀ t, switchCase p = some t → t = s := fun t ht =>
      Option.some.inj (ht.symm.trans htag)
    exact keepsBufferInv_linkDirect hheap hstore 0 0 dirty
  writeback p n := by
    refine respects_writebackGeneric (fun _ hw => hw) hinst fun s htag => ?_
    exact keepsBufferInv_writebackDirect hheap (fun t ht => Option.some.inj (ht.symm.trans htag)) n

/-- Every outcome of a call keeps the invariant. -/
theorem keepsBufferInv_exec (fuel : Nat) (op : DirectOp) :
    KeepsBufferInv env blocks (op.exec env fuel) := by
  have hbulk := keepsBufferInv_bulkFrame hheap hinst
  have hinstance : ∀ p t, switchCase p = some t → t = (switchCase p).getD .lstore0 := by
    intro p t ht
    rw [ht]
    rfl
  cases op with
  | link ptr ptrSize isVectorType dirty =>
    exact keepsBufferInv_bind (keepsBufferInv_linkDirect hheap (hinstance ptr) _ _ _) fun _ =>
      keepsBufferInv_pure ()
  | writeback ptr ptrSize => exact keepsBufferInv_writebackDirect hheap (hinstance ptr) _
  | memmove dest src n | memcpy dest src n =>
    refine hbulk.bind (hbulk.bind ?_ fun _ => hbulk.pure _) fun _ => hbulk.pure _
    exact hbulk.memWrapper fuel dest src _ _ n _ _
  | memcmp vl vr n =>
    exact hbulk.bind (hbulk.memWrapper fuel vl vr _ _ n _ _) fun _ => hbulk.pure _
  | memchr dest c n =>
    exact hbulk.bind (hbulk.memWrapperSingle fuel dest c n _ _ _ _) fun _ => hbulk.pure _
  | memset dest c n =>
    refine hbulk.bind (hbulk.bind ?_ fun _ => hbulk.pure _) fun _ => hbulk.pure _
    exact hbulk.memWrapperSingle fuel dest c n _ _ _ _

/-- The invariant holds in every world that a thread reaches. -/
theorem bufferInv_of_reached {w : World σ} (hw : DirectReached env blocks w) :
    BufferInv env blocks w := by
  obtain ⟨w₀, ops, w₁, hfresh, hrun, hend⟩ := hw
  have hstep : ∀ v l v', l ∈ ops → BufferInv env blocks v → DirectStep env blocks v l v' →
      BufferInv env blocks v' := by
    rintro v l v' - hv hstep
    cases hstep with
    | @call _ op fuel hcall =>
      have hkeeps := keepsBufferInv_exec hheap hinst fuel op v hv
      rwa [hcall] at hkeeps
    | other hblocks => exact hv.frame [] rfl rfl (by simp) hblocks
  have hinv : BufferInv env blocks w₁ := hrun.invariant hstep (bufferInv_fresh hfresh)
  rcases hend with rfl | ⟨op, fuel, rfl⟩
  · exact hinv
  · exact keepsBufferInv_exec hheap hinst fuel op w₁ hinv

end Invariant

/-! ## The page of the first store decides -/

section Fit

variable {env : Env σ} {blocks : σ → Uintptr → Option Nat} {w : World σ}

theorem mem_directStores {e : Event σ} {s : StoreId} (he : e ∈ w.trace)
    (hs : e.directStore = some s) : s ∈ w.directStores :=
  List.mem_filterMap.mpr ⟨e, he, hs⟩

/-- A buffer for a page of the first store fits every store whose page size divides the first. -/
theorem BufferInv.buffersFit (hinv : BufferInv env blocks w) (hcovers : w.FirstCovers env) :
    w.BuffersFit env (blocks w.store) := by
  intro e he
  cases hinv with
  | unallocated hnull hnone =>
    have hother := List.filterMap_eq_nil_iff.mp hnone e he
    cases e with
    | mpfHandlerD | lstoreWriteBack => cases hother
    | _ => trivial
  | @allocated first hnull hfirst hblock haligned huses =>
    obtain ⟨hpow, hdvd⟩ := hcovers first hfirst
    have hpos : 0 < (env.stores first).lstoreGetMpageSize.toNat := by
      obtain ⟨k, hk⟩ := hpow
      rw [hk]
      exact Nat.two_pow_pos k
    have hfits : ∀ s ∈ w.directStores,
        (env.stores s).PageFits (blocks w.store) w.gtDirectBuffer := fun s hs =>
      ⟨_, hblock, Nat.le_of_dvd hpos (hdvd s hs), (hdvd s hs).trans (haligned hpow)⟩
    have hinside : ∀ s ∈ w.directStores, ∀ size ≤ (env.stores s).lstoreGetMpageSize,
        InBlock (blocks w.store) w.gtDirectBuffer size := fun s hs size hsize =>
      ⟨_, hblock, (BitVec.le_def.mp hsize).trans (Nat.le_of_dvd hpos (hdvd s hs))⟩
    have huse := huses e he
    cases e with
    | mpfHandlerD s ptr dst size =>
      obtain ⟨rfl, hsize⟩ := huse
      have hs := mem_directStores he rfl
      exact ⟨hfits s hs, hinside s hs size hsize⟩
    | lstoreWriteBack s ptr src size =>
      obtain rfl := huse
      have hs := mem_directStores he rfl
      exact ⟨hfits s hs, hinside s hs size⟩
    | _ => trivial

/-- When all buffers fit, the page of every store accessed fits that of the first. -/
theorem BufferInv.pageSize_le (hinv : BufferInv env blocks w)
    (hfit : w.BuffersFit env (blocks w.store)) {first s : StoreId}
    (hfirst : w.directStores.getLast? = some first) (hs : s ∈ w.directStores) :
    (env.stores s).lstoreGetMpageSize.toNat ≤ (env.stores first).lstoreGetMpageSize.toNat := by
  cases hinv with
  | unallocated hnull hnone =>
    rw [hnone] at hs
    cases hs
  | allocated hnull hfirst' hblock haligned huses =>
    obtain rfl := Option.some.inj (hfirst.symm.trans hfirst')
    have hle : ∀ {buffer}, buffer = w.gtDirectBuffer →
        (env.stores s).PageFits (blocks w.store) buffer →
        (env.stores s).lstoreGetMpageSize.toNat ≤ (env.stores first).lstoreGetMpageSize.toNat := by
      rintro buffer rfl ⟨capacity, hsize, hle, -⟩
      obtain rfl := Option.some.inj (hsize.symm.trans hblock)
      exact hle
    obtain ⟨e, he, hstore⟩ := List.mem_filterMap.mp hs
    have huse := huses e he
    have hfits := hfit e he
    cases e with
    | mpfHandlerD t ptr dst size =>
      obtain rfl := Option.some.inj hstore
      exact hle huse.1 hfits.1
    | lstoreWriteBack t ptr src size =>
      obtain rfl := Option.some.inj hstore
      exact hle huse hfits.1
    | _ => cases hstore

end Fit

/-- In every world that a thread reaches, all accesses have had a buffer that fits if the store
accessed first has the largest page. When the page sizes are powers of two, only then. -/
theorem directBuffers_fit {env : Env σ} {blocks : σ → Uintptr → Option Nat}
    (hheap : DirectHeap env blocks) (hinst : ∀ s, TemplateInstance env s) {w : World σ}
    (hw : DirectReached env blocks w) :
    (w.FirstCovers env → w.BuffersFit env (blocks w.store)) ∧
    ((∀ s ∈ w.directStores, (env.stores s).lstoreGetMpageSize.toNat.isPowerOfTwo) →
      w.BuffersFit env (blocks w.store) → w.FirstCovers env) := by
  have hinv := bufferInv_of_reached hheap hinst hw
  refine ⟨hinv.buffersFit, fun hpow hfit first hfirst => ?_⟩
  have hpowFirst := hpow first (List.mem_of_getLast? hfirst)
  refine ⟨hpowFirst, fun s hs => ?_⟩
  have hle := hinv.pageSize_le hfit hfirst hs
  obtain ⟨k, hk⟩ := hpow s hs
  obtain ⟨l, hl⟩ := hpowFirst
  rw [hk, hl] at hle ⊢
  exact Nat.pow_dvd_pow 2 ((Nat.pow_le_pow_iff_right (by decide)).mp hle)

/-! ## Two page sizes -/

/-- A direct store whose callbacks do nothing, with pages of 8 KiB at the second position and of
4 KiB at the others. -/
def twoSizesStore (s : StoreId)
    (link : Uintptr → Int → Byte → Byte → Exec (Uintptr → Option Nat) Uintptr)
    (writeback : Uintptr → Int → Exec (Uintptr → Option Nat) Unit) :
    LStore (Uintptr → Option Nat) where
  lstoreInit _ := pure 0
  lstoreIsDirect := true
  lstoreGetMpageSize := if s = .lstore1 then 0x2000 else 0x1000
  lstoreGetMpageBits := if s = .lstore1 then 13 else 12
  lstoreGetMpageCacheBasePtr := 0
  lstoreGetMstoragePage := id
  lstoreGetTlb := .own s
  lstoreGetMinSize := 0
  lstoreGetMaxSize := 1000000000000
  lstoreTag := makeMstorePtr s
  notifyTlbCached _ := pure ()
  notifyTlbDropped _ _ := pure ()
  mpfHandlerC _ := pure 0
  mpfHandlerD _ _ _ := pure ()
  lstoreWriteBack _ _ _ := pure ()
  lstoreAlloc _ := pure 0
  lstoreAllocSize _ := pure 0
  lstoreFree _ := pure ()
  carmorLink := link
  carmorGetValidIterations _ _ _ _ := pure 1
  carmorWritebackDirect := writeback

/-- Such stores, over a heap that places a block of `n` bytes at the address `n`. -/
def twoSizesEnv : Env (Uintptr → Option Nat) :=
  let libc : Libc (Uintptr → Option Nat) :=
    ⟨fun _ => pure 0, fun _ _ => pure 0, fun _ => pure (), fun _ n m =>
      .ok n { m with store := fun a => if a = n then some n.toNat else m.store a }⟩
  let unlinked : Env (Uintptr → Option Nat) :=
    ⟨fun s => twoSizesStore s (fun _ _ _ _ => throw .abort) fun _ _ => throw .abort, libc, 0x8000⟩
  ⟨fun s => twoSizesStore s (carmorLinkDirectTemplate unlinked s)
    (carmorWritebackDirectTemplate unlinked s), libc, 0x8000⟩

theorem twoSizesEnv_instance (s : StoreId) : TemplateInstance twoSizesEnv s where
  link := .inl rfl
  writeback := rfl

theorem twoSizesEnv_heap : DirectHeap twoSizesEnv id where
  memalign {n b m m'} h _ := by
    obtain ⟨rfl, rfl⟩ : n = b ∧ _ = m' := by
      constructor <;> injection h
    exact ⟨if_pos rfl, fun _ => dvd_rfl⟩
  mpfHandlerC _ _ _ _ _ h := h
  mpfHandlerD _ _ _ _ _ _ _ h := h
  lstoreWriteBack _ _ _ _ _ _ _ h := h
  notifyTlbDropped _ _ _ _ _ _ h := h
  notifyTlbCached _ _ _ _ _ h := h

/-- A thread at its start, before any block is allocated. -/
def twoSizesStart : World (Uintptr → Option Nat) where
  mem := fun _ => 0
  store := fun _ => none
  toThread := Thread.fresh

/-- The world after the links of 8 bytes of `s` and of `size` bytes of `t`. -/
def afterTwoLinks (s t : StoreId) (size : Int) : World (Uintptr → Option Nat) :=
  Lib.finalState ((do
    (DirectOp.link (makeMstorePtr s 0x100) 8 0 0).exec twoSizesEnv 0
    (DirectOp.link (makeMstorePtr t 0x100) size 0 0).exec twoSizesEnv 0) twoSizesStart)

theorem reached_afterTwoLinks {s t : StoreId} {size : Int}
    (h : Lib.succeeds ((do
      (DirectOp.link (makeMstorePtr s 0x100) 8 0 0).exec twoSizesEnv 0
      (DirectOp.link (makeMstorePtr t 0x100) size 0 0).exec twoSizesEnv 0) twoSizesStart) = true) :
    DirectReached twoSizesEnv id (afterTwoLinks s t size) := by
  obtain ⟨⟨⟩, hrun⟩ := Lib.exists_ok_of_succeeds h
  obtain ⟨⟨⟩, w₁, hfirst, hsecond⟩ := Lib.bind_eq_ok.mp hrun
  exact ⟨twoSizesStart, _, _, rfl, .cons (.call hfirst) (.cons (.call hsecond) (.nil _)), .inl rfl⟩

/-- The store with the larger pages comes first. -/
theorem directBuffers_fit_largeFirst :
    (afterTwoLinks .lstore1 .lstore0 0x1000).BuffersFit twoSizesEnv
      (afterTwoLinks .lstore1 .lstore0 0x1000).store := by
  refine (directBuffers_fit twoSizesEnv_heap twoSizesEnv_instance (reached_afterTwoLinks rfl)).1 ?_
  have hstores : (afterTwoLinks .lstore1 .lstore0 0x1000).directStores = [.lstore0, .lstore1] := rfl
  intro first hfirst
  rw [hstores] at hfirst ⊢
  obtain rfl : StoreId.lstore1 = first := Option.some.inj hfirst
  refine ⟨⟨13, rfl⟩, fun s hs => ?_⟩
  rcases List.mem_pair.mp hs with rfl | rfl
  · exact ⟨2, rfl⟩
  · exact dvd_rfl

/-- The store with the smaller pages comes first: an access of 8 KiB to the other gets a buffer of
4 KiB. -/
theorem not_buffersFit_smallFirst :
    DirectReached twoSizesEnv id (afterTwoLinks .lstore0 .lstore1 0x2000) ∧
    ¬ (afterTwoLinks .lstore0 .lstore1 0x2000).BuffersFit twoSizesEnv
      (afterTwoLinks .lstore0 .lstore1 0x2000).store := by
  refine ⟨reached_afterTwoLinks rfl, fun hfit => ?_⟩
  have htrace : (afterTwoLinks .lstore0 .lstore1 0x2000).trace =
      [.mpfHandlerD .lstore1 0x100 0x1000 0x2000, .mpfHandlerD .lstore0 0x100 0x1000 8] := rfl
  have hblock : (afterTwoLinks .lstore0 .lstore1 0x2000).store 0x1000 = some 0x1000 := rfl
  have hmem : Event.mpfHandlerD .lstore1 0x100 0x1000 0x2000 ∈
      (afterTwoLinks .lstore0 .lstore1 0x2000).trace := by
    rw [htrace]
    exact List.mem_cons_self
  obtain ⟨-, capacity, hsize, hle⟩ := hfit _ hmem
  obtain rfl := Option.some.inj (hsize.symm.trans hblock)
  exact absurd hle (by decide)

end Carmor
