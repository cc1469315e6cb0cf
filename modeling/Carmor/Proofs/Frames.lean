import Carmor.Proofs.BulkSteps
import Carmor.Proofs.LinkSteps

/-!
# Frames of the links and of the bulk operations

What every outcome of a page fault or of a bulk operation keeps, bottom up, for any relation between
worlds: `LinkFrame` lists the steps of a link, and the bulk operations ask for their page faults and
for their calls on chunks.
-/

namespace Carmor

variable {σ α β : Type}

/-- The events of a link, and of the page fault that asks for it. -/
def Event.IsLink : Event σ → Prop
  | .tlbHit .. | .mpfHandlerC .. | .notifyTlbDropped .. | .notifyTlbCached .. => True
  | .mpfHandlerD .. | .pageFault .. => True
  | _ => False

/-- The steps of a link with the flag `dirty` move the world along `R`. -/
structure LinkFrame (env : Env σ) (dirty : Byte) (R : World σ → World σ → Prop) : Prop where
  refl : ∀ w, R w w
  trans : ∀ w w₁ w', R w w₁ → R w₁ w' → R w w'
  log : ∀ (e : Event σ) w, e.IsLink → R w (w.log e)
  mpfHandlerC : ∀ s u, Lib.Respects R (callStore ((env.stores s).mpfHandlerC u))
  mpfHandlerD : ∀ s u dst, Lib.Respects R (callStore ((env.stores s).mpfHandlerD u dst 0))
  notifyTlbDropped : ∀ s u d, Lib.Respects R (callStore ((env.stores s).notifyTlbDropped u d))
  notifyTlbCached : ∀ s u, Lib.Respects R (callStore ((env.stores s).notifyTlbCached u))
  memalign : ∀ n, Lib.Respects R (callStore (env.libc.memalign n n))
  hit : ∀ {w : World σ} {r page entry tlb'}, (w.tlb r).lookup page dirty = some (entry, tlb') →
    R w (w.withTlb r tlb')
  miss : ∀ s u res (w : World σ) r, R w (w.withTlb r
    ((w.tlb r).push (missEntry (env.stores s) u res dirty)))
  gtDirectBuffer : ∀ (w : World σ) buffer, R w { w with gtDirectBuffer := buffer }

/-- The steps of a link through the TLB with the flag `dirty` move the world along `R`. -/
structure TlbFrame (env : Env σ) (dirty : Byte) (R : World σ → World σ → Prop) : Prop where
  refl : ∀ w, R w w
  trans : ∀ w w₁ w', R w w₁ → R w₁ w' → R w w'
  log : ∀ (e : Event σ) w, e.IsTlb → R w (w.log e)
  mpfHandlerC : ∀ s u, Lib.Respects R (callStore ((env.stores s).mpfHandlerC u))
  notifyTlbDropped : ∀ s u d, Lib.Respects R (callStore ((env.stores s).notifyTlbDropped u d))
  notifyTlbCached : ∀ s u, Lib.Respects R (callStore ((env.stores s).notifyTlbCached u))
  hit : ∀ {w : World σ} {r page entry tlb'}, (w.tlb r).lookup page dirty = some (entry, tlb') →
    R w (w.withTlb r tlb')
  miss : ∀ s u res (w : World σ) r, R w (w.withTlb r
    ((w.tlb r).push (missEntry (env.stores s) u res dirty)))

namespace TlbFrame

variable {env : Env σ} {dirty : Byte} {R : World σ → World σ → Prop} (h : TlbFrame env dirty R)
include h

theorem pure (a : α) : Lib.Respects R (pure a : Exec σ α) := Lib.respects_pure h.refl a

theorem throw (e : Stop) : Lib.Respects R (throw e : Exec σ α) := Lib.respects_throw h.refl e

theorem bind {x : Exec σ α} {f : α → Exec σ β} (hx : Lib.Respects R x)
    (hf : ∀ a, Lib.Respects R (f a)) : Lib.Respects R (x >>= f) :=
  Lib.respects_bind h.trans hx hf

theorem record (e : Event σ) (he : e.IsTlb) : Lib.Respects R (record e) := fun w => h.log e w he

theorem cAssert (c : Bool) : Lib.Respects R (cAssert c : Exec σ Unit) :=
  Lib.respects_ite (h.pure ()) (h.throw .assertFailed)

theorem dropLastEntry (s : StoreId) (u : Uintptr) : Lib.Respects R (dropLastEntry env s u) := by
  refine h.bind (fun w => h.refl w) fun tlb => Lib.respects_ite ?_ (h.pure _)
  exact h.bind (h.record _ trivial) fun _ => h.notifyTlbDropped _ _ _

theorem insertEntry (s : StoreId) (u res : Uintptr) :
    Lib.Respects R (insertEntry env s u res dirty) := by
  refine h.bind (h.record _ trivial) fun _ => h.bind (h.notifyTlbCached _ _) fun _ => ?_
  intro w
  rw [Lib.bind_of_ok (getTlb_apply w _)]
  exact h.miss _ _ _ _ _

theorem linkThroughTlb (s : StoreId) (u : Uintptr) (ptrSize : Int) :
    Lib.Respects R (linkThroughTlb env s u ptrSize dirty) := by
  intro w
  unfold Carmor.linkThroughTlb
  rw [Lib.bind_of_ok (getTlb_apply w _)]
  cases hlookup : (w.tlb (env.stores s).lstoreGetTlb).lookup (bsPageIndex (env.stores s) u) dirty with
  | some hit =>
    obtain ⟨entry, tlb'⟩ := hit
    simp only []
    rw [Lib.bind_of_ok (setTlb_apply w _ _)]
    refine h.trans _ _ _ (h.hit hlookup) ?_
    exact h.bind (h.record (.tlbHit s entry) trivial)
      (fun _ => h.bind (h.cAssert _) fun _ => h.pure _) _
  | none =>
    refine h.bind (h.mpfHandlerC _ _) (fun res => ?_) w
    refine h.bind (h.record _ trivial) fun _ => h.bind (h.dropLastEntry _ _) fun _ => ?_
    exact h.bind (h.insertEntry _ _ _) fun _ => h.bind (h.cAssert _) fun _ => h.pure _

end TlbFrame

theorem Event.IsTlb.isLink {e : Event σ} (h : e.IsTlb) : e.IsLink := by
  cases e with
  | tlbHit | mpfHandlerC | notifyTlbDropped | notifyTlbCached => trivial
  | _ => exact h.elim

theorem LinkFrame.tlb {env : Env σ} {dirty : Byte} {R : World σ → World σ → Prop}
    (h : LinkFrame env dirty R) : TlbFrame env dirty R where
  refl := h.refl
  trans := h.trans
  log e w he := h.log e w he.isLink
  mpfHandlerC := h.mpfHandlerC
  notifyTlbDropped := h.notifyTlbDropped
  notifyTlbCached := h.notifyTlbCached
  hit := h.hit
  miss := h.miss

namespace LinkFrame

variable {env : Env σ} {dirty : Byte} {R : World σ → World σ → Prop} (h : LinkFrame env dirty R)
include h

theorem record (e : Event σ) (he : e.IsLink) : Lib.Respects R (record e) := fun w => h.log e w he

/-! ## Links of direct stores -/

theorem getDirectBuffer (n : SizeT) : Lib.Respects R (carmorGetLstoreDirectBuffer env n) := by
  have hget : Lib.Respects R (get : Exec σ (World σ)) := fun w => h.refl w
  refine h.tlb.bind hget fun w => Lib.respects_ite ?_ (h.tlb.bind hget fun _ => h.tlb.pure _)
  refine h.tlb.bind (h.memalign n) fun buffer => ?_
  refine h.tlb.bind (fun w => h.gtDirectBuffer w buffer) fun _ => ?_
  exact h.tlb.bind (h.tlb.cAssert _) fun _ => h.tlb.bind hget fun _ => h.tlb.pure _

theorem directMpageSize (p : Uintptr) : Lib.Respects R (directMpageSize env p) := by
  unfold Carmor.directMpageSize
  split
  · exact h.tlb.pure _
  · exact h.tlb.pure _
  · exact h.tlb.pure _
  · exact h.tlb.throw _
  · exact h.tlb.throw _

theorem linkDirect (s : StoreId) (p : Uintptr) (v d : Byte) :
    Lib.Respects R (carmorLinkDirectTemplate env s p 0 v d) := by
  refine Lib.respects_ite (h.tlb.pure _) ?_
  refine h.tlb.bind (h.directMpageSize _) fun size => h.tlb.bind (h.tlb.cAssert _) fun _ => ?_
  refine h.tlb.bind (h.getDirectBuffer _) fun dest => h.tlb.bind (h.record _ trivial) fun _ => ?_
  exact h.tlb.bind (h.mpfHandlerD _ _ _) fun _ => h.tlb.pure _

end LinkFrame

/-- The functions that the compiler instantiates for store `s` are instances of the templates for
cached or for direct stores. -/
structure TemplateInstance (env : Env σ) (s : StoreId) : Prop where
  link : (env.stores s).carmorLink = carmorLinkDirectTemplate env s ∨
    CachedInstance env s ∧ ∃ g, (env.stores s).HasGeometry g
  writeback : (env.stores s).carmorWritebackDirect = carmorWritebackDirectTemplate env s

/-- A page fault is recorded and becomes a link of its pointer's store. -/
theorem TlbFrame.pageFault {env : Env σ} {dirty : Byte} {R : World σ → World σ → Prop}
    (h : TlbFrame env dirty R) (hinst : ∀ s, TemplateInstance env s) {p : Uintptr}
    (hlog : ∀ w, R w (w.log (.pageFault p dirty)))
    (hdirect : ∀ s, switchCase p = some s →
      Lib.Respects R (carmorLinkDirectTemplate env s p 0 0 dirty)) :
    Lib.Respects R (carmorPageFault env p dirty) := by
  refine h.bind hlog fun _ => ?_
  cases htag : switchCase p with
  | none => exact h.throw _
  | some s =>
    show Lib.Respects R ((env.stores s).carmorLink p 0 0 dirty)
    rcases (hinst s).link with hlink | ⟨hcached, g, hgeom⟩
    · rw [hlink]
      exact hdirect s htag
    · rw [carmorLink_zero hgeom hcached (isCarmorPtr_of_switchCase htag)]
      exact h.linkThroughTlb _ _ _

theorem LinkFrame.pageFault {env : Env σ} {dirty : Byte} {R : World σ → World σ → Prop}
    (h : LinkFrame env dirty R) (hinst : ∀ s, TemplateInstance env s) (p : Uintptr) :
    Lib.Respects R (carmorPageFault env p dirty) :=
  h.tlb.pageFault hinst (fun w => h.log _ w trivial) fun s _ => h.linkDirect s p 0 dirty

/-- A write-back of a tagged pointer is one of its store's instance. -/
theorem respects_writebackGeneric {env : Env σ} {R : World σ → World σ → Prop} (hrefl : ∀ w, R w w)
    (hinst : ∀ s, TemplateInstance env s) {p : Uintptr} {n : Int}
    (hdirect : ∀ s, switchCase p = some s →
      Lib.Respects R (carmorWritebackDirectTemplate env s p n)) :
    Lib.Respects R (carmorWritebackGeneric env p n) := by
  refine Lib.respects_ite (Lib.respects_pure hrefl ()) ?_
  cases htag : switchCase p with
  | none => exact Lib.respects_throw hrefl _
  | some s =>
    show Lib.Respects R ((env.stores s).carmorWritebackDirect p n)
    rw [(hinst s).writeback]
    exact hdirect s htag

/-! ## Bulk operations -/

section Bulk

variable {env : Env σ} {R : World σ → World σ → Prop} (hrefl : ∀ w, R w w)
  (htrans : ∀ w w₁ w', R w w₁ → R w₁ w' → R w w')
include hrefl

theorem respects_parameters (p : Uintptr) :
    Lib.Respects R (lstoreTypeIsDirect env p) ∧ Lib.Respects R (getLstoreParameters env p) := by
  constructor
  · unfold lstoreTypeIsDirect
    split
    · exact Lib.respects_pure hrefl _
    · exact Lib.respects_throw hrefl _
  · unfold getLstoreParameters
    split
    · exact Lib.respects_pure hrefl _
    · exact Lib.respects_pure hrefl _
    · exact Lib.respects_pure hrefl _
    · exact Lib.respects_throw hrefl _
    · exact Lib.respects_throw hrefl _

include htrans

theorem respects_memWrapperLoop {b : BulkOp}
    (hfaultl : ∀ p, Lib.Respects R (carmorPageFault env p b.vl.dirty))
    (hfaultr : ∀ p, Lib.Respects R (carmorPageFault env p b.vr.dirty))
    (hcall : ∀ vl0 vr0 vl1 vr1 n, Lib.Respects R (callFunc b vl0 vr0 vl1 vr1 n))
    (hsave : ∀ vl1 vr1, Lib.Respects R (writebackChunk env b vl1 vr1)) (fuel : Nat) :
    ∀ ctr vl0 vr0 vl1 vr1, Lib.Respects R (memWrapperLoop env b fuel ctr vl0 vr0 vl1 vr1) := by
  have hadvance : ∀ (o : Operand), (∀ p, Lib.Respects R (carmorPageFault env p o.dirty)) →
      ∀ left minLeft p q, Lib.Respects R (advanceLinked env o left minLeft p q) :=
    fun o ho left minLeft p q => Lib.respects_ite (ho q) (Lib.respects_pure hrefl _)
  induction fuel with
  | zero => exact fun _ _ _ _ _ => Lib.respects_throw hrefl _
  | succ fuel ih =>
    intro ctr vl0 vr0 vl1 vr1
    refine Lib.respects_ite (Lib.respects_ite ?_ ?_) (Lib.respects_pure hrefl _)
    · refine Lib.respects_bind htrans (hcall _ _ _ _ _) fun res => ?_
      refine Lib.respects_bind htrans (hsave _ _) fun _ => ?_
      refine Lib.respects_ite (Lib.respects_pure hrefl _) ?_
      refine Lib.respects_bind htrans (hadvance _ hfaultl _ _ _ _) fun vl0' => ?_
      exact Lib.respects_bind htrans (hadvance _ hfaultr _ _ _ _) fun vr0' => ih _ _ _ _ _
    · refine Lib.respects_bind htrans (hcall _ _ _ _ _) fun res => ?_
      refine Lib.respects_bind htrans (hsave _ _) fun _ => ?_
      exact Lib.respects_ite (Lib.respects_pure hrefl _) (ih _ _ _ _ _)

/-- Every outcome of the two-operand wrapper. -/
theorem respects_memWrapper {dl dr : Byte} {func : MemFunction} {partialReturn : Bool}
    (hnative : ∀ vl vr n, Lib.Respects R (onMem (func vl vr n) : Exec σ Int))
    (hfaultl : ∀ p, Lib.Respects R (carmorPageFault env p dl))
    (hfaultr : ∀ p, Lib.Respects R (carmorPageFault env p dr))
    (hcall : ∀ (b : BulkOp), b.func = func → ∀ vl0 vr0 vl1 vr1 n,
      Lib.Respects R (callFunc b vl0 vr0 vl1 vr1 n))
    (hsave : ∀ (b : BulkOp), b.vl.dirty = dl → b.vr.dirty = dr → ∀ vl1 vr1,
      Lib.Respects R (writebackChunk env b vl1 vr1)) (fuel : Nat) (vl vr : Uintptr) (n : SizeT) :
    Lib.Respects R (carmorMemWrapper env fuel vl dl vr dr n func partialReturn) := by
  have hparams : ∀ p, Lib.Respects R (operandParameters env p) := fun p =>
    Lib.respects_ite
      (Lib.respects_bind htrans (respects_parameters hrefl p).2 fun _ => Lib.respects_pure hrefl _)
      (Lib.respects_pure hrefl _)
  have hlink : ∀ (o : Operand), (∀ p, Lib.Respects R (carmorPageFault env p o.dirty)) →
      ∀ p, Lib.Respects R (linkOperand env o p) :=
    fun o ho p => Lib.respects_ite (ho p) (Lib.respects_pure hrefl _)
  have hrest : ∀ direct, Lib.Respects R (do
      let vlParams ← operandParameters env vl
      let vrParams ← operandParameters env vr
      let b : BulkOp := ⟨⟨dl, vlParams⟩, ⟨dr, vrParams⟩, direct, func, partialReturn⟩
      let vl0 ← linkOperand env b.vl vl
      let vr0 ← linkOperand env b.vr vr
      memWrapperLoop env b fuel (toInt32 n) vl0 vr0 vl vr) := by
    intro direct
    refine Lib.respects_bind htrans (hparams vl) fun vlParams => ?_
    refine Lib.respects_bind htrans (hparams vr) fun vrParams => ?_
    refine Lib.respects_bind htrans (hlink _ hfaultl vl) fun vl0 => ?_
    refine Lib.respects_bind htrans (hlink _ hfaultr vr) fun vr0 => ?_
    exact respects_memWrapperLoop hrefl htrans hfaultl hfaultr (hcall _ rfl) (hsave _ rfl rfl) _ _ _ _
      _ _
  refine Lib.respects_ite (hnative vl vr n) ?_
  refine Lib.respects_bind htrans (respects_parameters hrefl _).1 fun direct => ?_
  refine Lib.respects_ite (Lib.respects_bind htrans ?_ fun _ => hrest direct) (hrest direct)
  exact Lib.respects_ite (Lib.respects_pure hrefl _) (Lib.respects_throw hrefl _)

theorem respects_memWrapperSingleLoop {b : SingleOp}
    (hfault : ∀ p, Lib.Respects R (carmorPageFault env p b.dest.dirty))
    (hcall : ∀ dst0 dstOrig n, Lib.Respects R (callFuncSingle env b dst0 dstOrig n)) (fuel : Nat) :
    ∀ ctr acc dst0 dstOrig, Lib.Respects R (memWrapperSingleLoop env b fuel ctr acc dst0 dstOrig) := by
  induction fuel with
  | zero => exact fun _ _ _ _ => Lib.respects_throw hrefl _
  | succ fuel ih =>
    intro ctr acc dst0 dstOrig
    refine Lib.respects_ite (Lib.respects_ite ?_ ?_) (Lib.respects_pure hrefl _)
    · refine Lib.respects_bind htrans (hcall _ _ _) fun res => ?_
      refine Lib.respects_ite (Lib.respects_pure hrefl _) ?_
      exact Lib.respects_bind htrans (hfault _) fun dst0' => ih _ _ _ _
    · refine Lib.respects_bind htrans (hcall _ _ _) fun res => ?_
      exact Lib.respects_ite (Lib.respects_pure hrefl _) (ih _ _ _ _)

/-- Every outcome of the one-operand wrapper. -/
theorem respects_memWrapperSingle {dest : Uintptr} {c : Int} {n : SizeT} {func : MemFunctionSingle}
    {dirty : Byte} {partialReturn aggregateRes : Bool} {fuel : Nat}
    (hnative : isCarmorPtr dest = false → Lib.Respects R (onMem (func dest c n) : Exec σ Uintptr))
    (hfault : ∀ p, Lib.Respects R (carmorPageFault env p dirty))
    (hloop : ∀ s, switchCase dest = some s → ∀ params dst0, Lib.Respects R (memWrapperSingleLoop env
      ⟨⟨dirty, some params⟩, c, (env.stores s).lstoreIsDirect, func, partialReturn, aggregateRes⟩ fuel
      (toInt32 n) 0 dst0 dest)) :
    Lib.Respects R
      (carmorMemWrapperSingle env fuel dest c n func dirty partialReturn aggregateRes) := by
  unfold carmorMemWrapperSingle
  split
  · rename_i hnot
    exact hnative (by simpa using hnot)
  · cases htag : switchCase dest with
    | none =>
      have habort : lstoreTypeIsDirect env dest = throw .abort := by
        unfold lstoreTypeIsDirect
        rw [htag]
      rw [habort]
      exact fun w => hrefl w
    | some s =>
      rw [lstoreTypeIsDirect_eq htag, pure_bind]
      refine Lib.respects_bind htrans (respects_parameters hrefl dest).2 fun params => ?_
      exact Lib.respects_bind htrans (hfault dest) fun dst0 => hloop s htag params dst0

end Bulk

/-- The steps of the bulk operations move the world along `R`. -/
structure BulkFrame (env : Env σ) (R : World σ → World σ → Prop) : Prop where
  refl : ∀ w, R w w
  trans : ∀ w w₁ w', R w w₁ → R w₁ w' → R w w'
  func : ∀ (w : World σ) vl0 vr0 vl1 vr1 n, R w (w.log (.func w.store vl0 vr0 vl1 vr1 n))
  funcSingle : ∀ (w : World σ) dst0 dstOrig n, R w (w.log (.funcSingle w.store dst0 dstOrig n))
  withMem : ∀ (w : World σ) mem, R w (w.withMem mem)
  pageFault : ∀ p dirty, Lib.Respects R (carmorPageFault env p dirty)
  writeback : ∀ p n, Lib.Respects R (carmorWritebackGeneric env p n)

namespace BulkFrame

variable {env : Env σ} {R : World σ → World σ → Prop} (h : BulkFrame env R)
include h

theorem pure (a : α) : Lib.Respects R (pure a : Exec σ α) := Lib.respects_pure h.refl a

theorem bind {x : Exec σ α} {f : α → Exec σ β} (hx : Lib.Respects R x)
    (hf : ∀ a, Lib.Respects R (f a)) : Lib.Respects R (x >>= f) :=
  Lib.respects_bind h.trans hx hf

theorem onMem (f : Memory → α × Memory) : Lib.Respects R (onMem f : Exec σ α) :=
  fun w => h.withMem w _

theorem callFunc (b : BulkOp) (vl0 vr0 vl1 vr1 : Uintptr) (n : SizeT) :
    Lib.Respects R (callFunc b vl0 vr0 vl1 vr1 n) := by
  intro w
  refine h.trans _ _ _ (h.func w vl0 vr0 vl1 vr1 n) ?_
  exact h.onMem (b.func vl0 vr0 n) _

theorem callFuncSingle (b : SingleOp) (dst0 dstOrig : Uintptr) (n : SizeT) :
    Lib.Respects R (callFuncSingle env b dst0 dstOrig n) := by
  intro w
  refine h.trans _ _ _ (h.funcSingle w dst0 dstOrig n) ?_
  refine h.bind (h.onMem (b.func dst0 b.c n)) (fun res => Lib.respects_ite ?_ (h.pure res)) _
  split
  · exact h.bind (h.writeback _ _) fun _ => h.pure res
  · exact h.pure res

theorem writebackChunk (b : BulkOp) (vl1 vr1 : Uintptr) :
    Lib.Respects R (writebackChunk env b vl1 vr1) := by
  have hoperand : ∀ (o : Operand) p, Lib.Respects R (writebackOperand env o p) := by
    intro o p
    unfold writebackOperand
    split
    · exact Lib.respects_ite (h.writeback _ _) (h.pure ())
    · exact h.pure ()
  exact Lib.respects_ite (h.bind (hoperand _ _) fun _ => hoperand _ _) (h.pure ())

theorem memWrapperLoop (b : BulkOp) (fuel : Nat) (ctr : Int) (vl0 vr0 vl1 vr1 : Uintptr) :
    Lib.Respects R (memWrapperLoop env b fuel ctr vl0 vr0 vl1 vr1) :=
  respects_memWrapperLoop h.refl h.trans (fun p => h.pageFault p _) (fun p => h.pageFault p _)
    (h.callFunc b) (h.writebackChunk b) fuel ctr vl0 vr0 vl1 vr1

theorem memWrapper (fuel : Nat) (vl vr : Uintptr) (dl dr : Byte) (n : SizeT) (func : MemFunction)
    (partialReturn : Bool) :
    Lib.Respects R (carmorMemWrapper env fuel vl dl vr dr n func partialReturn) :=
  respects_memWrapper h.refl h.trans (fun _ _ _ => h.onMem _) (fun p => h.pageFault p _)
    (fun p => h.pageFault p _) (fun b _ => h.callFunc b) (fun b _ _ => h.writebackChunk b) fuel vl vr n

theorem memWrapperSingleLoop (b : SingleOp) (fuel : Nat) (ctr : Int) (acc : SizeT)
    (dst0 dstOrig : Uintptr) :
    Lib.Respects R (memWrapperSingleLoop env b fuel ctr acc dst0 dstOrig) :=
  respects_memWrapperSingleLoop h.refl h.trans (fun p => h.pageFault p _) (h.callFuncSingle b) fuel
    ctr acc dst0 dstOrig

theorem memWrapperSingle (fuel : Nat) (dest : Uintptr) (c : Int) (n : SizeT)
    (func : MemFunctionSingle) (dirty : Byte) (partialReturn aggregateRes : Bool) :
    Lib.Respects R
      (carmorMemWrapperSingle env fuel dest c n func dirty partialReturn aggregateRes) :=
  respects_memWrapperSingle h.refl h.trans (fun _ => h.onMem _) (fun p => h.pageFault p dirty)
    fun _ _ _ dst0 => h.memWrapperSingleLoop _ fuel _ 0 dst0 dest

end BulkFrame

end Carmor
