import Carmor.Lib.Commute
import Carmor.Proofs.BulkSteps
import Carmor.Proofs.LinkSteps
import Mathlib.Data.Set.Basic
import Mathlib.Logic.Equiv.Basic

/-!
# Moving the stores to other positions

A permutation `π` of the four positions retags pointers and renames the stores in a world. An
environment is `Retagged` from another one if the store at position `s` of the first is
installed at position `π s` of the second. The runtime's functions then commute with retagging,
except where a `case` of store 3 falls through: `KeepsLstore3` says that retagging moves a store
neither to nor from that position.
-/

namespace Carmor

open Lib (Commutes commutes_bind commutes_bind_of commutes_get commutes_ite commutes_modify
  commutes_pure commutes_throw)

variable {σ α β γ : Type}

/-! ## Retagging -/

/-- The pointer with the tag of the position to which its store moves. -/
def retagPtr (π : Equiv.Perm StoreId) (p : Uintptr) : Uintptr :=
  match switchCase p with
  | some s => makeMstorePtr (π s) (makeOriginalPointer p)
  | none => p

def TlbRef.retag (π : Equiv.Perm StoreId) : TlbRef → TlbRef
  | .gtTLB => .gtTLB
  | .own s => .own (π s)

/-- Store numbers and program pointers are retagged, untagged and linked addresses are not. -/
def Event.retag (π : Equiv.Perm StoreId) : Event σ → Event σ
  | .tlbHit s entry => .tlbHit (π s) entry
  | .mpfHandlerC s ptr res => .mpfHandlerC (π s) ptr res
  | .notifyTlbDropped s ptr dirty evicted => .notifyTlbDropped (π s) ptr dirty evicted
  | .notifyTlbCached s ptr => .notifyTlbCached (π s) ptr
  | .mpfHandlerD s ptr dst size => .mpfHandlerD (π s) ptr dst size
  | .lstoreWriteBack s ptr src size => .lstoreWriteBack (π s) ptr src size
  | .pageFault ptr dirty => .pageFault (retagPtr π ptr) dirty
  | .func store vl0 vr0 vl1 vr1 n => .func store vl0 vr0 (retagPtr π vl1) (retagPtr π vr1) n
  | .funcSingle store dst0 dstOrig n => .funcSingle store dst0 (retagPtr π dstOrig) n
  | .lstoreAlloc s size res => .lstoreAlloc (π s) size res
  | .lstoreAllocSize s ptr => .lstoreAllocSize (π s) ptr
  | .lstoreFree s ptr => .lstoreFree (π s) ptr
  | .malloc size res => .malloc size res
  | .realloc ptr size res => .realloc ptr size res
  | .free ptr => .free ptr

def World.retag (π : Equiv.Perm StoreId) (w : World σ) : World σ where
  toMachine := w.toMachine
  tlb := fun r => w.tlb (r.retag π.symm)
  gtDirectBuffer := w.gtDirectBuffer
  gtCrosspageAccess := retagPtr π w.gtCrosspageAccess
  gtCrosspageAccessSize := w.gtCrosspageAccessSize
  trace := w.trace.map (Event.retag π)

/-- The callbacks of one store implementation, installed at two positions. -/
structure LStore.SameCallbacks (π : Equiv.Perm StoreId) (st st' : LStore σ) : Prop where
  lstoreInit : st'.lstoreInit = st.lstoreInit
  lstoreIsDirect : st'.lstoreIsDirect = st.lstoreIsDirect
  lstoreGetMpageSize : st'.lstoreGetMpageSize = st.lstoreGetMpageSize
  lstoreGetMpageBits : st'.lstoreGetMpageBits = st.lstoreGetMpageBits
  lstoreGetMpageCacheBasePtr : st'.lstoreGetMpageCacheBasePtr = st.lstoreGetMpageCacheBasePtr
  lstoreGetMstoragePage : st'.lstoreGetMstoragePage = st.lstoreGetMstoragePage
  lstoreGetTlb : st'.lstoreGetTlb = st.lstoreGetTlb.retag π
  notifyTlbCached : st'.notifyTlbCached = st.notifyTlbCached
  notifyTlbDropped : st'.notifyTlbDropped = st.notifyTlbDropped
  mpfHandlerC : st'.mpfHandlerC = st.mpfHandlerC
  mpfHandlerD : st'.mpfHandlerD = st.mpfHandlerD
  lstoreWriteBack : st'.lstoreWriteBack = st.lstoreWriteBack

/-- `env'` has at position `π s` the store that `env` has at `s`. Its pages have a size that an
`int` holds, and both instances come from the same templates. -/
structure Env.Retagged (π : Equiv.Perm StoreId) (env env' : Env σ) : Prop where
  libc : env'.libc = env.libc
  gtCrossPageBuffer : env'.gtCrossPageBuffer = env.gtCrossPageBuffer
  callbacks : ∀ s, (env.stores s).SameCallbacks π (env'.stores (π s))
  mpageSize : ∀ s, IntSize (env.stores s).lstoreGetMpageSize
  link : ∀ s,
    ((env.stores s).carmorLink = carmorLinkDirectTemplate env s ∧
      (env'.stores (π s)).carmorLink = carmorLinkDirectTemplate env' (π s)) ∨
    (CachedInstance env s ∧ CachedInstance env' (π s) ∧ ∃ g, (env.stores s).HasGeometry g)
  writeback : ∀ s,
    (env.stores s).carmorWritebackDirect = carmorWritebackDirectTemplate env s ∧
      (env'.stores (π s)).carmorWritebackDirect = carmorWritebackDirectTemplate env' (π s)

/-- The store is moved neither from nor to position 3, unless it stays there. -/
def KeepsLstore3 (π : Equiv.Perm StoreId) (s : StoreId) : Prop := s = .lstore3 ↔ π s = .lstore3

/-- A native pointer, or a pointer of a store of `S`, with `m` bytes up to the end of its
addresses. -/
def InSpace (S : Set StoreId) (p : Uintptr) (m : Nat) : Prop :=
  (isCarmorPtr p = false ∧ p.toNat + m ≤ 2 ^ 63) ∨
    ∃ s ∈ S, ∃ x : Uintptr, p = makeMstorePtr s x ∧ x.toNat < 2 ^ 60 ∧ x.toNat + m ≤ 2 ^ 60

section Pointers

variable (π : Equiv.Perm StoreId) {S : Set StoreId} {p : Uintptr} {s : StoreId} {m k : Nat}

theorem retagPtr_native (hp : isCarmorPtr p = false) : retagPtr π p = p := by
  unfold retagPtr
  rw [switchCase_native hp]

theorem retagPtr_makeMstorePtr {x : Uintptr} (hx : x.toNat < 2 ^ 60) :
    retagPtr π (makeMstorePtr s x) = makeMstorePtr (π s) x := by
  unfold retagPtr
  rw [switchCase_makeMstorePtr s hx, makeOriginalPointer_makeMstorePtr s hx]

theorem switchCase_retagPtr (p : Uintptr) : switchCase (retagPtr π p) = (switchCase p).map π := by
  cases htag : switchCase p with
  | none =>
    unfold retagPtr
    rw [htag]
    exact htag
  | some s =>
    have hx := makeOriginalPointer_lt p
    rw [eq_makeMstorePtr_of_switchCase htag, retagPtr_makeMstorePtr π hx,
      switchCase_makeMstorePtr (π s) hx]
    rfl

theorem isCarmorPtr_retagPtr (p : Uintptr) : isCarmorPtr (retagPtr π p) = isCarmorPtr p := by
  cases htag : switchCase p with
  | none =>
    unfold retagPtr
    rw [htag]
  | some s =>
    have htag' : switchCase (retagPtr π p) = some (π s) := by rw [switchCase_retagPtr, htag]; rfl
    rw [isCarmorPtr_of_switchCase htag, isCarmorPtr_of_switchCase htag']

theorem makeOriginalPointer_retagPtr (htag : switchCase p = some s) :
    makeOriginalPointer (retagPtr π p) = makeOriginalPointer p := by
  have hx := makeOriginalPointer_lt p
  rw [eq_makeMstorePtr_of_switchCase htag, retagPtr_makeMstorePtr π hx,
    makeOriginalPointer_makeMstorePtr (π s) hx, makeOriginalPointer_makeMstorePtr s hx]

/-- A pointer that moves inside its addresses keeps its tag. -/
theorem InSpace.add (h : InSpace S p m) (hk : k < m) :
    InSpace S (p + BitVec.ofNat 64 k) (m - k) ∧
      retagPtr π (p + BitVec.ofNat 64 k) = retagPtr π p + BitVec.ofNat 64 k := by
  rcases h with ⟨hp, hm⟩ | ⟨s, hs, x, rfl, hx, hm⟩
  · have hsum := toNat_add_ofNat (p := p) (i := k) (by omega)
    have hp' : isCarmorPtr (p + BitVec.ofNat 64 k) = false := by
      rw [← Bool.not_eq_true, isCarmorPtr_iff, hsum]
      omega
    refine ⟨.inl ⟨hp', by omega⟩, ?_⟩
    rw [retagPtr_native π hp, retagPtr_native π hp']
  · have hkn := toNat_ofNat_of_lt (i := k) (by omega)
    have hsum := toNat_add_ofNat (p := x) (i := k) (by omega)
    rw [makeMstorePtr_add s (by omega)]
    refine ⟨.inr ⟨s, hs, x + BitVec.ofNat 64 k, rfl, by omega, by omega⟩, ?_⟩
    rw [retagPtr_makeMstorePtr π hx, retagPtr_makeMstorePtr π (by omega),
      makeMstorePtr_add (π s) (by omega)]

theorem InSpace.mono {j : Nat} (h : InSpace S p m) (hj : j ≤ m) : InSpace S p j := by
  rcases h with ⟨hp, hm⟩ | ⟨s, hs, x, rfl, hx, hm⟩
  · exact .inl ⟨hp, by omega⟩
  · exact .inr ⟨s, hs, x, rfl, hx, by omega⟩

theorem InSpace.switchCase_mem (h : InSpace S p m) (htag : switchCase p = some s) : s ∈ S := by
  rcases h with ⟨hp, -⟩ | ⟨t, ht, x, rfl, hx, -⟩
  · rw [switchCase_native hp] at htag
    cases htag
  · rw [switchCase_makeMstorePtr t hx] at htag
    exact Option.some.inj htag ▸ ht

end Pointers

/-! ## Primitive steps -/

/-- `y` does from a retagged world what `x` does from the world, with equal results. -/
abbrev Retags (π : Equiv.Perm StoreId) (x y : Exec σ α) : Prop := Commutes (World.retag π) id x y

section Primitives

variable {π : Equiv.Perm StoreId}

theorem retags_callStore (f : StoreExec σ α) : Retags π (callStore f) (callStore f) := by
  intro w
  unfold callStore
  rw [show (w.retag π).toMachine = w.toMachine from rfl]
  cases f w.toMachine with
  | ok a m => rfl
  | error e m => rfl

theorem retags_record (e : Event σ) : Retags π (record e) (record (e.retag π)) :=
  commutes_modify fun _ => rfl

theorem retags_cAssert (c : Bool) : Retags (σ := σ) π (cAssert c) (cAssert c) :=
  commutes_ite Iff.rfl (commutes_pure ()) (commutes_throw Stop.assertFailed)

theorem retags_onMem (f : Memory → α × Memory) : Retags (σ := σ) π (onMem f) (onMem f) :=
  fun _ => rfl

theorem TlbRef.retag_symm_retag (r : TlbRef) : (r.retag π).retag π.symm = r := by
  cases r with
  | gtTLB => rfl
  | own s => exact congrArg TlbRef.own (π.symm_apply_apply s)

theorem TlbRef.retag_retag_symm (r : TlbRef) : (r.retag π.symm).retag π = r := by
  cases r with
  | gtTLB => rfl
  | own s => exact congrArg TlbRef.own (π.apply_symm_apply s)

theorem retags_getTlb (r : TlbRef) : Retags (σ := σ) π (getTlb r) (getTlb (r.retag π)) := by
  intro w
  have hread : (w.retag π).tlb (r.retag π) = w.tlb r :=
    congrArg w.tlb (TlbRef.retag_symm_retag r)
  rw [getTlb_apply, getTlb_apply, hread]
  rfl

theorem retags_setTlb (r : TlbRef) (t : Tlb) :
    Retags (σ := σ) π (setTlb r t) (setTlb (r.retag π) t) := by
  apply commutes_modify
  intro w
  have htlb : ((w.retag π).withTlb (r.retag π) t).tlb = ((w.withTlb r t).retag π).tlb := by
    funext q
    show (if q = r.retag π then t else w.tlb (q.retag π.symm)) =
      if q.retag π.symm = r then t else w.tlb (q.retag π.symm)
    have hiff : q = r.retag π ↔ q.retag π.symm = r := by
      constructor
      · intro h
        rw [h, TlbRef.retag_symm_retag]
      · intro h
        rw [← h, TlbRef.retag_retag_symm]
    by_cases hq : q = r.retag π
    · rw [if_pos hq, if_pos (hiff.mp hq)]
    · rw [if_neg hq, if_neg (fun h => hq (hiff.mpr h))]
  exact congrArg (fun tlb => ({ w.retag π with tlb := tlb } : World σ)) htlb

end Primitives

/-! ## Links -/

section Callbacks

variable {π : Equiv.Perm StoreId} {st st' : LStore σ} (h : st.SameCallbacks π st')
  {u : Uintptr}
include h

theorem LStore.SameCallbacks.bsPageIndex_eq : bsPageIndex st' u = bsPageIndex st u := by
  rw [bsPageIndex, h.lstoreGetMstoragePage, h.lstoreGetMpageBits, bsPageIndex]

theorem LStore.SameCallbacks.pageOffset_eq : pageOffset st' u = pageOffset st u := by
  rw [pageOffset, h.lstoreGetMstoragePage, h.lstoreGetMpageSize, pageOffset]

theorem LStore.SameCallbacks.removedBsPage_eq (removed : TlbEntry) :
    removedBsPage st' u removed = removedBsPage st u removed := by
  rw [removedBsPage, h.bsPageIndex_eq, h.lstoreGetMpageSize, removedBsPage]

theorem LStore.SameCallbacks.missEntry_eq (res : Uintptr) (dirty : Byte) :
    missEntry st' u res dirty = missEntry st u res dirty := by
  rw [missEntry, h.bsPageIndex_eq, h.lstoreGetMpageCacheBasePtr, h.lstoreGetMpageBits, missEntry]

theorem LStore.SameCallbacks.hitAddress_eq (e : TlbEntry) :
    hitAddress st' u e = hitAddress st u e := by
  rw [hitAddress, h.pageOffset_eq, h.lstoreGetMpageCacheBasePtr, h.lstoreGetMpageSize, hitAddress]

theorem LStore.SameCallbacks.retags_tlb :
    Retags (σ := σ) π (getTlb st.lstoreGetTlb) (getTlb st'.lstoreGetTlb) := by
  rw [h.lstoreGetTlb]
  exact retags_getTlb _

theorem LStore.SameCallbacks.retags_setTlb (t : Tlb) :
    Retags (σ := σ) π (setTlb st.lstoreGetTlb t) (setTlb st'.lstoreGetTlb t) := by
  rw [h.lstoreGetTlb]
  exact Carmor.retags_setTlb _ t

theorem LStore.SameCallbacks.hasGeometry {g : StoreGeometry} (hg : st.HasGeometry g) :
    st'.HasGeometry g where
  pageSize := h.lstoreGetMpageSize.trans hg.pageSize
  pageBits := h.lstoreGetMpageBits.trans hg.pageBits
  cacheBase := h.lstoreGetMpageCacheBasePtr.trans hg.cacheBase
  storagePage := fun p => by rw [h.lstoreGetMstoragePage, hg.storagePage]

end Callbacks

section Links

variable {π : Equiv.Perm StoreId} {env env' : Env σ} (h : env.Retagged π env')
include h

theorem retags_dropLastEntry (s : StoreId) (u : Uintptr) :
    Retags π (dropLastEntry env s u) (dropLastEntry env' (π s) u) := by
  have hc := h.callbacks s
  apply commutes_bind hc.retags_tlb
  intro tlb
  apply commutes_ite Iff.rfl _ (commutes_pure ())
  simp only [hc.removedBsPage_eq, hc.notifyTlbDropped]
  apply commutes_bind (retags_record _)
  intro _
  exact retags_callStore _

theorem retags_insertEntry (s : StoreId) (u res : Uintptr) (dirty : Byte) :
    Retags π (insertEntry env s u res dirty) (insertEntry env' (π s) u res dirty) := by
  have hc := h.callbacks s
  apply commutes_bind (retags_record _)
  intro _
  simp only [hc.notifyTlbCached, hc.missEntry_eq]
  apply commutes_bind (retags_callStore _)
  intro _
  apply commutes_bind hc.retags_tlb
  intro tlb
  exact hc.retags_setTlb _

theorem retags_linkThroughTlb (s : StoreId) (u : Uintptr) (ptrSize : Int) (dirty : Byte) :
    Retags π (linkThroughTlb env s u ptrSize dirty) (linkThroughTlb env' (π s) u ptrSize dirty) := by
  have hc := h.callbacks s
  apply commutes_bind hc.retags_tlb
  intro tlb
  simp only [id, hc.bsPageIndex_eq, hc.pageOffset_eq, hc.hitAddress_eq, hc.mpfHandlerC,
    hc.lstoreGetMpageSize, hc.lstoreGetMpageCacheBasePtr]
  cases tlb.lookup (bsPageIndex (env.stores s) u) dirty with
  | some r =>
    apply commutes_bind (hc.retags_setTlb _)
    intro _
    apply commutes_bind (retags_record _)
    intro _
    apply commutes_bind (retags_cAssert _)
    intro _
    exact commutes_pure _
  | none =>
    apply commutes_bind (retags_callStore _)
    intro res
    apply commutes_bind (retags_record _)
    intro _
    apply commutes_bind (retags_dropLastEntry h s u)
    intro _
    apply commutes_bind (retags_insertEntry h s u res dirty)
    intro _
    apply commutes_bind (retags_cAssert _)
    intro _
    exact commutes_pure _

theorem retags_getDirectBuffer (mpageSize : SizeT) :
    Retags π (carmorGetLstoreDirectBuffer env mpageSize)
      (carmorGetLstoreDirectBuffer env' mpageSize) := by
  have hread : Retags (σ := σ) π (do return (← get).gtDirectBuffer)
      (do return (← get).gtDirectBuffer) := fun _ => rfl
  apply commutes_bind commutes_get
  intro w
  rw [h.libc]
  apply commutes_ite Iff.rfl _ hread
  apply commutes_bind (retags_callStore _)
  intro buffer
  refine commutes_bind (commutes_modify fun _ => rfl) fun _ => ?_
  exact commutes_bind (retags_cAssert _) fun _ => hread

section Kept

variable {p : Uintptr} (hp : ∀ s, switchCase p = some s → KeepsLstore3 π s)
include hp

theorem retags_directMpageSize :
    Retags π (directMpageSize env p) (directMpageSize env' (retagPtr π p)) := by
  have htag' := switchCase_retagPtr π p
  cases htag : switchCase p with
  | none =>
    rw [htag] at htag'
    unfold directMpageSize
    rw [htag, htag']
    exact commutes_throw _
  | some s =>
    rw [htag] at htag'
    rw [directMpageSize_eq htag, directMpageSize_eq htag', (h.callbacks s).lstoreGetMpageSize]
    exact commutes_ite (hp s htag) (commutes_throw _) (commutes_pure _)

theorem retags_getLstoreParameters :
    Retags π (getLstoreParameters env p) (getLstoreParameters env' (retagPtr π p)) := by
  have htag' := switchCase_retagPtr π p
  cases htag : switchCase p with
  | none =>
    rw [htag] at htag'
    unfold getLstoreParameters
    rw [htag, htag']
    exact commutes_throw _
  | some s =>
    rw [htag] at htag'
    rw [getLstoreParameters_eq htag, getLstoreParameters_eq htag',
      (h.callbacks s).lstoreGetMpageSize, (h.callbacks s).lstoreGetMpageCacheBasePtr]
    exact commutes_ite (hp s htag) (commutes_throw _) (commutes_pure _)

theorem retags_linkDirect {s : StoreId} (hp' : switchCase p = some s) (t : StoreId)
    (ptrSize : Int) (isVectorType dirty : Byte) :
    Retags π (carmorLinkDirectTemplate env t p ptrSize isVectorType dirty)
      (carmorLinkDirectTemplate env' (π t) (retagPtr π p) ptrSize isVectorType dirty) := by
  have hc := h.callbacks t
  have htagged := isCarmorPtr_of_switchCase hp'
  have htagged' := (isCarmorPtr_retagPtr π p).trans htagged
  unfold carmorLinkDirectTemplate
  rw [htagged, htagged', makeOriginalPointer_retagPtr π hp', hc.mpfHandlerD]
  apply commutes_bind (retags_directMpageSize h hp)
  intro mpageSize
  apply commutes_bind (retags_cAssert _)
  intro _
  apply commutes_bind (retags_getDirectBuffer h mpageSize)
  intro dest
  apply commutes_bind (retags_record _)
  intro _
  apply commutes_bind (retags_callStore _)
  intro _
  exact commutes_pure _

theorem retags_writebackDirect {s : StoreId} (hp' : switchCase p = some s) (t : StoreId)
    (ptrSize : Int) :
    Retags π (carmorWritebackDirectTemplate env t p ptrSize)
      (carmorWritebackDirectTemplate env' (π t) (retagPtr π p) ptrSize) := by
  have hc := h.callbacks t
  have htagged := isCarmorPtr_of_switchCase hp'
  have htagged' := (isCarmorPtr_retagPtr π p).trans htagged
  unfold carmorWritebackDirectTemplate
  rw [htagged, htagged', makeOriginalPointer_retagPtr π hp', hc.lstoreWriteBack]
  apply commutes_bind (retags_directMpageSize h hp)
  intro mpageSize
  apply commutes_bind (retags_getDirectBuffer h mpageSize)
  intro dest
  apply commutes_bind (retags_record _)
  intro _
  exact retags_callStore _

theorem retags_pageFault (dirty : Byte) :
    Retags π (carmorPageFault env p dirty) (carmorPageFault env' (retagPtr π p) dirty) := by
  have htag' := switchCase_retagPtr π p
  unfold carmorPageFault
  apply commutes_bind (retags_record _)
  intro _
  cases htag : switchCase p with
  | none =>
    rw [htag] at htag'
    rw [htag']
    exact commutes_throw _
  | some s =>
    rw [htag] at htag'
    rw [htag']
    have htagged := isCarmorPtr_of_switchCase htag
    have htagged' := (isCarmorPtr_retagPtr π p).trans htagged
    show Retags π ((env.stores s).carmorLink p 0 0 dirty)
      ((env'.stores (π s)).carmorLink (retagPtr π p) 0 0 dirty)
    rcases h.link s with ⟨hdirect, hdirect'⟩ | ⟨hcached, hcached', g, hgeom⟩
    · rw [hdirect, hdirect']
      exact retags_linkDirect h hp htag s 0 0 dirty
    · rw [carmorLink_zero hgeom hcached htagged,
        carmorLink_zero ((h.callbacks s).hasGeometry hgeom) hcached' htagged',
        makeOriginalPointer_retagPtr π htag]
      exact retags_linkThroughTlb h s _ 0 dirty

theorem retags_writebackGeneric (ptrSize : Int) :
    Retags π (carmorWritebackGeneric env p ptrSize)
      (carmorWritebackGeneric env' (retagPtr π p) ptrSize) := by
  have htag' := switchCase_retagPtr π p
  unfold carmorWritebackGeneric
  rw [isCarmorPtr_retagPtr]
  apply commutes_ite Iff.rfl (commutes_pure ())
  cases htag : switchCase p with
  | none =>
    rw [htag] at htag'
    rw [htag']
    exact commutes_throw _
  | some s =>
    rw [htag] at htag'
    rw [htag']
    show Retags π ((env.stores s).carmorWritebackDirect p ptrSize)
      ((env'.stores (π s)).carmorWritebackDirect (retagPtr π p) ptrSize)
    rw [(h.writeback s).1, (h.writeback s).2]
    exact retags_writebackDirect h hp htag s ptrSize

end Kept

theorem retags_lstoreTypeIsDirect (p : Uintptr) :
    Retags π (lstoreTypeIsDirect env p) (lstoreTypeIsDirect env' (retagPtr π p)) := by
  have htag' := switchCase_retagPtr π p
  unfold lstoreTypeIsDirect
  cases htag : switchCase p with
  | none =>
    rw [htag] at htag'
    rw [htag']
    exact commutes_throw _
  | some s =>
    rw [htag] at htag'
    rw [htag']
    show Retags π (pure (env.stores s).lstoreIsDirect) (pure (env'.stores (π s)).lstoreIsDirect)
    rw [(h.callbacks s).lstoreIsDirect]
    exact commutes_pure _

end Links

/-! ## Bulk operations -/

section Bulk

variable {π : Equiv.Perm StoreId} {env env' : Env σ} (h : env.Retagged π env') {S : Set StoreId}
  (hS : ∀ s ∈ S, KeepsLstore3 π s)
include h hS

theorem retags_writebackOperand (o : Operand) {p : Uintptr} {m : Nat} (hp : InSpace S p m) :
    Retags π (writebackOperand env o p) (writebackOperand env' o (retagPtr π p)) := by
  unfold writebackOperand
  cases o.params with
  | none => exact commutes_pure ()
  | some params =>
    apply commutes_ite Iff.rfl _ (commutes_pure ())
    exact retags_writebackGeneric h (fun s hs => hS s (hp.switchCase_mem hs)) _

omit h hS in
theorem retags_callFunc (b : BulkOp) (vl0 vr0 vl1 vr1 : Uintptr) (n : SizeT) :
    Retags (σ := σ) π (callFunc b vl0 vr0 vl1 vr1 n)
      (callFunc b vl0 vr0 (retagPtr π vl1) (retagPtr π vr1) n) := by
  apply commutes_bind commutes_get
  intro w
  apply commutes_bind (retags_record _)
  intro _
  exact retags_onMem _

theorem retags_writebackChunk (b : BulkOp) {vl1 vr1 : Uintptr} {m : Nat}
    (hvl : InSpace S vl1 m) (hvr : InSpace S vr1 m) :
    Retags π (writebackChunk env b vl1 vr1)
      (writebackChunk env' b (retagPtr π vl1) (retagPtr π vr1)) := by
  apply commutes_ite Iff.rfl _ (commutes_pure ())
  apply commutes_bind (retags_writebackOperand h hS b.vl hvl)
  intro _
  exact retags_writebackOperand h hS b.vr hvr

theorem retags_advanceLinked (o : Operand) (left minLeft : Int) (linkedPtr : Uintptr)
    {p : Uintptr} {m : Nat} (hp : InSpace S p m) :
    Retags π (advanceLinked env o left minLeft linkedPtr p)
      (advanceLinked env' o left minLeft linkedPtr (retagPtr π p)) := by
  apply commutes_ite Iff.rfl _ (commutes_pure _)
  exact retags_pageFault h (fun s hs => hS s (hp.switchCase_mem hs)) _

theorem retags_memWrapperLoop (b : BulkOp) (hl : b.vl.Sized) (hr : b.vr.Sized) (fuel : Nat) :
    ∀ (ctr : Int) (vl0 vr0 vl1 vr1 : Uintptr), InSpace S vl1 ctr.toNat → InSpace S vr1 ctr.toNat →
      Retags π (memWrapperLoop env b fuel ctr vl0 vr0 vl1 vr1)
        (memWrapperLoop env' b fuel ctr vl0 vr0 (retagPtr π vl1) (retagPtr π vr1)) := by
  induction fuel with
  | zero => exact fun _ _ _ _ _ _ _ => commutes_throw _
  | succ fuel ih =>
    intro ctr vl0 vr0 vl1 vr1 hvl hvr
    have hleftl := leftIn_pos hl vl0
    have hleftr := leftIn_pos hr vr0
    unfold memWrapperLoop
    by_cases hctr : 0 < ctr
    swap
    · rw [if_neg hctr, if_neg hctr]
      exact commutes_pure _
    rw [if_pos hctr, if_pos hctr]
    have hmin : 0 < if b.vr.leftIn vr0 < b.vl.leftIn vl0 then b.vr.leftIn vr0
        else b.vl.leftIn vl0 := by
      split
      · exact hleftr
      · exact hleftl
    simp only
    generalize (if b.vr.leftIn vr0 < b.vl.leftIn vl0 then b.vr.leftIn vr0
        else b.vl.leftIn vl0) = minLeft at hmin
    by_cases hlast : minLeft < ctr
    · rw [if_pos hlast, if_pos hlast]
      obtain ⟨k, rfl⟩ := Int.eq_ofNat_of_zero_le (Int.le_of_lt hmin)
      have hrest : (ctr - k).toNat = ctr.toNat - k := by omega
      obtain ⟨hvl', hvltag⟩ := hvl.add π (k := k) (by omega)
      obtain ⟨hvr', hvrtag⟩ := hvr.add π (k := k) (by omega)
      apply commutes_bind (retags_callFunc b vl0 vr0 vl1 vr1 _)
      intro res
      apply commutes_bind (retags_writebackChunk h hS b hvl hvr)
      intro _
      apply commutes_ite Iff.rfl (commutes_pure _)
      rw [ofInt_natCast, ← hvltag, ← hvrtag]
      apply commutes_bind (retags_advanceLinked h hS b.vl _ _ vl0 hvl')
      intro vl0'
      apply commutes_bind (retags_advanceLinked h hS b.vr _ _ vr0 hvr')
      intro vr0'
      exact ih _ _ _ _ _ (hrest ▸ hvl') (hrest ▸ hvr')
    · rw [if_neg hlast, if_neg hlast]
      apply commutes_bind (retags_callFunc b vl0 vr0 vl1 vr1 _)
      intro res
      apply commutes_bind (retags_writebackChunk h hS b hvl hvr)
      intro _
      apply commutes_ite Iff.rfl (commutes_pure _)
      rw [Int.sub_self]
      exact ih _ _ _ _ _ (hvl.mono (Nat.zero_le _)) (hvr.mono (Nat.zero_le _))

theorem retags_operandParameters {p : Uintptr} {m : Nat} (hp : InSpace S p m) :
    Retags π (operandParameters env p) (operandParameters env' (retagPtr π p)) := by
  unfold operandParameters
  rw [isCarmorPtr_retagPtr]
  apply commutes_ite Iff.rfl _ (commutes_pure none)
  apply commutes_bind (retags_getLstoreParameters h fun s hs => hS s (hp.switchCase_mem hs))
  intro params
  exact commutes_pure _

omit hS in
theorem getLstoreParameters_eq_ok {p : Uintptr} {w w' : World σ} {params : Uintptr × SizeT}
    (hok : getLstoreParameters env p w = .ok params w') : IntSize params.2 := by
  cases htag : switchCase p with
  | none =>
    unfold getLstoreParameters at hok
    rw [htag] at hok
    cases hok
  | some s =>
    rw [getLstoreParameters_eq htag] at hok
    by_cases hs : s = .lstore3
    · rw [if_pos hs] at hok
      cases hok
    · rw [if_neg hs] at hok
      cases hok
      exact h.mpageSize s

omit hS in
theorem operandParameters_eq_ok {p : Uintptr} {w w' : World σ}
    {params : Option (Uintptr × SizeT)} (hok : operandParameters env p w = .ok params w') :
    params.isSome = isCarmorPtr p ∧
      ∀ base size, params = some (base, size) → IntSize size := by
  unfold operandParameters at hok
  by_cases hlinked : isCarmorPtr p = true
  · rw [if_pos hlinked] at hok
    obtain ⟨⟨base, size⟩, w₁, hget, hrest⟩ := Lib.bind_eq_ok.mp hok
    cases hrest
    refine ⟨hlinked.symm, ?_⟩
    rintro _ _ ⟨⟩
    exact getLstoreParameters_eq_ok h hget
  · rw [if_neg hlinked] at hok
    cases hok
    simp [hlinked]

theorem retags_linkOperand (o : Operand) {p : Uintptr} {m : Nat} (hp : InSpace S p m)
    (hnative : o.linked = isCarmorPtr p) :
    Retags π (linkOperand env o p) (linkOperand env' o (retagPtr π p)) := by
  unfold linkOperand
  rw [hnative]
  by_cases hlinked : isCarmorPtr p = true
  · rw [if_pos hlinked, if_pos hlinked]
    exact retags_pageFault h (fun s hs => hS s (hp.switchCase_mem hs)) _
  · rw [if_neg hlinked, if_neg hlinked, retagPtr_native π (Bool.not_eq_true _ ▸ hlinked)]
    exact commutes_pure p

theorem retags_memWrapper (fuel : Nat) {vl vr : Uintptr} (vlDirty vrDirty : Byte) {n : SizeT}
    (func : MemFunction) (partialReturn : Bool) (hvl : InSpace S vl n.toNat)
    (hvr : InSpace S vr n.toNat) :
    Retags π (carmorMemWrapper env fuel vl vlDirty vr vrDirty n func partialReturn)
      (carmorMemWrapper env' fuel (retagPtr π vl) vlDirty (retagPtr π vr) vrDirty n func
        partialReturn) := by
  have hctr : (toInt32 n).toNat ≤ n.toNat := by
    have hle := toInt32_le n
    omega
  have hrest : ∀ direct, Retags π
      (do
        let vlParams ← operandParameters env vl
        let vrParams ← operandParameters env vr
        let b : BulkOp := ⟨⟨vlDirty, vlParams⟩, ⟨vrDirty, vrParams⟩, direct, func, partialReturn⟩
        let vl0 ← linkOperand env b.vl vl
        let vr0 ← linkOperand env b.vr vr
        memWrapperLoop env b fuel (toInt32 n) vl0 vr0 vl vr)
      (do
        let vlParams ← operandParameters env' (retagPtr π vl)
        let vrParams ← operandParameters env' (retagPtr π vr)
        let b : BulkOp := ⟨⟨vlDirty, vlParams⟩, ⟨vrDirty, vrParams⟩, direct, func, partialReturn⟩
        let vl0 ← linkOperand env' b.vl (retagPtr π vl)
        let vr0 ← linkOperand env' b.vr (retagPtr π vr)
        memWrapperLoop env' b fuel (toInt32 n) vl0 vr0 (retagPtr π vl) (retagPtr π vr)) := by
    intro direct
    refine commutes_bind_of (retags_operandParameters h hS hvl)
      (fun _ _ _ hok => operandParameters_eq_ok h hok) fun vlParams hvlParams => ?_
    refine commutes_bind_of (retags_operandParameters h hS hvr)
      (fun _ _ _ hok => operandParameters_eq_ok h hok) fun vrParams hvrParams => ?_
    apply commutes_bind (retags_linkOperand h hS ⟨vlDirty, vlParams⟩ hvl hvlParams.1)
    intro vl0
    apply commutes_bind (retags_linkOperand h hS ⟨vrDirty, vrParams⟩ hvr hvrParams.1)
    intro vr0
    refine retags_memWrapperLoop h hS _ ?_ ?_ fuel _ _ _ _ _ (hvl.mono hctr) (hvr.mono hctr)
    · exact hvlParams.2
    · exact hvrParams.2
  unfold carmorMemWrapper
  simp only [isCarmorPtr_retagPtr]
  by_cases hnative : (!isCarmorPtr vl && !isCarmorPtr vr) = true
  · rw [if_pos hnative, if_pos hnative]
    obtain ⟨hl, hr⟩ := Bool.and_eq_true_iff.mp hnative
    rw [retagPtr_native π (by simpa using hl), retagPtr_native π (by simpa using hr)]
    exact retags_onMem _
  · rw [if_neg hnative, if_neg hnative]
    have hdirect : Retags π (lstoreTypeIsDirect env (if isCarmorPtr vl then vl else vr))
        (lstoreTypeIsDirect env' (if isCarmorPtr vl then retagPtr π vl else retagPtr π vr)) := by
      split
      · exact retags_lstoreTypeIsDirect h vl
      · exact retags_lstoreTypeIsDirect h vr
    apply commutes_bind hdirect
    intro direct
    apply commutes_ite Iff.rfl _ (hrest direct)
    exact commutes_bind (retags_cAssert _) fun _ => hrest direct

theorem retags_callFuncSingle (b : SingleOp) (dst0 : Uintptr) {dstOrig : Uintptr} (n : SizeT)
    {m : Nat} (hp : InSpace S dstOrig m) :
    Retags π (callFuncSingle env b dst0 dstOrig n)
      (callFuncSingle env' b dst0 (retagPtr π dstOrig) n) := by
  apply commutes_bind commutes_get
  intro w
  apply commutes_bind (retags_record _)
  intro _
  apply commutes_bind (retags_onMem _)
  intro res
  apply commutes_ite Iff.rfl _ (commutes_pure res)
  cases b.dest.params with
  | none => exact commutes_pure res
  | some params =>
    apply commutes_bind (retags_writebackGeneric h (fun s hs => hS s (hp.switchCase_mem hs)) _)
    intro _
    exact commutes_pure res

theorem retags_memWrapperSingleLoop (b : SingleOp) (hsized : b.dest.Sized) (fuel : Nat) :
    ∀ (ctr : Int) (acc : SizeT) (dst0 dstOrig : Uintptr), InSpace S dstOrig ctr.toNat →
      Retags π (memWrapperSingleLoop env b fuel ctr acc dst0 dstOrig)
        (memWrapperSingleLoop env' b fuel ctr acc dst0 (retagPtr π dstOrig)) := by
  induction fuel with
  | zero => exact fun _ _ _ _ _ => commutes_throw _
  | succ fuel ih =>
    intro ctr acc dst0 dstOrig hp
    have hleft := leftIn_pos hsized dst0
    unfold memWrapperSingleLoop
    by_cases hctr : 0 < ctr
    swap
    · rw [if_neg hctr, if_neg hctr]
      exact commutes_pure _
    rw [if_pos hctr, if_pos hctr]
    simp only
    generalize b.dest.leftIn dst0 = leftInDest at hleft
    by_cases hlast : leftInDest < ctr
    · rw [if_pos hlast, if_pos hlast]
      obtain ⟨k, rfl⟩ := Int.eq_ofNat_of_zero_le (Int.le_of_lt hleft)
      have hrest : (ctr - k).toNat = ctr.toNat - k := by omega
      obtain ⟨hp', htag⟩ := hp.add π (k := k) (by omega)
      apply commutes_bind (retags_callFuncSingle h hS b dst0 _ hp)
      intro res
      apply commutes_ite Iff.rfl (commutes_pure _)
      rw [ofInt_natCast, ← htag]
      refine commutes_bind (retags_pageFault h (fun s hs => hS s (hp'.switchCase_mem hs)) _) ?_
      intro dst0'
      exact ih _ _ _ _ (hrest ▸ hp')
    · rw [if_neg hlast, if_neg hlast]
      apply commutes_bind (retags_callFuncSingle h hS b dst0 _ hp)
      intro res
      apply commutes_ite Iff.rfl (commutes_pure _)
      rw [Int.sub_self]
      exact ih _ _ _ _ (hp.mono (Nat.zero_le _))

theorem retags_memWrapperSingle (fuel : Nat) {dest : Uintptr} (c : Int) {n : SizeT}
    (func : MemFunctionSingle) (dirty : Byte) (partialReturn aggregateRes : Bool)
    (hp : InSpace S dest n.toNat) :
    Retags π (carmorMemWrapperSingle env fuel dest c n func dirty partialReturn aggregateRes)
      (carmorMemWrapperSingle env' fuel (retagPtr π dest) c n func dirty partialReturn
        aggregateRes) := by
  have hctr : (toInt32 n).toNat ≤ n.toNat := by
    have hle := toInt32_le n
    omega
  have hkept : ∀ s, switchCase dest = some s → KeepsLstore3 π s :=
    fun s hs => hS s (hp.switchCase_mem hs)
  unfold carmorMemWrapperSingle
  rw [isCarmorPtr_retagPtr]
  by_cases hlinked : isCarmorPtr dest = true
  swap
  · rw [if_pos (by simp [hlinked]), if_pos (by simp [hlinked]),
      retagPtr_native π (Bool.not_eq_true _ ▸ hlinked)]
    exact retags_onMem _
  rw [if_neg (by simp [hlinked]), if_neg (by simp [hlinked])]
  apply commutes_bind (retags_lstoreTypeIsDirect h dest)
  intro direct
  refine commutes_bind_of (retags_getLstoreParameters h hkept)
    (fun _ _ _ hok => getLstoreParameters_eq_ok h hok) fun params hparams => ?_
  apply commutes_bind (retags_pageFault h hkept _)
  intro dst0
  refine retags_memWrapperSingleLoop h hS _ ?_ fuel _ _ _ _ (hp.mono hctr)
  rintro _ _ ⟨⟩
  exact hparams

end Bulk

end Carmor
