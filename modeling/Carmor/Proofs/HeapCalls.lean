import Carmor.Proofs.Frames

/-!
# Calls of allocation functions

The link templates and the memory intrinsics call no allocation function of a store or of libc:
`NoHeapCalls` is a frame of them.
-/

namespace Carmor

variable {σ α β : Type}

/-- A call of an allocation function of a store or of libc. -/
def Event.isHeapCall : Event σ → Bool
  | .lstoreAlloc _ _ _ => true
  | .lstoreAllocSize _ _ => true
  | .lstoreFree _ _ => true
  | .malloc _ _ => true
  | .realloc _ _ _ => true
  | .free _ => true
  | _ => false

/-- Between the worlds no allocation function was called. -/
def NoHeapCalls (w w' : World σ) : Prop :=
  ∃ es, w'.trace = es ++ w.trace ∧ ∀ e ∈ es, e.isHeapCall = false

theorem NoHeapCalls.refl (w : World σ) : NoHeapCalls w w := ⟨[], rfl, by simp⟩

theorem NoHeapCalls.of_trace_eq {w w' : World σ} (h : w'.trace = w.trace) : NoHeapCalls w w' :=
  ⟨[], h, by simp⟩

theorem NoHeapCalls.trans {w w₁ w' : World σ} (h : NoHeapCalls w w₁) (h' : NoHeapCalls w₁ w') :
    NoHeapCalls w w' := by
  obtain ⟨es, htrace, hes⟩ := h
  obtain ⟨fs, htrace', hfs⟩ := h'
  refine ⟨fs ++ es, by rw [htrace', htrace, List.append_assoc], ?_⟩
  intro e he
  rcases List.mem_append.mp he with he | he
  · exact hfs e he
  · exact hes e he

theorem NoHeapCalls.trace_suffix {w w' : World σ} (h : NoHeapCalls w w') :
    w.trace <:+ w'.trace := by
  obtain ⟨es, htrace, -⟩ := h
  exact ⟨es, htrace.symm⟩

/-- The computation calls no allocation function. -/
abbrev HeapQuiet (x : Exec σ α) : Prop := Lib.Respects NoHeapCalls x

theorem HeapQuiet.of_ok {x : Exec σ α} (hx : HeapQuiet x) {w w' : World σ} {a : α}
    (h : x w = .ok a w') : NoHeapCalls w w' := by
  have hw := hx w
  rwa [h] at hw

/-! ## Primitive steps -/

theorem heapQuiet_pure (a : α) : HeapQuiet (pure a : Exec σ α) :=
  Lib.respects_pure NoHeapCalls.refl a

theorem heapQuiet_bind {x : Exec σ α} {f : α → Exec σ β} (hx : HeapQuiet x)
    (hf : ∀ a, HeapQuiet (f a)) : HeapQuiet (x >>= f) :=
  Lib.respects_bind (R := NoHeapCalls) (fun _ _ _ => NoHeapCalls.trans) hx hf

theorem heapQuiet_ite {c : Prop} [Decidable c] {x y : Exec σ α} (hx : HeapQuiet x)
    (hy : HeapQuiet y) : HeapQuiet (if c then x else y) := Lib.respects_ite hx hy

theorem heapQuiet_callStore (f : StoreExec σ α) : HeapQuiet (callStore f) := by
  intro w
  rw [callStore]
  split <;> exact .of_trace_eq rfl

theorem heapQuiet_record {e : Event σ} (he : e.isHeapCall = false) : HeapQuiet (record e) := by
  intro w
  exact ⟨[e], rfl, by simpa using he⟩

/-! ## Links and bulk operations -/

theorem noHeapCalls_linkFrame (env : Env σ) (dirty : Byte) : LinkFrame env dirty NoHeapCalls where
  refl := NoHeapCalls.refl
  trans _ _ _ := NoHeapCalls.trans
  log e w he := by
    refine heapQuiet_record ?_ w
    cases e with
    | lstoreAlloc | lstoreAllocSize | lstoreFree | malloc | realloc | free => exact he.elim
    | _ => rfl
  mpfHandlerC _ _ := heapQuiet_callStore _
  mpfHandlerD _ _ _ := heapQuiet_callStore _
  notifyTlbDropped _ _ _ := heapQuiet_callStore _
  notifyTlbCached _ _ := heapQuiet_callStore _
  memalign _ := heapQuiet_callStore _
  hit _ := .of_trace_eq rfl
  miss _ _ _ _ _ := .of_trace_eq rfl
  gtDirectBuffer _ _ := .of_trace_eq rfl

section Bulk

variable {env : Env σ} (hinst : ∀ s, TemplateInstance env s)
include hinst

theorem heapQuiet_pageFault (p : Uintptr) (dirty : Byte) :
    HeapQuiet (carmorPageFault env p dirty) :=
  (noHeapCalls_linkFrame env dirty).pageFault hinst p

theorem noHeapCalls_bulkFrame : BulkFrame env NoHeapCalls where
  refl := NoHeapCalls.refl
  trans _ _ _ := NoHeapCalls.trans
  func w _ _ _ _ _ := heapQuiet_record (e := .func ..) rfl w
  funcSingle w _ _ _ := heapQuiet_record (e := .funcSingle ..) rfl w
  withMem _ _ := .of_trace_eq rfl
  pageFault := heapQuiet_pageFault hinst
  writeback p n := by
    have hframe := noHeapCalls_linkFrame env 0
    refine respects_writebackGeneric NoHeapCalls.refl hinst fun s _ => ?_
    refine heapQuiet_ite (heapQuiet_pure _) ?_
    refine heapQuiet_bind (hframe.directMpageSize _) fun size => ?_
    refine heapQuiet_bind (hframe.getDirectBuffer _) fun dest => ?_
    exact heapQuiet_bind (heapQuiet_record rfl) fun _ => heapQuiet_callStore _

theorem heapQuiet_memWrapperLoop (b : BulkOp) (fuel : Nat) (ctr : Int) (vl0 vr0 vl1 vr1 : Uintptr) :
    HeapQuiet (memWrapperLoop env b fuel ctr vl0 vr0 vl1 vr1) :=
  (noHeapCalls_bulkFrame hinst).memWrapperLoop b fuel ctr vl0 vr0 vl1 vr1

theorem heapQuiet_memWrapperSingleLoop (b : SingleOp) (fuel : Nat) (ctr : Int) (acc : SizeT)
    (dst0 dstOrig : Uintptr) : HeapQuiet (memWrapperSingleLoop env b fuel ctr acc dst0 dstOrig) :=
  (noHeapCalls_bulkFrame hinst).memWrapperSingleLoop b fuel ctr acc dst0 dstOrig

theorem heapQuiet_memcpy (fuel : Nat) (dest src : Uintptr) (n : SizeT) :
    HeapQuiet (carmorMemcpy env fuel dest src n) := by
  refine heapQuiet_bind ?_ fun _ => heapQuiet_pure _
  exact (noHeapCalls_bulkFrame hinst).memWrapper fuel dest src 1 0 n carmorMemcpyWrapper false

theorem heapQuiet_memset (fuel : Nat) (dest : Uintptr) (c : Int) (n : SizeT) :
    HeapQuiet (carmorMemset env fuel dest c n) := by
  refine heapQuiet_bind ?_ fun _ => heapQuiet_pure _
  exact (noHeapCalls_bulkFrame hinst).memWrapperSingle fuel dest c n carmorMemsetWrapper 1 false false

end Bulk

end Carmor
