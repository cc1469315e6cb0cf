import Carmor.Proofs.DirectStore
import Carmor.Proofs.HeapCalls
import Carmor.Proofs.Memcpy

/-!
# Read-only operations

`__carmor_memcmp` and `__carmor_memchr` only read. What they may leave behind is `ReadOnly`: no
write-back, no dirty flag that was clear, and the same stored bytes. `__carmor_memcmp` keeps to it;
`__carmor_memchr` does except on a direct store, where it writes the direct buffer back after every
chunk.
-/

namespace Carmor

variable {σ : Type}

/-! ## What a read may change -/

def Event.IsWriteBack : Event σ → Prop
  | .lstoreWriteBack .. => True
  | _ => False

/-- Nothing was written between the worlds, where `stored` are the bytes in storage. -/
structure ReadOnly (stored : Machine σ → Memory) (w w' : World σ) : Prop where
  noWriteBack : ∃ es, w'.trace = es ++ w.trace ∧ ∀ e ∈ es, ¬ e.IsWriteBack
  isDirty : ∀ r, ∀ e ∈ (w'.tlb r).entries, e.isDirty ≠ 0 → e ∈ (w.tlb r).entries
  stored : stored w'.toMachine = stored w.toMachine

theorem ReadOnly.refl (stored : Machine σ → Memory) (w : World σ) : ReadOnly stored w w :=
  ⟨⟨[], rfl, by simp⟩, fun _ _ he _ => he, rfl⟩

theorem ReadOnly.trans {stored : Machine σ → Memory} {w w₁ w' : World σ} (h : ReadOnly stored w w₁)
    (h' : ReadOnly stored w₁ w') : ReadOnly stored w w' := by
  obtain ⟨es, htrace, hes⟩ := h.noWriteBack
  obtain ⟨fs, htrace', hfs⟩ := h'.noWriteBack
  refine ⟨⟨fs ++ es, by rw [htrace', htrace, List.append_assoc], ?_⟩, ?_,
    h'.stored.trans h.stored⟩
  · intro e he
    rcases List.mem_append.mp he with he | he
    · exact hfs e he
    · exact hes e he
  · intro r e he hdirty
    exact h.isDirty r e (h'.isDirty r e he hdirty) hdirty

/-- A machine in a good state stays in one, with the same stored bytes. -/
def KeepsStored (good : Machine σ → Prop) (stored : Machine σ → Memory) (m m' : Machine σ) : Prop :=
  good m → good m' ∧ stored m' = stored m

/-- The callbacks that a read calls keep the stored bytes, in a store whose state is good. -/
structure ReadCallbacks (env : Env σ) (good : Machine σ → Prop) (stored : Machine σ → Memory) :
    Prop where
  mpfHandlerC : ∀ s u, Lib.Respects (KeepsStored good stored) ((env.stores s).mpfHandlerC u)
  mpfHandlerD : ∀ s u dst, Lib.Respects (KeepsStored good stored) ((env.stores s).mpfHandlerD u dst 0)
  notifyTlbDropped : ∀ s u d,
    Lib.Respects (KeepsStored good stored) ((env.stores s).notifyTlbDropped u d)
  notifyTlbCached : ∀ s u, Lib.Respects (KeepsStored good stored) ((env.stores s).notifyTlbCached u)
  memalign : ∀ n, Lib.Respects (KeepsStored good stored) (env.libc.memalign n n)

/-- `ReadOnly`, from a good state to a good state. -/
def OnlyReads (good : Machine σ → Prop) (stored : Machine σ → Memory) (w w' : World σ) : Prop :=
  good w.toMachine → good w'.toMachine ∧ ReadOnly stored w w'

section OnlyReads

variable {good : Machine σ → Prop} {stored : Machine σ → Memory}

theorem OnlyReads.refl (w : World σ) : OnlyReads good stored w w := fun hgood => ⟨hgood, .refl _ w⟩

theorem OnlyReads.trans (w w₁ w' : World σ) (h : OnlyReads good stored w w₁)
    (h' : OnlyReads good stored w₁ w') : OnlyReads good stored w w' := by
  intro hgood
  obtain ⟨hgood₁, hread⟩ := h hgood
  obtain ⟨hgood', hread'⟩ := h' hgood₁
  exact ⟨hgood', hread.trans hread'⟩

theorem onlyReads_log {e : Event σ} (he : ¬ e.IsWriteBack) (w : World σ) :
    OnlyReads good stored w (w.log e) :=
  fun hgood => ⟨hgood, ⟨[e], rfl, by simpa using he⟩, fun _ _ he _ => he, rfl⟩

theorem onlyReads_callStore {α : Type} {f : StoreExec σ α}
    (hf : Lib.Respects (KeepsStored good stored) f) :
    Lib.Respects (OnlyReads good stored) (callStore f) := by
  intro w hgood
  have hkeeps := hf w.toMachine hgood
  unfold callStore
  cases hrun : f w.toMachine with
  | ok a m =>
    rw [hrun] at hkeeps
    exact ⟨hkeeps.1, ⟨[], rfl, by simp⟩, fun _ _ he _ => he, hkeeps.2⟩
  | error e m =>
    rw [hrun] at hkeeps
    exact ⟨hkeeps.1, ⟨[], rfl, by simp⟩, fun _ _ he _ => he, hkeeps.2⟩

/-- An assigned TLB whose dirty entries were there before. -/
theorem onlyReads_withTlb {w : World σ} {r : TlbRef} {t : Tlb}
    (h : ∀ e ∈ t.entries, e.isDirty ≠ 0 → e ∈ (w.tlb r).entries) :
    OnlyReads good stored w (w.withTlb r t) := by
  intro hgood
  refine ⟨hgood, ⟨[], rfl, by simp⟩, ?_, rfl⟩
  intro q e he hdirty
  by_cases hq : q = r
  · subst hq
    rw [World.withTlb_tlb_self] at he
    exact h e he hdirty
  · rwa [World.withTlb_tlb_ne _ _ _ hq] at he

/-- A read-only function of libc. -/
theorem onlyReads_onMem {α : Type} {f : Memory → α × Memory} (hf : ∀ mem, (f mem).2 = mem) :
    Lib.Respects (OnlyReads good stored) (onMem f) := by
  intro w
  rw [onMem_apply, Lib.finalState_ok, hf]
  exact OnlyReads.refl w

end OnlyReads

theorem scan_zero {p : Unsigned} {es : List TlbEntry} {r : TlbEntry × List TlbEntry}
    (h : Tlb.scan p 0 es = some r) : r.2 = es := by
  induction es generalizing r with
  | nil => cases h
  | cons e es ih =>
    rw [Tlb.scan] at h
    split at h
    · obtain rfl := Option.some.inj h
      rw [show e.isDirty ||| (0 : Byte) = e.isDirty from BitVec.or_zero]
    · obtain ⟨q, hq, rfl⟩ := Option.map_eq_some_iff.mp h
      rw [ih hq]

/-- A hit for reading leaves the entries as they are. -/
theorem entries_of_lookup_zero {t t' : Tlb} {p : Unsigned} {entry : TlbEntry}
    (h : t.lookup p 0 = some (entry, t')) : t'.entries = t.entries := by
  rw [Tlb.lookup] at h
  split at h
  · cases h
  · rename_i r hscan
    cases h
    exact scan_zero hscan

theorem onlyReads_linkFrame {env : Env σ} {good : Machine σ → Prop} {stored : Machine σ → Memory}
    (h : ReadCallbacks env good stored) : LinkFrame env 0 (OnlyReads good stored) where
  refl := OnlyReads.refl
  trans := OnlyReads.trans
  log e w he := by
    refine onlyReads_log ?_ w
    cases e with
    | lstoreWriteBack => exact he.elim
    | _ => exact not_false
  mpfHandlerC s u := onlyReads_callStore (h.mpfHandlerC s u)
  mpfHandlerD s u dst := onlyReads_callStore (h.mpfHandlerD s u dst)
  notifyTlbDropped s u d := onlyReads_callStore (h.notifyTlbDropped s u d)
  notifyTlbCached s u := onlyReads_callStore (h.notifyTlbCached s u)
  memalign n := onlyReads_callStore (h.memalign n)
  hit {w r page entry tlb'} hlookup := by
    apply onlyReads_withTlb
    intro e he _
    rwa [entries_of_lookup_zero hlookup] at he
  miss s u res w r := by
    apply onlyReads_withTlb
    intro e he hdirty
    rcases List.mem_cons.mp he with rfl | he
    · exact absurd rfl hdirty
    · exact List.dropLast_subset _ he
  gtDirectBuffer w buffer hgood := ⟨hgood, ⟨[], rfl, by simp⟩, fun _ _ he _ => he, rfl⟩

/-! ## The two operations -/

section Operations

variable {env : Env σ} (hinst : ∀ s, TemplateInstance env s) {good : Machine σ → Prop}
  {stored : Machine σ → Memory} (hreads : ReadCallbacks env good stored)
include hinst hreads

/-- Every outcome of `__carmor_memcmp` has only read. -/
theorem memcmp_reads (fuel : Nat) (vl vr : Uintptr) (n : SizeT) :
    Lib.Respects (OnlyReads good stored) (carmorMemcmp env fuel vl vr n) := by
  have hfault := fun p => (onlyReads_linkFrame hreads).pageFault hinst p
  refine respects_memWrapper OnlyReads.refl OnlyReads.trans
    (fun _ _ _ => onlyReads_onMem fun _ => rfl) hfault hfault ?_ ?_ fuel vl vr n
  · intro b hb vl0 vr0 vl1 vr1 k
    refine Lib.respects_bind OnlyReads.trans (fun w => OnlyReads.refl w) fun w => ?_
    refine Lib.respects_bind OnlyReads.trans (onlyReads_log (e := .func ..) not_false) fun _ => ?_
    rw [hb]
    exact onlyReads_onMem fun _ => rfl
  · intro b hl hr vl1 vr1
    -- a clean operand is not written back
    have hclean : ∀ (o : Operand), o.dirty = 0 → ∀ p, writebackOperand env o p = pure () := by
      intro o ho p
      unfold writebackOperand
      rw [ho]
      cases o.params with
      | none => rfl
      | some params => rfl
    refine Lib.respects_ite ?_ (Lib.respects_pure OnlyReads.refl _)
    rw [hclean _ hl, hclean _ hr]
    exact Lib.respects_pure OnlyReads.refl _

/-- So has every outcome of `__carmor_memchr`, unless it calls `memchr` on a chunk of a direct
store. -/
theorem memchr_reads {p : Uintptr} {n : SizeT} (hdirect : ∀ s, switchCase p = some s →
      (env.stores s).lstoreIsDirect = true → toInt32 n ≤ 0) (fuel : Nat) (c : Int) :
    Lib.Respects (OnlyReads good stored) (carmorMemchr env fuel p c n) := by
  have hfault := fun q => (onlyReads_linkFrame hreads).pageFault hinst q
  refine respects_memWrapperSingle OnlyReads.refl OnlyReads.trans
    (fun _ => onlyReads_onMem fun _ => rfl) hfault ?_
  intro s htag params dst0
  cases hd : (env.stores s).lstoreIsDirect with
  | true =>
    have hcount := hdirect s htag hd
    intro w
    cases fuel with
    | zero => exact OnlyReads.refl w
    | succ fuel =>
      rw [memWrapperSingleLoop_done hcount]
      exact OnlyReads.refl w
  | false =>
    refine respects_memWrapperSingleLoop OnlyReads.refl OnlyReads.trans hfault ?_ fuel _ _ _ _
    intro dst dstOrig k
    refine Lib.respects_bind OnlyReads.trans (fun w => OnlyReads.refl w) fun w => ?_
    refine Lib.respects_bind OnlyReads.trans (onlyReads_log (e := .funcSingle ..) not_false) fun _ => ?_
    refine Lib.respects_bind OnlyReads.trans (onlyReads_onMem fun _ => rfl) fun res => ?_
    exact Lib.respects_pure OnlyReads.refl _

end Operations

/-! ## `__carmor_memchr` on a direct store -/

/-- Between the worlds a write-back was called. -/
def WritesBack (w w' : World σ) : Prop := ∃ es, w'.trace = es ++ w.trace ∧ ∃ e ∈ es, e.IsWriteBack

theorem WritesBack.not_readOnly {stored : Machine σ → Memory} {w w' : World σ} (h : WritesBack w w') :
    ¬ ReadOnly stored w w' := by
  rintro ⟨⟨fs, htrace', hfs⟩, -, -⟩
  obtain ⟨es, htrace, e, he, hwrites⟩ := h
  obtain rfl := List.append_cancel_right (htrace.symm.trans htrace')
  exact hfs e he hwrites

/-- A write-back in the middle of a run. -/
theorem WritesBack.between {w w₁ w₂ w' : World σ} (hbefore : w.trace <:+ w₁.trace)
    (h : WritesBack w₁ w₂) (hafter : w₂.trace <:+ w'.trace) : WritesBack w w' := by
  obtain ⟨es, htrace, e, he, hwrites⟩ := h
  obtain ⟨fs, hfs⟩ := hbefore
  obtain ⟨gs, hgs⟩ := hafter
  refine ⟨gs ++ es ++ fs, ?_, e, by simp [he], hwrites⟩
  rw [← hgs, htrace, ← hfs, List.append_assoc, List.append_assoc]

section Direct

variable {env : Env σ} (hinst : ∀ s, TemplateInstance env s) {s : StoreId} {p : Uintptr}
  (htag : switchCase p = some s)
include hinst htag

theorem writebackGeneric_writesBack {n : Int} {w w' : World σ}
    (h : carmorWritebackGeneric env p n w = .ok () w') : WritesBack w w' := by
  have hcarmor := isCarmorPtr_of_switchCase htag
  have hframe := noHeapCalls_linkFrame env 0
  unfold carmorWritebackGeneric at h
  rw [if_neg (by simp [hcarmor]), htag] at h
  simp only [(hinst s).writeback] at h
  unfold carmorWritebackDirectTemplate at h
  rw [if_neg (by simp [hcarmor])] at h
  obtain ⟨size, w₁, hsize, h⟩ := Lib.bind_eq_ok.mp h
  obtain ⟨dest, w₂, hdest, h⟩ := Lib.bind_eq_ok.mp h
  obtain ⟨_, w₃, hrecord, h⟩ := Lib.bind_eq_ok.mp h
  cases hrecord
  obtain ⟨m, -, rfl⟩ := callStore_eq_ok.mp h
  have hbefore := (HeapQuiet.of_ok (hframe.directMpageSize p) hsize).trans
    (HeapQuiet.of_ok (hframe.getDirectBuffer size) hdest)
  let saved : Event σ := .lstoreWriteBack s (makeOriginalPointer p) dest (BitVec.ofInt 64 n)
  exact .between hbefore.trace_suffix ⟨[saved], rfl, saved, List.mem_singleton_self _, trivial⟩
    (List.suffix_refl _)

/-- A call on a chunk of a direct store writes back, whatever the function does. -/
theorem callFuncSingle_writesBack {dirty : Byte} {c : Int} {func : MemFunctionSingle}
    {partialReturn aggregateRes : Bool} {dst0 res : Uintptr} {k : SizeT} {w w' : World σ}
    (h : callFuncSingle env ⟨operandOf env p dirty, c, true, func, partialReturn, aggregateRes⟩ dst0
      p k w = .ok res w') : WritesBack w w' := by
  unfold callFuncSingle at h
  rw [Lib.bind_of_ok (get_apply w), Lib.bind_of_ok (record_apply w _),
    Lib.bind_of_ok (onMem_apply _ _)] at h
  simp only [operandOf_tagged env htag] at h
  obtain ⟨_, w₁, hsave, hres⟩ := Lib.bind_eq_ok.mp h
  cases hres
  exact .between (List.suffix_cons _ _) (writebackGeneric_writesBack hinst htag hsave)
    (List.suffix_refl _)

/-- The wrapper writes back as soon as there is something to do. -/
theorem memWrapperSingle_writesBack (hdirect : (env.stores s).lstoreIsDirect = true) {n : SizeT}
    (hn : 0 < toInt32 n) {fuel : Nat} {c : Int} {func : MemFunctionSingle} {dirty : Byte}
    {partialReturn aggregateRes : Bool} {res : Uintptr} {w w' : World σ}
    (h : carmorMemWrapperSingle env fuel p c n func dirty partialReturn aggregateRes w = .ok res w') :
    WritesBack w w' := by
  have hs : s ≠ .lstore3 := by
    rintro rfl
    rw [memWrapperSingle_lstore3 fuel c n func dirty partialReturn aggregateRes htag] at h
    cases h
  rw [memWrapperSingle_tagged fuel c n func dirty partialReturn aggregateRes htag hs, hdirect] at h
  obtain ⟨dst0, w₂, hfault, h⟩ := Lib.bind_eq_ok.mp h
  have hbefore := HeapQuiet.of_ok (heapQuiet_pageFault hinst p dirty) hfault
  cases fuel with
  | zero => cases h
  | succ fuel =>
    unfold memWrapperSingleLoop at h
    rw [if_pos hn] at h
    simp only [] at h
    split at h
    · obtain ⟨res₁, w₃, hcall, h⟩ := Lib.bind_eq_ok.mp h
      have hrest := HeapQuiet.of_ok (heapQuiet_ite (heapQuiet_pure _) (heapQuiet_bind
        (heapQuiet_pageFault hinst _ _) fun dst0' =>
        heapQuiet_memWrapperSingleLoop hinst _ _ _ _ dst0' _)) h
      exact .between hbefore.trace_suffix (callFuncSingle_writesBack hinst htag hcall)
        hrest.trace_suffix
    · obtain ⟨res₁, w₃, hcall, h⟩ := Lib.bind_eq_ok.mp h
      have hrest := HeapQuiet.of_ok (heapQuiet_ite (heapQuiet_pure _)
        (heapQuiet_memWrapperSingleLoop hinst _ _ _ _ _ _)) h
      exact .between hbefore.trace_suffix (callFuncSingle_writesBack hinst htag hcall)
        hrest.trace_suffix

end Direct

/-- `__carmor_memcmp` only reads, however it ends. `__carmor_memchr` only reads, however it ends, if
its operand is not in a direct store or it has nothing to do, and a call that returns has only read
just in this case. -/
theorem readOnly_iff {env : Env σ} (hinst : ∀ s, TemplateInstance env s) {good : Machine σ → Prop}
    {stored : Machine σ → Memory} (hreads : ReadCallbacks env good stored) :
    (∀ fuel vl vr n w, good w.toMachine →
      ReadOnly stored w (Lib.finalState (carmorMemcmp env fuel vl vr n w))) ∧
    (∀ fuel p c n w, good w.toMachine →
      (∀ s, switchCase p = some s → (env.stores s).lstoreIsDirect = true → toInt32 n ≤ 0) →
      ReadOnly stored w (Lib.finalState (carmorMemchr env fuel p c n w))) ∧
    ∀ fuel p c n w res w', good w.toMachine → carmorMemchr env fuel p c n w = .ok res w' →
      (ReadOnly stored w w' ↔
        ∀ s, switchCase p = some s → (env.stores s).lstoreIsDirect = true → toInt32 n ≤ 0) := by
  refine ⟨?_, ?_, ?_⟩
  · intro fuel vl vr n w hgood
    exact (memcmp_reads hinst hreads fuel vl vr n w hgood).2
  · intro fuel p c n w hgood hdirect
    exact (memchr_reads hinst hreads hdirect fuel c w hgood).2
  · intro fuel p c n w res w' hgood hrun
    constructor
    · intro hread s htag hdirect
      by_contra hpos
      exact (memWrapperSingle_writesBack hinst htag hdirect (by omega) hrun).not_readOnly hread
    · intro hdirect
      have hread := (memchr_reads hinst hreads hdirect fuel c w hgood).2
      rwa [hrun, Lib.finalState_ok] at hread

/-! ## Small instances -/

theorem directEnv_instance (s : StoreId) : TemplateInstance directEnv s := ⟨.inl rfl, rfl⟩

theorem directEnv_readCallbacks :
    ReadCallbacks directEnv (fun _ => True) fun m => m.store where
  mpfHandlerC _ _ _ _ := ⟨trivial, rfl⟩
  mpfHandlerD _ _ _ _ _ := ⟨trivial, rfl⟩
  notifyTlbDropped _ _ _ _ _ := ⟨trivial, rfl⟩
  notifyTlbCached _ _ _ _ := ⟨trivial, rfl⟩
  memalign _ _ _ := ⟨trivial, rfl⟩

theorem smallEnv_instance (s : StoreId) : TemplateInstance smallEnv s :=
  ⟨.inr ⟨.inl rfl, smallGeometry, rfl, rfl, rfl, fun _ => rfl⟩, rfl⟩

theorem smallEnv_readCallbacks : ReadCallbacks smallEnv (fun _ => True) smallResidency.flat where
  mpfHandlerC _ _ _ _ := ⟨trivial, rfl⟩
  mpfHandlerD _ _ _ _ _ := ⟨trivial, rfl⟩
  notifyTlbDropped _ _ _ _ _ := ⟨trivial, rfl⟩
  notifyTlbCached _ _ _ _ := ⟨trivial, rfl⟩
  memalign _ _ _ := ⟨trivial, rfl⟩

/-- A comparison of a direct store with native memory, and a search in a cached store. -/
theorem readOnly_instances :
    ReadOnly (fun m => m.store) directWorld (Lib.finalState (carmorMemcmp directEnv 0x2000
      (makeMstorePtr .lstore0 0x1ff0) 0x400000 0x1010 directWorld)) ∧
    ReadOnly smallResidency.flat initialWorld (Lib.finalState (carmorMemchr smallEnv 0x2000
      (makeMstorePtr .lstore0 0x1ff0) 0x5a 0x1010 initialWorld)) := by
  refine ⟨(readOnly_iff directEnv_instance directEnv_readCallbacks).1 _ _ _ _ _ trivial,
    (readOnly_iff smallEnv_instance smallEnv_readCallbacks).2.1 _ _ _ _ _ trivial ?_⟩
  intro s _ hdirect
  cases hdirect

/-- A search for one byte in a direct store overwrites it with what the direct buffer held. -/
theorem not_readOnly_memchr : ∃ res w', carmorMemchr directEnv 2 (makeMstorePtr .lstore0 0x1000) 0x5a 1
      directWorld = .ok res w' ∧
    directWorld.store 0x1000 = 0xff ∧ w'.store 0x1000 = 0 ∧
    ¬ ReadOnly (fun m => m.store) directWorld w' := by
  have hsucceeds : Lib.succeeds (carmorMemchr directEnv 2 (makeMstorePtr .lstore0 0x1000) 0x5a 1
      directWorld) = true := by decide +kernel
  have hbyte : (Lib.finalState (carmorMemchr directEnv 2 (makeMstorePtr .lstore0 0x1000) 0x5a 1
      directWorld)).store 0x1000 = 0 := by decide +kernel
  obtain ⟨res, hrun⟩ := Lib.exists_ok_of_succeeds hsucceeds
  refine ⟨res, _, hrun, rfl, hbyte, ?_⟩
  intro hread
  have hsame := congrFun hread.stored 0x1000
  rw [hbyte] at hsame
  cases hsame

end Carmor
