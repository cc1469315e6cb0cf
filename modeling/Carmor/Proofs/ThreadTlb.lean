import Carmor.Lib.Trace
import Carmor.Process
import Carmor.Proofs.PinBalance

/-!
# TLB entries of a thread

`Sound` says of a thread's trace that every TLB hit and every drop notification is for an entry
that the thread inserted before, with a frame that `mpf_handler_c` returned. The filled TLB of
the initializing thread keeps its trace sound. The zeroed TLB of any other thread holds entries
of page 0 that the thread's first access hits or evicts.
-/

namespace Carmor

variable {σ : Type}

/-- The calls `older` include the insertion of page `page` with a frame that `mpf_handler_c`
returned for it, kept in 16 bits. -/
def Inserted (g : StoreGeometry) (s : StoreId) (older : List (Event σ))
    (mapping : Unsigned × BitVec 16) : Prop :=
  ∃ ptr res, .mpfHandlerC s ptr res ∈ older ∧ .notifyTlbCached s ptr ∈ older ∧
    g.page ptr = mapping.1.toNat ∧
    (res - g.cacheBase).toNat / g.pageSize % 2 ^ 16 = mapping.2.toNat

/-- What is required of a call that follows the calls `older`. -/
def EventSound (g : StoreGeometry) (s : StoreId) (older : List (Event σ)) : Event σ → Prop
  | .tlbHit s' e => s' = s → Inserted g s older (e.bsPageIndex, e.epcPageIndex)
  | .notifyTlbDropped s' _ _ e => s' = s → Inserted g s older (e.bsPageIndex, e.epcPageIndex)
  | _ => True

/-- Every TLB hit and every drop notification of the trace is for an entry that was inserted
before. -/
def Sound (g : StoreGeometry) (s : StoreId) (trace : List (Event σ)) : Prop :=
  Lib.Trace.Everywhere (EventSound g s) trace

section Sound

variable {g : StoreGeometry} {s : StoreId}

theorem Inserted.mono {older newer : List (Event σ)} {mapping : Unsigned × BitVec 16}
    (h : Inserted g s older mapping) (hsub : ∀ e ∈ older, e ∈ newer) :
    Inserted g s newer mapping := by
  obtain ⟨ptr, res, hhandler, hcached, hpage, hframe⟩ := h
  exact ⟨ptr, res, hsub _ hhandler, hsub _ hcached, hpage, hframe⟩

/-- Calls of `__carmor_page_fault` are no hits and no notifications. -/
theorem sound_append_pageFaults {es trace : List (Event σ)}
    (hes : ∀ e ∈ es, ∃ p dirty, e = .pageFault p dirty) (h : Sound g s trace) :
    Sound g s (es ++ trace) := by
  refine Lib.Trace.Everywhere.append ?_ h
  intro e he older
  obtain ⟨p, dirty, rfl⟩ := hes e he
  trivial

end Sound

/-! ## The initializing thread -/

/-- The invariant of a thread whose TLB was filled with `0xFF`. -/
structure SoundThread (g : StoreGeometry) (s : StoreId) (t : Thread σ) : Prop where
  sound : Sound g s t.trace
  inserted : ∀ mapping ∈ (t.tlb .gtTLB).mappings,
    mapping.1 = emptyIndex ∨ Inserted g s t.trace mapping

section Step

variable {env : Env σ} {s : StoreId} {g : StoreGeometry} (hgeom : (env.stores s).HasGeometry g)
  (htlb : (env.stores s).lstoreGetTlb = .gtTLB) {u a : Uintptr} (hu : g.page u < 2 ^ 31)
  {ptrSize : Int} {dirty : Byte} {w w' : World σ}
include hgeom htlb hu

theorem soundThread_linkStep (hsound : SoundThread g s w.toThread)
    (hstep : LinkStep env s u ptrSize dirty w a w') : SoundThread g s w'.toThread := by
  have hgrow := fun e he => hstep.trace_suffix.mem (a := e) he
  cases hstep with
  | @hit entry tlb' hlookup hsize =>
    rw [htlb] at hlookup
    obtain ⟨hmem, hindex, hmappings⟩ := Tlb.lookup_eq_some hlookup
    have hne : entry.bsPageIndex ≠ emptyIndex := by
      rw [hindex]
      exact bsPageIndex_ne_emptyIndex hgeom (by omega)
    refine ⟨Lib.Trace.everywhere_cons.mpr ⟨?_, hsound.sound⟩, ?_⟩
    · intro _
      exact (hsound.inserted _ (Tlb.mapping_mem hmem)).resolve_left hne
    · intro mapping hmapping
      have hold : mapping ∈ (w.tlb .gtTLB).mappings := by
        rw [← hmappings]
        simpa [htlb] using hmapping
      exact (hsound.inserted mapping hold).imp_right fun h => h.mono hgrow
  | @miss _ m₁ m₂ m₃ hlookup hhandler hdrop hcached hsize =>
    have hlast := hsound.inserted _ (Tlb.mapping_mem (Tlb.last_mem (w.tlb .gtTLB)))
    have hindex := toNat_bsPageIndex hgeom u
    refine ⟨Lib.Trace.everywhere_cons.mpr ⟨trivial, ?_⟩, ?_⟩
    · -- the evicted entry is notified only if it is not empty
      rw [htlb, dropEvents]
      split
      · rename_i hneg
        refine Lib.Trace.everywhere_cons.mpr
          ⟨fun _ => ?_, Lib.Trace.everywhere_cons.mpr ⟨trivial, hsound.sound⟩⟩
        exact (hlast.resolve_left (ne_emptyIndex_of_nonneg hneg)).mono
          fun e he => List.mem_cons_of_mem _ he
      · exact Lib.Trace.everywhere_cons.mpr ⟨trivial, hsound.sound⟩
    · intro mapping hmapping
      have hpush := w.afterMiss_tlb_self (env.stores s) s u a dirty m₃
      rw [htlb] at hpush
      rw [hpush, Tlb.mappings_push] at hmapping
      rcases List.mem_cons.mp hmapping with rfl | hold
      · refine Or.inr ⟨u, a, ?_, List.mem_cons_self, ?_, ?_⟩
        · exact List.mem_cons_of_mem _ (List.mem_append_right _ List.mem_cons_self)
        · show g.page u = (bsPageIndex (env.stores s) u).toNat
          omega
        · exact (toNat_missEntry_epcPageIndex hgeom u a dirty).symm
      · have hmem := (List.dropLast_sublist _).mem hold
        exact (hsound.inserted mapping hmem).imp_right fun h => h.mono hgrow

end Step

theorem soundThread_quiet {g : StoreGeometry} {s : StoreId} {w w' : World σ}
    (hquiet : Quiet w w') (hsound : SoundThread g s w.toThread) : SoundThread g s w'.toThread := by
  obtain ⟨es, htrace, hes⟩ := hquiet.trace
  refine ⟨?_, ?_⟩
  · rw [htrace]
    exact sound_append_pageFaults hes hsound.sound
  · intro mapping hmapping
    rw [hquiet.tlb] at hmapping
    refine (hsound.inserted mapping hmapping).imp_right fun h => h.mono ?_
    intro e he
    rw [htrace]
    exact List.mem_append_right es he

/-- The invariant of the initializing thread after `__carmor_initialize_template`. -/
theorem soundThread_initial {g : StoreGeometry} {s : StoreId} {w : World σ}
    (htlb : w.tlb .gtTLB = Tlb.memset 0xff) (htrace : w.trace = []) :
    SoundThread g s w.toThread := by
  refine ⟨by rw [htrace]; exact Lib.Trace.everywhere_nil, ?_⟩
  intro mapping hmapping
  rw [htlb, Tlb.mappings_memset] at hmapping
  rw [List.eq_of_mem_replicate hmapping]
  exact Or.inl rfl

/-! ## The other threads -/

/-- A thread that has made no access: its TLB is zero, and only page faults are recorded. -/
structure Unused (t : Thread σ) : Prop where
  tlb : t.tlb .gtTLB = Tlb.memset 0
  trace : ∀ e ∈ t.trace, ∃ p dirty, e = .pageFault p dirty

theorem Unused.not_inserted {g : StoreGeometry} {s : StoreId} {t : Thread σ} (h : Unused t)
    {mapping : Unsigned × BitVec 16} : ¬ Inserted g s t.trace mapping := by
  rintro ⟨ptr, res, hhandler, -⟩
  obtain ⟨p, dirty, heq⟩ := h.trace _ hhandler
  cases heq

/-- The first access of a thread with a zeroed TLB hits an entry that was never inserted, or
notifies the eviction of one. -/
theorem not_sound_linkStep {env : Env σ} {s : StoreId} {g : StoreGeometry}
    (htlb : (env.stores s).lstoreGetTlb = .gtTLB) {u a : Uintptr} {ptrSize : Int} {dirty : Byte}
    {w w' : World σ} (hunused : Unused w.toThread)
    (hstep : LinkStep env s u ptrSize dirty w a w') : ¬ Sound g s w'.trace := by
  cases hstep with
  | @hit entry tlb' hlookup hsize =>
    intro hsound
    exact hunused.not_inserted ((Lib.Trace.everywhere_cons.mp hsound).1 rfl)
  | @miss _ m₁ m₂ m₃ hlookup hhandler hdrop hcached hsize =>
    intro hsound
    have hrest := (Lib.Trace.everywhere_cons.mp hsound).2
    rw [htlb, hunused.tlb] at hrest
    have hdropped := (Lib.Trace.everywhere_cons.mp hrest).1
    obtain ⟨ptr, res, -, hinserted, -⟩ := hdropped rfl
    rcases List.mem_cons.mp hinserted with heq | hmem
    · cases heq
    · obtain ⟨p, flag, heq⟩ := hunused.trace _ hmem
      cases heq

/-! ## Runs of the process -/

section Runs

variable {env : Env σ} {s : StoreId} {g : StoreGeometry}

theorem run_soundThread (hgeom : (env.stores s).HasGeometry g)
    (htlb : (env.stores s).lstoreGetTlb = .gtTLB) {ps : List Uintptr} {w w' : World σ}
    (hps : ∀ p ∈ ps, g.page (makeOriginalPointer p) < 2 ^ 31)
    (hrun : Lib.Run (AccessStep env s) w ps w') (hsound : SoundThread g s w.toThread) :
    SoundThread g s w'.toThread := by
  refine hrun.invariant (I := fun w => SoundThread g s w.toThread) ?_ hsound
  intro w p w' hp hsound hstep
  obtain ⟨ptrSize, dirty, a, v, v', hbefore, hlink, hafter⟩ := hstep
  have hv := soundThread_quiet hbefore hsound
  exact soundThread_quiet hafter (soundThread_linkStep hgeom htlb (hps p hp) hv hlink)

theorem run_not_sound (htlb : (env.stores s).lstoreGetTlb = .gtTLB) {p : Uintptr}
    {ps : List Uintptr} {w w' : World σ} (hrun : Lib.Run (AccessStep env s) w (p :: ps) w')
    (hunused : Unused w.toThread) : ¬ Sound g s w'.trace := by
  cases hrun with
  | @cons _ w₁ _ _ _ hstep hrest =>
    obtain ⟨ptrSize, dirty, a, v, v', hbefore, hlink, hafter⟩ := hstep
    have hv : Unused v.toThread := by
      obtain ⟨es, htrace, hes⟩ := hbefore.trace
      refine ⟨(congrFun hbefore.tlb .gtTLB).trans hunused.tlb, ?_⟩
      intro e he
      rw [htrace] at he
      rcases List.mem_append.mp he with he | he
      · exact hes e he
      · exact hunused.trace e he
    have hsuffix : v'.trace <:+ w'.trace := by
      refine hafter.trace_suffix.trans ?_
      refine hrest.invariant (I := fun w => w₁.trace <:+ w.trace) ?_ (List.suffix_refl _)
      intro t q t' _ ht hstep
      exact ht.trans hstep.trace_suffix
    intro hsound
    exact not_sound_linkStep htlb hv hlink (Lib.Trace.Everywhere.suffix hsound hsuffix)

theorem Process.Step.trace_suffix (hstore : CachedStore env s g) {P P' : Process σ}
    {l : Process.Label} {i : Nat}
    (hl : ∀ c, l = .call i c → ∀ p ∈ c.accesses (env.stores s), switchCase p = some s)
    (h : Process.Step env s P l P') : (P.threads i).trace <:+ (P'.threads i).trace := by
  cases h with
  | other m => exact List.suffix_refl _
  | @call j c w hstep =>
    by_cases hij : i = j
    · subst hij
      rw [Process.update_threads_self]
      have hrun := LinkCall.step_accesses hstore.geometry hstore.link (hl c rfl) hstep
      refine hrun.invariant (I := fun w => (P.threads i).trace <:+ w.trace) ?_ (List.suffix_refl _)
      intro t q t' _ ht hstep
      exact ht.trans hstep.trace_suffix
    · rw [Process.update_threads_ne hij]

/-- The trace of a thread that starts unused stays sound exactly while it makes no access. -/
theorem run_unused (hstore : CachedStore env s g) {i : Nat} {ls : List Process.Label}
    {P P' : Process σ} (hls : ∀ c ∈ Process.callsOf i ls, c.InStorage env s g (2 ^ 31))
    (hrun : Lib.Run (Process.Step env s) P ls P') (hunused : Unused (P.threads i)) :
    Sound g s (P'.threads i).trace ↔
      ∀ c ∈ Process.callsOf i ls, c.accesses (env.stores s) = [] := by
  induction hrun with
  | nil P =>
    refine iff_of_true ?_ ?_
    · rw [← List.append_nil (P.threads i).trace]
      exact sound_append_pageFaults hunused.trace Lib.Trace.everywhere_nil
    · intro c hc
      cases hc
  | @cons P P₁ P' l ls hstep hrest ih =>
    cases hstep with
    | other m => exact ih hls hunused
    | @call j c w hcall =>
      by_cases hij : j = i
      · subst hij
        rw [Process.callsOf, if_pos rfl] at hls ⊢
        have hc := hls c List.mem_cons_self
        have haccesses := LinkCall.step_accesses hstore.geometry hstore.link
          (fun p hp => (hc p hp).1) hcall
        have hrestDom := fun d hd => hls d (List.mem_cons_of_mem _ hd)
        cases hps : c.accesses (env.stores s) with
        | nil =>
          -- the call returns a native pointer: the thread is still unused
          rw [hps] at haccesses
          have hw : w = P.view j := by
            cases haccesses
            rfl
          have hthread : (P.update j w).threads j = P.threads j := by
            rw [Process.update_threads_self, hw]
            rfl
          rw [ih hrestDom (by rwa [hthread]), List.forall_mem_cons]
          exact (and_iff_right hps).symm
        | cons p ps =>
          rw [hps] at haccesses
          have hbroken := run_not_sound (g := g) hstore.tlb haccesses hunused
          refine iff_of_false ?_ ?_
          · intro hsound
            refine hbroken (Lib.Trace.Everywhere.suffix hsound ?_)
            refine hrest.invariant (I := fun Q => w.trace <:+ (Q.threads j).trace) ?_ ?_
            · intro Q l Q' hl hQ hstep
              refine hQ.trans (hstep.trace_suffix hstore ?_)
              rintro d rfl q hq
              exact (hrestDom d (Process.mem_callsOf.mpr hl) q hq).1
            · rw [Process.update_threads_self]
          · intro hnone
            have hnil := hnone c List.mem_cons_self
            rw [hps] at hnil
            cases hnil
      · rw [Process.callsOf, if_neg hij] at hls ⊢
        refine ih hls ?_
        rwa [Process.update_threads_ne (Ne.symm hij)]

theorem run_soundThread_process (hstore : CachedStore env s g) {i : Nat}
    {ls : List Process.Label} {P P' : Process σ}
    (hls : ∀ c ∈ Process.callsOf i ls, c.InStorage env s g (2 ^ 31))
    (hrun : Lib.Run (Process.Step env s) P ls P') (hsound : SoundThread g s (P.threads i)) :
    SoundThread g s (P'.threads i) := by
  refine hrun.invariant (I := fun P => SoundThread g s (P.threads i)) ?_ hsound
  intro P l P' hl hsound hstep
  cases hstep with
  | other m => exact hsound
  | @call j c w hcall =>
    by_cases hij : j = i
    · subst hij
      rw [Process.update_threads_self]
      have hc := hls c (Process.mem_callsOf.mpr hl)
      have haccesses := LinkCall.step_accesses hstore.geometry hstore.link
        (fun p hp => (hc p hp).1) hcall
      exact run_soundThread hstore.geometry hstore.tlb (fun p hp => (hc p hp).2) haccesses hsound
    · rwa [Process.update_threads_ne (Ne.symm hij)]

end Runs

/-- In a process whose thread `t₀` runs `__carmor_initialize_template`, the hits and the drop
notifications of a thread are all for entries that it inserted exactly when the thread is `t₀` or
makes no access through its TLB. -/
theorem sound_iff_initialized {env : Env σ} {s : StoreId} {g : StoreGeometry}
    (hstore : CachedStore env s g) {P₀ P : Process σ} (hfresh : P₀.Fresh) {t₀ : Nat}
    {privData : Uintptr} {res : Int} {w : World σ}
    (hinit : carmorInitializeTemplate env s privData (P₀.view t₀) = .ok res w)
    {ls : List Process.Label}
    (hls : ∀ i c, .call i c ∈ ls → c.InStorage env s g (2 ^ 31))
    (hrun : Lib.Run (Process.Step env s) (P₀.update t₀ w) ls P) (i : Nat) :
    Sound g s (P.threads i).trace ↔
      i = t₀ ∨ ∀ c ∈ Process.callsOf i ls, c.accesses (env.stores s) = [] := by
  have hcalls := fun c hc => hls i c (Process.mem_callsOf.mp hc)
  by_cases hi : i = t₀
  · subst hi
    obtain ⟨htlb, -, htrace⟩ := carmorInitialize_eq_ok hstore.isCached hinit
    have htrace' : w.trace = [] := by
      rw [htrace]
      show (P₀.threads i).trace = []
      rw [hfresh i]
      rfl
    have hstart : SoundThread g s ((P₀.update i w).threads i) := by
      rw [Process.update_threads_self]
      exact soundThread_initial htlb htrace'
    exact iff_of_true (run_soundThread_process hstore hcalls hrun hstart).sound (Or.inl rfl)
  · have hunused : Unused ((P₀.update t₀ w).threads i) := by
      rw [Process.update_threads_ne hi, hfresh i]
      exact ⟨rfl, by intro e he; cases he⟩
    rw [run_unused hstore hcalls hrun hunused]
    exact (or_iff_right hi).symm

/-- A process of fresh threads. -/
def freshProcess : Process Pins := ⟨⟨fun _ => 0, fun _ _ => 0⟩, fun _ => Thread.fresh⟩

theorem freshProcess_fresh : freshProcess.Fresh := fun _ => rfl

theorem carmorInitialize_freshProcess :
    carmorInitializeTemplate smallEnv .lstore0 0 (freshProcess.view 0) = .ok 0 initialWorld :=
  carmorInitialize_smallEnv

/-- Thread 0 stays sound over hits, misses and an eviction. -/
theorem sound_initializingThread :
    Sound smallGeometry .lstore0 (((freshProcess.update 0 initialWorld).update 0 (worldAfter
      (readCalls [0x0, 0x10, 0x1000, 0x2000, 0x3000, 0x4000, 0x5000, 0x0]))).threads 0).trace := by
  have hcalls : ∀ c ∈ readCalls [0x0, 0x10, 0x1000, 0x2000, 0x3000, 0x4000, 0x5000, 0x0],
      c.InStorage smallEnv .lstore0 smallGeometry (2 ^ 31) :=
    LinkCall.inStorage_of_all (by decide +kernel)
  have hlabels : ∀ i c, Process.Label.call i c ∈
      (readCalls [0x0, 0x10, 0x1000, 0x2000, 0x3000, 0x4000, 0x5000, 0x0]).map (.call 0) →
      c.InStorage smallEnv .lstore0 smallGeometry (2 ^ 31) := by
    intro i c hc
    obtain ⟨d, hd, heq⟩ := List.mem_map.mp hc
    cases heq
    exact hcalls c hd
  have hreturns : Lib.succeeds (LinkCall.execAll smallEnv .lstore0
      (readCalls [0x0, 0x10, 0x1000, 0x2000, 0x3000, 0x4000, 0x5000, 0x0]) initialWorld) = true := by
    decide +kernel
  have hrun := run_worldAfter hreturns
  rw [← Process.view_update freshProcess 0 initialWorld] at hrun
  have hsound := sound_iff_initialized smallEnv_cachedStore freshProcess_fresh
    carmorInitialize_freshProcess hlabels (Process.run_calls hrun) 0
  exact hsound.mpr (Or.inl rfl)

/-- A read in page 0 by thread 1 hits an entry that thread 1 never inserted. -/
theorem not_sound_otherThread : ∃ P, (∀ c ∈ readCalls [0x10],
      c.InStorage smallEnv .lstore0 smallGeometry (2 ^ 31)) ∧
    Lib.Run (Process.Step smallEnv .lstore0) (freshProcess.update 0 initialWorld)
      ((readCalls [0x10]).map (.call 1)) P ∧
    ¬ Sound smallGeometry .lstore0 (P.threads 1).trace := by
  have hcalls : ∀ c ∈ readCalls [0x10],
      c.InStorage smallEnv .lstore0 smallGeometry (2 ^ 31) :=
    LinkCall.inStorage_of_all (by decide +kernel)
  obtain ⟨_, hexec⟩ := Lib.exists_ok_of_succeeds (r := LinkCall.execAll smallEnv .lstore0
    (readCalls [0x10]) ((freshProcess.update 0 initialWorld).view 1)) (by decide +kernel)
  have hrun := LinkCall.run_of_execAll hexec
  have haccess := LinkCall.run_accesses smallEnv_cachedStore.geometry smallEnv_cachedStore.link
    (fun c hc p hp => (hcalls c hc p hp).1) hrun
  have hpages : ((readCalls [0x10]).flatMap fun c => c.accesses (smallEnv.stores .lstore0)) =
      [makeMstorePtr .lstore0 0x10] := by
    decide +kernel
  rw [hpages] at haccess
  have hunused : Unused ((freshProcess.update 0 initialWorld).view 1).toThread :=
    ⟨rfl, fun _ he => nomatch he⟩
  refine ⟨_, hcalls, Process.run_calls hrun, ?_⟩
  rw [Process.update_threads_self]
  exact run_not_sound smallEnv_cachedStore.tlb haccess hunused

end Carmor
