import Carmor.Lib.Trace
import Carmor.Proofs.PinBalance

/-!
# Stores that share the TLB

The cached stores of a thread whose `lstore_get_tlb` is the template's share `gt_TLB`. Its entries
are found by their page index alone, so a store can hit an entry, or be notified of the eviction
of one, that another store inserted. `Isolated` says that it never does; whether it holds is
decided by the accessed stores and page indices, followed through the FIFO.
-/

namespace Carmor

variable {σ : Type}

/-! ## Entries of a store -/

/-- The store that made the latest insertion of the page index. -/
def inserter (env : Env σ) (index : Unsigned) : List (Event σ) → Option StoreId
  | [] => none
  | .notifyTlbCached t u :: older =>
      if bsPageIndex (env.stores t) u = index then some t else inserter env index older
  | _ :: older => inserter env index older

/-- The entry used is not one that another store inserted. -/
def EventIsolated (env : Env σ) (older : List (Event σ)) : Event σ → Prop
  | .tlbHit s e => inserter env e.bsPageIndex older ∈ [none, some s]
  | .notifyTlbDropped s _ _ e => inserter env e.bsPageIndex older ∈ [none, some s]
  | _ => True

instance (env : Env σ) (older : List (Event σ)) (e : Event σ) :
    Decidable (EventIsolated env older e) :=
  match e with
  | .tlbHit s e => inferInstanceAs (Decidable (inserter env e.bsPageIndex older ∈ [none, some s]))
  | .notifyTlbDropped s _ _ e =>
      inferInstanceAs (Decidable (inserter env e.bsPageIndex older ∈ [none, some s]))
  | .mpfHandlerC .. | .notifyTlbCached .. | .mpfHandlerD .. | .lstoreWriteBack .. | .pageFault ..
  | .func .. | .funcSingle .. | .lstoreAlloc .. | .lstoreAllocSize .. | .lstoreFree .. | .malloc ..
  | .realloc .. | .free .. => .isTrue trivial

/-- No hit takes its frame from an entry of another store, and no store is notified of the
eviction of an entry of another store. -/
def Isolated (env : Env σ) (trace : List (Event σ)) : Prop :=
  Lib.Trace.Everywhere (EventIsolated env) trace

/-! ## The FIFO of page indices and their stores -/

/-- The page indices in the TLB and the store that inserted each index last. -/
structure SharedFifo where
  pages : List Unsigned
  owner : Unsigned → Option StoreId

namespace SharedFifo

/-- An access of store `a.1` to the page index `a.2`. -/
def touch (F : SharedFifo) (a : StoreId × Unsigned) : SharedFifo where
  pages := Lib.Fifo.touch F.pages a.2
  owner := if a.2 ∈ F.pages then F.owner else fun q => if q = a.2 then some a.1 else F.owner q

/-- The index belongs to store `s` or to none. -/
def OwnedBy (F : SharedFifo) (s : StoreId) (index : Unsigned) : Prop :=
  F.owner index ∈ [none, some s]

/-- An access finds its page index in an entry of its own store, or evicts an entry of its own
store (or one without a page). -/
def Fair (F : SharedFifo) (a : StoreId × Unsigned) : Prop :=
  if a.2 ∈ F.pages then F.OwnedBy a.1 a.2
  else ∀ r ∈ F.pages.getLast?, 0 ≤ r.toInt → F.OwnedBy a.1 r

/-- The FIFO after `memset(gt_TLB, 0xFF, ...)`. -/
def filled : SharedFifo := ⟨List.replicate tlbSize emptyIndex, fun _ => none⟩

/-- The FIFO describes the TLB of a thread. -/
def Describes (env : Env σ) (F : SharedFifo) (w : World σ) : Prop :=
  (w.tlb .gtTLB).pages = F.pages ∧ ∀ q, inserter env q w.trace = F.owner q

end SharedFifo

/-! ## One access -/

section Access

variable {env : Env σ} {s : StoreId} {F : SharedFifo} {w w' : World σ}

theorem inserter_dropEvents (st : LStore σ) (u : Uintptr) (r : TlbEntry) (q : Unsigned)
    (older : List (Event σ)) :
    inserter env q (dropEvents st s u r ++ older) = inserter env q older := by
  rw [dropEvents]
  split <;> rfl

theorem inserter_pageFaults {es older : List (Event σ)}
    (hes : ∀ e ∈ es, ∃ p dirty, e = .pageFault p dirty) (q : Unsigned) :
    inserter env q (es ++ older) = inserter env q older := by
  induction es with
  | nil => rfl
  | cons e es ih =>
    obtain ⟨p, dirty, rfl⟩ := hes e List.mem_cons_self
    exact ih fun e he => hes e (List.mem_cons_of_mem _ he)

/-- An event that is not isolated, found at a position of the trace. -/
theorem not_isolated_of_drop {trace : List (Event σ)} (n : Nat)
    (h : (match trace.drop n with
      | [] => false
      | e :: older => decide (¬ EventIsolated env older e)) = true) : ¬ Isolated env trace := by
  intro hisolated
  cases hdrop : trace.drop n with
  | nil =>
    rw [hdrop] at h
    cases h
  | cons e older =>
    rw [hdrop] at h
    exact of_decide_eq_true h (hisolated e older (hdrop ▸ List.drop_suffix n trace))

theorem isolated_quiet (hquiet : Quiet w w') : Isolated env w'.trace ↔ Isolated env w.trace := by
  obtain ⟨es, htrace, hes⟩ := hquiet.trace
  rw [htrace]
  constructor
  · intro h
    exact Lib.Trace.Everywhere.suffix h (List.suffix_append es w.trace)
  · refine Lib.Trace.Everywhere.append ?_
    intro e he older
    obtain ⟨p, dirty, rfl⟩ := hes e he
    trivial

theorem SharedFifo.Describes.quiet (h : F.Describes env w) (hquiet : Quiet w w') :
    F.Describes env w' := by
  obtain ⟨es, htrace, hes⟩ := hquiet.trace
  refine ⟨by rw [hquiet.tlb]; exact h.1, ?_⟩
  intro q
  rw [htrace, inserter_pageFaults hes]
  exact h.2 q

variable (htlb : (env.stores s).lstoreGetTlb = .gtTLB) {u a : Uintptr} {ptrSize : Int}
  {dirty : Byte}
include htlb

/-- A passage through the TLB is an access of the FIFO. -/
theorem SharedFifo.Describes.linkStep (h : F.Describes env w)
    (hstep : LinkStep env s u ptrSize dirty w a w') :
    (F.touch (s, bsPageIndex (env.stores s) u)).Describes env w' := by
  have hpages := hstep.pages
  rw [htlb, h.1] at hpages
  refine ⟨hpages, ?_⟩
  intro q
  cases hstep with
  | @hit entry tlb' hlookup hsize =>
    have hmem : bsPageIndex (env.stores s) u ∈ F.pages := by
      by_contra hnot
      rw [← h.1] at hnot
      rw [htlb, Tlb.lookup_eq_none_iff.mpr hnot] at hlookup
      cases hlookup
    simpa [SharedFifo.touch, hmem, inserter] using h.2 q
  | @miss _ m₁ m₂ m₃ hlookup hhandler hdrop hcached hsize =>
    have hnot : bsPageIndex (env.stores s) u ∉ F.pages := by
      rw [htlb, Tlb.lookup_eq_none_iff] at hlookup
      rwa [← h.1]
    have hold : inserter env q (dropEvents (env.stores s) s u (w.tlb .gtTLB).last ++
        .mpfHandlerC s u a :: w.trace) = F.owner q := by
      rw [inserter_dropEvents]
      exact h.2 q
    simp only [SharedFifo.touch, if_neg hnot, World.afterMiss, inserter, htlb, hold]
    by_cases hq : bsPageIndex (env.stores s) u = q
    · simp [hq]
    · simp [hq, Ne.symm hq]

/-- A passage through the TLB keeps the stores isolated exactly if the access is fair. -/
theorem isolated_linkStep (h : F.Describes env w)
    (hstep : LinkStep env s u ptrSize dirty w a w') :
    Isolated env w'.trace ↔
      Isolated env w.trace ∧ F.Fair (s, bsPageIndex (env.stores s) u) := by
  cases hstep with
  | @hit entry tlb' hlookup hsize =>
    have hmem : bsPageIndex (env.stores s) u ∈ F.pages := by
      by_contra hnot
      rw [← h.1] at hnot
      rw [htlb, Tlb.lookup_eq_none_iff.mpr hnot] at hlookup
      cases hlookup
    obtain ⟨-, hindex, -⟩ := Tlb.lookup_eq_some hlookup
    have hevent : EventIsolated env w.trace (.tlbHit s entry) ↔
        F.Fair (s, bsPageIndex (env.stores s) u) := by
      simp only [EventIsolated, SharedFifo.Fair, if_pos hmem, SharedFifo.OwnedBy, hindex, h.2]
    rw [← hevent, and_comm]
    exact Lib.Trace.everywhere_cons
  | @miss _ m₁ m₂ m₃ hlookup hhandler hdrop hcached hsize =>
    have hnot : bsPageIndex (env.stores s) u ∉ F.pages := by
      rw [htlb, Tlb.lookup_eq_none_iff] at hlookup
      rwa [← h.1]
    have hlast : F.pages.getLast? = some (w.tlb .gtTLB).last.bsPageIndex := by
      rw [← h.1, Tlb.pages_getLast?]
    have htrace : Isolated env (w.afterMiss (env.stores s) s u a dirty m₃).trace ↔
        Isolated env (dropEvents (env.stores s) s u (w.tlb .gtTLB).last ++
          .mpfHandlerC s u a :: w.trace) := by
      rw [World.afterMiss, htlb]
      exact Lib.Trace.everywhere_cons.trans (and_iff_right trivial)
    have hbefore : Isolated env (.mpfHandlerC s u a :: w.trace) ↔ Isolated env w.trace :=
      Lib.Trace.everywhere_cons.trans (and_iff_right trivial)
    rw [htrace, SharedFifo.Fair, if_neg hnot, hlast, dropEvents]
    simp only [Option.mem_def, Option.some.injEq, forall_eq']
    split
    · rename_i hneg
      have hevent : EventIsolated env (.mpfHandlerC s u a :: w.trace)
          (.notifyTlbDropped s (removedBsPage (env.stores s) u (w.tlb .gtTLB).last)
            ((w.tlb .gtTLB).last.isDirty ≠ 0) (w.tlb .gtTLB).last) ↔
          F.OwnedBy s (w.tlb .gtTLB).last.bsPageIndex := by
        simp only [EventIsolated, SharedFifo.OwnedBy, ← h.2]
        rfl
      have hcons : Isolated env (.notifyTlbDropped s (removedBsPage (env.stores s) u
          (w.tlb .gtTLB).last) ((w.tlb .gtTLB).last.isDirty ≠ 0) (w.tlb .gtTLB).last ::
            .mpfHandlerC s u a :: w.trace) ↔ _ := Lib.Trace.everywhere_cons
      rw [List.singleton_append, hcons, hevent, and_comm]
      exact and_congr hbefore (by simp [hneg])
    · rename_i hneg
      simpa [hneg] using hbefore

end Access

/-- The page indices at which a sequence of calls on store `s` goes through the TLB. -/
def storeAccesses (st : LStore σ) (s : StoreId) (ps : List Uintptr) : List (StoreId × Unsigned) :=
  ps.map fun p => (s, bsPageIndex st (makeOriginalPointer p))

theorem isolated_run {env : Env σ} {s : StoreId} (htlb : (env.stores s).lstoreGetTlb = .gtTLB)
    {ps : List Uintptr} {w w' : World σ} (hrun : Lib.Run (AccessStep env s) w ps w')
    {F : SharedFifo} (h : F.Describes env w) :
    ((storeAccesses (env.stores s) s ps).foldl SharedFifo.touch F).Describes env w' ∧
      (Isolated env w'.trace ↔ Isolated env w.trace ∧
        Lib.Run.Followed SharedFifo.touch SharedFifo.Fair F (storeAccesses (env.stores s) s ps)) := by
  induction hrun generalizing F with
  | nil w => exact ⟨h, by simp [storeAccesses, Lib.Run.Followed]⟩
  | @cons w w₁ w' p ps hstep _ ih =>
    obtain ⟨ptrSize, dirty, a, v, v', hbefore, hlink, hafter⟩ := hstep
    have hv := h.quiet hbefore
    obtain ⟨hdescribes, hiff⟩ := ih ((hv.linkStep htlb hlink).quiet hafter)
    refine ⟨hdescribes, ?_⟩
    rw [hiff, isolated_quiet hafter, isolated_linkStep htlb hv hlink, isolated_quiet hbefore,
      and_assoc]
    rfl

/-! ## Runs of a thread with several stores -/

/-- What a thread does: link calls on pointers of a store, and initializations of stores. Memory
and the stores' state may change in between. -/
inductive SharedOp where
  | link (s : StoreId) (c : LinkCall)
  | init (s : StoreId) (privData : Uintptr)
  | other

namespace SharedOp

/-- The trace starts anew when an initialization fills the TLB. -/
inductive Step (env : Env σ) : World σ → SharedOp → World σ → Prop
  | link {w w' : World σ} {s : StoreId} {c : LinkCall} (h : c.Step env s w w') :
      Step env w (.link s c) w'
  | init {w w' : World σ} {s : StoreId} {privData : Uintptr} {res : Int}
      (h : carmorInitializeTemplate env s privData w = .ok res w') :
      Step env w (.init s privData)
        (if (env.stores s).lstoreIsDirect then w' else { w' with trace := [] })
  | other {w : World σ} (m : Machine σ) : Step env w .other (w.withMachine m)

/-- The accesses of an operation to the TLB. -/
def accesses (env : Env σ) : SharedOp → List (StoreId × Unsigned)
  | .link s c => storeAccesses (env.stores s) s (c.accesses (env.stores s))
  | .init _ _ => []
  | .other => []

/-- The FIFO after an operation. -/
def next (env : Env σ) (F : SharedFifo) : SharedOp → SharedFifo
  | .link s c => ((SharedOp.link s c).accesses env).foldl SharedFifo.touch F
  | .init s _ => if (env.stores s).lstoreIsDirect then F else .filled
  | .other => F

/-- The accesses of the operation are fair. -/
def Fair (env : Env σ) (F : SharedFifo) (op : SharedOp) : Prop :=
  Lib.Run.Followed SharedFifo.touch SharedFifo.Fair F (op.accesses env)

/-- A link call is made on pointers of a cached store that uses `gt_TLB`. -/
def OnSharedTlb (env : Env σ) (g : StoreId → StoreGeometry) : SharedOp → Prop
  | .link s c => CachedStore env s (g s) ∧ ∀ p ∈ c.accesses (env.stores s), switchCase p = some s
  | _ => True

end SharedOp

theorem carmorInitialize_direct_eq_ok {env : Env σ} {s : StoreId}
    (hdirect : (env.stores s).lstoreIsDirect = true) {privData : Uintptr} {res : Int}
    {w w' : World σ} (h : carmorInitializeTemplate env s privData w = .ok res w') :
    w'.tlb = w.tlb ∧ w'.trace = w.trace := by
  unfold carmorInitializeTemplate at h
  obtain ⟨r, w₁, hinit, hrest⟩ := Lib.bind_eq_ok.mp h
  obtain ⟨m, -, rfl⟩ := callStore_eq_ok.mp hinit
  by_cases hr : r = 0
  · rw [if_neg (not_not_intro hr), hdirect] at hrest
    cases hrest
    exact ⟨rfl, rfl⟩
  · rw [if_pos hr] at hrest
    cases hrest

/-- An operation moves the FIFO, and keeps the stores isolated exactly if its accesses are fair. -/
theorem isolated_step {env : Env σ} {g : StoreId → StoreGeometry} {op : SharedOp} {F : SharedFifo}
    {w w' : World σ} (hop : op.OnSharedTlb env g) (h : F.Describes env w)
    (hisolated : Isolated env w.trace) (hstep : SharedOp.Step env w op w') :
    (op.next env F).Describes env w' ∧ (Isolated env w'.trace ↔ op.Fair env F) := by
  cases hstep with
  | @link w' s c hcall =>
    obtain ⟨hstore, hptrs⟩ := hop
    have hrun := LinkCall.step_accesses hstore.geometry hstore.link hptrs hcall
    obtain ⟨hdescribes, hiff⟩ := isolated_run hstore.tlb hrun h
    refine ⟨hdescribes, hiff.trans (and_iff_right hisolated)⟩
  | @init w₁ s privData res hinit =>
    cases hdirect : (env.stores s).lstoreIsDirect with
    | true =>
      obtain ⟨htlb, htrace⟩ := carmorInitialize_direct_eq_ok hdirect hinit
      simp only [SharedOp.next, hdirect, if_true, SharedFifo.Describes, htlb, htrace]
      exact ⟨h, iff_of_true hisolated trivial⟩
    | false =>
      obtain ⟨htlb, -, -⟩ := carmorInitialize_eq_ok hdirect hinit
      simp only [SharedOp.next, hdirect, SharedFifo.Describes, SharedFifo.filled]
      refine ⟨⟨?_, fun _ => rfl⟩,
        iff_of_true Lib.Trace.everywhere_nil trivial⟩
      exact (congrArg Tlb.pages htlb).trans Tlb.pages_memset
  | other m => exact ⟨h, iff_of_true hisolated trivial⟩

/-- In a run of a thread the stores are isolated in every state exactly if every access is
fair. -/
theorem isolated_iff_fair {env : Env σ} {g : StoreId → StoreGeometry} {w₀ w : World σ}
    {ops : List SharedOp} (hops : ∀ op ∈ ops, op.OnSharedTlb env g) (htrace : w₀.trace = [])
    (hrun : Lib.Run (SharedOp.Step env) w₀ ops w) :
    Lib.Run.AllStates (SharedOp.Step env) (fun w => Isolated env w.trace) w₀ ops w ↔
      Lib.Run.Followed (SharedOp.next env) (SharedOp.Fair env)
        ⟨(w₀.tlb .gtTLB).pages, fun _ => none⟩ ops := by
  have hstep : ∀ w F op w', op ∈ ops → SharedFifo.Describes env F w → Isolated env w.trace →
      SharedOp.Step env w op w' →
        (op.next env F).Describes env w' ∧ (Isolated env w'.trace ↔ op.Fair env F) :=
    fun w F op w' hmem => isolated_step (hops op hmem)
  have hisolated : Isolated env w₀.trace := by
    rw [htrace]
    exact Lib.Trace.everywhere_nil
  have hdescribes : SharedFifo.Describes env ⟨(w₀.tlb .gtTLB).pages, fun _ => none⟩ w₀ := by
    refine ⟨rfl, ?_⟩
    intro q
    rw [htrace]
    rfl
  exact Lib.Run.allStates_iff_followed hstep hrun hisolated hdescribes

/-! ## One store in use -/

/-- No entry belongs to a store other than `s`. -/
def SharedFifo.OnlyOf (F : SharedFifo) (s : StoreId) : Prop := ∀ q, F.OwnedBy s q

theorem SharedFifo.OnlyOf.followed {s : StoreId} {st : LStore σ} (ps : List Uintptr)
    {F : SharedFifo} (h : F.OnlyOf s) :
    Lib.Run.Followed SharedFifo.touch SharedFifo.Fair F (storeAccesses st s ps) ∧
      ((storeAccesses st s ps).foldl SharedFifo.touch F).OnlyOf s := by
  induction ps generalizing F with
  | nil => exact ⟨trivial, h⟩
  | cons p ps ih =>
    have htouch : (F.touch (s, bsPageIndex st (makeOriginalPointer p))).OnlyOf s := by
      intro q
      simp only [SharedFifo.OwnedBy, SharedFifo.touch]
      split
      · exact h q
      · by_cases hq : q = bsPageIndex st (makeOriginalPointer p)
        · simp [hq]
        · have hold : F.owner q ∈ [none, some s] := h q
          simpa [hq] using hold
    have hfair : F.Fair (s, bsPageIndex st (makeOriginalPointer p)) := by
      rw [SharedFifo.Fair]
      split
      · exact h _
      · exact fun r _ _ => h r
    obtain ⟨hrest, hall⟩ := ih htouch
    exact ⟨⟨hfair, hrest⟩, hall⟩

/-- Every access is fair while the pointers of one store only are linked. -/
theorem followed_of_oneStore {env : Env σ} {s : StoreId} {ops : List SharedOp}
    (hops : ∀ t c, .link t c ∈ ops → t = s) {F : SharedFifo} (h : F.OnlyOf s) :
    Lib.Run.Followed (SharedOp.next env) (SharedOp.Fair env) F ops := by
  induction ops generalizing F with
  | nil => trivial
  | cons op ops ih =>
    have hrest : ∀ t c, .link t c ∈ ops → t = s := fun t c hc => hops t c (List.mem_cons_of_mem _ hc)
    cases op with
    | link t c =>
      obtain rfl := hops t c List.mem_cons_self
      obtain ⟨hfair, hall⟩ := h.followed (c.accesses (env.stores t))
      exact ⟨hfair, ih hrest hall⟩
    | init t privData =>
      refine ⟨trivial, ih hrest ?_⟩
      rw [SharedOp.next]
      split
      · exact h
      · exact fun q => List.mem_cons_self
    | other => exact ⟨trivial, ih hrest h⟩

/-! ## Runs on resident stores -/

/-- A read of 8 bytes at an address of a store of `smallEnv`. -/
def sharedRead (s : StoreId) (u : Uintptr) : SharedOp :=
  .link s ⟨false, makeMstorePtr s u, 8, 0, 0⟩

theorem sharedRead_onSharedTlb {s : StoreId} {u : Uintptr} (hu : u.toNat < 2 ^ 60) :
    (sharedRead s u).OnSharedTlb smallEnv fun _ => smallGeometry := by
  refine ⟨residentEnv_cachedStore _ _ s, ?_⟩
  intro p hp
  have hcarmor := isCarmorPtr_makeMstorePtr s u
  have hone : p = makeMstorePtr s u := by
    simpa [LinkCall.accesses, LinkCall.crosses, hcarmor] using hp
  rw [hone]
  exact switchCase_makeMstorePtr s hu

/-- Reads of 8 bytes at addresses of stores of `smallEnv`. -/
def readAll : List (StoreId × Uintptr) → Exec Pins Unit
  | [] => pure ()
  | r :: reads => do
      let _ ← LinkCall.exec smallEnv r.1 ⟨false, makeMstorePtr r.1 r.2, 8, 0, 0⟩
      readAll reads

theorem run_readAll {reads : List (StoreId × Uintptr)} {w w' : World Pins}
    (h : readAll reads w = .ok () w') :
    Lib.Run (SharedOp.Step smallEnv) w (reads.map fun r => sharedRead r.1 r.2) w' := by
  induction reads generalizing w with
  | nil =>
    obtain rfl := (EStateM.Result.ok.inj h).2
    exact .nil _
  | cons r reads ih =>
    obtain ⟨a, w₁, hstep, hrest⟩ := Lib.bind_eq_ok.mp h
    exact .cons (.link ⟨a, hstep⟩) (ih hrest)

/-- Two stores with different pages. -/
def separateReads : List (StoreId × Uintptr) := [(.lstore0, 0x3000), (.lstore1, 0x4000)]

/-- Two stores with the same page index. -/
def sameIndexReads : List (StoreId × Uintptr) := [(.lstore0, 0x3000), (.lstore1, 0x3008)]

/-- A page of `lstore0`, and five pages of `lstore1` that push it out. -/
def evictingReads : List (StoreId × Uintptr) :=
  [(.lstore0, 0x8000), (.lstore1, 0x9000), (.lstore1, 0xa000), (.lstore1, 0xb000),
    (.lstore1, 0xc000), (.lstore1, 0xd000)]

/-- The world after the reads, made from `initialWorld`. -/
def worldAfterReads (reads : List (StoreId × Uintptr)) : World Pins :=
  Lib.finalState (readAll reads initialWorld)

theorem run_worldAfterReads {reads : List (StoreId × Uintptr)}
    (h : Lib.succeeds (readAll reads initialWorld) = true) :
    Lib.Run (SharedOp.Step smallEnv) initialWorld (reads.map fun r => sharedRead r.1 r.2)
      (worldAfterReads reads) :=
  run_readAll (Lib.exists_ok_of_succeeds h).choose_spec

theorem isolated_iff_fair_separateReads :
    Lib.Run.AllStates (SharedOp.Step smallEnv) (fun w => Isolated smallEnv w.trace) initialWorld
        (separateReads.map fun r => sharedRead r.1 r.2) (worldAfterReads separateReads) ↔
      Lib.Run.Followed (SharedOp.next smallEnv) (SharedOp.Fair smallEnv)
        ⟨(initialWorld.tlb .gtTLB).pages, fun _ => none⟩
        (separateReads.map fun r => sharedRead r.1 r.2) := by
  refine isolated_iff_fair (g := fun _ => smallGeometry) ?_ rfl
    (run_worldAfterReads (by decide +kernel))
  intro op hop
  obtain ⟨r, hr, rfl⟩ := List.mem_map.mp hop
  rcases List.mem_cons.mp hr with rfl | hr
  · exact sharedRead_onSharedTlb (by decide)
  · obtain rfl := List.mem_singleton.mp hr
    exact sharedRead_onSharedTlb (by decide)

/-- `lstore1` hits the entry of `lstore0`, and is notified of the eviction of an entry of
`lstore0`. -/
theorem not_isolated_shared :
    (∃ w, Lib.Run (SharedOp.Step smallEnv) initialWorld
      (sameIndexReads.map fun r => sharedRead r.1 r.2) w ∧ ¬ Isolated smallEnv w.trace) ∧
    ∃ w, Lib.Run (SharedOp.Step smallEnv) initialWorld
      (evictingReads.map fun r => sharedRead r.1 r.2) w ∧ ¬ Isolated smallEnv w.trace :=
  ⟨⟨_, run_worldAfterReads (by decide +kernel), not_isolated_of_drop 0 (by decide +kernel)⟩,
    ⟨_, run_worldAfterReads (by decide +kernel), not_isolated_of_drop 1 (by decide +kernel)⟩⟩

end Carmor
