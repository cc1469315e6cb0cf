import Carmor.Proofs.Resident

/-!
# Pins

A store counts the notifications of a page: `notify_tlb_cached` pins it and
`notify_tlb_dropped` gives the pin back. `World.excess` compares the pins a thread holds with the
pages in its TLB. No passage through the TLB lowers the excess of a page, and an eviction raises
it exactly when its drop notification does not reach the page of the evicted entry.
-/

namespace Carmor

variable {σ : Type}

/-- The index that `memset(gt_TLB, 0xFF, ...)` leaves in every entry. -/
def emptyIndex : Unsigned := 0xffffffff

theorem emptyIndex_toInt : emptyIndex.toInt = -1 := rfl

theorem emptyIndex_toNat : emptyIndex.toNat = 2 ^ 32 - 1 := rfl

theorem ne_emptyIndex_of_nonneg {p : Unsigned} (hp : 0 ≤ p.toInt) : p ≠ emptyIndex := by
  rintro rfl
  rw [emptyIndex_toInt] at hp
  omega

theorem ne_emptyIndex_of_lt {p : Unsigned} (hp : p.toNat < 2 ^ 32 - 1) : p ≠ emptyIndex := by
  rintro rfl
  rw [emptyIndex_toNat] at hp
  omega

theorem StoreGeometry.index_ne_emptyIndex {g : StoreGeometry} {u : Uintptr}
    (hu : g.page u < 2 ^ 32 - 1) : g.index u ≠ emptyIndex := by
  refine ne_emptyIndex_of_lt ?_
  rwa [toNat_index hu]

/-- A page that a miss keeps is not the page of the entry that it evicts. -/
theorem Tlb.page_ne_last {t : Tlb} (h : Lib.Fifo.Distinct emptyIndex t.pages) {p : Unsigned}
    (hp : p ∈ t.pages.dropLast) (hne : p ≠ emptyIndex) : p ≠ t.last.bsPageIndex := by
  intro heq
  have hlast := h.getLast_notMem_dropLast t.pages_ne_nil
  rw [Tlb.pages_getLast, ← heq] at hlast
  exact hlast hne hp

theorem Tlb.pages_memset : (Tlb.memset 0xff).pages = List.replicate tlbSize emptyIndex := rfl

theorem Tlb.mappings_memset :
    (Tlb.memset 0xff).mappings = List.replicate tlbSize (emptyIndex, 0xffff) := rfl

/-! ## Counting notifications -/

section Count

variable (g : StoreGeometry) (s : StoreId) (p : Nat)

/-- A `notify_tlb_cached` of store `s` on a pointer into page `p`. -/
def isCachedIn : Event σ → Bool
  | .notifyTlbCached s' ptr => s' = s ∧ g.page ptr = p
  | _ => false

/-- A `notify_tlb_dropped` of store `s` on a pointer into page `p`. -/
def isDroppedIn : Event σ → Bool
  | .notifyTlbDropped s' ptr _ _ => s' = s ∧ g.page ptr = p
  | _ => false

/-- The `notify_tlb_cached` calls minus the `notify_tlb_dropped` calls on page `p`. -/
def pinCount (trace : List (Event σ)) : Int :=
  trace.countP (isCachedIn g s p) - trace.countP (isDroppedIn g s p)

@[simp] theorem pinCount_nil : pinCount g s p ([] : List (Event σ)) = 0 := rfl

theorem pinCount_append (es trace : List (Event σ)) :
    pinCount g s p (es ++ trace) = pinCount g s p es + pinCount g s p trace := by
  simp only [pinCount, List.countP_append]
  omega

theorem pinCount_cached (ptr : Uintptr) (trace : List (Event σ)) :
    pinCount g s p (.notifyTlbCached s ptr :: trace) =
      (if g.page ptr = p then 1 else 0) + pinCount g s p trace := by
  by_cases hp : g.page ptr = p
  · simp [pinCount, isCachedIn, isDroppedIn, hp]
    omega
  · simp [pinCount, isCachedIn, isDroppedIn, hp]

theorem pinCount_dropped (ptr : Uintptr) (dirty : Bool) (e : TlbEntry)
    (trace : List (Event σ)) :
    pinCount g s p (.notifyTlbDropped s ptr dirty e :: trace) =
      pinCount g s p trace - if g.page ptr = p then 1 else 0 := by
  by_cases hp : g.page ptr = p
  · simp [pinCount, isCachedIn, isDroppedIn, hp]
    omega
  · simp [pinCount, isCachedIn, isDroppedIn, hp]

theorem pinCount_cons_of_other {e : Event σ} (hc : isCachedIn g s p e = false)
    (hd : isDroppedIn g s p e = false) (trace : List (Event σ)) :
    pinCount g s p (e :: trace) = pinCount g s p trace := by
  simp [pinCount, hc, hd]

end Count

/-- Every drop notification of the trace points into the page of the evicted entry. -/
def DropsReach (g : StoreGeometry) (s : StoreId) (trace : List (Event σ)) : Prop :=
  ∀ ptr dirty e, .notifyTlbDropped s ptr dirty e ∈ trace → g.page ptr = e.bsPageIndex.toNat

/-- The pins held on page `p` beyond the one that its TLB entry accounts for. -/
def World.excess (g : StoreGeometry) (s : StoreId) (w : World σ) (p : Nat) : Int :=
  pinCount g s p w.trace - if BitVec.ofNat 32 p ∈ (w.tlb .gtTLB).pages then 1 else 0

/-- The pins of every storage page are those of its TLB entry, and every drop notification
points into the page that was evicted. -/
def PinBalanced (g : StoreGeometry) (s : StoreId) (w : World σ) : Prop :=
  (∀ p, p < 2 ^ 32 - 1 →
    pinCount g s p w.trace = if BitVec.ofNat 32 p ∈ (w.tlb .gtTLB).pages then 1 else 0) ∧
  DropsReach g s w.trace

theorem pinBalanced_iff {g : StoreGeometry} {s : StoreId} {w : World σ} :
    PinBalanced g s w ↔
      (∀ p, p < 2 ^ 32 - 1 → w.excess g s p = 0) ∧ DropsReach g s w.trace := by
  simp only [PinBalanced, World.excess, Int.sub_eq_zero]

/-- Evicting the entry of page `r` for page `p` notifies the right page, or `r` is not the index
of a page. -/
def reachesEvicted (g : StoreGeometry) (p r : Unsigned) : Prop :=
  r = emptyIndex ∨ 0 ≤ r.toInt ∧ (r ≤ p ∨ 32 ≤ g.pageBits)

instance (g : StoreGeometry) (p r : Unsigned) : Decidable (reachesEvicted g p r) :=
  inferInstanceAs (Decidable (_ ∨ _ ∧ (_ ∨ _)))

/-- All evictions of a FIFO TLB that holds `tlb` and is accessed at the pages `ps` notify the
right page. -/
def evictionsReach (g : StoreGeometry) : List Unsigned → List Unsigned → Bool
  | _, [] => true
  | tlb, p :: ps =>
      (tlb.contains p || tlb.getLast?.all fun r => reachesEvicted g p r) &&
        evictionsReach g (Lib.Fifo.touch tlb p) ps

theorem evictionsReach_cons {g : StoreGeometry} {t : Tlb} {p : Unsigned} {ps : List Unsigned} :
    evictionsReach g t.pages (p :: ps) = true ↔
      (p ∉ t.pages → reachesEvicted g p t.last.bsPageIndex) ∧
        evictionsReach g (Lib.Fifo.touch t.pages p) ps = true := by
  rw [evictionsReach, Tlb.pages_getLast?]
  simp [Classical.or_iff_not_imp_left]

/-! ## One passage through the TLB -/

section Access

variable {env : Env σ} {s : StoreId} {g : StoreGeometry} (hgeom : (env.stores s).HasGeometry g)
  {u : Uintptr} (hu : g.page u < 2 ^ 32 - 1)
include hgeom hu

theorem bsPageIndex_ne_emptyIndex : bsPageIndex (env.stores s) u ≠ emptyIndex := by
  have hindex := toNat_bsPageIndex hgeom u
  exact ne_emptyIndex_of_lt (by omega)

/-- Where the drop notification of `r` points if it is made. -/
theorem page_removedBsPage {r : TlbEntry} (hr : 0 ≤ r.bsPageIndex.toInt)
    (hpage : r.bsPageIndex.toNat < 2 ^ (64 - g.pageBits)) :
    if reachesEvicted g (bsPageIndex (env.stores s) u) r.bsPageIndex then
      g.page (removedBsPage (env.stores s) u r) = r.bsPageIndex.toNat
    else
      2 ^ 32 ≤ g.page (removedBsPage (env.stores s) u r) := by
  have hindex := toNat_bsPageIndex hgeom u
  have hne := ne_emptyIndex_of_nonneg hr
  by_cases hle : r.bsPageIndex ≤ bsPageIndex (env.stores s) u
  · have hreach : reachesEvicted g (bsPageIndex (env.stores s) u) r.bsPageIndex :=
      Or.inr ⟨hr, Or.inl hle⟩
    rw [if_pos hreach]
    rw [BitVec.le_def] at hle
    exact page_removedBsPage_of_le hgeom (by omega) (by omega)
  · by_cases hbits : 32 ≤ g.pageBits
    · have hreach : reachesEvicted g (bsPageIndex (env.stores s) u) r.bsPageIndex :=
        Or.inr ⟨hr, Or.inr hbits⟩
      rw [if_pos hreach]
      exact page_removedBsPage_of_pageBits hgeom (by omega) hbits hpage
    · have hnot : ¬ reachesEvicted g (bsPageIndex (env.stores s) u) r.bsPageIndex := by
        rintro (heq | ⟨-, hle' | hbits'⟩)
        · exact hne heq
        · exact hle hle'
        · exact hbits hbits'
      rw [if_neg hnot]
      rw [BitVec.le_def] at hle
      have hpages : 2 ^ 33 ≤ 2 ^ (64 - g.pageBits) := Nat.pow_le_pow_right (by decide) (by omega)
      rw [page_removedBsPage_of_lt hgeom (by omega) (by omega) (by omega)]
      omega

/-- The pins that the drop notification of `r` gives back. -/
theorem pinCount_dropEvents {r : TlbEntry}
    (hpage : r.bsPageIndex = emptyIndex ∨ r.bsPageIndex.toNat < 2 ^ (64 - g.pageBits)) {p : Nat}
    (hp : p < 2 ^ 32 - 1) :
    pinCount g s p (dropEvents (env.stores s) s u r) =
      if r.bsPageIndex.toNat = p ∧
          reachesEvicted g (bsPageIndex (env.stores s) u) r.bsPageIndex then -1 else 0 := by
  by_cases hempty : r.bsPageIndex = emptyIndex
  · have hne : r.bsPageIndex.toNat ≠ p := by
      rw [hempty, emptyIndex_toNat]
      omega
    rw [dropEvents, hempty, emptyIndex_toInt, if_neg (by omega), ← hempty, if_neg (hne ·.1)]
    rfl
  have hpage := hpage.resolve_left hempty
  by_cases hneg : 0 ≤ r.bsPageIndex.toInt
  · have hremoved := page_removedBsPage hgeom hu hneg hpage
    rw [dropEvents, if_pos hneg, pinCount_dropped, pinCount_nil]
    by_cases hreach : reachesEvicted g (bsPageIndex (env.stores s) u) r.bsPageIndex
    · rw [if_pos hreach] at hremoved
      simp only [hremoved, hreach, and_true]
      split <;> rfl
    · rw [if_neg hreach] at hremoved
      rw [if_neg (by omega), if_neg (hreach ·.2)]
      rfl
  · have hreach : ¬ reachesEvicted g (bsPageIndex (env.stores s) u) r.bsPageIndex := by
      rintro (heq | ⟨hle, -⟩)
      · exact hempty heq
      · exact hneg hle
    rw [dropEvents, if_neg hneg, if_neg (hreach ·.2), pinCount_nil]

theorem dropsReach_dropEvents {r : TlbEntry}
    (hpage : r.bsPageIndex = emptyIndex ∨ r.bsPageIndex.toNat < 2 ^ (64 - g.pageBits))
    (hreach : reachesEvicted g (bsPageIndex (env.stores s) u) r.bsPageIndex) :
    DropsReach g s (dropEvents (env.stores s) s u r) := by
  intro ptr dirty e he
  rw [dropEvents] at he
  split at he
  · rename_i hneg
    have hremoved :=
      page_removedBsPage hgeom hu hneg (hpage.resolve_left (ne_emptyIndex_of_nonneg hneg))
    rw [if_pos hreach] at hremoved
    cases List.mem_singleton.mp he
    exact hremoved
  · cases he

end Access

/-- The invariant of the pins of a thread. -/
structure PinInv (g : StoreGeometry) (s : StoreId) (w : World σ) : Prop where
  distinct : Lib.Fifo.Distinct emptyIndex (w.tlb .gtTLB).pages
  inStorage : ∀ q ∈ (w.tlb .gtTLB).pages, q = emptyIndex ∨ q.toNat < 2 ^ (64 - g.pageBits)
  excess_nonneg : ∀ p, p < 2 ^ 32 - 1 → 0 ≤ w.excess g s p

section Step

variable {env : Env σ} {s : StoreId} {g : StoreGeometry} (hgeom : (env.stores s).HasGeometry g)
  (htlb : (env.stores s).lstoreGetTlb = .gtTLB) {u a : Uintptr} (hu : g.page u < 2 ^ 32 - 1)
  {ptrSize : Int} {dirty : Byte} {w w' : World σ} (hinv : PinInv g s w)
  (hstep : LinkStep env s u ptrSize dirty w a w')
include hgeom htlb hu hinv hstep

/-- A passage through the TLB leaks the pin of an evicted page that its drop notification does
not reach, and changes no other excess. -/
theorem excess_linkStep {p : Nat} (hp : p < 2 ^ 32 - 1) :
    w'.excess g s p = w.excess g s p +
      if bsPageIndex (env.stores s) u ∉ (w.tlb .gtTLB).pages ∧
          (w.tlb .gtTLB).last.bsPageIndex.toNat = p ∧
          ¬ reachesEvicted g (bsPageIndex (env.stores s) u) (w.tlb .gtTLB).last.bsPageIndex
        then 1 else 0 := by
  have hpages := hstep.pages
  rw [htlb] at hpages
  cases hstep with
  | hit hlookup hsize =>
    have hmem : bsPageIndex (env.stores s) u ∈ (w.tlb .gtTLB).pages := by
      by_contra hnot
      rw [htlb, Tlb.lookup_eq_none_iff.mpr hnot] at hlookup
      cases hlookup
    rw [Lib.Fifo.touch_of_mem hmem] at hpages
    rw [if_neg (·.1 hmem), World.excess, World.excess, hpages, World.log_trace,
      pinCount_cons_of_other g s p rfl rfl, World.withTlb_trace, Int.add_zero]
  | @miss _ m₁ m₂ m₃ hlookup hhandler hdrop hcached hsize =>
    rw [htlb, Tlb.lookup_eq_none_iff] at hlookup
    rw [Lib.Fifo.touch_of_notMem hlookup] at hpages
    set last := (w.tlb .gtTLB).last with hlast
    have hlastMem : last.bsPageIndex ∈ (w.tlb .gtTLB).pages := Tlb.page_mem (Tlb.last_mem _)
    have hindex : g.page u = p ↔ BitVec.ofNat 32 p = bsPageIndex (env.stores s) u := by
      have hnat := toNat_bsPageIndex hgeom u
      rw [← BitVec.toNat_inj, BitVec.toNat_ofNat]
      omega
    have htrace : pinCount g s p (w.afterMiss (env.stores s) s u a dirty m₃).trace =
        (if g.page u = p then 1 else 0) + (pinCount g s p (dropEvents (env.stores s) s u last) +
          pinCount g s p w.trace) := by
      show pinCount g s p (.notifyTlbCached s u :: (dropEvents _ s u _ ++ _ :: w.trace)) = _
      rw [pinCount_cached, pinCount_append, pinCount_cons_of_other g s p rfl rfl, htlb]
    rw [pinCount_dropEvents hgeom hu (hinv.inStorage _ hlastMem) hp] at htrace
    have hlastIff : last.bsPageIndex.toNat = p ↔ BitVec.ofNat 32 p = last.bsPageIndex := by
      rw [← BitVec.toNat_inj, BitVec.toNat_ofNat]
      omega
    have hne : BitVec.ofNat 32 p ≠ emptyIndex := by
      refine ne_emptyIndex_of_lt ?_
      rw [BitVec.toNat_ofNat]
      omega
    rw [World.excess, World.excess, hpages, htrace,
      hinv.distinct.indicator_cons_dropLast (Tlb.pages_ne_nil _) hlookup hne, Tlb.pages_getLast]
    simp only [hindex, hlastIff, hlookup, not_false_eq_true, true_and]
    rw [← hlast]
    by_cases heq : BitVec.ofNat 32 p = last.bsPageIndex
    · by_cases hreach : reachesEvicted g (bsPageIndex (env.stores s) u) last.bsPageIndex
      · simp only [eq_true heq, eq_true hreach, and_true, not_true, and_false, if_true, if_false]
        omega
      · simp only [eq_true heq, eq_false hreach, and_false, not_false_eq_true, and_true, if_true,
          if_false]
        omega
    · simp only [eq_false heq, false_and, if_false]
      omega

theorem pinInv_linkStep : PinInv g s w' := by
  have hpages := hstep.pages
  rw [htlb] at hpages
  refine ⟨?_, ?_, ?_⟩
  · rw [hpages]
    by_cases hmem : bsPageIndex (env.stores s) u ∈ (w.tlb .gtTLB).pages
    · rw [Lib.Fifo.touch_of_mem hmem]
      exact hinv.distinct
    · rw [Lib.Fifo.touch_of_notMem hmem]
      exact hinv.distinct.cons_dropLast hmem
  · intro q hq
    rw [hpages] at hq
    rcases Lib.Fifo.mem_of_mem_touch hq with rfl | hq
    · have hlt := g.page_lt u
      have hindex := toNat_bsPageIndex hgeom u
      exact Or.inr (by omega)
    · exact hinv.inStorage q hq
  · intro p hp
    have hold := hinv.excess_nonneg p hp
    rw [excess_linkStep hgeom htlb hu hinv hstep hp]
    split <;> omega

/-- A passage through the TLB keeps the pins balanced exactly when it evicts nothing or notifies
the evicted page. -/
theorem pinBalanced_linkStep :
    PinBalanced g s w' ↔ PinBalanced g s w ∧
      (bsPageIndex (env.stores s) u ∉ (w.tlb .gtTLB).pages →
        reachesEvicted g (bsPageIndex (env.stores s) u) (w.tlb .gtTLB).last.bsPageIndex) := by
  have hexcess := fun p hp => excess_linkStep hgeom htlb hu hinv hstep (p := p) hp
  rw [pinBalanced_iff, pinBalanced_iff]
  constructor
  · rintro ⟨hzero, hdrops⟩
    refine ⟨⟨?_, ?_⟩, ?_⟩
    · intro p hp
      have hold := hinv.excess_nonneg p hp
      have hnew := hexcess p hp
      rw [hzero p hp] at hnew
      split at hnew <;> omega
    · intro ptr flag e he
      exact hdrops ptr flag e (hstep.trace_suffix.mem he)
    · intro hmiss
      by_contra hreach
      have hlt := (w.tlb .gtTLB).last.bsPageIndex.isLt
      have hp : (w.tlb .gtTLB).last.bsPageIndex.toNat < 2 ^ 32 - 1 := by
        by_contra hge
        refine hreach (Or.inl (BitVec.eq_of_toNat_eq ?_))
        show _ = 2 ^ 32 - 1
        omega
      have hold := hinv.excess_nonneg _ hp
      have hnew := hexcess _ hp
      rw [hzero _ hp, if_pos ⟨hmiss, rfl, hreach⟩] at hnew
      omega
  · rintro ⟨⟨hzero, hdrops⟩, hreach⟩
    refine ⟨?_, ?_⟩
    · intro p hp
      rw [hexcess p hp, hzero p hp, if_neg fun h => h.2.2 (hreach h.1)]
      rfl
    · intro ptr flag e he
      cases hstep with
      | hit hlookup hsize =>
        rcases List.mem_cons.mp he with heq | he
        · cases heq
        · exact hdrops ptr flag e he
      | miss hlookup hhandler hdrop hcached hsize =>
        rw [htlb, Tlb.lookup_eq_none_iff] at hlookup
        have hlastMem : (w.tlb .gtTLB).last.bsPageIndex ∈ (w.tlb .gtTLB).pages :=
          Tlb.page_mem (Tlb.last_mem _)
        rcases List.mem_cons.mp he with heq | he
        · cases heq
        rcases List.mem_append.mp he with he | he
        · rw [htlb] at he
          exact dropsReach_dropEvents hgeom hu (hinv.inStorage _ hlastMem) (hreach hlookup) ptr
            flag e he
        rcases List.mem_cons.mp he with heq | he
        · cases heq
        · exact hdrops ptr flag e he

end Step

/-! ## Runs -/

section Quiet

variable {g : StoreGeometry} {s : StoreId} {w w' : World σ} (hquiet : Quiet w w')
include hquiet

theorem pinCount_quiet (p : Nat) : pinCount g s p w'.trace = pinCount g s p w.trace := by
  obtain ⟨es, htrace, hes⟩ := hquiet.trace
  have hcached : es.countP (isCachedIn g s p) = 0 := by
    refine List.countP_eq_zero.mpr ?_
    intro e he
    obtain ⟨q, flag, rfl⟩ := hes e he
    simp [isCachedIn]
  have hdropped : es.countP (isDroppedIn g s p) = 0 := by
    refine List.countP_eq_zero.mpr ?_
    intro e he
    obtain ⟨q, flag, rfl⟩ := hes e he
    simp [isDroppedIn]
  rw [htrace, pinCount_append, pinCount, hcached, hdropped]
  simp

theorem excess_quiet (p : Nat) : w'.excess g s p = w.excess g s p := by
  rw [World.excess, World.excess, pinCount_quiet hquiet, hquiet.tlb]

theorem pinInv_quiet (hinv : PinInv g s w) : PinInv g s w' := by
  have htlb := congrFun hquiet.tlb .gtTLB
  refine ⟨by rw [htlb]; exact hinv.distinct, by rw [htlb]; exact hinv.inStorage, ?_⟩
  intro p hp
  rw [excess_quiet hquiet]
  exact hinv.excess_nonneg p hp

theorem pinBalanced_quiet : PinBalanced g s w' ↔ PinBalanced g s w := by
  obtain ⟨es, htrace, hes⟩ := hquiet.trace
  have hdrops : DropsReach g s w'.trace ↔ DropsReach g s w.trace := by
    constructor
    · intro h ptr flag e he
      refine h ptr flag e ?_
      rw [htrace]
      exact List.mem_append_right es he
    · intro h ptr flag e he
      rw [htrace] at he
      rcases List.mem_append.mp he with he | he
      · obtain ⟨q, flag', heq⟩ := hes _ he
        cases heq
      · exact h ptr flag e he
  rw [pinBalanced_iff, pinBalanced_iff, hdrops]
  simp only [excess_quiet hquiet]

end Quiet

section Runs

variable {env : Env σ} {s : StoreId} {g : StoreGeometry} (hgeom : (env.stores s).HasGeometry g)
  (htlb : (env.stores s).lstoreGetTlb = .gtTLB) {w w' : World σ}
include hgeom htlb

/-- A run of accesses from a world with the invariant ends with balanced pins exactly when it
starts with balanced pins and every eviction of the run notifies the evicted page. -/
theorem run_pinBalanced {ps : List Uintptr} (hrun : Lib.Run (AccessStep env s) w ps w')
    (hps : ∀ p ∈ ps, g.page (makeOriginalPointer p) < 2 ^ 32 - 1) (hinv : PinInv g s w) :
    PinBalanced g s w' ↔ PinBalanced g s w ∧
      evictionsReach g (w.tlb .gtTLB).pages
        (ps.map fun p => bsPageIndex (env.stores s) (makeOriginalPointer p)) = true := by
  induction hrun with
  | nil w =>
    rw [List.map_nil, evictionsReach, and_iff_left rfl]
  | @cons w w₁ w' p ps hstep _ ih =>
    obtain ⟨ptrSize, dirty, a, v, v', hbefore, hlink, hafter⟩ := hstep
    have hp := hps p List.mem_cons_self
    have hv : PinInv g s v := pinInv_quiet hbefore hinv
    have hv' : PinInv g s v' := pinInv_linkStep hgeom htlb hp hv hlink
    have hpages := hlink.pages
    have htlbBefore := congrFun hbefore.tlb .gtTLB
    rw [htlb, htlbBefore] at hpages
    rw [ih (fun q hq => hps q (List.mem_cons_of_mem _ hq)) (pinInv_quiet hafter hv'),
      pinBalanced_quiet hafter, pinBalanced_linkStep hgeom htlb hp hv hlink,
      pinBalanced_quiet hbefore, htlbBefore, congrFun hafter.tlb .gtTLB, hpages, List.map_cons,
      evictionsReach_cons, and_assoc]

end Runs

/-- The TLB that `__carmor_initialize_template` leaves has no pins and no pages. -/
theorem pinInv_initial {g : StoreGeometry} {s : StoreId} {w : World σ}
    (htlb : w.tlb .gtTLB = Tlb.memset 0xff) (htrace : w.trace = []) :
    PinInv g s w ∧ PinBalanced g s w := by
  have hpages : (w.tlb .gtTLB).pages = List.replicate tlbSize emptyIndex := by
    rw [htlb, Tlb.pages_memset]
  have hzero : ∀ p, p < 2 ^ 32 - 1 → w.excess g s p = 0 := by
    intro p hp
    have hnot : BitVec.ofNat 32 p ∉ List.replicate tlbSize emptyIndex := by
      intro hmem
      have hnat := congrArg BitVec.toNat (List.eq_of_mem_replicate hmem)
      rw [BitVec.toNat_ofNat, emptyIndex_toNat] at hnat
      omega
    rw [World.excess, hpages, if_neg hnot, htrace]
    rfl
  refine ⟨⟨?_, ?_, ?_⟩, pinBalanced_iff.mpr ⟨hzero, ?_⟩⟩
  · rw [hpages]
    exact Lib.Fifo.distinct_replicate _ _
  · intro q hq
    rw [hpages] at hq
    exact Or.inl (List.eq_of_mem_replicate hq)
  · intro p hp
    rw [hzero p hp]
  · intro ptr flag e he
    rw [htrace] at he
    cases he

/-- In a run of link calls from the initialized TLB, the pins of every storage page are those of
its TLB entry and every drop notification points into the evicted page, exactly when no access
evicts a page that its drop notification does not reach: a page above the accessed one, or one
whose index is negative as an `int`. -/
theorem pinBalanced_iff_evictionsReach {env : Env σ} {s : StoreId} {g : StoreGeometry}
    (hstore : CachedStore env s g) {privData : Uintptr} {res : Int} {w₀ w w' : World σ}
    (htrace : w₀.trace = []) (hinit : carmorInitializeTemplate env s privData w₀ = .ok res w)
    {cs : List LinkCall} (hcs : ∀ c ∈ cs, c.InStorage env s g (2 ^ 32 - 1))
    (hrun : Lib.Run (LinkCall.Step env s) w cs w') :
    PinBalanced g s w' ↔
      evictionsReach g (List.replicate tlbSize emptyIndex) (accessedPages (env.stores s) cs) =
        true := by
  obtain ⟨htlb, -, htrace'⟩ := carmorInitialize_eq_ok hstore.isCached hinit
  obtain ⟨hinv, hbalanced⟩ := pinInv_initial (g := g) (s := s) htlb (htrace'.trans htrace)
  have haccesses := LinkCall.run_accesses hstore.geometry hstore.link
    (fun c hc p hp => (hcs c hc p hp).1) hrun
  rw [run_pinBalanced hstore.geometry hstore.tlb haccesses ?_ hinv, htlb]
  · exact and_iff_right hbalanced
  · intro p hp
    obtain ⟨c, hc, hp⟩ := List.mem_flatMap.mp hp
    exact (hcs c hc p hp).2

/-- Pages that are visited in ascending order stay balanced. -/
theorem pinBalanced_ascending :
    PinBalanced smallGeometry .lstore0 (worldAfter (readCalls
      [0x0, 0x1000, 0x2000, 0x3000, 0x4000, 0x5008, 0x1008, 0x6000])) :=
  (pinBalanced_iff_evictionsReach smallEnv_cachedStore rfl carmorInitialize_smallEnv
    (LinkCall.inStorage_of_all (by decide +kernel)) (run_worldAfter (by decide +kernel))).mpr
    (by decide +kernel)

/-- Visiting page 9 and then the pages 0 to 4 evicts page 9 without notifying it. -/
theorem pinBalanced_fails :
    (∀ c ∈ readCalls [0x9000, 0x0, 0x1000, 0x2000, 0x3000, 0x4000],
      c.InStorage smallEnv .lstore0 smallGeometry (2 ^ 32 - 1)) ∧
    Lib.Run (LinkCall.Step smallEnv .lstore0) initialWorld
      (readCalls [0x9000, 0x0, 0x1000, 0x2000, 0x3000, 0x4000])
      (worldAfter (readCalls [0x9000, 0x0, 0x1000, 0x2000, 0x3000, 0x4000])) ∧
    ¬ PinBalanced smallGeometry .lstore0
      (worldAfter (readCalls [0x9000, 0x0, 0x1000, 0x2000, 0x3000, 0x4000])) := by
  refine ⟨LinkCall.inStorage_of_all (by decide +kernel), run_worldAfter (by decide +kernel), ?_⟩
  intro hbalanced
  have hcount : pinCount smallGeometry .lstore0 9
      (worldAfter (readCalls [0x9000, 0x0, 0x1000, 0x2000, 0x3000, 0x4000])).trace = 1 := by
    decide +kernel
  have hmiss : BitVec.ofNat 32 9 ∉ ((worldAfter (readCalls
      [0x9000, 0x0, 0x1000, 0x2000, 0x3000, 0x4000])).tlb .gtTLB).pages := by
    decide +kernel
  have hpage := hbalanced.1 9 (by decide)
  rw [hcount, if_neg hmiss] at hpage
  cases hpage

end Carmor
