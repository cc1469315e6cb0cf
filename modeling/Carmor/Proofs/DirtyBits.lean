import Carmor.Proofs.PinBalance
import Carmor.Proofs.Resident
import Mathlib.Data.List.Forall2

/-!
# Dirty flags

The dirty flag of a TLB entry is the only trace that a write leaves: the store learns of it when
the entry is evicted. A cache whose pages carry the dirty flags of the links since their insertion
says what the store must be told.
-/

namespace Carmor

variable {σ : Type}

/-- The pages of a TLB, each with the dirty flags of the links since its insertion. -/
abbrev PageNotes := List (Unsigned × List Byte)

/-- The entries of an initialized TLB. -/
def emptyNotes : PageNotes := List.replicate tlbSize (emptyIndex, [])

/-- What the store must be told of evicted pages: whether a link had a nonzero dirty flag. -/
def told (ns : PageNotes) : List (Unsigned × Bool) :=
  (ns.filter fun n => n.1 ≠ emptyIndex).map fun n => (n.1, decide (∃ d ∈ n.2, d ≠ 0))

/-- The page and the dirty argument of a `notify_tlb_dropped`. -/
def Event.dropReport : Event σ → Option (Unsigned × Bool)
  | .notifyTlbDropped _ _ dirty evicted => some (evicted.bsPageIndex, dirty)
  | _ => none

/-- The drop notifications of a trace in their order. -/
def dropReports (trace : List (Event σ)) : List (Unsigned × Bool) :=
  (trace.filterMap Event.dropReport).reverse

/-- The page indices at which a sequence of calls goes through the TLB, with the dirty flags. -/
def flaggedPages (st : LStore σ) (cs : List LinkCall) : List (Unsigned × Byte) :=
  (cs.flatMap fun c => c.flaggedAccesses st).map fun l =>
    (bsPageIndex st (makeOriginalPointer l.1), l.2)

/-! ## One entry -/

/-- The entry is of the page of the note, and dirty if a noted flag is nonzero. -/
structure TlbEntry.Notes (e : TlbEntry) (n : Unsigned × List Byte) : Prop where
  page : e.bsPageIndex = n.1
  dirty : n.1 = emptyIndex ∨ (e.isDirty ≠ 0 ↔ ∃ d ∈ n.2, d ≠ 0)

theorem or_ne_zero (a b : Byte) : a ||| b ≠ 0 ↔ b ≠ 0 ∨ a ≠ 0 := by
  have hzero : a ||| b = 0 ↔ a = 0 ∧ b = 0 := BitVec.or_eq_zero_iff
  rw [ne_eq, hzero]
  tauto

/-- A hit adds its flag. -/
theorem TlbEntry.Notes.merge {e : TlbEntry} {n : Unsigned × List Byte} (h : e.Notes n)
    (dirty : Byte) :
    TlbEntry.Notes { e with isDirty := e.isDirty ||| dirty } (n.1, dirty :: n.2) := by
  refine ⟨h.page, h.dirty.imp_right fun hdirty => ?_⟩
  rw [or_ne_zero, hdirty, List.exists_mem_cons_iff]

/-! ## The entries of a TLB -/

theorem forall₂_notes_pages {es : List TlbEntry} {c : PageNotes}
    (h : List.Forall₂ TlbEntry.Notes es c) : es.map TlbEntry.bsPageIndex = c.map Prod.fst := by
  induction h with
  | nil => rfl
  | cons hn _ ih => rw [List.map_cons, List.map_cons, ih, hn.page]

theorem forall₂_getLast? {α β : Type} {R : α → β → Prop} {xs : List α} {ys : List β}
    (h : List.Forall₂ R xs ys) {x : α} (hx : xs.getLast? = some x) :
    ∃ y, ys.getLast? = some y ∧ R x y := by
  have hrev : List.Forall₂ R xs.reverse ys.reverse := List.forall₂_reverse_iff.mpr h
  rw [← List.head?_reverse] at hx ⊢
  generalize xs.reverse = xs' at hrev hx
  generalize ys.reverse = ys' at hrev
  cases hrev with
  | nil => cases hx
  | cons hxy _ =>
    obtain rfl := Option.some.inj hx
    exact ⟨_, rfl, hxy⟩

/-- A hit notes its flag at the one entry of its page. -/
theorem scan_notes {p : Unsigned} {dirty : Byte} (hp : p ≠ emptyIndex) {es : List TlbEntry}
    {c : PageNotes} (h : List.Forall₂ TlbEntry.Notes es c)
    (hdistinct : Lib.Fifo.Distinct emptyIndex (c.map Prod.fst)) {r : TlbEntry × List TlbEntry}
    (hscan : Tlb.scan p dirty es = some r) :
    List.Forall₂ TlbEntry.Notes r.2
      (c.map fun n => if n.1 = p then (n.1, dirty :: n.2) else n) := by
  induction h generalizing r with
  | nil => cases hscan
  | @cons e n es c hn hrest ih =>
    obtain ⟨hhead, htail⟩ := List.pairwise_cons.mp hdistinct
    rw [Tlb.scan] at hscan
    rw [List.map_cons]
    split at hscan
    · rename_i heq
      obtain rfl := Option.some.inj hscan
      have hnp : n.1 = p := hn.page.symm.trans heq
      -- no other entry has this page
      have hother : c.map (fun n => if n.1 = p then (n.1, dirty :: n.2) else n) = c := by
        refine (List.map_congr_left fun m hm => ?_).trans (List.map_id c)
        rw [if_neg, id]
        intro hmp
        rcases hhead m.1 (List.mem_map_of_mem hm) with hempty | hne
        · exact hp (hnp.symm.trans hempty)
        · exact hne (hnp.trans hmp.symm)
      rw [if_pos hnp, hother]
      exact .cons (hn.merge dirty) hrest
    · rename_i hne
      obtain ⟨q, hq, rfl⟩ := Option.map_eq_some_iff.mp hscan
      rw [if_neg fun hnp => hne (hn.page.trans hnp)]
      exact .cons hn (ih htail hq)

/-- The TLB and its notes. The pages have indices that are not negative. -/
structure DirtyNoted (c : PageNotes) (w : World σ) : Prop where
  distinct : Lib.Fifo.Distinct emptyIndex (c.map Prod.fst)
  small : ∀ n ∈ c, n.1 = emptyIndex ∨ n.1.toNat < 2 ^ 31
  notes : List.Forall₂ TlbEntry.Notes (w.tlb .gtTLB).entries c

theorem DirtyNoted.pages {c : PageNotes} {w : World σ} (h : DirtyNoted c w) :
    (w.tlb .gtTLB).pages = c.map Prod.fst := forall₂_notes_pages h.notes

/-! ## Steps -/

theorem told_append (ns ms : PageNotes) : told (ns ++ ms) = told ns ++ told ms := by
  simp [told]

theorem dropReports_append (es trace : List (Event σ)) :
    dropReports (es ++ trace) = dropReports trace ++ dropReports es := by
  simp [dropReports]

theorem dropReports_cons {e : Event σ} (he : e.dropReport = none) (trace : List (Event σ)) :
    dropReports (e :: trace) = dropReports trace := by
  rw [dropReports, List.filterMap_cons_none he, dropReports]

theorem Quiet.dropReports_eq {w w' : World σ} (h : Quiet w w') :
    dropReports w'.trace = dropReports w.trace := by
  obtain ⟨es, htrace, hes⟩ := h.trace
  have hnone : es.filterMap Event.dropReport = [] := by
    rw [List.filterMap_eq_nil_iff]
    intro e he
    obtain ⟨p, dirty, rfl⟩ := hes e he
    rfl
  have hreports : dropReports es = [] := by rw [dropReports, hnone, List.reverse_nil]
  rw [htrace, dropReports_append, hreports, List.append_nil]

theorem DirtyNoted.quiet {c : PageNotes} {w w' : World σ} (h : DirtyNoted c w) (hw : Quiet w w') :
    DirtyNoted c w' := ⟨h.distinct, h.small, by rw [hw.tlb]; exact h.notes⟩

/-- The drop notification tells what was noted at the evicted entry. -/
theorem dropReports_dropEvents (st : LStore σ) (s : StoreId) (u : Uintptr) {r : TlbEntry}
    {n : Unsigned × List Byte} (h : r.Notes n) (hsmall : n.1 = emptyIndex ∨ n.1.toNat < 2 ^ 31) :
    dropReports (dropEvents st s u r) = told [n] := by
  unfold dropEvents told
  rcases hsmall with hempty | hlt
  · rw [h.page, hempty, emptyIndex_toInt, if_neg (by decide)]
    simp [dropReports, hempty]
  · have hne : n.1 ≠ emptyIndex := ne_emptyIndex_of_lt (by omega)
    have hnonneg : 0 ≤ r.bsPageIndex.toInt := by
      rw [h.page, BitVec.toInt_eq_toNat_of_lt (by omega)]
      omega
    have hdirty := h.dirty.resolve_left hne
    rw [if_pos hnonneg]
    simp only [dropReports, List.filterMap_cons, Event.dropReport, List.filterMap_nil,
      List.reverse_singleton, List.filter_cons, List.filter_nil, h.page]
    rw [if_pos (by simpa using hne), List.map_singleton, decide_eq_decide.mpr hdirty]

section Access

variable {c : PageNotes} {w : World σ} (hw : DirtyNoted c w) {p : Unsigned} (dirty : Byte)
include hw

/-- A hit notes its flag and drops nothing. -/
theorem DirtyNoted.hit (hp : p ≠ emptyIndex) {entry : TlbEntry} {tlb' : Tlb}
    (hlookup : (w.tlb .gtTLB).lookup p dirty = some (entry, tlb')) (e : Event σ) :
    DirtyNoted (Lib.Fifo.note c p dirty) ((w.withTlb .gtTLB tlb').log e) ∧
      Lib.Fifo.dropped c p = none := by
  have hmem : p ∈ c.map Prod.fst := by
    obtain ⟨hmem, hentry, -⟩ := Tlb.lookup_eq_some hlookup
    rw [← hw.pages, ← hentry]
    exact Tlb.page_mem hmem
  have hfst := Lib.Fifo.map_fst_note c p dirty
  rw [Lib.Fifo.touch_of_mem hmem] at hfst
  refine ⟨⟨by rw [hfst]; exact hw.distinct, ?_, ?_⟩, if_pos hmem⟩
  · intro n hn
    have hold : n.1 ∈ c.map Prod.fst := hfst ▸ List.mem_map_of_mem hn
    obtain ⟨m, hm, hmn⟩ := List.mem_map.mp hold
    rw [← hmn]
    exact hw.small m hm
  · rw [Lib.Fifo.note, if_pos hmem, World.log_tlb, World.withTlb_tlb_self]
    rw [Tlb.lookup] at hlookup
    split at hlookup
    · cases hlookup
    · rename_i r hscan
      cases hlookup
      exact scan_notes hp hw.notes hw.distinct hscan

/-- A miss starts the notes of its page and drops the last ones. -/
theorem DirtyNoted.miss (hp : p.toNat < 2 ^ 31) (hlookup : (w.tlb .gtTLB).lookup p dirty = none)
    {f : BitVec 16} {w' : World σ} (htlb : w'.tlb .gtTLB = (w.tlb .gtTLB).push ⟨p, f, dirty⟩) :
    DirtyNoted (Lib.Fifo.note c p dirty) w' ∧ ∃ n ∈ c, Lib.Fifo.dropped c p = some n ∧
      (w.tlb .gtTLB).last.Notes n := by
  have hnot : p ∉ c.map Prod.fst := by
    rw [← hw.pages]
    exact Tlb.lookup_eq_none_iff.mp hlookup
  constructor
  · refine ⟨?_, ?_, ?_⟩
    · rw [Lib.Fifo.map_fst_note, Lib.Fifo.touch_of_notMem hnot]
      exact hw.distinct.cons_dropLast hnot
    · rw [Lib.Fifo.note, if_neg hnot]
      intro m hm
      rcases List.mem_cons.mp hm with rfl | hm
      · exact .inr hp
      · exact hw.small m ((List.dropLast_sublist c).mem hm)
    · rw [Lib.Fifo.note, if_neg hnot, htlb]
      refine .cons ⟨rfl, .inr ?_⟩ ?_
      · show dirty ≠ 0 ↔ ∃ d ∈ [dirty], d ≠ 0
        simp
      · rw [List.dropLast_eq_take, List.dropLast_eq_take, hw.notes.length_eq]
        exact List.forall₂_take _ hw.notes
  · obtain ⟨n, hn, hlast⟩ := forall₂_getLast? hw.notes
      (List.getLast?_eq_some_getLast (w.tlb .gtTLB).entries_ne_nil)
    exact ⟨n, List.mem_of_getLast? hn, (if_neg hnot).trans hn, hlast⟩

end Access

/-- What a passage through the TLB does to the notes. -/
theorem LinkStep.noted {env : Env σ} {s : StoreId} {g : StoreGeometry}
    (hstore : CachedStore env s g) {u a : Uintptr} (hu : g.page u < 2 ^ 31) {ptrSize : Int}
    {dirty : Byte} {c : PageNotes} {w w' : World σ} (hw : DirtyNoted c w)
    (h : LinkStep env s u ptrSize dirty w a w') :
    DirtyNoted (Lib.Fifo.note c (bsPageIndex (env.stores s) u) dirty) w' ∧
      dropReports w'.trace = dropReports w.trace ++
        told (Lib.Fifo.dropped c (bsPageIndex (env.stores s) u)).toList := by
  have hindex := toNat_bsPageIndex hstore.geometry u
  cases h with
  | @hit entry tlb' hlookup hsize =>
    rw [hstore.tlb] at hlookup ⊢
    obtain ⟨hnoted, hnone⟩ :=
      hw.hit dirty (ne_emptyIndex_of_lt (by omega)) hlookup (.tlbHit s entry)
    refine ⟨hnoted, ?_⟩
    rw [hnone, World.log_trace, World.withTlb_trace, dropReports_cons rfl]
    simp [told]
  | @miss _ m₁ m₂ m₃ hlookup hhandler hdrop hcached hsize =>
    have htlb' := w.afterMiss_tlb_self (env.stores s) s u a dirty m₃
    rw [hstore.tlb] at hlookup htlb'
    obtain ⟨hnoted, n, hn, hdropped, hlast⟩ := hw.miss dirty (by omega) hlookup htlb'
    refine ⟨hnoted, ?_⟩
    have hdrops := dropReports_dropEvents (env.stores s) s u hlast (hw.small n hn)
    show dropReports (.notifyTlbCached s u :: (dropEvents _ s u _ ++ _ :: w.trace)) = _
    rw [hdropped, Option.toList_some, ← hdrops, dropReports_cons rfl, dropReports_append,
      dropReports_cons rfl, hstore.tlb]

theorem FlaggedStep.noted {env : Env σ} {s : StoreId} {g : StoreGeometry}
    (hstore : CachedStore env s g) {l : Uintptr × Byte}
    (hl : g.page (makeOriginalPointer l.1) < 2 ^ 31) {c : PageNotes} {w w' : World σ}
    (hw : DirtyNoted c w) (h : FlaggedStep env s w l w') :
    DirtyNoted (Lib.Fifo.note c (bsPageIndex (env.stores s) (makeOriginalPointer l.1)) l.2) w' ∧
      dropReports w'.trace = dropReports w.trace ++
        told (Lib.Fifo.dropped c (bsPageIndex (env.stores s) (makeOriginalPointer l.1))).toList := by
  obtain ⟨ptrSize, a, w₁, w₂, hbefore, hlink, hafter⟩ := h
  obtain ⟨hnoted, hreports⟩ := hlink.noted hstore hl (hw.quiet hbefore)
  refine ⟨hnoted.quiet hafter, ?_⟩
  rw [hafter.dropReports_eq, hreports, hbefore.dropReports_eq]

/-! ## Runs -/

theorem run_noted {env : Env σ} {s : StoreId} {g : StoreGeometry} (hstore : CachedStore env s g)
    {ls : List (Uintptr × Byte)} (hls : ∀ l ∈ ls, g.page (makeOriginalPointer l.1) < 2 ^ 31)
    {c : PageNotes} {w w' : World σ} (hw : DirtyNoted c w)
    (h : Lib.Run (FlaggedStep env s) w ls w') :
    (∃ c', DirtyNoted c' w') ∧
      dropReports w'.trace = dropReports w.trace ++ told (Lib.Fifo.allDropped c
        (ls.map fun l => (bsPageIndex (env.stores s) (makeOriginalPointer l.1), l.2))) := by
  induction h generalizing c with
  | nil w => exact ⟨⟨c, hw⟩, by simp [Lib.Fifo.allDropped, told]⟩
  | @cons w w₁ w' l ls hstep _ ih =>
    obtain ⟨hw₁, hreports⟩ := hstep.noted hstore (hls l List.mem_cons_self) hw
    obtain ⟨hend, hrest⟩ := ih (fun l hl => hls l (List.mem_cons_of_mem _ hl)) hw₁
    refine ⟨hend, ?_⟩
    rw [hrest, hreports, List.map_cons, Lib.Fifo.allDropped, told_append, List.append_assoc]

theorem dirtyNoted_memset {w : World σ} (h : w.tlb .gtTLB = Tlb.memset 0xff) :
    DirtyNoted emptyNotes w := by
  refine ⟨?_, ?_, ?_⟩
  · rw [emptyNotes, List.map_replicate]
    exact Lib.Fifo.distinct_replicate _ _
  · intro n hn
    rw [List.eq_of_mem_replicate hn]
    exact .inl rfl
  · rw [h]
    have hentry : TlbEntry.Notes ⟨0xffffffff, 0xffff, 0xff⟩ (emptyIndex, []) := ⟨rfl, .inl rfl⟩
    exact .cons hentry (.cons hentry (.cons hentry (.cons hentry (.cons hentry .nil))))

/-- From the initialized TLB no page is in two entries, and every evicted page is reported dirty
exactly if a link since its insertion had a nonzero dirty flag. -/
theorem dirtyBits_kept {env : Env σ} {s : StoreId} {g : StoreGeometry}
    (hstore : CachedStore env s g) {privData : Uintptr} {res : Int} {w₀ w w' : World σ}
    (hinit : carmorInitializeTemplate env s privData w₀ = .ok res w) {cs : List LinkCall}
    (hcs : ∀ c ∈ cs, c.InStorage env s g (2 ^ 31)) (hrun : Lib.Run (LinkCall.Step env s) w cs w') :
    Lib.Fifo.Distinct emptyIndex (w'.tlb .gtTLB).pages ∧
      dropReports w'.trace = dropReports w₀.trace ++
        told (Lib.Fifo.allDropped emptyNotes (flaggedPages (env.stores s) cs)) := by
  obtain ⟨htlb, -, htrace⟩ := carmorInitialize_eq_ok hstore.isCached hinit
  have haccesses := LinkCall.run_flagged hstore.geometry hstore.link
    (fun c hc p hp => (hcs c hc p hp).1) hrun
  have hpages : ∀ l ∈ cs.flatMap fun c => c.flaggedAccesses (env.stores s),
      g.page (makeOriginalPointer l.1) < 2 ^ 31 := by
    intro l hl
    obtain ⟨c, hc, hlc⟩ := List.mem_flatMap.mp hl
    obtain ⟨p, hp, rfl⟩ := List.mem_map.mp hlc
    exact (hcs c hc p hp).2
  obtain ⟨⟨c', hend⟩, hreports⟩ := run_noted hstore hpages (dirtyNoted_memset htlb) haccesses
  refine ⟨by rw [hend.pages]; exact hend.distinct, ?_⟩
  rw [hreports, htrace]
  rfl

/-! ## A run -/

/-- Calls that write page 0 once, between reads of it, and then read six other pages. -/
def writeThenReads : List LinkCall :=
  ⟨false, makeMstorePtr .lstore0 0x8, 8, 0, 0⟩ :: ⟨true, makeMstorePtr .lstore0 0x10, 8, 0, 1⟩ ::
    readCalls [0x18, 0x1000, 0x2000, 0x3000, 0x4000, 0x5000, 0x6000]

theorem told_writeThenReads : told (Lib.Fifo.allDropped emptyNotes
    (flaggedPages (smallEnv.stores .lstore0) writeThenReads)) = [(0, true), (1, false)] := by
  decide

/-- Page 0 is reported dirty, page 1 clean. -/
theorem dirtyBits_kept_writeThenReads :
    Lib.Fifo.Distinct emptyIndex ((worldAfter writeThenReads).tlb .gtTLB).pages ∧
      dropReports (worldAfter writeThenReads).trace = [(0, true), (1, false)] := by
  have hkept := dirtyBits_kept smallEnv_cachedStore carmorInitialize_smallEnv
    (LinkCall.inStorage_of_all (by decide +kernel))
    (run_worldAfter (show Lib.succeeds (LinkCall.execAll smallEnv .lstore0 writeThenReads
      initialWorld) = true by decide +kernel))
  rw [told_writeThenReads] at hkept
  exact hkept

end Carmor
