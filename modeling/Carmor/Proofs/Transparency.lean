import Carmor.Proofs.FrameMap
import Carmor.Proofs.PinBalance

/-!
# Transparency of the TLB

`PinnedCache` is the abstract view of a cached store: a map from pages to the frames that hold
them, and the pins that its notifications count. A store may move or evict any page without
pins; when all its frames are pinned its page handler need not return. The templates refine the
map: however they find an address, it is the one of the frame that holds the page.
-/

namespace Carmor

variable {σ : Type}

/-- The state of a page cache as its store sees it: the frame that holds a page, and how many
more `notify_tlb_cached` than `notify_tlb_dropped` calls a page has received. -/
structure PinnedCache (σ : Type) where
  valid : σ → Prop
  resident : σ → Nat → Option Nat
  pins : σ → Nat → Int

/-- The callbacks of a store with `pages` pages and the geometry `g` maintain the cache `c`. -/
structure PinnedCache.Maintained (c : PinnedCache σ) (st : LStore σ) (g : StoreGeometry)
    (pages : Nat) : Prop where
  mpfHandlerC : ∀ u m a m', c.valid m.store → g.page u < pages → st.mpfHandlerC u m = .ok a m' →
    ∃ f, a = g.frameAddress f (g.inPage u) ∧ f < 2 ^ 16 ∧
      c.valid m'.store ∧ c.resident m'.store (g.page u) = some f ∧
      c.pins m'.store = c.pins m.store ∧
      ∀ p f', 0 < c.pins m.store p → c.resident m.store p = some f' →
        c.resident m'.store p = some f'
  notifyTlbCached : ∀ u m, c.valid m.store → ∃ m', st.notifyTlbCached u m = .ok () m' ∧
    c.valid m'.store ∧ c.resident m'.store = c.resident m.store ∧
    ∀ p, c.pins m'.store p = c.pins m.store p + if p = g.page u then 1 else 0
  notifyTlbDropped : ∀ u dirty m, c.valid m.store → ∃ m', st.notifyTlbDropped u dirty m = .ok () m' ∧
    c.valid m'.store ∧ c.resident m'.store = c.resident m.store ∧
    ∀ p, c.pins m'.store p = c.pins m.store p - if p = g.page u then 1 else 0

/-- If the page of `u` is not in the TLB, the page handler returns. -/
def HandlerReturns (st : LStore σ) (u : Uintptr) (w : World σ) : Prop :=
  bsPageIndex st u ∉ (w.tlb .gtTLB).pages → ∃ a m, st.mpfHandlerC u w.toMachine = .ok a m

/-- The TLB holds pinned pages with the frames in which they reside. -/
structure Transparent (c : PinnedCache σ) (w : World σ) : Prop where
  valid : c.valid w.store
  distinct : Lib.Fifo.Distinct emptyIndex (w.tlb .gtTLB).pages
  mapped : ∀ mapping ∈ (w.tlb .gtTLB).mappings, mapping.1 = emptyIndex ∨
    mapping.1.toNat < 2 ^ 31 ∧ c.resident w.store mapping.1.toNat = some mapping.2.toNat ∧
      0 < c.pins w.store mapping.1.toNat
  pins_nonneg : ∀ p, p < 2 ^ 31 → 0 ≤ c.pins w.store p

/-! ## Assertions -/

section Assertions

variable {st : LStore σ} {g : StoreGeometry} (hgeom : st.HasGeometry g)
  (hbits : g.pageBits < 31) {ptrSize : Int} (hnonneg : 0 ≤ ptrSize)
include hgeom hbits hnonneg

/-- The `ASSERT` of a hit does not fire for an access inside a page. -/
theorem hit_assert {u : Uintptr} (hin : g.inPage u + ptrSize ≤ g.pageSize) :
    (pageOffset st u + BitVec.ofInt 32 ptrSize).setWidth 64 ≤ st.lstoreGetMpageSize := by
  have hps : g.pageSize ≤ 2 ^ 30 := Nat.pow_le_pow_right (by decide) (by omega)
  have hoff := toNat_pageOffset hgeom u
  rw [BitVec.le_def, toNat_mpageSize hgeom, BitVec.toNat_setWidth, BitVec.toNat_add, hoff,
    BitVec.toNat_ofInt]
  omega

/-- The `ASSERT` of a miss does not fire for an access inside a page. -/
theorem miss_assert {f o : Nat} (ho : o < g.pageSize) (hin : o + ptrSize ≤ g.pageSize) :
    ((g.frameAddress f o - st.lstoreGetMpageCacheBasePtr) &&& (st.lstoreGetMpageSize - 1)) +
      BitVec.ofInt 64 ptrSize ≤ st.lstoreGetMpageSize := by
  have hps : g.pageSize ≤ 2 ^ 30 := Nat.pow_le_pow_right (by decide) (by omega)
  have hoff : (f * g.pageSize + o) % 2 ^ 64 % g.pageSize = o := by
    rw [Nat.mod_mod_of_dvd _ g.pageSize_dvd, Nat.mul_comm, Nat.mul_add_mod, Nat.mod_eq_of_lt ho]
  rw [BitVec.le_def, toNat_mpageSize hgeom, BitVec.toNat_add, toNat_and_mpageMask hgeom,
    hgeom.cacheBase, g.toNat_frameAddress_sub, hoff, BitVec.toNat_ofInt]
  omega

end Assertions

/-! ## One passage through the TLB -/

section Access

variable {c : PinnedCache σ} {env : Env σ} {s : StoreId} {g : StoreGeometry} {pages : Nat}
  (hgeom : (env.stores s).HasGeometry g) (htlb : (env.stores s).lstoreGetTlb = .gtTLB)
  (hcache : c.Maintained (env.stores s) g pages) (hbits : g.pageBits < 31) {u : Uintptr}
  (hpage : g.page u < pages) (hu : g.page u < 2 ^ 31)

include hgeom hbits hu hcache in
/-- Giving up the last entry unpins its page, if there is one. -/
theorem exists_dropStep {r : TlbEntry}
    (hr : r.bsPageIndex = emptyIndex ∨ r.bsPageIndex.toNat < 2 ^ 31) {m : Machine σ}
    (hvalid : c.valid m.store) : ∃ m', DropStep (env.stores s) u r m m' ∧ c.valid m'.store ∧
      c.resident m'.store = c.resident m.store ∧
      (∀ p, p < 2 ^ 31 → p ≠ r.bsPageIndex.toNat → c.pins m'.store p = c.pins m.store p) ∧
      ∀ p, p < 2 ^ 31 → c.pins m.store p - 1 ≤ c.pins m'.store p := by
  by_cases hneg : 0 ≤ r.bsPageIndex.toInt
  · have hlt : r.bsPageIndex.toNat < 2 ^ (64 - g.pageBits) :=
      Nat.lt_of_lt_of_le (hr.resolve_left (ne_emptyIndex_of_nonneg hneg))
        (Nat.pow_le_pow_right (by decide) (by omega))
    have hremoved := page_removedBsPage hgeom (show g.page u < 2 ^ 32 - 1 by omega) hneg hlt
    obtain ⟨m', hok, hvalid', hres, hpins⟩ := hcache.notifyTlbDropped
      (removedBsPage (env.stores s) u r) (r.isDirty ≠ 0) m hvalid
    refine ⟨m', by rw [DropStep, if_pos hneg]; exact hok, hvalid', hres, ?_, ?_⟩
    · intro p hp hpr
      have hother : p ≠ g.page (removedBsPage (env.stores s) u r) := by
        split at hremoved
        · rwa [hremoved]
        · omega
      rw [hpins, if_neg hother, Int.sub_zero]
    · intro p _
      rw [hpins]
      split <;> omega
  · refine ⟨m, by rw [DropStep, if_neg hneg], hvalid, rfl, fun p _ _ => rfl, ?_⟩
    intro p _
    omega

/-- The page of the evicted entry has a pin to give back, so that no page is left with fewer pins
than none. -/
theorem Transparent.pins_nonneg_of_dropped {w : World σ} (hinv : Transparent c w) {m : Machine σ}
    (hsame : ∀ p, p < 2 ^ 31 → p ≠ (w.tlb .gtTLB).last.bsPageIndex.toNat →
      c.pins m.store p = c.pins w.store p)
    (hpins : ∀ p, p < 2 ^ 31 → c.pins w.store p - 1 ≤ c.pins m.store p) :
    ∀ p, p < 2 ^ 31 → 0 ≤ c.pins m.store p := by
  intro p hp
  by_cases hlast : p = (w.tlb .gtTLB).last.bsPageIndex.toNat
  · have hle := hpins p hp
    have hne : (w.tlb .gtTLB).last.bsPageIndex ≠ emptyIndex := ne_emptyIndex_of_lt (by omega)
    obtain ⟨-, -, hpinned⟩ :=
      (hinv.mapped _ (Tlb.mapping_mem (Tlb.last_mem (w.tlb .gtTLB)))).resolve_left hne
    rw [← hlast] at hpinned
    omega
  · rw [hsame p hp hlast]
    exact hinv.pins_nonneg p hp

/-- The pages that a miss keeps in the TLB keep their pins and frames. -/
theorem Transparent.mapped_of_kept {w : World σ} (hinv : Transparent c w) {m : Machine σ}
    (hsame : ∀ p, p < 2 ^ 31 → p ≠ (w.tlb .gtTLB).last.bsPageIndex.toNat →
      c.pins m.store p = c.pins w.store p)
    (hkept : ∀ p f, 0 < c.pins w.store p → c.resident w.store p = some f →
      c.resident m.store p = some f) :
    ∀ mapping ∈ (w.tlb .gtTLB).mappings.dropLast, mapping.1 = emptyIndex ∨
      mapping.1.toNat < 2 ^ 31 ∧ c.resident m.store mapping.1.toNat = some mapping.2.toNat ∧
        0 < c.pins m.store mapping.1.toNat := by
  intro mapping hold
  refine (hinv.mapped _ ((List.dropLast_sublist _).mem hold)).imp_right ?_
  rintro ⟨hlt, hresident, hpinned⟩
  have hne : mapping.1.toNat ≠ (w.tlb .gtTLB).last.bsPageIndex.toNat := by
    intro heq
    exact Tlb.page_ne_last hinv.distinct (Tlb.page_mem_dropLast hold)
      (ne_emptyIndex_of_lt (by omega)) (BitVec.eq_of_toNat_eq heq)
  refine ⟨hlt, hkept _ _ hpinned hresident, ?_⟩
  rwa [hsame _ hlt hne]

include hgeom htlb hcache hbits hpage hu in
/-- From a transparent world a passage through the TLB gives the address in the frame that holds
the page, and leaves a transparent world. -/
theorem exists_linkStep {w : World σ} (hinv : Transparent c w)
    (hreturns : HandlerReturns (env.stores s) u w) {ptrSize : Int} (hnonneg : 0 ≤ ptrSize)
    (hin : g.inPage u + ptrSize ≤ g.pageSize) (dirty : Byte) :
    ∃ f w', LinkStep env s u ptrSize dirty w (g.frameAddress f (g.inPage u)) w' ∧
      c.resident w'.store (g.page u) = some f ∧ Transparent c w' := by
  have hindex := toNat_bsPageIndex hgeom u
  have hps : g.pageSize ≤ 2 ^ 30 := Nat.pow_le_pow_right (by decide) (by omega)
  cases hlookup : (w.tlb .gtTLB).lookup (bsPageIndex (env.stores s) u) dirty with
  | some r =>
    obtain ⟨entry, tlb'⟩ := r
    obtain ⟨hmem, hentry, hmappings⟩ := Tlb.lookup_eq_some hlookup
    have hpages := Tlb.pages_of_lookup hlookup
    rcases hinv.mapped _ (Tlb.mapping_mem hmem) with hempty | ⟨-, hresident, -⟩
    · rw [hentry] at hempty
      exact absurd hempty (bsPageIndex_ne_emptyIndex hgeom (by omega))
    have hstep : LinkStep env s u ptrSize dirty w (hitAddress (env.stores s) u entry) _ :=
      .hit (by rw [htlb]; exact hlookup) (hit_assert hgeom hbits hnonneg hin)
    rw [hitAddress_eq hgeom (by omega), htlb] at hstep
    refine ⟨_, _, hstep, ?_, ?_⟩
    · show c.resident w.store (g.page u) = _
      rw [← hresident, hentry, hindex, Nat.mod_eq_of_lt (by omega)]
    · refine ⟨hinv.valid, ?_, ?_, hinv.pins_nonneg⟩
      · rw [World.log_tlb, World.withTlb_tlb_self, hpages]
        exact hinv.distinct
      · rw [World.log_tlb, World.withTlb_tlb_self, hmappings]
        exact hinv.mapped
  | none =>
    have hmiss := Tlb.lookup_eq_none_iff.mp hlookup
    obtain ⟨a, m₁, hhandler⟩ := hreturns hmiss
    obtain ⟨f, rfl, hf, hvalid₁, hres₁, hpins₁, hkept⟩ :=
      hcache.mpfHandlerC u w.toMachine a m₁ hinv.valid hpage hhandler
    have hlastMem := Tlb.mapping_mem (Tlb.last_mem (w.tlb .gtTLB))
    obtain ⟨m₂, hdrop, hvalid₂, hres₂, hsame₂, hpins₂⟩ :=
      exists_dropStep hgeom hcache hbits hu
        ((hinv.mapped _ hlastMem).imp_right fun h => h.1) hvalid₁
    obtain ⟨m₃, hcached, hvalid₃, hres₃, hpins₃⟩ := hcache.notifyTlbCached u m₂ hvalid₂
    have hstep : LinkStep env s u ptrSize dirty w _ _ :=
      .miss (by rw [htlb]; exact hlookup) hhandler (by rw [htlb]; exact hdrop) hcached
        (miss_assert hgeom hbits hnonneg (g.inPage_lt u) hin)
    rw [hpins₁] at hsame₂ hpins₂
    have hnonneg₂ := hinv.pins_nonneg_of_dropped hsame₂ hpins₂
    have hmapped₂ := hinv.mapped_of_kept hsame₂ fun p f' hpin hresident => by
      rw [hres₂]
      exact hkept p f' hpin hresident
    refine ⟨f, _, hstep, ?_, ?_⟩
    · show c.resident m₃.store (g.page u) = _
      rw [hres₃, hres₂, hres₁]
    · have htlb' := w.afterMiss_tlb_self (env.stores s) s u (g.frameAddress f (g.inPage u)) dirty m₃
      rw [htlb] at htlb'
      refine ⟨hvalid₃, ?_, ?_, ?_⟩
      · rw [htlb', Tlb.pages_push]
        exact hinv.distinct.cons_dropLast hmiss
      · intro mapping hmapping
        rw [htlb', Tlb.mappings_push] at hmapping
        show mapping.1 = _ ∨ _ ∧ c.resident m₃.store _ = _ ∧ 0 < c.pins m₃.store _
        rcases List.mem_cons.mp hmapping with rfl | hold
        · have hpinned := hnonneg₂ (g.page u) hu
          have hnat : (missEntry (env.stores s) u (g.frameAddress f (g.inPage u))
              dirty).bsPageIndex.toNat = g.page u := by
            show (bsPageIndex (env.stores s) u).toNat = _
            omega
          refine Or.inr ⟨by rw [hnat]; exact hu, ?_, ?_⟩
          · rw [hnat, hres₃, hres₂, hres₁,
              missEntry_epcPageIndex hgeom hf (g.inPage_lt u) (by omega)]
          · rw [hnat, hpins₃, if_pos rfl]
            omega
        · refine (hmapped₂ mapping hold).imp_right fun hmapped => ?_
          obtain ⟨hlt, hresident, hpinned⟩ := hmapped
          refine ⟨hlt, ?_, ?_⟩
          · rw [hres₃]
            exact hresident
          · rw [hpins₃]
            split <;> omega
      · intro p hp
        have hpinned := hnonneg₂ p hp
        show 0 ≤ c.pins m₃.store p
        rw [hpins₃]
        split <;> omega

end Access

/-! ## Runs -/

/-- A link call on a tagged pointer of store `s` into a page below `pages`, with `is_vector_type`
0 and an access that stays inside the page. -/
structure LinkCall.InPage (s : StoreId) (g : StoreGeometry) (pages : Nat) (c : LinkCall) :
    Prop where
  tagged : switchCase c.ptr = some s
  page_lt : g.page (makeOriginalPointer c.ptr) < pages
  isVectorType : c.isVectorType = 0
  nonneg : 0 ≤ c.ptrSize
  inPage : g.inPage (makeOriginalPointer c.ptr) + c.ptrSize ≤ g.pageSize

instance (s : StoreId) (g : StoreGeometry) (pages : Nat) (c : LinkCall) :
    Decidable (c.InPage s g pages) :=
  decidable_of_iff (switchCase c.ptr = some s ∧ g.page (makeOriginalPointer c.ptr) < pages ∧
      c.isVectorType = 0 ∧ 0 ≤ c.ptrSize ∧
      g.inPage (makeOriginalPointer c.ptr) + c.ptrSize ≤ g.pageSize)
    ⟨fun ⟨h₁, h₂, h₃, h₄, h₅⟩ => ⟨h₁, h₂, h₃, h₄, h₅⟩, fun ⟨h₁, h₂, h₃, h₄, h₅⟩ =>
      ⟨h₁, h₂, h₃, h₄, h₅⟩⟩

/-- The program has set the memory to `l.1`, and then the call `l.2` returns the address of its
pointer in the frame that holds the pointer's page. -/
def TransparentStep (c : PinnedCache σ) (env : Env σ) (s : StoreId) (g : StoreGeometry)
    (w : World σ) (l : Memory × LinkCall) (w' : World σ) : Prop :=
  ∃ f, l.2.exec env s (w.withMem l.1) =
      .ok (g.frameAddress f (g.inPage (makeOriginalPointer l.2.ptr))) w' ∧
    c.resident w'.store (g.page (makeOriginalPointer l.2.ptr)) = some f

/-- The page handler returns at every miss of the calls. -/
def HandlerReturnsAll (env : Env σ) (s : StoreId) : World σ → List (Memory × LinkCall) → Prop
  | _, [] => True
  | w, l :: ls =>
    HandlerReturns (env.stores s) (makeOriginalPointer l.2.ptr) (w.withMem l.1) ∧
      ∀ a w', l.2.exec env s (w.withMem l.1) = .ok a w' → HandlerReturnsAll env s w' ls

/-- A call that stays inside a page goes through the TLB, whichever template it calls. -/
theorem LinkCall.exec_inPage {env : Env σ} {s : StoreId} {g : StoreGeometry}
    (hgeom : (env.stores s).HasGeometry g) (hbits : g.pageBits < 31) {pages : Nat} {c : LinkCall}
    (hc : c.InPage s g pages) {w w' : World σ} {a : Uintptr}
    (h : LinkStep env s (makeOriginalPointer c.ptr) c.ptrSize c.dirty w a w') :
    c.exec env s w = .ok a w' := by
  have hle := hit_assert hgeom hbits hc.nonneg hc.inPage
  have hcross : c.crosses (env.stores s) = false := by
    rw [crosses, crossesPage, decide_eq_false (BitVec.not_lt.mpr hle), Bool.and_false]
  exact (exec_eq_ok (isCarmorPtr_of_switchCase hc.tagged) hcross).mpr ⟨hc.isVectorType, h⟩

/-- The initialized TLB is transparent. -/
theorem transparent_of_initialize {c : PinnedCache σ} {env : Env σ} {s : StoreId}
    {g : StoreGeometry} (hstore : CachedStore env s g) {privData : Uintptr} {res : Int}
    {w₀ w : World σ}
    (hinit : carmorInitializeTemplate env s privData w₀ = .ok res w) (hvalid : c.valid w.store)
    (hpins : ∀ p, p < 2 ^ 31 → 0 ≤ c.pins w.store p) : Transparent c w := by
  obtain ⟨htlb, -, -⟩ := carmorInitialize_eq_ok hstore.isCached hinit
  refine ⟨hvalid, ?_, ?_, hpins⟩
  · rw [htlb, Tlb.pages_memset]
    exact Lib.Fifo.distinct_replicate _ _
  · intro mapping hmapping
    rw [htlb, Tlb.mappings_memset] at hmapping
    rw [List.eq_of_mem_replicate hmapping]
    exact Or.inl rfl

/-- From the initialized TLB every sequence of link calls for which the page handler returns goes
through, and each call returns the address in the frame that holds the page at that moment. -/
theorem link_transparent {c : PinnedCache σ} {env : Env σ} {s : StoreId} {g : StoreGeometry}
    {pages : Nat} (hstore : CachedStore env s g) (hcache : c.Maintained (env.stores s) g pages)
    (hbits : g.pageBits < 31) (hpages : pages ≤ 2 ^ 31) {privData : Uintptr} {res : Int}
    {w₀ w : World σ} (hinit : carmorInitializeTemplate env s privData w₀ = .ok res w)
    (hvalid : c.valid w.store) (hpins : ∀ p, p < 2 ^ 31 → 0 ≤ c.pins w.store p)
    {calls : List (Memory × LinkCall)} (hcalls : ∀ l ∈ calls, l.2.InPage s g pages)
    (hreturns : HandlerReturnsAll env s w calls) :
    ∃ w', Lib.Run (TransparentStep c env s g) w calls w' := by
  have hstart := transparent_of_initialize hstore hinit hvalid hpins
  clear hinit hvalid hpins
  induction calls generalizing w with
  | nil => exact ⟨w, .nil w⟩
  | cons l calls ih =>
    have hl := hcalls l List.mem_cons_self
    have hmem : Transparent c (w.withMem l.1) :=
      ⟨hstart.valid, hstart.distinct, hstart.mapped, hstart.pins_nonneg⟩
    obtain ⟨f, w₁, hlink, hresident, hinv⟩ := exists_linkStep hstore.geometry hstore.tlb hcache hbits
      hl.page_lt (Nat.lt_of_lt_of_le hl.page_lt hpages) hmem hreturns.1 hl.nonneg hl.inPage l.2.dirty
    have hexec := LinkCall.exec_inPage hstore.geometry hbits hl hlink
    have hstep : TransparentStep c env s g w l w₁ := ⟨f, hexec, hresident⟩
    obtain ⟨w', hrest⟩ :=
      ih (fun k hk => hcalls k (List.mem_cons_of_mem _ hk)) (hreturns.2 _ _ hexec) hinv
    exact ⟨w', .cons hstep hrest⟩

/-- The cache of a resident store with `pages` pages: page `p` is in frame `p`. -/
def residentCache (s : StoreId) (pages : Nat) : PinnedCache Pins where
  valid _ := True
  resident _ p := if p < pages then some p else none
  pins st p := st s p

theorem residentCache_maintained (g : StoreId → StoreGeometry) (buffer : Uintptr) (s : StoreId)
    {pages : Nat} (hpages : pages ≤ 2 ^ 16) :
    (residentCache s pages).Maintained ((residentEnv g buffer).stores s) (g s) pages where
  mpfHandlerC u m a m' _ hu hrun := by
    cases hrun
    exact ⟨(g s).page u, rfl, by omega, trivial, if_pos hu, rfl, fun _ _ _ h => h⟩
  notifyTlbCached u m _ := by
    refine ⟨_, rfl, trivial, rfl, ?_⟩
    intro p
    show (if s = s ∧ p = (g s).page u then _ else _) = _
    by_cases hp : p = (g s).page u
    · rw [if_pos ⟨rfl, hp⟩, if_pos hp]
      rfl
    · rw [if_neg (hp ·.2), if_neg hp]
      exact (Int.add_zero _).symm
  notifyTlbDropped u dirty m _ := by
    refine ⟨_, rfl, trivial, rfl, ?_⟩
    intro p
    show (if s = s ∧ p = (g s).page u then _ else _) = _
    by_cases hp : p = (g s).page u
    · rw [if_pos ⟨rfl, hp⟩, if_pos hp]
      rfl
    · rw [if_neg (hp ·.2), if_neg hp]
      exact (Int.sub_zero _).symm

/-! ## A store that counts pins -/

/-- The state of a store with six frames: where its pages are, and its notifications. -/
structure PinningStore where
  frame : FrameMap
  cached : List Nat
  dropped : List Nat

namespace PinningStore

/-- The pins of a page. -/
def pins (st : PinningStore) (p : Nat) : Int := st.cached.count p - st.dropped.count p

/-- The pages with pins. -/
def pinned (st : PinningStore) : List Nat := st.cached.filter fun p => decide (0 < st.pins p)

/-- Bring the page of `u` into a frame without a pinned page, if there is one. -/
def handler (g : StoreGeometry) (u : Uintptr) : EStateM Stop (Machine PinningStore) Uintptr := fun m =>
  match m.store.frame (g.page u) with
  | some f => .ok (g.frameAddress f (g.inPage u)) m
  | none =>
    let f := m.store.frame.free m.store.pinned
    if m.store.pinned.any fun p => m.store.frame p == some f then .error .abort m
    else .ok (g.frameAddress f (g.inPage u))
      { m with store := { m.store with frame := m.store.frame.moved (g.page u) f } }

def callbacks (g : StoreGeometry) : PageCallbacks PinningStore where
  notifyTlbCached u := modify fun m =>
    { m with store := { m.store with cached := g.page u :: m.store.cached } }
  notifyTlbDropped u _ := modify fun m =>
    { m with store := { m.store with dropped := g.page u :: m.store.dropped } }
  mpfHandlerC := handler g

def cache : PinnedCache PinningStore where
  valid st := st.frame.Valid
  resident st := st.frame
  pins := pins

theorem mem_pinned {st : PinningStore} {p : Nat} (h : 0 < st.pins p) : p ∈ st.pinned := by
  refine List.mem_filter.mpr ⟨?_, decide_eq_true h⟩
  unfold pins at h
  exact List.count_pos_iff.mp (by omega)

theorem handler_spec {g : StoreGeometry} {u a : Uintptr} {m m' : Machine PinningStore}
    (hvalid : m.store.frame.Valid) (h : handler g u m = .ok a m') : ∃ f,
      a = g.frameAddress f (g.inPage u) ∧ f ≤ tlbSize ∧ m'.store.frame.Valid ∧
      m'.store.frame (g.page u) = some f ∧ m'.store.pins = m.store.pins ∧
      ∀ p f', 0 < m.store.pins p → m.store.frame p = some f' → m'.store.frame p = some f' := by
  unfold handler at h
  split at h
  · rename_i f hf
    cases h
    exact ⟨f, rfl, hvalid.frame_le _ _ hf, hvalid, hf, rfl, fun _ _ _ hp => hp⟩
  · rename_i hnone
    simp only [] at h
    split at h
    · cases h
    · rename_i hfree
      cases h
      refine ⟨_, rfl, Nat.findGreatest_le _, FrameMap.moved_valid hvalid (Nat.findGreatest_le _),
        FrameMap.moved_self _ _ _, rfl, ?_⟩
      intro p f' hpins hp
      have hne : p ≠ g.page u := by
        rintro rfl
        rw [hnone] at hp
        cases hp
      refine (FrameMap.moved_other hne ?_).trans hp
      exact fun heq => hfree (List.any_eq_true.mpr ⟨p, mem_pinned hpins, beq_iff_eq.mpr heq⟩)

theorem cache_maintained (g : StoreId → StoreGeometry) (s : StoreId) (pages : Nat) :
    cache.Maintained ((PageCallbacks.env (fun s => callbacks (g s)) g).stores s) (g s) pages where
  mpfHandlerC u m a m' hvalid _ hrun := by
    obtain ⟨f, ha, hf, hvalid', hself, hpins, hkept⟩ := handler_spec hvalid hrun
    have hsize : tlbSize < 2 ^ 16 := by decide
    exact ⟨f, ha, by omega, hvalid', hself, hpins, hkept⟩
  notifyTlbCached u m hvalid := by
    refine ⟨_, rfl, hvalid, rfl, ?_⟩
    intro p
    show ((((g s).page u :: m.store.cached).count p : Nat) : Int) - _ = _ - _ + _
    rw [List.count_cons]
    by_cases hp : p = (g s).page u
    · simp only [hp, beq_self_eq_true, if_true]
      omega
    · have hne : ((g s).page u == p) = false := beq_false_of_ne (Ne.symm hp)
      simp only [hne, hp, if_false, Bool.false_eq_true]
      omega
  notifyTlbDropped u dirty m hvalid := by
    refine ⟨_, rfl, hvalid, rfl, ?_⟩
    intro p
    show _ - ((((g s).page u :: m.store.dropped).count p : Nat) : Int) = _ - _ - _
    rw [List.count_cons]
    by_cases hp : p = (g s).page u
    · simp only [hp, beq_self_eq_true, if_true]
      omega
    · have hne : ((g s).page u == p) = false := beq_false_of_ne (Ne.symm hp)
      simp only [hne, hp, if_false, Bool.false_eq_true]
      omega

/-- The store at the four positions. -/
def pinningEnv : Env PinningStore :=
  PageCallbacks.env (fun _ => callbacks smallGeometry) fun _ => smallGeometry

def initialWorld : World PinningStore :=
  PageCallbacks.initialWorld (fun _ => callbacks smallGeometry) (fun _ => smallGeometry)
    ⟨fun _ => none, [], []⟩

theorem carmorInitialize_pinningEnv : ∃ w₀,
    carmorInitializeTemplate pinningEnv .lstore0 0 w₀ = .ok 0 initialWorld :=
  PageCallbacks.carmorInitialize_env _ _ _

/-- The handler returns at every miss of the calls, found by evaluation. -/
def returnsAll : World PinningStore → List (Memory × LinkCall) → Bool
  | _, [] => true
  | w, l :: ls =>
    Lib.succeeds (handler smallGeometry (makeOriginalPointer l.2.ptr) (w.withMem l.1).toMachine) &&
      returnsAll (Lib.finalState (l.2.exec pinningEnv .lstore0 (w.withMem l.1))) ls

theorem handlerReturnsAll_of_eval {calls : List (Memory × LinkCall)} {w : World PinningStore}
    (h : returnsAll w calls = true) : HandlerReturnsAll pinningEnv .lstore0 w calls := by
  induction calls generalizing w with
  | nil => trivial
  | cons l ls ih =>
    rw [returnsAll, Bool.and_eq_true] at h
    refine ⟨fun _ => ⟨_, _, (Lib.exists_ok_of_succeeds h.1).choose_spec⟩, ?_⟩
    intro a w' hrun
    have hrest := h.2
    rw [hrun] at hrest
    exact ih hrest

/-- Reads in eight pages, with hits, and a write of the program in between. From the seventh page on
each miss evicts the page whose pin has been given back. -/
theorem link_transparent_evicting : ∃ w', Lib.Run
    (TransparentStep cache pinningEnv .lstore0 smallGeometry) initialWorld
    ((readCalls [0x1000, 0x1ff8, 0x2000, 0x3000, 0x4000, 0x5000, 0x6000, 0x5008, 0x7000, 0x8000,
      0x1008]).map fun c => (fun _ => 1, c)) w' := by
  have hcalls : (readCalls [0x1000, 0x1ff8, 0x2000, 0x3000, 0x4000, 0x5000, 0x6000, 0x5008, 0x7000,
      0x8000, 0x1008]).all (fun c => decide (c.InPage .lstore0 smallGeometry 256)) = true := by
    decide +kernel
  refine link_transparent (PageCallbacks.env_cachedStore _ rfl)
    (cache_maintained (fun _ => smallGeometry) .lstore0 256) (by decide) (by decide)
    carmorInitialize_pinningEnv.choose_spec FrameMap.valid_empty (fun p _ => Int.le_refl _) ?_
    (handlerReturnsAll_of_eval (by decide +kernel))
  intro l hl
  obtain ⟨c, hc, rfl⟩ := List.mem_map.mp hl
  exact of_decide_eq_true (List.all_eq_true.mp hcalls c hc)

end PinningStore

end Carmor
