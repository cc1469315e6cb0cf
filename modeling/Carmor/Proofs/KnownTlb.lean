import Carmor.Proofs.FlatMemory
import Carmor.Proofs.Transparency
import Mathlib.Data.List.Forall2
import Mathlib.Data.List.ReduceOption

/-!
# Stores that know their TLB

A cached store may reuse the frame of a page on a miss unless the page is in the TLB: it learns
which pages are there from the notifications. `KnownStore` is this contract, with the stores'
knowledge as a predicate `knows` on their state. Stores may share a TLB, as all instances of
`lstore_get_tlb_template` share `gt_TLB`, but an entry does not say whose page it maps. `TlbOwners`
adds the stores to the entries: a page fault returns an address in the frame of the store whose
entry it finds, and this is the frame of the page only if it finds no entry of another store.
-/

namespace Carmor

variable {σ : Type}

/-! ## TLBs with the stores of their entries -/

/-- The page indices in the TLBs with the stores that they belong to, the latest entry first. -/
abbrev TlbOwners := TlbRef → List (StoreId × Unsigned)

/-- The page of an entry, if it belongs to store `s`. -/
def pageOfEntry (s : StoreId) (e : StoreId × Unsigned) : Option Nat :=
  if e.1 = s then some e.2.toNat else none

namespace TlbOwners

variable (refs : StoreId → TlbRef) (T : TlbOwners)

/-- The TLBs after an access of a store to a page; the TLB of store `s` is `refs s`. -/
def access (l : StoreId × Unsigned) : TlbOwners := fun q =>
  if q = refs l.1 then Lib.Fifo.touchOwned (T q) l else T q

/-- An access that finds no entry of another store. -/
def FindsOwn (l : StoreId × Unsigned) : Prop := Lib.Fifo.found (T (refs l.1)) l = l

instance (l : StoreId × Unsigned) : Decidable (T.FindsOwn refs l) :=
  inferInstanceAs (Decidable (_ = _))

/-- The pages of a store in its TLB, entry by entry. -/
def slots (s : StoreId) : List (Option Nat) := (T (refs s)).map (pageOfEntry s)

/-- The pages of a store in its TLB. -/
def pages (s : StoreId) : List Nat := (T.slots refs s).reduceOption

/-- A TLB is full, and the stores of its entries use it. -/
structure Valid : Prop where
  length : ∀ s, (T (refs s)).length = tlbSize
  home : ∀ s, ∀ e ∈ T (refs s), e.2 = emptyIndex ∨ refs e.1 = refs s

variable {refs T} {s : StoreId} {e l : StoreId × Unsigned}

theorem mem_slots {p : Nat} :
    some p ∈ T.slots refs s ↔ ∃ i, (s, i) ∈ T (refs s) ∧ i.toNat = p := by
  simp only [slots, List.mem_map, pageOfEntry]
  constructor
  · rintro ⟨⟨o, i⟩, he, hp⟩
    split at hp
    · rename_i ho
      cases hp
      exact ⟨i, ho ▸ he, rfl⟩
    · cases hp
  · rintro ⟨i, he, rfl⟩
    exact ⟨(s, i), he, if_pos rfl⟩

theorem mem_pages {p : Nat} : p ∈ T.pages refs s ↔ ∃ i, (s, i) ∈ T (refs s) ∧ i.toNat = p := by
  rw [pages, List.reduceOption_mem_iff, mem_slots]

theorem length_pages_le (hT : T.Valid refs) (s : StoreId) : (T.pages refs s).length ≤ tlbSize := by
  have hle := List.reduceOption_length_le (T.slots refs s)
  rwa [slots, List.length_map, hT.length] at hle

theorem access_self (refs : StoreId → TlbRef) (T : TlbOwners) (l : StoreId × Unsigned) :
    T.access refs l (refs l.1) = Lib.Fifo.touchOwned (T (refs l.1)) l := if_pos rfl

theorem access_of_ne (T : TlbOwners) {q : TlbRef} (hq : q ≠ refs l.1) :
    T.access refs l q = T q := if_neg hq

theorem access_of_mem (h : l.2 ∈ (T (refs l.1)).map Prod.snd) : T.access refs l = T := by
  funext q
  unfold access
  split
  · rename_i hq
    rw [hq, Lib.Fifo.touchOwned_of_mem h]
  · rfl

/-- What an access changes in a TLB. -/
theorem mem_access {q : TlbRef} (h : e ∈ T.access refs l q) : q = refs l.1 ∧ e = l ∨ e ∈ T q := by
  unfold access at h
  split at h
  · rename_i hq
    exact (Lib.Fifo.mem_of_mem_touchOwned h).imp_left fun he => ⟨hq, he⟩
  · exact .inr h

theorem Valid.ne_nil (hT : T.Valid refs) (s : StoreId) : T (refs s) ≠ [] :=
  List.ne_nil_of_length_pos (by rw [hT.length]; decide)

theorem Valid.access (hT : T.Valid refs) (l : StoreId × Unsigned) : (T.access refs l).Valid refs := by
  constructor
  · intro s
    by_cases hs : refs s = refs l.1
    · rw [hs, access_self, Lib.Fifo.length_touchOwned (hT.ne_nil l.1), hT.length]
    · rw [access_of_ne T hs, hT.length]
  · intro s e he
    rcases mem_access he with ⟨hs, rfl⟩ | hold
    · exact .inr hs.symm
    · exact hT.home s e hold

end TlbOwners

/-! ## The contract -/

/-- The contract of a store: `knows T` holds of the stores' state while the TLBs have the entries
`T`. On a miss the handler brings the page into a frame and leaves alone the frames of the page
itself, of the store's pages in the TLB, and of the other stores. The notifications of a miss move
no page, and the stores know the new TLB after them. -/
structure KnownStore (env : Env σ) (r : Residency σ) (knows : TlbOwners → σ → Prop)
    (refs : StoreId → TlbRef) (s : StoreId) : Prop where
  isCached : (env.stores s).lstoreIsDirect = false
  geometry : (env.stores s).HasGeometry (r.geometry s)
  tlb : (env.stores s).lstoreGetTlb = refs s
  link : CachedInstance env s
  mpfHandlerC : ∀ {T u} {m : Machine σ}, knows T m.store → (r.geometry s).page u < 2 ^ 32 - 1 →
    (r.geometry s).index u ∉ (T (refs s)).map Prod.snd → ∃ f m',
      (env.stores s).mpfHandlerC u m =
        .ok ((r.geometry s).frameAddress f ((r.geometry s).inPage u)) m' ∧ f < 2 ^ 16 ∧
      r.frame m'.store s ((r.geometry s).page u) = some f ∧ knows T m'.store ∧
      (∀ p f', p ∈ T.pages refs s ∨ p = (r.geometry s).page u →
        r.frame m.store s p = some f' → r.frame m'.store s p = some f') ∧
      ∀ t, t ≠ s → r.frame m'.store t = r.frame m.store t
  notified : ∀ {T u e} {m : Machine σ}, knows T m.store →
    (r.geometry s).index u ∉ (T (refs s)).map Prod.snd →
    ((T (refs s)).map Prod.snd).getLast? = some e.bsPageIndex → ∃ m₁ m₂,
      DropStep (env.stores s) u e m m₁ ∧ (env.stores s).notifyTlbCached u m₁ = .ok () m₂ ∧
      knows (T.access refs (s, (r.geometry s).index u)) m₂.store ∧
      r.frame m₂.store = r.frame m.store

/-- An entry of the TLB maps the page of its store to the frame that holds it. -/
def EntryHeld (r : Residency σ) (st : σ) (mapping : Unsigned × BitVec 16) (e : StoreId × Unsigned) :
    Prop :=
  mapping.1 = e.2 ∧ (e.2 = emptyIndex ∨ r.frame st e.1 e.2.toNat = some mapping.2.toNat)

/-- The TLBs have the entries `T`, the stores know it, and the entries map their pages to the frames
that hold them. -/
structure TlbResident (r : Residency σ) (knows : TlbOwners → σ → Prop) (refs : StoreId → TlbRef)
    (T : TlbOwners) (w : World σ) : Prop where
  valid : T.Valid refs
  known : knows T w.store
  mapped : ∀ s, List.Forall₂ (EntryHeld r w.store) (w.tlb (refs s)).mappings (T (refs s))

/-- What another placement must keep for an entry. -/
theorem EntryHeld.of_frame {r : Residency σ} {st st' : σ} {mapping : Unsigned × BitVec 16}
    {e : StoreId × Unsigned} (h : EntryHeld r st mapping e)
    (hframe : e.2 ≠ emptyIndex → ∀ f, r.frame st e.1 e.2.toNat = some f →
      r.frame st' e.1 e.2.toNat = some f) : EntryHeld r st' mapping e := by
  by_cases hempty : e.2 = emptyIndex
  · exact ⟨h.1, .inl hempty⟩
  · exact ⟨h.1, .inr (hframe hempty _ (h.2.resolve_left hempty))⟩

/-- Related lists keep a weaker relation on the entries that occur. -/
theorem forall₂_imp_of_mem {α β : Type*} {R R' : α → β → Prop} {xs : List α} {ys : List β}
    (h : List.Forall₂ R xs ys) (himp : ∀ x, ∀ y ∈ ys, R x y → R' x y) : List.Forall₂ R' xs ys := by
  induction h with
  | nil => exact .nil
  | cons hxy _ ih =>
    exact .cons (himp _ _ List.mem_cons_self hxy)
      (ih fun x y hy => himp x y (List.mem_cons_of_mem _ hy))

theorem forall₂_dropLast {α β : Type*} {R : α → β → Prop} {xs : List α} {ys : List β}
    (h : List.Forall₂ R xs ys) : List.Forall₂ R xs.dropLast ys.dropLast := by
  rw [List.dropLast_eq_take, List.dropLast_eq_take, h.length_eq]
  exact List.forall₂_take _ h

section Mapped

variable {r : Residency σ} {st : σ} {T : List (StoreId × Unsigned)}

/-- The indices of a TLB are those of its entries with their stores. -/
theorem map_snd_of_mapped {mappings : List (Unsigned × BitVec 16)}
    (h : List.Forall₂ (EntryHeld r st) mappings T) : mappings.map Prod.fst = T.map Prod.snd := by
  induction h with
  | nil => rfl
  | cons he _ ih => rw [List.map_cons, List.map_cons, he.1, ih]

/-- The entry that a lookup hits maps the page to the frame in which the store of the entry holds
its page of this index. -/
theorem scan_found {es : List TlbEntry} {i : Unsigned} {dirty : Byte}
    {res : TlbEntry × List TlbEntry} (s : StoreId) (hi : i ≠ emptyIndex)
    (h : List.Forall₂ (EntryHeld r st) (es.map fun e => (e.bsPageIndex, e.epcPageIndex)) T)
    (hscan : Tlb.scan i dirty es = some res) :
    r.frame st (Lib.Fifo.found T (s, i)).1 i.toNat = some res.1.epcPageIndex.toNat := by
  induction es generalizing T res with
  | nil => simp [Tlb.scan] at hscan
  | cons e es ih =>
    rw [List.map_cons] at h
    cases h with
    | @cons _ d _ T he hrest =>
      obtain ⟨hpage, hheld⟩ := he
      rw [Tlb.scan] at hscan
      split at hscan
      · rename_i heq
        have hd : d.2 = i := hpage.symm.trans heq
        cases hscan
        have hfound : Lib.Fifo.found (d :: T) (s, i) = d :=
          Lib.Fifo.found_of_find? (by simp [hd])
        rw [hfound, ← hd]
        exact hheld.resolve_left (hd ▸ hi)
      · rename_i hne
        obtain ⟨res', hres', rfl⟩ := Option.map_eq_some_iff.mp hscan
        have hd : d.2 ≠ i := fun heq => hne (hpage.trans heq)
        have hfound : Lib.Fifo.found (d :: T) (s, i) = Lib.Fifo.found T (s, i) := by
          simp [Lib.Fifo.found, hd]
        have hrec := ih hrest hres'
        rwa [hfound]

theorem lookup_found {t t' : Tlb} {i : Unsigned} {dirty : Byte} {entry : TlbEntry} (s : StoreId)
    (hi : i ≠ emptyIndex) (h : List.Forall₂ (EntryHeld r st) t.mappings T)
    (hlookup : t.lookup i dirty = some (entry, t')) :
    r.frame st (Lib.Fifo.found T (s, i)).1 i.toNat = some entry.epcPageIndex.toNat := by
  rw [Tlb.lookup] at hlookup
  split at hlookup
  · cases hlookup
  · rename_i res hscan
    cases hlookup
    exact scan_found s hi h hscan

end Mapped

theorem TlbResident.pages_eq {r : Residency σ} {knows : TlbOwners → σ → Prop}
    {refs : StoreId → TlbRef} {T : TlbOwners} {w : World σ} (h : TlbResident r knows refs T w)
    (s : StoreId) : (w.tlb (refs s)).pages = (T (refs s)).map Prod.snd := by
  rw [Tlb.pages_eq_mappings, map_snd_of_mapped (h.mapped s)]

/-- The pages that stay in their frames when store `s` accesses page `p`: those in its TLB and `p`,
and on a hit all pages. -/
def FramesKept (r : Residency σ) (refs : StoreId → TlbRef) (T : TlbOwners) (s : StoreId) (p : Nat)
    (st st' : σ) : Prop :=
  ∀ q f, q ∈ T.pages refs s ∨ q = p ∨ BitVec.ofNat 32 p ∈ (T (refs s)).map Prod.snd →
    r.frame st s q = some f → r.frame st' s q = some f

section Link

variable {env : Env σ} {r : Residency σ} {knows : TlbOwners → σ → Prop} {refs : StoreId → TlbRef}
  {s : StoreId} {T : TlbOwners} {w : World σ} {u : Uintptr}

/-- The entries of the TLBs map the frames that hold their pages after an access of store `s`: they
belong to other stores, or their pages are kept. -/
theorem TlbResident.held_of_kept (hw : TlbResident r knows refs T w) {st : σ} {p : Nat}
    (hkept : FramesKept r refs T s p w.store st)
    (hothers : ∀ t, t ≠ s → r.frame st t = r.frame w.store t) (t : StoreId) :
    List.Forall₂ (EntryHeld r st) (w.tlb (refs t)).mappings (T (refs t)) := by
  refine forall₂_imp_of_mem (hw.mapped t) fun mapping e he hheld => ?_
  refine hheld.of_frame fun hempty f' hf' => ?_
  by_cases hes : e.1 = s
  · have hhome := (hw.valid.home t e he).resolve_left hempty
    rw [hes] at hf' hhome ⊢
    refine hkept _ f' (.inl (TlbOwners.mem_pages.mpr ⟨e.2, ?_, rfl⟩)) hf'
    rw [hhome, ← hes]
    exact he
  · rw [hothers _ hes, hf']

/-- A hit changes no entry but its dirty flag. -/
theorem TlbResident.of_hit (hw : TlbResident r knows refs T w) {ref : TlbRef} {tlb' : Tlb}
    (hmappings : tlb'.mappings = (w.tlb ref).mappings) (e : Event σ) :
    TlbResident r knows refs T ((w.withTlb ref tlb').log e) := by
  refine ⟨hw.valid, hw.known, fun t => ?_⟩
  rw [World.log_tlb, World.log_store, World.withTlb_store]
  by_cases ht : refs t = ref
  · rw [ht, World.withTlb_tlb_self, hmappings, ← ht]
    exact hw.mapped t
  · rw [World.withTlb_tlb_ne _ _ _ ht]
    exact hw.mapped t

/-- A passage through the TLB of a store that knows it leads to the frame of the page of the store
whose entry serves it. -/
theorem KnownStore.exists_linkStep (h : KnownStore env r knows refs s)
    (hbits : (r.geometry s).pageBits ≤ 30) (hw : TlbResident r knows refs T w)
    (hu : (r.geometry s).page u < 2 ^ 32 - 1) (dirty : Byte) :
    ∃ f w', LinkStep env s u 0 dirty w ((r.geometry s).frameAddress f ((r.geometry s).inPage u)) w' ∧
      r.frame w'.store (Lib.Fifo.found (T (refs s)) (s, (r.geometry s).index u)).1
        ((r.geometry s).page u) = some f ∧
      TlbResident r knows refs (T.access refs (s, (r.geometry s).index u)) w' ∧
      FramesKept r refs T s ((r.geometry s).page u) w.store w'.store ∧
      ∀ t, t ≠ s → r.frame w'.store t = r.frame w.store t := by
  have hindex := bsPageIndex_eq_index h.geometry u
  have hps : (r.geometry s).pageSize ≤ 2 ^ 30 := Nat.pow_le_pow_right (by decide) hbits
  have hlt := (r.geometry s).inPage_lt u
  have hpages := hw.pages_eq s
  cases hlookup : (w.tlb (env.stores s).lstoreGetTlb).lookup (bsPageIndex (env.stores s) u) dirty with
  | some res =>
    obtain ⟨entry, tlb'⟩ := res
    obtain ⟨hmem, hentry, hmappings⟩ := Tlb.lookup_eq_some hlookup
    have hkey : (r.geometry s).index u ∈ (T (refs s)).map Prod.snd := by
      rw [← hpages, ← hindex, ← hentry, ← h.tlb]
      exact Tlb.page_mem hmem
    have hframe := lookup_found s (StoreGeometry.index_ne_emptyIndex hu) (hw.mapped s)
      (hindex ▸ h.tlb ▸ hlookup)
    rw [StoreGeometry.toNat_index hu] at hframe
    have hstep : LinkStep env s u 0 dirty w (hitAddress (env.stores s) u entry) _ :=
      .hit hlookup (hit_assert h.geometry (by omega) (Int.le_refl 0) (by omega))
    rw [hitAddress_eq h.geometry (by omega)] at hstep
    refine ⟨_, _, hstep, hframe, ?_, fun _ _ _ hq => hq, fun _ _ => rfl⟩
    rw [TlbOwners.access_of_mem hkey]
    exact hw.of_hit hmappings _
  | none =>
    have hmiss : (r.geometry s).index u ∉ (T (refs s)).map Prod.snd := by
      rw [← hpages, ← h.tlb, ← hindex]
      exact Tlb.lookup_eq_none_iff.mp hlookup
    obtain ⟨f, m₁, hhandler, hf, hframe₁, hknows₁, hkept₁, hothers₁⟩ :=
      h.mpfHandlerC (m := w.toMachine) hw.known hu hmiss
    have hlast : ((T (refs s)).map Prod.snd).getLast? =
        some (w.tlb (env.stores s).lstoreGetTlb).last.bsPageIndex := by
      rw [← hpages, ← h.tlb]
      exact Tlb.pages_getLast? _
    obtain ⟨m₂, m₃, hdrop, hcached, hknows₃, hframe₃⟩ := h.notified hknows₁ hmiss hlast
    have hstep : LinkStep env s u 0 dirty w _ _ :=
      .miss hlookup hhandler hdrop hcached
        (miss_assert h.geometry (by omega) (Int.le_refl 0) hlt (by omega))
    have hself : BitVec.ofNat 32 ((r.geometry s).page u) = (r.geometry s).index u := rfl
    have hkept : FramesKept r refs T s ((r.geometry s).page u) w.store m₃.store := by
      intro q f' hq hqf
      rw [hframe₃]
      refine hkept₁ q f' (hq.imp_right fun hhit => hhit.resolve_right ?_) hqf
      rwa [hself]
    have hothers : ∀ t, t ≠ s → r.frame m₃.store t = r.frame w.store t := by
      intro t ht
      rw [hframe₃, hothers₁ t ht]
    refine ⟨f, _, hstep, ?_, ⟨hw.valid.access _, hknows₃, fun t => ?_⟩, hkept, hothers⟩
    · rw [Lib.Fifo.found_of_notMem hmiss]
      show r.frame m₃.store s _ = _
      rw [hframe₃, hframe₁]
    · have hrest := hw.held_of_kept hkept hothers t
      show List.Forall₂ (EntryHeld r m₃.store) ((World.afterMiss _ _ _ _ _ _ _).tlb (refs t)).mappings _
      by_cases ht : refs t = refs s
      · rw [ht] at hrest ⊢
        rw [TlbOwners.access_self refs T (s, _), Lib.Fifo.touchOwned_of_notMem hmiss, ← h.tlb,
          World.afterMiss_tlb_self, Tlb.mappings_push, h.tlb]
        refine .cons ⟨hindex, .inr ?_⟩ (forall₂_dropLast hrest)
        show r.frame m₃.store s ((r.geometry s).index u).toNat = some (BitVec.toNat _)
        rw [StoreGeometry.toNat_index hu, hframe₃, hframe₁,
          missEntry_epcPageIndex h.geometry hf hlt (by omega)]
      · rw [TlbOwners.access_of_ne T ht]
        have hne : refs t ≠ (env.stores s).lstoreGetTlb := h.tlb ▸ ht
        show List.Forall₂ _ ((w.withTlb _ _).tlb (refs t)).mappings _
        rw [World.withTlb_tlb_ne _ _ _ hne]
        exact hrest

end Link

end Carmor
