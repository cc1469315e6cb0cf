import Carmor.Proofs.DirtyBits
import Carmor.Proofs.FlatMemory
import Carmor.Proofs.Transparency

/-!
# The storage behind a page cache

`StorageCache` is a page cache with the bytes of the storage: a page's bytes are in its frame, or in
the store's own memory if it is not resident. The store spares the pages in the TLB and the page it
fetches. It may evict any other page, and it writes the page back only if it was told that the page
is dirty. `Synced` says why no byte is lost: a page whose frame differs from what is stored is known
to be dirty, or has a dirty entry in the TLB. It is kept as long as the drop of a dirty entry
reaches its page (`DirtyReaches`).
-/

namespace Carmor

variable {σ : Type}

/-! ## Dirty entries of the TLB -/

namespace Tlb

/-- The page has an entry. -/
def HasPage (t : Tlb) (p : Nat) : Prop := ∃ e ∈ t.entries, e.bsPageIndex.toNat = p

/-- The page has an entry with a nonzero dirty flag. -/
def DirtyPage (t : Tlb) (p : Nat) : Prop :=
  ∃ e ∈ t.entries, e.bsPageIndex.toNat = p ∧ e.isDirty ≠ 0

theorem DirtyPage.hasPage {t : Tlb} {p : Nat} (h : t.DirtyPage p) : t.HasPage p := by
  obtain ⟨e, he, hp, -⟩ := h
  exact ⟨e, he, hp⟩

theorem hasPage_iff {t : Tlb} {p : Nat} : t.HasPage p ↔ ∃ i ∈ t.pages, i.toNat = p := by
  unfold HasPage pages
  simp

theorem or_ne_zero_left {a b : Byte} (h : a ≠ 0) : a ||| b ≠ 0 := by
  intro hor
  exact h (BitVec.or_eq_zero_iff.mp hor).1

/-- The lookup never clears a dirty flag. -/
theorem scan_dirty {i : Unsigned} {dirty : Byte} {es : List TlbEntry}
    {r : TlbEntry × List TlbEntry} (h : scan i dirty es = some r) {e : TlbEntry} (he : e ∈ es)
    (hdirty : e.isDirty ≠ 0) : ∃ e' ∈ r.2, e'.bsPageIndex = e.bsPageIndex ∧ e'.isDirty ≠ 0 := by
  induction es generalizing r with
  | nil => cases he
  | cons x xs ih =>
    rw [scan] at h
    split at h
    · obtain rfl := Option.some.inj h
      rcases List.mem_cons.mp he with rfl | hmem
      · exact ⟨_, List.mem_cons_self, rfl, or_ne_zero_left hdirty⟩
      · exact ⟨e, List.mem_cons_of_mem _ hmem, rfl, hdirty⟩
    · obtain ⟨q, hq, rfl⟩ := Option.map_eq_some_iff.mp h
      rcases List.mem_cons.mp he with rfl | hmem
      · exact ⟨e, List.mem_cons_self, rfl, hdirty⟩
      · obtain ⟨e', he', hpage, hflag⟩ := ih hq hmem
        exact ⟨e', List.mem_cons_of_mem _ he', hpage, hflag⟩

/-- The entry that is found gets the dirty flag of the access. -/
theorem scan_marks {i : Unsigned} {dirty : Byte} {es : List TlbEntry}
    {r : TlbEntry × List TlbEntry} (h : scan i dirty es = some r) (hdirty : dirty ≠ 0) :
    ∃ e' ∈ r.2, e'.bsPageIndex = i ∧ e'.isDirty ≠ 0 := by
  induction es generalizing r with
  | nil => simp [scan] at h
  | cons x xs ih =>
    rw [scan] at h
    split at h
    · rename_i heq
      obtain rfl := Option.some.inj h
      refine ⟨_, List.mem_cons_self, heq, ?_⟩
      rw [BitVec.or_comm]
      exact or_ne_zero_left hdirty
    · obtain ⟨q, hq, rfl⟩ := Option.map_eq_some_iff.mp h
      obtain ⟨e', he', hpage, hflag⟩ := ih hq
      exact ⟨e', List.mem_cons_of_mem _ he', hpage, hflag⟩

section Lookup

variable {t t' : Tlb} {i : Unsigned} {dirty : Byte} {e : TlbEntry}
  (h : t.lookup i dirty = some (e, t'))
include h

theorem scan_of_lookup : scan i dirty t.entries = some (e, t'.entries) := by
  rw [lookup] at h
  split at h
  · cases h
  · rename_i r hscan
    cases h
    exact hscan

theorem dirtyPage_of_lookup {p : Nat} (hp : t.DirtyPage p) : t'.DirtyPage p := by
  obtain ⟨x, hx, rfl, hflag⟩ := hp
  obtain ⟨x', hx', hpage, hflag'⟩ := scan_dirty (scan_of_lookup h) hx hflag
  exact ⟨x', hx', by rw [hpage], hflag'⟩

theorem dirtyPage_of_dirty_lookup (hdirty : dirty ≠ 0) : t'.DirtyPage i.toNat := by
  obtain ⟨x', hx', hpage, hflag⟩ := scan_marks (scan_of_lookup h) hdirty
  exact ⟨x', hx', by rw [hpage], hflag⟩

end Lookup

theorem mem_push {t : Tlb} {e x : TlbEntry} :
    x ∈ (t.push e).entries ↔ x = e ∨ x ∈ t.entries.dropLast := List.mem_cons

/-- An entry survives a miss or it is the last one. -/
theorem mem_push_or_last {t : Tlb} {e x : TlbEntry} (hx : x ∈ t.entries) :
    x ∈ (t.push e).entries ∨ x = t.last := by
  rcases Lib.Fifo.mem_dropLast_or_eq_getLast t.entries_ne_nil hx with hmem | hlast
  · exact .inl (mem_push.mpr (.inr hmem))
  · exact .inr hlast

end Tlb

/-! ## The store's contract -/

/-- What a store keeps of its pages. -/
structure StorageCache (σ : Type) where
  /-- The store knows that its TLB has these pages. -/
  knows : List Unsigned → σ → Prop
  /-- The frame that holds a page. -/
  resident : σ → Nat → Option Nat
  /-- The number of frames. -/
  frames : Nat
  /-- The bytes outside the frames, by storage address. -/
  stored : σ → Uintptr → Byte
  /-- The store has been told that the page is dirty, since it was fetched. -/
  knownDirty : σ → Nat → Prop
  /-- What the other stores have outside their frames. -/
  elsewhere : σ → Memory

/-- The pages that a fetch of the page of `u` spares while the TLB has the pages `T`. -/
def Spared (g : StoreGeometry) (T : List Unsigned) (u : Uintptr) (p : Nat) : Prop :=
  p ∈ T.map BitVec.toNat ∨ p = g.page u

/-- The drop notification of the entry `e`, made at a miss on `u`, tells that page `p` is dirty. -/
structure Told (st : LStore σ) (g : StoreGeometry) (u : Uintptr) (e : TlbEntry) (p : Nat) : Prop where
  notified : 0 ≤ e.bsPageIndex.toInt
  dirty : e.isDirty ≠ 0
  page : p = g.page (removedBsPage st u e)

namespace StorageCache

variable (c : StorageCache σ) (g : StoreGeometry)

/-- Where the byte of a storage address is in memory, if its page is resident. -/
def place (st : σ) (u : Uintptr) : Option Uintptr :=
  (c.resident st (g.page u)).map fun f => g.frameAddress f (g.inPage u)

/-- The storage, as accesses see it. -/
def contents (m : Machine σ) : Memory := Lib.read (c.place g m.store) (c.stored m.store) m.mem

/-- The page would survive an eviction: the store knows that it is dirty, or it is stored as it
is. -/
def Saved (m : Machine σ) (p : Nat) : Prop :=
  c.knownDirty m.store p ∨ ∀ u, g.page u = p → c.contents g m u = c.stored m.store u

/-- The addresses of the frames. -/
def InCache (a : Uintptr) : Prop :=
  ∃ f o, f < c.frames ∧ o < g.pageSize ∧ a = g.frameAddress f o

/-- The page handler has fetched the page of `u` and may have evicted others: it has spared the
pages `T` of the TLB, and written back the pages known to be dirty. -/
structure HandlerKeeps (T : List Unsigned) (u : Uintptr) (m m' : Machine σ) : Prop where
  saved : ∀ p, c.Saved g m p → c.Saved g m' p
  contents : ∀ x, c.Saved g m (g.page x) ∨ Spared g T u (g.page x) →
    c.contents g m' x = c.contents g m x
  resident : ∀ p f, Spared g T u p → c.resident m.store p = some f → c.resident m'.store p = some f
  outside : ∀ a, ¬ c.InCache g a → m'.mem a = m.mem a
  elsewhere : c.elsewhere m'.store = c.elsewhere m.store

/-- The notifications of a miss on `u` that drops the entry `e` have moved no bytes. -/
structure NotifyKeeps (st : LStore σ) (u : Uintptr) (e : TlbEntry) (m m' : Machine σ) : Prop where
  mem : m'.mem = m.mem
  resident : c.resident m'.store = c.resident m.store
  stored : c.stored m'.store = c.stored m.store
  elsewhere : c.elsewhere m'.store = c.elsewhere m.store
  knownDirty : ∀ p, c.knownDirty m'.store p ↔ c.knownDirty m.store p ∨ Told st g u e p

/-- The callbacks of a store with `pages` pages keep its storage in the cache `c`. -/
structure Keeps (st : LStore σ) (pages : Nat) : Prop where
  frames_le : c.frames ≤ 2 ^ 16
  resident_lt : ∀ {T s p f}, c.knows T s → c.resident s p = some f → f < c.frames
  resident_inj : ∀ {T s p q f}, c.knows T s → c.resident s p = some f → c.resident s q = some f →
    p = q
  handler : ∀ {T u m}, c.knows T m.store → g.page u < pages → g.index u ∉ T → ∃ f m',
    st.mpfHandlerC u m = .ok (g.frameAddress f (g.inPage u)) m' ∧
      c.resident m'.store (g.page u) = some f ∧ c.knows T m'.store ∧ c.HandlerKeeps g T u m m'
  notified : ∀ {T u e m}, c.knows T m.store → T.getLast? = some e.bsPageIndex → ∃ m₁ m₂,
    DropStep st u e m m₁ ∧ st.notifyTlbCached u m₁ = .ok () m₂ ∧
      c.knows (g.index u :: T.dropLast) m₂.store ∧ c.NotifyKeeps g st u e m m₂

variable {c g}

/-- The contents are what resident pages, stored bytes and memory make them. -/
theorem contents_congr {m m' : Machine σ} (hresident : c.resident m'.store = c.resident m.store)
    (hstored : c.stored m'.store = c.stored m.store) (hmem : m'.mem = m.mem) :
    c.contents g m' = c.contents g m := by
  unfold contents place
  rw [hresident, hstored, hmem]

theorem contents_of_resident {m : Machine σ} {u : Uintptr} {f : Nat}
    (h : c.resident m.store (g.page u) = some f) :
    c.contents g m u = m.mem (g.frameAddress f (g.inPage u)) := by
  have hplace : c.place g m.store u = some (g.frameAddress f (g.inPage u)) := by
    rw [place, h, Option.map_some]
  exact Lib.read_of_place hplace

theorem contents_of_absent {m : Machine σ} {u : Uintptr}
    (h : c.resident m.store (g.page u) = none) : c.contents g m u = c.stored m.store u := by
  have hplace : c.place g m.store u = none := by
    rw [place, h, Option.map_none]
  unfold contents Lib.read
  rw [hplace]

/-- Notifications after the handler's call do not touch the bytes. -/
theorem HandlerKeeps.notified {T : List Unsigned} {u : Uintptr} {st : LStore σ} {e : TlbEntry}
    {m m₁ m₂ : Machine σ} (h : c.HandlerKeeps g T u m m₁) (h' : c.NotifyKeeps g st u e m₁ m₂) :
    c.HandlerKeeps g T u m m₂ := by
  have hcontents := contents_congr (g := g) h'.resident h'.stored h'.mem
  refine ⟨?_, ?_, ?_, ?_, h'.elsewhere.trans h.elsewhere⟩
  · intro p hp
    refine (h.saved p hp).imp (fun hknown => (h'.knownDirty p).mpr (.inl hknown)) fun hsame x hx => ?_
    rw [hcontents, h'.stored, hsame x hx]
  · intro x hx
    rw [hcontents, h.contents x hx]
  · intro p f hp hf
    rw [h'.resident]
    exact h.resident p f hp hf
  · intro a ha
    rw [h'.mem, h.outside a ha]

end StorageCache

/-! ## Pages that are not lost -/

variable {c : StorageCache σ} {g : StoreGeometry}

/-- The notes of a TLB after accesses to the pages `as` with their dirty flags. -/
def noteAll (ns : PageNotes) (as : List (Unsigned × Byte)) : PageNotes :=
  as.foldl (fun ns a => Lib.Fifo.note ns a.1 a.2) ns

/-- The access `a` drops no page from a TLB with the notes `ns`, or one without a nonzero flag, or
one whose drop notification reaches it: its index is not above that of the accessed page. -/
def DirtyReaches (ns : PageNotes) (a : Unsigned × Byte) : Prop :=
  ∀ n, Lib.Fifo.dropped ns a.1 = some n →
    n.1 = emptyIndex ∨ (∀ d ∈ n.2, d = 0) ∨ n.1.toNat ≤ a.1.toNat

/-- All accesses of a sequence do so. -/
def AllReach (ns : PageNotes) (as : List (Unsigned × Byte)) : Prop :=
  Lib.Run.Followed (fun ns a => Lib.Fifo.note ns a.1 a.2) DirtyReaches ns as

instance (ns : PageNotes) (a : Unsigned × Byte) : Decidable (DirtyReaches ns a) :=
  decidable_of_iff (∀ n ∈ Lib.Fifo.dropped ns a.1,
    n.1 = emptyIndex ∨ n.2.all (· == 0) = true ∨ n.1.toNat ≤ a.1.toNat) (by simp [DirtyReaches])

/-- A TLB with the notes `ns` that the store knows: its entries are pages with the frames that hold
them. -/
structure TlbMapped (c : StorageCache σ) (ns : PageNotes) (w : World σ) : Prop where
  knows : c.knows (w.tlb .gtTLB).pages w.store
  noted : DirtyNoted ns w
  mapped : ∀ mapping ∈ (w.tlb .gtTLB).mappings, mapping.1 = emptyIndex ∨
    c.resident w.store mapping.1.toNat = some mapping.2.toNat

/-- No page is lost: one that an eviction would lose has a dirty entry. -/
structure Synced (c : StorageCache σ) (g : StoreGeometry) (pages : Nat) (ns : PageNotes)
    (w : World σ) : Prop extends TlbMapped c ns w where
  kept : ∀ p < pages, c.Saved g w.toMachine p ∨ (w.tlb .gtTLB).DirtyPage p

/-! ## A passage through the TLB -/

/-- What a passage through the TLB on `u` keeps. -/
structure LinkKeeps (c : StorageCache σ) (g : StoreGeometry) (pages : Nat) (ns : PageNotes)
    (u : Uintptr) (dirty : Byte) (w w' : World σ) : Prop where
  mapped : TlbMapped c (Lib.Fifo.note ns (g.index u) dirty) w'
  saved : ∀ p, c.Saved g w.toMachine p → c.Saved g w'.toMachine p
  contents : ∀ x, c.Saved g w.toMachine (g.page x) ∨ (w.tlb .gtTLB).HasPage (g.page x) ∨
    g.page x = g.page u → c.contents g w'.toMachine x = c.contents g w.toMachine x
  outside : ∀ a, ¬ c.InCache g a → w'.mem a = w.mem a
  elsewhere : c.elsewhere w'.store = c.elsewhere w.store
  resident : ∀ p f, (w.tlb .gtTLB).HasPage p → c.resident w.store p = some f →
    c.resident w'.store p = some f
  marked : DirtyReaches ns (g.index u, dirty) → ∀ p < pages, (w.tlb .gtTLB).DirtyPage p →
    (w'.tlb .gtTLB).DirtyPage p ∨ c.knownDirty w'.store p
  hasPage : (w'.tlb .gtTLB).HasPage (g.page u)
  dirty : dirty ≠ 0 → (w'.tlb .gtTLB).DirtyPage (g.page u)
  crosspage : w'.gtCrosspageAccess = w.gtCrosspageAccess ∧
    w'.gtCrosspageAccessSize = w.gtCrosspageAccessSize

/-- The page has a dirty entry, or since `w` a drop notification with a nonzero flag has reached
it. -/
def DirtyReported (g : StoreGeometry) (s : StoreId) (p : Nat) (w w' : World σ) : Prop :=
  (w'.tlb .gtTLB).DirtyPage p ∨ ∃ es ptr e, w'.trace = es ++ w.trace ∧
    Event.notifyTlbDropped s ptr true e ∈ es ∧ g.page ptr = p

section Access

variable {env : Env σ} {s : StoreId} (hstore : CachedStore env s g) {pages : Nat}
  (hpages : pages ≤ 2 ^ 31) {u : Uintptr} (hpage : g.page u < pages) {ns : PageNotes} {w : World σ}

section Miss

variable {dirty : Byte} (hnoted : DirtyNoted ns w)
  (hlookup : (w.tlb .gtTLB).lookup (g.index u) dirty = none)
  (hreach : DirtyReaches ns (g.index u, dirty))
include hstore hpages hpage hnoted hlookup hreach

/-- At a miss the page of the last entry is told to be dirty if the entry is. -/
theorem told_last {p : Nat} (hp : p < 2 ^ 31) (hlast : (w.tlb .gtTLB).last.bsPageIndex.toNat = p)
    (hflag : (w.tlb .gtTLB).last.isDirty ≠ 0) :
    Told (env.stores s) g u (w.tlb .gtTLB).last p := by
  have hu : g.page u < 2 ^ 32 - 1 := by omega
  have hmiss : g.index u ∉ ns.map Prod.fst := by
    rw [← hnoted.pages]
    exact Tlb.lookup_eq_none_iff.mp hlookup
  obtain ⟨n, hn, hlastNote⟩ := forall₂_getLast? hnoted.notes
    (List.getLast?_eq_some_getLast (w.tlb .gtTLB).entries_ne_nil)
  change (w.tlb .gtTLB).last.Notes n at hlastNote
  have hne : n.1 ≠ emptyIndex := by
    rw [← hlastNote.page]
    exact ne_emptyIndex_of_lt (by omega)
  have hle : p ≤ g.page u := by
    rcases hreach n ((if_neg hmiss).trans hn) with hempty | hclean | hle
    · exact absurd hempty hne
    · obtain ⟨d, hd, hdirty⟩ := (hlastNote.dirty.resolve_left hne).mp hflag
      exact absurd (hclean d hd) hdirty
    · rw [← hlastNote.page, hlast] at hle
      rwa [StoreGeometry.toNat_index hu] at hle
  refine ⟨?_, hflag, ?_⟩
  · rw [BitVec.toInt_eq_toNat_of_lt (by omega)]
    omega
  · rw [page_removedBsPage_of_le hstore.geometry (by omega) (by omega), hlast]

/-- A dirty entry stays in the TLB when the entry `e` comes in, or the store is told of its page. -/
theorem dirtyPage_push_or_told {m m' : Machine σ} {p : Nat} (hp : p < 2 ^ 31)
    (hnotify : c.NotifyKeeps g (env.stores s) u (w.tlb .gtTLB).last m m') (e : TlbEntry)
    (hdirty : (w.tlb .gtTLB).DirtyPage p) :
    ((w.tlb .gtTLB).push e).DirtyPage p ∨ c.knownDirty m'.store p := by
  obtain ⟨d, hd, hpd, hflag⟩ := hdirty
  rcases Tlb.mem_push_or_last hd with hmem | rfl
  · exact .inl ⟨d, hmem, hpd, hflag⟩
  · have htold := told_last hstore hpages hpage hnoted hlookup hreach hp hpd hflag
    exact .inr ((hnotify.knownDirty p).mpr (.inr htold))

end Miss

variable (hcache : c.Keeps g (env.stores s) pages) (hbits : g.pageBits < 31)
  (hinv : TlbMapped c ns w) {ptrSize : Int} (hnonneg : 0 ≤ ptrSize)
  (hin : g.inPage u + ptrSize ≤ g.pageSize) (dirty : Byte)

include hstore in
/-- The notes after a passage through the TLB on `u`. -/
theorem LinkStep.noted_index {dirty : Byte} {a : Uintptr} {w' : World σ}
    (h : LinkStep env s u ptrSize dirty w a w') (hu : g.page u < 2 ^ 31) (hnoted : DirtyNoted ns w) :
    DirtyNoted (Lib.Fifo.note ns (g.index u) dirty) w' := by
  obtain ⟨hnoted', -⟩ := h.noted hstore hu hnoted
  rwa [bsPageIndex_eq_index hstore.geometry] at hnoted'

include hnonneg hin hbits hstore hpages hpage hinv

/-- A hit finds the page in its frame, and moves no byte. -/
theorem exists_linkKeeps_of_hit {entry : TlbEntry} {tlb' : Tlb}
    (hlookup : (w.tlb .gtTLB).lookup (g.index u) dirty = some (entry, tlb')) :
    ∃ f w', LinkStep env s u ptrSize dirty w (g.frameAddress f (g.inPage u)) w' ∧
      c.resident w'.store (g.page u) = some f ∧ LinkKeeps c g pages ns u dirty w w' := by
  have hps : g.pageSize ≤ 2 ^ 30 := Nat.pow_le_pow_right (by decide) (by omega)
  have hu : (g.index u).toNat = g.page u := StoreGeometry.toNat_index (by omega)
  obtain ⟨hmem, hentry, hmappings⟩ := Tlb.lookup_eq_some hlookup
  have htlbPages := Tlb.pages_of_lookup hlookup
  have hresident : c.resident w.store (g.page u) = some entry.epcPageIndex.toNat := by
    rcases hinv.mapped _ (Tlb.mapping_mem hmem) with hempty | hresident
    · exact absurd (hentry.symm.trans hempty) (StoreGeometry.index_ne_emptyIndex (by omega))
    · rwa [hentry, hu] at hresident
  have hstep : LinkStep env s u ptrSize dirty w (hitAddress (env.stores s) u entry) _ :=
    .hit (by rw [hstore.tlb, bsPageIndex_eq_index hstore.geometry]; exact hlookup)
      (hit_assert hstore.geometry hbits hnonneg hin)
  have hnoted := hstep.noted_index hstore (by omega) hinv.noted
  rw [hitAddress_eq hstore.geometry (by omega)] at hstep
  generalize hw' : (w.withTlb (env.stores s).lstoreGetTlb tlb').log (.tlbHit s entry) = w' at *
  have htlb' : w'.tlb .gtTLB = tlb' := by
    rw [← hw', World.log_tlb, hstore.tlb, World.withTlb_tlb_self]
  have hmachine : w'.toMachine = w.toMachine := by rw [← hw']; rfl
  have hmarked : ∀ p, (w.tlb .gtTLB).DirtyPage p → (w'.tlb .gtTLB).DirtyPage p := by
    intro p hp
    rw [htlb']
    exact Tlb.dirtyPage_of_lookup hlookup hp
  have hstoreEq : w'.store = w.store := congrArg Machine.store hmachine
  refine ⟨_, w', hstep, ?_, ⟨⟨?_, hnoted, ?_⟩, ?_, ?_, ?_, ?_, ?_, ?_, ?_, ?_, ?_⟩⟩
  · rw [hstoreEq, hresident]
  · rw [htlb', htlbPages, hstoreEq]
    exact hinv.knows
  · rw [htlb', hmappings, hstoreEq]
    exact hinv.mapped
  · intro p hp
    rwa [hmachine]
  · intro x _
    rw [hmachine]
  · intro a _
    rw [show w'.mem = w.mem from congrArg Machine.mem hmachine]
  · rw [hstoreEq]
  · intro p f _ hf
    rwa [hstoreEq]
  · exact fun _ p _ hp => .inl (hmarked p hp)
  · rw [htlb', Tlb.hasPage_iff, htlbPages]
    exact ⟨_, Tlb.page_mem hmem, by rw [hentry, hu]⟩
  · intro hdirty
    rw [htlb', ← hu]
    exact Tlb.dirtyPage_of_dirty_lookup hlookup hdirty
  · rw [← hw']
    exact ⟨rfl, rfl⟩

omit hnonneg hin hpages hpage in
/-- The entries after a miss map the frames that hold their pages: those that stay were spared. -/
theorem TlbMapped.mapped_push {m : Machine σ} {f : Nat}
    (hkeeps : c.HandlerKeeps g (w.tlb .gtTLB).pages u w.toMachine m) (hu : g.page u < 2 ^ 31)
    (hf : f < 2 ^ 16) (hresident : c.resident m.store (g.page u) = some f) :
    ∀ mapping ∈ ((w.tlb .gtTLB).push (missEntry (env.stores s) u (g.frameAddress f (g.inPage u))
        dirty)).mappings, mapping.1 = emptyIndex ∨
      c.resident m.store mapping.1.toNat = some mapping.2.toNat := by
  have hps : g.pageSize ≤ 2 ^ 30 := Nat.pow_le_pow_right (by decide) (by omega)
  intro mapping hmapping
  rw [Tlb.mappings_push] at hmapping
  rcases List.mem_cons.mp hmapping with rfl | hold
  · right
    show c.resident m.store (bsPageIndex (env.stores s) u).toNat = _
    rw [bsPageIndex_eq_index hstore.geometry, StoreGeometry.toNat_index (by omega), hresident,
      missEntry_epcPageIndex hstore.geometry hf (g.inPage_lt u) (by omega)]
  · have hmem := (List.dropLast_sublist _).mem hold
    refine (hinv.mapped _ hmem).imp_right fun hframe => hkeeps.resident _ _ (.inl ?_) hframe
    exact List.mem_map_of_mem (Tlb.mem_pages_iff.mpr ⟨_, hmem⟩)

include hcache

/-- A miss brings the page into a frame and moves no page of the TLB. What the drop notification
tells saves the page of the last entry. -/
theorem exists_linkKeeps_of_miss
    (hlookup : (w.tlb .gtTLB).lookup (g.index u) dirty = none) :
    ∃ f w', LinkStep env s u ptrSize dirty w (g.frameAddress f (g.inPage u)) w' ∧
      c.resident w'.store (g.page u) = some f ∧ LinkKeeps c g pages ns u dirty w w' := by
  have hps : g.pageSize ≤ 2 ^ 30 := Nat.pow_le_pow_right (by decide) (by omega)
  have hlt := g.inPage_lt u
  have hu : (g.index u).toNat = g.page u := StoreGeometry.toNat_index (by omega)
  obtain ⟨f, m₁, hhandler, hresident₁, hknows₁, hkeeps₁⟩ := hcache.handler (m := w.toMachine)
    hinv.knows hpage (Tlb.lookup_eq_none_iff.mp hlookup)
  have hf := Nat.lt_of_lt_of_le (hcache.resident_lt hknows₁ hresident₁) hcache.frames_le
  obtain ⟨m₂, m₃, hdrop, hcached, hknows₃, hnotify⟩ :=
    hcache.notified (u := u) hknows₁ (Tlb.pages_getLast? _)
  have hkeeps := hkeeps₁.notified hnotify
  have hresident : c.resident m₃.store (g.page u) = some f := by rw [hnotify.resident, hresident₁]
  have hstep : LinkStep env s u ptrSize dirty w (g.frameAddress f (g.inPage u)) _ :=
    .miss (by rw [hstore.tlb, bsPageIndex_eq_index hstore.geometry]; exact hlookup) hhandler
      (by rw [hstore.tlb]; exact hdrop) hcached
      (miss_assert hstore.geometry hbits hnonneg hlt hin)
  have hnoted := hstep.noted_index hstore (by omega) hinv.noted
  have htlb' := w.afterMiss_tlb_self (env.stores s) s u (g.frameAddress f (g.inPage u)) dirty m₃
  rw [hstore.tlb] at htlb'
  generalize hw' : w.afterMiss (env.stores s) s u (g.frameAddress f (g.inPage u)) dirty m₃ = w' at *
  have hmachine : w'.toMachine = m₃ := by rw [← hw']; rfl
  have hstoreEq : w'.store = m₃.store := congrArg Machine.store hmachine
  have hspared : ∀ p, (w.tlb .gtTLB).HasPage p → Spared g (w.tlb .gtTLB).pages u p := by
    intro p hp
    obtain ⟨i, hi, rfl⟩ := Tlb.hasPage_iff.mp hp
    exact .inl (List.mem_map_of_mem hi)
  have hentry : (w'.tlb .gtTLB).HasPage (g.page u) := by
    rw [htlb']
    refine ⟨_, Tlb.mem_push.mpr (.inl rfl), ?_⟩
    show (bsPageIndex (env.stores s) u).toNat = _
    rw [bsPageIndex_eq_index hstore.geometry, hu]
  refine ⟨f, w', hstep, ?_, ⟨⟨?_, hnoted, ?_⟩, ?_, ?_, ?_, ?_, ?_, ?_, hentry, ?_, ?_⟩⟩
  · rw [hstoreEq, hresident]
  · rw [htlb', Tlb.pages_push, hstoreEq]
    show c.knows (bsPageIndex (env.stores s) u :: _) m₃.store
    rw [bsPageIndex_eq_index hstore.geometry]
    exact hknows₃
  · rw [htlb', hstoreEq]
    exact hinv.mapped_push hstore hbits dirty hkeeps (by omega) hf hresident
  · intro p hp
    rw [hmachine]
    exact hkeeps.saved p hp
  · intro x hx
    rw [hmachine]
    exact hkeeps.contents x (hx.imp_right fun h => h.elim (hspared _) .inr)
  · intro a ha
    rw [show w'.mem = m₃.mem from congrArg Machine.mem hmachine, hkeeps.outside a ha]
  · rw [hstoreEq, hkeeps.elsewhere]
  · intro p f' hp hf'
    rw [hstoreEq]
    exact hkeeps.resident p f' (hspared p hp) hf'
  · intro hreach p hp hmarked
    rw [htlb', hstoreEq]
    exact dirtyPage_push_or_told hstore hpages hpage hinv.noted hlookup hreach (by omega) hnotify _
      hmarked
  · intro hdirty
    rw [htlb']
    refine ⟨_, Tlb.mem_push.mpr (.inl rfl), ?_, hdirty⟩
    show (bsPageIndex (env.stores s) u).toNat = _
    rw [bsPageIndex_eq_index hstore.geometry, hu]
  · rw [← hw']
    exact ⟨rfl, rfl⟩

/-- A passage through the TLB gives the address in the frame of the page. -/
theorem exists_linkKeeps :
    ∃ f w', LinkStep env s u ptrSize dirty w (g.frameAddress f (g.inPage u)) w' ∧
      c.resident w'.store (g.page u) = some f ∧ LinkKeeps c g pages ns u dirty w w' := by
  cases hlookup : (w.tlb .gtTLB).lookup (g.index u) dirty with
  | some found =>
    exact exists_linkKeeps_of_hit hstore hpages hpage hbits hinv hnonneg hin dirty hlookup
  | none =>
    exact exists_linkKeeps_of_miss hstore hpages hpage hcache hbits hinv hnonneg hin dirty
      hlookup

omit hnonneg hin hbits hpage hinv hcache in
/-- A page with a dirty entry keeps it, or a drop notification with a nonzero flag reaches the
page. -/
theorem LinkStep.dirtyReported {dirty : Byte} {a : Uintptr} {w' : World σ}
    (h : LinkStep env s u ptrSize dirty w a w') {p : Nat} (hpage : g.page u < pages)
    (hp : p ≤ g.page u) (hdirty : (w.tlb .gtTLB).DirtyPage p) : DirtyReported g s p w w' := by
  cases h with
  | @hit entry tlb' hlookup hsize =>
    left
    rw [hstore.tlb] at hlookup
    rw [World.log_tlb, hstore.tlb, World.withTlb_tlb_self]
    exact Tlb.dirtyPage_of_lookup hlookup hdirty
  | @miss _ m₁ m₂ m₃ hlookup hhandler hdrop hcached hsize =>
    have htlb' := w.afterMiss_tlb_self (env.stores s) s u a dirty m₃
    rw [hstore.tlb] at htlb'
    obtain ⟨e, he, rfl, hflag⟩ := hdirty
    rcases Tlb.mem_push_or_last he with hmem | rfl
    · left
      rw [htlb']
      exact ⟨e, hmem, rfl, hflag⟩
    · right
      have hpos : 0 ≤ (w.tlb .gtTLB).last.bsPageIndex.toInt := by
        rw [BitVec.toInt_eq_toNat_of_lt (by omega)]
        omega
      refine ⟨.notifyTlbCached s u :: (dropEvents (env.stores s) s u (w.tlb .gtTLB).last ++
        [.mpfHandlerC s u a]), _, (w.tlb .gtTLB).last, ?_, ?_,
        page_removedBsPage_of_le hstore.geometry (show g.page u < 2 ^ 32 by omega) hp⟩
      · simp [World.afterMiss, hstore.tlb]
      · rw [dropEvents, if_pos hpos, decide_eq_true hflag]
        simp

end Access

section Kept

variable {pages : Nat} {ns : PageNotes} {w w' : World σ} {u : Uintptr} {dirty : Byte}
  (h : LinkKeeps c g pages ns u dirty w w') (hinv : Synced c g pages ns w)
include h hinv

/-- It keeps the contents of all pages. -/
theorem LinkKeeps.contents_eq {x : Uintptr} (hx : g.page x < pages) :
    c.contents g w'.toMachine x = c.contents g w.toMachine x :=
  h.contents x ((hinv.kept _ hx).imp_right fun hdirty => .inl hdirty.hasPage)

/-- It loses no page if the drop of a dirty entry reaches its page. -/
theorem LinkKeeps.synced (hreach : DirtyReaches ns (g.index u, dirty)) :
    Synced c g pages (Lib.Fifo.note ns (g.index u) dirty) w' := by
  refine ⟨h.mapped, ?_⟩
  intro p hp
  rcases hinv.kept p hp with hsaved | hdirty
  · exact .inl (h.saved p hsaved)
  · rcases h.marked hreach p hp hdirty with hdirty' | hknown
    · exact .inr hdirty'
    · exact .inl (.inl hknown)

end Kept

/-! ## Frames as memory -/

namespace StoreGeometry

variable (g : StoreGeometry)

/-- Storage addresses are determined by their page and their offset in it. -/
theorem eq_of_page_inPage {x y : Uintptr} (hpage : g.page x = g.page y)
    (hin : g.inPage x = g.inPage y) : x = y := by
  have hoff : g.offset x = g.offset y := by rw [g.offset_eq x, g.offset_eq y, hpage, hin]
  have hsub : x - g.storageBase = y - g.storageBase := BitVec.eq_of_toNat_eq hoff
  rw [← BitVec.sub_add_cancel x g.storageBase, hsub, BitVec.sub_add_cancel]

end StoreGeometry

section Frame

variable {st : LStore σ} {pages : Nat} (hcache : c.Keeps g st pages) (hbits : g.pageBits < 31)
  {T : List Unsigned} {m : Machine σ} (hknows : c.knows T m.store)
include hcache hbits hknows

/-- Bytes that are copied into a frame are copied into the storage. -/
theorem contents_transfer {x : Uintptr} {f k : Nat} (hresident : c.resident m.store (g.page x) = some f)
    (hin : g.inPage x + k ≤ g.pageSize) (source : Memory) (src : Uintptr) :
    c.contents g ⟨transfer m.mem (g.frameAddress f (g.inPage x)) source src k, m.store⟩ =
      transfer (c.contents g m) x source src k := by
  have hf := Nat.lt_of_lt_of_le (hcache.resident_lt hknows hresident) hcache.frames_le
  have hk : k < 2 ^ 64 := by
    have hlt := g.pageSize_lt
    omega
  funext a
  by_cases hj : (a - x).toNat < k
  · -- the byte is in the range
    obtain ⟨j, hjk, rfl⟩ : ∃ j < k, cells x j = a := ⟨_, hj, cells_toNat_sub x a⟩
    have hpage : g.page (cells x j) = g.page x := g.page_add (by omega)
    have hinPage : g.inPage (cells x j) = g.inPage x + j := g.inPage_add (by omega)
    have hread := StorageCache.contents_of_resident (c := c)
      (m := ⟨transfer m.mem (g.frameAddress f (g.inPage x)) source src k, m.store⟩)
      (u := cells x j) (by rw [hpage]; exact hresident)
    rw [hread, hinPage, g.frameAddress_add, transfer_cells_of_lt _ _ _ _ hjk (by omega)]
    exact transfer_cells_of_lt _ _ _ _ hjk (by omega)
  · rw [transfer, if_neg hj]
    cases hpage : c.resident m.store (g.page a) with
    | none =>
      have hread := StorageCache.contents_of_absent (c := c)
        (m := ⟨transfer m.mem (g.frameAddress f (g.inPage x)) source src k, m.store⟩) hpage
      rw [hread, StorageCache.contents_of_absent hpage]
    | some f' =>
      have hread := StorageCache.contents_of_resident (c := c)
        (m := ⟨transfer m.mem (g.frameAddress f (g.inPage x)) source src k, m.store⟩) hpage
      rw [hread, StorageCache.contents_of_resident hpage]
      have hf' := Nat.lt_of_lt_of_le (hcache.resident_lt hknows hpage) hcache.frames_le
      have hout : ¬ (g.frameAddress f' (g.inPage a) - g.frameAddress f (g.inPage x)).toNat < k := by
        intro hlt
        have heq := cells_toNat_sub (g.frameAddress f (g.inPage x)) (g.frameAddress f' (g.inPage a))
        generalize (g.frameAddress f' (g.inPage a) - g.frameAddress f (g.inPage x)).toNat = j at *
        unfold cells at heq
        rw [← g.frameAddress_add] at heq
        obtain ⟨rfl, hoff⟩ := g.frameAddress_inj hbits hf hf' (by omega) (g.inPage_lt a) heq
        have hsame : a = cells x j := by
          apply g.eq_of_page_inPage
          · rw [← hcache.resident_inj hknows hresident hpage]
            exact (g.page_add (by omega)).symm
          · rw [← hoff]
            exact (g.inPage_add (by omega)).symm
        apply hj
        rw [hsame, toNat_cells_sub x (by omega)]
        exact hlt
      simp only [transfer, if_neg hout]

omit hbits in
/-- Memory outside the frames is not part of the storage. -/
theorem contents_of_outside {mem : Memory} (h : ∀ a, c.InCache g a → mem a = m.mem a) :
    c.contents g ⟨mem, m.store⟩ = c.contents g m := by
  funext a
  cases hpage : c.resident m.store (g.page a) with
  | none =>
    have hread := StorageCache.contents_of_absent (c := c) (m := ⟨mem, m.store⟩) hpage
    rw [hread, StorageCache.contents_of_absent hpage]
  | some f =>
    have hread := StorageCache.contents_of_resident (c := c) (m := ⟨mem, m.store⟩) hpage
    rw [hread, StorageCache.contents_of_resident hpage]
    exact h _ ⟨f, g.inPage a, hcache.resident_lt hknows hpage, g.inPage_lt a, rfl⟩

end Frame

/-! ## Writes of the program -/

/-- The store, or the TLB, holds the page whatever is written to its frame. -/
def Writable (c : StorageCache σ) (w : World σ) (p : Nat) : Prop :=
  c.knownDirty w.store p ∨ (w.tlb .gtTLB).DirtyPage p

section Synced

variable {pages : Nat} {ns : PageNotes} {w : World σ} (h : Synced c g pages ns w)

/-- The TLB and the store are as they were. -/
theorem TlbMapped.congr {w' : World σ} (h : TlbMapped c ns w) (htlb : w'.tlb .gtTLB = w.tlb .gtTLB)
    (hstore : w'.store = w.store) : TlbMapped c ns w' := by
  refine ⟨?_, ⟨h.noted.distinct, h.noted.small, ?_⟩, ?_⟩
  · rw [htlb, hstore]
    exact h.knows
  · rw [htlb]
    exact h.noted.notes
  · rw [htlb, hstore]
    exact h.mapped

include h

theorem Synced.log (e : Event σ) : Synced c g pages ns (w.log e) :=
  ⟨h.toTlbMapped.congr rfl rfl, h.kept⟩

theorem Synced.withCrosspage (p : Uintptr) (n : Int) :
    Synced c g pages ns (w.withCrosspage p n) :=
  ⟨h.toTlbMapped.congr rfl rfl, h.kept⟩

/-- Changes of memory are safe where pages keep their contents or are writable. -/
theorem Synced.withMem {mem : Memory}
    (hmem : ∀ p < pages, Writable c w p ∨ ∀ u, g.page u = p →
      c.contents g (w.withMem mem).toMachine u = c.contents g w.toMachine u) :
    Synced c g pages ns (w.withMem mem) := by
  refine ⟨h.toTlbMapped.congr rfl rfl, ?_⟩
  intro p hp
  rcases hmem p hp with (hknown | hdirty) | hsame
  · exact .inl (.inl hknown)
  · exact .inr hdirty
  · refine (h.kept p hp).imp_left fun hsaved => hsaved.imp_right fun hstored u hu => ?_
    rw [hsame u hu]
    exact hstored u hu

end Synced

end Carmor
