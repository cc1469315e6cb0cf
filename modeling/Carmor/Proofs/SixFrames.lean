import Carmor.Proofs.BulkResidency
import Carmor.Proofs.FrameMap

/-!
# Stores with six frames each

`SixFrames` is the state of stores that have one frame more than their TLB has entries. They know
the TLBs, which they may share, and they number their frames apart. They are the stores that show
when `__carmor_mem_wrapper` uses a wrong frame: an entry of another store has the number of a frame
of that store, and a page that is out of the TLB loses its frame to the next page but one.
-/

namespace Carmor

namespace FrameMap

/-- The frames of a store that has the page `slots[f]` in frame `f`. -/
def ofSlots (slots : List (Option Nat)) : FrameMap := fun p => slots.idxOf? (some p)

variable {slots : List (Option Nat)} {p q p' f : Nat}

theorem getElem?_of_ofSlots (h : ofSlots slots p = some f) : slots[f]? = some (some p) := by
  obtain ⟨hlt, heq, -⟩ := List.idxOf?_eq_some_iff.mp h
  rw [List.getElem?_eq_getElem hlt, heq]

theorem lt_of_ofSlots (h : ofSlots slots p = some f) : f < slots.length :=
  (List.idxOf?_eq_some_iff.mp h).1

theorem ofSlots_eq_none (h : some p ∉ slots) : ofSlots slots p = none :=
  List.idxOf?_eq_none_iff.mpr h

theorem ofSlots_valid (hlength : slots.length ≤ tlbSize) : (ofSlots slots).Valid := by
  constructor
  · intro p f hp
    have hlt := lt_of_ofSlots hp
    omega
  · intro p q f hp hq
    have heq := (getElem?_of_ofSlots hp).symm.trans (getElem?_of_ofSlots hq)
    exact Option.some.inj (Option.some.inj heq)

theorem exists_ofSlots (h : some p ∈ slots) : ∃ f, ofSlots slots p = some f :=
  Option.isSome_iff_exists.mp (List.isSome_idxOf?.mpr h)

/-- The frame of a page that is not in the last slot only. -/
theorem lt_of_ofSlots_dropLast (h : some p ∈ slots.dropLast) (hf : ofSlots slots p = some f) :
    f + 1 < slots.length := by
  obtain ⟨i, hi, heq⟩ := List.mem_iff_getElem.mp h
  rw [List.getElem_dropLast] at heq
  rw [List.length_dropLast] at hi
  obtain ⟨hlt, -, hfirst⟩ := List.idxOf?_eq_some_iff.mp hf
  by_contra hle
  exact hfirst i (by omega) heq

theorem ofSlots_last (hp : some p ∈ slots) (hlast : some p ∉ slots.dropLast) :
    ofSlots slots p = some (slots.length - 1) := by
  obtain ⟨f, hf⟩ := exists_ofSlots hp
  obtain ⟨hlt, heq, -⟩ := List.idxOf?_eq_some_iff.mp hf
  have hend : f = slots.length - 1 := by
    by_contra hne
    refine hlast (List.mem_iff_getElem.mpr ⟨f, ?_, ?_⟩)
    · rw [List.length_dropLast]
      omega
    · rw [List.getElem_dropLast, heq]
  rw [hf, hend]

/-- The free frame, as the highest one. -/
theorem free_eq {m : FrameMap} {kept : List Nat} (hf : f ≤ tlbSize) (hfree : some f ∉ kept.map m)
    (habove : ∀ k, f < k → k ≤ tlbSize → some k ∈ kept.map m) : m.free kept = f := by
  refine Nat.findGreatest_eq_iff.mpr ⟨hf, fun _ => hfree, ?_⟩
  intro k hk hle hnot
  exact hnot (habove k hk hle)

/-- The page in the last slot loses its frame: the first page that is brought in goes to the frame
that is free, and the next one to the frame of the page that is out of the TLB by then. -/
theorem load_lost (hlength : slots.length = tlbSize) (hp : some p ∈ slots)
    (hlast : some p ∉ slots.dropLast) (hq : some q ∉ slots) (hp' : some p' ∉ slots.dropLast)
    (hpq : p' ≠ q) (hne : p' ≠ p) :
    (load (load (ofSlots slots) slots.reduceOption q).2 (q :: slots.dropLast.reduceOption) p').2 p =
      none := by
  have hsize : tlbSize = 5 := rfl
  have hnil : slots ≠ [] := List.ne_nil_of_mem hp
  have hframe := ofSlots_last hp hlast
  have habsent : some p' ∉ slots := by
    intro hmem
    have hend := (Lib.Fifo.mem_dropLast_or_eq_getLast hnil hp).resolve_left hlast
    have hend' := (Lib.Fifo.mem_dropLast_or_eq_getLast hnil hmem).resolve_left hp'
    exact hne (Option.some.inj (hend'.trans hend.symm))
  have hqp : p ≠ q := by
    rintro rfl
    exact hq hp
  -- the first page
  have hfree : (ofSlots slots).free slots.reduceOption = tlbSize := by
    refine free_eq (Nat.le_refl _) ?_ fun k hk hle => by omega
    intro hmem
    obtain ⟨x, -, hx⟩ := List.mem_map.mp hmem
    have hlt := lt_of_ofSlots hx
    omega
  rw [load_of_none (ofSlots_eq_none hq), hfree]
  simp only
  have hmoved : (ofSlots slots).moved q tlbSize p = some 4 := by
    rw [moved_other hqp (by rw [hframe]; simp [hlength, hsize]), hframe, hlength]
    rfl
  -- the second page
  have hnone : (ofSlots slots).moved q tlbSize p' = none := by
    have hout := ofSlots_eq_none habsent
    rw [moved_other hpq (by rw [hout]; simp), hout]
  have hfree' : ((ofSlots slots).moved q tlbSize).free (q :: slots.dropLast.reduceOption) = 4 := by
    refine free_eq (by decide) ?_ fun k hk hle => ?_
    · intro hmem
      obtain ⟨x, hx, heq⟩ := List.mem_map.mp hmem
      rcases List.mem_cons.mp hx with rfl | hx
      · rw [moved_self] at heq
        cases heq
      · have hdrop := List.reduceOption_mem_iff.mp hx
        have hxq : x ≠ q := by
          rintro rfl
          exact hq ((List.dropLast_sublist slots).mem hdrop)
        obtain ⟨f, hf⟩ := exists_ofSlots ((List.dropLast_sublist slots).mem hdrop)
        have hlt := lt_of_ofSlots_dropLast hdrop hf
        rw [moved_other hxq (by rw [hf]; simp; omega), hf] at heq
        cases heq
        omega
    · obtain rfl : k = tlbSize := by omega
      exact List.mem_map.mpr ⟨q, List.mem_cons_self, moved_self _ _ _⟩
  rw [load_of_none hnone, hfree']
  exact moved_evicted (Ne.symm hne) hmoved

end FrameMap

/-! ## The stores -/

/-- The frames of the stores, and the TLBs as the stores know them. -/
structure SixFrames where
  frame : StoreId → FrameMap
  recent : TlbOwners

namespace SixFrames

/-- The number of a frame of a store. -/
def frameNumber (s : StoreId) (f : Nat) : Nat := mstoreShift60Val s * (tlbSize + 1) + f

variable (refs : StoreId → TlbRef)

/-- Bring a page of store `s` into a frame. -/
def fetch (c : SixFrames) (s : StoreId) (p : Nat) : Nat × SixFrames :=
  let (f, m) := (c.frame s).load (c.recent.pages refs s) p
  (frameNumber s f, { c with frame := Function.update c.frame s m })

/-- The TLBs are accessed. -/
def note (c : SixFrames) (l : StoreId × Unsigned) : SixFrames :=
  { c with recent := c.recent.access refs l }

/-- The state after a page fault of store `s` at `u`. -/
def access (g : StoreGeometry) (s : StoreId) (c : SixFrames) (u : Uintptr) : SixFrames :=
  if g.index u ∈ (c.recent (refs s)).map Prod.snd then c
  else ((c.fetch refs s (g.page u)).2).note refs (s, g.index u)

/-- The state while the TLBs have the entries `T`: the page of an entry is in the frame with the
entry's number. -/
def ofOwners (T : TlbOwners) : SixFrames where
  frame s := .ofSlots (T.slots refs s)
  recent := T

/-- The state is one in which the TLBs have the entries `T`. -/
def Knows (T : TlbOwners) (c : SixFrames) : Prop :=
  c.recent = T ∧ T.Valid refs ∧ ∀ s, (c.frame s).Valid

/-- The frame numbers of different stores differ. -/
theorem frameNumber_inj {s t : StoreId} {f f' : Nat} (hf : f ≤ tlbSize) (hf' : f' ≤ tlbSize)
    (h : frameNumber s f = frameNumber t f') : s = t := by
  have hsize : tlbSize = 5 := rfl
  unfold frameNumber at h
  cases s <;> cases t <;> simp only [mstoreShift60Val] at h ⊢ <;> omega

theorem frameNumber_lt {s : StoreId} {f : Nat} (hf : f ≤ tlbSize) : frameNumber s f < 2 ^ 16 := by
  have hsize : tlbSize = 5 := rfl
  unfold frameNumber
  cases s <;> simp only [mstoreShift60Val] <;> omega

variable {refs} {T : TlbOwners} {c : SixFrames} {s : StoreId}

theorem fetch_frame_of_ne {t : StoreId} (ht : t ≠ s) (p : Nat) :
    (c.fetch refs s p).2.frame t = c.frame t := Function.update_of_ne ht _ _

theorem fetch_frame_self (p : Nat) : (c.fetch refs s p).2.frame s =
    ((c.frame s).load (c.recent.pages refs s) p).2 := Function.update_self _ _ _

/-- A page that is brought in leaves the pages of the TLB where they are. -/
theorem fetch_spec (h : c.Knows refs T) (s : StoreId) (p : Nat) :
    (∃ f ≤ tlbSize, (c.fetch refs s p).1 = frameNumber s f ∧
      (c.fetch refs s p).2.frame s p = some f) ∧ (c.fetch refs s p).2.Knows refs T ∧
      ∀ q f, q ∈ T.pages refs s ∨ q = p → c.frame s q = some f →
        (c.fetch refs s p).2.frame s q = some f := by
  obtain ⟨rfl, hT, hvalid⟩ := h
  obtain ⟨hle, hframe, hvalid', hkept⟩ :=
    FrameMap.load_spec (hvalid s) (TlbOwners.length_pages_le hT s) p
  rw [fetch_frame_self]
  refine ⟨⟨_, hle, rfl, hframe⟩, ⟨rfl, hT, fun t => ?_⟩, hkept⟩
  by_cases ht : t = s
  · rw [ht, fetch_frame_self]
    exact hvalid'
  · rw [fetch_frame_of_ne ht]
    exact hvalid t

theorem note_knows (h : c.Knows refs T) (l : StoreId × Unsigned) :
    (c.note refs l).Knows refs (T.access refs l) := by
  obtain ⟨rfl, hT, hvalid⟩ := h
  exact ⟨rfl, hT.access l, hvalid⟩

theorem ofOwners_knows (hT : T.Valid refs) : (ofOwners refs T).Knows refs T := by
  refine ⟨rfl, hT, fun s => FrameMap.ofSlots_valid (Nat.le_of_eq ?_)⟩
  rw [TlbOwners.slots, List.length_map, hT.length]

/-! ### A page that is lost -/

/-- A page in a slot has its index in the TLB. -/
theorem index_mem_of_slot {g : StoreGeometry} {u : Uintptr} {L : List (StoreId × Unsigned)}
    (hu : g.page u < 2 ^ 32 - 1) (h : some (g.page u) ∈ L.map (pageOfEntry s)) :
    g.index u ∈ L.map Prod.snd := by
  obtain ⟨e, he, hpage⟩ := List.mem_map.mp h
  unfold pageOfEntry at hpage
  split at hpage
  · refine List.mem_map.mpr ⟨e, he, BitVec.eq_of_toNat_eq ?_⟩
    rw [StoreGeometry.toNat_index hu]
    exact Option.some.inj hpage
  · cases hpage

/-- In a displaced TLB the page of `u` loses its frame to the second page from `v` on. -/
theorem frame_lost {g : StoreGeometry} {u v : Uintptr} {count : Nat} (hT : T.Valid refs)
    (h : Displaced g ((T (refs s)).map Prod.snd) u v count)
    (hown : T.FindsOwn refs (s, g.index u)) (hu : g.page u < 2 ^ 32 - 1)
    (hv : g.page v < 2 ^ 32 - 1) (hv' : g.page (v + BitVec.ofNat 64 (g.rest v)) < 2 ^ 32 - 1) :
    (((((ofOwners refs T).access refs g s u).access refs g s v).access refs g s
      (v + BitVec.ofNat 64 (g.rest v))).frame s) (g.page u) = none := by
  obtain ⟨-, -, ⟨hmem, hlast⟩, hmiss, hmiss', hne⟩ := h
  have hnext := g.page_add_rest_ne v
  generalize v + BitVec.ofNat 64 (g.rest v) = v' at *
  rw [← List.map_dropLast] at hlast hmiss'
  have hslots : (T.slots refs s).dropLast = (T (refs s)).dropLast.map (pageOfEntry s) :=
    (List.map_dropLast ..).symm
  have hfirst : (ofOwners refs T).access refs g s u = ofOwners refs T := if_pos hmem
  have hsecond : (ofOwners refs T).access refs g s v =
      (((ofOwners refs T).fetch refs s (g.page v)).2).note refs (s, g.index v) := if_neg hmiss
  have hrecent : T.access refs (s, g.index v) (refs s) =
      (s, g.index v) :: (T (refs s)).dropLast := by
    rw [TlbOwners.access_self refs T (s, _), Lib.Fifo.touchOwned_of_notMem hmiss]
  have hpages : (T.access refs (s, g.index v)).pages refs s =
      g.page v :: (T.slots refs s).dropLast.reduceOption := by
    rw [TlbOwners.pages, TlbOwners.slots, hrecent, List.map_cons, hslots, pageOfEntry, if_pos rfl,
      List.reduceOption_cons_of_some, StoreGeometry.toNat_index hv]
  have hmiss₂ : g.index v' ∉ (T.access refs (s, g.index v) (refs s)).map Prod.snd := by
    rw [hrecent, List.map_cons]
    intro hin
    rcases List.mem_cons.mp hin with heq | hin
    · refine hnext ?_
      rw [← StoreGeometry.toNat_index hv', heq, StoreGeometry.toNat_index hv]
    · exact hmiss' hin
  have hthird : (((ofOwners refs T).fetch refs s (g.page v)).2.note refs (s, g.index v)).access refs g
      s v' = _ := if_neg hmiss₂
  rw [hfirst, hsecond, hthird]
  show ((fetch refs _ s (g.page v')).2.frame s) (g.page u) = none
  rw [fetch_frame_self]
  show (FrameMap.load ((fetch refs _ s (g.page v)).2.frame s)
    ((T.access refs (s, g.index v)).pages refs s) (g.page v')).2 (g.page u) = none
  rw [fetch_frame_self, hpages]
  have hin : (s, g.index u) ∈ T (refs s) := by
    have hfound : Lib.Fifo.found (T (refs s)) (s, g.index u) ∈ T (refs s) := Lib.Fifo.found_mem hmem
    rwa [hown] at hfound
  refine FrameMap.load_lost ?_ (TlbOwners.mem_slots.mpr ⟨_, hin, StoreGeometry.toNat_index hu⟩)
    (fun hdrop => hlast ?_) (fun hslot => hmiss (index_mem_of_slot hv hslot)) (fun hdrop => hmiss' ?_)
    hnext hne
  · rw [TlbOwners.slots, List.length_map, hT.length]
  · exact index_mem_of_slot hu (hslots ▸ hdrop)
  · exact index_mem_of_slot hv' (hslots ▸ hdrop)

end SixFrames

/-! ## The stores in the runtime -/

section Env

variable (refs : StoreId → TlbRef) (g : StoreId → StoreGeometry)

/-- The callbacks of store `s`. -/
def sixFrameCallbacks (s : StoreId) : PageCallbacks SixFrames where
  notifyTlbCached ptr := modify fun m =>
    { m with store := m.store.note refs (s, (g s).index ptr) }
  notifyTlbDropped _ _ := pure ()
  mpfHandlerC ptr := fun m =>
    .ok ((g s).frameAddress (m.store.fetch refs s ((g s).page ptr)).1 ((g s).inPage ptr))
      { m with store := (m.store.fetch refs s ((g s).page ptr)).2 }
  lstoreGetTlb := refs s

/-- The stores at the four positions. -/
def sixFrameEnv : Env SixFrames := PageCallbacks.env (sixFrameCallbacks refs g) g

/-- The placement of the pages. -/
def sixFrameResidency : Residency SixFrames where
  geometry := g
  native _ := false
  frame c s p := (c.frame s p).map (SixFrames.frameNumber s)
  stored _ _ := 0

/-- The entry that maps a page to its frame. -/
def SixFrames.entry (T : TlbOwners) (e : StoreId × Unsigned) : TlbEntry :=
  ⟨e.2, BitVec.ofNat 16
    (((ofOwners refs T).frame e.1 e.2.toNat).map (frameNumber e.1) |>.getD 0), 0⟩

/-- A world in which the TLBs have the entries `T`. -/
def sixFrameWorld (mem : Memory) (T : TlbOwners) : World SixFrames where
  mem := mem
  store := .ofOwners refs T
  tlb q := if h : (T q).length = tlbSize then
      ⟨(T q).map (SixFrames.entry refs T), by rw [List.length_map, h]⟩
    else Tlb.memset 0xff
  gtDirectBuffer := 0
  gtCrosspageAccess := 0
  gtCrosspageAccessSize := 0
  trace := []

variable {g} (s : StoreId)

theorem sixFrameEnv_geometry : ((sixFrameEnv refs g).stores s).HasGeometry (g s) :=
  PageCallbacks.env_geometry _ _ _

theorem sixFrame_knownStore :
    KnownStore (sixFrameEnv refs g) (sixFrameResidency g) (SixFrames.Knows refs) refs s where
  isCached := rfl
  geometry := sixFrameEnv_geometry refs s
  tlb := rfl
  link := Or.inl rfl
  mpfHandlerC := by
    intro T u m hknows _ _
    obtain ⟨⟨f, hf, hfirst, hframe⟩, hknows', hkept⟩ :=
      SixFrames.fetch_spec hknows s ((g s).page u)
    refine ⟨_, _, rfl, ?_, ?_, hknows', ?_, fun t ht => ?_⟩
    · rw [hfirst]
      exact SixFrames.frameNumber_lt hf
    · exact (congrArg (Option.map _) hframe).trans (congrArg some hfirst.symm)
    · intro p f' hp hpf
      obtain ⟨f, hold, rfl⟩ := Option.map_eq_some_iff.mp hpf
      exact congrArg (Option.map _) (hkept p f hp hold)
    · funext p
      exact congrArg (fun m : FrameMap => (m p).map _) (SixFrames.fetch_frame_of_ne ht _)
  notified := by
    intro T u e m hknows _ _
    refine ⟨m, _, ?_, rfl, SixFrames.note_knows hknows _, rfl⟩
    unfold DropStep
    split <;> rfl

variable {refs} {T : TlbOwners}

theorem sixFrameWorld_resident (mem : Memory) (hT : T.Valid refs) :
    TlbResident (sixFrameResidency g) (SixFrames.Knows refs) refs T (sixFrameWorld refs mem T) := by
  refine ⟨hT, SixFrames.ofOwners_knows hT, fun s => ?_⟩
  have hentries : ((sixFrameWorld refs mem T).tlb (refs s)).mappings =
      (T (refs s)).map fun e => (e.2, (SixFrames.entry refs T e).epcPageIndex) := by
    show (dite _ _ _ : Tlb).mappings = _
    rw [dif_pos (hT.length s), Tlb.mappings, List.map_map]
    rfl
  rw [hentries, List.forall₂_map_left_iff, List.forall₂_same]
  intro e he
  refine ⟨rfl, (hT.home s e he).imp_right fun hhome => ?_⟩
  obtain ⟨f, hf⟩ := FrameMap.exists_ofSlots
    (TlbOwners.mem_slots.mpr ⟨e.2, hhome ▸ he, rfl⟩)
  have hle := ((SixFrames.ofOwners_knows hT).2.2 e.1).frame_le _ f hf
  have hlt := SixFrames.frameNumber_lt hle (s := e.1)
  show Option.map _ (FrameMap.ofSlots _ _) =
    some (BitVec.ofNat 16 (((FrameMap.ofSlots _ _).map _).getD 0)).toNat
  rw [hf, Option.map_some, Option.getD_some, BitVec.toNat_ofNat, Nat.mod_eq_of_lt hlt]

/-- A passage through the TLB of a store. -/
theorem sixFrame_linkStep {u a : Uintptr} {ptrSize : Int} {dirty : Byte} {w w' : World SixFrames}
    (hw : TlbResident (sixFrameResidency g) (SixFrames.Knows refs) refs T w)
    (h : LinkStep (sixFrameEnv refs g) s u ptrSize dirty w a w') :
    w'.store = w.store.access refs (g s) s u ∧ w'.mem = w.mem := by
  have hindex := bsPageIndex_eq_index (sixFrameEnv_geometry (g := g) refs s) u
  have hpages := hw.pages_eq s
  rw [← hw.known.1] at hpages
  cases h with
  | hit hlookup =>
    have hmem : (g s).index u ∈ (w.store.recent (refs s)).map Prod.snd := by
      by_contra hnot
      rw [← hpages, ← hindex] at hnot
      have hnone : (w.tlb (refs s)).lookup _ dirty = none := Tlb.lookup_eq_none_iff.mpr hnot
      cases hnone.symm.trans hlookup
    exact ⟨(if_pos hmem).symm, rfl⟩
  | @miss _ m₁ m₂ m₃ hlookup hhandler hdrop hcached =>
    have hnot : (g s).index u ∉ (w.store.recent (refs s)).map Prod.snd := by
      rw [← hpages, ← hindex]
      exact Tlb.lookup_eq_none_iff.mp hlookup
    have hdropped : m₂ = m₁ := by
      unfold DropStep at hdrop
      split at hdrop
      · cases hdrop
        rfl
      · exact hdrop
    cases hhandler
    subst hdropped
    cases hcached
    exact ⟨(if_neg hnot).symm, rfl⟩

end Env

end Carmor
