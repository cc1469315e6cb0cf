import Carmor.Proofs.Geometry
import Carmor.Lib.Fifo
import Carmor.Lib.Run

/-!
# What a link call can do

`LinkStep` lists the successful outcomes of the part of the link templates that goes through
the TLB, once: a hit or a miss. The templates and `__carmor_page_fault` are then described by
it, so that the invariants are proved about `LinkStep` and not about the templates.
-/

namespace Carmor

variable {σ : Type}

/-! ## The TLB as a FIFO cache -/

namespace Tlb

variable {t t' : Tlb} {e : TlbEntry} {bsPageIndex : Unsigned} {dirty : Byte}

/-- The page indices of the entries. -/
def pages (t : Tlb) : List Unsigned := t.entries.map TlbEntry.bsPageIndex

/-- The page and frame indices of the entries. -/
def mappings (t : Tlb) : List (Unsigned × BitVec 16) :=
  t.entries.map fun e => (e.bsPageIndex, e.epcPageIndex)

theorem pages_eq_mappings (t : Tlb) : t.pages = t.mappings.map Prod.fst := by
  rw [pages, mappings, List.map_map]
  rfl

theorem entries_ne_nil (t : Tlb) : t.entries ≠ [] :=
  List.ne_nil_of_length_pos (by rw [t.length_eq]; decide)

theorem pages_ne_nil (t : Tlb) : t.pages ≠ [] := by
  rw [pages, ne_eq, List.map_eq_nil_iff]
  exact t.entries_ne_nil

theorem mem_pages_iff {p : Unsigned} : p ∈ t.pages ↔ ∃ f, (p, f) ∈ t.mappings := by
  rw [pages_eq_mappings, List.mem_map]
  constructor
  · rintro ⟨⟨q, f⟩, hm, rfl⟩
    exact ⟨f, hm⟩
  · rintro ⟨f, hm⟩
    exact ⟨(p, f), hm, rfl⟩

theorem mapping_mem (he : e ∈ t.entries) : (e.bsPageIndex, e.epcPageIndex) ∈ t.mappings :=
  List.mem_map_of_mem he

theorem page_mem (he : e ∈ t.entries) : e.bsPageIndex ∈ t.pages := List.mem_map_of_mem he

theorem last_mem (t : Tlb) : t.last ∈ t.entries := List.getLast_mem _

theorem pages_getLast (t : Tlb) : t.pages.getLast t.pages_ne_nil = t.last.bsPageIndex :=
  List.getLast_map _

theorem pages_getLast? (t : Tlb) : t.pages.getLast? = some t.last.bsPageIndex := by
  rw [List.getLast?_eq_some_getLast t.pages_ne_nil, pages_getLast]

theorem page_mem_dropLast {mapping : Unsigned × BitVec 16} (h : mapping ∈ t.mappings.dropLast) :
    mapping.1 ∈ t.pages.dropLast := by
  rw [pages_eq_mappings, ← List.map_dropLast]
  exact List.mem_map_of_mem h

@[simp] theorem pages_push (t : Tlb) (e : TlbEntry) :
    (t.push e).pages = e.bsPageIndex :: t.pages.dropLast := by
  rw [pages, push, List.map_cons, List.map_dropLast]
  rfl

@[simp] theorem mappings_push (t : Tlb) (e : TlbEntry) :
    (t.push e).mappings = (e.bsPageIndex, e.epcPageIndex) :: t.mappings.dropLast := by
  rw [mappings, push, List.map_cons, List.map_dropLast]
  rfl

theorem scan_eq_none_iff {es : List TlbEntry} :
    scan bsPageIndex dirty es = none ↔ ∀ e ∈ es, e.bsPageIndex ≠ bsPageIndex := by
  induction es with
  | nil => simp [scan]
  | cons e es ih =>
    rw [scan]
    split
    · rename_i heq
      simp [heq]
    · rename_i hne
      simp [ih, hne]

theorem scan_eq_some {es : List TlbEntry} {r : TlbEntry × List TlbEntry}
    (h : scan bsPageIndex dirty es = some r) :
    r.1 ∈ es ∧ r.1.bsPageIndex = bsPageIndex ∧
      (r.2.map fun e => (e.bsPageIndex, e.epcPageIndex)) =
        es.map fun e => (e.bsPageIndex, e.epcPageIndex) := by
  induction es generalizing r with
  | nil => simp [scan] at h
  | cons e es ih =>
    rw [scan] at h
    split at h
    · rename_i heq
      obtain rfl := Option.some.inj h
      exact ⟨List.mem_cons_self, heq, rfl⟩
    · obtain ⟨q, hq, rfl⟩ := Option.map_eq_some_iff.mp h
      obtain ⟨hmem, hindex, hmap⟩ := ih hq
      exact ⟨List.mem_cons_of_mem e hmem, hindex, by simp [hmap]⟩

theorem lookup_eq_none_iff : t.lookup bsPageIndex dirty = none ↔ bsPageIndex ∉ t.pages := by
  have hscan : t.lookup bsPageIndex dirty = none ↔ scan bsPageIndex dirty t.entries = none := by
    rw [lookup]
    split <;> simp_all
  rw [hscan, scan_eq_none_iff, pages, List.mem_map]
  simp

/-- A hit finds an entry of the page and changes dirty flags only. -/
theorem lookup_eq_some (h : t.lookup bsPageIndex dirty = some (e, t')) :
    e ∈ t.entries ∧ e.bsPageIndex = bsPageIndex ∧ t'.mappings = t.mappings := by
  rw [lookup] at h
  split at h
  · cases h
  · rename_i r hscan
    obtain ⟨hmem, hindex, hmap⟩ := scan_eq_some hscan
    cases h
    exact ⟨hmem, hindex, hmap⟩

theorem pages_of_lookup (h : t.lookup bsPageIndex dirty = some (e, t')) : t'.pages = t.pages := by
  rw [pages_eq_mappings, pages_eq_mappings, (lookup_eq_some h).2.2]

end Tlb

/-! ## Outcomes of a link through the TLB -/

/-- What giving up `tlb[TLB_SIZE-1]` does to the machine. -/
def DropStep (st : LStore σ) (u : Uintptr) (removed : TlbEntry) (m m' : Machine σ) : Prop :=
  if 0 ≤ removed.bsPageIndex.toInt then
    st.notifyTlbDropped (removedBsPage st u removed) (removed.isDirty ≠ 0) m = .ok () m'
  else
    m' = m

/-- The drop notification of a miss, if there is one. -/
def dropEvents (st : LStore σ) (s : StoreId) (u : Uintptr) (removed : TlbEntry) :
    List (Event σ) :=
  if 0 ≤ removed.bsPageIndex.toInt then
    [.notifyTlbDropped s (removedBsPage st u removed) (removed.isDirty ≠ 0) removed]
  else
    []

/-- The world after a miss on `u` that got `res` from the handler and left the machine `m`. -/
def World.afterMiss (w : World σ) (st : LStore σ) (s : StoreId) (u res : Uintptr) (dirty : Byte)
    (m : Machine σ) : World σ :=
  { w.withTlb st.lstoreGetTlb ((w.tlb st.lstoreGetTlb).push (missEntry st u res dirty)) with
    toMachine := m
    trace := .notifyTlbCached s u :: (dropEvents st s u (w.tlb st.lstoreGetTlb).last ++
      .mpfHandlerC s u res :: w.trace) }

@[simp] theorem World.afterMiss_tlb_self (w : World σ) (st : LStore σ) (s : StoreId)
    (u res : Uintptr) (dirty : Byte) (m : Machine σ) :
    (w.afterMiss st s u res dirty m).tlb st.lstoreGetTlb =
      (w.tlb st.lstoreGetTlb).push (missEntry st u res dirty) :=
  w.withTlb_tlb_self _ _

/-- The successful outcomes of `linkThroughTlb`. -/
inductive LinkStep (env : Env σ) (s : StoreId) (u : Uintptr) (ptrSize : Int) (dirty : Byte)
    (w : World σ) : Uintptr → World σ → Prop
  | hit {entry : TlbEntry} {tlb' : Tlb}
      (hlookup : (w.tlb (env.stores s).lstoreGetTlb).lookup (bsPageIndex (env.stores s) u) dirty =
        some (entry, tlb'))
      (hsize : (pageOffset (env.stores s) u + BitVec.ofInt 32 ptrSize).setWidth 64 ≤
        (env.stores s).lstoreGetMpageSize) :
      LinkStep env s u ptrSize dirty w (hitAddress (env.stores s) u entry)
        ((w.withTlb (env.stores s).lstoreGetTlb tlb').log (.tlbHit s entry))
  | miss {res : Uintptr} {m₁ m₂ m₃ : Machine σ}
      (hlookup : (w.tlb (env.stores s).lstoreGetTlb).lookup (bsPageIndex (env.stores s) u) dirty =
        none)
      (hhandler : (env.stores s).mpfHandlerC u w.toMachine = .ok res m₁)
      (hdrop : DropStep (env.stores s) u (w.tlb (env.stores s).lstoreGetTlb).last m₁ m₂)
      (hcached : (env.stores s).notifyTlbCached u m₂ = .ok () m₃)
      (hsize : ((res - (env.stores s).lstoreGetMpageCacheBasePtr) &&&
        ((env.stores s).lstoreGetMpageSize - 1)) + BitVec.ofInt 64 ptrSize ≤
          (env.stores s).lstoreGetMpageSize) :
      LinkStep env s u ptrSize dirty w res (w.afterMiss (env.stores s) s u res dirty m₃)

theorem dropLastEntry_eq_ok {env : Env σ} {s : StoreId} {u : Uintptr} {w w' : World σ} :
    dropLastEntry env s u w = .ok () w' ↔
      ∃ m, DropStep (env.stores s) u (w.tlb (env.stores s).lstoreGetTlb).last w.toMachine m ∧
        w' = { w.withMachine m with
          trace := dropEvents (env.stores s) s u (w.tlb (env.stores s).lstoreGetTlb).last ++
            w.trace } := by
  simp only [dropLastEntry, DropStep, dropEvents, Lib.bind_apply, getTlb_apply]
  split
  · simp only [Lib.bind_apply, record_apply, callStore_eq_ok]
    rfl
  · constructor
    · rintro h
      cases h
      exact ⟨_, rfl, rfl⟩
    · rintro ⟨m, rfl, rfl⟩
      rfl

theorem insertEntry_eq_ok {env : Env σ} {s : StoreId} {u res : Uintptr} {dirty : Byte}
    {w w' : World σ} :
    insertEntry env s u res dirty w = .ok () w' ↔
      ∃ m, (env.stores s).notifyTlbCached u w.toMachine = .ok () m ∧
        w' = ((w.log (.notifyTlbCached s u)).withMachine m).withTlb (env.stores s).lstoreGetTlb
          ((w.tlb (env.stores s).lstoreGetTlb).push (missEntry (env.stores s) u res dirty)) := by
  rw [insertEntry, Lib.bind_of_ok (record_apply _ _), Lib.bind_eq_ok]
  constructor
  · rintro ⟨_, w₁, hcall, hset⟩
    obtain ⟨m, hm, rfl⟩ := callStore_eq_ok.mp hcall
    cases hset
    exact ⟨m, hm, rfl⟩
  · rintro ⟨m, hm, rfl⟩
    exact ⟨(), _, callStore_of_ok hm, rfl⟩

/-- `LinkStep` describes the successful runs of `linkThroughTlb`. -/
theorem linkThroughTlb_eq_ok {env : Env σ} {s : StoreId} {u a : Uintptr} {ptrSize : Int}
    {dirty : Byte} {w w' : World σ} :
    linkThroughTlb env s u ptrSize dirty w = .ok a w' ↔ LinkStep env s u ptrSize dirty w a w' := by
  rw [linkThroughTlb, Lib.bind_of_ok (getTlb_apply _ _)]
  constructor
  · intro h
    cases hlookup : (w.tlb (env.stores s).lstoreGetTlb).lookup (bsPageIndex (env.stores s) u)
        dirty with
    | some r =>
      obtain ⟨entry, tlb'⟩ := r
      rw [hlookup] at h
      obtain ⟨_, _, hset, h⟩ := Lib.bind_eq_ok.mp h
      cases hset
      obtain ⟨_, _, hrec, h⟩ := Lib.bind_eq_ok.mp h
      cases hrec
      obtain ⟨_, _, hassert, h⟩ := Lib.bind_eq_ok.mp h
      obtain ⟨hsize, rfl⟩ := cAssert_eq_ok.mp hassert
      cases h
      exact .hit hlookup (of_decide_eq_true hsize)
    | none =>
      rw [hlookup] at h
      obtain ⟨res, _, hcall, h⟩ := Lib.bind_eq_ok.mp h
      obtain ⟨m₁, hhandler, rfl⟩ := callStore_eq_ok.mp hcall
      obtain ⟨_, _, hrec, h⟩ := Lib.bind_eq_ok.mp h
      cases hrec
      obtain ⟨_, _, hdropped, h⟩ := Lib.bind_eq_ok.mp h
      obtain ⟨m₂, hdrop, rfl⟩ := dropLastEntry_eq_ok.mp hdropped
      obtain ⟨_, _, hinsert, h⟩ := Lib.bind_eq_ok.mp h
      obtain ⟨m₃, hcached, rfl⟩ := insertEntry_eq_ok.mp hinsert
      obtain ⟨_, _, hassert, h⟩ := Lib.bind_eq_ok.mp h
      obtain ⟨hsize, rfl⟩ := cAssert_eq_ok.mp hassert
      cases h
      exact .miss hlookup hhandler hdrop hcached (of_decide_eq_true hsize)
  · intro h
    cases h with
    | hit hlookup hsize =>
      rw [hlookup]
      exact Lib.bind_eq_ok.mpr ⟨(), _, rfl, Lib.bind_eq_ok.mpr ⟨(), _, rfl, Lib.bind_eq_ok.mpr
        ⟨(), _, cAssert_eq_ok.mpr ⟨decide_eq_true hsize, rfl⟩, rfl⟩⟩⟩
    | miss hlookup hhandler hdrop hcached hsize =>
      rw [hlookup]
      refine Lib.bind_eq_ok.mpr ⟨_, _, callStore_of_ok hhandler, ?_⟩
      refine Lib.bind_eq_ok.mpr ⟨(), _, rfl, ?_⟩
      refine Lib.bind_eq_ok.mpr ⟨(), _, dropLastEntry_eq_ok.mpr ⟨_, hdrop, rfl⟩, ?_⟩
      refine Lib.bind_eq_ok.mpr ⟨(), _, insertEntry_eq_ok.mpr ⟨_, hcached, rfl⟩, ?_⟩
      exact Lib.bind_eq_ok.mpr ⟨(), _, cAssert_eq_ok.mpr ⟨decide_eq_true hsize, rfl⟩, rfl⟩

/-- A passage through the TLB is an access of the FIFO cache of page indices. -/
theorem LinkStep.pages {env : Env σ} {s : StoreId} {u a : Uintptr} {ptrSize : Int} {dirty : Byte}
    {w w' : World σ} (h : LinkStep env s u ptrSize dirty w a w') :
    (w'.tlb (env.stores s).lstoreGetTlb).pages =
      Lib.Fifo.touch (w.tlb (env.stores s).lstoreGetTlb).pages (bsPageIndex (env.stores s) u) := by
  cases h with
  | @hit entry tlb' hlookup hsize =>
    have hmem : bsPageIndex (env.stores s) u ∈ (w.tlb (env.stores s).lstoreGetTlb).pages := by
      by_contra hnot
      rw [Tlb.lookup_eq_none_iff.mpr hnot] at hlookup
      cases hlookup
    rw [Lib.Fifo.touch_of_mem hmem, World.log_tlb, World.withTlb_tlb_self,
      Tlb.pages_of_lookup hlookup]
  | miss hlookup hhandler hdrop hcached hsize =>
    rw [Lib.Fifo.touch_of_notMem (Tlb.lookup_eq_none_iff.mp hlookup)]
    rw [World.afterMiss_tlb_self, Tlb.pages_push]
    rfl

/-- The events of a passage through the TLB. -/
def Event.IsTlb : Event σ → Prop
  | .tlbHit .. | .mpfHandlerC .. | .notifyTlbDropped .. | .notifyTlbCached .. => True
  | _ => False

theorem LinkStep.tlbEvents {env : Env σ} {s : StoreId} {u a : Uintptr} {ptrSize : Int}
    {dirty : Byte} {w w' : World σ} (h : LinkStep env s u ptrSize dirty w a w') :
    ∃ es, w'.trace = es ++ w.trace ∧ ∀ e ∈ es, e.IsTlb := by
  cases h with
  | @hit entry tlb' hlookup hsize =>
    refine ⟨[.tlbHit s entry], rfl, ?_⟩
    intro e he
    cases List.mem_singleton.mp he
    trivial
  | miss hlookup hhandler hdrop hcached hsize =>
    refine ⟨.notifyTlbCached s u :: (dropEvents (env.stores s) s u
      (w.tlb (env.stores s).lstoreGetTlb).last ++ [.mpfHandlerC s u a]), ?_, ?_⟩
    · simp [World.afterMiss]
    · intro e he
      unfold dropEvents at he
      split at he <;> simp at he <;> rcases he with rfl | rfl | rfl <;> trivial

/-- The trace only grows. -/
theorem LinkStep.trace_suffix {env : Env σ} {s : StoreId} {u a : Uintptr} {ptrSize : Int}
    {dirty : Byte} {w w' : World σ} (h : LinkStep env s u ptrSize dirty w a w') :
    w.trace <:+ w'.trace := by
  obtain ⟨es, htrace, -⟩ := h.tlbEvents
  exact ⟨es, htrace.symm⟩

/-! ## Link calls -/

/-- `_N__carmor_link` is an instance of one of the cached templates. -/
def CachedInstance (env : Env σ) (s : StoreId) : Prop :=
  (env.stores s).carmorLink = carmorLinkCachedTemplate env s ∨
    (env.stores s).carmorLink = carmorLinkCachedCrossPageTemplate env s

section Templates

variable {env : Env σ} {s : StoreId} {p a : Uintptr} {ptrSize : Int} {isVectorType dirty : Byte}
  {w w' : World σ} (hp : isCarmorPtr p = true)
include hp

theorem cachedTemplate_eq_ok :
    carmorLinkCachedTemplate env s p ptrSize isVectorType dirty w = .ok a w' ↔
      isVectorType = 0 ∧
        linkThroughTlb env s (makeOriginalPointer p) ptrSize dirty w = .ok a w' := by
  rw [carmorLinkCachedTemplate, if_neg (by simp [hp]), Lib.bind_eq_ok]
  constructor
  · rintro ⟨_, w₁, hassert, hlink⟩
    obtain ⟨hvec, rfl⟩ := cAssert_eq_ok.mp hassert
    exact ⟨beq_iff_eq.mp hvec, hlink⟩
  · rintro ⟨hvec, hlink⟩
    exact ⟨(), w, cAssert_eq_ok.mpr ⟨beq_iff_eq.mpr hvec, rfl⟩, hlink⟩

theorem crossPageTemplate_eq_ok :
    carmorLinkCachedCrossPageTemplate env s p ptrSize isVectorType dirty w = .ok a w' ↔
      isVectorType = 0 ∧
        (if crossesPage (env.stores s) (makeOriginalPointer p) ptrSize then
          loadCrossPage env s p ptrSize dirty
        else
          linkThroughTlb env s (makeOriginalPointer p) ptrSize dirty) w = .ok a w' := by
  rw [carmorLinkCachedCrossPageTemplate, if_neg (by simp [hp]), Lib.bind_eq_ok]
  constructor
  · rintro ⟨_, w₁, hassert, hlink⟩
    obtain ⟨hvec, rfl⟩ := cAssert_eq_ok.mp hassert
    exact ⟨beq_iff_eq.mp hvec, hlink⟩
  · rintro ⟨hvec, hlink⟩
    exact ⟨(), w, cAssert_eq_ok.mpr ⟨beq_iff_eq.mpr hvec, rfl⟩, hlink⟩

end Templates

/-- An access of size 0 does not cross a page. -/
theorem crossesPage_zero {st : LStore σ} {g : StoreGeometry} (h : st.HasGeometry g)
    (u : Uintptr) : crossesPage st u 0 = false := by
  have hin := g.inPage_lt u
  have hoff := toNat_pageOffset h u
  have hmod := Nat.mod_le (g.inPage u) (2 ^ 32)
  have hlt := (pageOffset st u).isLt
  rw [crossesPage, decide_eq_false_iff_not, BitVec.lt_def, toNat_mpageSize h]
  simp only [BitVec.ofInt_ofNat, BitVec.add_zero, BitVec.toNat_setWidth]
  omega

section PageFault

variable {env : Env σ} {s : StoreId} {g : StoreGeometry}
  (hgeom : (env.stores s).HasGeometry g) (hinst : CachedInstance env s)
include hgeom hinst

/-- On its own pointers an instance called without a size goes through the TLB. -/
theorem carmorLink_zero {p : Uintptr} (hp : isCarmorPtr p = true) (dirty : Byte) :
    (env.stores s).carmorLink p 0 0 dirty =
      linkThroughTlb env s (makeOriginalPointer p) 0 dirty := by
  rcases hinst with h | h
  · rw [h, carmorLinkCachedTemplate, hp]
    rfl
  · rw [h, carmorLinkCachedCrossPageTemplate, hp, crossesPage_zero hgeom]
    rfl

theorem carmorPageFault_eq_ok {p a : Uintptr} (hp : switchCase p = some s) {dirty : Byte}
    {w w' : World σ} :
    carmorPageFault env p dirty w = .ok a w' ↔
      LinkStep env s (makeOriginalPointer p) 0 dirty (w.log (.pageFault p dirty)) a w' := by
  rw [carmorPageFault, Lib.bind_of_ok (record_apply _ _), hp, ← linkThroughTlb_eq_ok]
  show (env.stores s).carmorLink p 0 0 dirty _ = _ ↔ _
  rw [carmorLink_zero hgeom hinst (isCarmorPtr_of_switchCase hp)]

end PageFault

/-- A call of one of the cached link templates. -/
structure LinkCall where
  crossPage : Bool
  ptr : Uintptr
  ptrSize : Int
  isVectorType : Byte
  dirty : Byte

namespace LinkCall

def exec (env : Env σ) (s : StoreId) (c : LinkCall) : Exec σ Uintptr :=
  if c.crossPage then
    carmorLinkCachedCrossPageTemplate env s c.ptr c.ptrSize c.isVectorType c.dirty
  else
    carmorLinkCachedTemplate env s c.ptr c.ptrSize c.isVectorType c.dirty

/-- A call that returns, as a transition. -/
def Step (env : Env σ) (s : StoreId) (w : World σ) (c : LinkCall) (w' : World σ) : Prop :=
  ∃ a, c.exec env s w = .ok a w'

/-- The call takes the branch for accesses that cross a page. -/
def crosses (st : LStore σ) (c : LinkCall) : Bool :=
  c.crossPage && crossesPage st (makeOriginalPointer c.ptr) c.ptrSize

/-- The pointer at which a crossing call enters its second page. -/
def secondPtr (st : LStore σ) (c : LinkCall) : Uintptr :=
  c.ptr + (bytesToCopyFromFirstPage st (makeOriginalPointer c.ptr)).setWidth 64

/-- The tagged pointers with which a call goes through the TLB. -/
def accesses (st : LStore σ) (c : LinkCall) : List Uintptr :=
  if !isCarmorPtr c.ptr then []
  else if c.crosses st then [c.ptr, c.secondPtr st]
  else [c.ptr]

end LinkCall

/-- A call on a tagged pointer that does not cross a page goes through the TLB, whichever template
it calls. -/
theorem LinkCall.exec_eq_ok {env : Env σ} {s : StoreId} {c : LinkCall}
    (hptr : isCarmorPtr c.ptr = true) (hcross : c.crosses (env.stores s) = false) {a : Uintptr}
    {w w' : World σ} : c.exec env s w = .ok a w' ↔
      c.isVectorType = 0 ∧ LinkStep env s (makeOriginalPointer c.ptr) c.ptrSize c.dirty w a w' := by
  rw [exec, ← linkThroughTlb_eq_ok]
  split
  · rename_i hcp
    have hcr : ¬ crossesPage (env.stores s) (makeOriginalPointer c.ptr) c.ptrSize = true := by
      simpa [crosses, hcp] using hcross
    rw [crossPageTemplate_eq_ok hptr, if_neg hcr]
  · exact cachedTemplate_eq_ok hptr

/-- The change of the world leaves the TLB and the store alone and makes no call that the TLB
invariants speak of. -/
structure Quiet (w w' : World σ) : Prop where
  tlb : w'.tlb = w.tlb
  store : w'.store = w.store
  trace : ∃ es, w'.trace = es ++ w.trace ∧ ∀ e ∈ es, ∃ p dirty, e = .pageFault p dirty

theorem Quiet.refl (w : World σ) : Quiet w w := ⟨rfl, rfl, [], rfl, by simp⟩

theorem quiet_log_pageFault (w : World σ) (p : Uintptr) (dirty : Byte) :
    Quiet w (w.log (.pageFault p dirty)) :=
  ⟨rfl, rfl, [.pageFault p dirty], rfl, by simp⟩

/-- One passage through the TLB, with quiet changes around it. -/
def AccessStep (env : Env σ) (s : StoreId) (w : World σ) (p : Uintptr) (w' : World σ) : Prop :=
  ∃ ptrSize dirty a w₁ w₂, Quiet w w₁ ∧
    LinkStep env s (makeOriginalPointer p) ptrSize dirty w₁ a w₂ ∧ Quiet w₂ w'

/-- `AccessStep` of a pointer together with the dirty flag of the access. -/
def FlaggedStep (env : Env σ) (s : StoreId) (w : World σ) (l : Uintptr × Byte) (w' : World σ) :
    Prop :=
  ∃ ptrSize a w₁ w₂, Quiet w w₁ ∧
    LinkStep env s (makeOriginalPointer l.1) ptrSize l.2 w₁ a w₂ ∧ Quiet w₂ w'

theorem FlaggedStep.access {env : Env σ} {s : StoreId} {w w' : World σ} {l : Uintptr × Byte}
    (h : FlaggedStep env s w l w') : AccessStep env s w l.1 w' := by
  obtain ⟨ptrSize, a, w₁, w₂, hbefore, hlink, hafter⟩ := h
  exact ⟨ptrSize, l.2, a, w₁, w₂, hbefore, hlink, hafter⟩

theorem Quiet.trace_suffix {w w' : World σ} (h : Quiet w w') : w.trace <:+ w'.trace := by
  obtain ⟨es, htrace, -⟩ := h.trace
  exact ⟨es, htrace.symm⟩

theorem AccessStep.trace_suffix {env : Env σ} {s : StoreId} {w w' : World σ} {p : Uintptr}
    (h : AccessStep env s w p w') : w.trace <:+ w'.trace := by
  obtain ⟨ptrSize, dirty, a, v, v', hbefore, hlink, hafter⟩ := h
  exact (hbefore.trace_suffix.trans hlink.trace_suffix).trans hafter.trace_suffix

theorem loadCrossPage_flagged {env : Env σ} {s : StoreId} {g : StoreGeometry}
    (hgeom : (env.stores s).HasGeometry g) (hinst : CachedInstance env s) {p q a : Uintptr}
    {ptrSize : Int} {dirty : Byte} {w w' : World σ} (hp : switchCase p = some s)
    (hq : q = p + (bytesToCopyFromFirstPage (env.stores s) (makeOriginalPointer p)).setWidth 64)
    (hqs : switchCase q = some s) (h : loadCrossPage env s p ptrSize dirty w = .ok a w') :
    Lib.Run (FlaggedStep env s) w [(p, dirty), (q, dirty)] w' := by
  rw [loadCrossPage] at h
  obtain ⟨a₁, w₁, hfirst, h⟩ := Lib.bind_eq_ok.mp h
  obtain ⟨a₂, w₂, hsecond, h⟩ := Lib.bind_eq_ok.mp h
  rw [← hq, carmorPageFault_eq_ok hgeom hinst hqs] at hsecond
  rw [carmorPageFault_eq_ok hgeom hinst hp] at hfirst
  have hquiet : Quiet w₂ w' := by
    cases h
    exact ⟨rfl, rfl, [], rfl, by simp⟩
  exact .cons ⟨_, _, _, _, quiet_log_pageFault w p dirty, hfirst, Quiet.refl _⟩
    (.cons ⟨_, _, _, _, quiet_log_pageFault w₁ q dirty, hsecond, hquiet⟩ (.nil _))

/-- The pointers with which a call goes through the TLB, with its dirty flag. -/
def LinkCall.flaggedAccesses (st : LStore σ) (c : LinkCall) : List (Uintptr × Byte) :=
  (c.accesses st).map fun p => (p, c.dirty)

/-- A call that returns goes through the TLB once for each of its accesses. -/
theorem LinkCall.step_flagged {env : Env σ} {s : StoreId} {g : StoreGeometry}
    (hgeom : (env.stores s).HasGeometry g) (hinst : CachedInstance env s) {c : LinkCall}
    {w w' : World σ} (hs : ∀ p ∈ c.accesses (env.stores s), switchCase p = some s)
    (h : c.Step env s w w') :
    Lib.Run (FlaggedStep env s) w (c.flaggedAccesses (env.stores s)) w' := by
  unfold flaggedAccesses
  obtain ⟨a, h⟩ := h
  by_cases hptr : isCarmorPtr c.ptr = true
  swap
  · -- a native pointer is returned as it is
    have hw : w' = w := by
      rw [exec] at h
      split at h <;>
        simp_all [carmorLinkCachedCrossPageTemplate, carmorLinkCachedTemplate]
    have hnone : c.accesses (env.stores s) = [] := by simp [accesses, hptr]
    rw [hnone, hw]
    exact .nil w
  · by_cases hcross : c.crosses (env.stores s) = true
    · have hboth : c.accesses (env.stores s) = [c.ptr, c.secondPtr (env.stores s)] := by
        simp [accesses, hptr, hcross]
      rw [hboth] at hs ⊢
      obtain ⟨hcp, hcr⟩ := Bool.and_eq_true_iff.mp hcross
      rw [exec, if_pos hcp, crossPageTemplate_eq_ok hptr, if_pos hcr] at h
      exact loadCrossPage_flagged hgeom hinst (hs _ (by simp)) rfl (hs _ (by simp)) h.2
    · have hone : c.accesses (env.stores s) = [c.ptr] := by simp [accesses, hptr, hcross]
      rw [hone]
      have hlink := (exec_eq_ok hptr (Bool.eq_false_of_not_eq_true hcross)).mp h
      exact .cons ⟨_, _, _, _, Quiet.refl w, hlink.2, Quiet.refl w'⟩ (.nil w')

/-- A run of calls goes through the TLB once for each access of the calls. -/
theorem LinkCall.run_flagged {env : Env σ} {s : StoreId} {g : StoreGeometry}
    (hgeom : (env.stores s).HasGeometry g) (hinst : CachedInstance env s) {cs : List LinkCall}
    {w w' : World σ} (hs : ∀ c ∈ cs, ∀ p ∈ c.accesses (env.stores s), switchCase p = some s)
    (h : Lib.Run (LinkCall.Step env s) w cs w') :
    Lib.Run (FlaggedStep env s) w (cs.flatMap fun c => c.flaggedAccesses (env.stores s)) w' := by
  induction h with
  | nil w => exact .nil w
  | @cons w w₁ w' c cs hstep _ ih =>
    have hfirst := LinkCall.step_flagged hgeom hinst (hs c List.mem_cons_self) hstep
    exact hfirst.append (ih fun c hc => hs c (List.mem_cons_of_mem _ hc))

theorem LinkCall.map_flaggedAccesses (st : LStore σ) (c : LinkCall) :
    (c.flaggedAccesses st).map Prod.fst = c.accesses st := by
  simp [flaggedAccesses, Function.comp_def]

theorem LinkCall.step_accesses {env : Env σ} {s : StoreId} {g : StoreGeometry}
    (hgeom : (env.stores s).HasGeometry g) (hinst : CachedInstance env s) {c : LinkCall}
    {w w' : World σ} (hs : ∀ p ∈ c.accesses (env.stores s), switchCase p = some s)
    (h : c.Step env s w w') :
    Lib.Run (AccessStep env s) w (c.accesses (env.stores s)) w' := by
  rw [← c.map_flaggedAccesses]
  exact (step_flagged hgeom hinst hs h).map fun _ _ _ => FlaggedStep.access

theorem LinkCall.run_accesses {env : Env σ} {s : StoreId} {g : StoreGeometry}
    (hgeom : (env.stores s).HasGeometry g) (hinst : CachedInstance env s) {cs : List LinkCall}
    {w w' : World σ} (hs : ∀ c ∈ cs, ∀ p ∈ c.accesses (env.stores s), switchCase p = some s)
    (h : Lib.Run (LinkCall.Step env s) w cs w') :
    Lib.Run (AccessStep env s) w (cs.flatMap fun c => c.accesses (env.stores s)) w' := by
  have hrun := (run_flagged hgeom hinst hs h).map fun _ _ _ => FlaggedStep.access
  rwa [List.map_flatMap, show (fun c => (flaggedAccesses (env.stores s) c).map Prod.fst) =
    fun c => c.accesses (env.stores s) from funext fun c => c.map_flaggedAccesses _] at hrun

/-! ## Runs of a thread -/

/-- A cached store with the geometry `g` whose TLB is the thread's `gt_TLB`. -/
structure CachedStore (env : Env σ) (s : StoreId) (g : StoreGeometry) : Prop where
  geometry : (env.stores s).HasGeometry g
  isCached : (env.stores s).lstoreIsDirect = false
  tlb : (env.stores s).lstoreGetTlb = .gtTLB
  link : CachedInstance env s

/-- The call goes through the TLB on pointers of store `s` only, into pages below `bound`. -/
def LinkCall.InStorage (env : Env σ) (s : StoreId) (g : StoreGeometry) (bound : Nat)
    (c : LinkCall) : Prop :=
  ∀ p ∈ c.accesses (env.stores s),
    switchCase p = some s ∧ g.page (makeOriginalPointer p) < bound

instance (env : Env σ) (s : StoreId) (g : StoreGeometry) (bound : Nat) (c : LinkCall) :
    Decidable (c.InStorage env s g bound) :=
  decidable_of_iff
    (((c.accesses (env.stores s)).all fun p =>
      decide (switchCase p = some s ∧ g.page (makeOriginalPointer p) < bound)) = true)
    (by simp [LinkCall.InStorage])

/-- The page indices at which a sequence of calls goes through the TLB. -/
def accessedPages (st : LStore σ) (cs : List LinkCall) : List Unsigned :=
  (cs.flatMap fun c => c.accesses st).map fun p => bsPageIndex st (makeOriginalPointer p)

/-- `__carmor_initialize_template` fills the TLB of a cached store and makes no link call. -/
theorem carmorInitialize_eq_ok {env : Env σ} {s : StoreId}
    (hcached : (env.stores s).lstoreIsDirect = false) {privData : Uintptr} {res : Int}
    {w w' : World σ} (h : carmorInitializeTemplate env s privData w = .ok res w') :
    w'.tlb .gtTLB = Tlb.memset 0xff ∧ w'.gtCrosspageAccess = 0 ∧ w'.trace = w.trace := by
  unfold carmorInitializeTemplate at h
  obtain ⟨r, w₁, hinit, hrest⟩ := Lib.bind_eq_ok.mp h
  obtain ⟨m, -, rfl⟩ := callStore_eq_ok.mp hinit
  by_cases hr : r = 0
  · rw [if_neg (not_not_intro hr), hcached] at hrest
    cases hrest
    exact ⟨World.withTlb_tlb_self (w.withMachine m) .gtTLB _, rfl, rfl⟩
  · rw [if_pos hr] at hrest
    cases hrest

end Carmor
