import Carmor.Proofs.FrameMap
import Carmor.Proofs.StorageCache

/-!
# A store that evicts

`PagedStore` is the state of a cached store with six frames in front of a larger storage. It knows
its TLB and spares the pages that are there. When it evicts another page it writes the page back
only if it was told that the page is dirty.
-/

namespace Carmor

/-- The state of the store: where its pages are, the pages of its TLB, the bytes of the storage, the
pages that it was told are dirty, and the size of the block that starts a page. -/
structure PagedStore where
  frame : FrameMap
  recent : List Unsigned
  stored : Memory
  told : Nat → Bool
  block : Nat → Option Nat

/-- The start of the page of an address. -/
def StoreGeometry.pageStart (g : StoreGeometry) (u : Uintptr) : Uintptr :=
  u - BitVec.ofNat 64 (g.inPage u)

namespace PagedStore

variable (g : StoreGeometry)

/-- The byte at a storage address. -/
def byte (m : Machine PagedStore) (x : Uintptr) : Byte :=
  match m.store.frame (g.page x) with
  | some f => m.mem (g.frameAddress f (g.inPage x))
  | none => m.store.stored x

/-- The storage after the page in frame `f` has been written back, if it is one of `dirty`. -/
def writtenBack (dirty : Nat → Bool) (m : Machine PagedStore) (f : Nat) : Memory := fun x =>
  if m.store.frame (g.page x) = some f ∧ dirty (g.page x) = true then
    m.mem (g.frameAddress f (g.inPage x))
  else m.store.stored x

/-- Bring the page of `u` into frame `f`. The page that was there is written back if it is one of
`dirty`. -/
def fill (dirty : Nat → Bool) (u : Uintptr) (f : Nat) (m : Machine PagedStore) :
    Machine PagedStore where
  mem := transfer m.mem (g.frameAddress f 0) (writtenBack g dirty m f) (g.pageStart u) g.pageSize
  store := { m.store with
    frame := m.store.frame.moved (g.page u) f
    stored := writtenBack g dirty m f
    told := fun p => if p = g.page u ∨ m.store.frame p = some f then false else m.store.told p }

/-- The pages of the TLB. -/
def kept (st : PagedStore) : List Nat := st.recent.map BitVec.toNat

/-- The frame of the page of `u`, which is brought in if it is in none. -/
def fetch (dirty : Nat → Bool) (u : Uintptr) (m : Machine PagedStore) : Nat × Machine PagedStore :=
  match m.store.frame (g.page u) with
  | some f => (f, m)
  | none => (m.store.frame.free m.store.kept, fill g dirty u (m.store.frame.free m.store.kept) m)

def handler (dirty : PagedStore → Nat → Bool) (u : Uintptr) :
    EStateM Stop (Machine PagedStore) Uintptr := fun m =>
  .ok (g.frameAddress (fetch g (dirty m.store) u m).1 (g.inPage u)) (fetch g (dirty m.store) u m).2

/-- The entry of a page is pushed to the TLB. -/
def cached (u : Uintptr) (m : Machine PagedStore) : Machine PagedStore :=
  { m with store := { m.store with recent := g.index u :: m.store.recent.dropLast } }

/-- A page is dropped from the TLB. -/
def dropped (u : Uintptr) (dirty : Bool) (m : Machine PagedStore) : Machine PagedStore :=
  { m with store := { m.store with
      told := fun p => if dirty ∧ p = g.page u then true else m.store.told p } }

/-- The store knows that its TLB has the pages `T`. -/
structure Knows (T : List Unsigned) (st : PagedStore) : Prop where
  recent : st.recent = T
  length_eq : T.length = tlbSize
  valid : st.frame.Valid

end PagedStore

/-! ## Pages in frames -/

namespace StoreGeometry

variable (g : StoreGeometry)

theorem pageStart_spec (u : Uintptr) : g.page (g.pageStart u) = g.page u ∧
    g.inPage (g.pageStart u) = 0 := by
  have hoff := g.offset_eq u
  have hlt := (u - g.storageBase).isLt
  have hin := toNat_ofNat_of_lt (show g.inPage u < 2 ^ 64 by
    have hin := g.inPage_lt u
    have hsize := g.pageSize_lt
    omega)
  have hstart : g.offset (g.pageStart u) = g.page u * g.pageSize + 0 := by
    have hsub : g.pageStart u - g.storageBase = u - g.storageBase - BitVec.ofNat 64 (g.inPage u) := by
      unfold pageStart
      bv_omega
    rw [offset, hsub, BitVec.toNat_sub_of_le]
    · change g.offset u - _ = _
      rw [hin]
      omega
    · rw [BitVec.le_def, hin]
      change _ ≤ g.offset u
      omega
  exact ⟨g.page_eq_of_offset g.pageSize_pos hstart, g.inPage_eq_of_offset g.pageSize_pos hstart⟩

/-- An address of the page, counted from its start. -/
theorem cells_pageStart {u x : Uintptr} (h : g.page x = g.page u) :
    cells (g.pageStart u) (g.inPage x) = x := by
  obtain ⟨hpage, hin⟩ := g.pageStart_spec u
  have hlt := g.inPage_lt x
  apply g.eq_of_page_inPage
  · rw [cells, g.page_add (by omega), hpage, h]
  · rw [cells, g.inPage_add (by omega), hin, Nat.zero_add]

variable {g} (hbits : g.pageBits < 31) (mem source : Memory) (src : Uintptr) {f : Nat}

/-- The bytes of a frame that has been filled. -/
theorem transfer_frame {o : Nat} (ho : o < g.pageSize) :
    transfer mem (g.frameAddress f 0) source src g.pageSize (g.frameAddress f o) =
      source (cells src o) := by
  have hsize := g.pageSize_lt
  have hadd := g.frameAddress_add f 0 o
  rw [Nat.zero_add] at hadd
  rw [hadd]
  exact transfer_cells_of_lt _ _ _ _ ho (by omega)

include hbits in
/-- The bytes of the other frames. -/
theorem transfer_frame_ne (hf : f < 2 ^ 16) {f' o : Nat} (hf' : f' < 2 ^ 16) (hne : f' ≠ f)
    (ho : o < g.pageSize) :
    transfer mem (g.frameAddress f 0) source src g.pageSize (g.frameAddress f' o) =
      mem (g.frameAddress f' o) := by
  refine transfer_of_ne _ _ _ _ fun i hi heq => hne ?_
  have hadd := g.frameAddress_add f 0 i
  rw [Nat.zero_add] at hadd
  unfold cells at heq
  rw [← hadd] at heq
  exact (g.frameAddress_inj hbits hf hf' hi ho heq).1.symm

end StoreGeometry

/-! ## A fetch -/

namespace PagedStore

variable {g : StoreGeometry} {dirty : Nat → Bool} {u x : Uintptr} {m : Machine PagedStore}

theorem byte_of_some {f : Nat} (h : m.store.frame (g.page x) = some f) :
    byte g m x = m.mem (g.frameAddress f (g.inPage x)) := by
  unfold byte
  rw [h]

theorem byte_of_none (h : m.store.frame (g.page x) = none) : byte g m x = m.store.stored x := by
  unfold byte
  rw [h]

theorem fetch_of_some {f : Nat} (h : m.store.frame (g.page u) = some f) :
    fetch g dirty u m = (f, m) := by
  unfold fetch
  rw [h]

theorem fetch_of_none (h : m.store.frame (g.page u) = none) : fetch g dirty u m =
    (m.store.frame.free m.store.kept, fill g dirty u (m.store.frame.free m.store.kept) m) := by
  unfold fetch
  rw [h]

theorem fetch_fst : (fetch g dirty u m).1 = (m.store.frame.load m.store.kept (g.page u)).1 := by
  unfold fetch FrameMap.load
  cases m.store.frame (g.page u) <;> rfl

theorem fetch_frame : (fetch g dirty u m).2.store.frame =
    (m.store.frame.load m.store.kept (g.page u)).2 := by
  unfold fetch FrameMap.load
  cases m.store.frame (g.page u) <;> rfl

theorem fetch_recent : (fetch g dirty u m).2.store.recent = m.store.recent := by
  unfold fetch
  cases m.store.frame (g.page u) <;> rfl

section Knows

variable {T : List Unsigned} (h : Knows T m.store)
include h

theorem Knows.kept_eq : m.store.kept = T.map BitVec.toNat := by
  unfold kept
  rw [h.recent]

theorem Knows.length_kept : m.store.kept.length ≤ tlbSize := by
  rw [h.kept_eq, List.length_map, h.length_eq]

/-- The store knows its TLB after a fetch, and the pages of the TLB are in their frames. -/
theorem fetch_knows : Knows T (fetch g dirty u m).2.store ∧ (fetch g dirty u m).1 ≤ tlbSize ∧
    (fetch g dirty u m).2.store.frame (g.page u) = some (fetch g dirty u m).1 ∧
    ∀ p f, p ∈ T.map BitVec.toNat ∨ p = g.page u → m.store.frame p = some f →
      (fetch g dirty u m).2.store.frame p = some f := by
  obtain ⟨hle, hself, hvalid, hkept⟩ := FrameMap.load_spec h.valid h.length_kept (g.page u)
  rw [fetch_fst, fetch_frame, ← h.kept_eq]
  refine ⟨⟨fetch_recent.trans h.recent, h.length_eq, ?_⟩, hle, hself, hkept⟩
  rw [fetch_frame]
  exact hvalid

variable (hnone : m.store.frame (g.page u) = none)
include hnone

/-- The evicted page is none of the TLB, and not the one that is fetched. -/
theorem not_spared_of_evicted {p : Nat} (hp : m.store.frame p = some (m.store.frame.free m.store.kept)) :
    p ∉ T.map BitVec.toNat ∧ p ≠ g.page u := by
  constructor
  · intro hmem
    exact (FrameMap.free_spec m.store.frame h.length_kept).2 p (h.kept_eq ▸ hmem) hp
  · rintro rfl
    rw [hnone] at hp
    cases hp

variable (hbits : g.pageBits < 31)
include hbits

/-- What a fetch does to a byte: one of the evicted page is what is stored after its write-back, and
all others stay. -/
theorem byte_fetch : byte g (fetch g dirty u m).2 x =
    if m.store.frame (g.page x) = some (m.store.frame.free m.store.kept) then
      writtenBack g dirty m (m.store.frame.free m.store.kept) x
    else byte g m x := by
  have hfree := (FrameMap.free_spec m.store.frame h.length_kept).1
  have hsize : tlbSize < 2 ^ 16 := by decide
  rw [fetch_of_none hnone]
  generalize m.store.frame.free m.store.kept = f at *
  have hstored : m.store.frame (g.page x) ≠ some f → writtenBack g dirty m f x = m.store.stored x :=
    fun hne => if_neg fun hin => hne hin.1
  by_cases hxu : g.page x = g.page u
  · have hxnone : m.store.frame (g.page x) = none := hxu ▸ hnone
    have hself : (fill g dirty u f m).store.frame (g.page x) = some f := by
      rw [hxu]
      exact FrameMap.moved_self _ _ _
    rw [if_neg (by simp [hxnone]), byte_of_some hself, byte_of_none hxnone]
    refine (StoreGeometry.transfer_frame _ _ _ (g.inPage_lt x)).trans ?_
    rw [g.cells_pageStart hxu]
    exact hstored (by simp [hxnone])
  · by_cases hxf : m.store.frame (g.page x) = some f
    · rw [if_pos hxf]
      exact byte_of_none (FrameMap.moved_evicted hxu hxf)
    · have hother : (fill g dirty u f m).store.frame (g.page x) = m.store.frame (g.page x) :=
        FrameMap.moved_other hxu hxf
      rw [if_neg hxf]
      cases hx : m.store.frame (g.page x) with
      | none =>
        rw [byte_of_none (hother.trans hx), byte_of_none hx]
        exact hstored hxf
      | some f' =>
        have hf' := h.valid.frame_le _ f' hx
        have hne : f' ≠ f := by
          rintro rfl
          exact hxf hx
        rw [byte_of_some (hother.trans hx), byte_of_some hx]
        exact StoreGeometry.transfer_frame_ne hbits _ _ _ (by omega) (by omega) hne (g.inPage_lt x)

end Knows

/-! ## The store -/

/-- The pages that the store writes back: all, or those it was told are dirty. -/
def writesBack (always : Bool) (st : PagedStore) (p : Nat) : Bool := always || st.told p

/-- A block of a size, or none, at the start of page `i`. -/
def setBlock (m : Machine PagedStore) (i : Nat) (size : Option Nat) : Machine PagedStore :=
  { m with store := { m.store with block := Function.update m.store.block i size } }

/-- The first page, from page 1 on, without a block. -/
def freeBlock (st : PagedStore) : Option Nat :=
  (List.range 256).find? fun i => decide (0 < i ∧ st.block i = none)

/-- Blocks of up to one page, in `lstore0` only. -/
def alloc (g : StoreGeometry) (s : StoreId) (size : SizeT) : EStateM Stop (Machine PagedStore) Uintptr := fun m =>
  match freeBlock m.store with
  | some i =>
    if s = .lstore0 ∧ size.toNat ≤ g.pageSize then
      .ok (g.storageBase + BitVec.ofNat 64 (i * g.pageSize)) (setBlock m i (some size.toNat))
    else .ok 0 m
  | none => .ok 0 m

def allocSize (g : StoreGeometry) (u : Uintptr) : EStateM Stop (Machine PagedStore) SizeT := fun m =>
  .ok (BitVec.ofNat 64 ((m.store.block (g.page u)).getD 0)) m

def free (g : StoreGeometry) (u : Uintptr) : EStateM Stop (Machine PagedStore) Unit := fun m =>
  .ok () (setBlock m (g.page u) none)

/-- The callbacks of the store. -/
def callbacks (always : Bool) (g : StoreGeometry) (s : StoreId) : PageCallbacks PagedStore where
  notifyTlbCached ptr := modify (cached g ptr)
  notifyTlbDropped ptr dirty := modify (dropped g ptr dirty)
  mpfHandlerC := handler g (writesBack always)
  lstoreAlloc := alloc g s
  lstoreAllocSize := allocSize g
  lstoreFree := free g

/-! ## The contract -/

/-- The pages in the frames of the store. -/
def cache (always : Bool) : StorageCache PagedStore where
  knows := Knows
  resident st := st.frame
  frames := tlbSize + 1
  stored st := st.stored
  knownDirty st p := writesBack always st p = true
  elsewhere _ := fun _ => 0

variable {always : Bool}

theorem cache_contents (m : Machine PagedStore) : (cache always).contents g m = byte g m := by
  funext x
  cases h : m.store.frame (g.page x) with
  | none =>
    rw [StorageCache.contents_of_absent (c := cache always) h, byte_of_none h]
    rfl
  | some f => rw [StorageCache.contents_of_resident (c := cache always) h, byte_of_some h]

section Fetch

variable {T : List Unsigned} (h : Knows T m.store) (hbits : g.pageBits < 31)
include h hbits

/-- A page that would survive an eviction, or is spared, keeps its bytes. -/
theorem contents_fetch (hx : (cache always).Saved g m (g.page x) ∨ Spared g T u (g.page x)) :
    byte g (fetch g (writesBack always m.store) u m).2 x = byte g m x := by
  cases hu : m.store.frame (g.page u) with
  | some f => rw [fetch_of_some hu]
  | none =>
    rw [byte_fetch h hu hbits]
    split
    · rename_i hevicted
      obtain ⟨hnot, hne⟩ := not_spared_of_evicted h hu hevicted
      rcases hx with hdirty | hspared
      · unfold writtenBack
        rcases hdirty with hdirty | hstored
        · rw [if_pos ⟨hevicted, hdirty⟩, byte_of_some hevicted]
        · have hsame := hstored x rfl
          rw [cache_contents] at hsame
          split
          · rw [byte_of_some hevicted]
          · exact hsame.symm
      · exact absurd hspared (not_or.mpr ⟨hnot, hne⟩)
    · rfl

/-- A page that would survive an eviction is one that would survive the next. -/
theorem saved_fetch {p : Nat} (hp : (cache always).Saved g m p) :
    (cache always).Saved g (fetch g (writesBack always m.store) u m).2 p := by
  have hcontents : ∀ x, g.page x = p →
      byte g (fetch g (writesBack always m.store) u m).2 x = byte g m x := by
    rintro x rfl
    exact contents_fetch h hbits (.inl hp)
  cases hu : m.store.frame (g.page u) with
  | some f =>
    rw [fetch_of_some hu]
    exact hp
  | none =>
    rw [fetch_of_none hu] at hcontents ⊢
    generalize m.store.frame.free m.store.kept = f at *
    by_cases hpf : m.store.frame p = some f
    · -- the page has been evicted
      right
      rintro x rfl
      have hne : g.page x ≠ g.page u := by
        intro heq
        rw [heq, hu] at hpf
        cases hpf
      exact StorageCache.contents_of_absent (c := cache always) (FrameMap.moved_evicted hne hpf)
    · have hstored : ∀ x, g.page x = p →
          writtenBack g (writesBack always m.store) m f x = m.store.stored x := by
        rintro x rfl
        exact if_neg fun hin => hpf hin.1
      by_cases hpu : p = g.page u
      · -- it has been fetched
        right
        intro x hx
        rw [cache_contents, hcontents x hx, byte_of_none (hx ▸ hpu ▸ hu)]
        exact (hstored x hx).symm
      · refine hp.imp ?_ ?_
        · intro hdirty
          have htold : (fill g (writesBack always m.store) u f m).store.told p = m.store.told p :=
            if_neg (not_or.mpr ⟨hpu, hpf⟩)
          change (always || _) = true
          rw [htold]
          exact hdirty
        · intro hsame x hx
          rw [cache_contents, hcontents x hx, ← cache_contents, hsame x hx]
          exact (hstored x hx).symm

omit h hbits in
/-- Memory outside the frames stays. -/
theorem mem_fetch (h : Knows T m.store) {a : Uintptr} (ha : ¬ (cache always).InCache g a) :
    (fetch g (writesBack always m.store) u m).2.mem a = m.mem a := by
  cases hu : m.store.frame (g.page u) with
  | some f => rw [fetch_of_some hu]
  | none =>
    rw [fetch_of_none hu]
    refine transfer_of_ne _ _ _ _ ?_
    rintro i hi rfl
    have hfree := (FrameMap.free_spec m.store.frame h.length_kept).1
    refine ha ⟨_, i, Nat.lt_succ_of_le hfree, hi, ?_⟩
    unfold cells
    rw [← g.frameAddress_add, Nat.zero_add]

theorem handlerKeeps_fetch : (cache always).HandlerKeeps g T u m
    (fetch g (writesBack always m.store) u m).2 where
  saved _ hp := saved_fetch h hbits hp
  contents x hx := by
    rw [cache_contents, cache_contents]
    exact contents_fetch h hbits hx
  resident p f hp hf := (fetch_knows h).2.2.2 p f hp hf
  outside a ha := mem_fetch h ha
  elsewhere := rfl

end Fetch

/-- The notifications of a miss tell the store what its TLB is, and which page is dirty. -/
theorem notifyKeeps {s : StoreId} {link : Uintptr → Int → Byte → Byte → Exec PagedStore Uintptr}
    {writeback : Uintptr → Int → Exec PagedStore Unit} (u : Uintptr) (e : TlbEntry)
    (m : Machine PagedStore) : ∃ m₁, DropStep ((callbacks always g s).lstore g s link writeback) u e m m₁ ∧
      m₁.store.recent = m.store.recent ∧ m₁.store.frame = m.store.frame ∧
      (cache always).NotifyKeeps g ((callbacks always g s).lstore g s link writeback) u e m (cached g u m₁) := by
  by_cases hpos : 0 ≤ e.bsPageIndex.toInt
  · refine ⟨_, (if_pos hpos).mpr rfl, rfl, rfl, rfl, rfl, rfl, rfl, ?_⟩
    intro p
    show (always || if _ then true else m.store.told p) = true ↔ (always || m.store.told p) = true ∨ _
    split
    · rename_i htold
      simp only [Bool.or_true, true_iff]
      exact .inr ⟨hpos, of_decide_eq_true htold.1, htold.2⟩
    · rename_i hnot
      refine (or_iff_left ?_).symm
      rintro ⟨-, hdirty, hpage⟩
      exact hnot ⟨decide_eq_true hdirty, hpage⟩
  · refine ⟨_, (if_neg hpos).mpr rfl, rfl, rfl, rfl, rfl, rfl, rfl, ?_⟩
    intro p
    refine (or_iff_left ?_).symm
    exact fun htold => hpos htold.notified

/-- The store meets its contract. -/
theorem cache_keeps (hbits : g.pageBits < 31) (s : StoreId) (pages : Nat)
    (link : Uintptr → Int → Byte → Byte → Exec PagedStore Uintptr)
    (writeback : Uintptr → Int → Exec PagedStore Unit) :
    (cache always).Keeps g ((callbacks always g s).lstore g s link writeback) pages where
  frames_le := show tlbSize + 1 ≤ 2 ^ 16 by decide
  resident_lt h hp := Nat.lt_succ_of_le (h.valid.frame_le _ _ hp)
  resident_inj h hp hq := h.valid.inj _ _ _ hp hq
  handler := by
    intro T u m h _ _
    obtain ⟨hknows, -, hself, -⟩ := @fetch_knows g (writesBack always m.store) u m T h
    exact ⟨_, _, rfl, hself, hknows, handlerKeeps_fetch h hbits⟩
  notified := by
    intro T u e m h _
    obtain ⟨m₁, hdrop, hrecent, hframe, hkeeps⟩ := @notifyKeeps g always s link writeback u e m
    refine ⟨m₁, _, hdrop, rfl, ⟨?_, ?_, ?_⟩, hkeeps⟩
    · show g.index u :: m₁.store.recent.dropLast = _
      rw [hrecent, h.recent]
    · rw [List.length_cons, List.length_dropLast, h.length_eq]
      rfl
    · show m₁.store.frame.Valid
      rw [hframe]
      exact h.valid

/-! ## A small instance -/

/-- The store at the four positions, with pages of 4 KiB. -/
def pagedEnv (always : Bool) : Env PagedStore :=
  PageCallbacks.env (callbacks always smallGeometry) fun _ => smallGeometry

/-- No page is in a frame, and no block is allocated. -/
def empty : PagedStore where
  frame _ := none
  recent := List.replicate tlbSize emptyIndex
  stored _ := 0
  told _ := false
  block _ := none

/-- The world after `__carmor_initialize_template` for `lstore0`. -/
def initialWorld (always : Bool) : World PagedStore :=
  PageCallbacks.initialWorld (callbacks always smallGeometry) (fun _ => smallGeometry) empty

theorem carmorInitialize_pagedEnv : ∃ w₀,
    carmorInitializeTemplate (pagedEnv always) .lstore0 0 w₀ = .ok 0 (initialWorld always) :=
  PageCallbacks.carmorInitialize_env _ _ _

theorem pagedEnv_cachedStore : CachedStore (pagedEnv always) .lstore0 smallGeometry :=
  PageCallbacks.env_cachedStore _ rfl

theorem pagedEnv_keeps :
    (cache always).Keeps smallGeometry ((pagedEnv always).stores .lstore0) 256 :=
  cache_keeps (by decide) .lstore0 256 _ _

/-- The store knows its TLB at the start. -/
theorem initialWorld_knows :
    Knows (List.replicate tlbSize emptyIndex) (initialWorld always).store where
  recent := rfl
  length_eq := List.length_replicate
  valid := FrameMap.valid_empty

theorem initialWorld_saved (p : Nat) :
    (cache always).Saved smallGeometry (initialWorld always).toMachine p :=
  .inr fun _ _ => StorageCache.contents_of_absent rfl

end PagedStore

end Carmor
