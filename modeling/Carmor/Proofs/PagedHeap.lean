import Carmor.Proofs.BlockHeap
import Carmor.Proofs.CrossPage

/-!
# Blocks in a store that evicts

`PagedStore` with blocks that start at its pages, which are many more than its frames. It writes
back all pages that it evicts, so a page fault keeps the flat memory. The page faults of a copy
between two pages hold both: when the second is fetched, the first has its entry in the TLB, and
then nothing is fetched any more.
-/

namespace Carmor

namespace PagedStore

/-! ## Flat memory -/

/-- The program's memory: 1 MiB at `0x400000`, and the storage of `lstore0`. -/
def pagedResidency : Residency PagedStore where
  geometry _ := smallGeometry
  native p := decide (0x400000 ≤ p.toNat ∧ p.toNat < 0x500000)
  frame st s p := if s = .lstore0 then st.frame p else none
  stored st p := if switchCase p = some .lstore0 then st.stored (makeOriginalPointer p) else 0

/-- The TLB holds pages with their frames, as the store knows. -/
def Mapped (w : World PagedStore) : Prop := ∃ ns, TlbMapped (cache true) ns w

theorem Mapped.valid {w : World PagedStore} (h : Mapped w) : w.store.frame.Valid := by
  obtain ⟨ns, hns⟩ := h
  exact hns.knows.valid

/-- The address of a frame, as a number. -/
theorem toNat_frameAddress {f o : Nat} (hf : f ≤ tlbSize) (ho : o < smallGeometry.pageSize) :
    (smallGeometry.frameAddress f o).toNat = 0x100000 + (f * 0x1000 + o) := by
  change o < 0x1000 at ho
  change f ≤ 5 at hf
  show ((0x100000 : Uintptr) + BitVec.ofNat 64 (f * 0x1000 + o)).toNat = _
  have hbase : (0x100000 : Uintptr).toNat = 0x100000 := rfl
  rw [toNat_add_ofNat (by omega), hbase]

section Place

variable {st : PagedStore} (hst : st.frame.Valid) {p q a : Uintptr}

theorem place_tagged_eq_some {s : StoreId} (htag : switchCase p = some s)
    (h : pagedResidency.place st p = some a) : s = .lstore0 ∧ ∃ f,
      st.frame (smallGeometry.page (makeOriginalPointer p)) = some f ∧
      a = smallGeometry.frameAddress f (smallGeometry.inPage (makeOriginalPointer p)) := by
  rw [pagedResidency.place_tagged htag, Option.map_eq_some_iff] at h
  obtain ⟨f, hf, rfl⟩ := h
  change (if s = .lstore0 then st.frame _ else none) = some f at hf
  split at hf
  · rename_i hs
    exact ⟨hs, f, hf, rfl⟩
  · cases hf

theorem place_native_eq_some (htag : switchCase p = none)
    (h : pagedResidency.place st p = some a) : a = p ∧ 0x400000 ≤ p.toNat := by
  rw [pagedResidency.place_native htag] at h
  split at h
  · rename_i hnative
    exact ⟨(Option.some.inj h).symm, (of_decide_eq_true hnative).1⟩
  · cases h

include hst

theorem place_injective (hp : pagedResidency.place st p = some a)
    (hq : pagedResidency.place st q = some a) : p = q := by
  have hbelow : ∀ {r : Uintptr} {s f}, st.frame (smallGeometry.page r) = some f →
      a = smallGeometry.frameAddress f (smallGeometry.inPage r) →
      switchCase s = none → pagedResidency.place st s ≠ some a := by
    intro r s f hf ha htag hs
    obtain ⟨rfl, hlo⟩ := place_native_eq_some htag hs
    have hle : f ≤ 5 := hst.frame_le _ _ hf
    have hin : smallGeometry.inPage r < 0x1000 := smallGeometry.inPage_lt r
    rw [ha, toNat_frameAddress hle hin] at hlo
    omega
  cases htagp : switchCase p with
  | none =>
    obtain ⟨rfl, -⟩ := place_native_eq_some htagp hp
    cases htagq : switchCase q with
    | none => exact (place_native_eq_some htagq hq).1
    | some t =>
      obtain ⟨-, f, hf, ha⟩ := place_tagged_eq_some htagq hq
      exact absurd hp (hbelow hf ha htagp)
  | some s =>
    obtain ⟨rfl, f, hf, ha⟩ := place_tagged_eq_some htagp hp
    cases htagq : switchCase q with
    | none => exact absurd hq (hbelow hf ha htagq)
    | some t =>
      obtain ⟨rfl, f', hf', ha'⟩ := place_tagged_eq_some htagq hq
      have hle : f ≤ 5 := hst.frame_le _ _ hf
      have hle' : f' ≤ 5 := hst.frame_le _ _ hf'
      obtain ⟨rfl, hin⟩ := smallGeometry.frameAddress_inj (by decide) (by omega) (by omega)
        (smallGeometry.inPage_lt _) (smallGeometry.inPage_lt _) (ha.symm.trans ha')
      rw [eq_makeMstorePtr_of_switchCase htagp, eq_makeMstorePtr_of_switchCase htagq,
        smallGeometry.eq_of_page_inPage (hst.inj _ _ _ hf hf') hin]

end Place

/-- The flat memory at a pointer of `lstore0`. -/
theorem flat_tagged {p : Uintptr} (htag : switchCase p = some .lstore0) (m : Machine PagedStore) :
    pagedResidency.flat m p = byte smallGeometry m (makeOriginalPointer p) := by
  have hplace : pagedResidency.place m.store p = (m.store.frame
      (smallGeometry.page (makeOriginalPointer p))).map fun f =>
        smallGeometry.frameAddress f (smallGeometry.inPage (makeOriginalPointer p)) :=
    pagedResidency.place_tagged htag m.store
  cases hf : m.store.frame (smallGeometry.page (makeOriginalPointer p)) with
  | none =>
    rw [hf, Option.map_none] at hplace
    rw [byte_of_none hf]
    unfold Residency.flat Lib.read
    rw [hplace]
    exact if_pos htag
  | some f =>
    rw [hf, Option.map_some] at hplace
    rw [byte_of_some hf]
    exact Lib.read_of_place hplace

/-- Machines with the same bytes in `lstore0` and the same native memory are the same to the
program. -/
theorem flat_congr {m m' : Machine PagedStore}
    (hbyte : ∀ x, byte smallGeometry m' x = byte smallGeometry m x)
    (hnative : ∀ a : Uintptr, 0x400000 ≤ a.toNat → m'.mem a = m.mem a) :
    pagedResidency.flat m' = pagedResidency.flat m := by
  funext p
  cases htag : switchCase p with
  | some s =>
    by_cases hs : s = .lstore0
    · subst hs
      rw [flat_tagged htag, flat_tagged htag, hbyte]
    · have hplace : ∀ st, pagedResidency.place st p = none := by
        intro st
        rw [pagedResidency.place_tagged htag]
        show (if s = .lstore0 then _ else none).map _ = none
        rw [if_neg hs, Option.map_none]
      have hstored : ∀ st, pagedResidency.stored st p = 0 := by
        intro st
        refine if_neg ?_
        rw [htag]
        exact fun heq => hs (Option.some.inj heq)
      unfold Residency.flat Lib.read
      rw [hplace, hplace, hstored, hstored]
  | none =>
    have hplace := pagedResidency.place_native htag
    have hstored : ∀ st, pagedResidency.stored st p = 0 := by
      intro st
      refine if_neg ?_
      rw [htag]
      simp
    unfold Residency.flat Lib.read
    rw [hplace, hplace, hstored, hstored]
    by_cases hnat : pagedResidency.native p = true
    · rw [if_pos hnat]
      exact hnative p (of_decide_eq_true hnat).1
    · rw [if_neg hnat]

/-! ## Page faults -/

theorem fetch_block {g : StoreGeometry} {dirty : Nat → Bool} {u : Uintptr} {m : Machine PagedStore} :
    (fetch g dirty u m).2.store.block = m.store.block := by
  unfold fetch
  cases m.store.frame (g.page u) <;> rfl

/-- A passage through the TLB leaves the blocks alone, and the frames if the page is in one. -/
theorem linkStep_store {always : Bool} {u a : Uintptr} {ptrSize : Int} {dirty : Byte}
    {w w' : World PagedStore} (h : LinkStep (pagedEnv always) .lstore0 u ptrSize dirty w a w') :
    w'.store.block = w.store.block ∧
      (w.store.frame (smallGeometry.page u) ≠ none → w'.store.frame = w.store.frame) := by
  cases h with
  | hit => exact ⟨rfl, fun _ => rfl⟩
  | @miss _ m₁ m₂ m₃ hlookup hhandler hdrop hcached hsize =>
    cases hhandler
    cases hcached
    generalize writesBack always w.store = back at hdrop hsize
    have hstore : m₂.store.block = (fetch smallGeometry back u w.toMachine).2.store.block ∧
        m₂.store.frame = (fetch smallGeometry back u w.toMachine).2.store.frame := by
      unfold DropStep at hdrop
      split at hdrop
      · cases hdrop
        exact ⟨rfl, rfl⟩
      · rw [hdrop]
        exact ⟨rfl, rfl⟩
    refine ⟨hstore.1.trans fetch_block, ?_⟩
    intro hne
    obtain ⟨f, hf⟩ := Option.ne_none_iff_exists'.mp hne
    exact hstore.2.trans (by rw [fetch_of_some hf])

/-- Between page faults of a copy between the pages `a` and `b`: the pages `K` are in frames, and have
their entries as long as one of the two is in none. -/
structure PagesHeld (a b : Nat) (blocks : Nat → Option Nat) (K : Set PageOf)
    (w : World PagedStore) : Prop where
  mapped : Mapped w
  block : w.store.block = blocks
  held : ∀ q ∈ K, q.1 = .lstore0 ∧ (q.2 = a ∨ q.2 = b) ∧ w.store.frame q.2 ≠ none
  entry : w.store.frame a = none ∨ w.store.frame b = none → ∀ q ∈ K, (w.tlb .gtTLB).HasPage q.2

section Held

variable {a b : Nat} {blocks : Nat → Option Nat} {K : Set PageOf} {w : World PagedStore}

theorem PagesHeld.congr (h : PagesHeld a b blocks K w) {w' : World PagedStore}
    (htlb : w'.tlb = w.tlb) (hstore : w'.store = w.store) : PagesHeld a b blocks K w' := by
  obtain ⟨ns, hns⟩ := h.mapped
  refine ⟨⟨ns, hns.congr (by rw [htlb]) hstore⟩, ?_, ?_, ?_⟩
  · rw [hstore]
    exact h.block
  · rw [hstore]
    exact h.held
  · rw [hstore, htlb]
    exact h.entry

/-- Of two pages of which one is in no frame, those in frames are the same. -/
theorem eq_of_missing {frame : Nat → Option Nat} {p q : Nat} (hp : p = a ∨ p = b)
    (hq : q = a ∨ q = b) (hpheld : frame p ≠ none) (hqheld : frame q ≠ none)
    (hnone : frame a = none ∨ frame b = none) : q = p := by
  rcases hp with rfl | rfl <;> rcases hq with rfl | rfl <;> simp_all

/-- A page fault on one of the two pages. -/
theorem PagesHeld.fault (h : PagesHeld a b blocks K w) {p : Uintptr}
    (htag : switchCase p = some .lstore0) (ha : a < 256) (hb : b < 256)
    (hp : smallGeometry.page (makeOriginalPointer p) = a ∨
      smallGeometry.page (makeOriginalPointer p) = b) (dirty : Byte) : ∃ f w',
    carmorPageFault (pagedEnv true) p dirty w = .ok (smallGeometry.frameAddress f
      (smallGeometry.inPage (makeOriginalPointer p))) w' ∧
    w'.store.frame (smallGeometry.page (makeOriginalPointer p)) = some f ∧
    PagesHeld a b blocks (insert (.lstore0, smallGeometry.page (makeOriginalPointer p)) K) w' ∧
    (∀ q ∈ K, w'.store.frame q.2 = w.store.frame q.2) ∧
    pagedResidency.flat w'.toMachine = pagedResidency.flat w.toMachine := by
  obtain ⟨ns, hns⟩ := h.mapped
  have hstore := pagedEnv_crossPageStore true
  obtain ⟨f, w', hrun, hresident, hkeeps, -⟩ :=
    exists_pageFaultKeeps hstore hns htag (by omega) dirty
  change w'.store.frame _ = some f at hresident
  obtain ⟨hblock, hframes⟩ :=
    linkStep_store ((carmorPageFault_eq_ok hstore.geometry hstore.link htag).mp hrun)
  change _ = w.store.block at hblock
  change w.store.frame _ ≠ none → _ = w.store.frame at hframes
  -- a page that is fetched finds the other one in the TLB
  have hheld : ∀ q ∈ K, w'.store.frame q.2 = w.store.frame q.2 := by
    intro q hq
    obtain ⟨-, hqp, hne⟩ := h.held q hq
    by_cases hfetched : w.store.frame (smallGeometry.page (makeOriginalPointer p)) = none
    · obtain ⟨f', hf'⟩ := Option.ne_none_iff_exists'.mp hne
      have hmissing : w.store.frame a = none ∨ w.store.frame b = none := by
        rcases hp with rfl | rfl
        · exact .inl hfetched
        · exact .inr hfetched
      have hentry := h.entry hmissing q hq
      rw [hf']
      exact hkeeps.resident q.2 f' hentry hf'
    · rw [hframes hfetched]
  refine ⟨f, w', hrun, hresident, ⟨⟨_, hkeeps.mapped⟩, hblock.trans h.block, ?_, ?_⟩, hheld, ?_⟩
  · rintro q (rfl | hq)
    · exact ⟨rfl, hp, by simp [hresident]⟩
    · rw [hheld q hq]
      exact h.held q hq
  · rintro hnone q (rfl | hq)
    · exact hkeeps.hasPage
    · obtain ⟨-, hqp, hne⟩ := h.held q hq
      rw [← hheld q hq] at hne
      rw [eq_of_missing hp hqp (by simp [hresident]) hne hnone]
      exact hkeeps.hasPage
  · apply flat_congr
    · intro x
      have hcontents := hkeeps.contents x (.inl (.inl rfl))
      rw [cache_contents, cache_contents] at hcontents
      exact hcontents
    · intro x hx
      refine hkeeps.outside x ?_
      rintro ⟨f', o, hf', ho, rfl⟩
      change f' < 6 at hf'
      change o < 0x1000 at ho
      rw [toNat_frameAddress (show f' ≤ 5 by omega) ho] at hx
      omega

/-- The page faults of a copy between two pages hold. -/
theorem faultsHeld (ha : a < 256) (hb : b < 256) {R : Set Uintptr}
    (hR : ∀ p ∈ R, ∀ s, switchCase p = some s → s = .lstore0 ∧
      (smallGeometry.page (makeOriginalPointer p) = a ∨
        smallGeometry.page (makeOriginalPointer p) = b)) :
    FaultsHeld (pagedEnv true) pagedResidency R (PagesHeld a b blocks) where
  place_inj h hp hq := place_injective h.mapped.valid hp hq
  write h _ := h.congr rfl rfl
  log h := h.congr rfl rfl
  fault := by
    intro K w p s dirty h hp htag
    obtain ⟨rfl, hpage⟩ := hR p hp s htag
    obtain ⟨f, w', hrun, hframe, hheld, hkept, hflat⟩ := h.fault htag ha hb hpage dirty
    refine ⟨f, w', hrun, hframe, hheld, ?_, hflat⟩
    intro q hq
    obtain ⟨hs, -⟩ := h.held q hq
    show (if q.1 = .lstore0 then _ else none) = (if q.1 = .lstore0 then _ else none)
    rw [if_pos hs, if_pos hs, hkept q hq]

end Held

/-! ## Blocks -/

/-- The pointer of the block that starts page `i`. -/
def blockPtr (i : Nat) : Uintptr := makeMstorePtr .lstore0 (BitVec.ofNat 64 (i * 0x1000))

/-- The live blocks, from page 1 to page 255. -/
def liveBlocks (st : PagedStore) : Lib.Blocks Uintptr := fun p =>
  let i := smallGeometry.page (makeOriginalPointer p)
  if p = blockPtr i ∧ 0 < i ∧ i < 256 then st.block i else none

/-- Its blocks are at most a page long. -/
def pagedHeap : BlockHeap PagedStore where
  residency := pagedResidency
  live := liveBlocks
  inv w := Mapped w ∧ ∀ i k, w.store.block i = some k → k ≤ 0x1000

section Block

variable {i : Nat} (hi : i < 256)
include hi

theorem cells_blockPtr {o : Nat} (ho : o ≤ 0x1000) :
    cells (blockPtr i) o = makeMstorePtr .lstore0 (BitVec.ofNat 64 (i * 0x1000 + o)) :=
  cells_makeMstorePtr _ (by omega)

theorem page_blockPtr {o : Nat} (ho : o < 0x1000) :
    smallGeometry.page (makeOriginalPointer (cells (blockPtr i) o)) = i := by
  have hnat := toNat_ofNat_of_lt (show i * 0x1000 + o < 2 ^ 64 by omega)
  rw [cells_blockPtr hi (by omega), makeOriginalPointer_makeMstorePtr _ (by omega)]
  show (BitVec.ofNat 64 (i * 0x1000 + o) - 0#64).toNat / 0x1000 = i
  rw [BitVec.sub_zero, hnat]
  omega

theorem page_blockPtr_zero : smallGeometry.page (makeOriginalPointer (blockPtr i)) = i := by
  have hpage := page_blockPtr hi (show 0 < 0x1000 by decide)
  rwa [cells_zero] at hpage

theorem switchCase_cells_blockPtr {o : Nat} (ho : o ≤ 0x1000) :
    switchCase (cells (blockPtr i) o) = some .lstore0 := by
  have hnat := toNat_ofNat_of_lt (show i * 0x1000 + o < 2 ^ 64 by omega)
  rw [cells_blockPtr hi ho]
  exact switchCase_makeMstorePtr _ (by omega)

theorem switchCase_blockPtr : switchCase (blockPtr i) = some .lstore0 := by
  have htag := switchCase_cells_blockPtr hi (Nat.zero_le 0x1000)
  rwa [cells_zero] at htag

theorem liveBlocks_blockPtr (hpos : 0 < i) (st : PagedStore) :
    liveBlocks st (blockPtr i) = st.block i := by
  unfold liveBlocks
  simp only [page_blockPtr_zero hi, hpos, hi, and_self, if_true]

end Block

theorem live_blockPtr {i : Nat} (hpos : 0 < i) (hi : i < 256) (st : PagedStore) :
    pagedHeap.live st (blockPtr i) = st.block i := liveBlocks_blockPtr hi hpos st

theorem liveBlocks_eq_some {st : PagedStore} {p : Uintptr} {k : Nat} (h : liveBlocks st p = some k) :
    ∃ i, p = blockPtr i ∧ 0 < i ∧ i < 256 ∧ st.block i = some k := by
  unfold liveBlocks at h
  simp only [] at h
  split at h
  · rename_i hblock
    exact ⟨_, hblock.1, hblock.2.1, hblock.2.2, h⟩
  · cases h

/-- Setting a block changes the one at its pointer. -/
theorem liveBlocks_setBlock (m : Machine PagedStore) {i : Nat} (hpos : 0 < i) (hi : i < 256)
    (size : Option Nat) : liveBlocks (setBlock m i size).store =
      Function.update (liveBlocks m.store) (blockPtr i) size := by
  funext p
  by_cases hp : p = blockPtr i
  · subst hp
    rw [Function.update_self, liveBlocks_blockPtr hi hpos]
    exact Function.update_self _ _ _
  · rw [Function.update_of_ne hp]
    unfold liveBlocks
    simp only []
    split
    · rename_i hblock
      refine Function.update_of_ne ?_ _ _
      intro heq
      exact hp (heq ▸ hblock.1)
    · rfl

theorem freeBlock_eq_some {st : PagedStore} {i : Nat} (h : freeBlock st = some i) :
    0 < i ∧ i < 256 ∧ st.block i = none := by
  unfold freeBlock at h
  have hfound := List.find?_some h
  obtain ⟨hpos, hnone⟩ := of_decide_eq_true hfound
  exact ⟨hpos, List.mem_range.mp (List.mem_of_find?_eq_some h), hnone⟩

theorem alloc_eq_ok {s : StoreId} {size : SizeT} {b : Uintptr} {m m' : Machine PagedStore}
    (h : alloc smallGeometry s size m = .ok b m') (hb : b ≠ 0) :
    s = .lstore0 ∧ ∃ i, 0 < i ∧ i < 256 ∧ m.store.block i = none ∧ size.toNat ≤ 0x1000 ∧
      b = BitVec.ofNat 64 (i * 0x1000) ∧ m' = setBlock m i (some size.toNat) := by
  unfold alloc at h
  split at h
  · rename_i i hfree
    obtain ⟨hpos, hi, hnone⟩ := freeBlock_eq_some hfree
    split at h
    · rename_i hcond
      cases h
      exact ⟨hcond.1, i, hpos, hi, hnone, hcond.2, BitVec.zero_add _, rfl⟩
    · cases h
      exact absurd rfl hb
  · cases h
    exact absurd rfl hb

section Heap

variable {w : World PagedStore} (hinv : pagedHeap.inv w)
include hinv

theorem inv_setBlock (i : Nat) (size : Option Nat) (hsize : ∀ k, size = some k → k ≤ 0x1000) :
    pagedHeap.inv (w.withMachine (setBlock w.toMachine i size)) := by
  obtain ⟨⟨ns, hns⟩, hblock⟩ := hinv
  have hknows : Knows (w.tlb .gtTLB).pages (setBlock w.toMachine i size).store :=
    ⟨hns.knows.recent, hns.knows.length_eq, hns.knows.valid⟩
  refine ⟨⟨ns, hknows, ⟨hns.noted.distinct, hns.noted.small, hns.noted.notes⟩, hns.mapped⟩, ?_⟩
  intro j k hj
  change Function.update w.store.block i size j = some k at hj
  by_cases hji : j = i
  · subst hji
    rw [Function.update_self] at hj
    exact hsize k hj
  · rw [Function.update_of_ne hji] at hj
    exact hblock j k hj

theorem allocated {i : Nat} (hpos : 0 < i) (hi : i < 256) (hnone : w.store.block i = none)
    {size : SizeT} (hsize : size.toNat ≤ 0x1000) :
    pagedHeap.Allocated .lstore0 size w.toMachine (BitVec.ofNat 64 (i * 0x1000))
      (setBlock w.toMachine i (some size.toNat)) size.toNat := by
  have hnat := toNat_ofNat_of_lt (show i * 0x1000 < 2 ^ 64 by omega)
  refine ⟨Nat.le_refl _, by omega, by omega, ?_, ?_, ?_, fun _ _ _ _ _ => rfl⟩
  · exact (liveBlocks_blockPtr hi hpos _).trans hnone
  · intro q j hq o ho o' ho' heq
    obtain ⟨i', rfl, -, hi', hlive⟩ := liveBlocks_eq_some hq
    have hj := hinv.2 i' j hlive
    have hpage := page_blockPtr hi (show o < 0x1000 by omega)
    have hpage' := page_blockPtr hi' (show o' < 0x1000 by omega)
    change cells (blockPtr i) o = _ at heq
    rw [heq, hpage'] at hpage
    rw [hpage, hnone] at hlive
    cases hlive
  · exact liveBlocks_setBlock w.toMachine hpos hi _

end Heap

theorem pagedHeap_keeps : pagedHeap.Keeps (pagedEnv true) where
  log := by
    rintro w e ⟨⟨ns, hns⟩, hblock⟩
    exact ⟨⟨ns, hns.congr rfl rfl⟩, hblock⟩
  tag _ := rfl
  alloc := by
    intro w s size b m hinv _ hrun hb
    obtain ⟨rfl, i, hpos, hi, hnone, hsize, rfl, rfl⟩ := alloc_eq_ok hrun hb
    refine ⟨inv_setBlock hinv i _ ?_, _, allocated hinv hpos hi hnone hsize⟩
    rintro k ⟨⟩
    exact hsize
  allocSize := by
    intro w s p k hinv hlive htag
    obtain ⟨i, rfl, -, hi, hsize⟩ := liveBlocks_eq_some hlive
    refine ⟨w.toMachine, ?_, hinv, rfl, fun _ _ _ _ _ => rfl⟩
    show EStateM.Result.ok (BitVec.ofNat 64 ((w.store.block _).getD 0)) w.toMachine = _
    rw [page_blockPtr_zero hi, hsize]
    rfl
  free := by
    intro w s p k hinv hlive htag
    obtain ⟨i, rfl, hpos, hi, hsize⟩ := liveBlocks_eq_some hlive
    refine ⟨setBlock w.toMachine i none, ?_, inv_setBlock hinv i none (by simp),
      liveBlocks_setBlock w.toMachine hpos hi none, fun _ _ _ _ _ => rfl⟩
    show EStateM.Result.ok () (setBlock w.toMachine (smallGeometry.page _) none) = _
    rw [page_blockPtr_zero hi]

theorem pagedEnv_bulkStore : BulkStore (pagedEnv true) pagedResidency .lstore0 where
  ne_lstore3 := by decide
  isCached := rfl
  geometry := ⟨rfl, rfl, rfl, fun _ => rfl⟩
  pageBits := by decide
  link := Or.inl rfl

/-- The operands of a copy between two blocks are on two pages. -/
theorem operandPtrs_blocks {i j k : Nat} (hi : i < 256) (hj : j < 256) (hk : k ≤ 0x1000) :
    ∀ p ∈ operandPtrs (blockPtr i) (blockPtr j) k, ∀ s, switchCase p = some s → s = .lstore0 ∧
      (smallGeometry.page (makeOriginalPointer p) = i ∨
        smallGeometry.page (makeOriginalPointer p) = j) := by
  rintro p ⟨o, ho, rfl | rfl⟩ s htag
  · rw [switchCase_cells_blockPtr hi (by omega)] at htag
    exact ⟨(Option.some.inj htag).symm, .inl (page_blockPtr hi (by omega))⟩
  · rw [switchCase_cells_blockPtr hj (by omega)] at htag
    exact ⟨(Option.some.inj htag).symm, .inr (page_blockPtr hj (by omega))⟩

/-- Before the first page fault nothing is held. -/
theorem pagesHeld_empty {w : World PagedStore} (hinv : pagedHeap.inv w) (a b : Nat) :
    PagesHeld a b w.store.block ∅ w := by
  refine ⟨hinv.1, rfl, ?_, ?_⟩
  · rintro q ⟨⟩
  · rintro - q ⟨⟩

/-- The page faults of a copy between two blocks behave. -/
theorem copyHeld {w : World PagedStore} (hinv : pagedHeap.inv w) {i j k : Nat} (hi : i < 256)
    (hj : j < 256) (hk : k ≤ 0x1000) :
    pagedHeap.CopyHeld (pagedEnv true) (blockPtr i) (blockPtr j) k w := by
  refine ⟨PagesHeld i j w.store.block, faultsHeld hi hj (operandPtrs_blocks hi hj hk),
    pagesHeld_empty hinv i j, ?_⟩
  intro K w' h
  refine ⟨⟨h.mapped, h.block ▸ hinv.2⟩, ?_⟩
  show liveBlocks w'.store = liveBlocks w.store
  unfold liveBlocks
  rw [h.block]

/-- Page faults behave for every `__carmor_realloc` of a live block. -/
theorem faultsBehave {w : World PagedStore} (hinv : pagedHeap.inv w) {p : Uintptr} {k : Nat}
    (hlive : pagedHeap.live w.store p = some k) (size : SizeT) :
    pagedHeap.FaultsBehave (pagedEnv true) p size w := by
  intro s n w₁ b w₂ htag hquery _ hnew hb
  obtain ⟨j, rfl, hpos, hj, hsize⟩ := liveBlocks_eq_some hlive
  have hk := hinv.2 j k hsize
  cases htag.symm.trans (switchCase_blockPtr hj)
  have hquery' : lstoreAllocSize (pagedEnv true) .lstore0 (makeOriginalPointer (blockPtr j)) w =
      .ok (BitVec.ofNat 64 k) (w.log (.lstoreAllocSize .lstore0 (makeOriginalPointer (blockPtr j)))) := by
    show EStateM.Result.ok (BitVec.ofNat 64 ((w.store.block _).getD 0)) _ = _
    rw [page_blockPtr_zero hj, hsize]
    rfl
  cases hquery.symm.trans hquery'
  obtain ⟨m, hrun, rfl⟩ := lstoreAlloc_eq_ok.mp hnew
  obtain ⟨-, i, -, hi, -, hnewSize, rfl, rfl⟩ := alloc_eq_ok hrun hb
  have hlogged := pagedHeap_keeps.log (e := .lstoreAllocSize .lstore0 (makeOriginalPointer (blockPtr j)))
    hinv
  have hinv₂ := pagedHeap_keeps.log (e := .lstoreAlloc .lstore0 size (BitVec.ofNat 64 (i * 0x1000)))
    (inv_setBlock hlogged i (some size.toNat) (by
      rintro k ⟨⟩
      exact hnewSize))
  rw [toNat_ofNat_of_lt (show k < 2 ^ 64 by omega)]
  exact copyHeld hinv₂ hi hj hk

/-- An allocation succeeds if a page is free. -/
theorem allocSucceeds_of_free {w : World PagedStore} {i : Nat} (hfree : freeBlock w.store = some i)
    {size : SizeT} (hsize : size.toNat ≤ 0x1000) {p : Uintptr}
    (htag : switchCase p = some .lstore0) :
    BlockHeap.AllocSucceeds (pagedEnv true) p size w := by
  intro s n m htag' hquery _
  cases htag'.symm.trans htag
  cases hquery
  obtain ⟨hpos, hi, -⟩ := freeBlock_eq_some hfree
  refine ⟨0 + BitVec.ofNat 64 (i * 0x1000), setBlock w.toMachine i (some size.toNat), ?_, ?_⟩
  · show alloc smallGeometry .lstore0 size w.toMachine = _
    unfold alloc
    rw [hfree]
    exact if_pos ⟨rfl, hsize⟩
  · intro hzero
    have hnat := congrArg BitVec.toNat hzero
    rw [show (0 : Uintptr) + BitVec.ofNat 64 (i * 0x1000) = _ from BitVec.zero_add _,
      toNat_ofNat_of_lt (by omega)] at hnat
    change _ = 0 at hnat
    omega

/-- Link calls inside pages keep the heap. -/
theorem inv_of_links {calls : List LinkCall} (hcalls : ∀ c ∈ calls, c.InPage .lstore0 smallGeometry 256)
    {w w' : World PagedStore} (hrun : Lib.Run (LinkCall.Step (pagedEnv true) .lstore0) w calls w')
    (hinv : pagedHeap.inv w) : pagedHeap.inv w' ∧ w'.store.block = w.store.block := by
  induction hrun with
  | nil w => exact ⟨hinv, rfl⟩
  | @cons w w₁ w' call calls hstep _ ih =>
    have hstore := pagedEnv_crossPageStore true
    have hcall := hcalls call List.mem_cons_self
    obtain ⟨⟨ns, hns⟩, hblock⟩ := hinv
    obtain ⟨f, w₂, hlink, -, hkeeps⟩ := exists_linkKeeps hstore.toCachedStore hstore.pages_le
      hcall.page_lt hstore.keeps hstore.pageBits_lt hns hcall.nonneg hcall.inPage call.dirty
    obtain ⟨a, hrun₁⟩ := hstep
    cases hrun₁.symm.trans (LinkCall.exec_inPage hstore.geometry hstore.pageBits_lt hcall hlink)
    have hsame := (linkStep_store hlink).1
    obtain ⟨hinv', hblock'⟩ := ih (fun c hc => hcalls c (List.mem_cons_of_mem _ hc))
      ⟨⟨_, hkeeps.mapped⟩, hsame ▸ hblock⟩
    exact ⟨hinv', hblock'.trans hsame⟩

theorem initialWorld_inv : pagedHeap.inv (initialWorld true) := by
  refine ⟨⟨_, (threadSynced_initialWorld true).synced.toTlbMapped⟩, ?_⟩
  intro i k hi
  cases hi

theorem liveBlocks_initialWorld (p : Uintptr) : liveBlocks (initialWorld true).store p = none := by
  unfold liveBlocks
  simp only []
  split
  · rfl
  · rfl

end PagedStore

end Carmor
