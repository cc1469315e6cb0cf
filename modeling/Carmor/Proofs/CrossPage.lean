import Carmor.Proofs.PagedStore

/-!
# Accesses that cross a page

`__carmor_link_cached_cross_page` gathers the bytes of an access from two pages in
`gt_CrossPageBuffer`, and `__carmor_writeback_cached_cross_page` scatters the buffer over the two
pages. The second of the two page faults may evict the TLB entry of the first page, but not the
page. In a run in which the drop of every dirty entry reaches its page no byte is lost; a dirty page
whose notification goes elsewhere may be evicted as it was fetched.
-/

namespace Carmor

variable {σ : Type} {c : StorageCache σ} {env : Env σ} {s : StoreId} {g : StoreGeometry}
  {pages : Nat} {ns : PageNotes}

/-- A cached store that keeps its storage in the cache `c`, with `gt_CrossPageBuffer` outside the
frames. -/
structure CrossPageStore (c : StorageCache σ) (env : Env σ) (s : StoreId) (g : StoreGeometry)
    (pages : Nat) : Prop extends CachedStore env s g where
  keeps : c.Keeps g (env.stores s) pages
  pageBits_lt : g.pageBits < 31
  pages_le : pages ≤ 2 ^ 31
  buffer_outside : ∀ i < 64, ¬ c.InCache g (cells env.gtCrossPageBuffer i)

/-- An access of `n` bytes at `p` that starts in one page of the store and ends in the next. -/
structure CrossAccess (s : StoreId) (g : StoreGeometry) (pages : Nat) (p : Uintptr) (n : Nat) :
    Prop where
  tagged : switchCase p = some s
  size_le : n ≤ 64
  size_le_page : n ≤ g.pageSize
  crosses : g.pageSize < g.inPage (makeOriginalPointer p) + n
  page_lt : g.page (makeOriginalPointer p) + 1 < pages
  inStore : (makeOriginalPointer p).toNat + n ≤ 2 ^ 60

/-- The bytes up to the end of the page. -/
def StoreGeometry.restOf (g : StoreGeometry) (u : Uintptr) : Nat := g.pageSize - g.inPage u

section Geometry

variable (g : StoreGeometry) (u : Uintptr)

theorem inPage_add_restOf : g.inPage u + g.restOf u = g.pageSize := by
  have hlt := g.inPage_lt u
  unfold StoreGeometry.restOf
  omega

/-- The next page starts behind the rest of the page. -/
theorem page_cells_restOf (hpage : g.page u + 1 < 2 ^ (64 - g.pageBits)) :
    g.page (cells u (g.restOf u)) = g.page u + 1 := by
  have hrest := inPage_add_restOf g u
  have hoff := g.offset_eq u
  have hend : (g.page u + 1) * g.pageSize + g.pageSize ≤ 2 ^ 64 := by
    have hle := Nat.mul_le_mul_right g.pageSize (show g.page u + 1 + 1 ≤ _ from hpage)
    rw [Nat.mul_comm (2 ^ _), g.pageSize_mul, Nat.add_mul _ 1, Nat.one_mul] at hle
    exact hle
  have hpos := g.pageSize_pos
  have hsub : cells u (g.restOf u) - g.storageBase =
      u - g.storageBase + BitVec.ofNat 64 (g.restOf u) := by
    unfold cells
    bv_omega
  rw [Nat.add_mul, Nat.one_mul] at hend
  apply g.page_eq_of_offset hpos (o := 0)
  rw [StoreGeometry.offset, hsub, toNat_add_ofNat]
  · change g.offset u + g.restOf u = _
    rw [Nat.add_mul, Nat.one_mul]
    omega
  · change g.offset u + g.restOf u < _
    omega

theorem inPage_cells_restOf : g.inPage (cells u (g.restOf u)) = 0 :=
  g.inPage_add_rest (inPage_add_restOf g u)

/-- The offset in a page depends on the low bits only. -/
theorem inPage_eq_mod : g.inPage u = (u.toNat + (2 ^ 64 - g.storageBase.toNat)) % g.pageSize := by
  rw [StoreGeometry.inPage, StoreGeometry.offset, BitVec.toNat_sub, Nat.add_comm,
    Nat.mod_mod_of_dvd _ g.pageSize_dvd]

/-- A tag does not change the offset in a page. -/
theorem inPage_tagged (hbits : g.pageBits < 31) (p : Uintptr) :
    g.inPage p = g.inPage (makeOriginalPointer p) := by
  have hdvd : g.pageSize ∣ 2 ^ 60 := Nat.pow_dvd_pow 2 (by omega)
  rw [inPage_eq_mod, inPage_eq_mod, toNat_makeOriginalPointer, Nat.add_mod (p.toNat % 2 ^ 60),
    Nat.mod_mod_of_dvd _ hdvd, ← Nat.add_mod]

end Geometry

section Split

variable {p : Uintptr} {n : Nat}

/-- `bytes_to_copy_from_first_page` of a pointer with or without its tag. -/
theorem toNat_bytesToCopyFromFirstPage {st : LStore σ} (hgeom : st.HasGeometry g)
    (hbits : g.pageBits < 31) (u : Uintptr) :
    (bytesToCopyFromFirstPage st u).toNat = g.restOf u := by
  have hps : g.pageSize ≤ 2 ^ 30 := Nat.pow_le_pow_right (by decide) (by omega)
  have hlt := g.inPage_lt u
  have hoff := toNat_pageOffset hgeom u
  have hsize := toNat_mpageSize hgeom
  have hwidth : ((pageOffset st u).setWidth 64).toNat = g.inPage u := by
    rw [BitVec.toNat_setWidth, hoff]
    omega
  unfold bytesToCopyFromFirstPage StoreGeometry.restOf
  rw [BitVec.toNat_setWidth, BitVec.toNat_sub, hwidth, hsize]
  omega

theorem bytes_setWidth {st : LStore σ} (hgeom : st.HasGeometry g) (hbits : g.pageBits < 31)
    (u : Uintptr) :
    (bytesToCopyFromFirstPage st u).setWidth 64 = BitVec.ofNat 64 (g.restOf u) := by
  have hbytes := toNat_bytesToCopyFromFirstPage hgeom hbits u
  have hps : g.pageSize ≤ 2 ^ 30 := Nat.pow_le_pow_right (by decide) (by omega)
  have hrest := inPage_add_restOf g u
  apply BitVec.eq_of_toNat_eq
  rw [BitVec.toNat_setWidth, hbytes, toNat_ofNat_of_lt (by omega)]
  omega

/-- The size of the second copy. -/
theorem toNat_secondBytes {st : LStore σ} (hgeom : st.HasGeometry g) (hbits : g.pageBits < 31)
    {u : Uintptr} (hn : n ≤ 64) (hcross : g.restOf u ≤ n) :
    ((BitVec.ofInt 32 n - bytesToCopyFromFirstPage st u).setWidth 64).toNat = n - g.restOf u := by
  have hbytes := toNat_bytesToCopyFromFirstPage hgeom hbits u
  have hsize : (BitVec.ofInt 32 n).toNat = n := by
    rw [BitVec.ofInt_natCast, BitVec.toNat_ofNat, Nat.mod_eq_of_lt (by omega)]
  rw [BitVec.toNat_setWidth, BitVec.toNat_sub, hsize, hbytes]
  omega

end Split

/-! ## Two page faults -/

theorem DirtyReported.of_suffix {q : Nat} {w w₁ w' : World σ} (h : DirtyReported g s q w₁ w')
    (hsuffix : w.trace <:+ w₁.trace) : DirtyReported g s q w w' := by
  refine h.imp_right ?_
  rintro ⟨es, ptr, e, htrace, hmem, hptr⟩
  obtain ⟨fs, hfs⟩ := hsuffix
  exact ⟨es ++ fs, ptr, e, by rw [htrace, ← hfs, List.append_assoc],
    List.mem_append_left _ hmem, hptr⟩

/-- The accesses of the two page faults of an access across a page. -/
def crossAccesses (g : StoreGeometry) (p : Uintptr) (dirty : Byte) : List (Unsigned × Byte) :=
  [(g.index (makeOriginalPointer p), dirty),
    (g.index (cells (makeOriginalPointer p) (g.restOf (makeOriginalPointer p))), dirty)]

/-- What the two page faults of a crossing access leave: both pages in frames, and their contents as
they were. If the drops of dirty entries reach their pages, all contents are as they were, and after
a write both pages are writable. -/
structure CrossFaulted (c : StorageCache σ) (g : StoreGeometry) (s : StoreId) (pages : Nat)
    (ns : PageNotes) (p : Uintptr) (dirty : Byte) (w w' : World σ) (f₁ f₂ : Nat) : Prop where
  first : c.resident w'.store (g.page (makeOriginalPointer p)) = some f₁
  second : c.resident w'.store (g.page (makeOriginalPointer p) + 1) = some f₂
  mapped : TlbMapped c (noteAll ns (crossAccesses g p dirty)) w'
  contents : ∀ x, g.page x = g.page (makeOriginalPointer p) ∨
    g.page x = g.page (makeOriginalPointer p) + 1 →
      c.contents g w'.toMachine x = c.contents g w.toMachine x
  outside : ∀ a, ¬ c.InCache g a → w'.mem a = w.mem a
  elsewhere : c.elsewhere w'.store = c.elsewhere w.store
  crosspage : w'.gtCrosspageAccess = w.gtCrosspageAccess ∧
    w'.gtCrosspageAccessSize = w.gtCrosspageAccessSize
  reported : dirty ≠ 0 → DirtyReported g s (g.page (makeOriginalPointer p)) w w' ∧
    (w'.tlb .gtTLB).DirtyPage (g.page (makeOriginalPointer p) + 1)
  synced : AllReach ns (crossAccesses g p dirty) →
    Synced c g pages (noteAll ns (crossAccesses g p dirty)) w' ∧
      (∀ x, g.page x < pages → c.contents g w'.toMachine x = c.contents g w.toMachine x) ∧
      (dirty ≠ 0 → Writable c w' (g.page (makeOriginalPointer p)) ∧
        Writable c w' (g.page (makeOriginalPointer p) + 1))

section Faults

variable (h : CrossPageStore c env s g pages)
include h

/-- A page fault returns the address in the frame of the page. -/
theorem exists_pageFaultKeeps {w : World σ} (hinv : TlbMapped c ns w) {p : Uintptr}
    (htag : switchCase p = some s) (hpage : g.page (makeOriginalPointer p) < pages) (dirty : Byte) :
    ∃ f w', carmorPageFault env p dirty w =
        .ok (g.frameAddress f (g.inPage (makeOriginalPointer p))) w' ∧
      c.resident w'.store (g.page (makeOriginalPointer p)) = some f ∧
      LinkKeeps c g pages ns (makeOriginalPointer p) dirty w w' ∧ w.trace <:+ w'.trace ∧
      ∀ q ≤ g.page (makeOriginalPointer p), (w.tlb .gtTLB).DirtyPage q → DirtyReported g s q w w' := by
  have hin : (g.inPage (makeOriginalPointer p) : Int) + 0 ≤ g.pageSize := by
    have hlt := g.inPage_lt (makeOriginalPointer p)
    omega
  have hlogged : TlbMapped c ns (w.log (.pageFault p dirty)) := hinv.congr rfl rfl
  obtain ⟨f, w', hstep, hresident, hkeeps⟩ := exists_linkKeeps h.toCachedStore h.pages_le hpage
    h.keeps h.pageBits_lt hlogged (Int.le_refl 0) hin dirty
  have hsuffix : w.trace <:+ (w.log (.pageFault p dirty)).trace := List.suffix_cons _ _
  refine ⟨f, w', (carmorPageFault_eq_ok h.geometry h.link htag).mpr hstep, hresident,
    ⟨hkeeps.mapped, hkeeps.saved, hkeeps.contents, hkeeps.outside, hkeeps.elsewhere, hkeeps.resident,
      hkeeps.marked, hkeeps.hasPage, hkeeps.dirty, hkeeps.crosspage⟩,
    hsuffix.trans hstep.trace_suffix, ?_⟩
  intro q hq hdirty
  exact (hstep.dirtyReported h.toCachedStore h.pages_le hpage hq hdirty).of_suffix hsuffix

/-- The pointer at which a crossing access enters its second page. -/
theorem CrossAccess.second {p : Uintptr} {n : Nat} (ha : CrossAccess s g pages p n) :
    switchCase (cells p (g.restOf (makeOriginalPointer p))) = some s ∧
      makeOriginalPointer (cells p (g.restOf (makeOriginalPointer p))) =
        cells (makeOriginalPointer p) (g.restOf (makeOriginalPointer p)) ∧
      g.page (cells (makeOriginalPointer p) (g.restOf (makeOriginalPointer p))) =
        g.page (makeOriginalPointer p) + 1 := by
  have hrest := inPage_add_restOf g (makeOriginalPointer p)
  have hcross := ha.crosses
  have hend := ha.inStore
  have hpage := ha.page_lt
  have hpages := h.pages_le
  have hbits := h.pageBits_lt
  have hbound : 2 ^ 31 ≤ 2 ^ (64 - g.pageBits) := Nat.pow_le_pow_right (by decide) (by omega)
  exact ⟨switchCase_cells ha.tagged (by omega), makeOriginalPointer_cells ha.tagged (by omega),
    page_cells_restOf g _ (by omega)⟩

theorem exists_crossFaults {w : World σ} (hinv : Synced c g pages ns w) {p : Uintptr} {n : Nat}
    (ha : CrossAccess s g pages p n) (dirty : Byte) :
    ∃ f₁ f₂ w₁ w₂, carmorPageFault env p dirty w =
        .ok (g.frameAddress f₁ (g.inPage (makeOriginalPointer p))) w₁ ∧
      carmorPageFault env (cells p (g.restOf (makeOriginalPointer p))) dirty w₁ =
        .ok (g.frameAddress f₂ 0) w₂ ∧
      CrossFaulted c g s pages ns p dirty w w₂ f₁ f₂ := by
  obtain ⟨htag₂, horig₂, hpage₂⟩ := ha.second h
  have hpage := ha.page_lt
  obtain ⟨f₁, w₁, hrun₁, hresident₁, hkeeps₁, hsuffix₁, hreported₁⟩ :=
    exists_pageFaultKeeps h hinv.toTlbMapped ha.tagged (by omega) dirty
  obtain ⟨f₂, w₂, hrun₂, hresident₂, hkeeps₂, hsuffix₂, hreported₂⟩ :=
    exists_pageFaultKeeps h hkeeps₁.mapped htag₂ (by rw [horig₂, hpage₂]; exact hpage) dirty
  rw [horig₂] at hrun₂ hresident₂ hkeeps₂ hreported₂
  rw [inPage_cells_restOf] at hrun₂
  rw [hpage₂] at hresident₂ hreported₂
  refine ⟨f₁, f₂, w₁, w₂, hrun₁, hrun₂, hkeeps₂.resident _ _ hkeeps₁.hasPage hresident₁, hresident₂,
    hkeeps₂.mapped, ?_, ?_, ?_, ?_, ?_, ?_⟩
  · intro x hx
    rw [← hkeeps₁.contents_eq hinv (show g.page x < pages by omega)]
    -- the first page has its entry when the second one is fetched
    refine hkeeps₂.contents x (.inr ?_)
    rcases hx with hx | hx
    · exact .inl (hx ▸ hkeeps₁.hasPage)
    · exact .inr (hx.trans hpage₂.symm)
  · intro a ha'
    rw [hkeeps₂.outside a ha', hkeeps₁.outside a ha']
  · rw [hkeeps₂.elsewhere, hkeeps₁.elsewhere]
  · rw [hkeeps₂.crosspage.1, hkeeps₂.crosspage.2]
    exact hkeeps₁.crosspage
  · intro hdirty
    have hsecond := hkeeps₂.dirty hdirty
    rw [hpage₂] at hsecond
    exact ⟨(hreported₂ _ (by omega) (hkeeps₁.dirty hdirty)).of_suffix hsuffix₁, hsecond⟩
  · rintro ⟨hreach₁, hreach₂, -⟩
    have hinv₁ := hkeeps₁.synced hinv hreach₁
    refine ⟨hkeeps₂.synced hinv₁ hreach₂, ?_, ?_⟩
    · intro x hx
      rw [hkeeps₂.contents_eq hinv₁ hx, hkeeps₁.contents_eq hinv hx]
    · intro hdirty
      have hsecond := hkeeps₂.dirty hdirty
      rw [hpage₂] at hsecond
      exact ⟨(hkeeps₂.marked hreach₂ _ (by omega) (hkeeps₁.dirty hdirty)).symm, .inr hsecond⟩

end Faults

/-! ## Copies in two parts -/

section Transfer

variable (target source : Memory) (dst src : Uintptr) {k n : Nat}

/-- A copy in two parts is one copy. -/
theorem transfer_append (hk : k ≤ n) (hn : n ≤ 2 ^ 63) :
    transfer (transfer target dst source src k) (cells dst k) source (cells src k) (n - k) =
      transfer target dst source src n := by
  funext a
  obtain ⟨i, hi, rfl⟩ : ∃ i < 2 ^ 64, cells dst i = a :=
    ⟨(a - dst).toNat, (a - dst).isLt, cells_toNat_sub dst a⟩
  have hsub := toNat_cells_sub dst hi
  have hread : ∀ j i, j ≤ i → cells src j + (cells dst i - cells dst j) = cells src i := by
    intro j i hji
    rw [cells_sub_cells dst hji, cells_add, Nat.add_sub_cancel' hji]
  unfold transfer
  rw [hsub]
  by_cases hik : k ≤ i
  · have hsub' : (cells dst i - cells dst k).toNat = i - k := by
      rw [cells_sub_cells dst hik, toNat_ofNat_of_lt (by omega)]
    have hread₀ := hread 0 i (Nat.zero_le i)
    rw [cells_zero, cells_zero] at hread₀
    rw [hsub', if_neg (show ¬ i < k by omega), hread k i hik, hread₀]
    by_cases hin : i < n
    · rw [if_pos (by omega), if_pos hin]
    · rw [if_neg (by omega), if_neg hin]
  · have hsub' : (cells dst i - cells dst k).toNat = 2 ^ 64 - (k - i) :=
      toNat_cells_sub_of_lt dst (Nat.lt_of_not_le hik) (by omega)
    rw [hsub', if_neg (by omega), if_pos (by omega), if_pos (by omega)]

end Transfer

/-- `mem` with the bytes `v` at `dst`. -/
def overwrite (mem : Memory) (dst : Uintptr) (v : Nat → Byte) (n : Nat) : Memory := fun a =>
  if (a - dst).toNat < n then v (a - dst).toNat else mem a

section Overwrite

variable (mem : Memory) (dst : Uintptr) (v : Nat → Byte) {n : Nat} {a : Uintptr}

theorem overwrite_of_lt (ha : (a - dst).toNat < n) :
    overwrite mem dst v n a = v (a - dst).toNat := if_pos ha

theorem overwrite_of_not_lt (ha : ¬ (a - dst).toNat < n) : overwrite mem dst v n a = mem a :=
  if_neg ha

theorem overwrite_of_ne (ha : ∀ i < n, cells dst i ≠ a) : overwrite mem dst v n a = mem a :=
  overwrite_of_not_lt mem dst v fun hlt => ha _ hlt (cells_toNat_sub dst a)

theorem overwrite_cells {i : Nat} (hi : i < n) (hn : n < 2 ^ 64) :
    overwrite mem dst v n (cells dst i) = v i := by
  have hsub := toNat_cells_sub dst (show i < 2 ^ 64 by omega)
  rw [overwrite_of_lt _ _ _ (by omega), hsub]

end Overwrite

theorem cells_cells (p : Uintptr) (i j : Nat) : cells (cells p i) j = cells p (i + j) :=
  cells_add p i j

section Cells

variable {p : Uintptr} {n : Nat}

/-- The bytes in the first page. -/
theorem cell_first (u : Uintptr) {i : Nat} (hi : i < g.restOf u) :
    g.page (cells u i) = g.page u ∧ g.inPage (cells u i) = g.inPage u + i := by
  have hrest := inPage_add_restOf g u
  exact ⟨g.page_add (by omega), g.inPage_add (by omega)⟩

/-- The bytes in the second page. -/
theorem cell_second (u : Uintptr) (hpage : g.page (cells u (g.restOf u)) = g.page u + 1) {i : Nat}
    (hi : i < g.pageSize) :
    g.page (cells u (g.restOf u + i)) = g.page u + 1 ∧
      g.inPage (cells u (g.restOf u + i)) = i := by
  have hin := inPage_cells_restOf g u
  have hnext : g.inPage (cells u (g.restOf u)) + i < g.pageSize := by omega
  rw [← cells_cells]
  constructor
  · rw [← hpage]
    exact g.page_add hnext
  · have hadd := g.inPage_add hnext
    rw [hin, Nat.zero_add] at hadd
    exact hadd

end Cells

/-! ## The two copies -/

/-- The memory after `k` bytes at `first`, and then bytes at `second` up to the size `n`, have been
copied to the buffer. -/
def gather (mem : Memory) (buffer first second : Uintptr) (k n : Nat) : Memory :=
  transfer (transfer mem buffer mem first k) (cells buffer k) (transfer mem buffer mem first k) second
    (n - k)

/-- The memory after the `n` bytes of the buffer have been copied to `first`, from the `k`-th byte
on to `second`. -/
def scatter (mem : Memory) (buffer first second : Uintptr) (k n : Nat) : Memory :=
  transfer (transfer mem first mem buffer k) second (transfer mem first mem buffer k)
    (cells buffer k) (n - k)

section Copies

variable {mem : Memory} {buffer first second : Uintptr} {k n : Nat} (hk : k ≤ n)
include hk

theorem gather_of_ne {a : Uintptr} (ha : ∀ i < n, cells buffer i ≠ a) :
    gather mem buffer first second k n a = mem a := by
  unfold gather
  rw [transfer_of_ne, transfer_of_ne]
  · exact fun i hi => ha i (by omega)
  · intro i hi
    rw [cells_cells]
    exact ha _ (by omega)

theorem gather_first (hn : n ≤ 2 ^ 63) {i : Nat} (hi : i < k) :
    gather mem buffer first second k n (cells buffer i) = mem (cells first i) := by
  have hout : ∀ j < n - k, cells (cells buffer k) j ≠ cells buffer i := by
    intro j hj heq
    rw [cells_cells] at heq
    have hij := cells_inj (by omega) (by omega) heq
    omega
  unfold gather
  rw [transfer_of_ne _ _ _ _ hout, transfer_cells_of_lt _ _ _ _ hi (by omega)]

theorem gather_second (hn : n ≤ 2 ^ 63) {j : Nat} (hj : j < n - k)
    (hout : ∀ i < k, cells buffer i ≠ cells second j) :
    gather mem buffer first second k n (cells buffer (k + j)) = mem (cells second j) := by
  unfold gather
  rw [← cells_cells, transfer_cells_of_lt _ _ _ _ hj (by omega), transfer_of_ne _ _ _ _ hout]

omit hk in
theorem scatter_of_ne {a : Uintptr} (hfirst : ∀ i < k, cells first i ≠ a)
    (hsecond : ∀ i < n - k, cells second i ≠ a) : scatter mem buffer first second k n a = mem a := by
  unfold scatter
  rw [transfer_of_ne _ _ _ _ hsecond, transfer_of_ne _ _ _ _ hfirst]

end Copies

/-! ## The bytes of a crossing access -/

section Bytes

variable (h : CrossPageStore c env s g pages) {w : World σ} (hinv : TlbMapped c ns w)
  {p : Uintptr} {n : Nat} (ha : CrossAccess s g pages p n)

include ha in
theorem CrossAccess.restOf_lt : g.restOf (makeOriginalPointer p) < n := by
  have hrest := inPage_add_restOf g (makeOriginalPointer p)
  have hcross := ha.crosses
  omega

include h ha in
/-- Every byte of a crossing access is in one of its two pages. -/
theorem CrossAccess.page_cells {i : Nat} (hi : i < n) :
    g.page (cells (makeOriginalPointer p) i) = g.page (makeOriginalPointer p) ∨
      g.page (cells (makeOriginalPointer p) i) = g.page (makeOriginalPointer p) + 1 := by
  have hfit := ha.size_le_page
  obtain ⟨-, -, hsecond⟩ := ha.second h
  by_cases hik : i < g.restOf (makeOriginalPointer p)
  · exact .inl (cell_first (makeOriginalPointer p) hik).1
  · obtain ⟨j, rfl⟩ := Nat.le.dest (Nat.le_of_not_lt hik)
    exact .inr (cell_second (makeOriginalPointer p) hsecond (show j < g.pageSize by omega)).1

variable {f₁ f₂ : Nat} (hfirst : c.resident w.store (g.page (makeOriginalPointer p)) = some f₁)
  (hsecond : c.resident w.store (g.page (makeOriginalPointer p) + 1) = some f₂)
include h hinv

include hfirst in
/-- The first part of the access is in the frame of its page. -/
theorem inCache_first {i : Nat} (hi : i < g.restOf (makeOriginalPointer p)) :
    c.InCache g (cells (g.frameAddress f₁ (g.inPage (makeOriginalPointer p))) i) := by
  have hrest := inPage_add_restOf g (makeOriginalPointer p)
  refine ⟨f₁, g.inPage (makeOriginalPointer p) + i, h.keeps.resident_lt hinv.knows hfirst,
    by omega, ?_⟩
  rw [g.frameAddress_add]
  rfl

include ha

include hsecond in
theorem inCache_second {i : Nat} (hi : i < n - g.restOf (makeOriginalPointer p)) :
    c.InCache g (cells (g.frameAddress f₂ 0) i) := by
  have hfit := ha.size_le_page
  refine ⟨f₂, i, h.keeps.resident_lt hinv.knows hsecond, by omega, ?_⟩
  unfold cells
  rw [← g.frameAddress_add, Nat.zero_add]

include hfirst hsecond

/-- The gathered bytes are those of the storage. -/
theorem gather_contents {i : Nat} (hi : i < n) :
    gather w.mem env.gtCrossPageBuffer (g.frameAddress f₁ (g.inPage (makeOriginalPointer p)))
        (g.frameAddress f₂ 0) (g.restOf (makeOriginalPointer p)) n (cells env.gtCrossPageBuffer i) =
      c.contents g w.toMachine (cells (makeOriginalPointer p) i) := by
  have hlt := ha.restOf_lt
  have hsize := ha.size_le
  have hfit := ha.size_le_page
  obtain ⟨-, -, hpage₂⟩ := ha.second h
  by_cases hik : i < g.restOf (makeOriginalPointer p)
  · obtain ⟨hcell, hcellIn⟩ := cell_first (makeOriginalPointer p) hik
    rw [gather_first (by omega) (by omega) hik,
      StorageCache.contents_of_resident (by rw [hcell]; exact hfirst), hcellIn, g.frameAddress_add]
    rfl
  · obtain ⟨j, rfl⟩ := Nat.le.dest (Nat.le_of_not_lt hik)
    obtain ⟨hcell, hcellIn⟩ :=
      cell_second (makeOriginalPointer p) hpage₂ (show j < g.pageSize by omega)
    have hframe := inCache_second h hinv ha hsecond (show j < _ by omega)
    have hout : ∀ i < g.restOf (makeOriginalPointer p),
        cells env.gtCrossPageBuffer i ≠ cells (g.frameAddress f₂ 0) j := by
      intro i hi heq
      exact h.buffer_outside i (by omega) (heq ▸ hframe)
    have hsrc : cells (g.frameAddress f₂ 0) j = g.frameAddress f₂ j := by
      unfold cells
      rw [← g.frameAddress_add, Nat.zero_add]
    rw [gather_second (by omega) (by omega) (by omega) hout, hsrc,
      StorageCache.contents_of_resident (by rw [hcell]; exact hsecond), hcellIn]

/-- The scattered bytes are copied into the storage. -/
theorem scatter_contents :
    c.contents g (w.withMem (scatter w.mem env.gtCrossPageBuffer
        (g.frameAddress f₁ (g.inPage (makeOriginalPointer p))) (g.frameAddress f₂ 0)
        (g.restOf (makeOriginalPointer p)) n)).toMachine =
      transfer (c.contents g w.toMachine) (makeOriginalPointer p) w.mem env.gtCrossPageBuffer n := by
  have hlt := ha.restOf_lt
  have hsize := ha.size_le
  have hfit := ha.size_le_page
  have hrest := inPage_add_restOf g (makeOriginalPointer p)
  have hin := inPage_cells_restOf g (makeOriginalPointer p)
  obtain ⟨-, -, hpage₂⟩ := ha.second h
  obtain ⟨mem₁, hmem₁⟩ : ∃ mem₁, mem₁ = transfer w.mem
      (g.frameAddress f₁ (g.inPage (makeOriginalPointer p))) w.mem env.gtCrossPageBuffer
      (g.restOf (makeOriginalPointer p)) := ⟨_, rfl⟩
  have hone := contents_transfer h.keeps h.pageBits_lt hinv.knows hfirst
    (show g.inPage (makeOriginalPointer p) + g.restOf (makeOriginalPointer p) ≤ g.pageSize by omega)
    w.mem env.gtCrossPageBuffer
  rw [← hmem₁] at hone
  -- the buffer is the same before and after the first copy
  have hbuffer : ∀ i < n - g.restOf (makeOriginalPointer p),
      mem₁ (cells (cells env.gtCrossPageBuffer (g.restOf (makeOriginalPointer p))) i) =
        w.mem (cells (cells env.gtCrossPageBuffer (g.restOf (makeOriginalPointer p))) i) := by
    intro i hi
    rw [hmem₁, cells_cells, transfer_of_ne]
    intro j hj heq
    exact h.buffer_outside _ (by omega) (heq ▸ inCache_first h hinv hfirst hj)
  have htwo := contents_transfer (m := ⟨mem₁, w.store⟩)
    (x := cells (makeOriginalPointer p) (g.restOf (makeOriginalPointer p))) (f := f₂)
    (k := n - g.restOf (makeOriginalPointer p)) h.keeps h.pageBits_lt hinv.knows
    (by rw [hpage₂]; exact hsecond) (by omega) mem₁
    (cells env.gtCrossPageBuffer (g.restOf (makeOriginalPointer p)))
  rw [hin, hone] at htwo
  unfold scatter
  rw [← hmem₁]
  refine htwo.trans ?_
  rw [transfer_congr _ _ _ _ hbuffer, transfer_append _ _ _ _ (by omega) (by omega)]

omit hinv ha hfirst hsecond in
/-- Gathering bytes in the buffer does not touch the storage. -/
theorem contents_of_buffer {w' : World σ} (hinv' : TlbMapped c ns w') (hn : n ≤ 64) {mem : Memory}
    (hmem : ∀ a, (∀ i < n, cells env.gtCrossPageBuffer i ≠ a) → mem a = w'.mem a) :
    c.contents g (w'.withMem mem).toMachine = c.contents g w'.toMachine := by
  apply contents_of_outside h.keeps hinv'.knows
  intro a hin
  apply hmem
  rintro i hi rfl
  exact h.buffer_outside i (by omega) hin

end Bytes

/-! ## The load -/

section Load

variable (h : CrossPageStore c env s g pages) {w : World σ} (hinv : Synced c g pages ns w)
  {p : Uintptr} {n : Nat} (ha : CrossAccess s g pages p n)
include h ha

/-- The two copies of a load. -/
theorem loadCrossPage_of_faults {dirty : Byte} {a₁ a₂ : Uintptr} {w₁ w₂ : World σ}
    (hrun₁ : carmorPageFault env p dirty w = .ok a₁ w₁)
    (hrun₂ : carmorPageFault env (cells p (g.restOf (makeOriginalPointer p))) dirty w₁ = .ok a₂ w₂) :
    loadCrossPage env s p n dirty w = .ok env.gtCrossPageBuffer
      ((w₂.withMem (gather w₂.mem env.gtCrossPageBuffer a₁ a₂ (g.restOf (makeOriginalPointer p))
        n)).withCrosspage p n) := by
  have hlt := ha.restOf_lt
  have hsize := ha.size_le
  have hbytes := bytes_setWidth h.geometry h.pageBits_lt (makeOriginalPointer p)
  have hsecondBytes := toNat_secondBytes h.geometry h.pageBits_lt (u := makeOriginalPointer p) hsize
    (Nat.le_of_lt hlt)
  unfold loadCrossPage
  simp only [hbytes]
  rw [Lib.bind_of_ok hrun₁]
  change (carmorPageFault env (cells p _) dirty >>= _) w₁ = _
  rw [Lib.bind_of_ok hrun₂]
  unfold libcMemcpy
  rw [Lib.bind_of_ok (onMem_apply w₂ _), Lib.bind_of_ok (onMem_apply _ _)]
  simp only [hsecondBytes,
    toNat_ofNat_of_lt (show g.restOf (makeOriginalPointer p) < 2 ^ 64 by omega)]
  rfl

include hinv

/-- The load of a crossing access gathers its bytes in the buffer. If the drops of dirty entries
reach their pages it keeps all contents. -/
theorem exists_loadCrossPage (dirty : Byte) : ∃ w',
    loadCrossPage env s p n dirty w = .ok env.gtCrossPageBuffer w' ∧
      (∀ i < n, w'.mem (cells env.gtCrossPageBuffer i) =
        c.contents g w.toMachine (cells (makeOriginalPointer p) i)) ∧
      (AllReach ns (crossAccesses g p dirty) →
        Synced c g pages (noteAll ns (crossAccesses g p dirty)) w' ∧
          ∀ x, g.page x < pages → c.contents g w'.toMachine x = c.contents g w.toMachine x) ∧
      w'.gtCrosspageAccess = p ∧ w'.gtCrosspageAccessSize = n ∧
      (∀ a, ¬ c.InCache g a → (∀ i < n, cells env.gtCrossPageBuffer i ≠ a) →
        w'.mem a = w.mem a) ∧
      c.elsewhere w'.store = c.elsewhere w.store := by
  have hle := Nat.le_of_lt ha.restOf_lt
  obtain ⟨f₁, f₂, w₁, w₂, hrun₁, hrun₂, hfaulted⟩ := exists_crossFaults h hinv ha dirty
  have hkept : ∀ a, (∀ i < n, cells env.gtCrossPageBuffer i ≠ a) →
      gather w₂.mem env.gtCrossPageBuffer (g.frameAddress f₁ (g.inPage (makeOriginalPointer p)))
        (g.frameAddress f₂ 0) (g.restOf (makeOriginalPointer p)) n a = w₂.mem a :=
    fun a hne => gather_of_ne hle hne
  have hcontents := contents_of_buffer h hfaulted.mapped ha.size_le hkept
  refine ⟨_, loadCrossPage_of_faults h ha hrun₁ hrun₂, ?_, ?_, rfl, rfl, ?_, hfaulted.elsewhere⟩
  · intro i hi
    exact (gather_contents h hfaulted.mapped ha hfaulted.first hfaulted.second hi).trans
      (hfaulted.contents _ (ha.page_cells h hi))
  · intro hreach
    obtain ⟨hinv₂, hsame, -⟩ := hfaulted.synced hreach
    refine ⟨Synced.withCrosspage (hinv₂.withMem ?_) p n, ?_⟩
    · intro q _
      right
      intro x _
      rw [hcontents]
    · intro x hx
      change c.contents g (w₂.withMem _).toMachine x = _
      rw [hcontents, hsame x hx]
  · intro a hout hne
    exact (hkept a hne).trans (hfaulted.outside a hout)

end Load

/-! ## The write-back -/

/-- Without a pending access a write-back does nothing. -/
theorem writeback_of_none {w : World σ} (hnone : w.gtCrosspageAccess = 0) :
    carmorWritebackCachedCrossPageTemplate env s w = .ok () w := by
  unfold carmorWritebackCachedCrossPageTemplate
  rw [Lib.bind_of_ok (get_apply w), if_neg (not_not_intro hnone)]
  rfl

section Writeback

variable (h : CrossPageStore c env s g pages) {w : World σ} (hinv : Synced c g pages ns w)
  {p : Uintptr} {n : Nat} (ha : CrossAccess s g pages p n)
include h ha

/-- The two copies of a write-back. The split of the tagged pointer is that of the untagged one. -/
theorem writeback_of_faults (hptr : w.gtCrosspageAccess = p) (hn : w.gtCrosspageAccessSize = n)
    {a₁ a₂ : Uintptr} {w₁ w₂ : World σ}
    (hrun₁ : carmorPageFault env p 1 (w.withCrosspage 0 0) = .ok a₁ w₁)
    (hrun₂ : carmorPageFault env (cells p (g.restOf (makeOriginalPointer p))) 1 w₁ = .ok a₂ w₂) :
    carmorWritebackCachedCrossPageTemplate env s w = .ok ()
      (w₂.withMem (scatter w₂.mem env.gtCrossPageBuffer a₁ a₂ (g.restOf (makeOriginalPointer p))
        n)) := by
  have hlt := ha.restOf_lt
  have hsize := ha.size_le
  have htagged : g.restOf p = g.restOf (makeOriginalPointer p) := by
    unfold StoreGeometry.restOf
    rw [inPage_tagged g h.pageBits_lt p]
  have hbytes := bytes_setWidth h.geometry h.pageBits_lt p
  have hsecondBytes := toNat_secondBytes h.geometry h.pageBits_lt (u := p) hsize
    (show g.restOf p ≤ n by omega)
  rw [htagged] at hbytes hsecondBytes
  have hp : p ≠ 0 := by
    rintro rfl
    have htag := isCarmorPtr_of_switchCase ha.tagged
    exact absurd htag (by decide)
  have hassert : decide (w.gtCrosspageAccessSize ≠ 0) = true := by
    rw [decide_eq_true_iff]
    omega
  unfold carmorWritebackCachedCrossPageTemplate
  rw [Lib.bind_of_ok (get_apply w), hptr, if_pos hp, Lib.bind_of_ok (get_apply w), hassert,
    Lib.bind_of_ok (cAssert_true w), Lib.bind_of_ok (setCrosspage_apply w 0 0)]
  simp only [hbytes, hn]
  rw [Lib.bind_of_ok hrun₁]
  change (carmorPageFault env (cells p _) 1 >>= _) w₁ = _
  rw [Lib.bind_of_ok hrun₂]
  unfold libcMemcpy
  rw [Lib.bind_of_ok (onMem_apply w₂ _), onMem_apply]
  simp only [hsecondBytes,
    toNat_ofNat_of_lt (show g.restOf (makeOriginalPointer p) < 2 ^ 64 by omega)]
  rfl

include hinv

/-- The write-back of a pending access writes the buffer to the bytes of the access, and to no
other, and both pages are reported dirty. -/
theorem exists_writeback (hptr : w.gtCrosspageAccess = p) (hn : w.gtCrosspageAccessSize = n)
    (hreach : AllReach ns (crossAccesses g p 1)) :
    ∃ w', carmorWritebackCachedCrossPageTemplate env s w = .ok () w' ∧
      (∀ x, g.page x < pages → c.contents g w'.toMachine x =
        transfer (c.contents g w.toMachine) (makeOriginalPointer p) w.mem env.gtCrossPageBuffer n
          x) ∧
      Synced c g pages (noteAll ns (crossAccesses g p 1)) w' ∧ w'.gtCrosspageAccess = 0 ∧
      w'.gtCrosspageAccessSize = 0 ∧ DirtyReported g s (g.page (makeOriginalPointer p)) w w' ∧
      DirtyReported g s (g.page (makeOriginalPointer p) + 1) w w' ∧
      (∀ a, ¬ c.InCache g a → w'.mem a = w.mem a) ∧
      c.elsewhere w'.store = c.elsewhere w.store := by
  have hsize := ha.size_le
  obtain ⟨f₁, f₂, w₁, w₂, hrun₁, hrun₂, hfaulted⟩ :=
    exists_crossFaults h (hinv.withCrosspage 0 0) ha 1
  obtain ⟨hinv₂, hsame, hwritable⟩ := hfaulted.synced hreach
  have hdirty := hwritable (by decide)
  have hreported := hfaulted.reported (by decide)
  have hscattered := scatter_contents h hfaulted.mapped ha hfaulted.first hfaulted.second
  -- the page faults leave the buffer alone
  have hbuffer : ∀ i < n, w₂.mem (cells env.gtCrossPageBuffer i) =
      w.mem (cells env.gtCrossPageBuffer i) :=
    fun i hi => hfaulted.outside _ (h.buffer_outside i (by omega))
  rw [transfer_congr _ _ _ _ hbuffer] at hscattered
  refine ⟨_, writeback_of_faults h ha hptr hn hrun₁ hrun₂, ?_, ?_, hfaulted.crosspage.1,
    hfaulted.crosspage.2, hreported.1, .inl hreported.2, ?_, hfaulted.elsewhere⟩
  · intro x hx
    rw [hscattered]
    unfold transfer
    split
    · rfl
    · exact hsame x hx
  · refine hinv₂.withMem ?_
    intro q _
    by_cases hq : q = g.page (makeOriginalPointer p) ∨ q = g.page (makeOriginalPointer p) + 1
    · left
      rcases hq with rfl | rfl
      · exact hdirty.1
      · exact hdirty.2
    · right
      intro x hx
      rw [hscattered, transfer_of_ne]
      rintro i hi rfl
      exact hq (hx ▸ ha.page_cells h hi)
  · intro a hout
    refine (scatter_of_ne ?_ ?_).trans (hfaulted.outside a hout)
    · rintro i hi rfl
      exact hout (inCache_first h hfaulted.mapped hfaulted.first hi)
    · rintro i hi rfl
      exact hout (inCache_second h hfaulted.mapped ha hfaulted.second hi)

/-- The write-back of a pending access whose bytes the program has written to the buffer. -/
theorem exists_writeback_overwritten (hptr : w.gtCrosspageAccess = p)
    (hn : w.gtCrosspageAccessSize = n) (hreach : AllReach ns (crossAccesses g p 1))
    (v : Nat → Byte) :
    ∃ w', carmorWritebackCachedCrossPageTemplate env s
        (w.withMem (overwrite w.mem env.gtCrossPageBuffer v n)) = .ok () w' ∧
      (∀ x, g.page x < pages → c.contents g w'.toMachine x =
        overwrite (c.contents g w.toMachine) (makeOriginalPointer p) v n x) ∧
      Synced c g pages (noteAll ns (crossAccesses g p 1)) w' ∧ w'.gtCrosspageAccess = 0 ∧
      w'.gtCrosspageAccessSize = 0 ∧ DirtyReported g s (g.page (makeOriginalPointer p)) w w' ∧
      DirtyReported g s (g.page (makeOriginalPointer p) + 1) w w' ∧
      (∀ a, ¬ c.InCache g a → w'.mem a = overwrite w.mem env.gtCrossPageBuffer v n a) ∧
      c.elsewhere w'.store = c.elsewhere w.store := by
  have hsize := ha.size_le
  have hsame : c.contents g (w.withMem (overwrite w.mem env.gtCrossPageBuffer v n)).toMachine =
      c.contents g w.toMachine :=
    contents_of_buffer h hinv.toTlbMapped hsize fun a hne => overwrite_of_ne _ _ _ hne
  have hwritten : Synced c g pages ns (w.withMem (overwrite w.mem env.gtCrossPageBuffer v n)) :=
    hinv.withMem fun q _ => .inr fun x _ => by rw [hsame]
  obtain ⟨w', hback, hstored, hinv', hptr', hn', hfirst, hsecond, houtside, helsewhere⟩ :=
    exists_writeback h hwritten ha hptr hn hreach
  refine ⟨w', hback, ?_, hinv', hptr', hn', hfirst, hsecond, houtside, helsewhere⟩
  intro x hx
  rw [hstored x hx, hsame]
  unfold transfer
  by_cases hin : (x - makeOriginalPointer p).toNat < n
  · rw [if_pos hin, overwrite_of_lt _ _ _ hin, ← cells_toNat]
    exact overwrite_cells _ _ _ hin (by omega)
  · rw [if_neg hin, overwrite_of_not_lt _ _ _ hin]

end Writeback

/-! ## Runs of a thread -/

/-- What a thread does with the pages of a store: link calls, its own writes to memory, and
write-backs of a pending access. -/
inductive ThreadOp where
  | link (call : LinkCall)
  | write (mem : Memory)
  | writeback

/-- The program has not written to the frame of a page without a dirty TLB entry. -/
def WritesLinked (c : StorageCache σ) (g : StoreGeometry) (w : World σ) (mem : Memory) : Prop :=
  ∀ p f, c.resident w.store p = some f → (w.tlb .gtTLB).DirtyPage p ∨
    ∀ o < g.pageSize, mem (g.frameAddress f o) = w.mem (g.frameAddress f o)

/-- A link call inside a page, or one that crosses to the next page. -/
def LinkCall.InStore (s : StoreId) (g : StoreGeometry) (pages : Nat) (call : LinkCall) : Prop :=
  call.InPage s g pages ∨ call.crossPage = true ∧ call.isVectorType = 0 ∧
    ∃ n : Nat, call.ptrSize = n ∧ CrossAccess s g pages call.ptr n

def ThreadOp.Step (c : StorageCache σ) (env : Env σ) (s : StoreId) (g : StoreGeometry) (pages : Nat)
    (w : World σ) : ThreadOp → World σ → Prop
  | .link call, w' => call.InStore s g pages ∧ ∃ a, call.exec env s w = .ok a w'
  | .write mem, w' => WritesLinked c g w mem ∧ w' = w.withMem mem
  | .writeback, w' => carmorWritebackCachedCrossPageTemplate env s w = .ok () w'

/-- No access is pending, or a crossing one is. -/
def PendingCross (s : StoreId) (g : StoreGeometry) (pages : Nat) (w : World σ) : Prop :=
  w.gtCrosspageAccess = 0 ∨ ∃ n : Nat, w.gtCrosspageAccessSize = n ∧
    CrossAccess s g pages w.gtCrosspageAccess n

/-- The access crosses the end of a page. -/
def LinkCall.Crosses (g : StoreGeometry) (call : LinkCall) : Prop :=
  g.pageSize < g.inPage (makeOriginalPointer call.ptr) + call.ptrSize

instance (g : StoreGeometry) (call : LinkCall) : Decidable (call.Crosses g) :=
  inferInstanceAs (Decidable (_ < _))

/-- The notes of a thread's TLB, and the pointer of the pending access. -/
structure ThreadNotes where
  notes : PageNotes
  pending : Uintptr

namespace ThreadNotes

/-- The notes of an initialized thread. -/
def start : ThreadNotes := ⟨emptyNotes, 0⟩

variable (g : StoreGeometry) (x : ThreadNotes)

/-- The accesses that an operation makes. -/
def accesses : ThreadOp → List (Unsigned × Byte)
  | .link call =>
    if call.Crosses g then crossAccesses g call.ptr call.dirty
    else [(g.index (makeOriginalPointer call.ptr), call.dirty)]
  | .write _ => []
  | .writeback => if x.pending = 0 then [] else crossAccesses g x.pending 1

/-- The pointer that is pending after an operation. -/
def pendingAfter : ThreadOp → Uintptr
  | .link call => if call.Crosses g then call.ptr else x.pending
  | .write _ => x.pending
  | .writeback => 0

def next (op : ThreadOp) : ThreadNotes := ⟨noteAll x.notes (x.accesses g op), x.pendingAfter g op⟩

/-- Every dirty entry that the operation drops is one whose notification reaches its page. -/
def Reaches (op : ThreadOp) : Prop := AllReach x.notes (x.accesses g op)

instance (op : ThreadOp) : Decidable (x.Reaches g op) := Lib.Run.decidableFollowed _ _

variable {g x} {call : LinkCall}

theorem next_inPage (h : ¬ call.Crosses g) : x.next g (.link call) =
    ⟨Lib.Fifo.note x.notes (g.index (makeOriginalPointer call.ptr)) call.dirty, x.pending⟩ := by
  rw [next, accesses, pendingAfter, if_neg h, if_neg h]
  rfl

theorem reaches_inPage (h : ¬ call.Crosses g) : x.Reaches g (.link call) ↔
    DirtyReaches x.notes (g.index (makeOriginalPointer call.ptr), call.dirty) := by
  rw [Reaches, accesses, if_neg h]
  exact and_iff_left trivial

theorem next_crossing (h : call.Crosses g) : x.next g (.link call) =
    ⟨noteAll x.notes (crossAccesses g call.ptr call.dirty), call.ptr⟩ := by
  rw [next, accesses, pendingAfter, if_pos h, if_pos h]

theorem reaches_crossing (h : call.Crosses g) : x.Reaches g (.link call) ↔
    AllReach x.notes (crossAccesses g call.ptr call.dirty) := by
  rw [Reaches, accesses, if_pos h]

theorem next_writeback_of_none (h : x.pending = 0) : x.next g .writeback = x := by
  rw [next, accesses, if_pos h, pendingAfter, ← h]
  rfl

theorem next_writeback (h : x.pending ≠ 0) : x.next g .writeback =
    ⟨noteAll x.notes (crossAccesses g x.pending 1), 0⟩ := by
  rw [next, accesses, if_neg h]
  rfl

theorem reaches_writeback (h : x.pending ≠ 0) : x.Reaches g .writeback ↔
    AllReach x.notes (crossAccesses g x.pending 1) := by
  rw [Reaches, accesses, if_neg h]

end ThreadNotes

/-- The storage of a thread with the notes `x` is kept. -/
structure ThreadSynced (c : StorageCache σ) (s : StoreId) (g : StoreGeometry) (pages : Nat)
    (w : World σ) (x : ThreadNotes) : Prop where
  synced : Synced c g pages x.notes w
  pending : w.gtCrosspageAccess = x.pending
  cross : PendingCross s g pages w

section Run

variable (h : CrossPageStore c env s g pages)

theorem CrossAccess.linkCrosses {p : Uintptr} {n : Nat} (ha : CrossAccess s g pages p n)
    (dirty : Byte) : (LinkCall.mk true p n 0 dirty).Crosses g := by
  have hcross := ha.crosses
  show (g.pageSize : Int) < g.inPage (makeOriginalPointer p) + (n : Int)
  omega

theorem LinkCall.InPage.not_crosses {call : LinkCall} (hcall : call.InPage s g pages) :
    ¬ call.Crosses g := by
  have hfit := hcall.inPage
  unfold LinkCall.Crosses
  omega

theorem CrossAccess.ne_zero {p : Uintptr} {n : Nat} (ha : CrossAccess s g pages p n) : p ≠ 0 := by
  rintro rfl
  have hptr := isCarmorPtr_of_switchCase ha.tagged
  exact absurd hptr (by decide)

include h

/-- A link call across a page takes the branch of the buffer. -/
theorem crossPageTemplate_of_crossAccess {p : Uintptr} {n : Nat} (ha : CrossAccess s g pages p n)
    (dirty : Byte) : carmorLinkCachedCrossPageTemplate env s p n 0 dirty =
      loadCrossPage env s p n dirty := by
  have hps : g.pageSize ≤ 2 ^ 30 := Nat.pow_le_pow_right (by decide) (by
    have hbits := h.pageBits_lt
    omega)
  have hlt := g.inPage_lt (makeOriginalPointer p)
  have hcrossing := ha.crosses
  have hsize := ha.size_le
  have hoff := toNat_pageOffset h.geometry (makeOriginalPointer p)
  have hn : (BitVec.ofInt 32 n).toNat = n := by
    rw [BitVec.ofInt_natCast, BitVec.toNat_ofNat, Nat.mod_eq_of_lt (by omega)]
  have hcross : crossesPage (env.stores s) (makeOriginalPointer p) n = true := by
    rw [crossesPage, decide_eq_true_iff, BitVec.lt_def, toNat_mpageSize h.geometry,
      BitVec.toNat_setWidth, BitVec.toNat_add, hoff, hn]
    omega
  have hptr := isCarmorPtr_of_switchCase ha.tagged
  unfold carmorLinkCachedCrossPageTemplate
  rw [if_neg (by simp [hptr]), hcross, if_pos rfl]
  rfl

/-- A link call inside a page returns the address in the frame that holds the page. -/
theorem exists_inPageLink {w : World σ} (hinv : TlbMapped c ns w) {call : LinkCall}
    (hcall : call.InPage s g pages) : ∃ f w',
      call.exec env s w = .ok (g.frameAddress f (g.inPage (makeOriginalPointer call.ptr))) w' ∧
      c.resident w'.store (g.page (makeOriginalPointer call.ptr)) = some f ∧
      LinkKeeps c g pages ns (makeOriginalPointer call.ptr) call.dirty w w' := by
  obtain ⟨f, w', hlink, hresident, hkeeps⟩ := exists_linkKeeps h.toCachedStore h.pages_le
    hcall.page_lt h.keeps h.pageBits_lt hinv hcall.nonneg hcall.inPage call.dirty
  exact ⟨f, w', LinkCall.exec_inPage h.geometry h.pageBits_lt hcall hlink, hresident, hkeeps⟩

/-- Every step that meets the condition keeps the storage. -/
theorem threadSynced_step {w w' : World σ} {x : ThreadNotes} {op : ThreadOp}
    (hinv : ThreadSynced c s g pages w x) (hreach : x.Reaches g op)
    (hstep : op.Step c env s g pages w w') : ThreadSynced c s g pages w' (x.next g op) := by
  cases op with
  | link call =>
    obtain ⟨hcall | ⟨hcross, hvector, n, hn, ha⟩, a, hrun⟩ := hstep
    · rw [ThreadNotes.reaches_inPage hcall.not_crosses] at hreach
      rw [ThreadNotes.next_inPage hcall.not_crosses]
      obtain ⟨f, w₁, hlink, -, hkeeps⟩ := exists_inPageLink h hinv.synced.toTlbMapped hcall
      cases hrun.symm.trans hlink
      refine ⟨hkeeps.synced hinv.synced hreach, hkeeps.crosspage.1.trans hinv.pending, ?_⟩
      unfold PendingCross
      rw [hkeeps.crosspage.1, hkeeps.crosspage.2]
      exact hinv.cross
    · have hcrosses : call.Crosses g := by
        have hlt := ha.crosses
        unfold LinkCall.Crosses
        omega
      rw [ThreadNotes.reaches_crossing hcrosses] at hreach
      rw [ThreadNotes.next_crossing hcrosses]
      obtain ⟨w₁, hload, -, hkept, hptr, hsize, -⟩ :=
        exists_loadCrossPage h hinv.synced ha call.dirty
      rw [LinkCall.exec, if_pos hcross, hn, hvector,
        crossPageTemplate_of_crossAccess h ha] at hrun
      cases hrun.symm.trans hload
      exact ⟨(hkept hreach).1, hptr, .inr ⟨n, hsize, hptr.symm ▸ ha⟩⟩
  | write mem =>
    obtain ⟨hlinked, rfl⟩ := hstep
    refine ⟨hinv.synced.withMem ?_, hinv.pending, hinv.cross⟩
    intro p hp
    cases hresident : c.resident w.store p with
    | none =>
      right
      rintro x rfl
      have hread := StorageCache.contents_of_absent (c := c) (m := (w.withMem mem).toMachine)
        hresident
      rw [hread, StorageCache.contents_of_absent hresident]
      rfl
    | some f =>
      rcases hlinked p f hresident with hdirty | hsame
      · exact .inl (.inr hdirty)
      · right
        rintro x rfl
        have hread := StorageCache.contents_of_resident (c := c) (m := (w.withMem mem).toMachine)
          hresident
        rw [hread, StorageCache.contents_of_resident hresident]
        exact hsame _ (g.inPage_lt x)
  | writeback =>
    rcases hinv.cross with hnone | ⟨n, hn, ha⟩
    · rw [ThreadNotes.next_writeback_of_none (hinv.pending.symm.trans hnone)]
      cases hstep.symm.trans (writeback_of_none hnone)
      exact hinv
    · have hne : x.pending ≠ 0 := hinv.pending ▸ ha.ne_zero
      rw [ThreadNotes.reaches_writeback hne, ← hinv.pending] at hreach
      rw [ThreadNotes.next_writeback hne, ← hinv.pending]
      obtain ⟨w₁, hrun, -, hinv', hptr, -⟩ := exists_writeback h hinv.synced ha rfl hn hreach
      cases hstep.symm.trans hrun
      exact ⟨hinv', hptr, .inl hptr⟩

omit h in
/-- The initialized thread, if the store starts with its pages saved. -/
theorem threadSynced_of_initialize (hcached : (env.stores s).lstoreIsDirect = false)
    {privData : Uintptr} {res : Int} {w₀ w : World σ}
    (hinit : carmorInitializeTemplate env s privData w₀ = .ok res w)
    (hknows : c.knows (List.replicate tlbSize emptyIndex) w.store)
    (hsaved : ∀ p < pages, c.Saved g w.toMachine p) : ThreadSynced c s g pages w .start := by
  obtain ⟨htlb, hnone, -⟩ := carmorInitialize_eq_ok hcached hinit
  refine ⟨⟨⟨?_, dirtyNoted_memset htlb, ?_⟩, fun p hp => .inl (hsaved p hp)⟩, hnone, .inl hnone⟩
  · rw [htlb, Tlb.pages_memset]
    exact hknows
  · intro mapping hmapping
    rw [htlb, Tlb.mappings_memset] at hmapping
    rw [List.eq_of_mem_replicate hmapping]
    exact .inl rfl

/-- An access of `n` bytes at `p` is split and merged: the link call returns a buffer with the storage
bytes and changes no storage, and once the program has overwritten the bytes in the buffer, the
write-back stores them, changes no other byte, reports both pages dirty and leaves nothing
pending. -/
def SplitMerged (c : StorageCache σ) (env : Env σ) (s : StoreId) (g : StoreGeometry) (pages : Nat)
    (p : Uintptr) (n : Nat) (dirty : Byte) (w : World σ) : Prop :=
  ∃ w', carmorLinkCachedCrossPageTemplate env s p n 0 dirty w = .ok env.gtCrossPageBuffer w' ∧
    (∀ i < n, w'.mem (cells env.gtCrossPageBuffer i) =
      c.contents g w.toMachine (cells (makeOriginalPointer p) i)) ∧
    (∀ x, g.page x < pages → c.contents g w'.toMachine x = c.contents g w.toMachine x) ∧
    (∀ a, ¬ c.InCache g a → (∀ i < n, cells env.gtCrossPageBuffer i ≠ a) →
      w'.mem a = w.mem a) ∧
    c.elsewhere w'.store = c.elsewhere w.store ∧
    ∀ v : Nat → Byte, ∃ w'', carmorWritebackCachedCrossPageTemplate env s
        (w'.withMem (overwrite w'.mem env.gtCrossPageBuffer v n)) = .ok () w'' ∧
      (∀ x, g.page x < pages → c.contents g w''.toMachine x =
        overwrite (c.contents g w.toMachine) (makeOriginalPointer p) v n x) ∧
      (∀ a, ¬ c.InCache g a → w''.mem a = overwrite w'.mem env.gtCrossPageBuffer v n a) ∧
      c.elsewhere w''.store = c.elsewhere w.store ∧
      DirtyReported g s (g.page (makeOriginalPointer p)) w' w'' ∧
      DirtyReported g s (g.page (makeOriginalPointer p) + 1) w' w'' ∧
      w''.gtCrosspageAccess = 0 ∧ w''.gtCrosspageAccessSize = 0 ∧
      carmorWritebackCachedCrossPageTemplate env s w'' = .ok () w''

/-- After any run from the initialization a crossing access is split and merged, if every dirty
entry that the run, the link call and the write-back drop is one whose notification reaches its
page. -/
theorem crossPage_splitMerge {privData : Uintptr} {res : Int} {w₀ w₁ w : World σ}
    (hinit : carmorInitializeTemplate env s privData w₀ = .ok res w₁)
    (hknows : c.knows (List.replicate tlbSize emptyIndex) w₁.store)
    (hsaved : ∀ q < pages, c.Saved g w₁.toMachine q) {ops : List ThreadOp}
    (hrun : Lib.Run (ThreadOp.Step c env s g pages) w₁ ops w) {p : Uintptr} {n : Nat}
    (ha : CrossAccess s g pages p n) (dirty : Byte)
    (hreach : Lib.Run.Followed (ThreadNotes.next g) (ThreadNotes.Reaches g) .start
      (ops ++ [.link ⟨true, p, n, 0, dirty⟩, .writeback])) :
    SplitMerged c env s g pages p n dirty w := by
  obtain ⟨hops, hlink, hback, -⟩ := Lib.Run.followed_append.mp hreach
  have hstart := threadSynced_of_initialize h.isCached hinit hknows hsaved
  have hinv := (hrun.invariant_of_followed (I := ThreadSynced c s g pages)
    (C := ThreadNotes.Reaches g) (fun _ _ _ _ hw hC hstep => threadSynced_step h hw hC hstep) hstart
    hops).synced
  generalize ops.foldl (ThreadNotes.next g) .start = x at *
  have hcrosses := ha.linkCrosses dirty
  rw [ThreadNotes.reaches_crossing hcrosses] at hlink
  rw [ThreadNotes.next_crossing hcrosses, ThreadNotes.reaches_writeback ha.ne_zero] at hback
  obtain ⟨w', hload, hbytes, hkept, hptr, hn, houtside, helsewhere⟩ :=
    exists_loadCrossPage h hinv ha dirty
  obtain ⟨hinv', hcontents⟩ := hkept hlink
  unfold SplitMerged
  rw [crossPageTemplate_of_crossAccess h ha]
  refine ⟨w', hload, hbytes, hcontents, houtside, helsewhere, ?_⟩
  intro v
  obtain ⟨w'', hrunBack, hstored, -, hptr'', hn'', hfirst, hsecond, houtside'', helsewhere''⟩ :=
    exists_writeback_overwritten h hinv' ha hptr hn hback v
  refine ⟨w'', hrunBack, ?_, houtside'', helsewhere''.trans helsewhere, hfirst, hsecond, hptr'', hn'',
    writeback_of_none hptr''⟩
  intro x hx
  rw [hstored x hx]
  unfold overwrite
  split
  · rfl
  · exact hcontents x hx

omit h in
/-- Writes to the frame of a page with a dirty entry. -/
theorem writesLinked_of_dirty (h : CrossPageStore c env s g pages) {w : World σ} {T : List Unsigned}
    (hknows : c.knows T w.store) {p f : Nat} (hresident : c.resident w.store p = some f)
    (hdirty : (w.tlb .gtTLB).DirtyPage p) {mem : Memory}
    (hmem : ∀ a, (∀ o < g.pageSize, g.frameAddress f o ≠ a) → mem a = w.mem a) :
    WritesLinked c g w mem := by
  intro q f' hq
  by_cases hqp : q = p
  · exact .inl (hqp ▸ hdirty)
  · right
    intro o ho
    apply hmem
    intro o' ho' heq
    have hf := h.keeps.resident_lt hknows hresident
    have hf' := h.keeps.resident_lt hknows hq
    have hframes := h.keeps.frames_le
    obtain ⟨rfl, -⟩ := g.frameAddress_inj h.pageBits_lt (by omega) (by omega) ho' ho heq
    exact hqp (h.keeps.resident_inj hknows hq hresident)

end Run

/-- Link calls inside pages are a run of a thread. -/
theorem ThreadOp.run_of_links {c : StorageCache σ} {env : Env σ} {s : StoreId} {g : StoreGeometry}
    {pages : Nat} {calls : List LinkCall} {w w' : World σ}
    (hcalls : ∀ call ∈ calls, call.InPage s g pages)
    (hrun : Lib.Run (LinkCall.Step env s) w calls w') :
    Lib.Run (ThreadOp.Step c env s g pages) w (calls.map .link) w' := by
  induction hrun with
  | nil w => exact .nil w
  | @cons w w₁ w' call calls hstep _ ih =>
    have hfirst : ThreadOp.Step c env s g pages w (.link call) w₁ :=
      ⟨.inl (hcalls call List.mem_cons_self), hstep⟩
    exact .cons hfirst (ih fun x hx => hcalls x (List.mem_cons_of_mem _ hx))

/-! ## A store that evicts -/

namespace PagedStore

theorem pagedEnv_crossPageStore (always : Bool) :
    CrossPageStore (cache always) (pagedEnv always) .lstore0 smallGeometry 256 where
  toCachedStore := pagedEnv_cachedStore
  keeps := pagedEnv_keeps
  pageBits_lt := by decide
  pages_le := by decide
  buffer_outside := by
    rintro i hi ⟨f, o, hf, ho, heq⟩
    have hnat := congrArg BitVec.toNat heq
    change f < 6 at hf
    change o < 0x1000 at ho
    change ((0x200000 : Uintptr) + BitVec.ofNat 64 i).toNat =
      ((0x100000 : Uintptr) + BitVec.ofNat 64 (f * 0x1000 + o)).toNat at hnat
    have hbuffer : (0x200000 : Uintptr).toNat = 0x200000 := rfl
    have hbase : (0x100000 : Uintptr).toNat = 0x100000 := rfl
    rw [toNat_add_ofNat (by omega), toNat_add_ofNat (by omega)] at hnat
    omega

theorem threadSynced_initialWorld (always : Bool) :
    ThreadSynced (cache always) .lstore0 smallGeometry 256 (initialWorld always) .start :=
  threadSynced_of_initialize
    (pagedEnv_cachedStore : CachedStore (pagedEnv always) .lstore0 smallGeometry).isCached
    carmorInitialize_pagedEnv.choose_spec initialWorld_knows fun p _ => initialWorld_saved p

/-- A link call for 8 bytes at an `lstore0` address. -/
def linkAt (u : Uintptr) (dirty : Byte) : LinkCall := ⟨true, makeMstorePtr .lstore0 u, 8, 0, dirty⟩

/-- The store, and the thread, after the first byte of a page has been linked as dirty. -/
def dirtied (u : Uintptr) : World PagedStore :=
  Lib.finalState ((linkAt u 1).exec (pagedEnv false) .lstore0 (initialWorld false))

/-- The program's write of a byte to the page, which is in the sixth frame. -/
def byteWritten (u : Uintptr) : Memory :=
  overwrite (dirtied u).mem (smallGeometry.frameAddress 5 0) (fun _ => 0x5a) 1

/-- The thread after it has written the byte and read other pages. -/
def worldAfterReads (u : Uintptr) (us : List Uintptr) : World PagedStore :=
  Lib.finalState (LinkCall.execAll (pagedEnv false) .lstore0 (us.map fun x => linkAt x 0)
    ((dirtied u).withMem (byteWritten u)))

def writeThenReads (u : Uintptr) (us : List Uintptr) : List ThreadOp :=
  .link (linkAt u 1) :: .write (byteWritten u) :: (us.map fun x => linkAt x 0).map .link

theorem run_writeThenReads {u : Uintptr} {us : List Uintptr}
    (hcalls : ((u, 1) :: us.map (·, 0)).all (fun x =>
      decide ((linkAt x.1 x.2).InPage .lstore0 smallGeometry 256)) = true)
    (hdirtied : Lib.succeeds ((linkAt u 1).exec (pagedEnv false) .lstore0 (initialWorld false)) = true)
    (hframe : (dirtied u).store.frame
      (smallGeometry.page (makeOriginalPointer (makeMstorePtr .lstore0 u))) = some 5)
    (hreads : Lib.succeeds (LinkCall.execAll (pagedEnv false) .lstore0 (us.map fun x => linkAt x 0)
      ((dirtied u).withMem (byteWritten u))) = true) :
    Lib.Run (ThreadOp.Step (cache false) (pagedEnv false) .lstore0 smallGeometry 256) (initialWorld false)
      (writeThenReads u us) (worldAfterReads u us) := by
  have hstart := threadSynced_initialWorld false
  have hcall : ∀ {x d}, (x, d) ∈ (u, (1 : Byte)) :: us.map (·, 0) →
      (linkAt x d).InPage .lstore0 smallGeometry 256 := fun hx =>
    of_decide_eq_true (List.all_eq_true.mp hcalls _ hx)
  have hfirst := hcall List.mem_cons_self
  obtain ⟨a, hlink⟩ := Lib.exists_ok_of_succeeds hdirtied
  obtain ⟨f, w', hlink', -, hkeeps⟩ :=
    exists_inPageLink (pagedEnv_crossPageStore false) hstart.synced.toTlbMapped hfirst
  cases hlink.symm.trans hlink'
  have hlinked : WritesLinked (cache false) smallGeometry (dirtied u) (byteWritten u) := by
    refine writesLinked_of_dirty (pagedEnv_crossPageStore false) hkeeps.mapped.knows hframe
      (hkeeps.dirty (show (1 : Byte) ≠ 0 by decide)) ?_
    intro b hb
    apply overwrite_of_ne
    intro i hi
    rw [Nat.lt_one_iff.mp hi, cells_zero]
    exact hb 0 (by decide)
  have hrest : ∀ call ∈ us.map fun x => linkAt x 0, call.InPage .lstore0 smallGeometry 256 := by
    intro call hmem
    obtain ⟨x, hx, rfl⟩ := List.mem_map.mp hmem
    exact hcall (List.mem_cons_of_mem _ (List.mem_map_of_mem hx))
  exact .cons ⟨.inl hfirst, _, hlink⟩ (.cons ⟨hlinked, rfl⟩ (ThreadOp.run_of_links hrest
    (LinkCall.run_of_execAll (Lib.exists_ok_of_succeeds hreads).choose_spec)))

/-- An access of 16 bytes across the end of page 5. -/
theorem crossAccess_page5 : CrossAccess .lstore0 smallGeometry 256 (makeMstorePtr .lstore0 0x5ff8) 16
    where
  tagged := by decide
  size_le := by decide
  size_le_page := by decide
  crosses := by decide
  page_lt := by decide
  inStore := by decide

/-- The page that was written has left the TLB, and the fault on page 6 evicts it. -/
theorem crossPage_splitMerge_evicted :
    SplitMerged (cache false) (pagedEnv false) .lstore0 smallGeometry 256 (makeMstorePtr .lstore0 0x5ff8)
      16 1 (worldAfterReads 0 [0x1000, 0x2000, 0x3000, 0x4000, 0x5000]) :=
  crossPage_splitMerge (pagedEnv_crossPageStore false) carmorInitialize_pagedEnv.choose_spec initialWorld_knows
    (fun q _ => initialWorld_saved q)
    (run_writeThenReads (by decide +kernel) (by decide +kernel) (by decide +kernel)
      (by decide +kernel))
    crossAccess_page5 1 (by decide +kernel)

/-- An access of 16 bytes across the end of page 8. -/
theorem crossAccess_page8 : CrossAccess .lstore0 smallGeometry 256 (makeMstorePtr .lstore0 0x8ff8) 16
    where
  tagged := by decide
  size_le := by decide
  size_le_page := by decide
  crosses := by decide
  page_lt := by decide
  inStore := by decide

/-- The drop of page 9, which is dirty, at the miss on page 4 is told of another page. The fault on
page 8 then evicts page 9 as it was fetched, and the link call returns a byte from before the
write. -/
theorem not_splitMerged_lostPage :
    CrossPageStore (cache false) (pagedEnv false) .lstore0 smallGeometry 256 ∧
      Lib.Run (ThreadOp.Step (cache false) (pagedEnv false) .lstore0 smallGeometry 256) (initialWorld false)
        (writeThenReads 0x9000 [0, 0x1000, 0x2000, 0x3000, 0x4000])
        (worldAfterReads 0x9000 [0, 0x1000, 0x2000, 0x3000, 0x4000]) ∧
      CrossAccess .lstore0 smallGeometry 256 (makeMstorePtr .lstore0 0x8ff8) 16 ∧
      ¬ SplitMerged (cache false) (pagedEnv false) .lstore0 smallGeometry 256
        (makeMstorePtr .lstore0 0x8ff8) 16 0
        (worldAfterReads 0x9000 [0, 0x1000, 0x2000, 0x3000, 0x4000]) := by
  refine ⟨pagedEnv_crossPageStore false, run_writeThenReads (by decide +kernel) (by decide +kernel)
    (by decide +kernel) (by decide +kernel), crossAccess_page8, ?_⟩
  rintro ⟨w', hlink, hbytes, -⟩
  have hread := hbytes 8 (by decide)
  rw [cache_contents] at hread
  have hstale : (match carmorLinkCachedCrossPageTemplate (pagedEnv false) .lstore0
      (makeMstorePtr .lstore0 0x8ff8) (16 : Nat) 0 0
      (worldAfterReads 0x9000 [0, 0x1000, 0x2000, 0x3000, 0x4000]) with
    | .ok _ w' => w'.mem (cells (pagedEnv false).gtCrossPageBuffer 8) == 0
    | .error _ _ => false) = true := by decide +kernel
  rw [hlink] at hstale
  rw [eq_of_beq hstale] at hread
  revert hread
  decide +kernel

end PagedStore

end Carmor
