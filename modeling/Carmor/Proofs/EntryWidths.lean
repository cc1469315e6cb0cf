import Carmor.Proofs.PinBalance
import Carmor.Proofs.Resident

/-!
# The widths of a TLB entry

An entry keeps 32 bits of a page index and 16 bits of a frame number, and a hit adds 32 bits of
the offset in the page. For a storage and a cache of given sizes these widths are enough up to an
exact limit.
-/

namespace Carmor

variable {σ : Type}

/-- An address of a storage whose last page is `lastPage`. Its offset is below `2 ^ 60`, which is
what the tag leaves. -/
def StoreGeometry.InStorage (g : StoreGeometry) (lastPage : Nat) (u : Uintptr) : Prop :=
  g.offset u < 2 ^ 60 ∧ g.page u ≤ lastPage

/-- The entries identify pages and frames: an entry matches one page of the storage, the entries of
the initialized TLB match none, and a hit on the page of a miss that returned an address of frame
`f` gives an address of that frame. -/
structure EntriesIdentify (st : LStore σ) (g : StoreGeometry) (lastPage lastFrame : Nat) : Prop where
  apart : ∀ {u v} (e : TlbEntry), g.InStorage lastPage u → g.InStorage lastPage v →
    e.bsPageIndex = bsPageIndex st u → e.bsPageIndex = bsPageIndex st v → g.page u = g.page v
  unused : ∀ {u} dirty, g.InStorage lastPage u →
    (Tlb.memset 0xff).lookup (bsPageIndex st u) dirty = none
  rebuilt : ∀ {u v f} dirty, g.InStorage lastPage u → g.InStorage lastPage v →
    g.page u = g.page v → f ≤ lastFrame →
    hitAddress st v (missEntry st u (g.frameAddress f (g.inPage u)) dirty) =
      g.frameAddress f (g.inPage v)

/-- Every byte of the storage has an address. -/
theorem StoreGeometry.exists_inStorage (g : StoreGeometry) (lastPage p o : Nat) (hp : p ≤ lastPage)
    (ho : o < g.pageSize) (hlt : p * g.pageSize + o < 2 ^ 60) :
    ∃ u, g.InStorage lastPage u ∧ g.page u = p ∧ g.inPage u = o := by
  have hoff : g.offset (g.storageBase + BitVec.ofNat 64 (p * g.pageSize + o)) =
      p * g.pageSize + o := by
    rw [offset, BitVec.add_comm, BitVec.add_sub_cancel, BitVec.toNat_ofNat, Nat.mod_eq_of_lt (by omega)]
  have hpage := g.page_eq_of_offset ho hoff
  exact ⟨_, ⟨by omega, by omega⟩, hpage, g.inPage_eq_of_offset ho hoff⟩

section HasGeometry

variable {st : LStore σ} {g : StoreGeometry} (hgeom : st.HasGeometry g) {lastPage lastFrame : Nat}
include hgeom

/-- Where a hit points, as an offset in the cache. -/
theorem toNat_hitAddress_sub (u : Uintptr) (e : TlbEntry) :
    (hitAddress st u e - g.cacheBase).toNat =
      (e.epcPageIndex.toNat * g.pageSize + g.inPage u % 2 ^ 32) % 2 ^ 64 := by
  have hepc := e.epcPageIndex.isLt
  have hoff := toNat_pageOffset hgeom u
  have hsub : hitAddress st u e - g.cacheBase =
      e.epcPageIndex.setWidth 64 * st.lstoreGetMpageSize + (pageOffset st u).setWidth 64 := by
    rw [hitAddress, hgeom.cacheBase, BitVec.add_assoc, BitVec.add_comm, BitVec.add_sub_cancel]
  rw [hsub, BitVec.toNat_add, BitVec.toNat_mul, BitVec.toNat_setWidth, BitVec.toNat_setWidth, hoff,
    toNat_mpageSize hgeom, Nat.mod_eq_of_lt (show e.epcPageIndex.toNat < 2 ^ 64 by omega)]
  omega

/-- A page whose index is all ones is taken for an unused entry. -/
theorem EntriesIdentify.lastPage_lt (h : EntriesIdentify st g lastPage lastFrame)
    (hlast : lastPage * g.pageSize < 2 ^ 60) : lastPage < 2 ^ 32 - 1 := by
  by_contra hle
  have hmul : (2 ^ 32 - 1) * g.pageSize ≤ lastPage * g.pageSize :=
    Nat.mul_le_mul_right _ (by omega)
  obtain ⟨u, hu, hpage, -⟩ := g.exists_inStorage lastPage (2 ^ 32 - 1) 0 (by omega)
    g.pageSize_pos (by omega)
  have hindex := toNat_bsPageIndex hgeom u
  have hempty : bsPageIndex st u = emptyIndex := by
    apply BitVec.eq_of_toNat_eq
    rw [hindex, hpage]
    rfl
  have hmiss := Tlb.lookup_eq_none_iff.mp (h.unused 0 hu)
  rw [hempty, Tlb.pages_memset] at hmiss
  exact hmiss (by decide)

/-- An offset of 33 bits is cut off on a hit. -/
theorem EntriesIdentify.pageBits_le (h : EntriesIdentify st g lastPage lastFrame) :
    g.pageBits ≤ 32 := by
  by_contra hlt
  have hps : 2 ^ 33 ≤ g.pageSize := Nat.pow_le_pow_right (by decide) (by omega)
  obtain ⟨u, hu, -, hin⟩ := g.exists_inStorage lastPage 0 (2 ^ 32) (Nat.zero_le _) (by omega)
    (by omega)
  have hbuilt := congrArg (fun a => (a - g.cacheBase).toNat)
    (h.rebuilt 0 hu hu rfl (Nat.zero_le lastFrame))
  simp only [toNat_hitAddress_sub hgeom, toNat_missEntry_epcPageIndex hgeom,
    g.toNat_frameAddress_sub, hin] at hbuilt
  rw [Nat.zero_mul, Nat.zero_add, Nat.mod_eq_of_lt (show 2 ^ 32 < 2 ^ 64 by decide),
    Nat.div_eq_of_lt (by omega)] at hbuilt
  omega

/-- Frame `2 ^ 16` is taken for frame 0. -/
theorem EntriesIdentify.lastFrame_lt (h : EntriesIdentify st g lastPage lastFrame) :
    lastFrame < 2 ^ 16 := by
  by_contra hle
  have hbits := h.pageBits_le hgeom
  have hpos := g.pageSize_pos
  have hps : g.pageSize ≤ 2 ^ 32 := Nat.pow_le_pow_right (by decide) hbits
  obtain ⟨u, hu, -, hin⟩ := g.exists_inStorage lastPage 0 0 (Nat.zero_le _) hpos (by omega)
  have hbuilt := congrArg (fun a => (a - g.cacheBase).toNat)
    (h.rebuilt (f := 2 ^ 16) 0 hu hu rfl (by omega))
  simp only [toNat_hitAddress_sub hgeom, toNat_missEntry_epcPageIndex hgeom,
    g.toNat_frameAddress_sub, hin, Nat.add_zero] at hbuilt
  rw [Nat.mod_eq_of_lt (show 2 ^ 16 * g.pageSize < 2 ^ 64 by omega),
    Nat.mul_div_cancel _ hpos] at hbuilt
  omega

/-- Below the limits nothing is cut off. -/
theorem entriesIdentify_of_lt (hpage : lastPage < 2 ^ 32 - 1) (hframe : lastFrame < 2 ^ 16)
    (hbits : g.pageBits ≤ 32) : EntriesIdentify st g lastPage lastFrame := by
  have hps : g.pageSize ≤ 2 ^ 32 := Nat.pow_le_pow_right (by decide) hbits
  refine ⟨?_, ?_, ?_⟩
  · intro u v e hu hv heu hev
    have hindex : (bsPageIndex st u).toNat = (bsPageIndex st v).toNat := by rw [← heu, ← hev]
    have hup := hu.2
    have hvp := hv.2
    rw [toNat_bsPageIndex hgeom, toNat_bsPageIndex hgeom] at hindex
    omega
  · intro u dirty hu
    have hup := hu.2
    have hindex := toNat_bsPageIndex hgeom u
    rw [Tlb.lookup_eq_none_iff, Tlb.pages_memset]
    intro hmem
    exact ne_emptyIndex_of_lt (by omega) (List.eq_of_mem_replicate hmem)
  · intro u v f dirty hu hv hsame hf
    rw [hitAddress_eq hgeom hps, missEntry_epcPageIndex hgeom (by omega) (g.inPage_lt u) hps]

/-- The entries identify pages and frames exactly if the storage has fewer than `2 ^ 32` pages, the
cache has at most `2 ^ 16` frames and a page has at most `2 ^ 32` bytes. -/
theorem entriesIdentify_iff (hlast : lastPage * g.pageSize < 2 ^ 60) :
    EntriesIdentify st g lastPage lastFrame ↔
      lastPage < 2 ^ 32 - 1 ∧ lastFrame < 2 ^ 16 ∧ g.pageBits ≤ 32 := by
  constructor
  · intro h
    exact ⟨h.lastPage_lt hgeom hlast, h.lastFrame_lt hgeom, h.pageBits_le hgeom⟩
  · rintro ⟨hpage, hframe, hbits⟩
    exact entriesIdentify_of_lt hgeom hpage hframe hbits

end HasGeometry

/-- A storage of 1 MiB and a cache of 256 MiB, in pages of 4 KiB. -/
theorem entriesIdentify_iff_smallEnv :
    255 * smallGeometry.pageSize < 2 ^ 60 ∧
      (EntriesIdentify (smallEnv.stores .lstore0) smallGeometry 255 0xffff ↔
        255 < 2 ^ 32 - 1 ∧ 0xffff < 2 ^ 16 ∧ smallGeometry.pageBits ≤ 32) :=
  ⟨by decide, entriesIdentify_iff smallEnv_cachedStore.geometry (by decide)⟩

/-- With one frame more a hit takes the last frame for the first one. -/
theorem not_entriesIdentify_manyFrames :
    ¬ EntriesIdentify (smallEnv.stores .lstore0) smallGeometry 255 0x10000 := by
  intro h
  have hframe := h.lastFrame_lt smallEnv_cachedStore.geometry
  omega

end Carmor
