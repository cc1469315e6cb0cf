import Carmor.Heap
import Mathlib.Algebra.Order.Ring.Nat
import Mathlib.Tactic.Ring

/-!
# Pages and frames

A cached store keeps its storage in pages of a power-of-two size and maps them to frames of
its page cache. The runtime computes with the addresses modulo `2 ^ 64` and with page indices
modulo `2 ^ 32`; here both are related to natural numbers.
-/

namespace Carmor

variable {σ : Type}

/-- Where a cached store has its storage and its cache, and how large its pages are. -/
structure StoreGeometry where
  storageBase : Uintptr
  cacheBase : Uintptr
  pageBits : Nat
  pageBits_lt : pageBits < 64

namespace StoreGeometry

variable (g : StoreGeometry)

def pageSize : Nat := 2 ^ g.pageBits

/-- The offset of an untagged address in the storage. -/
def offset (u : Uintptr) : Nat := (u - g.storageBase).toNat

def page (u : Uintptr) : Nat := g.offset u / g.pageSize

def inPage (u : Uintptr) : Nat := g.offset u % g.pageSize

/-- The cache address of offset `o` of frame `f`. -/
def frameAddress (f o : Nat) : Uintptr := g.cacheBase + BitVec.ofNat 64 (f * g.pageSize + o)

theorem pageSize_pos : 0 < g.pageSize := Nat.two_pow_pos _

theorem pageSize_mul : g.pageSize * 2 ^ (64 - g.pageBits) = 2 ^ 64 := by
  rw [pageSize, ← Nat.pow_add, Nat.add_sub_cancel' (Nat.le_of_lt g.pageBits_lt)]

theorem pageSize_dvd : g.pageSize ∣ 2 ^ 64 := ⟨_, g.pageSize_mul.symm⟩

theorem pageSize_lt : g.pageSize < 2 ^ 64 :=
  Nat.pow_lt_pow_right (by decide) g.pageBits_lt

theorem inPage_lt (u : Uintptr) : g.inPage u < g.pageSize := Nat.mod_lt _ g.pageSize_pos

theorem offset_eq (u : Uintptr) : g.offset u = g.page u * g.pageSize + g.inPage u := by
  rw [page, inPage, Nat.div_add_mod']

theorem offset_lt (u : Uintptr) : g.offset u < 2 ^ 64 := (u - g.storageBase).isLt

theorem page_lt (u : Uintptr) : g.page u < 2 ^ (64 - g.pageBits) := by
  rw [page, Nat.div_lt_iff_lt_mul g.pageSize_pos, Nat.mul_comm, g.pageSize_mul]
  exact g.offset_lt u

/-- The page of an address whose storage offset is known modulo `2 ^ 64`. -/
theorem page_eq_of_offset {u : Uintptr} {p o : Nat} (ho : o < g.pageSize)
    (h : g.offset u = p * g.pageSize + o) : g.page u = p := by
  rw [page, h, Nat.mul_comm, Nat.mul_add_div g.pageSize_pos, Nat.div_eq_of_lt ho, Nat.add_zero]

theorem inPage_eq_of_offset {u : Uintptr} {p o : Nat} (ho : o < g.pageSize)
    (h : g.offset u = p * g.pageSize + o) : g.inPage u = o := by
  rw [inPage, h, Nat.mul_comm, Nat.mul_add_mod, Nat.mod_eq_of_lt ho]

/-- The offset inside the cache of a frame address. -/
theorem toNat_frameAddress_sub (f o : Nat) :
    (g.frameAddress f o - g.cacheBase).toNat = (f * g.pageSize + o) % 2 ^ 64 := by
  have hsub : g.frameAddress f o - g.cacheBase = BitVec.ofNat 64 (f * g.pageSize + o) := by
    rw [frameAddress, BitVec.add_comm, BitVec.add_sub_cancel]
  rw [hsub, BitVec.toNat_ofNat]

/-- Different frames, and different offsets in a frame, have different addresses. -/
theorem frameAddress_inj (hbits : g.pageBits < 31) {f f' o o' : Nat} (hf : f < 2 ^ 16)
    (hf' : f' < 2 ^ 16) (ho : o < g.pageSize) (ho' : o' < g.pageSize)
    (h : g.frameAddress f o = g.frameAddress f' o') : f = f' ∧ o = o' := by
  have hps : g.pageSize ≤ 2 ^ 30 := Nat.pow_le_pow_right (by decide) (by omega)
  have hlt : ∀ {i j : Nat}, i < 2 ^ 16 → j < g.pageSize → i * g.pageSize + j < 2 ^ 64 := by
    intro i j hi hj
    have hmul : i * g.pageSize ≤ 2 ^ 16 * 2 ^ 30 := Nat.mul_le_mul (by omega) hps
    omega
  have hsub := congrArg (fun a => (a - g.cacheBase).toNat) h
  simp only [g.toNat_frameAddress_sub, Nat.mod_eq_of_lt (hlt hf ho),
    Nat.mod_eq_of_lt (hlt hf' ho')] at hsub
  have hdiv := congrArg (· / g.pageSize) hsub
  have hmod := congrArg (· % g.pageSize) hsub
  simp only [Nat.mul_comm _ g.pageSize, Nat.mul_add_div g.pageSize_pos, Nat.mul_add_mod,
    Nat.div_eq_of_lt ho, Nat.div_eq_of_lt ho', Nat.mod_eq_of_lt ho, Nat.mod_eq_of_lt ho'] at hdiv hmod
  exact ⟨hdiv, hmod⟩

/-- The page index of an address, as the TLB keeps it. -/
def index (u : Uintptr) : Unsigned := BitVec.ofNat 32 (g.page u)

theorem toNat_index {g : StoreGeometry} {u : Uintptr} (hu : g.page u < 2 ^ 32 - 1) :
    (g.index u).toNat = g.page u := by
  unfold index
  rw [BitVec.toNat_ofNat]
  omega

end StoreGeometry

/-- The store's callbacks report the geometry `g`. -/
structure LStore.HasGeometry (st : LStore σ) (g : StoreGeometry) : Prop where
  pageSize : st.lstoreGetMpageSize = BitVec.ofNat 64 g.pageSize
  pageBits : st.lstoreGetMpageBits = g.pageBits
  cacheBase : st.lstoreGetMpageCacheBasePtr = g.cacheBase
  storagePage : ∀ p, st.lstoreGetMstoragePage p = p - g.storageBase

section HasGeometry

variable {st : LStore σ} {g : StoreGeometry} (h : st.HasGeometry g)
include h

theorem toNat_mpageSize : st.lstoreGetMpageSize.toNat = g.pageSize := by
  rw [h.pageSize, BitVec.toNat_ofNat, Nat.mod_eq_of_lt g.pageSize_lt]

/-- `x & (lstore_get_mpage_size() - 1)` is the remainder by the page size. -/
theorem toNat_and_mpageMask (x : BitVec 64) :
    (x &&& (st.lstoreGetMpageSize - 1)).toNat = x.toNat % g.pageSize := by
  have hpos := g.pageSize_pos
  have hlt := g.pageSize_lt
  have hmask : (st.lstoreGetMpageSize - 1).toNat = 2 ^ g.pageBits - 1 := by
    rw [BitVec.toNat_sub, toNat_mpageSize h, show (1 : BitVec 64).toNat = 1 from rfl,
      StoreGeometry.pageSize]
    rw [StoreGeometry.pageSize] at hpos hlt
    omega
  rw [BitVec.toNat_and, hmask, Nat.and_two_pow_sub_one_eq_mod]
  rfl

theorem toNat_bsPageIndex (u : Uintptr) : (bsPageIndex st u).toNat = g.page u % 2 ^ 32 := by
  rw [bsPageIndex, BitVec.toNat_setWidth, BitVec.toNat_ushiftRight, h.storagePage, h.pageBits,
    Nat.shiftRight_eq_div_pow]
  rfl

theorem bsPageIndex_eq_index (u : Uintptr) : bsPageIndex st u = g.index u := by
  apply BitVec.eq_of_toNat_eq
  rw [toNat_bsPageIndex h]
  exact (BitVec.toNat_ofNat ..).symm

theorem toNat_pageOffset (u : Uintptr) : (pageOffset st u).toNat = g.inPage u % 2 ^ 32 := by
  rw [pageOffset, BitVec.toNat_setWidth, toNat_and_mpageMask h, h.storagePage]
  rfl

/-- The rebuilt address of a hit is the address of the access in the entry's frame. -/
theorem hitAddress_eq {u : Uintptr} {e : TlbEntry} (hps : g.pageSize ≤ 2 ^ 32) :
    hitAddress st u e = g.frameAddress e.epcPageIndex.toNat (g.inPage u) := by
  have hin := g.inPage_lt u
  have hepc := e.epcPageIndex.isLt
  rw [hitAddress, StoreGeometry.frameAddress, h.cacheBase, h.pageSize, BitVec.add_assoc]
  congr 1
  apply BitVec.eq_of_toNat_eq
  have hoff : (pageOffset st u).toNat = g.inPage u := by
    rw [toNat_pageOffset h, Nat.mod_eq_of_lt (by omega)]
  simp only [BitVec.toNat_add, BitVec.toNat_mul, BitVec.toNat_setWidth, BitVec.toNat_ofNat, hoff]
  rw [Nat.mod_eq_of_lt (show e.epcPageIndex.toNat < 2 ^ 64 by omega),
    Nat.mod_eq_of_lt (show g.pageSize < 2 ^ 64 by omega),
    Nat.mod_eq_of_lt (show g.inPage u < 2 ^ 64 by omega), Nat.mod_add_mod]

/-- A miss keeps 16 bits of the frame number of the address that the handler returned. -/
theorem toNat_missEntry_epcPageIndex (u res : Uintptr) (dirty : Byte) :
    (missEntry st u res dirty).epcPageIndex.toNat =
      (res - g.cacheBase).toNat / g.pageSize % 2 ^ 16 := by
  show (((res - st.lstoreGetMpageCacheBasePtr) >>> st.lstoreGetMpageBits).setWidth 16).toNat = _
  rw [BitVec.toNat_setWidth, BitVec.toNat_ushiftRight, h.cacheBase, h.pageBits,
    Nat.shiftRight_eq_div_pow]
  rfl

/-- A miss stores the frame number of the address that the handler returned. -/
theorem missEntry_epcPageIndex {u : Uintptr} {f o : Nat} {dirty : Byte} (hf : f < 2 ^ 16)
    (ho : o < g.pageSize) (hps : g.pageSize ≤ 2 ^ 32) :
    (missEntry st u (g.frameAddress f o) dirty).epcPageIndex.toNat = f := by
  have hbound : f * g.pageSize + o < 2 ^ 64 := by
    have hmul : f * g.pageSize ≤ (2 ^ 16 - 1) * 2 ^ 32 := Nat.mul_le_mul (by omega) hps
    omega
  have hdiv : (f * g.pageSize + o) / g.pageSize = f := by
    rw [Nat.mul_comm, Nat.mul_add_div g.pageSize_pos, Nat.div_eq_of_lt ho, Nat.add_zero]
  rw [toNat_missEntry_epcPageIndex h, g.toNat_frameAddress_sub, Nat.mod_eq_of_lt hbound, hdiv,
    Nat.mod_eq_of_lt hf]

/-! ## The page named by a drop notification -/

/-- The pointer of a drop notification, as an offset: the page index difference is reduced
modulo `2 ^ 32` before it is scaled. -/
theorem removedBsPage_sub (u : Uintptr) (r : TlbEntry) :
    removedBsPage st u r - g.storageBase =
      (u - g.storageBase) -
        (bsPageIndex st u - r.bsPageIndex).setWidth 64 * BitVec.ofNat 64 g.pageSize := by
  rw [removedBsPage, h.pageSize]
  bv_omega

/-- The offset of the notified pointer, with the scaled index difference as a number. -/
theorem offset_removedBsPage (u : Uintptr) (r : TlbEntry) :
    g.offset (removedBsPage st u r) =
      (2 ^ 64 - (bsPageIndex st u - r.bsPageIndex).toNat * g.pageSize % 2 ^ 64 + g.offset u) %
        2 ^ 64 := by
  have hdelta := (bsPageIndex st u - r.bsPageIndex).isLt
  rw [StoreGeometry.offset, removedBsPage_sub h, BitVec.toNat_sub, BitVec.toNat_mul,
    BitVec.toNat_setWidth, BitVec.toNat_ofNat, Nat.mod_eq_of_lt g.pageSize_lt,
    Nat.mod_eq_of_lt (Nat.lt_trans hdelta (by decide))]
  rfl

section RemovedPage

variable {u : Uintptr} {r : TlbEntry} (hu : g.page u < 2 ^ 32)
include hu

theorem toNat_pageIndex_sub_of_le (hr : r.bsPageIndex.toNat ≤ g.page u) :
    (bsPageIndex st u - r.bsPageIndex).toNat = g.page u - r.bsPageIndex.toNat := by
  have hindex := toNat_bsPageIndex h u
  rw [BitVec.toNat_sub, hindex]
  omega

theorem toNat_pageIndex_sub_of_lt (hr : g.page u < r.bsPageIndex.toNat) :
    (bsPageIndex st u - r.bsPageIndex).toNat = 2 ^ 32 - (r.bsPageIndex.toNat - g.page u) := by
  have hindex := toNat_bsPageIndex h u
  have hrlt := r.bsPageIndex.isLt
  rw [BitVec.toNat_sub, hindex]
  omega

/-- The notification reaches the page of the evicted entry if that page lies below the new
one. -/
theorem page_removedBsPage_of_le (hr : r.bsPageIndex.toNat ≤ g.page u) :
    g.page (removedBsPage st u r) = r.bsPageIndex.toNat := by
  have hin := g.inPage_lt u
  have hoff := g.offset_eq u
  have hofflt := g.offset_lt u
  obtain ⟨d, hd⟩ := Nat.le.dest hr
  have hmul : g.page u * g.pageSize = r.bsPageIndex.toNat * g.pageSize + d * g.pageSize := by
    rw [← hd, Nat.add_mul]
  apply g.page_eq_of_offset hin
  rw [offset_removedBsPage h, toNat_pageIndex_sub_of_le h hu hr,
    show g.page u - r.bsPageIndex.toNat = d by omega,
    Nat.mod_eq_of_lt (show d * g.pageSize < 2 ^ 64 by omega)]
  omega

/-- For an evicted page above the new one the index difference wraps, and the notified page is
`2 ^ 32` pages too low. -/
theorem page_removedBsPage_of_lt (hbits : g.pageBits < 32)
    (hr : g.page u < r.bsPageIndex.toNat) :
    g.page (removedBsPage st u r) = 2 ^ (64 - g.pageBits) - 2 ^ 32 + r.bsPageIndex.toNat := by
  have hin := g.inPage_lt u
  have hoff := g.offset_eq u
  have hrlt := r.bsPageIndex.isLt
  have hps : g.pageSize ≤ 2 ^ 31 := Nat.pow_le_pow_right (by decide) (by omega)
  have hpages : 2 ^ 33 ≤ 2 ^ (64 - g.pageBits) := Nat.pow_le_pow_right (by decide) (by omega)
  have hall := g.pageSize_mul
  -- `e` pages are missing up to index `2 ^ 32`, `q` pages lie above that index
  obtain ⟨e, he⟩ := Nat.le.dest (Nat.le_of_lt hrlt)
  obtain ⟨d, hd⟩ := Nat.le.dest (Nat.le_of_lt hr)
  obtain ⟨q, hq⟩ := Nat.le.dest (Nat.le_trans (by decide : 2 ^ 32 ≤ 2 ^ 33) hpages)
  have hepos : 0 < e := by omega
  have hsub : 2 ^ 32 - (r.bsPageIndex.toNat - g.page u) = e + g.page u := by omega
  have hmul : (e + g.page u) * g.pageSize = e * g.pageSize + g.page u * g.pageSize :=
    Nat.add_mul _ _ _
  have hsum : 2 ^ 64 = (q + r.bsPageIndex.toNat) * g.pageSize + e * g.pageSize := by
    rw [← hall, ← hq, ← he]
    ring
  have heps : g.pageSize ≤ e * g.pageSize := Nat.le_mul_of_pos_left _ hepos
  have hlt : (e + g.page u) * g.pageSize < 2 ^ 64 := by
    have hle : (e + g.page u) * g.pageSize ≤ 2 ^ 32 * 2 ^ 31 :=
      Nat.mul_le_mul (by omega) hps
    omega
  rw [show 2 ^ (64 - g.pageBits) - 2 ^ 32 + r.bsPageIndex.toNat = q + r.bsPageIndex.toNat by omega]
  apply g.page_eq_of_offset hin
  rw [offset_removedBsPage h, toNat_pageIndex_sub_of_lt h hu hr, hsub, Nat.mod_eq_of_lt hlt]
  omega

/-- With pages of `2 ^ 32` bytes or more the wrapped difference scales to a multiple of
`2 ^ 64`. -/
theorem page_removedBsPage_of_pageBits (hbits : 32 ≤ g.pageBits)
    (hrpage : r.bsPageIndex.toNat < 2 ^ (64 - g.pageBits)) :
    g.page (removedBsPage st u r) = r.bsPageIndex.toNat := by
  by_cases hle : r.bsPageIndex.toNat ≤ g.page u
  · exact page_removedBsPage_of_le h hu hle
  have hr : g.page u < r.bsPageIndex.toNat := Nat.lt_of_not_le hle
  have hin := g.inPage_lt u
  have hoff := g.offset_eq u
  have hall := g.pageSize_mul
  have hrlt := r.bsPageIndex.isLt
  obtain ⟨d, hd⟩ := Nat.le.dest (Nat.le_of_lt hr)
  have hdpos : 0 < d := by omega
  have hmul : r.bsPageIndex.toNat * g.pageSize = g.page u * g.pageSize + d * g.pageSize := by
    rw [← hd, Nat.add_mul]
  have hrmul : r.bsPageIndex.toNat * g.pageSize + g.pageSize ≤ 2 ^ 64 := by
    have hle : (r.bsPageIndex.toNat + 1) * g.pageSize ≤ 2 ^ (64 - g.pageBits) * g.pageSize :=
      Nat.mul_le_mul_right _ hrpage
    rw [Nat.add_mul, Nat.one_mul, Nat.mul_comm (2 ^ (64 - g.pageBits)), hall] at hle
    exact hle
  have hwrap : (2 ^ 32 - d) * g.pageSize % 2 ^ 64 = 2 ^ 64 - d * g.pageSize := by
    obtain ⟨k, hk⟩ : 2 ^ 32 ∣ g.pageSize := Nat.pow_dvd_pow 2 hbits
    have hkpos : 0 < k := by
      rcases Nat.eq_zero_or_pos k with rfl | hkpos
      · have hpos := g.pageSize_pos
        omega
      · exact hkpos
    obtain ⟨j, rfl⟩ : ∃ j, k = j + 1 := ⟨k - 1, by omega⟩
    have hexp : (2 ^ 32 - d) * g.pageSize = (2 ^ 64 - d * g.pageSize) + 2 ^ 64 * j := by
      have hdist : (2 ^ 32 - d) * g.pageSize + d * g.pageSize = 2 ^ 32 * g.pageSize := by
        rw [← Nat.add_mul, Nat.sub_add_cancel (by omega)]
      have hscale : 2 ^ 32 * g.pageSize = 2 ^ 64 + 2 ^ 64 * j := by
        rw [hk]
        ring
      omega
    have hdps : 0 < d * g.pageSize := Nat.mul_pos hdpos g.pageSize_pos
    rw [hexp, Nat.add_mul_mod_self_left, Nat.mod_eq_of_lt (by omega)]
  apply g.page_eq_of_offset hin
  rw [offset_removedBsPage h, toNat_pageIndex_sub_of_lt h hu hr,
    show r.bsPageIndex.toNat - g.page u = d by omega, hwrap]
  omega

end RemovedPage

end HasGeometry

end Carmor
