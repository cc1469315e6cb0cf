import Carmor.Lib.Align
import Carmor.Proofs.FlatMemory
import Carmor.Proofs.HeapSteps
import Carmor.Proofs.Resident

/-!
# `__carmor_memalign_template`

The template pads a block of the store so that an aligned address with a header word below it fits.
The alignment holds for the storage address. A page cache passes it on only up to the page size:
beyond that it depends on the frame.
-/

namespace Carmor

variable {σ : Type}

/-! ## The aligned address -/

section Aligned

variable {alignment : SizeT} {k : Nat} (halign : alignment.toNat = 2 ^ k)
include halign

/-- The mask `alignment - 1` takes the remainder by the alignment. -/
theorem toNat_and_alignment_sub (x : Uintptr) :
    (x &&& (alignment - 1)).toNat = x.toNat % 2 ^ k := by
  have hpos := Nat.two_pow_pos k
  have hlt := alignment.isLt
  have hone : (1 : SizeT).toNat = 1 := rfl
  have hmask : (alignment - 1).toNat = 2 ^ k - 1 := by
    rw [BitVec.toNat_sub, hone, halign]
    omega
  rw [BitVec.toNat_and, hmask, Nat.and_two_pow_sub_one_eq_mod]

theorem two_pow_dvd_size : 2 ^ k ∣ 2 ^ 64 := by
  have hlt := alignment.isLt
  rw [halign] at hlt
  exact Lib.Align.two_pow_dvd_of_le (Nat.le_of_lt hlt)

/-- The padding is the distance to the next multiple of the alignment. -/
theorem toNat_bsAlignedMem (b : Uintptr) :
    (bsAlignedMem b alignment).toNat = Lib.Align.alignUp (2 ^ k) (b + 8).toNat % 2 ^ 64 := by
  have hpos := Nat.two_pow_pos k
  have hlt := alignment.isLt
  have hmod := Nat.mod_lt (b + 8).toNat hpos
  have hrest : (alignment - ((b + 8) &&& (alignment - 1))).toNat =
      (2 ^ k - (b + 8).toNat % 2 ^ k) := by
    rw [BitVec.toNat_sub, toNat_and_alignment_sub halign, halign]
    omega
  unfold bsAlignedMem Lib.Align.alignUp Lib.Align.padding
  simp only [BitVec.toNat_add (b + 8), toNat_and_alignment_sub halign, hrest]

theorem dvd_bsAlignedMem (b : Uintptr) : 2 ^ k ∣ (bsAlignedMem b alignment).toNat := by
  rw [toNat_bsAlignedMem halign, Nat.dvd_mod_iff (two_pow_dvd_size halign)]
  exact Lib.Align.dvd_alignUp (Nat.two_pow_pos k) _

/-- Near the end of the address space nothing wraps below `2 ^ 64`. -/
theorem bsAlignedMem_bounds {b : Uintptr} (hb : b.toNat + 8 + (alignment.toNat - 1) < 2 ^ 64) :
    b.toNat + 8 ≤ (bsAlignedMem b alignment).toNat ∧
      (bsAlignedMem b alignment).toNat ≤ b.toNat + 8 + (alignment.toNat - 1) := by
  have hpos := Nat.two_pow_pos k
  have hlo := Lib.Align.le_alignUp (2 ^ k) (b.toNat + 8)
  have hhi := Lib.Align.alignUp_lt hpos (b.toNat + 8)
  have hstart : (b + 8).toNat = b.toNat + 8 := by
    rw [BitVec.toNat_add, show (8 : Uintptr).toNat = 8 from rfl, Nat.mod_eq_of_lt (by omega)]
  rw [toNat_bsAlignedMem halign, hstart, Nat.mod_eq_of_lt (by omega)]
  omega

end Aligned

/-! ## The call -/

/-- The word `v` is stored at `p`, least significant byte first. -/
def PointerAt (mem : Memory) (p v : Uintptr) : Prop :=
  ∀ i < 8, mem (cells p i) = (v >>> (8 * i)).setWidth 8

theorem pointerAt_storePointer (mem : Memory) (p v : Uintptr) :
    PointerAt (storePointer mem p v) p v := by
  intro i hi
  rw [storePointer, toNat_cells_sub p (by omega), if_pos hi]

/-- `storePointer` writes eight bytes. -/
theorem storePointer_of_outside {mem : Memory} {p v a : Uintptr} (hp : p.toNat + 8 ≤ 2 ^ 64)
    (ha : a.toNat < p.toNat ∨ p.toNat + 8 ≤ a.toNat) : storePointer mem p v a = mem a := by
  have halt := a.isLt
  rw [storePointer, if_neg]
  rw [BitVec.toNat_sub]
  omega

/-- A call that gets a block stores its address below the aligned address. -/
theorem memalign_of_block {env : Env σ} {s : StoreId} {alignment n : SizeT} {w : World σ}
    {b : Uintptr} {m : Machine σ}
    (halloc : (env.stores s).lstoreAlloc (n + (alignment - 1) + 8) w.toMachine = .ok b m)
    (hb : b ≠ 0) : ∃ w', carmorMemalignTemplate env s alignment n w =
        .ok ((env.stores s).lstoreTag (bsAlignedMem b alignment)) w' ∧
      w'.mem = storePointer m.mem (bsAlignedMem b alignment - 8) b := by
  refine ⟨((w.withMachine m).log (.lstoreAlloc s (n + (alignment - 1) + 8) b)).withMem _, ?_, rfl⟩
  unfold carmorMemalignTemplate
  rw [Lib.bind_of_ok (lstoreAlloc_eq_ok.mpr ⟨m, halloc, rfl⟩), if_neg hb]
  rfl

/-- The block that the template asks for. -/
def paddedSize (alignment n : SizeT) : Nat := n.toNat + (alignment.toNat - 1) + 8

theorem toNat_paddedSize_mod {alignment n : SizeT} {k : Nat} (halign : alignment.toNat = 2 ^ k) :
    (n + (alignment - 1) + 8).toNat = paddedSize alignment n % 2 ^ 64 := by
  have hpos := Nat.two_pow_pos k
  have hone : (1 : SizeT).toNat = 1 := rfl
  have height : (8 : SizeT).toNat = 8 := rfl
  have hpred : (alignment - 1).toNat = alignment.toNat - 1 := by
    rw [BitVec.toNat_sub, hone]
    omega
  unfold paddedSize
  rw [BitVec.toNat_add, BitVec.toNat_add, hpred, height]
  omega

theorem toNat_paddedSize {alignment n : SizeT} {k : Nat} (halign : alignment.toNat = 2 ^ k)
    (hn : paddedSize alignment n < 2 ^ 64) :
    (n + (alignment - 1) + 8).toNat = paddedSize alignment n := by
  rw [toNat_paddedSize_mod halign, Nat.mod_eq_of_lt hn]

/-- On a block below `2 ^ 60` the template returns the tag of an aligned address with room for `n`
bytes in the block, and the header word is the eight bytes of the block below it. -/
theorem memalign_geometry {env : Env σ} {s : StoreId}
    (htag : (env.stores s).lstoreTag = makeMstorePtr s) {alignment n : SizeT} {k : Nat}
    (halign : alignment.toNat = 2 ^ k) (hn : paddedSize alignment n < 2 ^ 64) {w : World σ}
    {b : Uintptr} {m : Machine σ}
    (halloc : (env.stores s).lstoreAlloc (n + (alignment - 1) + 8) w.toMachine = .ok b m)
    (hb : b ≠ 0) (hspace : b.toNat + paddedSize alignment n < 2 ^ 60) :
    ∃ p w', carmorMemalignTemplate env s alignment n w = .ok (makeMstorePtr s p) w' ∧
      makeOriginalPointer (makeMstorePtr s p) = p ∧
      (n + (alignment - 1) + 8).toNat = paddedSize alignment n ∧
      alignment.toNat ∣ p.toNat ∧
      b.toNat ≤ p.toNat - 8 ∧ 8 ≤ p.toNat ∧
      p.toNat + n.toNat ≤ b.toNat + paddedSize alignment n ∧
      PointerAt w'.mem (p - 8) b ∧
      ∀ a : Uintptr, a.toNat < p.toNat - 8 ∨ p.toNat ≤ a.toNat → w'.mem a = m.mem a := by
  have hpadded := toNat_paddedSize halign hn
  unfold paddedSize at hspace ⊢
  obtain ⟨w', hrun, hmem⟩ := memalign_of_block halloc hb
  obtain ⟨hlo, hhi⟩ := bsAlignedMem_bounds halign (b := b) (by omega)
  have hdvd := dvd_bsAlignedMem halign b
  rw [htag] at hrun
  generalize bsAlignedMem b alignment = p at hrun hmem hlo hhi hdvd
  have hheader : (p - 8).toNat = p.toNat - 8 := by
    rw [BitVec.toNat_sub, show (8 : Uintptr).toNat = 8 from rfl]
    omega
  refine ⟨p, w', hrun, makeOriginalPointer_makeMstorePtr s (by omega), hpadded, halign ▸ hdvd,
    by omega, by omega, by omega, ?_, ?_⟩
  · rw [hmem]
    exact pointerAt_storePointer _ _ _
  · intro a ha
    rw [hmem]
    exact storePointer_of_outside (by omega) (by omega)

/-! ### A small instance -/

/-- Resident stores that allocate at address `b`. -/
def blockEnv (g : StoreGeometry) (b : Uintptr) : Env Pins :=
  { residentEnv (fun _ => g) 0x200000 with
    stores := fun s =>
      { (residentEnv (fun _ => g) 0x200000).stores s with lstoreAlloc := fun _ => pure b } }

/-- A block at an odd address, for 100 bytes at a multiple of 64. -/
theorem memalign_geometry_blockEnv :
    ∃ p w', carmorMemalignTemplate (blockEnv smallGeometry 0x1235) .lstore0 0x40 100
        (World.atStart fun _ => 0) = .ok (makeMstorePtr .lstore0 p) w' ∧
      makeOriginalPointer (makeMstorePtr .lstore0 p) = p ∧
      ((100 : SizeT) + (0x40 - 1) + 8).toNat = paddedSize 0x40 100 ∧
      (0x40 : SizeT).toNat ∣ p.toNat ∧
      (0x1235 : Uintptr).toNat ≤ p.toNat - 8 ∧ 8 ≤ p.toNat ∧
      p.toNat + (100 : SizeT).toNat ≤ (0x1235 : Uintptr).toNat + paddedSize 0x40 100 ∧
      PointerAt w'.mem (p - 8) 0x1235 ∧
      ∀ a : Uintptr, a.toNat < p.toNat - 8 ∨ p.toNat ≤ a.toNat → w'.mem a = 0 :=
  memalign_geometry (m := (World.atStart fun _ => 0).toMachine) (k := 6) rfl rfl (show
    paddedSize 0x40 100 < 2 ^ 64 by decide) rfl (show (0x1235 : Uintptr) ≠ 0 by decide) (by decide)

/-! ## Alignment in the page cache -/

/-- A link of the untagged pointer `u` uses frame `f`: the frame of the TLB entry, or else the frame
at which the handler places the page. -/
inductive FrameUsed (st : LStore σ) (g : StoreGeometry) (u : Uintptr) (dirty : Byte) (w : World σ) :
    Nat → Prop
  | hit {entry : TlbEntry} {tlb' : Tlb} :
      (w.tlb st.lstoreGetTlb).lookup (bsPageIndex st u) dirty = some (entry, tlb') →
      FrameUsed st g u dirty w entry.epcPageIndex.toNat
  | miss {f : Nat} {m : Machine σ} :
      (w.tlb st.lstoreGetTlb).lookup (bsPageIndex st u) dirty = none →
      st.mpfHandlerC u w.toMachine = .ok (g.frameAddress f (g.inPage u)) m →
      FrameUsed st g u dirty w f

/-- An address in a cache whose base is aligned to the page size. -/
theorem dvd_frameAddress_iff {g : StoreGeometry} {k f o : Nat} (hk : 2 ^ k ∣ 2 ^ 64) :
    2 ^ k ∣ (g.frameAddress f o).toNat ↔ 2 ^ k ∣ g.cacheBase.toNat + (f * g.pageSize + o) := by
  rw [StoreGeometry.frameAddress, BitVec.toNat_add, BitVec.toNat_ofNat, Nat.add_mod_mod,
    Nat.dvd_mod_iff hk]

/-- Where a link points: in the frame that it uses, at an offset of which a hit keeps 32 bits. -/
theorem LinkStep.frameAddress {env : Env σ} {s : StoreId} {g : StoreGeometry}
    (hgeom : (env.stores s).HasGeometry g) {u a : Uintptr} {ptrSize : Int} {dirty : Byte}
    {w w' : World σ} (h : LinkStep env s u ptrSize dirty w a w') {f : Nat}
    (hf : FrameUsed (env.stores s) g u dirty w f) :
    a = g.frameAddress f (g.inPage u) ∨ a = g.frameAddress f (g.inPage u % 2 ^ 32) := by
  cases h with
  | @hit entry tlb' hlookup hsize =>
    right
    cases hf with
    | @hit entry₁ tlb₁ hlookup₁ =>
      rw [hlookup] at hlookup₁
      cases hlookup₁
      have hepc := entry.epcPageIndex.isLt
      have hoff := toNat_pageOffset hgeom u
      rw [hitAddress, StoreGeometry.frameAddress, hgeom.cacheBase, hgeom.pageSize, BitVec.add_assoc]
      congr 1
      apply BitVec.eq_of_toNat_eq
      simp only [BitVec.toNat_add, BitVec.toNat_mul, BitVec.toNat_setWidth, BitVec.toNat_ofNat,
        hoff]
      rw [Nat.mod_eq_of_lt (show entry.epcPageIndex.toNat < 2 ^ 64 by omega),
        Nat.mod_eq_of_lt g.pageSize_lt, Nat.mod_add_mod,
        Nat.mod_eq_of_lt (show g.inPage u % 2 ^ 32 < 2 ^ 64 by omega)]
    | miss hlookup₁ =>
      rw [hlookup] at hlookup₁
      cases hlookup₁
  | @miss _ m₁ m₂ m₃ hlookup hhandler hdrop hcached hsize =>
    left
    cases hf with
    | hit hlookup₁ =>
      rw [hlookup] at hlookup₁
      cases hlookup₁
    | miss _ hhandler₁ =>
      rw [hhandler] at hhandler₁
      cases hhandler₁
      rfl

section Inherited

variable {g : StoreGeometry} (hstorage : g.pageSize ∣ g.storageBase.toNat)
  (hcache : g.pageSize ∣ g.cacheBase.toNat) {u : Uintptr} {k : Nat} (hu : 2 ^ k ∣ u.toNat)
include hstorage hu

/-- The storage offset of an address has the alignment of the address up to the page size. -/
theorem dvd_offset {j : Nat} (hj : 2 ^ j ∣ g.pageSize) (hjk : 2 ^ j ∣ 2 ^ k) :
    2 ^ j ∣ g.offset u := by
  have hbase : 2 ^ j ∣ g.storageBase.toNat := hj.trans hstorage
  have hsize : 2 ^ j ∣ 2 ^ 64 := hj.trans g.pageSize_dvd
  have hsub := g.storageBase.isLt
  rw [StoreGeometry.offset, BitVec.toNat_sub, Nat.dvd_mod_iff hsize]
  exact Nat.dvd_add (Nat.dvd_sub hsize hbase) (hjk.trans hu)

include hcache

/-- In its frame an address keeps its alignment, if the page size has that alignment; an address
with a larger alignment starts a page, and has the alignment of the frame. -/
theorem dvd_linked_iff (hk : 2 ^ k ∣ 2 ^ 64) {a : Uintptr} {f : Nat}
    (ha : a = g.frameAddress f (g.inPage u) ∨ a = g.frameAddress f (g.inPage u % 2 ^ 32)) :
    2 ^ k ∣ a.toNat ↔ 2 ^ k ≤ g.pageSize ∨ 2 ^ k ∣ (g.frameAddress f 0).toNat := by
  by_cases hle : 2 ^ k ≤ g.pageSize
  · have hdvd : 2 ^ k ∣ g.pageSize := Lib.Align.two_pow_dvd_of_le hle
    have hin : 2 ^ k ∣ g.inPage u :=
      (Nat.dvd_mod_iff hdvd).mpr (dvd_offset hstorage hu hdvd (Nat.dvd_refl _))
    have hin' : 2 ^ k ∣ g.inPage u % 2 ^ 32 := Lib.Align.two_pow_dvd_mod 32 hin
    have hframe : 2 ^ k ∣ f * g.pageSize := Dvd.dvd.mul_left hdvd f
    have hbase : 2 ^ k ∣ g.cacheBase.toNat := hdvd.trans hcache
    refine iff_of_true ?_ (.inl hle)
    rcases ha with rfl | rfl
    · exact (dvd_frameAddress_iff hk).mpr (Nat.dvd_add hbase (Nat.dvd_add hframe hin))
    · exact (dvd_frameAddress_iff hk).mpr (Nat.dvd_add hbase (Nat.dvd_add hframe hin'))
  · have hge : g.pageSize ≤ 2 ^ k := by omega
    have hdvd : g.pageSize ∣ 2 ^ k := Lib.Align.two_pow_dvd_of_le hge
    have hin : g.inPage u = 0 :=
      Nat.mod_eq_zero_of_dvd (dvd_offset hstorage hu (Nat.dvd_refl _) hdvd)
    rw [hin, Nat.zero_mod, or_self] at ha
    rw [ha]
    exact ⟨.inr, fun h => h.resolve_left hle⟩

end Inherited

/-- The pointers that the template returns are aligned. -/
theorem memalign_dvd {env : Env σ} {s : StoreId}
    (htag : (env.stores s).lstoreTag = makeMstorePtr s) {alignment n : SizeT} {k : Nat}
    (halign : alignment.toNat = 2 ^ k) {w w' : World σ} {p : Uintptr}
    (hrun : carmorMemalignTemplate env s alignment n w = .ok p w') (hp : p ≠ 0) :
    isCarmorPtr p = true ∧ 2 ^ k ∣ (makeOriginalPointer p).toNat := by
  obtain ⟨b, m, -, -, hres⟩ := memalign_eq_ok hrun
  by_cases hb : b = 0
  · rw [if_pos hb] at hres
    exact absurd hres hp
  rw [if_neg hb, htag] at hres
  subst hres
  rw [makeOriginalPointer_tag, toNat_makeOriginalPointer]
  exact ⟨isCarmorPtr_makeMstorePtr s _, Lib.Align.two_pow_dvd_mod 60 (dvd_bsAlignedMem halign b)⟩

/-- A link of a pointer that the template returned gives an aligned address exactly if the
alignment is at most the page size, or the frame that is used is aligned. -/
theorem link_memalign_aligned_iff {env : Env σ} {s : StoreId} {g : StoreGeometry}
    (hgeom : (env.stores s).HasGeometry g) (htag : (env.stores s).lstoreTag = makeMstorePtr s)
    (hstorage : g.pageSize ∣ g.storageBase.toNat) (hcache : g.pageSize ∣ g.cacheBase.toNat)
    {alignment n : SizeT} {k : Nat} (halign : alignment.toNat = 2 ^ k) {w₀ w₁ : World σ}
    {c : LinkCall} (hmemalign : carmorMemalignTemplate env s alignment n w₀ = .ok c.ptr w₁)
    (hnull : c.ptr ≠ 0) (hcross : c.crosses (env.stores s) = false) {w w' : World σ} {a : Uintptr}
    (hlink : c.exec env s w = .ok a w') {f : Nat}
    (hf : FrameUsed (env.stores s) g (makeOriginalPointer c.ptr) c.dirty w f) :
    alignment.toNat ∣ a.toNat ↔
      alignment.toNat ≤ g.pageSize ∨ alignment.toNat ∣ (g.frameAddress f 0).toNat := by
  obtain ⟨hptr, hdvd⟩ := memalign_dvd htag halign hmemalign hnull
  have hstep := (LinkCall.exec_eq_ok hptr hcross).mp hlink
  rw [halign]
  exact dvd_linked_iff hstorage hcache hdvd (two_pow_dvd_size halign) (hstep.2.frameAddress hgeom hf)

/-! ### A small instance -/

/-- `smallGeometry` with the cache at an odd multiple of the page size. -/
def oddCacheGeometry : StoreGeometry := { smallGeometry with cacheBase := 0x101000 }

/-- The world after `memalign` of 100 bytes at a multiple of 8 KiB, twice the page size, and
`__carmor_initialize_template`. -/
def alignedWorld : World Pins := Lib.finalState ((do
  let _ ← carmorMemalignTemplate (blockEnv oddCacheGeometry 0x4000) .lstore0 0x2000 100
  carmorInitializeTemplate (blockEnv oddCacheGeometry 0x4000) .lstore0 0)
    (World.atStart fun _ => 0))

/-- A link of the pointer that `memalign` returned. -/
def alignedLink : LinkCall := ⟨false, makeMstorePtr .lstore0 0x6000, 8, 0, 0⟩

/-- The pointer is placed in frame 6. -/
theorem frameUsed_alignedWorld :
    FrameUsed ((blockEnv oddCacheGeometry 0x4000).stores .lstore0) oddCacheGeometry
      (makeOriginalPointer alignedLink.ptr) alignedLink.dirty alignedWorld 6 :=
  .miss (by decide) rfl

theorem link_memalign_aligned_iff_alignedWorld :
    (0x2000 : SizeT).toNat ∣ (0x107000 : Uintptr).toNat ↔
      (0x2000 : SizeT).toNat ≤ oddCacheGeometry.pageSize ∨
        (0x2000 : SizeT).toNat ∣ (oddCacheGeometry.frameAddress 6 0).toNat := by
  have hgeom : ((blockEnv oddCacheGeometry 0x4000).stores .lstore0).HasGeometry oddCacheGeometry :=
    ⟨rfl, rfl, rfl, fun _ => rfl⟩
  obtain ⟨w₁, hmemalign⟩ : ∃ w₁, carmorMemalignTemplate (blockEnv oddCacheGeometry 0x4000) .lstore0
      0x2000 100 (World.atStart fun _ => 0) = .ok alignedLink.ptr w₁ := ⟨_, rfl⟩
  exact link_memalign_aligned_iff hgeom rfl (by decide) (by decide) (k := 13) rfl hmemalign
    (by decide) rfl rfl frameUsed_alignedWorld

/-- The link gives an address that is not a multiple of 8 KiB. -/
theorem not_aligned_oddFrame :
    ∃ w₁ w', carmorMemalignTemplate (blockEnv oddCacheGeometry 0x4000) .lstore0 0x2000 100
        (World.atStart fun _ => 0) = .ok alignedLink.ptr w₁ ∧
      alignedLink.exec (blockEnv oddCacheGeometry 0x4000) .lstore0 alignedWorld =
        .ok 0x107000 w' ∧
      ¬ (0x2000 : SizeT).toNat ∣ (0x107000 : Uintptr).toNat :=
  ⟨_, _, rfl, rfl, by decide⟩

end Carmor
