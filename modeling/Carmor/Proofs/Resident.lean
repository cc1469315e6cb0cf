import Carmor.Proofs.LinkSteps

/-!
# Fully resident stores

The simplest cached store: its page cache has a frame for every page, so no page is ever evicted.
It counts its notifications. The concrete runs of this development are runs on such stores.
-/

namespace Carmor

/-- The notifications counted for each page of each store. -/
abbrev Pins := StoreId → Nat → Int

/-- Add `n` to the count of page `p` of store `s`. -/
def Pins.add (pins : Pins) (s : StoreId) (p : Nat) (n : Int) : Pins := fun t q =>
  if t = s ∧ q = p then pins t q + n else pins t q

/-- A store with the geometry `g` that keeps page `p` in frame `p`, installed at `s`. -/
def residentStore (g : StoreGeometry) (s : StoreId)
    (link : Uintptr → Int → Byte → Byte → Exec Pins Uintptr)
    (writeback : Uintptr → Int → Exec Pins Unit) : LStore Pins where
  lstoreInit _ := pure 0
  lstoreIsDirect := false
  lstoreGetMpageSize := BitVec.ofNat 64 g.pageSize
  lstoreGetMpageBits := g.pageBits
  lstoreGetMpageCacheBasePtr := g.cacheBase
  lstoreGetMstoragePage p := p - g.storageBase
  lstoreGetTlb := .gtTLB
  lstoreGetMinSize := 0
  lstoreGetMaxSize := 1000000000000
  lstoreTag := makeMstorePtr s
  notifyTlbCached ptr := modify fun m => { m with store := m.store.add s (g.page ptr) 1 }
  notifyTlbDropped ptr _ := modify fun m => { m with store := m.store.add s (g.page ptr) (-1) }
  mpfHandlerC ptr := pure (g.frameAddress (g.page ptr) (g.inPage ptr))
  mpfHandlerD _ _ _ := pure ()
  lstoreWriteBack _ _ _ := pure ()
  lstoreAlloc _ := pure 0
  lstoreAllocSize _ := pure 0
  lstoreFree _ := pure ()
  carmorLink := link
  carmorGetValidIterations _ _ _ _ := pure 1
  carmorWritebackDirect := writeback

/-- Resident stores at the four positions. -/
def residentEnv (g : StoreId → StoreGeometry) (gtCrossPageBuffer : Uintptr) : Env Pins :=
  let libc : Libc Pins := ⟨fun _ => pure 0, fun _ _ => pure 0, fun _ => pure (), fun _ _ => pure 0⟩
  let unlinked : Env Pins :=
    ⟨fun s => residentStore (g s) s (fun _ _ _ _ => throw .abort) fun _ _ => throw .abort, libc,
      gtCrossPageBuffer⟩
  ⟨fun s => residentStore (g s) s (carmorLinkCachedTemplate unlinked s)
    (carmorWritebackDirectTemplate unlinked s), libc, gtCrossPageBuffer⟩

theorem residentEnv_cachedStore (g : StoreId → StoreGeometry) (buffer : Uintptr) (s : StoreId) :
    CachedStore (residentEnv g buffer) s (g s) where
  geometry := ⟨rfl, rfl, rfl, fun _ => rfl⟩
  isCached := rfl
  tlb := rfl
  link := Or.inl rfl

/-- A world at the start of a thread: its `__thread` variables are zero. -/
def World.atStart (mem : Memory) : World Pins where
  mem := mem
  store := fun _ _ => 0
  tlb := fun _ => Tlb.memset 0
  gtDirectBuffer := 0
  gtCrosspageAccess := 0
  gtCrosspageAccessSize := 0
  trace := []


/-! ## Running a list of calls -/

variable {σ : Type}

def LinkCall.execAll (env : Env σ) (s : StoreId) : List LinkCall → Exec σ Unit
  | [] => pure ()
  | c :: cs => do
      let _ ← c.exec env s
      execAll env s cs

theorem LinkCall.run_of_execAll {env : Env σ} {s : StoreId} {cs : List LinkCall}
    {w w' : World σ} (h : execAll env s cs w = .ok () w') : Lib.Run (Step env s) w cs w' := by
  induction cs generalizing w with
  | nil =>
    obtain rfl := (EStateM.Result.ok.inj h).2
    exact .nil _
  | cons c cs ih =>
    obtain ⟨a, w₁, hstep, hrest⟩ := Lib.bind_eq_ok.mp h
    exact .cons ⟨a, hstep⟩ (ih hrest)

theorem LinkCall.inStorage_of_all {env : Env σ} {s : StoreId} {g : StoreGeometry} {bound : Nat}
    {cs : List LinkCall} (h : (cs.all fun c => decide (c.InStorage env s g bound)) = true) :
    ∀ c ∈ cs, c.InStorage env s g bound :=
  fun c hc => of_decide_eq_true (List.all_eq_true.mp h c hc)

/-! ## A small instance -/

/-- 1 MiB of storage at address 0 in pages of 4 KiB, with the cache above it. -/
def smallGeometry : StoreGeometry := ⟨0, 0x100000, 12, by decide⟩

def smallEnv : Env Pins := residentEnv (fun _ => smallGeometry) 0x200000

/-- The world after `__carmor_initialize_template` for `lstore0`. -/
def initialWorld : World Pins :=
  Lib.finalState (carmorInitializeTemplate smallEnv .lstore0 0 (World.atStart fun _ => 0))

theorem carmorInitialize_smallEnv :
    carmorInitializeTemplate smallEnv .lstore0 0 (World.atStart fun _ => 0) =
      .ok 0 initialWorld := rfl

theorem smallEnv_cachedStore : CachedStore smallEnv .lstore0 smallGeometry :=
  residentEnv_cachedStore _ _ _

/-- Calls of `__carmor_link_cached_template` that read 8 bytes at `lstore0` addresses. -/
def readCalls (us : List Uintptr) : List LinkCall :=
  us.map fun u => ⟨false, makeMstorePtr .lstore0 u, 8, 0, 0⟩

/-- The world after the calls, made from `initialWorld`. -/
def worldAfter (cs : List LinkCall) : World Pins :=
  Lib.finalState (LinkCall.execAll smallEnv .lstore0 cs initialWorld)

theorem run_worldAfter {cs : List LinkCall}
    (h : Lib.succeeds (LinkCall.execAll smallEnv .lstore0 cs initialWorld) = true) :
    Lib.Run (LinkCall.Step smallEnv .lstore0) initialWorld cs (worldAfter cs) :=
  LinkCall.run_of_execAll (Lib.exists_ok_of_succeeds h).choose_spec

end Carmor
