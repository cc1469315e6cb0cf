import Carmor.Proofs.BulkSteps
import Carmor.Proofs.Resident

/-!
# Iteration windows

`__carmor_get_valid_iterations_template` tells a loop how often it may move its linked pointer
by the step before it has to link again. Upwards the count is right only if the one decrement of
the template is enough, which depends on the step, the access size and the offset.
-/

namespace Carmor

variable {σ : Type}

/-- The offset of a cache address in its frame. -/
def StoreGeometry.inFrame (g : StoreGeometry) (a : Uintptr) : Nat :=
  (a - g.cacheBase).toNat % g.pageSize

/-- An access of `size` bytes at the distance `delta` from the cache address `a` lies inside the
frame of `a`. -/
def StoreGeometry.InsideFrame (g : StoreGeometry) (a : Uintptr) (delta size : Int) : Prop :=
  0 ≤ g.inFrame a + delta ∧ g.inFrame a + delta + size ≤ g.pageSize

/-- The template returns a positive count of iterations whose accesses all lie inside the frame
of `ptr`. -/
def SafeWindow (env : Env σ) (s : StoreId) (g : StoreGeometry) (unlinkedPtr ptr : Uintptr)
    (step ptrSize : Int) (w : World σ) : Prop :=
  ∃ r : Int, carmorGetValidIterationsTemplate env s unlinkedPtr ptr (BitVec.ofInt 64 step) ptrSize w =
      .ok r w ∧ 1 ≤ r ∧
    ∀ i : Int, 0 ≤ i → i < r → g.InsideFrame ptr (i * step) ptrSize

theorem toInt32_ofInt {n : Int} (hlow : -2 ^ 31 ≤ n) (hhigh : n < 2 ^ 31) :
    toInt32 (BitVec.ofInt 64 n) = n := by
  have hwidth : (BitVec.ofInt 64 n).setWidth 32 = BitVec.ofInt 32 n := by
    apply BitVec.eq_of_toNat_eq
    rw [BitVec.toNat_setWidth, BitVec.toNat_ofInt, BitVec.toNat_ofInt]
    omega
  rw [toInt32, hwidth, BitVec.toInt_ofInt, Int.bmod_eq_of_le (by omega) (by omega)]

/-- A comparison of a `size_t` with an `int`: negative values are huge. -/
theorem lt_ofInt_iff {x : SizeT} {n : Int} (hx : x.toNat < 2 ^ 63) (hlow : -2 ^ 63 ≤ n)
    (hhigh : n < 2 ^ 63) : x < BitVec.ofInt 64 n ↔ n < 0 ∨ (x.toNat : Int) < n := by
  rw [BitVec.lt_def, BitVec.toNat_ofInt]
  omega

theorem ite_nonpos_eq_max (res : Int) : (if res ≤ 0 then 1 else res) = max 1 res := by
  split <;> omega

/-! ## The count that is returned -/

/-- The count computed from the offset `off` in a page of `pageSize` bytes. -/
def windowCount (pageSize off step ptrSize : Int) : Int :=
  let res := (if 0 < step then pageSize - off else -(off + 1)).tdiv step
  let last := off + (res - 1) * step + ptrSize
  max 1 (if last < 0 ∨ pageSize < last then res - 1 else res)

section WindowCount

variable {pageSize off step ptrSize : Int}

/-- Upwards the accesses of a window lie inside the page if the last one does. -/
theorem inside_iff_last {r : Int} (hstep : 0 < step) (hoff : 0 ≤ off) (hr : 1 ≤ r) :
    (∀ i : Int, 0 ≤ i → i < r → 0 ≤ off + i * step ∧ off + i * step + ptrSize ≤ pageSize) ↔
      off + (r - 1) * step + ptrSize ≤ pageSize := by
  constructor
  · intro h
    exact (h (r - 1) (by omega) (by omega)).2
  · intro hlast i hi hir
    have hbelow : i * step ≤ (r - 1) * step := Int.mul_le_mul_of_nonneg_right (by omega) (by omega)
    have hpos : 0 ≤ i * step := Int.mul_nonneg hi (by omega)
    omega

section Forward

variable (hstep : 0 < step) (hoff : 0 ≤ off) (hsize : 1 ≤ ptrSize) (hfit : off + ptrSize ≤ pageSize)
include hstep hoff hsize hfit

/-- Upwards the template counts the whole steps up to the end of the page, and one less if an
access after the last whole step does not fit into what is left. -/
theorem windowCount_forward :
    windowCount pageSize off step ptrSize =
      max 1 (if step + (pageSize - off) % step < ptrSize then (pageSize - off) / step - 1
        else (pageSize - off) / step) := by
  have hdiv := Int.mul_ediv_add_emod (pageSize - off) step
  have hquot : 0 ≤ (pageSize - off) / step := Int.ediv_nonneg (by omega) (by omega)
  have htdiv : (pageSize - off).tdiv step = (pageSize - off) / step :=
    Int.tdiv_eq_ediv_of_nonneg (by omega)
  simp only [windowCount, if_pos hstep, htdiv]
  generalize (pageSize - off) / step = q at hdiv hquot ⊢
  generalize (pageSize - off) % step = m at hdiv ⊢
  have hmul : (q - 1) * step = step * q - step := by rw [Int.sub_mul, Int.one_mul, Int.mul_comm]
  rw [hmul]
  rcases Int.lt_or_le q 1 with hzero | hone
  · -- no whole step: the count is 1 whatever the comparison says
    split <;> split <;> omega
  · have hle : step * 1 ≤ step * q := Int.mul_le_mul_of_nonneg_left hone (by omega)
    congr 1
    split <;> split <;> omega

/-- Upwards one decrement is enough exactly if the access fits into two steps and what is left
after the whole steps. -/
theorem forward_inside_iff :
    (∀ i : Int, 0 ≤ i → i < windowCount pageSize off step ptrSize →
      0 ≤ off + i * step ∧ off + i * step + ptrSize ≤ pageSize) ↔
      ptrSize ≤ 2 * step + (pageSize - off) % step := by
  have hdiv := Int.mul_ediv_add_emod (pageSize - off) step
  have hquot : 0 ≤ (pageSize - off) / step := Int.ediv_nonneg (by omega) (by omega)
  rw [windowCount_forward hstep hoff hsize hfit, inside_iff_last hstep hoff (Int.le_max_left ..)]
  generalize (pageSize - off) / step = q at hdiv hquot ⊢
  generalize (pageSize - off) % step = m at hdiv ⊢
  have hone : q = 0 ∨ q = 1 ∨ 2 ≤ q := by omega
  rcases hone with rfl | rfl | htwo
  · split <;> simp <;> omega
  · split <;> simp <;> omega
  · split
    · rw [Int.max_eq_right (by omega), show q - 1 - 1 = q - 2 by omega, Int.sub_mul,
        Int.mul_comm q]
      omega
    · rw [Int.max_eq_right (by omega), Int.sub_mul, Int.one_mul, Int.mul_comm q]
      omega

end Forward

/-- Downwards the template counts the whole steps down to the start of the page, and every
access fits. -/
theorem backward_inside (hstep : step < 0) (hoff : 0 ≤ off) (hfit : off + ptrSize ≤ pageSize)
    {i : Int} (hi : 0 ≤ i) (hcount : i < windowCount pageSize off step ptrSize) :
    0 ≤ off + i * step ∧ off + i * step + ptrSize ≤ pageSize := by
  have hneg : i * step ≤ 0 := Int.mul_nonpos_of_nonneg_of_nonpos hi (by omega)
  refine ⟨?_, by omega⟩
  rcases Int.lt_or_le i 1 with hzero | hone
  · rw [show i = 0 by omega]
    omega
  have hdiv := Int.mul_ediv_add_emod (off + 1) (-step)
  have hrem := Int.emod_nonneg (off + 1) (show -step ≠ 0 by omega)
  have htdiv : (-(off + 1)).tdiv step = (off + 1) / (-step) := by
    rw [← Int.neg_neg step, Int.neg_tdiv_neg, Int.neg_neg, Int.tdiv_eq_ediv_of_nonneg (by omega)]
  simp only [windowCount, if_neg (Int.not_lt.mpr (Int.le_of_lt hstep)), htdiv] at hcount
  generalize (off + 1) / (-step) = q at hdiv hcount
  have hle : i ≤ q - 1 := by
    split at hcount <;> omega
  have hmul : i * (-step) ≤ (q - 1) * (-step) := Int.mul_le_mul_of_nonneg_right hle (by omega)
  rw [Int.sub_mul, Int.one_mul, Int.mul_comm q, Int.mul_neg] at hmul
  omega

end WindowCount

/-! ## The template -/

section Template

variable {env : Env σ} {s : StoreId} {g : StoreGeometry} (hgeom : (env.stores s).HasGeometry g)
  (hbits : g.pageBits < 31) {unlinkedPtr ptr : Uintptr} (htag : isCarmorPtr unlinkedPtr = true)
  {step ptrSize : Int} (hlow : -2 ^ 31 < step) (hhigh : step < 2 ^ 31) (hsize : 1 ≤ ptrSize)
  (hfit : g.inFrame ptr + ptrSize ≤ g.pageSize)
include hgeom hbits htag hlow hhigh hsize hfit

/-- The template returns the count of its offset, unless the pointer is the cross-page buffer. -/
theorem carmorGetValidIterationsTemplate_eq (hstep : step ≠ 0) (w : World σ) :
    carmorGetValidIterationsTemplate env s unlinkedPtr ptr (BitVec.ofInt 64 step) ptrSize w =
      .ok (if ptr = env.gtCrossPageBuffer then 1
        else windowCount g.pageSize (g.inFrame ptr) step ptrSize) w := by
  have hps : g.pageSize ≤ 2 ^ 30 := Nat.pow_le_pow_right (by decide) (by omega)
  have hin : g.inFrame ptr < g.pageSize := Nat.mod_lt _ g.pageSize_pos
  have hpageSize := toNat_mpageSize hgeom
  have hoff : toInt32 ((ptr - (env.stores s).lstoreGetMpageCacheBasePtr) &&&
      ((env.stores s).lstoreGetMpageSize - 1)) = g.inFrame ptr := by
    have hnat := toNat_and_mpageMask hgeom (ptr - (env.stores s).lstoreGetMpageCacheBasePtr)
    rw [hgeom.cacheBase] at hnat ⊢
    rw [toInt32_of_lt (by rw [hnat]; exact Nat.lt_of_lt_of_le hin (by omega)), hnat]
    rfl
  have hleft : toInt32 ((env.stores s).lstoreGetMpageSize - BitVec.ofInt 64 (g.inFrame ptr)) =
      g.pageSize - g.inFrame ptr := by
    have hsub : ((env.stores s).lstoreGetMpageSize - BitVec.ofInt 64 (g.inFrame ptr : Int)).toNat =
        g.pageSize - g.inFrame ptr := by
      rw [BitVec.toNat_sub, toNat_ofInt_natCast (by omega), hpageSize]
      omega
    rw [toInt32_of_lt (by omega), hsub]
    omega
  have hstepInt : toInt32 (BitVec.ofInt 64 step) = step := toInt32_ofInt (by omega) hhigh
  rw [carmorGetValidIterationsTemplate]
  simp only [htag, hoff, hleft, hstepInt, hstep, Bool.not_true, Bool.false_eq_true, if_false]
  split
  · rfl
  have hleftBytes : -2 ^ 31 ≤ (if 0 < step then (g.pageSize - g.inFrame ptr : Int)
      else -(g.inFrame ptr + 1)) ∧ (if 0 < step then (g.pageSize - g.inFrame ptr : Int)
      else -(g.inFrame ptr + 1)) ≤ 2 ^ 31 := by
    split <;> omega
  simp only [windowCount]
  generalize (if 0 < step then (g.pageSize - g.inFrame ptr : Int) else -(g.inFrame ptr + 1)) =
    leftBytes at hleftBytes ⊢
  have hdiv := Int.tdiv_mul_add_tmod leftBytes step
  have hmod : (leftBytes.tmod step).natAbs ≤ leftBytes.natAbs := by
    rw [Int.natAbs_tmod]
    exact Nat.mod_le _ _
  have hmul : (leftBytes.tdiv step - 1) * step = leftBytes.tdiv step * step - step := by
    rw [Int.sub_mul, Int.one_mul]
  have hpast := lt_ofInt_iff (x := (env.stores s).lstoreGetMpageSize)
    (n := g.inFrame ptr + (leftBytes.tdiv step - 1) * step + ptrSize) (by omega) (by omega)
    (by omega)
  rw [hpageSize] at hpast
  simp only [hpast, Lib.pure_apply, ite_nonpos_eq_max]

/-- The window is safe exactly if the pointer is the cross-page buffer, the step is downwards, or
the access fits into two steps and what is left of the page after whole steps. -/
theorem safeWindow_iff (hstep : step ≠ 0) (w : World σ) :
    SafeWindow env s g unlinkedPtr ptr step ptrSize w ↔
      ptr = env.gtCrossPageBuffer ∨ step < 0 ∨
        ptrSize ≤ 2 * step + (g.pageSize - g.inFrame ptr : Int) % step := by
  have hps : g.pageSize ≤ 2 ^ 30 := Nat.pow_le_pow_right (by decide) (by omega)
  have hin : g.inFrame ptr < g.pageSize := Nat.mod_lt _ g.pageSize_pos
  have hoff : (0 : Int) ≤ g.inFrame ptr := by omega
  have hrun := carmorGetValidIterationsTemplate_eq hgeom hbits htag hlow hhigh hsize hfit hstep w
  rw [SafeWindow, hrun]
  by_cases hbuffer : ptr = env.gtCrossPageBuffer
  · -- a single iteration is the access itself
    simp only [hbuffer, if_true, true_or, iff_true]
    refine ⟨1, rfl, by omega, ?_⟩
    intro i hi hcount
    rw [show i = 0 by omega, StoreGeometry.InsideFrame, ← hbuffer]
    omega
  have hcount : (∃ r : Int, EStateM.Result.ok (windowCount g.pageSize (g.inFrame ptr) step ptrSize) w =
      (.ok r w : EStateM.Result Stop (World σ) Int) ∧ 1 ≤ r ∧
        ∀ i : Int, 0 ≤ i → i < r → g.InsideFrame ptr (i * step) ptrSize) ↔
      ∀ i : Int, 0 ≤ i → i < windowCount g.pageSize (g.inFrame ptr) step ptrSize →
        g.InsideFrame ptr (i * step) ptrSize := by
    constructor
    · rintro ⟨r, hr, -, hinside⟩
      obtain ⟨rfl, -⟩ := EStateM.Result.ok.inj hr
      exact hinside
    · intro hinside
      exact ⟨_, rfl, Int.le_max_left .., hinside⟩
  rw [if_neg hbuffer, hcount]
  simp only [hbuffer, false_or]
  rcases Int.lt_or_gt_of_ne hstep with hdown | hup
  · simp only [hdown, true_or, iff_true]
    intro i hi hlt
    exact backward_inside hdown hoff hfit hi hlt
  · rw [or_iff_right (Int.not_lt.mpr (Int.le_of_lt hup))]
    exact forward_inside_iff hup hoff hsize hfit

end Template

/-- Eight-byte accesses at a distance of 8 in a frame of 4 KiB. -/
theorem safeWindow_iff_eightBytes :
    SafeWindow smallEnv .lstore0 smallGeometry (makeMstorePtr .lstore0 0x10) 0x100010 8 8
        initialWorld ↔
      (0x100010 : Uintptr) = smallEnv.gtCrossPageBuffer ∨ (8 : Int) < 0 ∨
        (8 : Int) ≤ 2 * 8 + (smallGeometry.pageSize - smallGeometry.inFrame 0x100010 : Int) % 8 :=
  safeWindow_iff smallEnv_cachedStore.geometry (by decide) (by decide) (by decide) (by decide)
    (by decide) (by decide) (by decide) initialWorld

/-- Overlapping accesses, 8 bytes at a distance of 1 from the start of a frame of 4 KiB: the
template returns 4095, and the accesses from the 4090th on leave the frame. -/
theorem not_safeWindow_overlapping :
    ¬ SafeWindow smallEnv .lstore0 smallGeometry (makeMstorePtr .lstore0 0) 0x100000 1 8
        initialWorld := by
  rintro ⟨r, hrun, -, hinside⟩
  have hcount : carmorGetValidIterationsTemplate smallEnv .lstore0 (makeMstorePtr .lstore0 0)
      0x100000 (BitVec.ofInt 64 1) 8 initialWorld = .ok 4095 initialWorld := rfl
  rw [hcount] at hrun
  obtain ⟨rfl, -⟩ := EStateM.Result.ok.inj hrun
  exact absurd (hinside 4094 (by decide) (by decide)).2 (by decide)

/-! ## Steps of any size -/

/-- Below a positive bound the truncating division is the mathematical one. -/
theorem tdiv_lt_iff {a d k : Int} (hd : 0 < d) (hk : 0 < k) : a.tdiv d < k ↔ a < k * d := by
  rcases Int.lt_or_le a 0 with hneg | hnonneg
  · have hquot : 0 ≤ (-a).tdiv d := Int.tdiv_nonneg (by omega) (Int.le_of_lt hd)
    rw [Int.neg_tdiv] at hquot
    have hmul := Int.mul_pos hk hd
    constructor <;> intro _ <;> omega
  · rw [Int.tdiv_eq_ediv_of_nonneg hnonneg]
    exact Int.ediv_lt_iff_lt_mul hd

/-- The offset of a cache address in its page, as an `int`. -/
def LStore.intOffset (st : LStore σ) (ptr : Uintptr) : Int :=
  toInt32 ((ptr - st.lstoreGetMpageCacheBasePtr) &&& (st.lstoreGetMpageSize - 1))

/-- The bytes of the page from `ptr` on in the direction of `step`, as an `int`. -/
def LStore.bytesAhead (st : LStore σ) (ptr : Uintptr) (step : Int) : Int :=
  if 0 < step then toInt32 (st.lstoreGetMpageSize - BitVec.ofInt 64 (st.intOffset ptr))
  else st.intOffset ptr + 1

/-- The page ends before two steps from `ptr`, or before three steps and the end of an access of
`ptrSize` bytes after one step. -/
def LStore.EndsAhead (st : LStore σ) (ptr : Uintptr) (step ptrSize : Int) : Prop :=
  st.bytesAhead ptr step < 2 * step.natAbs ∨
    st.bytesAhead ptr step < 3 * step.natAbs ∧
      st.lstoreGetMpageSize < BitVec.ofInt 64 (st.intOffset ptr + step + ptrSize)

/-- The count of the template for a step that is not zero. -/
def LStore.intCount (st : LStore σ) (ptr : Uintptr) (step ptrSize : Int) : Int :=
  let res := (st.bytesAhead ptr step).tdiv step.natAbs
  let past := st.lstoreGetMpageSize < BitVec.ofInt 64 (st.intOffset ptr + (res - 1) * step + ptrSize)
  max 1 (if past then res - 1 else res)

/-- The count is 1 exactly if the page ends ahead of the steps. -/
theorem LStore.intCount_eq_one_iff (st : LStore σ) (ptr : Uintptr) {step : Int} (hstep : step ≠ 0)
    (ptrSize : Int) : st.intCount ptr step ptrSize = 1 ↔ st.EndsAhead ptr step ptrSize := by
  have hpos : (0 : Int) < step.natAbs := by omega
  have htwo := tdiv_lt_iff (a := st.bytesAhead ptr step) hpos (show (0 : Int) < 2 by decide)
  have hthree := tdiv_lt_iff (a := st.bytesAhead ptr step) hpos (show (0 : Int) < 3 by decide)
  unfold LStore.intCount LStore.EndsAhead
  simp only [← htwo, ← hthree]
  generalize (st.bytesAhead ptr step).tdiv step.natAbs = q
  have hcases : q < 2 ∨ q = 2 ∨ 2 < q := by omega
  rcases hcases with hfew | rfl | hmany
  · simp only [hfew, true_or, iff_true]
    split <;> omega
  · simp only [show ((2 : Int) - 1) * step = step by omega]
    by_cases hpast : st.lstoreGetMpageSize < BitVec.ofInt 64 (st.intOffset ptr + step + ptrSize)
    · simp [hpast]
    · simp [hpast]
  · refine iff_of_false ?_ (by omega)
    split <;> omega

/-- A page ends ahead of every step of at least its size that an `int` holds. -/
theorem LStore.endsAhead_of_pageSize_le (st : LStore σ) (ptr : Uintptr) {step : Int}
    (hpos : 0 < st.lstoreGetMpageSize.toNat) (hle : st.lstoreGetMpageSize.toNat ≤ step.natAbs)
    (hlow : -2 ^ 31 ≤ step) (hhigh : step < 2 ^ 31) (ptrSize : Int) :
    st.EndsAhead ptr step ptrSize := by
  have hmask : (st.lstoreGetMpageSize - 1).toNat = st.lstoreGetMpageSize.toNat - 1 := by
    rw [BitVec.toNat_sub, show (1 : SizeT).toNat = 1 from rfl]
    omega
  have hand : ((ptr - st.lstoreGetMpageCacheBasePtr) &&& (st.lstoreGetMpageSize - 1)).toNat ≤
      st.lstoreGetMpageSize.toNat - 1 := by
    rw [BitVec.toNat_and, hmask]
    exact Nat.and_le_right
  have hoff : st.intOffset ptr =
      ((ptr - st.lstoreGetMpageCacheBasePtr) &&& (st.lstoreGetMpageSize - 1)).toNat :=
    toInt32_of_lt (by omega)
  generalize ((ptr - st.lstoreGetMpageCacheBasePtr) &&& (st.lstoreGetMpageSize - 1)).toNat = off
    at hand hoff
  left
  unfold LStore.bytesAhead
  rw [hoff]
  split
  · have hsub : (st.lstoreGetMpageSize - BitVec.ofInt 64 off).toNat =
        st.lstoreGetMpageSize.toNat - off := by
      rw [BitVec.toNat_sub, toNat_ofInt_natCast (by omega)]
      omega
    have hint := toInt32_le (st.lstoreGetMpageSize - BitVec.ofInt 64 off)
    omega
  · omega

/-- The template does not divide by zero, and it returns 1 for a step of at least a page. -/
structure StepArithmetic (env : Env σ) (s : StoreId) (unlinkedPtr ptr : Uintptr)
    (stepVal : BitVec 64) (ptrSize : Int) (w : World σ) : Prop where
  noDivisionByZero : ∀ w', carmorGetValidIterationsTemplate env s unlinkedPtr ptr stepVal ptrSize w ≠
    .error .divisionByZero w'
  returnsOne : (env.stores s).lstoreGetMpageSize.toNat ≤ stepVal.toInt.natAbs →
    carmorGetValidIterationsTemplate env s unlinkedPtr ptr stepVal ptrSize w = .ok 1 w

section AnyStep

variable {env : Env σ} (s : StoreId) {unlinkedPtr ptr : Uintptr} (stepVal : BitVec 64)
  (ptrSize : Int) (htag : isCarmorPtr unlinkedPtr = true)
include htag

theorem validIterations_crossPageBuffer (hbuffer : ptr = env.gtCrossPageBuffer) (w : World σ) :
    carmorGetValidIterationsTemplate env s unlinkedPtr ptr stepVal ptrSize w = .ok 1 w := by
  rw [carmorGetValidIterationsTemplate]
  simp only [htag, hbuffer, Bool.not_true, Bool.false_eq_true, if_false, if_true]
  rfl

variable (hbuffer : ptr ≠ env.gtCrossPageBuffer)
include hbuffer

variable {stepVal} in
theorem validIterations_stepZero (hzero : toInt32 stepVal = 0) (w : World σ) :
    carmorGetValidIterationsTemplate env s unlinkedPtr ptr stepVal ptrSize w =
      .error .divisionByZero w := by
  rw [carmorGetValidIterationsTemplate]
  simp only [htag, hbuffer, hzero, Bool.not_true, Bool.false_eq_true, if_false, if_true]
  rfl

variable {stepVal} in
/-- The template counts the steps of the narrowed size. -/
theorem validIterations_eq_intCount (hstep : toInt32 stepVal ≠ 0) (w : World σ) :
    carmorGetValidIterationsTemplate env s unlinkedPtr ptr stepVal ptrSize w =
      .ok ((env.stores s).intCount ptr (toInt32 stepVal) ptrSize) w := by
  have hquot : (if 0 < toInt32 stepVal then
        toInt32 ((env.stores s).lstoreGetMpageSize -
          BitVec.ofInt 64 ((env.stores s).intOffset ptr))
      else -((env.stores s).intOffset ptr + 1)).tdiv (toInt32 stepVal) =
      ((env.stores s).bytesAhead ptr (toInt32 stepVal)).tdiv (toInt32 stepVal).natAbs := by
    unfold LStore.bytesAhead
    split
    · rw [Int.natAbs_of_nonneg (by omega)]
    · rw [Int.ofNat_natAbs_of_nonpos (by omega), ← Int.neg_tdiv_neg, Int.neg_neg]
  unfold LStore.intOffset at hquot
  rw [carmorGetValidIterationsTemplate]
  simp only [htag, hbuffer, hstep, hquot, Bool.not_true, Bool.false_eq_true, if_false,
    ite_nonpos_eq_max, Lib.pure_apply]
  rfl

omit hbuffer in
/-- The step arithmetic is right exactly if the pointer is the cross-page buffer, or the step is not
a multiple of `2 ^ 32` and a step of at least a page is narrowed to one that the page ends ahead
of. -/
theorem stepArithmetic_iff (w : World σ) :
    StepArithmetic env s unlinkedPtr ptr stepVal ptrSize w ↔
      ptr = env.gtCrossPageBuffer ∨ toInt32 stepVal ≠ 0 ∧
        ((env.stores s).lstoreGetMpageSize.toNat ≤ stepVal.toInt.natAbs →
          (env.stores s).EndsAhead ptr (toInt32 stepVal) ptrSize) := by
  by_cases hbuffer : ptr = env.gtCrossPageBuffer
  · have hrun := validIterations_crossPageBuffer s stepVal ptrSize htag hbuffer w
    refine iff_of_true ⟨fun w' => ?_, fun _ => hrun⟩ (.inl hbuffer)
    rw [hrun]
    simp
  by_cases hzero : toInt32 stepVal = 0
  · have hrun := validIterations_stepZero s ptrSize htag hbuffer hzero w
    refine iff_of_false (fun h => h.noDivisionByZero w hrun) ?_
    rintro (h | h)
    · exact hbuffer h
    · exact h.1 hzero
  have hrun := validIterations_eq_intCount s ptrSize htag hbuffer hzero w
  rw [or_iff_right hbuffer, and_iff_right hzero]
  constructor
  · intro h hpage
    have hone := h.returnsOne hpage
    rw [hrun] at hone
    obtain ⟨hcount, -⟩ := EStateM.Result.ok.inj hone
    exact (LStore.intCount_eq_one_iff _ _ hzero _).mp hcount
  · intro h
    refine ⟨fun w' => ?_, fun hpage => ?_⟩
    · rw [hrun]
      simp
    · rw [hrun, (LStore.intCount_eq_one_iff _ _ hzero _).mpr (h hpage)]

end AnyStep

/-- Steps of a page, in both directions. -/
theorem stepArithmetic_iff_onePage :
    StepArithmetic smallEnv .lstore0 (makeMstorePtr .lstore0 0x10) 0x100010 0x1000 8 initialWorld ∧
    StepArithmetic smallEnv .lstore0 (makeMstorePtr .lstore0 0x10) 0x100010 (-0x1000) 8
      initialWorld := by
  have htag : isCarmorPtr (makeMstorePtr .lstore0 0x10) = true := by decide
  refine ⟨(stepArithmetic_iff .lstore0 0x1000 8 htag initialWorld).mpr (.inr ⟨by decide, fun _ => ?_⟩),
    (stepArithmetic_iff .lstore0 (-0x1000) 8 htag initialWorld).mpr (.inr ⟨by decide, fun _ => ?_⟩)⟩
  · exact LStore.endsAhead_of_pageSize_le _ _ (by decide) (by decide) (by decide) (by decide) _
  · exact LStore.endsAhead_of_pageSize_le _ _ (by decide) (by decide) (by decide) (by decide) _

/-- A step of zero divides by zero, and a step of `2 ^ 32 + 8` bytes is taken for one of 8 bytes, of
which 510 lie in the page. -/
theorem not_stepArithmetic_narrowed :
    ¬ StepArithmetic smallEnv .lstore0 (makeMstorePtr .lstore0 0x10) 0x100010 0 8 initialWorld ∧
    ¬ StepArithmetic smallEnv .lstore0 (makeMstorePtr .lstore0 0x10) 0x100010 0x100000008 8
      initialWorld := by
  constructor
  · intro h
    exact h.noDivisionByZero initialWorld rfl
  · intro h
    have hcount : carmorGetValidIterationsTemplate smallEnv .lstore0 (makeMstorePtr .lstore0 0x10)
        0x100010 0x100000008 8 initialWorld = .ok 510 initialWorld := rfl
    have hone := h.returnsOne (by decide)
    rw [hcount] at hone
    cases hone

end Carmor
