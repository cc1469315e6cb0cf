import Carmor.Proofs.Geometry

/-!
# Operands of the bulk operations

What `left_in_vl` and `left_in_vr` are as numbers, and how an operand's pointer advances by a
chunk.
-/

namespace Carmor

variable {σ : Type}

/-! ## Switches without a `break` in the `case` of store 3 -/

theorem directMpageSize_eq {env : Env σ} {p : Uintptr} {s : StoreId} (htag : switchCase p = some s) :
    directMpageSize env p =
      if s = .lstore3 then throw .abort else return (env.stores s).lstoreGetMpageSize := by
  unfold directMpageSize
  rw [htag]
  cases s <;> rfl

theorem directMpageSize_of_none {env : Env σ} {p : Uintptr} (htag : switchCase p = none) :
    directMpageSize env p = throw .abort := by
  unfold directMpageSize
  rw [htag]

theorem getLstoreParameters_eq {env : Env σ} {p : Uintptr} {s : StoreId}
    (htag : switchCase p = some s) : getLstoreParameters env p =
      if s = .lstore3 then throw .abort else
        return ((env.stores s).lstoreGetMpageCacheBasePtr, (env.stores s).lstoreGetMpageSize) := by
  unfold getLstoreParameters
  rw [htag]
  cases s <;> rfl

/-! ## Sizes -/

theorem toInt32_of_lt {x : BitVec 64} (hx : x.toNat < 2 ^ 31) : toInt32 x = x.toNat := by
  have hlow : (x.setWidth 32).toNat = x.toNat := by
    rw [BitVec.toNat_setWidth, Nat.mod_eq_of_lt (by omega)]
  rw [toInt32, BitVec.toInt_eq_toNat_of_lt (by omega), hlow]

/-- A `size_t` that is positive as an `int` is at least that large. -/
theorem toInt32_le (x : BitVec 64) : toInt32 x ≤ x.toNat := by
  have hlow : (x.setWidth 32).toNat = x.toNat % 2 ^ 32 := BitVec.toNat_setWidth ..
  have hle : (x.setWidth 32).toInt ≤ (x.setWidth 32).toNat := by
    rw [BitVec.toInt_eq_toNat_cond]
    split <;> omega
  rw [toInt32]
  omega

/-- An `int` survives its conversion to `size_t` and back. -/
theorem toInt32_ofInt_toInt32 (x : BitVec 64) : toInt32 (BitVec.ofInt 64 (toInt32 x)) = toInt32 x := by
  unfold toInt32
  generalize x.setWidth 32 = y
  have hwidth : (BitVec.ofInt 64 y.toInt).setWidth 32 = y := by
    have hy := y.isLt
    apply BitVec.eq_of_toNat_eq
    rw [BitVec.toNat_setWidth, BitVec.toNat_ofInt, BitVec.toInt_eq_toNat_cond]
    split <;> omega
  rw [hwidth]

theorem ofInt_natCast (n : Nat) : BitVec.ofInt 64 n = BitVec.ofNat 64 n := BitVec.ofInt_natCast ..

theorem toNat_ofInt_natCast {n : Nat} (hn : n < 2 ^ 64) : (BitVec.ofInt 64 n).toNat = n := by
  rw [ofInt_natCast, BitVec.toNat_ofNat, Nat.mod_eq_of_lt hn]

theorem toNat_ofNat_of_lt {i : Nat} (hi : i < 2 ^ 64) : (BitVec.ofNat 64 i).toNat = i := by
  rw [BitVec.toNat_ofNat, Nat.mod_eq_of_lt hi]

/-- A pointer that does not wrap. -/
theorem toNat_add_ofNat {p : Uintptr} {i : Nat} (hi : p.toNat + i < 2 ^ 64) :
    (p + BitVec.ofNat 64 i).toNat = p.toNat + i := by
  rw [BitVec.toNat_add, toNat_ofNat_of_lt (by omega), Nat.mod_eq_of_lt hi]

/-- A page size that an `int` holds, the sizes that `__carmor_mem_wrapper` is written for. -/
def IntSize (size : SizeT) : Prop := 0 < size.toNat ∧ size.toNat < 2 ^ 31

/-- The bytes left in the block of `linkedPtr`. -/
theorem leftIn_of_params {o : Operand} {base : Uintptr} {size : SizeT}
    (ho : o.params = some (base, size)) (hsize : IntSize size) (linkedPtr : Uintptr) :
    o.leftIn linkedPtr =
      (size.toNat - ((linkedPtr - base).toNat &&& (size.toNat - 1)) : Nat) := by
  obtain ⟨hpos, hlt⟩ := hsize
  have hmask : (((size - 1).setWidth 32).setWidth 64).toNat = size.toNat - 1 := by
    rw [BitVec.toNat_setWidth, BitVec.toNat_setWidth, BitVec.toNat_sub]
    have hone : (1 : BitVec 64).toNat = 1 := rfl
    omega
  have hle : (linkedPtr - base).toNat &&& (size.toNat - 1) ≤ size.toNat - 1 := Nat.and_le_right
  have hoff : toInt32 ((linkedPtr - base) &&& ((size - 1).setWidth 32).setWidth 64) =
      ((linkedPtr - base).toNat &&& (size.toNat - 1) : Nat) := by
    rw [toInt32_of_lt (by rw [BitVec.toNat_and, hmask]; omega), BitVec.toNat_and, hmask]
  unfold Operand.leftIn
  rw [ho]
  simp only [hoff]
  generalize (linkedPtr - base).toNat &&& (size.toNat - 1) = off at hle
  have hsub : (size - BitVec.ofInt 64 (off : Int)).toNat = size.toNat - off := by
    rw [BitVec.toNat_sub, toNat_ofInt_natCast (by omega)]
    omega
  rw [toInt32_of_lt (by omega), hsub]

theorem leftIn_native {o : Operand} (ho : o.params = none) (linkedPtr : Uintptr) :
    o.leftIn linkedPtr = 2 ^ 30 := by
  unfold Operand.leftIn
  rw [ho]
  rfl

/-- The blocks of a tagged operand have a size that an `int` holds. -/
def Operand.Sized (o : Operand) : Prop := ∀ base size, o.params = some (base, size) → IntSize size

theorem leftIn_pos {o : Operand} (ho : o.Sized) (linkedPtr : Uintptr) :
    0 < o.leftIn linkedPtr := by
  cases hparams : o.params with
  | none =>
    rw [leftIn_native hparams]
    decide
  | some params =>
    obtain ⟨base, size⟩ := params
    have hsize := ho base size hparams
    have hpos := hsize.1
    have hle : (linkedPtr - base).toNat &&& (size.toNat - 1) ≤ size.toNat - 1 := Nat.and_le_right
    rw [leftIn_of_params hparams hsize]
    omega

/-! ## The loop of `__carmor_mem_wrapper` -/

/-- `min_left`: the bytes up to the first page end of an operand. -/
def BulkOp.minLeft (b : BulkOp) (vl0 vr0 : Uintptr) : Nat :=
  min (b.vl.leftIn vl0).toNat (b.vr.leftIn vr0).toNat

structure BulkOp.Sized (b : BulkOp) : Prop where
  vl : b.vl.Sized
  vr : b.vr.Sized

section Loop

variable {env : Env σ} {b : BulkOp}

theorem BulkOp.Sized.minLeft_pos (hb : b.Sized) (vl0 vr0 : Uintptr) : 0 < b.minLeft vl0 vr0 := by
  have hl := leftIn_pos hb.vl vl0
  have hr := leftIn_pos hb.vr vr0
  unfold BulkOp.minLeft
  omega

/-- The local `min_left` of the loop. -/
theorem BulkOp.Sized.minLeft_eq (hb : b.Sized) (vl0 vr0 : Uintptr) :
    (if b.vr.leftIn vr0 < b.vl.leftIn vl0 then b.vr.leftIn vr0 else b.vl.leftIn vl0) =
      (b.minLeft vl0 vr0 : Int) := by
  have hl := leftIn_pos hb.vl vl0
  have hr := leftIn_pos hb.vr vr0
  unfold BulkOp.minLeft
  split <;> omega

/-- A native operand does not end a chunk before the other one. -/
theorem BulkOp.minLeft_vr_native {vl0 : Uintptr} {k : Nat} (hr : b.vr.params = none)
    (hl : b.vl.leftIn vl0 = k) (hk : k ≤ 2 ^ 30) (vr0 : Uintptr) : b.minLeft vl0 vr0 = k := by
  have hnative := leftIn_native hr vr0
  unfold BulkOp.minLeft
  omega

theorem BulkOp.minLeft_vl_native {vr0 : Uintptr} {k : Nat} (hl : b.vl.params = none)
    (hr : b.vr.leftIn vr0 = k) (hk : k ≤ 2 ^ 30) (vl0 : Uintptr) : b.minLeft vl0 vr0 = k := by
  have hnative := leftIn_native hl vl0
  unfold BulkOp.minLeft
  omega

/-- One call of `func` with the write-back after it. -/
def chunkCall (env : Env σ) (b : BulkOp) (vl0 vr0 vl1 vr1 : Uintptr) (n : Nat) : Exec σ Int := do
  let res ← callFunc b vl0 vr0 vl1 vr1 (BitVec.ofNat 64 n)
  writebackChunk env b vl1 vr1
  return res

/-- The step of both operands to the next chunk, `n` bytes further on. -/
def chunkAdvance (env : Env σ) (b : BulkOp) (vl0 vr0 vl1 vr1 : Uintptr) (n : Nat) :
    Exec σ (Uintptr × Uintptr) := do
  let vl0' ← advanceLinked env b.vl (b.vl.leftIn vl0) n vl0 vl1
  let vr0' ← advanceLinked env b.vr (b.vr.leftIn vr0) n vr0 vr1
  return (vl0', vr0')

theorem chunkAdvance_of_ok {vl0 vr0 vl1 vr1 vl0' vr0' : Uintptr} {n : Nat} {w w₁ w₂ : World σ}
    (hl : advanceLinked env b.vl (b.vl.leftIn vl0) n vl0 vl1 w = .ok vl0' w₁)
    (hr : advanceLinked env b.vr (b.vr.leftIn vr0) n vr0 vr1 w₁ = .ok vr0' w₂) :
    chunkAdvance env b vl0 vr0 vl1 vr1 n w = .ok (vl0', vr0') w₂ := by
  unfold chunkAdvance
  rw [Lib.bind_of_ok hl, Lib.bind_of_ok hr]
  rfl

/-- The world after a chunk of an operation that writes nothing back. -/
def BulkOp.afterChunk (b : BulkOp) (vl0 vr0 vl1 vr1 : Uintptr) (n : Nat) (w : World σ) : World σ :=
  (w.log (.func w.store vl0 vr0 vl1 vr1 (BitVec.ofNat 64 n))).withMem
    (b.func vl0 vr0 (BitVec.ofNat 64 n) w.mem).2

theorem chunkCall_cached (hb : b.isLstoreDirect = false) (vl0 vr0 vl1 vr1 : Uintptr) (n : Nat)
    (w : World σ) : chunkCall env b vl0 vr0 vl1 vr1 n w =
      .ok (b.func vl0 vr0 (BitVec.ofNat 64 n) w.mem).1 (b.afterChunk vl0 vr0 vl1 vr1 n w) := by
  unfold chunkCall writebackChunk
  rw [hb]
  rfl

theorem memWrapperLoop_done {fuel : Nat} {ctr : Int} {vl0 vr0 vl1 vr1 : Uintptr} (hctr : ctr ≤ 0)
    (w : World σ) : memWrapperLoop env b (fuel + 1) ctr vl0 vr0 vl1 vr1 w = .ok 0 w := by
  unfold memWrapperLoop
  rw [if_neg (by omega)]
  rfl

/-- A chunk that ends before the range does. -/
theorem memWrapperLoop_chunk (hb : b.Sized) {fuel left : Nat} {ctr : Int}
    {vl0 vr0 vl1 vr1 : Uintptr} (hleft : b.minLeft vl0 vr0 = left) (hctr : (left : Int) < ctr) :
    memWrapperLoop env b (fuel + 1) ctr vl0 vr0 vl1 vr1 = (do
      let res ← chunkCall env b vl0 vr0 vl1 vr1 left
      if b.partialReturn ∧ res ≠ 0 then
        return res
      else
        let vl1' := vl1 + BitVec.ofNat 64 left
        let vr1' := vr1 + BitVec.ofNat 64 left
        let (vl0', vr0') ← chunkAdvance env b vl0 vr0 vl1' vr1' left
        memWrapperLoop env b fuel (ctr - left) vl0' vr0' vl1' vr1') := by
  have hmin := hb.minLeft_eq vl0 vr0
  rw [hleft] at hmin
  rw [memWrapperLoop, if_pos (by omega)]
  simp only [hmin, if_pos hctr, ofInt_natCast]
  funext w
  simp only [chunkCall, chunkAdvance, bind_assoc, pure_bind]

/-- The last chunk. -/
theorem memWrapperLoop_last (hb : b.Sized) {fuel n : Nat} {vl0 vr0 vl1 vr1 : Uintptr}
    (hn : 0 < n) (hleft : n ≤ b.minLeft vl0 vr0) :
    memWrapperLoop env b (fuel + 1) n vl0 vr0 vl1 vr1 = (do
      let res ← chunkCall env b vl0 vr0 vl1 vr1 n
      if b.partialReturn ∧ res ≠ 0 then
        return res
      else
        memWrapperLoop env b fuel 0 vl0 vr0 vl1 vr1) := by
  have hmin := hb.minLeft_eq vl0 vr0
  rw [memWrapperLoop, if_pos (by omega)]
  simp only [hmin, if_neg (show ¬ (b.minLeft vl0 vr0 : Int) < n by omega), ofInt_natCast]
  simp only [chunkCall, bind_assoc, pure_bind, Int.sub_self]

/-- An iteration after which the loop goes on. -/
theorem memWrapperLoop_next (hb : b.Sized) (fuel : Nat) {n left : Nat}
    {vl0 vr0 vl1 vr1 vl0' vr0' : Uintptr}
    {res : Int} {w w₁ w₂ : World σ} (hleft : b.minLeft vl0 vr0 = left) (hlt : left < n)
    (hchunk : chunkCall env b vl0 vr0 vl1 vr1 left w = .ok res w₁)
    (hstay : ¬ (b.partialReturn = true ∧ res ≠ 0))
    (hadvance : chunkAdvance env b vl0 vr0 (vl1 + BitVec.ofNat 64 left) (vr1 + BitVec.ofNat 64 left)
      left w₁ = .ok (vl0', vr0') w₂) :
    memWrapperLoop env b (fuel + 1) n vl0 vr0 vl1 vr1 w =
      memWrapperLoop env b fuel (n - left : Nat) vl0' vr0' (vl1 + BitVec.ofNat 64 left)
        (vr1 + BitVec.ofNat 64 left) w₂ := by
  have hctr : (n : Int) - left = (n - left : Nat) := by omega
  rw [memWrapperLoop_chunk hb hleft (by omega), Lib.bind_of_ok hchunk, if_neg hstay]
  simp only
  rw [Lib.bind_of_ok hadvance, hctr]

/-- An invariant of the loop on `n` bytes from `vl` and `vr`: `Inv done vl0 vr0` holds when `done`
bytes are processed and the operands are linked at `vl0` and `vr0`, and `Post` when the loop
returns. -/
structure LoopInvariant (env : Env σ) (b : BulkOp) (n : Nat) (vl vr : Uintptr)
    (Inv : Nat → Uintptr → Uintptr → World σ → Prop) (Post : Int → World σ → Prop) : Prop where
  exit : ∀ {vl0 vr0 w}, Inv n vl0 vr0 w → Post 0 w
  chunk : ∀ {done left vl0 vr0 w}, Inv done vl0 vr0 w → b.minLeft vl0 vr0 = left →
    done + left < n → ∃ res w₁,
      chunkCall env b vl0 vr0 (vl + BitVec.ofNat 64 done) (vr + BitVec.ofNat 64 done) left w =
        .ok res w₁ ∧
      if b.partialReturn ∧ res ≠ 0 then Post res w₁
      else ∃ vl0' vr0' w₂,
        chunkAdvance env b vl0 vr0 (vl + BitVec.ofNat 64 (done + left))
          (vr + BitVec.ofNat 64 (done + left)) left w₁ = .ok (vl0', vr0') w₂ ∧
        Inv (done + left) vl0' vr0' w₂
  last : ∀ {done vl0 vr0 w}, Inv done vl0 vr0 w → done < n → n ≤ done + b.minLeft vl0 vr0 →
    ∃ res w₁,
      chunkCall env b vl0 vr0 (vl + BitVec.ofNat 64 done) (vr + BitVec.ofNat 64 done) (n - done) w =
        .ok res w₁ ∧
      if b.partialReturn ∧ res ≠ 0 then Post res w₁ else Post 0 w₁

theorem add_ofNat_add (p : Uintptr) (i j : Nat) :
    p + BitVec.ofNat 64 i + BitVec.ofNat 64 j = p + BitVec.ofNat 64 (i + j) := by
  rw [BitVec.add_assoc, BitVec.ofNat_add]

/-- With more iterations than bytes the loop returns, in a state that satisfies `Post`. -/
theorem LoopInvariant.returns {n : Nat} {vl vr : Uintptr}
    {Inv : Nat → Uintptr → Uintptr → World σ → Prop} {Post : Int → World σ → Prop}
    (h : LoopInvariant env b n vl vr Inv Post) (hb : b.Sized) {fuel done : Nat}
    (vl0 vr0 : Uintptr) (w : World σ) (hinv : Inv done vl0 vr0 w) (hdone : done ≤ n)
    (hfuel : n - done < fuel) :
    ∃ res w', memWrapperLoop env b fuel (n - done : Nat) vl0 vr0 (vl + BitVec.ofNat 64 done)
      (vr + BitVec.ofNat 64 done) w = .ok res w' ∧ Post res w' := by
  induction fuel generalizing done vl0 vr0 w with
  | zero => omega
  | succ fuel ih =>
    by_cases hend : done = n
    · subst hend
      exact ⟨0, w, memWrapperLoop_done (by omega) w, h.exit hinv⟩
    by_cases hlast : n ≤ done + b.minLeft vl0 vr0
    · obtain ⟨res, w₁, hcall, hpost⟩ := h.last hinv (by omega) hlast
      rw [memWrapperLoop_last hb (by omega) (by omega), Lib.bind_of_ok hcall]
      by_cases hres : b.partialReturn ∧ res ≠ 0
      · rw [if_pos hres] at hpost ⊢
        exact ⟨res, w₁, rfl, hpost⟩
      · rw [if_neg hres] at hpost ⊢
        obtain ⟨f, rfl⟩ : ∃ f, fuel = f + 1 := ⟨fuel - 1, by omega⟩
        exact ⟨0, w₁, memWrapperLoop_done (by omega) w₁, hpost⟩
    · have hpos := hb.minLeft_pos vl0 vr0
      obtain ⟨left, hleft⟩ : ∃ left, b.minLeft vl0 vr0 = left := ⟨_, rfl⟩
      rw [hleft] at hlast hpos
      obtain ⟨res, w₁, hcall, hnext⟩ := h.chunk hinv hleft (by omega)
      by_cases hres : b.partialReturn ∧ res ≠ 0
      · rw [memWrapperLoop_chunk hb hleft (by omega), Lib.bind_of_ok hcall]
        rw [if_pos hres] at hnext ⊢
        exact ⟨res, w₁, rfl, hnext⟩
      · rw [if_neg hres] at hnext
        obtain ⟨vl0', vr0', w₂, hadvance, hinv'⟩ := hnext
        rw [← add_ofNat_add, ← add_ofNat_add] at hadvance
        rw [memWrapperLoop_next hb fuel hleft (by omega) hcall hres hadvance, add_ofNat_add,
          add_ofNat_add, Nat.sub_sub]
        exact ih vl0' vr0' w₂ hinv' (by omega) (by omega)

/-- From the first byte on the loop returns for every `int`; a negative one counts no bytes. -/
theorem LoopInvariant.returns_ctr {ctr : Int} {vl vr : Uintptr}
    {Inv : Nat → Uintptr → Uintptr → World σ → Prop} {Post : Int → World σ → Prop}
    (h : LoopInvariant env b ctr.toNat vl vr Inv Post) (hb : b.Sized) {fuel : Nat}
    (vl0 vr0 : Uintptr) (w : World σ) (hinv : Inv 0 vl0 vr0 w) (hfuel : ctr.toNat < fuel) :
    ∃ res w', memWrapperLoop env b fuel ctr vl0 vr0 vl vr w = .ok res w' ∧ Post res w' := by
  by_cases hctr : ctr ≤ 0
  · obtain ⟨f, rfl⟩ : ∃ f, fuel = f + 1 := ⟨fuel - 1, by omega⟩
    refine ⟨0, w, memWrapperLoop_done hctr w, h.exit (?_ : Inv ctr.toNat vl0 vr0 w)⟩
    rwa [show ctr.toNat = 0 by omega]
  · have hreturns := h.returns hb vl0 vr0 w hinv (Nat.zero_le _) hfuel
    rwa [BitVec.add_zero, BitVec.add_zero, Nat.sub_zero, Int.toNat_of_nonneg (by omega)] at hreturns

/-- From the first byte on, on a size that an `int` holds. -/
theorem LoopInvariant.returns_size {n : SizeT} {vl vr : Uintptr}
    {Inv : Nat → Uintptr → Uintptr → World σ → Prop} {Post : Int → World σ → Prop}
    (h : LoopInvariant env b n.toNat vl vr Inv Post) (hb : b.Sized) (hn : n.toNat < 2 ^ 31)
    {fuel : Nat} (vl0 vr0 : Uintptr) (w : World σ) (hinv : Inv 0 vl0 vr0 w)
    (hfuel : n.toNat < fuel) :
    ∃ res w', memWrapperLoop env b fuel (toInt32 n) vl0 vr0 vl vr w = .ok res w' ∧ Post res w' := by
  rw [toInt32_of_lt hn]
  exact h.returns_ctr hb vl0 vr0 w hinv hfuel

end Loop

/-! ## The loop of `__carmor_mem_wrapper_single` -/

section SingleLoop

variable {env : Env σ} {b : SingleOp}

theorem memWrapperSingleLoop_done {fuel : Nat} {ctr : Int} {acc : SizeT} {dst0 dstOrig : Uintptr}
    (hctr : ctr ≤ 0) (w : World σ) : memWrapperSingleLoop env b (fuel + 1) ctr acc dst0 dstOrig w =
      .ok (if b.aggregateRes then acc else 0) w := by
  unfold memWrapperSingleLoop
  rw [if_neg (by omega)]
  rfl

/-- What the loop can return at its end: the sum of the results, or 0. -/
def SingleOp.Total (b : SingleOp) (res : Uintptr) : Prop := b.aggregateRes = false → res = 0

/-- An invariant of the loop on `n` bytes from `dest`, as `LoopInvariant`. -/
structure SingleInvariant (env : Env σ) (b : SingleOp) (n : Nat) (dest : Uintptr)
    (Inv : Nat → Uintptr → World σ → Prop) (Post : Uintptr → World σ → Prop) : Prop where
  exit : ∀ {dst0 w}, Inv n dst0 w → ∀ total, b.Total total → Post total w
  chunk : ∀ {done left dst0 w}, Inv done dst0 w → b.dest.leftIn dst0 = (left : Nat) →
    done + left < n → ∃ res w₁,
      callFuncSingle env b dst0 (dest + BitVec.ofNat 64 done) (BitVec.ofNat 64 left) w =
        .ok res w₁ ∧
      if b.partialReturn ∧ res ≠ 0 then Post res w₁
      else ∃ dst0' w₂,
        carmorPageFault env (dest + BitVec.ofNat 64 (done + left)) b.dest.dirty w₁ =
          .ok dst0' w₂ ∧
        Inv (done + left) dst0' w₂
  last : ∀ {done dst0 w}, Inv done dst0 w → done < n → (n : Int) ≤ done + b.dest.leftIn dst0 →
    ∃ res w₁,
      callFuncSingle env b dst0 (dest + BitVec.ofNat 64 done) (BitVec.ofNat 64 (n - done)) w =
        .ok res w₁ ∧
      if b.partialReturn ∧ res ≠ 0 then Post res w₁ else ∀ total, b.Total total → Post total w₁

/-- With more iterations than bytes the loop returns, in a state that satisfies `Post`. -/
theorem SingleInvariant.returns {n : Nat} {dest : Uintptr}
    {Inv : Nat → Uintptr → World σ → Prop} {Post : Uintptr → World σ → Prop}
    (h : SingleInvariant env b n dest Inv Post) (hb : b.dest.Sized) {fuel done : Nat} (acc : SizeT)
    (dst0 : Uintptr) (w : World σ) (hinv : Inv done dst0 w) (hdone : done ≤ n)
    (hfuel : n - done < fuel) :
    ∃ res w', memWrapperSingleLoop env b fuel (n - done : Nat) acc dst0
      (dest + BitVec.ofNat 64 done) w = .ok res w' ∧ Post res w' := by
  induction fuel generalizing done acc dst0 w with
  | zero => omega
  | succ fuel ih =>
    have htotal : ∀ acc, b.Total (if b.aggregateRes then acc else 0) := by
      intro acc hres
      rw [hres]
      rfl
    by_cases hend : done = n
    · subst hend
      exact ⟨_, w, memWrapperSingleLoop_done (by omega) w, h.exit hinv _ (htotal _)⟩
    have hpos := leftIn_pos hb dst0
    obtain ⟨left, hleft⟩ : ∃ left : Nat, b.dest.leftIn dst0 = left :=
      ⟨(b.dest.leftIn dst0).toNat, by omega⟩
    rw [memWrapperSingleLoop, if_pos (by omega)]
    by_cases hlast : n ≤ done + left
    · obtain ⟨res, w₁, hcall, hpost⟩ := h.last hinv (by omega) (by omega)
      obtain ⟨f, rfl⟩ : ∃ f, fuel = f + 1 := ⟨fuel - 1, by omega⟩
      simp only [hleft, ofInt_natCast]
      rw [if_neg (by omega), Lib.bind_of_ok hcall]
      by_cases hreturn : b.partialReturn ∧ res ≠ 0
      · rw [if_pos hreturn] at hpost ⊢
        exact ⟨res, w₁, rfl, hpost⟩
      · rw [if_neg hreturn] at hpost ⊢
        exact ⟨_, w₁, memWrapperSingleLoop_done (by omega) w₁, hpost _ (htotal _)⟩
    · obtain ⟨res, w₁, hcall, hnext⟩ := h.chunk hinv hleft (by omega)
      have hctr : ((n - done : Nat) : Int) - left = (n - (done + left) : Nat) := by omega
      simp only [hleft, ofInt_natCast]
      rw [if_pos (by omega), Lib.bind_of_ok hcall]
      by_cases hreturn : b.partialReturn ∧ res ≠ 0
      · rw [if_pos hreturn] at hnext ⊢
        exact ⟨res, w₁, rfl, hnext⟩
      · rw [if_neg hreturn] at hnext ⊢
        obtain ⟨dst0', w₂, hfault, hinv'⟩ := hnext
        rw [add_ofNat_add, Lib.bind_of_ok hfault, hctr]
        exact ih _ dst0' w₂ hinv' (by omega) (by omega)

/-- From the first byte on the loop returns for every `int`, as `LoopInvariant.returns_ctr`. -/
theorem SingleInvariant.returns_ctr {ctr : Int} {dest : Uintptr}
    {Inv : Nat → Uintptr → World σ → Prop} {Post : Uintptr → World σ → Prop}
    (h : SingleInvariant env b ctr.toNat dest Inv Post) (hb : b.dest.Sized) {fuel : Nat}
    (dst0 : Uintptr) (w : World σ) (hinv : Inv 0 dst0 w) (hfuel : ctr.toNat < fuel) :
    ∃ res w', memWrapperSingleLoop env b fuel ctr 0 dst0 dest w = .ok res w' ∧ Post res w' := by
  by_cases hctr : ctr ≤ 0
  · obtain ⟨f, rfl⟩ : ∃ f, fuel = f + 1 := ⟨fuel - 1, by omega⟩
    have htotal : b.Total (if b.aggregateRes then 0 else 0) := fun _ => ite_self 0
    refine ⟨_, w, memWrapperSingleLoop_done hctr w, h.exit (?_ : Inv ctr.toNat dst0 w) _ htotal⟩
    rwa [show ctr.toNat = 0 by omega]
  · have hreturns := h.returns hb 0 dst0 w hinv (Nat.zero_le _) hfuel
    rwa [BitVec.add_zero, Nat.sub_zero, Int.toNat_of_nonneg (by omega)] at hreturns

/-- From the first byte on, on a size that an `int` holds. -/
theorem SingleInvariant.returns_size {n : SizeT} {dest : Uintptr}
    {Inv : Nat → Uintptr → World σ → Prop} {Post : Uintptr → World σ → Prop}
    (h : SingleInvariant env b n.toNat dest Inv Post) (hb : b.dest.Sized) (hn : n.toNat < 2 ^ 31)
    {fuel : Nat} (dst0 : Uintptr) (w : World σ) (hinv : Inv 0 dst0 w) (hfuel : n.toNat < fuel) :
    ∃ res w', memWrapperSingleLoop env b fuel (toInt32 n) 0 dst0 dest w = .ok res w' ∧
      Post res w' := by
  rw [toInt32_of_lt hn]
  exact h.returns_ctr hb dst0 w hinv hfuel

end SingleLoop

/-! ## `__carmor_mem_wrapper` -/

section Wrapper

variable {env : Env σ} (fuel : Nat) {vl vr : Uintptr} (vlDirty vrDirty : Byte) (n : SizeT)
  (func : MemFunction) (partialReturn : Bool) {direct : Bool} {w : World σ}

theorem lstoreTypeIsDirect_eq {p : Uintptr} {s : StoreId} (htag : switchCase p = some s) :
    lstoreTypeIsDirect env p = pure (env.stores s).lstoreIsDirect := by
  unfold lstoreTypeIsDirect
  rw [htag]

theorem operandParameters_tagged {p : Uintptr} {s : StoreId} (htag : switchCase p = some s)
    (hs : s ≠ .lstore3) :
    operandParameters env p = pure (some ((env.stores s).lstoreGetMpageCacheBasePtr,
      (env.stores s).lstoreGetMpageSize)) := by
  unfold operandParameters
  rw [if_pos (isCarmorPtr_of_switchCase htag), getLstoreParameters_eq htag, if_neg hs, pure_bind]

theorem operandParameters_lstore3 {p : Uintptr} (htag : switchCase p = some .lstore3) :
    operandParameters env p w = .error .abort w := by
  unfold operandParameters
  rw [if_pos (isCarmorPtr_of_switchCase htag), getLstoreParameters_eq htag, if_pos rfl]
  rfl

theorem operandParameters_native {p : Uintptr} (hp : isCarmorPtr p = false) :
    operandParameters env p = pure none := by
  unfold operandParameters
  rw [if_neg (by simp [hp])]

/-- The wrapper on two native operands is the function itself. -/
theorem memWrapper_native (hl : isCarmorPtr vl = false) (hr : isCarmorPtr vr = false) :
    carmorMemWrapper env fuel vl vlDirty vr vrDirty n func partialReturn = onMem (func vl vr n) := by
  unfold carmorMemWrapper
  rw [hl, hr]
  rfl

section Tagged

variable (htagged : (isCarmorPtr vl || isCarmorPtr vr) = true)
  (hdirect : lstoreTypeIsDirect env (if isCarmorPtr vl then vl else vr) = pure direct)
include htagged hdirect

omit htagged in
/-- Two tagged operands in a direct store fail an assertion. -/
theorem memWrapper_direct (hstore : direct = true)
    (hboth : (isCarmorPtr vl && isCarmorPtr vr) = true) :
    carmorMemWrapper env fuel vl vlDirty vr vrDirty n func partialReturn w =
      .error .assertFailed w := by
  obtain ⟨hl, hr⟩ := Bool.and_eq_true_iff.mp hboth
  subst hstore
  unfold carmorMemWrapper
  simp only [hl, hr, if_true] at hdirect ⊢
  rw [hdirect]
  rfl

variable (hassert : direct = true → (isCarmorPtr vl && isCarmorPtr vr) = false)
include hassert

/-- Past the checks the wrapper reads the parameters. -/
theorem memWrapper_eq_parameters :
    carmorMemWrapper env fuel vl vlDirty vr vrDirty n func partialReturn = (do
      let vlParams ← operandParameters env vl
      let vrParams ← operandParameters env vr
      let b : BulkOp := ⟨⟨vlDirty, vlParams⟩, ⟨vrDirty, vrParams⟩, direct, func, partialReturn⟩
      let vl0 ← linkOperand env b.vl vl
      let vr0 ← linkOperand env b.vr vr
      memWrapperLoop env b fuel (toInt32 n) vl0 vr0 vl vr) := by
  have hsome : ¬ (!isCarmorPtr vl && !isCarmorPtr vr) = true := by
    intro hnone
    rw [← Bool.not_or, htagged] at hnone
    cases hnone
  unfold carmorMemWrapper
  simp only
  rw [if_neg hsome, hdirect, pure_bind]
  cases direct with
  | false => rfl
  | true =>
    rw [if_pos rfl, hassert rfl]
    rfl

theorem memWrapper_eq {vlParams vrParams : Option (Uintptr × SizeT)}
    (hl : operandParameters env vl = pure vlParams)
    (hr : operandParameters env vr = pure vrParams) :
    carmorMemWrapper env fuel vl vlDirty vr vrDirty n func partialReturn = (do
      let b : BulkOp := ⟨⟨vlDirty, vlParams⟩, ⟨vrDirty, vrParams⟩, direct, func, partialReturn⟩
      let vl0 ← linkOperand env b.vl vl
      let vr0 ← linkOperand env b.vr vr
      memWrapperLoop env b fuel (toInt32 n) vl0 vr0 vl vr) := by
  rw [memWrapper_eq_parameters fuel vlDirty vrDirty n func partialReturn htagged hdirect hassert,
    hl, pure_bind, hr, pure_bind]

end Tagged

end Wrapper

end Carmor
