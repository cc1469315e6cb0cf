import Carmor.Lib.BlockWrite
import Carmor.Proofs.DirectStore
import Carmor.Proofs.Memcpy

/-!
# Bulk writes to a direct store

`__carmor_memset` and `__carmor_memcpy` to a direct store fill the direct buffer chunk by chunk
and write a whole page back after every chunk: they are `Lib.writeRange` with the page size as
the block. The last page goes past the end of the range, with what is left in the buffer.
-/

namespace Carmor

variable {σ : Type}

/-- The direct buffer and the storage from `u` on, as the data of a block write. -/
def directState (storage : σ → Memory) (buffer u : Uintptr) (m : Machine σ) : Lib.BlockState Byte where
  buffer x := m.mem (cells buffer x)
  cells i := storage m.store (cells u i)

/-- The world holds the block state `t`, in a block of the direct buffer and in the storage from
`u` on; memory outside the block is `mem`. -/
structure Holds (storage : σ → Memory) (buffer u : Uintptr) (block : Nat) (mem : Memory)
    (t : Lib.BlockState Byte) (w : World σ) : Prop where
  gtDirectBuffer : w.gtDirectBuffer = buffer
  bufferBytes : ∀ x < block, w.mem (cells buffer x) = t.buffer x
  storageBytes : ∀ i < 2 ^ 64, storage w.store (cells u i) = t.cells i
  kept : ∀ a, (∀ x < block, cells buffer x ≠ a) → w.mem a = mem a

/-- What a block write stores at each cell. -/
theorem transfer_cells (target source : Memory) (u src : Uintptr) {start block i : Nat}
    (hi : i < 2 ^ 64) (hstart : start + block ≤ 2 ^ 63) :
    transfer target (cells u start) source src block (cells u i) =
      if start ≤ i ∧ i < start + block then source (cells src (i - start))
      else target (cells u i) := by
  unfold transfer
  by_cases hle : start ≤ i
  · have hin := toNat_ofNat_of_lt (show i - start < 2 ^ 64 by omega)
    rw [cells_sub_cells u hle, hin]
    by_cases hlt : i < start + block
    · rw [if_pos (by omega), if_pos ⟨hle, hlt⟩]
      rfl
    · rw [if_neg (by omega), if_neg (by omega)]
  · have hsub := toNat_cells_sub_of_lt u (Nat.lt_of_not_le hle) (by omega)
    rw [hsub, if_neg (by omega), if_neg (by omega)]

/-- A libc function has put the `k` data from `start` on into the buffer. -/
structure ChunkPut (buffer : Uintptr) (d : Nat → Byte) (start k : Nat) (w w₁ : World σ) : Prop where
  gtDirectBuffer : w₁.gtDirectBuffer = w.gtDirectBuffer
  store : w₁.store = w.store
  data : ∀ x < k, w₁.mem (cells buffer x) = d (start + x)
  rest : ∀ a, (∀ x < k, cells buffer x ≠ a) → w₁.mem a = w.mem a

section Save

variable {env : Env σ} {s : StoreId} {storage : σ → Memory} (h : DirectStore env s storage)
  {p buffer : Uintptr} (htag : switchCase p = some s) (hnull : buffer ≠ 0)
  {mem : Memory} {t : Lib.BlockState Byte} {w : World σ}
  (hholds : Holds storage buffer (makeOriginalPointer p) (env.stores s).lstoreGetMpageSize.toNat mem
    t w)
include h htag hnull hholds

/-- After a chunk has been put into the buffer, the write-back is one step of the block write. -/
theorem holds_writebackGeneric {d : Nat → Byte} {start k : Nat}
    (hstart : (makeOriginalPointer p).toNat + start < 2 ^ 60)
    (hk : k ≤ (env.stores s).lstoreGetMpageSize.toNat) {w₁ : World σ}
    (hput : ChunkPut buffer d start k w w₁) :
    ∃ w', carmorWritebackGeneric env (cells p start) (toInt32 (env.stores s).lstoreGetMpageSize) w₁ =
        .ok () w' ∧
      Holds storage buffer (makeOriginalPointer p) (env.stores s).lstoreGetMpageSize.toNat mem
        (Lib.writeChunk d (env.stores s).lstoreGetMpageSize.toNat start k t) w' := by
  have hle := h.pageSize_le
  obtain ⟨w', hrun, hbuffer', hmem, hstorage⟩ :=
    writebackGeneric_direct h (switchCase_cells htag hstart) hnull
      (hput.gtDirectBuffer.trans hholds.gtDirectBuffer)
  rw [makeOriginalPointer_cells htag hstart] at hstorage
  -- the buffer with the chunk at its start
  have hblock : ∀ x < (env.stores s).lstoreGetMpageSize.toNat,
      w₁.mem (cells buffer x) = if x < k then d (start + x) else t.buffer x := by
    intro x hx
    by_cases hxk : x < k
    · rw [if_pos hxk, hput.data x hxk]
    · rw [if_neg hxk, hput.rest, hholds.bufferBytes x hx]
      intro y hy heq
      have hyx := cells_inj (by omega) (by omega) heq
      omega
  refine ⟨w', hrun, hbuffer', ?_, ?_, ?_⟩
  · intro x hx
    rw [hmem, hblock x hx]
    rfl
  · intro i hi
    rw [hstorage, transfer_cells _ _ _ _ hi (by omega), hput.store]
    simp only [Lib.writeChunk]
    by_cases hin : start ≤ i ∧ i < start + (env.stores s).lstoreGetMpageSize.toNat
    · rw [if_pos hin, if_pos hin, hblock _ (by omega)]
      by_cases hchunk : i < start + k
      · rw [if_pos (by omega), if_pos hchunk, Nat.add_sub_cancel' hin.1]
      · rw [if_neg (by omega), if_neg hchunk]
    · rw [if_neg hin, if_neg hin, hholds.storageBytes i hi]
  · intro a ha
    rw [hmem, hput.rest a fun x hx => ha x (by omega), hholds.kept a ha]

/-- A page fault changes nothing. -/
theorem holds_pageFault {start : Nat} (hstart : (makeOriginalPointer p).toNat + start < 2 ^ 60)
    (dirty : Byte) :
    ∃ w', carmorPageFault env (cells p start) dirty w = .ok buffer w' ∧
      Holds storage buffer (makeOriginalPointer p) (env.stores s).lstoreGetMpageSize.toNat mem t
        w' := by
  obtain ⟨w', hrun, hbuffer, hmem, hstorage⟩ := pageFault_direct h (switchCase_cells htag hstart)
    hnull (.present hholds.gtDirectBuffer) dirty
  refine ⟨w', hrun, hbuffer, ?_, ?_, ?_⟩
  · intro x hx
    rw [hmem, hholds.bufferBytes x hx]
  · intro i hi
    rw [hstorage, hholds.storageBytes i hi]
  · intro a ha
    rw [hmem, hholds.kept a ha]

end Save

/-! ## The loops -/

/-- The world after the chunks before `done`, which is a multiple of the chunk, while data are
left. -/
structure ChunksWritten (env : Env σ) (s : StoreId) (storage : σ → Memory) (buffer u : Uintptr)
    (d : Nat → Byte) (n : Nat) (m : Machine σ) (done : Nat) (w : World σ) : Prop where
  started : done < n ∨ done = 0
  chunks : ∃ j, done = j * (env.stores s).directChunk buffer ∧
    Holds storage buffer u (env.stores s).lstoreGetMpageSize.toNat m.mem
      (Lib.writeChunks d (env.stores s).lstoreGetMpageSize.toNat
        ((env.stores s).directChunk buffer) j (directState storage buffer u m)) w

/-- The world after the whole range. -/
def RangeWritten (env : Env σ) (s : StoreId) (storage : σ → Memory) (buffer u : Uintptr)
    (d : Nat → Byte) (n : Nat) (m : Machine σ) (w : World σ) : Prop :=
  Holds storage buffer u (env.stores s).lstoreGetMpageSize.toNat m.mem
    (Lib.writeRange d (env.stores s).lstoreGetMpageSize.toNat ((env.stores s).directChunk buffer) n
      (directState storage buffer u m)) w

section Loops

variable {env : Env σ} {s : StoreId} {storage : σ → Memory} (h : DirectStore env s storage)
  {p buffer : Uintptr} (htag : switchCase p = some s) (hnull : buffer ≠ 0) {d : Nat → Byte} {n : Nat}
  (hrange : (makeOriginalPointer p).toNat + n ≤ 2 ^ 60) {m : Machine σ} {w : World σ}

omit hrange in
include htag hnull h in
/-- The first page fault. -/
theorem exists_firstFault
    (hbuffer : DirectBuffer env (env.stores s).lstoreGetMpageSize buffer w m) (dirty : Byte) :
    ∃ w', carmorPageFault env p dirty w = .ok buffer w' ∧
      ChunksWritten env s storage buffer (makeOriginalPointer p) d n m 0 w' := by
  obtain ⟨w', hrun, hbuffer', hmem, hstorage⟩ := pageFault_direct h htag hnull hbuffer dirty
  refine ⟨w', hrun, .inr rfl, 0, (Nat.zero_mul _).symm, hbuffer', ?_, ?_, ?_⟩
  · intro x _
    rw [hmem]
    rfl
  · intro i _
    rw [hstorage]
    rfl
  · intro a _
    rw [hmem]

omit hrange in
include h in
/-- A range without data is written. -/
theorem ChunksWritten.exit {u : Uintptr} (hw : ChunksWritten env s storage buffer u d n m n w) :
    RangeWritten env s storage buffer u d n m w := by
  obtain ⟨hstarted, j, hj, hholds⟩ := hw
  have hn : n = 0 := by omega
  have hj0 : j = 0 := (Nat.mul_eq_zero.mp (hj.symm.trans hn)).resolve_right
    (Nat.ne_of_gt (h.directChunk_pos buffer))
  subst hj0
  unfold RangeWritten Lib.writeRange
  rw [if_pos hn]
  exact hholds

include h htag hnull hrange

/-- A chunk that ends before the range does, with the page fault after it. -/
theorem ChunksWritten.next {done : Nat}
    (hw : ChunksWritten env s storage buffer (makeOriginalPointer p) d n m done w)
    (hlt : done + (env.stores s).directChunk buffer < n) {w₁ : World σ}
    (hput : ChunkPut buffer d done ((env.stores s).directChunk buffer) w w₁) (dirty : Byte) :
    ∃ w₂ w₃, carmorWritebackGeneric env (cells p done)
        (toInt32 (env.stores s).lstoreGetMpageSize) w₁ = .ok () w₂ ∧
      carmorPageFault env (cells p (done + (env.stores s).directChunk buffer)) dirty w₂ =
        .ok buffer w₃ ∧
      ChunksWritten env s storage buffer (makeOriginalPointer p) d n m
        (done + (env.stores s).directChunk buffer) w₃ := by
  obtain ⟨-, j, hj, hholds⟩ := hw
  obtain ⟨w₂, hsave, hholds₂⟩ := holds_writebackGeneric h htag hnull hholds (by omega)
    ((env.stores s).directChunk_le buffer) hput
  have hnext : (makeOriginalPointer p).toNat + (done + (env.stores s).directChunk buffer) < 2 ^ 60 := by
    omega
  obtain ⟨w₃, hfault, hholds₃⟩ := holds_pageFault h htag hnull hholds₂ hnext dirty
  refine ⟨w₂, w₃, hsave, hfault, .inl hlt, j + 1, ?_, ?_⟩
  · rw [hj, Nat.succ_mul]
  · rw [hj] at hholds₃
    exact hholds₃

/-- The last chunk. -/
theorem ChunksWritten.last {done : Nat}
    (hw : ChunksWritten env s storage buffer (makeOriginalPointer p) d n m done w)
    (hlt : done < n) (hle : n ≤ done + (env.stores s).directChunk buffer) {w₁ : World σ}
    (hput : ChunkPut buffer d done (n - done) w w₁) :
    ∃ w₂, carmorWritebackGeneric env (cells p done)
        (toInt32 (env.stores s).lstoreGetMpageSize) w₁ = .ok () w₂ ∧
      RangeWritten env s storage buffer (makeOriginalPointer p) d n m w₂ := by
  obtain ⟨-, j, hj, hholds⟩ := hw
  have hchunk := (env.stores s).directChunk_le buffer
  have hlast : j = Lib.fullChunks ((env.stores s).directChunk buffer) n :=
    Lib.eq_fullChunks (by omega) (by omega)
  obtain ⟨w₂, hsave, hholds₂⟩ := holds_writebackGeneric h htag hnull hholds (by omega)
    (by omega) hput
  refine ⟨w₂, hsave, ?_⟩
  unfold RangeWritten Lib.writeRange
  rw [if_neg (by omega), ← hlast, ← hj]
  exact hholds₂

end Loops

/-! ## `__carmor_memset` -/

theorem chunkPut_fillBytes (buffer : Uintptr) (c : Byte) (start : Nat) {k : Nat} (hk : k ≤ 2 ^ 64)
    (e : Event σ) (w : World σ) :
    ChunkPut buffer (fun _ => c) start k w
      ((w.log e).withMem (fillBytes w.mem buffer c k)) := by
  refine ⟨rfl, rfl, ?_, ?_⟩
  · intro x hx
    rw [World.withMem_mem, fillBytes, toNat_cells_sub buffer (by omega), if_pos hx]
  · intro a ha
    rw [World.withMem_mem, fillBytes]
    split
    · rename_i hlt
      exact absurd (cells_toNat_sub buffer a) (ha _ hlt)
    · rfl

section Memset

variable {env : Env σ} {s : StoreId} {storage : σ → Memory} {p buffer : Uintptr}
  (htag : switchCase p = some s) (c : Int)

/-- The operand and the function of a fill of a direct store. -/
def fillOp (env : Env σ) (p : Uintptr) (c : Int) : SingleOp :=
  ⟨operandOf env p 1, c, true, carmorMemsetWrapper, false, false⟩

include htag in
theorem callFuncSingle_direct {start k : Nat} (hk : k < 2 ^ 64) {w w' : World σ}
    (hrun : carmorWritebackGeneric env (cells p start) (toInt32 (env.stores s).lstoreGetMpageSize)
      ((w.log (.funcSingle w.store buffer (cells p start) (BitVec.ofNat 64 k))).withMem
        (fillBytes w.mem buffer (BitVec.ofInt 8 c) k)) = .ok () w') :
    callFuncSingle env (fillOp env p c) buffer (cells p start) (BitVec.ofNat 64 k) w =
      .ok buffer w' := by
  have hparams := operandOf_tagged env htag 1
  have hlow := toNat_ofNat_of_lt hk
  unfold callFuncSingle fillOp
  rw [Lib.bind_of_ok (get_apply w), Lib.bind_of_ok (record_apply w _),
    Lib.bind_of_ok (onMem_apply _ _)]
  simp only [hparams, carmorMemsetWrapper, World.log_mem, hlow, if_true]
  exact Lib.bind_of_ok hrun _

variable (h : DirectStore env s storage) (hnull : buffer ≠ 0) {n : SizeT}
  (hrange : (makeOriginalPointer p).toNat + n.toNat ≤ 2 ^ 60)
include h htag hnull hrange

theorem fill_singleInvariant (m : Machine σ) :
    SingleInvariant env (fillOp env p c) n.toNat p
      (fun done dst0 w => dst0 = buffer ∧ ChunksWritten env s storage buffer
        (makeOriginalPointer p) (fun _ => BitVec.ofInt 8 c) n.toNat m done w)
      (fun _ => RangeWritten env s storage buffer (makeOriginalPointer p) (fun _ => BitVec.ofInt 8 c)
        n.toNat m) where
  exit hinv _ _ := hinv.2.exit h
  chunk := by
    rintro done left dst0 w ⟨rfl, hw⟩ hleft hlt
    have hchunk : left = (env.stores s).directChunk dst0 := by
      have hleft' := h.leftIn dst0 htag 1
      change (operandOf env p 1).leftIn dst0 = left at hleft
      omega
    subst hchunk
    obtain ⟨w₂, w₃, hsave, hfault, hw'⟩ := hw.next h htag hnull hrange hlt
      (chunkPut_fillBytes dst0 (BitVec.ofInt 8 c) done (by omega) _ w) 1
    refine ⟨dst0, w₂, callFuncSingle_direct htag c (by omega) hsave, ?_⟩
    rw [if_neg (by simp [fillOp])]
    exact ⟨_, w₃, hfault, rfl, hw'⟩
  last := by
    rintro done dst0 w ⟨rfl, hw⟩ hlt hle
    have hleft := h.leftIn dst0 htag 1
    change _ ≤ _ + (operandOf env p 1).leftIn dst0 at hle
    obtain ⟨w₂, hsave, hw'⟩ := hw.last h htag hnull hrange hlt (by omega)
      (chunkPut_fillBytes dst0 (BitVec.ofInt 8 c) done (by omega) _ w)
    refine ⟨dst0, w₂, callFuncSingle_direct htag c (by omega) hsave, ?_⟩
    rw [if_neg (by simp [fillOp])]
    exact fun _ _ => hw'

/-- `__carmor_memset` on a direct store is a block write. -/
theorem memset_direct (hn : n.toNat < 2 ^ 31) {fuel : Nat} (hfuel : n.toNat < fuel) {w : World σ}
    {m : Machine σ} (hbuffer : DirectBuffer env (env.stores s).lstoreGetMpageSize buffer w m) :
    ∃ w', carmorMemset env fuel p c n w = .ok p w' ∧
      RangeWritten env s storage buffer (makeOriginalPointer p) (fun _ => BitVec.ofInt 8 c) n.toNat m
        w' := by
  obtain ⟨w₁, hfault, hw₁⟩ := exists_firstFault h htag hnull (d := fun _ => BitVec.ofInt 8 c)
    (n := n.toNat) hbuffer 1
  obtain ⟨res, w', hrun, hpost⟩ := (fill_singleInvariant htag c h hnull hrange m).returns_size
    (h.sized htag 1) hn buffer w₁ ⟨rfl, hw₁⟩ hfuel
  refine ⟨w', ?_, hpost⟩
  unfold carmorMemset
  rw [memWrapperSingle_tagged fuel c n carmorMemsetWrapper 1 false false htag h.ne_lstore3,
    h.isDirect]
  exact Lib.bind_eq_ok.mpr ⟨res, w', Lib.bind_eq_ok.mpr ⟨buffer, w₁, hfault, hrun⟩, rfl⟩

end Memset

/-! ## `__carmor_memcpy` from native memory -/

section Memcpy

variable {env : Env σ} {s : StoreId} {storage : σ → Memory} {p src buffer : Uintptr}
  (htag : switchCase p = some s) (hsrc : isCarmorPtr src = false)

include htag hsrc in
theorem chunkCall_direct {start k : Nat} (hk : k < 2 ^ 64) {vr0 vr1 : Uintptr} {w w' : World σ}
    (hrun : carmorWritebackGeneric env (cells p start) (toInt32 (env.stores s).lstoreGetMpageSize)
      ((w.log (.func w.store buffer vr0 (cells p start) vr1 (BitVec.ofNat 64 k))).withMem
        (copyBytes w.mem buffer vr0 k)) = .ok () w') :
    chunkCall env (directCopyOp env p src) buffer vr0 (cells p start) vr1 k w = .ok 0 w' := by
  have hlow := toNat_ofNat_of_lt hk
  have hcall : callFunc (directCopyOp env p src) buffer vr0 (cells p start) vr1 (BitVec.ofNat 64 k) w =
      .ok 0 ((w.log (.func w.store buffer vr0 (cells p start) vr1 (BitVec.ofNat 64 k))).withMem
        (copyBytes w.mem buffer vr0 k)) := by
    unfold callFunc directCopyOp
    rw [Lib.bind_of_ok (get_apply w), Lib.bind_of_ok (record_apply w _)]
    simp only [onMem_apply, carmorMemcpyWrapper, World.log_mem, hlow]
  have hparams := operandOf_tagged env htag 1
  have hsave : writebackChunk env (directCopyOp env p src) (cells p start) vr1 =
      carmorWritebackGeneric env (cells p start) (toInt32 (env.stores s).lstoreGetMpageSize) := by
    unfold writebackChunk directCopyOp writebackOperand
    simp only [hparams, operandOf_native hsrc, if_true]
    exact bind_pure _
  unfold chunkCall
  rw [Lib.bind_of_ok hcall, hsave, Lib.bind_of_ok hrun]
  rfl

variable (h : DirectStore env s storage) (hnull : buffer ≠ 0) {n : SizeT}
  (hrange : (makeOriginalPointer p).toNat + n.toNat ≤ 2 ^ 60)
  (hdisjoint : ∀ i < n.toNat, ∀ x < (env.stores s).lstoreGetMpageSize.toNat,
    cells buffer x ≠ cells src i)
include h htag hsrc

theorem minLeft_directCopyOp (vr0 : Uintptr) :
    (directCopyOp env p src).minLeft buffer vr0 = (env.stores s).directChunk buffer := by
  have hle := (env.stores s).directChunk_le buffer
  have hsize := h.pageSize_le
  exact BulkOp.minLeft_vr_native (operandOf_native hsrc env 0) (h.leftIn buffer htag 1) (by omega) vr0

omit hsrc htag h in
include hdisjoint in
/-- The source is not touched while the range is written. -/
theorem Holds.sourceByte {u : Uintptr} {mem : Memory} {t : Lib.BlockState Byte} {w : World σ}
    (hholds : Holds storage buffer u (env.stores s).lstoreGetMpageSize.toNat mem t w) {i : Nat}
    (hi : i < n.toNat) : w.mem (cells src i) = mem (cells src i) :=
  hholds.kept _ (hdisjoint i hi)

omit hsrc htag h in
include hdisjoint in
/-- A chunk of the source is put into the buffer. -/
theorem ChunksWritten.put {m : Machine σ} {u : Uintptr} {done k : Nat} {w : World σ}
    {d : Nat → Byte} (hw : ChunksWritten env s storage buffer u d n.toNat m done w)
    (hd : ∀ i < n.toNat, d i = m.mem (cells src i)) (hk : done + k ≤ n.toNat) (e : Event σ) :
    ChunkPut buffer d done k w ((w.log e).withMem (copyBytes w.mem buffer (cells src done) k)) := by
  have hlt := n.isLt
  obtain ⟨-, j, -, hholds⟩ := hw
  refine ⟨rfl, rfl, ?_, ?_⟩
  · intro x hx
    have hcopy : copyBytes w.mem buffer (cells src done) k (cells buffer x) =
        w.mem (cells src done + BitVec.ofNat 64 x) := copyBytes_add (by omega) hx
    rw [World.withMem_mem, hcopy, cells_add, hholds.sourceByte hdisjoint (by omega),
      hd _ (by omega)]
  · intro a ha
    exact copyBytes_of_ne ha

include hnull hrange hdisjoint

theorem copy_directInvariant (m : Machine σ) {d : Nat → Byte}
    (hd : ∀ i < n.toNat, d i = m.mem (cells src i)) :
    LoopInvariant env (directCopyOp env p src) n.toNat p src
      (fun done vl0 vr0 w => vl0 = buffer ∧ vr0 = cells src done ∧
        ChunksWritten env s storage buffer (makeOriginalPointer p) d n.toNat m done w)
      (fun _ w => RangeWritten env s storage buffer (makeOriginalPointer p) d n.toNat m w) where
  exit hinv := hinv.2.2.exit h
  chunk := by
    rintro done left vl0 vr0 w ⟨rfl, rfl, hw⟩ hleft hlt
    rw [minLeft_directCopyOp htag hsrc h] at hleft
    subst hleft
    obtain ⟨w₂, w₃, hsave, hfault, hw'⟩ := hw.next h htag hnull hrange hlt
      (hw.put hdisjoint hd (by omega) _) 1
    have hlinked := h.advanceLinked_eq vl0 htag 1
      (cells p (done + (env.stores s).directChunk vl0))
    have hnative := advanceLinked_native hsrc env 0
      ((operandOf env src 0).leftIn (cells src done)) ((env.stores s).directChunk vl0)
      (cells src done) (cells src (done + (env.stores s).directChunk vl0))
    refine ⟨0, w₂, chunkCall_direct htag hsrc (by omega) hsave, ?_⟩
    rw [if_neg (by simp)]
    refine ⟨vl0, _, w₃, chunkAdvance_of_ok ((congrFun hlinked w₂).trans hfault)
      (congrFun hnative w₃), rfl, cells_add _ _ _, hw'⟩
  last := by
    rintro done vl0 vr0 w ⟨rfl, rfl, hw⟩ hlt hle
    rw [minLeft_directCopyOp htag hsrc h] at hle
    obtain ⟨w₂, hsave, hw'⟩ := hw.last h htag hnull hrange hlt hle
      (hw.put hdisjoint hd (by omega) _)
    refine ⟨0, w₂, chunkCall_direct htag hsrc (by omega) hsave, ?_⟩
    rw [if_neg (by simp)]
    exact hw'

/-- `__carmor_memcpy` from native memory to a direct store is a block write. -/
theorem memcpy_direct (hn : n.toNat < 2 ^ 31) {fuel : Nat} (hfuel : n.toNat < fuel) {w : World σ}
    {m : Machine σ} (hbuffer : DirectBuffer env (env.stores s).lstoreGetMpageSize buffer w m)
    {d : Nat → Byte} (hd : ∀ i < n.toNat, d i = m.mem (cells src i)) :
    ∃ w', carmorMemcpy env fuel p src n w = .ok p w' ∧
      RangeWritten env s storage buffer (makeOriginalPointer p) d n.toNat m w' := by
  have hp := isCarmorPtr_of_switchCase htag
  obtain ⟨w₁, hfault, hw₁⟩ := exists_firstFault h htag hnull (d := d) (n := n.toNat) hbuffer 1
  obtain ⟨res, w', hrun, hpost⟩ :=
    (copy_directInvariant htag hsrc h hnull hrange hdisjoint m hd).returns_size
      ⟨h.sized htag 1, sized_native hsrc env 0⟩ hn buffer src w₁
      ⟨rfl, (cells_zero src).symm, hw₁⟩ hfuel
  have hdirect : lstoreTypeIsDirect env (if isCarmorPtr p then p else src) = pure true := by
    rw [if_pos hp, lstoreTypeIsDirect_eq htag, h.isDirect]
  have hlinkl := linkOperand_tagged env htag 1
  have hlinkr := linkOperand_native hsrc env 0
  refine ⟨w', ?_, hpost⟩
  unfold carmorMemcpy
  rw [memWrapper_eq fuel 1 0 n carmorMemcpyWrapper false (by simp [hp]) hdirect
    (by simp [hsrc]) (h.operandParameters_eq htag 1) (operandParameters_eq_native hsrc env 0)]
  exact Lib.bind_eq_ok.mpr ⟨res, w', Lib.bind_eq_ok.mpr ⟨buffer, w₁, (congrFun hlinkl w).trans hfault,
    Lib.bind_eq_ok.mpr ⟨src, w₁, congrFun hlinkr w₁, hrun⟩⟩, rfl⟩

end Memcpy

/-! ## The bytes past the range -/

/-- The last page written back leaves the storage past the `n` bytes from `u` on as it was: what
is left in the direct buffer behind the last chunk of `d` is what is stored there. -/
def SpillKept (env : Env σ) (s : StoreId) (storage : σ → Memory) (buffer u : Uintptr)
    (d : Nat → Byte) (n : Nat) (m : Machine σ) : Prop :=
  n = 0 ∨ ∀ i, n ≤ i →
    i < Lib.fullChunks ((env.stores s).directChunk buffer) n * (env.stores s).directChunk buffer +
      (env.stores s).lstoreGetMpageSize.toNat →
    Lib.leftover d (fun x => m.mem (cells buffer x)) ((env.stores s).directChunk buffer) n
        (i - Lib.fullChunks ((env.stores s).directChunk buffer) n *
          (env.stores s).directChunk buffer) =
      storage m.store (cells u i)

/-- A range of whole pages has no bytes past it in its last page. -/
theorem spillKept_of_dvd {env : Env σ} {s : StoreId} {storage : σ → Memory} {buffer u : Uintptr}
    {d : Nat → Byte} {n : Nat} {m : Machine σ} (hpos : 0 < (env.stores s).lstoreGetMpageSize.toNat)
    (hchunk : (env.stores s).directChunk buffer = (env.stores s).lstoreGetMpageSize.toNat)
    (hn : (env.stores s).lstoreGetMpageSize.toNat ∣ n) :
    SpillKept env s storage buffer u d n m := by
  obtain ⟨k, rfl⟩ := hn
  unfold SpillKept
  rw [hchunk]
  generalize (env.stores s).lstoreGetMpageSize.toNat = block at hpos
  rcases Nat.eq_zero_or_pos k with rfl | hk
  · left
    rfl
  · right
    intro i hi hlt
    have hlast : k - 1 = Lib.fullChunks block (block * k) := by
      have hmul : (k - 1) * block + block = block * k := by
        rw [← Nat.succ_mul, Nat.succ_eq_add_one, Nat.sub_add_cancel hk, Nat.mul_comm]
      exact Lib.eq_fullChunks (by omega) (by omega)
    rw [← hlast] at hlt
    have hmul : (k - 1) * block + block = block * k := by
      rw [← Nat.succ_mul, Nat.succ_eq_add_one, Nat.sub_add_cancel hk, Nat.mul_comm]
    omega

section Storage

variable {env : Env σ} {s : StoreId} {storage : σ → Memory} {buffer u : Uintptr} {d : Nat → Byte}
  {n : Nat} {m : Machine σ} {w : World σ}

/-- The storage after a block write is that of the plain write exactly if the bytes past the range
are kept. -/
theorem RangeWritten.storage_eq_iff (hw : RangeWritten env s storage buffer u d n m w)
    (h : DirectStore env s storage) (hn : n < 2 ^ 31) :
    (storage w.store = fun a => if (a - u).toNat < n then d (a - u).toNat else storage m.store a) ↔
      SpillKept env s storage buffer u d n m := by
  have hle := h.pageSize_le
  have hbound : n + (env.stores s).lstoreGetMpageSize.toNat ≤ 2 ^ 64 := by omega
  have hiff := Lib.writeRange_eq_iff (d := d) (s := directState storage buffer u m)
    (h.directChunk_pos buffer) ((env.stores s).directChunk_le buffer) hbound
  refine Iff.trans ?_ hiff
  constructor
  · intro heq i hi
    rw [← hw.storageBytes i hi, heq]
    simp only [toNat_cells_sub u hi]
    rfl
  · intro hcells
    funext a
    have hcell := hcells (a - u).toNat (a - u).isLt
    rw [← hw.storageBytes _ (a - u).isLt] at hcell
    simp only [Lib.overlay, directState, cells_toNat_sub] at hcell
    exact hcell

end Storage

/-- Bulk writes of `n` bytes to a direct store return, and they change the storage as the plain
operations do exactly if the bytes past the range are kept. -/
theorem directWrites_iff {env : Env σ} {s : StoreId} {storage : σ → Memory}
    (h : DirectStore env s storage) {p src buffer : Uintptr} (htag : switchCase p = some s)
    (hsrc : isCarmorPtr src = false) (c : Int) {n : SizeT} (hn : n.toNat < 2 ^ 31)
    (hrange : (makeOriginalPointer p).toNat + n.toNat ≤ 2 ^ 60) {fuel : Nat} (hfuel : n.toNat < fuel)
    (hnull : buffer ≠ 0) {w : World σ} {m : Machine σ}
    (hbuffer : DirectBuffer env (env.stores s).lstoreGetMpageSize buffer w m)
    (hstorage : storage m.store = storage w.store)
    (hkept : ∀ i < n.toNat, m.mem (cells src i) = w.mem (cells src i))
    (hdisjoint : ∀ i < n.toNat, ∀ x < (env.stores s).lstoreGetMpageSize.toNat,
      cells buffer x ≠ cells src i) :
    (∃ w', carmorMemset env fuel p c n w = .ok p w' ∧
      (storage w'.store =
          fillBytes (storage w.store) (makeOriginalPointer p) (BitVec.ofInt 8 c) n.toNat ↔
        SpillKept env s storage buffer (makeOriginalPointer p) (fun _ => BitVec.ofInt 8 c) n.toNat
          m)) ∧
    ∃ w', carmorMemcpy env fuel p src n w = .ok p w' ∧
      (storage w'.store =
          transfer (storage w.store) (makeOriginalPointer p) w.mem src n.toNat ↔
        SpillKept env s storage buffer (makeOriginalPointer p) (fun i => w.mem (cells src i)) n.toNat
          m) := by
  constructor
  · obtain ⟨w', hrun, hw'⟩ := memset_direct htag c h hnull hrange hn hfuel hbuffer
    refine ⟨w', hrun, ?_⟩
    rw [← hw'.storage_eq_iff h hn, hstorage]
    rfl
  · obtain ⟨w', hrun, hw'⟩ := memcpy_direct htag hsrc h hnull hrange hdisjoint hn hfuel hbuffer
      (d := fun i => w.mem (cells src i)) fun i hi => (hkept i hi).symm
    refine ⟨w', hrun, ?_⟩
    rw [← hw'.storage_eq_iff h hn, hstorage]
    simp only [cells_toNat]
    rfl

theorem directWrites_iff_directWorld :
    (∃ w', carmorMemset directEnv 0x1004 (makeMstorePtr .lstore0 0x1ff0) 0x5a 0x1003 directWorld =
        .ok (makeMstorePtr .lstore0 0x1ff0) w' ∧
      (w'.store = fillBytes directWorld.store (makeOriginalPointer (makeMstorePtr .lstore0 0x1ff0))
          (BitVec.ofInt 8 0x5a) 0x1003 ↔
        SpillKept directEnv .lstore0 id 0x200000 (makeOriginalPointer (makeMstorePtr .lstore0 0x1ff0))
          (fun _ => BitVec.ofInt 8 0x5a) 0x1003 directWorld.toMachine)) ∧
    ∃ w', carmorMemcpy directEnv 0x1004 (makeMstorePtr .lstore0 0x1ff0) 0x400000 0x1003 directWorld =
        .ok (makeMstorePtr .lstore0 0x1ff0) w' ∧
      (w'.store = transfer directWorld.store
          (makeOriginalPointer (makeMstorePtr .lstore0 0x1ff0)) directWorld.mem 0x400000 0x1003 ↔
        SpillKept directEnv .lstore0 id 0x200000 (makeOriginalPointer (makeMstorePtr .lstore0 0x1ff0))
          (fun i => directWorld.mem (cells 0x400000 i)) 0x1003 directWorld.toMachine) :=
  directWrites_iff (n := 0x1003) (directEnv_directStore (by decide)) (by decide) (by decide) 0x5a
    (by decide) (by decide) (by decide) (by decide) (.present rfl) rfl (fun _ _ => rfl)
    (directWorld_disjoint (by decide))

/-- `__carmor_memset` of one byte overwrites the byte behind it, by what the direct buffer held. -/
theorem not_directWrites_oneByte : ∃ w', carmorMemset directEnv 2 (makeMstorePtr .lstore0 0x1000)
      0x5a 1 directWorld = .ok (makeMstorePtr .lstore0 0x1000) w' ∧
    w'.store ≠ fillBytes directWorld.store 0x1000 (BitVec.ofInt 8 0x5a) 1 := by
  have hbyte : (Lib.finalState (carmorMemset directEnv 2 (makeMstorePtr .lstore0 0x1000) 0x5a 1
      directWorld)).store 0x1001 = 0 := by decide +kernel
  obtain ⟨w', hrun, -⟩ := memset_direct (p := makeMstorePtr .lstore0 0x1000) (n := 1) (by decide) 0x5a
    (directEnv_directStore (s := .lstore0) (by decide)) (by decide) (by decide) (by decide)
    (by decide : _ < 2) (.present (w := directWorld) rfl)
  rw [hrun, Lib.finalState_ok] at hbyte
  refine ⟨w', hrun, ?_⟩
  intro heq
  rw [heq] at hbyte
  exact absurd hbyte (by decide +kernel)

end Carmor
