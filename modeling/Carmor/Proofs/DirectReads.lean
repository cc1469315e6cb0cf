import Carmor.Proofs.DirectStore
import Carmor.Proofs.Memcmp

/-!
# Bulk reads from a direct store

The page faults of `__carmor_memcpy` and `__carmor_memcmp` ask the store for 0 bytes, so the direct
buffer is never filled: the operations read what an earlier access left in it, again for every
chunk.
-/

namespace Carmor

variable {σ : Type}

/-- The bytes that a bulk operation reads: the direct buffer's first `chunk` bytes, repeated. -/
def staleBytes (mem : Memory) (buffer : Uintptr) (chunk i : Nat) : Byte :=
  mem (cells buffer (i % chunk))

theorem staleBytes_add {mem : Memory} {buffer : Uintptr} {chunk done x : Nat} (hdone : chunk ∣ done)
    (hx : x < chunk) : staleBytes mem buffer chunk (done + x) = mem (cells buffer x) := by
  obtain ⟨j, rfl⟩ := hdone
  rw [staleBytes, Nat.mul_add_mod, Nat.mod_eq_of_lt hx]

/-! ## Operations that write nothing back -/

/-- The world sees the direct buffer, and it has the memory `mem` and the storage `stored`. -/
structure Reads (storage : σ → Memory) (buffer : Uintptr) (mem stored : Memory) (w : World σ) :
    Prop where
  gtDirectBuffer : w.gtDirectBuffer = buffer
  mem : w.mem = mem
  storage : storage w.store = stored

theorem writebackOperand_native {env : Env σ} {q : Uintptr} (hq : isCarmorPtr q = false)
    (dirty : Byte) (p : Uintptr) : writebackOperand env (operandOf env q dirty) p = pure () := by
  unfold writebackOperand
  rw [operandOf_native hq]

theorem writebackOperand_clean {env : Env σ} (q p : Uintptr) :
    writebackOperand env (operandOf env q 0) p = pure () := by
  unfold writebackOperand operandOf
  cases switchCase q <;> rfl

theorem chunkCall_clean {env : Env σ} {b : BulkOp} {vl1 vr1 : Uintptr}
    (hl : writebackOperand env b.vl vl1 = pure ()) (hr : writebackOperand env b.vr vr1 = pure ())
    (vl0 vr0 : Uintptr) (n : Nat) (w : World σ) : chunkCall env b vl0 vr0 vl1 vr1 n w =
      .ok (b.func vl0 vr0 (BitVec.ofNat 64 n) w.mem).1 (b.afterChunk vl0 vr0 vl1 vr1 n w) := by
  have hnone : writebackChunk env b vl1 vr1 = pure () := by
    unfold writebackChunk
    rw [hl, hr]
    cases b.isLstoreDirect <;> rfl
  unfold chunkCall
  rw [hnone]
  rfl

section Fault

variable {env : Env σ} {s : StoreId} {storage : σ → Memory} (h : DirectStore env s storage)
  {q buffer : Uintptr} (htag : switchCase q = some s) (hnull : buffer ≠ 0)
include h htag hnull

theorem exists_firstRead {w : World σ} {m : Machine σ}
    (hbuffer : DirectBuffer env (env.stores s).lstoreGetMpageSize buffer w m) (dirty : Byte) :
    ∃ w', carmorPageFault env q dirty w = .ok buffer w' ∧
      Reads storage buffer m.mem (storage m.store) w' := by
  obtain ⟨w', hrun, hbuffer', hmem, hstorage⟩ := pageFault_direct h htag hnull hbuffer dirty
  exact ⟨w', hrun, hbuffer', hmem, hstorage⟩

theorem Reads.pageFault {mem stored : Memory} {w : World σ}
    (hw : Reads storage buffer mem stored w) {i : Nat}
    (hi : (makeOriginalPointer q).toNat + i < 2 ^ 60) (dirty : Byte) :
    ∃ w', carmorPageFault env (cells q i) dirty w = .ok buffer w' ∧
      Reads storage buffer mem stored w' := by
  obtain ⟨w', hrun, hbuffer, hmem, hstorage⟩ :=
    pageFault_direct h (switchCase_cells htag hi) hnull (.present hw.gtDirectBuffer) dirty
  exact ⟨w', hrun, hbuffer, hmem.trans hw.mem, hstorage.trans hw.storage⟩

end Fault

/-! ## `__carmor_memcpy` to native memory -/

/-- The memory after the first `k` bytes have been read to `dest`. -/
def afterRead (mem : Memory) (dest buffer : Uintptr) (chunk k : Nat) : Memory := fun a =>
  if (a - dest).toNat < k then staleBytes mem buffer chunk (a - dest).toNat else mem a

section Memcpy

variable {env : Env σ} {s : StoreId} {storage : σ → Memory} {q dest buffer : Uintptr}
  {n : SizeT} {chunk : Nat}
  (hdisjoint : ∀ i < n.toNat, ∀ x < chunk, cells buffer x ≠ cells dest i)

include hdisjoint in
/-- A chunk that is copied from the buffer. -/
theorem copyBytes_afterRead (mem : Memory) {done k : Nat} (hdone : chunk ∣ done) (hk : k ≤ chunk)
    (hn : done + k ≤ n.toNat) :
    copyBytes (afterRead mem dest buffer chunk done) (cells dest done) buffer k =
      afterRead mem dest buffer chunk (done + k) := by
  have hlt := n.isLt
  -- the buffer is not overwritten
  have hstale : ∀ x < k, afterRead mem dest buffer chunk done (cells buffer x) =
      mem (cells buffer x) := by
    intro x hx
    unfold afterRead
    rw [if_neg]
    intro hin
    apply hdisjoint (cells buffer x - dest).toNat (by omega) x (by omega)
    rw [cells_toNat_sub]
  funext a
  obtain ⟨i, hi, rfl⟩ : ∃ i < 2 ^ 64, cells dest i = a :=
    ⟨(a - dest).toNat, (a - dest).isLt, cells_toNat_sub dest a⟩
  by_cases hin : done ≤ i ∧ i < done + k
  · obtain ⟨x, rfl⟩ := Nat.le.dest hin.1
    have hcopy : copyBytes (afterRead mem dest buffer chunk done) (cells dest done) buffer k
        (cells dest done + BitVec.ofNat 64 x) =
          afterRead mem dest buffer chunk done (buffer + BitVec.ofNat 64 x) :=
      copyBytes_add (by omega) (by omega)
    rw [← cells_add, hcopy, cells_add]
    change afterRead mem dest buffer chunk done (cells buffer x) = _
    rw [hstale x (by omega), afterRead, toNat_cells_sub dest hi, if_pos (by omega),
      staleBytes_add hdone (by omega)]
  · rw [copyBytes_of_ne]
    · simp only [afterRead, toNat_cells_sub dest hi]
      by_cases hbefore : i < done
      · rw [if_pos hbefore, if_pos (by omega)]
      · rw [if_neg hbefore, if_neg (by omega)]
    · intro x hx heq
      rw [cells_add] at heq
      have hix := cells_inj (by omega) hi heq
      omega

variable (h : DirectStore env s storage) (htag : switchCase q = some s)
  (hdest : isCarmorPtr dest = false) (hnull : buffer ≠ 0)
  (hrange : (makeOriginalPointer q).toNat + n.toNat ≤ 2 ^ 60)
  (hchunk : chunk = (env.stores s).directChunk buffer)
include h htag hdest hchunk

theorem minLeft_readOp (vl0 : Uintptr) :
    (directCopyOp env dest q).minLeft vl0 buffer = chunk := by
  have hle := (env.stores s).directChunk_le buffer
  have hsize := h.pageSize_le
  rw [hchunk]
  exact BulkOp.minLeft_vl_native (operandOf_native hdest env 1) (h.leftIn buffer htag 0) (by omega)
    vl0

omit h htag hchunk in
variable (env q) in
/-- A chunk is copied and nothing is written back. -/
theorem chunkCall_read {mem stored : Memory} {done k : Nat} {w : World σ}
    (hdisjoint : ∀ i < n.toNat, ∀ x < chunk, cells buffer x ≠ cells dest i)
    (hw : Reads storage buffer (afterRead mem dest buffer chunk done) stored w)
    (hdone : chunk ∣ done) (hk : k ≤ chunk) (hn : done + k ≤ n.toNat) (vl1 vr1 : Uintptr) :
    ∃ w', chunkCall env (directCopyOp env dest q) (cells dest done) buffer vl1 vr1 k w = .ok 0 w' ∧
      Reads storage buffer (afterRead mem dest buffer chunk (done + k)) stored w' := by
  have hlt := n.isLt
  refine ⟨_, chunkCall_clean (writebackOperand_native hdest 1 vl1) (writebackOperand_clean q vr1)
    (cells dest done) buffer k w, hw.gtDirectBuffer, ?_, hw.storage⟩
  have hfunc : (BulkOp.afterChunk (directCopyOp env dest q) (cells dest done) buffer vl1 vr1 k w).mem =
      copyBytes w.mem (cells dest done) buffer (BitVec.ofNat 64 k).toNat := rfl
  rw [hfunc, toNat_ofNat_of_lt (by omega), hw.mem, copyBytes_afterRead hdisjoint mem hdone hk hn]

include hnull hrange hdisjoint

theorem read_loopInvariant (mem stored : Memory) :
    LoopInvariant env (directCopyOp env dest q) n.toNat dest q
      (fun done vl0 vr0 w => vl0 = cells dest done ∧ vr0 = buffer ∧ (done < n.toNat → chunk ∣ done) ∧
        Reads storage buffer (afterRead mem dest buffer chunk done) stored w)
      (fun _ w => Reads storage buffer (afterRead mem dest buffer chunk n.toNat) stored w) where
  exit hinv := hinv.2.2.2
  chunk := by
    rintro done left vl0 vr0 w ⟨rfl, rfl, hdvd, hw⟩ hleft hlt
    rw [minLeft_readOp h htag hdest hchunk] at hleft
    subst hleft
    have hdone := hdvd (by omega)
    obtain ⟨w₁, hcall, hw₁⟩ := chunkCall_read env q hdest hdisjoint hw hdone (Nat.le_refl _)
      (by omega) (dest + BitVec.ofNat 64 done) (q + BitVec.ofNat 64 done)
    obtain ⟨w₂, hfault, hw₂⟩ := hw₁.pageFault h htag hnull
      (show (makeOriginalPointer q).toNat + (done + chunk) < 2 ^ 60 by omega) 0
    have hlinked := h.advanceLinked_eq vr0 htag 0 (cells q (done + chunk))
    rw [← hchunk] at hlinked
    have hnative := advanceLinked_native hdest env 1
      ((operandOf env dest 1).leftIn (cells dest done)) chunk (cells dest done)
      (cells dest (done + chunk))
    refine ⟨0, w₁, hcall, ?_⟩
    rw [if_neg (by simp)]
    exact ⟨_, vr0, w₂, chunkAdvance_of_ok (congrFun hnative w₁) ((congrFun hlinked w₁).trans hfault),
      cells_add _ _ _, rfl, fun _ => Nat.dvd_add hdone (Nat.dvd_refl chunk), hw₂⟩
  last := by
    rintro done vl0 vr0 w ⟨rfl, rfl, hdvd, hw⟩ hlt hle
    rw [minLeft_readOp h htag hdest hchunk] at hle
    have hle' : n.toNat - done ≤ chunk := by omega
    obtain ⟨w₁, hcall, hw₁⟩ := chunkCall_read env q hdest hdisjoint hw (hdvd hlt) hle' (by omega)
      (dest + BitVec.ofNat 64 done) (q + BitVec.ofNat 64 done)
    refine ⟨0, w₁, hcall, ?_⟩
    rw [if_neg (by simp), ← Nat.add_sub_cancel' (Nat.le_of_lt hlt)]
    exact hw₁

/-- `__carmor_memcpy` from a direct store to native memory copies stale bytes. -/
theorem memcpy_stale (hn : n.toNat < 2 ^ 31) {fuel : Nat} (hfuel : n.toNat < fuel) {w : World σ}
    {m : Machine σ} (hbuffer : DirectBuffer env (env.stores s).lstoreGetMpageSize buffer w m) :
    ∃ w', carmorMemcpy env fuel dest q n w = .ok dest w' ∧
      w'.mem = afterRead m.mem dest buffer chunk n.toNat ∧ storage w'.store = storage m.store := by
  have hq := isCarmorPtr_of_switchCase htag
  obtain ⟨w₁, hfault, hw₁⟩ := exists_firstRead h htag hnull hbuffer 0
  have hstart : Reads storage buffer (afterRead m.mem dest buffer chunk 0) (storage m.store) w₁ := by
    have hnone : afterRead m.mem dest buffer chunk 0 = m.mem := by
      funext a
      simp [afterRead]
    rwa [hnone]
  obtain ⟨res, w', hrun, hpost⟩ :=
    (read_loopInvariant hdisjoint h htag hdest hnull hrange hchunk m.mem (storage m.store)).returns_size
      ⟨sized_native hdest env 1, h.sized htag 0⟩ hn dest buffer w₁
      ⟨(cells_zero dest).symm, rfl, fun _ => Nat.dvd_zero chunk, hstart⟩ hfuel
  have hdirect : lstoreTypeIsDirect env (if isCarmorPtr dest then dest else q) = pure true := by
    rw [if_neg (by simp [hdest]), lstoreTypeIsDirect_eq htag, h.isDirect]
  have hlinkl := linkOperand_native hdest env 1
  have hlinkr := linkOperand_tagged env htag 0
  refine ⟨w', ?_, hpost.mem, hpost.storage⟩
  unfold carmorMemcpy
  rw [memWrapper_eq fuel 1 0 n carmorMemcpyWrapper false (by simp [hq]) hdirect (by simp [hdest])
    (operandParameters_eq_native hdest env 1) (h.operandParameters_eq htag 0)]
  exact Lib.bind_eq_ok.mpr ⟨res, w', Lib.bind_eq_ok.mpr ⟨dest, w, congrFun hlinkl w,
    Lib.bind_eq_ok.mpr ⟨buffer, w₁, (congrFun hlinkr w).trans hfault, hrun⟩⟩, rfl⟩

end Memcpy

/-! ## `__carmor_memcmp` with native memory -/

/-- The operands and the function of a comparison of a direct store with native memory. -/
def directCompareOp (env : Env σ) (vl vr : Uintptr) : BulkOp :=
  ⟨operandOf env vl 0, operandOf env vr 0, true, carmorMemcmpWrapper, true⟩

section Memcmp

variable {env : Env σ} {s : StoreId} {storage : σ → Memory} {q r buffer : Uintptr} {n : SizeT}
  {chunk : Nat} (h : DirectStore env s storage) (htag : switchCase q = some s)
  (hr : isCarmorPtr r = false) (hnull : buffer ≠ 0)
  (hrange : (makeOriginalPointer q).toNat + n.toNat ≤ 2 ^ 60)
  (hchunk : chunk = (env.stores s).directChunk buffer)

/-- The comparison of the stale bytes with the native range. -/
def staleDifference (mem : Memory) (buffer r : Uintptr) (chunk n : Nat) : Int :=
  byteDifference (staleBytes mem buffer chunk) (fun i => mem (cells r i)) n

/-- Where the bytes before `done` are equal, a chunk decides as the whole range up to its end. -/
theorem compareBytes_chunk {mem : Memory} {done k : Nat} (hdone : chunk ∣ done) (hk : k ≤ chunk)
    (heq : staleDifference mem buffer r chunk done = 0) :
    compareBytes mem buffer (cells r done) k = staleDifference mem buffer r chunk (done + k) := by
  have hall := (byteDifference_eq_zero done).mp heq
  rw [compareBytes_eq, staleDifference, byteDifference_of_eq hall]
  apply byteDifference_congr
  · intro x hx
    exact (staleBytes_add hdone (by omega)).symm
  · intro x hx
    exact congrArg mem (cells_add r done x)

variable (env q) in
theorem chunkCall_compare {mem stored : Memory} {done k : Nat} {w : World σ}
    (hw : Reads storage buffer mem stored w) (hdone : chunk ∣ done) (hk : k ≤ chunk)
    (hlt : k < 2 ^ 64) (heq : staleDifference mem buffer r chunk done = 0) (vl1 vr1 : Uintptr) :
    ∃ w', chunkCall env (directCompareOp env q r) buffer (cells r done) vl1 vr1 k w =
        .ok (staleDifference mem buffer r chunk (done + k)) w' ∧
      Reads storage buffer mem stored w' := by
  have hres : compareBytes w.mem buffer (cells r done) (BitVec.ofNat 64 k).toNat =
      staleDifference mem buffer r chunk (done + k) := by
    rw [toNat_ofNat_of_lt hlt, hw.mem, compareBytes_chunk hdone hk heq]
  refine ⟨(directCompareOp env q r).afterChunk buffer (cells r done) vl1 vr1 k w, ?_,
    hw.gtDirectBuffer, hw.mem, hw.storage⟩
  rw [← hres]
  exact chunkCall_clean (b := directCompareOp env q r) (writebackOperand_clean q vl1)
    (writebackOperand_clean r vr1) buffer (cells r done) k w

include h htag hr hchunk

theorem minLeft_compareOp (vr0 : Uintptr) :
    (directCompareOp env q r).minLeft buffer vr0 = chunk := by
  have hle := (env.stores s).directChunk_le buffer
  have hsize := h.pageSize_le
  rw [hchunk]
  exact BulkOp.minLeft_vr_native (operandOf_native hr env 0) (h.leftIn buffer htag 0) (by omega) vr0

include hnull hrange

theorem compare_loopInvariant (mem stored : Memory) :
    LoopInvariant env (directCompareOp env q r) n.toNat q r
      (fun done vl0 vr0 w => vl0 = buffer ∧ vr0 = cells r done ∧ (done < n.toNat → chunk ∣ done) ∧
        staleDifference mem buffer r chunk done = 0 ∧ Reads storage buffer mem stored w)
      (fun res w => res = staleDifference mem buffer r chunk n.toNat ∧
        Reads storage buffer mem stored w) where
  exit hinv := ⟨hinv.2.2.2.1.symm, hinv.2.2.2.2⟩
  chunk := by
    rintro done left vl0 vr0 w ⟨rfl, rfl, hdvd, heq, hw⟩ hleft hlt
    rw [minLeft_compareOp h htag hr hchunk] at hleft
    subst hleft
    have hdone := hdvd (by omega)
    obtain ⟨w₁, hcall, hw₁⟩ := chunkCall_compare env q hw hdone (Nat.le_refl _) (by omega) heq
      (q + BitVec.ofNat 64 done) (r + BitVec.ofNat 64 done)
    refine ⟨_, w₁, hcall, ?_⟩
    by_cases hdiff : staleDifference mem vl0 r chunk (done + chunk) = 0
    · rw [if_neg (by simp [hdiff])]
      obtain ⟨w₂, hfault, hw₂⟩ := hw₁.pageFault h htag hnull
        (show (makeOriginalPointer q).toNat + (done + chunk) < 2 ^ 60 by omega) 0
      have hlinked := h.advanceLinked_eq vl0 htag 0 (cells q (done + chunk))
      rw [← hchunk] at hlinked
      have hnative := advanceLinked_native hr env 0 ((operandOf env r 0).leftIn (cells r done)) chunk
        (cells r done) (cells r (done + chunk))
      exact ⟨vl0, _, w₂, chunkAdvance_of_ok ((congrFun hlinked w₁).trans hfault)
        (congrFun hnative w₂), rfl, cells_add _ _ _,
        fun _ => Nat.dvd_add hdone (Nat.dvd_refl chunk), hdiff, hw₂⟩
    · -- the wrapper returns at the first chunk that differs
      rw [if_pos ⟨rfl, hdiff⟩]
      obtain ⟨k, hk⟩ := Nat.le.dest (Nat.le_of_lt hlt)
      refine ⟨?_, hw₁⟩
      rw [← hk]
      exact (byteDifference_of_ne hdiff k).symm
  last := by
    rintro done vl0 vr0 w ⟨rfl, rfl, hdvd, heq, hw⟩ hlt hle
    rw [minLeft_compareOp h htag hr hchunk] at hle
    have hle' : n.toNat - done ≤ chunk := by omega
    obtain ⟨w₁, hcall, hw₁⟩ := chunkCall_compare env q hw (hdvd hlt) hle' (by omega) heq
      (q + BitVec.ofNat 64 done) (r + BitVec.ofNat 64 done)
    rw [Nat.add_sub_cancel' (Nat.le_of_lt hlt)] at hcall
    refine ⟨_, w₁, hcall, ?_⟩
    by_cases hdiff : staleDifference mem vl0 r chunk n.toNat = 0
    · rw [if_neg (by simp [hdiff])]
      exact ⟨hdiff.symm, hw₁⟩
    · rw [if_pos ⟨rfl, hdiff⟩]
      exact ⟨rfl, hw₁⟩

/-- `__carmor_memcmp` of a direct store with native memory compares stale bytes. -/
theorem memcmp_stale (hn : n.toNat < 2 ^ 31) {fuel : Nat} (hfuel : n.toNat < fuel) {w : World σ}
    {m : Machine σ} (hbuffer : DirectBuffer env (env.stores s).lstoreGetMpageSize buffer w m) :
    ∃ w', carmorMemcmp env fuel q r n w = .ok (staleDifference m.mem buffer r chunk n.toNat) w' := by
  have hq := isCarmorPtr_of_switchCase htag
  obtain ⟨w₁, hfault, hw₁⟩ := exists_firstRead h htag hnull hbuffer 0
  obtain ⟨res, w', hrun, hres, -⟩ :=
    (compare_loopInvariant h htag hr hnull hrange hchunk m.mem (storage m.store)).returns_size
      ⟨h.sized htag 0, sized_native hr env 0⟩ hn buffer r w₁
      ⟨rfl, (cells_zero r).symm, fun _ => Nat.dvd_zero chunk, rfl, hw₁⟩ hfuel
  subst hres
  have hdirect : lstoreTypeIsDirect env (if isCarmorPtr q then q else r) = pure true := by
    rw [if_pos hq, lstoreTypeIsDirect_eq htag, h.isDirect]
  have hlinkl := linkOperand_tagged env htag 0
  have hlinkr := linkOperand_native hr env 0
  refine ⟨w', ?_⟩
  unfold carmorMemcmp
  rw [memWrapper_eq fuel 0 0 n carmorMemcmpWrapper true (by simp [hq]) hdirect (by simp [hr])
    (h.operandParameters_eq htag 0) (operandParameters_eq_native hr env 0)]
  exact Lib.bind_eq_ok.mpr ⟨buffer, w₁, (congrFun hlinkl w).trans hfault,
    Lib.bind_eq_ok.mpr ⟨r, w₁, congrFun hlinkr w₁, hrun⟩⟩

end Memcmp

/-! ## What bulk reads see -/

/-- The direct buffer already holds the `n` bytes of storage from `u` on, chunk by chunk. -/
def BufferHolds (env : Env σ) (s : StoreId) (storage : σ → Memory) (buffer u : Uintptr) (n : Nat)
    (m : Machine σ) : Prop :=
  ∀ i < n, staleBytes m.mem buffer ((env.stores s).directChunk buffer) i =
    storage m.store (cells u i)

/-- The direct buffer already compares with the `n` bytes at `r` as the storage from `u` on
does. -/
def BufferCompares (env : Env σ) (s : StoreId) (storage : σ → Memory) (buffer u r : Uintptr)
    (n : Nat) (m : Machine σ) : Prop :=
  (staleDifference m.mem buffer r ((env.stores s).directChunk buffer) n).sign =
    (byteDifference (fun i => storage m.store (cells u i)) (fun i => m.mem (cells r i)) n).sign

/-- A buffer that holds the bytes compares as they do. -/
theorem BufferHolds.compares {env : Env σ} {s : StoreId} {storage : σ → Memory}
    {buffer u r : Uintptr} {n : Nat} {m : Machine σ}
    (h : BufferHolds env s storage buffer u n m) : BufferCompares env s storage buffer u r n m := by
  unfold BufferCompares staleDifference
  rw [byteDifference_congr h fun _ _ => rfl]

/-- Bulk reads of `n` bytes from a direct store return, and they see the stored bytes exactly if
the direct buffer holds them, or compares as they do, before the call. -/
theorem directReads_iff {env : Env σ} {s : StoreId} {storage : σ → Memory}
    (h : DirectStore env s storage) {q dest r buffer : Uintptr} (htag : switchCase q = some s)
    (hdest : isCarmorPtr dest = false) (hr : isCarmorPtr r = false) {n : SizeT}
    (hn : n.toNat < 2 ^ 31) (hrange : (makeOriginalPointer q).toNat + n.toNat ≤ 2 ^ 60) {fuel : Nat}
    (hfuel : n.toNat < fuel) (hnull : buffer ≠ 0) {w : World σ} {m : Machine σ}
    (hbuffer : DirectBuffer env (env.stores s).lstoreGetMpageSize buffer w m)
    (hstorage : storage m.store = storage w.store)
    (hkept : ∀ i < n.toNat, m.mem (cells r i) = w.mem (cells r i))
    (hdisjoint : ∀ i < n.toNat, ∀ x < (env.stores s).lstoreGetMpageSize.toNat,
      cells buffer x ≠ cells dest i) :
    (∃ w', carmorMemcpy env fuel dest q n w = .ok dest w' ∧
      ((∀ i < n.toNat, w'.mem (cells dest i) =
          storage w.store (cells (makeOriginalPointer q) i)) ↔
        BufferHolds env s storage buffer (makeOriginalPointer q) n.toNat m)) ∧
    ∃ res w', carmorMemcmp env fuel q r n w = .ok res w' ∧
      (res.sign = (byteDifference (fun i => storage w.store (cells (makeOriginalPointer q) i))
          (fun i => w.mem (cells r i)) n.toNat).sign ↔
        BufferCompares env s storage buffer (makeOriginalPointer q) r n.toNat m) := by
  constructor
  · have hchunk := (env.stores s).directChunk_le buffer
    obtain ⟨w', hrun, hmem, -⟩ := memcpy_stale
      (fun i hi x hx => hdisjoint i hi x (Nat.lt_of_lt_of_le hx hchunk)) h htag hdest hnull hrange rfl
      hn hfuel hbuffer
    have hread : ∀ i < n.toNat, w'.mem (cells dest i) =
        staleBytes m.mem buffer ((env.stores s).directChunk buffer) i := by
      intro i hi
      rw [hmem, afterRead, toNat_cells_sub dest (by omega), if_pos hi]
    refine ⟨w', hrun, ?_⟩
    unfold BufferHolds
    rw [hstorage]
    constructor
    · intro hbytes i hi
      rw [← hread i hi, hbytes i hi]
    · intro hbytes i hi
      rw [hread i hi, hbytes i hi]
  · obtain ⟨w', hrun⟩ := memcmp_stale h htag hr hnull hrange rfl hn hfuel hbuffer
    refine ⟨_, w', hrun, ?_⟩
    have hrange : byteDifference (fun i => storage w.store (cells (makeOriginalPointer q) i))
        (fun i => w.mem (cells r i)) n.toNat =
      byteDifference (fun i => storage m.store (cells (makeOriginalPointer q) i))
        (fun i => m.mem (cells r i)) n.toNat :=
      byteDifference_congr (fun _ _ => by rw [hstorage]) fun i hi => (hkept i hi).symm
    rw [hrange]
    rfl

theorem directReads_iff_directWorld :
    (∃ w', carmorMemcpy directEnv 0x1004 0x400000 (makeMstorePtr .lstore0 0x1ff0) 0x1003 directWorld =
        .ok 0x400000 w' ∧
      ((∀ i < 0x1003, w'.mem (cells 0x400000 i) =
          directWorld.store (cells (makeOriginalPointer (makeMstorePtr .lstore0 0x1ff0)) i)) ↔
        BufferHolds directEnv .lstore0 id 0x200000
          (makeOriginalPointer (makeMstorePtr .lstore0 0x1ff0)) 0x1003 directWorld.toMachine)) ∧
    ∃ res w', carmorMemcmp directEnv 0x1004 (makeMstorePtr .lstore0 0x1ff0) 0x500000 0x1003
        directWorld = .ok res w' ∧
      (res.sign = (byteDifference
          (fun i => directWorld.store (cells (makeOriginalPointer (makeMstorePtr .lstore0 0x1ff0)) i))
          (fun i => directWorld.mem (cells 0x500000 i)) 0x1003).sign ↔
        BufferCompares directEnv .lstore0 id 0x200000
          (makeOriginalPointer (makeMstorePtr .lstore0 0x1ff0)) 0x500000 0x1003
          directWorld.toMachine) :=
  directReads_iff (n := 0x1003) (directEnv_directStore (by decide)) (by decide) (by decide)
    (by decide) (by decide) (by decide) (by decide) (by decide) (.present rfl) rfl (fun _ _ => rfl)
    (directWorld_disjoint (by decide))

/-- `__carmor_memcpy` of one byte from a direct store does not copy it, and `__carmor_memcmp` finds
it equal to a different one. -/
theorem not_directReads_oneByte :
    (∃ w', carmorMemcpy directEnv 2 0x400000 (makeMstorePtr .lstore0 0x1000) 1 directWorld =
        .ok 0x400000 w' ∧ w'.mem 0x400000 ≠ directWorld.store 0x1000) ∧
    ∃ w', carmorMemcmp directEnv 2 (makeMstorePtr .lstore0 0x1000) 0x400000 1 directWorld =
        .ok 0 w' ∧ directWorld.store 0x1000 ≠ directWorld.mem 0x400000 := by
  have hs : StoreId.lstore0 ≠ .lstore3 := by decide
  have hbuffer : DirectBuffer directEnv (directEnv.stores .lstore0).lstoreGetMpageSize 0x200000
    directWorld directWorld.toMachine := .present rfl
  constructor
  · obtain ⟨w', hrun, hmem, -⟩ := memcpy_stale (n := 1) (q := makeMstorePtr .lstore0 0x1000)
      (directWorld_disjoint (by decide)) (directEnv_directStore hs) (by decide) (by decide)
      (by decide) (by decide) rfl (by decide) (by decide : _ < 2) hbuffer
    refine ⟨w', hrun, ?_⟩
    rw [hmem]
    decide
  · obtain ⟨w', hrun⟩ := memcmp_stale (n := 1) (q := makeMstorePtr .lstore0 0x1000) (r := 0x400000)
      (directEnv_directStore hs) (by decide) (by decide) (by decide) (by decide) rfl (by decide)
      (by decide : _ < 2) hbuffer
    exact ⟨w', hrun, by decide⟩

end Carmor
