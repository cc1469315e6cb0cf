import Carmor.Proofs.BulkCopy

/-!
# Direct stores under the bulk operations

A direct store has no page cache: an access goes through the thread's direct buffer, which
`mpf_handler_d` fills and `lstore_write_back` saves. `DirectStore` is what is assumed of the two,
over the storage bytes of the store. The bulk operations reach the buffer by page faults, which ask
for 0 bytes.
-/

namespace Carmor

variable {σ : Type}

/-- A store of the first three positions that is direct, whose callbacks move bytes between memory
and its storage. -/
structure DirectStore (env : Env σ) (s : StoreId) (storage : σ → Memory) : Prop where
  ne_lstore3 : s ≠ .lstore3
  isDirect : (env.stores s).lstoreIsDirect = true
  pageSize_pos : 0 < (env.stores s).lstoreGetMpageSize.toNat
  pageSize_le : (env.stores s).lstoreGetMpageSize.toNat ≤ 2 ^ 30
  link : (env.stores s).carmorLink = carmorLinkDirectTemplate env s
  writeback : (env.stores s).carmorWritebackDirect = carmorWritebackDirectTemplate env s
  mpfHandlerD : ∀ (m : Machine σ) u dst k, ∃ m', (env.stores s).mpfHandlerD u dst k m = .ok () m' ∧
    m'.mem = transfer m.mem dst (storage m.store) u k.toNat ∧ storage m'.store = storage m.store
  lstoreWriteBack : ∀ (m : Machine σ) u src k, ∃ m',
    (env.stores s).lstoreWriteBack u src k m = .ok () m' ∧ m'.mem = m.mem ∧
    storage m'.store = transfer (storage m.store) u m.mem src k.toNat

/-- The thread's direct buffer is at `buffer`, or a first access allocates it there. Once it is
there the machine is `m`. -/
inductive DirectBuffer (env : Env σ) (mpageSize : SizeT) (buffer : Uintptr) (w : World σ) :
    Machine σ → Prop
  | present : w.gtDirectBuffer = buffer → DirectBuffer env mpageSize buffer w w.toMachine
  | allocated {m : Machine σ} : w.gtDirectBuffer = 0 →
      env.libc.memalign mpageSize mpageSize w.toMachine = .ok buffer m →
      DirectBuffer env mpageSize buffer w m

/-- The chunks in which the bulk operations walk over a range of a direct store: the bytes from the
start of the direct buffer to what would be the end of its page in a cache. -/
def LStore.directChunk (st : LStore σ) (buffer : Uintptr) : Nat :=
  st.lstoreGetMpageSize.toNat -
    ((buffer - st.lstoreGetMpageCacheBasePtr).toNat &&& (st.lstoreGetMpageSize.toNat - 1))

/-! ## Page faults and write-backs -/

/-- The world after `gt_DirectBuffer` has been assigned. -/
def World.withDirectBuffer (w : World σ) (buffer : Uintptr) : World σ :=
  { w with gtDirectBuffer := buffer }

theorem getLstoreDirectBuffer_eq {env : Env σ} {mpageSize : SizeT} {buffer : Uintptr} {w : World σ}
    {m : Machine σ} (hbuffer : DirectBuffer env mpageSize buffer w m) (hnull : buffer ≠ 0) :
    carmorGetLstoreDirectBuffer env mpageSize w =
      .ok buffer ((w.withMachine m).withDirectBuffer buffer) := by
  unfold carmorGetLstoreDirectBuffer
  rw [Lib.bind_of_ok (get_apply w)]
  cases hbuffer with
  | present h =>
    subst h
    rw [if_neg (by simpa using hnull)]
    rfl
  | allocated hnone halloc =>
    rw [if_pos (by simp [hnone])]
    have hassert : (buffer != 0) = true := by simpa using hnull
    rw [Lib.bind_of_ok (callStore_of_ok halloc)]
    simp only [hassert]
    rfl

section Unallocated

variable {env : Env σ} {mpageSize : SizeT} {w : World σ} (hnone : w.gtDirectBuffer = 0)
  {m : Machine σ}
include hnone

theorem getLstoreDirectBuffer_of_error {e : Stop}
    (halloc : env.libc.memalign mpageSize mpageSize w.toMachine = .error e m) :
    carmorGetLstoreDirectBuffer env mpageSize w = .error e (w.withMachine m) := by
  unfold carmorGetLstoreDirectBuffer
  rw [Lib.bind_of_ok (get_apply w), if_pos (by simp [hnone])]
  exact Lib.bind_of_error (by rw [callStore, halloc]) _

/-- Without memory the `ASSERT` fails. -/
theorem getLstoreDirectBuffer_of_null
    (halloc : env.libc.memalign mpageSize mpageSize w.toMachine = .ok 0 m) :
    carmorGetLstoreDirectBuffer env mpageSize w =
      .error .assertFailed ((w.withMachine m).withDirectBuffer 0) := by
  unfold carmorGetLstoreDirectBuffer
  rw [Lib.bind_of_ok (get_apply w), if_pos (by simp [hnone]),
    Lib.bind_of_ok (callStore_of_ok halloc)]
  rfl

end Unallocated

theorem DirectBuffer.log {env : Env σ} {mpageSize : SizeT} {buffer : Uintptr} {w : World σ}
    {m : Machine σ} (h : DirectBuffer env mpageSize buffer w m) (e : Event σ) :
    DirectBuffer env mpageSize buffer (w.log e) m := by
  cases h with
  | present h => exact .present (w := w.log e) h
  | allocated hnone halloc => exact .allocated hnone halloc

section Store

variable {env : Env σ} {s : StoreId} {storage : σ → Memory} (h : DirectStore env s storage)
  {p buffer : Uintptr} (htag : switchCase p = some s) (hnull : buffer ≠ 0) {w : World σ}
include h htag hnull

/-- A page fault returns the direct buffer and leaves it and the storage as they are. -/
theorem pageFault_direct {m : Machine σ}
    (hbuffer : DirectBuffer env (env.stores s).lstoreGetMpageSize buffer w m) (dirty : Byte) :
    ∃ w', carmorPageFault env p dirty w = .ok buffer w' ∧ w'.gtDirectBuffer = buffer ∧
      w'.mem = m.mem ∧ storage w'.store = storage m.store := by
  obtain ⟨m', hhandler, hmem, hstorage⟩ := h.mpfHandlerD m (makeOriginalPointer p) buffer 0
  have hget := getLstoreDirectBuffer_eq (hbuffer.log (.pageFault p dirty)) hnull
  refine ⟨((((w.log (.pageFault p dirty)).withMachine m).withDirectBuffer buffer).log
    (.mpfHandlerD s (makeOriginalPointer p) buffer 0)).withMachine m', ?_, rfl, ?_, hstorage⟩
  · unfold carmorPageFault
    rw [Lib.bind_of_ok (record_apply w _), htag]
    simp only [h.link]
    unfold carmorLinkDirectTemplate
    rw [if_neg (by simp [isCarmorPtr_of_switchCase htag]), directMpageSize_eq htag,
      if_neg h.ne_lstore3]
    simp only [pure_bind]
    have hassert : decide (BitVec.ofInt 64 0 ≤ (env.stores s).lstoreGetMpageSize) = true := by
      rw [decide_eq_true_iff, BitVec.le_def]
      exact Nat.zero_le _
    rw [hassert, Lib.bind_of_ok (cAssert_true _), Lib.bind_of_ok hget]
    rw [Lib.bind_of_ok (record_apply _ _)]
    exact Lib.bind_of_ok (callStore_of_ok hhandler) _
  · rw [World.withMachine_mem, hmem]
    exact transfer_zero _ _ _ _

/-- A write-back of a block saves the direct buffer. -/
theorem writebackGeneric_direct (hbuffer : w.gtDirectBuffer = buffer) :
    ∃ w', carmorWritebackGeneric env p (toInt32 (env.stores s).lstoreGetMpageSize) w = .ok () w' ∧
      w'.gtDirectBuffer = buffer ∧ w'.mem = w.mem ∧
      storage w'.store = transfer (storage w.store) (makeOriginalPointer p) w.mem buffer
        (env.stores s).lstoreGetMpageSize.toNat := by
  have hle := h.pageSize_le
  obtain ⟨m', hsave, hmem, hstorage⟩ := h.lstoreWriteBack w.toMachine (makeOriginalPointer p) buffer
    (env.stores s).lstoreGetMpageSize
  have hpresent : DirectBuffer env (env.stores s).lstoreGetMpageSize buffer w w.toMachine :=
    .present hbuffer
  have hget := getLstoreDirectBuffer_eq hpresent hnull
  have hsize : BitVec.ofInt 64 (toInt32 (env.stores s).lstoreGetMpageSize) =
      (env.stores s).lstoreGetMpageSize := by
    apply BitVec.eq_of_toNat_eq
    rw [toInt32_of_lt (by omega), toNat_ofInt_natCast (by omega)]
  refine ⟨((w.withDirectBuffer buffer).log (.lstoreWriteBack s (makeOriginalPointer p) buffer
    (env.stores s).lstoreGetMpageSize)).withMachine m', ?_, rfl, hmem, hstorage⟩
  unfold carmorWritebackGeneric
  rw [if_neg (by simp [isCarmorPtr_of_switchCase htag]), htag]
  simp only [h.writeback]
  unfold carmorWritebackDirectTemplate
  rw [if_neg (by simp [isCarmorPtr_of_switchCase htag]), directMpageSize_eq htag,
    if_neg h.ne_lstore3]
  simp only [pure_bind, hsize]
  rw [Lib.bind_of_ok hget, Lib.bind_of_ok (record_apply _ _)]
  exact callStore_of_ok hsave

end Store

/-! ## Operands -/

section Operand

variable {env : Env σ} {s : StoreId} {storage : σ → Memory} (h : DirectStore env s storage)
  (buffer : Uintptr)
include h

theorem DirectStore.intSize : IntSize (env.stores s).lstoreGetMpageSize := by
  have hpos := h.pageSize_pos
  have hle := h.pageSize_le
  constructor <;> omega

theorem DirectStore.directChunk_pos : 0 < (env.stores s).directChunk buffer := by
  have hpos := h.pageSize_pos
  have hle : (buffer - (env.stores s).lstoreGetMpageCacheBasePtr).toNat &&&
    ((env.stores s).lstoreGetMpageSize.toNat - 1) ≤ _ := Nat.and_le_right
  unfold LStore.directChunk
  omega

omit h in
theorem LStore.directChunk_le (st : LStore σ) :
    st.directChunk buffer ≤ st.lstoreGetMpageSize.toNat := Nat.sub_le _ _

variable {p : Uintptr} (htag : switchCase p = some s) (dirty : Byte)
include htag

theorem DirectStore.sized : (operandOf env p dirty).Sized := sized_tagged htag h.intSize dirty

theorem DirectStore.leftIn :
    (operandOf env p dirty).leftIn buffer = (env.stores s).directChunk buffer := by
  rw [leftIn_of_params (operandOf_tagged env htag dirty) h.intSize]
  rfl

theorem DirectStore.operandParameters_eq :
    operandParameters env p = pure (operandOf env p dirty).params :=
  operandParameters_eq_tagged htag h.ne_lstore3 dirty

include h in
/-- A chunk of a direct operand always ends with a page fault. -/
theorem DirectStore.advanceLinked_eq (q : Uintptr) :
    advanceLinked env (operandOf env p dirty) ((operandOf env p dirty).leftIn buffer)
      ((env.stores s).directChunk buffer : Nat) buffer q = carmorPageFault env q dirty := by
  have hlinked : (operandOf env p dirty).linked = true := by
    simp [Operand.linked, operandOf, htag]
  unfold advanceLinked
  rw [h.leftIn buffer htag, if_pos ⟨rfl, hlinked⟩]
  rfl

end Operand

section NativeOperand

variable {q : Uintptr} (hq : isCarmorPtr q = false)
include hq

theorem advanceLinked_native (env : Env σ) (dirty : Byte) (left : Int) (k : Nat) (a q' : Uintptr) :
    advanceLinked env (operandOf env q dirty) left k a q' = pure (a + BitVec.ofNat 64 k) := by
  have hlinked : (operandOf env q dirty).linked = false := by
    rw [Operand.linked, operandOf_native hq]
    rfl
  unfold advanceLinked
  rw [if_neg (by simp [hlinked]), ofInt_natCast]

end NativeOperand

/-- The operands and the function of a copy between a direct store and native memory. -/
def directCopyOp (env : Env σ) (dest src : Uintptr) : BulkOp :=
  ⟨operandOf env dest 1, operandOf env src 0, true, carmorMemcpyWrapper, false⟩

/-! ## A small instance -/

/-- A direct store with 4 KiB pages whose state is its storage. -/
def plainDirectStore (s : StoreId) (link : Uintptr → Int → Byte → Byte → Exec Memory Uintptr)
    (writeback : Uintptr → Int → Exec Memory Unit) : LStore Memory where
  lstoreInit _ := pure 0
  lstoreIsDirect := true
  lstoreGetMpageSize := 0x1000
  lstoreGetMpageBits := 12
  lstoreGetMpageCacheBasePtr := 0
  lstoreGetMstoragePage := id
  lstoreGetTlb := .own s
  lstoreGetMinSize := 0
  lstoreGetMaxSize := 1000000000000
  lstoreTag := makeMstorePtr s
  notifyTlbCached _ := pure ()
  notifyTlbDropped _ _ := pure ()
  mpfHandlerC _ := pure 0
  mpfHandlerD u dst k := modify fun m => { m with mem := transfer m.mem dst m.store u k.toNat }
  lstoreWriteBack u src k := modify fun m => { m with store := transfer m.store u m.mem src k.toNat }
  lstoreAlloc _ := pure 0
  lstoreAllocSize _ := pure 0
  lstoreFree _ := pure ()
  carmorLink := link
  carmorGetValidIterations _ _ _ _ := pure 1
  carmorWritebackDirect := writeback

/-- Such stores at the four positions. -/
def directEnv : Env Memory :=
  let libc : Libc Memory :=
    ⟨fun _ => pure 0, fun _ _ => pure 0, fun _ => pure (), fun _ _ => pure 0x200000⟩
  let unlinked : Env Memory :=
    ⟨fun s => plainDirectStore s (fun _ _ _ _ => throw .abort) fun _ _ => throw .abort, libc,
      0x8000⟩
  ⟨fun s => plainDirectStore s (carmorLinkDirectTemplate unlinked s)
    (carmorWritebackDirectTemplate unlinked s), libc, 0x8000⟩

theorem directEnv_directStore {s : StoreId} (hs : s ≠ .lstore3) : DirectStore directEnv s id where
  ne_lstore3 := hs
  isDirect := rfl
  pageSize_pos := (by decide : 0 < (0x1000 : SizeT).toNat)
  pageSize_le := (by decide : (0x1000 : SizeT).toNat ≤ 2 ^ 30)
  link := rfl
  writeback := rfl
  mpfHandlerD _ _ _ _ := ⟨_, rfl, rfl, rfl⟩
  lstoreWriteBack _ _ _ _ := ⟨_, rfl, rfl, rfl⟩

/-- A thread that has its direct buffer. Storage bytes are `0xff`, and memory is zero. -/
def directWorld : World Memory where
  mem := fun _ => 0
  store := fun _ => 0xff
  tlb := fun _ => Tlb.memset 0
  gtDirectBuffer := 0x200000
  gtCrosspageAccess := 0
  gtCrosspageAccessSize := 0
  trace := []

/-- Native memory from `0x400000` on is not in the direct buffer. -/
theorem directWorld_disjoint {n : Nat} (hn : n ≤ 2 ^ 31) : ∀ i < n,
    ∀ x < (directEnv.stores .lstore0).lstoreGetMpageSize.toNat,
      cells 0x200000 x ≠ cells 0x400000 i := by
  intro i hi x hx heq
  change x < 0x1000 at hx
  have hbase : (0x200000 : Uintptr).toNat = 0x200000 := rfl
  have hsrc : (0x400000 : Uintptr).toNat = 0x400000 := rfl
  have hnat := congrArg BitVec.toNat heq
  unfold cells at hnat
  rw [toNat_add_ofNat (by omega), toNat_add_ofNat (by omega)] at hnat
  omega

end Carmor
