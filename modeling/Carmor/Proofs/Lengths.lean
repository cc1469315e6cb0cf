import Carmor.Proofs.HeapSteps
import Carmor.Proofs.Memcmp

/-!
# Lengths in an `int`

The bulk operations keep the number of bytes to go in an `int`, and `__carmor_realloc` keeps the
size of a block there. For stores whose callbacks return, this module says how many bytes the
operations hand to their function for every `size_t`, and for which block sizes `__carmor_realloc`
decides by the size that the store reports.
-/

namespace Carmor

variable {σ : Type}

/-- The length of the chunk with which an event calls a function. -/
def Event.chunkLength : Event σ → Nat
  | .func _ _ _ _ _ n => n.toNat
  | .funcSingle _ _ _ n => n.toNat
  | _ => 0

/-- The bytes that the calls in a trace hand to a function. -/
def handed (trace : List (Event σ)) : Nat := (trace.map Event.chunkLength).sum

/-- Between the worlds `k` bytes were handed to a function. -/
def Hands (k : Nat) (w w' : World σ) : Prop := ∃ es, w'.trace = es ++ w.trace ∧ handed es = k

theorem Hands.refl (w : World σ) : Hands 0 w w := ⟨[], rfl, rfl⟩

theorem Hands.trans {j k : Nat} {w w₁ w' : World σ} (h : Hands j w w₁) (h' : Hands k w₁ w') :
    Hands (j + k) w w' := by
  obtain ⟨es, htrace, hes⟩ := h
  obtain ⟨fs, htrace', hfs⟩ := h'
  refine ⟨fs ++ es, by rw [htrace', htrace, List.append_assoc], ?_⟩
  rw [handed, List.map_append, List.sum_append, ← handed, ← handed, hfs, hes, Nat.add_comm]

theorem hands_log (e : Event σ) (w : World σ) : Hands e.chunkLength w (w.log e) :=
  ⟨[e], rfl, List.sum_singleton⟩

/-- A passage through the TLB hands nothing to a function. -/
theorem LinkStep.hands {env : Env σ} {s : StoreId} {u a : Uintptr} {ptrSize : Int} {dirty : Byte}
    {w w' : World σ} (h : LinkStep env s u ptrSize dirty w a w') : Hands 0 w w' := by
  obtain ⟨es, htrace, hes⟩ := h.tlbEvents
  refine ⟨es, htrace, ?_⟩
  apply List.sum_eq_zero_iff_forall_eq_nat.mpr
  intro k hk
  obtain ⟨e, he, rfl⟩ := List.mem_map.mp hk
  cases e with
  | func => exact (hes _ he).elim
  | funcSingle => exact (hes _ he).elim
  | _ => rfl

/-! ## Stores whose callbacks return -/

/-- The bulk operations can use store `s`: its page size is a positive `int`, page faults return and
call no function on a chunk, and the write-backs of a direct store do the same. -/
structure Serves (env : Env σ) (s : StoreId) : Prop where
  ne_lstore3 : s ≠ .lstore3
  intSize : IntSize (env.stores s).lstoreGetMpageSize
  fault : ∀ p dirty w, switchCase p = some s → ∃ a w',
    carmorPageFault env p dirty w = .ok a w' ∧ Hands 0 w w'
  writeback : (env.stores s).lstoreIsDirect = true → ∀ p n w, switchCase p = some s → ∃ w',
    carmorWritebackGeneric env p n w = .ok () w' ∧ Hands 0 w w'

/-- A position in a page is at most the size of the page. -/
theorem and_sub_one_le (off : Uintptr) {size : SizeT} (hpos : 0 < size.toNat) :
    off &&& (size - 1) ≤ size := by
  have hpred : (size - 1).toNat = size.toNat - 1 := by
    rw [BitVec.toNat_sub, show (1 : SizeT).toNat = 1 from rfl]
    omega
  have hand : off.toNat &&& (size - 1).toNat ≤ _ := Nat.and_le_right
  rw [BitVec.le_def, BitVec.toNat_and]
  omega

section Callbacks

variable {env : Env σ} {s : StoreId} {g : StoreGeometry} (hstore : CachedStore env s g)
  (hbits : g.pageBits < 31)
  (hhandler : ∀ u m, ∃ a m', (env.stores s).mpfHandlerC u m = .ok a m')
  (hdropped : ∀ u dirty m, ∃ m', (env.stores s).notifyTlbDropped u dirty m = .ok () m')
  (hcached : ∀ u m, ∃ m', (env.stores s).notifyTlbCached u m = .ok () m')
include hstore hbits hhandler hdropped hcached

/-- Whatever the TLB holds, a link returns. -/
theorem exists_linkStep_of_callbacks (u : Uintptr) (dirty : Byte) (w : World σ) :
    ∃ a w', LinkStep env s u 0 dirty w a w' := by
  have hsize : (env.stores s).lstoreGetMpageSize.toNat = g.pageSize := toNat_mpageSize hstore.geometry
  have hpos := g.pageSize_pos
  cases hlookup : (w.tlb (env.stores s).lstoreGetTlb).lookup (bsPageIndex (env.stores s) u) dirty with
  | some hit =>
    have hin := g.inPage_lt u
    exact ⟨_, _, .hit hlookup (hit_assert hstore.geometry hbits (Int.le_refl 0) (by omega))⟩
  | none =>
    obtain ⟨a, m₁, hrun₁⟩ := hhandler u w.toMachine
    obtain ⟨m₂, hdrop⟩ : ∃ m₂, DropStep (env.stores s) u (w.tlb (env.stores s).lstoreGetTlb).last m₁
        m₂ := by
      unfold DropStep
      split
      · exact hdropped _ _ m₁
      · exact ⟨m₁, rfl⟩
    obtain ⟨m₃, hrun₃⟩ := hcached u m₂
    refine ⟨a, _, .miss hlookup hrun₁ hdrop hrun₃ ?_⟩
    rw [show BitVec.ofInt 64 0 = 0#64 from rfl, BitVec.add_zero]
    exact and_sub_one_le _ (by omega)

/-- A cached store whose callbacks return. -/
theorem serves_cached (hs : s ≠ .lstore3) : Serves env s := by
  have hsize : (env.stores s).lstoreGetMpageSize.toNat = g.pageSize := toNat_mpageSize hstore.geometry
  have hle : g.pageSize ≤ 2 ^ 30 := Nat.pow_le_pow_right (by decide) (by omega)
  have hpos := g.pageSize_pos
  refine ⟨hs, ⟨by omega, by omega⟩, ?_, ?_⟩
  · intro p dirty w htag
    obtain ⟨a, w', hlink⟩ := exists_linkStep_of_callbacks hstore hbits hhandler hdropped hcached
      (makeOriginalPointer p) dirty (w.log (.pageFault p dirty))
    have hrun := (carmorPageFault_eq_ok hstore.geometry hstore.link htag).mpr hlink
    exact ⟨a, w', hrun, (hands_log _ w).trans hlink.hands⟩
  · intro hdirect
    rw [hstore.isCached] at hdirect
    cases hdirect

end Callbacks

/-- An operand of which the first `len` bytes are reached: native, or in a store that serves, with
these bytes in the store's addresses. -/
inductive ServedRange (env : Env σ) (p : Uintptr) (len : Nat) : Prop
  | native : isCarmorPtr p = false → ServedRange env p len
  | tagged {s : StoreId} : Serves env s → switchCase p = some s →
      (makeOriginalPointer p).toNat + len ≤ 2 ^ 60 → ServedRange env p len

section Served

variable {env : Env σ} {p : Uintptr} {len : Nat} (h : ServedRange env p len) (dirty : Byte)
include h

theorem ServedRange.isCarmorPtr_eq : isCarmorPtr p = (switchCase p).isSome := by
  cases h with
  | native hp => rw [hp, switchCase_native hp]; rfl
  | tagged hserves htag hin => rw [isCarmorPtr_of_switchCase htag, htag]; rfl

theorem ServedRange.operandParameters_eq :
    operandParameters env p = pure (operandOf env p dirty).params := by
  cases h with
  | native hp => exact operandParameters_eq_native hp env dirty
  | tagged hserves htag hin => exact operandParameters_eq_tagged htag hserves.ne_lstore3 dirty

theorem ServedRange.sized : (operandOf env p dirty).Sized := by
  cases h with
  | native hp => exact sized_native hp env dirty
  | tagged hserves htag hin => exact sized_tagged htag hserves.intSize dirty

/-- The links of the operand return. -/
theorem ServedRange.link {i : Nat} (hi : i = 0 ∨ i < len) (htagged : isCarmorPtr p = true)
    (w : World σ) : ∃ a w', carmorPageFault env (cells p i) dirty w = .ok a w' ∧
      Hands 0 w w' := by
  cases h with
  | native hp =>
    rw [hp] at htagged
    cases htagged
  | tagged hserves htag hin =>
    have hlt := makeOriginalPointer_lt p
    exact hserves.fault _ dirty w (switchCase_cells htag (by omega))

theorem ServedRange.linkOperand (w : World σ) : ∃ a w',
    linkOperand env (operandOf env p dirty) p w = .ok a w' ∧ Hands 0 w w' := by
  unfold Carmor.linkOperand
  by_cases hlinked : (operandOf env p dirty).linked = true
  · rw [if_pos hlinked]
    have htagged : isCarmorPtr p = true := by
      rw [h.isCarmorPtr_eq]
      simpa [Operand.linked, operandOf] using hlinked
    have hlink := h.link dirty (.inl rfl) htagged w
    rwa [cells_zero] at hlink
  · rw [if_neg hlinked]
    exact ⟨p, w, rfl, .refl w⟩

theorem ServedRange.advanceLinked {i : Nat} (hi : i < len) (left minLeft : Int)
    (linkedPtr : Uintptr) (w : World σ) : ∃ a w',
    advanceLinked env (operandOf env p dirty) left minLeft linkedPtr (cells p i) w = .ok a w' ∧
      Hands 0 w w' := by
  unfold Carmor.advanceLinked
  by_cases hend : minLeft = left ∧ (operandOf env p dirty).linked = true
  · rw [if_pos hend]
    have htagged : isCarmorPtr p = true := by
      rw [h.isCarmorPtr_eq]
      simpa [Operand.linked, operandOf] using hend.2
    exact h.link dirty (.inr hi) htagged w
  · rw [if_neg hend]
    exact ⟨_, w, rfl, .refl w⟩

/-- The write-backs of an operand in a direct store return. -/
theorem ServedRange.writebackOperand {i : Nat} (hi : i < len)
    (hdirect : ∀ s, switchCase p = some s → (env.stores s).lstoreIsDirect = true) (w : World σ) :
    ∃ w', writebackOperand env (operandOf env p dirty) (cells p i) w = .ok () w' ∧
      Hands 0 w w' := by
  cases h with
  | native hp =>
    unfold Carmor.writebackOperand
    rw [operandOf_native hp]
    exact ⟨w, rfl, .refl w⟩
  | @tagged s hserves htag hin =>
    unfold Carmor.writebackOperand
    rw [operandOf_tagged env htag]
    by_cases hd : (operandOf env p dirty).dirty ≠ 0
    · simp only [if_pos hd]
      exact hserves.writeback (hdirect s htag) _ _ w (switchCase_cells htag (by omega))
    · simp only [if_neg hd]
      exact ⟨w, rfl, .refl w⟩

end Served

/-! ## `__carmor_mem_wrapper` -/

section Wrapper

variable {env : Env σ} {vl vr : Uintptr} (dl dr : Byte) {len : Nat} (hl : ServedRange env vl len)
  (hr : ServedRange env vr len) (func : MemFunction) (partialReturn : Bool) {direct : Bool}
  (hdirect : direct = true → ∀ s, switchCase vl = some s ∨ switchCase vr = some s →
    (env.stores s).lstoreIsDirect = true)
include hl hr hdirect

/-- A call on a chunk, with its write-backs. -/
theorem exists_chunkCall {i k : Nat} (hi : i < len) (hk : k < 2 ^ 64) (vl0 vr0 : Uintptr)
    (w : World σ) : ∃ res w',
    chunkCall env ⟨operandOf env vl dl, operandOf env vr dr, direct, func, partialReturn⟩ vl0 vr0
        (cells vl i) (cells vr i) k w = .ok res w' ∧ Hands k w w' := by
  let b : BulkOp := ⟨operandOf env vl dl, operandOf env vr dr, direct, func, partialReturn⟩
  have hcall : callFunc b vl0 vr0 (cells vl i) (cells vr i) (BitVec.ofNat 64 k) w =
      .ok (func vl0 vr0 (BitVec.ofNat 64 k) w.mem).1
        (b.afterChunk vl0 vr0 (cells vl i) (cells vr i) k w) := rfl
  have hhands : Hands k w (b.afterChunk vl0 vr0 (cells vl i) (cells vr i) k w) := by
    refine ⟨[.func w.store vl0 vr0 (cells vl i) (cells vr i) (BitVec.ofNat 64 k)], rfl, ?_⟩
    rw [handed, List.map_singleton, List.sum_singleton, Event.chunkLength, toNat_ofNat_of_lt hk]
  unfold chunkCall
  rw [Lib.bind_of_ok hcall]
  generalize b.afterChunk vl0 vr0 (cells vl i) (cells vr i) k w = w₁ at hhands
  unfold writebackChunk
  cases direct with
  | false => exact ⟨_, w₁, rfl, hhands⟩
  | true =>
    obtain ⟨w₂, hrunl, hlinkl⟩ := hl.writebackOperand dl hi (fun s hs => hdirect rfl s (.inl hs)) w₁
    obtain ⟨w₃, hrunr, hlinkr⟩ := hr.writebackOperand dr hi (fun s hs => hdirect rfl s (.inr hs)) w₂
    exact ⟨_, w₃, Lib.bind_eq_ok.mpr ⟨(), w₃, Lib.bind_eq_ok.mpr ⟨(), w₂, hrunl, hrunr⟩, rfl⟩,
      hhands.trans (hlinkl.trans hlinkr)⟩

/-- The chunks of the loop hand over what the loop has processed. -/
theorem handed_loopInvariant (hlen : len < 2 ^ 64) (w₀ : World σ) :
    LoopInvariant env ⟨operandOf env vl dl, operandOf env vr dr, direct, func, partialReturn⟩ len vl vr
      (fun done _ _ w => Hands done w₀ w)
      (fun res w => ¬ (partialReturn = true ∧ res ≠ 0) → Hands len w₀ w) := by
  refine ⟨fun h _ => h, ?_, ?_⟩
  · intro done left vl0 vr0 w h hleft hlt
    obtain ⟨res, w₁, hcall, hhands⟩ := exists_chunkCall dl dr hl hr func partialReturn hdirect
      (i := done) (k := left) (by omega) (by omega) vl0 vr0 w
    refine ⟨res, w₁, hcall, ?_⟩
    split
    · rename_i hreturn
      exact fun hstay => absurd hreturn hstay
    · obtain ⟨vl0', w₂, hrunl, hlinkl⟩ := hl.advanceLinked dl hlt
        ((operandOf env vl dl).leftIn vl0) left vl0 w₁
      obtain ⟨vr0', w₃, hrunr, hlinkr⟩ := hr.advanceLinked dr hlt
        ((operandOf env vr dr).leftIn vr0) left vr0 w₂
      exact ⟨vl0', vr0', w₃, chunkAdvance_of_ok hrunl hrunr,
        (h.trans hhands).trans (hlinkl.trans hlinkr)⟩
  · intro done vl0 vr0 w h hdone hlast
    obtain ⟨res, w₁, hcall, hhands⟩ := exists_chunkCall dl dr hl hr func partialReturn hdirect
      (i := done) (k := len - done) hdone (by omega) vl0 vr0 w
    refine ⟨res, w₁, hcall, ?_⟩
    split
    · rename_i hreturn
      exact fun hstay => absurd hreturn hstay
    · intro _
      have hall := h.trans hhands
      rwa [Nat.add_sub_cancel' (Nat.le_of_lt hdone)] at hall

end Wrapper

/-- The store that decides whether an operation on two operands is direct: if it is, then so is the
store of every tagged operand, of which there is one. -/
theorem exists_direct {env : Env σ} {vl vr : Uintptr} (hl : isCarmorPtr vl = (switchCase vl).isSome)
    (hr : isCarmorPtr vr = (switchCase vr).isSome)
    (htagged : (isCarmorPtr vl || isCarmorPtr vr) = true)
    (hassert : ∀ s t, switchCase vl = some s → switchCase vr = some t →
      (env.stores s).lstoreIsDirect = false) :
    ∃ direct : Bool, lstoreTypeIsDirect env (if isCarmorPtr vl then vl else vr) = pure direct ∧
      (direct = true → (isCarmorPtr vl && isCarmorPtr vr) = false) ∧
      (direct = true → ∀ s, switchCase vl = some s ∨ switchCase vr = some s →
        (env.stores s).lstoreIsDirect = true) := by
  cases hs : switchCase vl with
  | some s =>
    refine ⟨(env.stores s).lstoreIsDirect, ?_, ?_, ?_⟩
    · rw [hl, hs, if_pos (by simp), lstoreTypeIsDirect_eq hs]
    · intro htrue
      cases ht : switchCase vr with
      | none => rw [hr, ht, Option.isSome_none, Bool.and_false]
      | some t =>
        rw [hassert s t hs ht] at htrue
        cases htrue
    · rintro htrue u (hu | hu)
      · cases hu
        exact htrue
      · rw [hassert s u hs hu] at htrue
        cases htrue
  | none =>
    cases ht : switchCase vr with
    | none =>
      rw [hl, hr, hs, ht] at htagged
      cases htagged
    | some t =>
      refine ⟨(env.stores t).lstoreIsDirect, ?_, ?_, ?_⟩
      · rw [hl, hs, if_neg (by simp), lstoreTypeIsDirect_eq ht]
      · intro _
        rw [hl, hs, Option.isSome_none, Bool.false_and]
      · rintro htrue u (hu | hu)
        · cases hu
        · cases hu
          exact htrue

theorem toNat_toInt32_lt (n : SizeT) : (toInt32 n).toNat < 2 ^ 31 := by
  have hlt : toInt32 n < 2 ^ 31 := (n.setWidth 32).toInt_lt
  omega

/-- The two-operand wrapper returns, and hands over as many bytes as its `int` counts. -/
theorem memWrapper_handed {env : Env σ} {vl vr : Uintptr} (dl dr : Byte) {n : SizeT}
    (hl : ServedRange env vl (toInt32 n).toNat) (hr : ServedRange env vr (toInt32 n).toNat)
    (func : MemFunction) (partialReturn : Bool)
    (htagged : (isCarmorPtr vl || isCarmorPtr vr) = true)
    (hassert : ∀ s t, switchCase vl = some s → switchCase vr = some t →
      (env.stores s).lstoreIsDirect = false) {fuel : Nat} (hfuel : (toInt32 n).toNat < fuel)
    (w : World σ) :
    ∃ res w', carmorMemWrapper env fuel vl dl vr dr n func partialReturn w = .ok res w' ∧
      (¬ (partialReturn = true ∧ res ≠ 0) → Hands (toInt32 n).toNat w w') := by
  obtain ⟨direct, htype, hboth, hdirect⟩ := exists_direct hl.isCarmorPtr_eq hr.isCarmorPtr_eq htagged
    hassert
  have hlt := toNat_toInt32_lt n
  obtain ⟨vl0, w₁, hrunl, hlinkl⟩ := hl.linkOperand dl w
  obtain ⟨vr0, w₂, hrunr, hlinkr⟩ := hr.linkOperand dr w₁
  have hloopInv := handed_loopInvariant dl dr hl hr func partialReturn hdirect (by omega) w
  obtain ⟨res, w', hloop, hpost⟩ := hloopInv.returns_ctr ⟨hl.sized dl, hr.sized dr⟩ vl0 vr0 w₂
    (hlinkl.trans hlinkr) hfuel
  refine ⟨res, w', ?_, hpost⟩
  rw [memWrapper_eq fuel dl dr n func partialReturn htagged htype hboth (hl.operandParameters_eq dl)
    (hr.operandParameters_eq dr)]
  exact Lib.bind_eq_ok.mpr ⟨vl0, w₁, hrunl, Lib.bind_eq_ok.mpr ⟨vr0, w₂, hrunr, hloop⟩⟩

/-! ## `__carmor_mem_wrapper_single` -/

section Single

variable {env : Env σ} {s : StoreId} (hserves : Serves env s) {p : Uintptr}
  (htag : switchCase p = some s) {len : Nat} (hin : (makeOriginalPointer p).toNat + len ≤ 2 ^ 60)
  (c : Int) (func : MemFunctionSingle) (dirty : Byte) (partialReturn aggregateRes : Bool)
include hserves htag

/-- A call on a chunk, with its write-back. -/
theorem exists_callFuncSingle {i k : Nat} (hi : (makeOriginalPointer p).toNat + i < 2 ^ 60)
    (hk : k < 2 ^ 64) (dst0 : Uintptr) (w : World σ) : ∃ res w',
    callFuncSingle env ⟨operandOf env p dirty, c, (env.stores s).lstoreIsDirect, func, partialReturn,
        aggregateRes⟩ dst0 (cells p i) (BitVec.ofNat 64 k) w = .ok res w' ∧ Hands k w w' := by
  have hparams := operandOf_tagged env htag dirty
  have hhands : Hands k w (w.log (.funcSingle w.store dst0 (cells p i) (BitVec.ofNat 64 k))) := by
    have hlog := hands_log (.funcSingle w.store dst0 (cells p i) (BitVec.ofNat 64 k)) w
    rwa [Event.chunkLength, toNat_ofNat_of_lt hk] at hlog
  unfold callFuncSingle
  rw [Lib.bind_of_ok (get_apply w), Lib.bind_of_ok (record_apply w _),
    Lib.bind_of_ok (onMem_apply _ _)]
  simp only [hparams]
  cases hdirect : (env.stores s).lstoreIsDirect with
  | false => exact ⟨_, _, rfl, hhands⟩
  | true =>
    obtain ⟨w₂, hrun, hnone⟩ := hserves.writeback hdirect (cells p i)
      (toInt32 (env.stores s).lstoreGetMpageSize) ((w.log (.funcSingle w.store dst0 (cells p i)
        (BitVec.ofNat 64 k))).withMem (func dst0 c (BitVec.ofNat 64 k) w.mem).2)
      (switchCase_cells htag hi)
    exact ⟨_, w₂, Lib.bind_of_ok hrun _, hhands.trans hnone⟩

include hin

/-- The chunks of the loop hand over what the loop has processed. -/
theorem handed_singleInvariant (hlen : len < 2 ^ 64) (w₀ : World σ) :
    SingleInvariant env ⟨operandOf env p dirty, c, (env.stores s).lstoreIsDirect, func,
        partialReturn, aggregateRes⟩ len p (fun done _ w => Hands done w₀ w)
      (fun res w => ¬ (partialReturn = true ∧ res ≠ 0) → Hands len w₀ w) := by
  refine ⟨fun h _ _ _ => h, ?_, ?_⟩
  · intro done left dst0 w h hleft hlt
    obtain ⟨res, w₁, hcall, hhands⟩ := exists_callFuncSingle hserves htag c func dirty partialReturn
      aggregateRes (i := done) (k := left) (by omega) (by omega) dst0 w
    refine ⟨res, w₁, hcall, ?_⟩
    split
    · rename_i hreturn
      exact fun hstay => absurd hreturn hstay
    · obtain ⟨dst0', w₂, hfault, hnone⟩ := hserves.fault (cells p (done + left)) dirty w₁
        (switchCase_cells htag (by omega))
      exact ⟨dst0', w₂, hfault, (h.trans hhands).trans hnone⟩
  · intro done dst0 w h hdone hlast
    obtain ⟨res, w₁, hcall, hhands⟩ := exists_callFuncSingle hserves htag c func dirty partialReturn
      aggregateRes (i := done) (k := len - done) (by omega) (by omega) dst0 w
    refine ⟨res, w₁, hcall, ?_⟩
    split
    · rename_i hreturn
      exact fun hstay => absurd hreturn hstay
    · intro _ _ _
      have hall := h.trans hhands
      rwa [Nat.add_sub_cancel' (Nat.le_of_lt hdone)] at hall

end Single

/-- The one-operand wrapper returns, and hands over as many bytes as its `int` counts. -/
theorem memWrapperSingle_handed {env : Env σ} {s : StoreId} (hserves : Serves env s) {p : Uintptr}
    (htag : switchCase p = some s) {n : SizeT}
    (hin : (makeOriginalPointer p).toNat + (toInt32 n).toNat ≤ 2 ^ 60) (c : Int)
    (func : MemFunctionSingle) (dirty : Byte) (partialReturn aggregateRes : Bool) {fuel : Nat}
    (hfuel : (toInt32 n).toNat < fuel) (w : World σ) :
    ∃ res w', carmorMemWrapperSingle env fuel p c n func dirty partialReturn aggregateRes w =
        .ok res w' ∧
      (¬ (partialReturn = true ∧ res ≠ 0) → Hands (toInt32 n).toNat w w') := by
  have hrange : ServedRange env p (toInt32 n).toNat := .tagged hserves htag hin
  obtain ⟨dst0, w₁, hrun₁, hnone⟩ := hserves.fault p dirty w htag
  have hloopInv := handed_singleInvariant hserves htag hin c func dirty partialReturn aggregateRes
    (by omega) w
  obtain ⟨res, w', hloop, hpost⟩ := hloopInv.returns_ctr (hrange.sized dirty) dst0 w₁ hnone hfuel
  refine ⟨res, w', ?_, hpost⟩
  rw [memWrapperSingle_tagged fuel c n func dirty partialReturn aggregateRes htag hserves.ne_lstore3]
  exact Lib.bind_eq_ok.mpr ⟨dst0, w₁, hrun₁, hloop⟩

/-! ## A length as the `int` that it is cut to -/

/-- The bytes of `n` that an `int` counts. -/
def intLength (n : SizeT) : SizeT := BitVec.ofNat 64 (toInt32 n).toNat

theorem toNat_intLength (n : SizeT) : (intLength n).toNat = (toInt32 n).toNat := by
  have hlt := toNat_toInt32_lt n
  exact toNat_ofNat_of_lt (by omega)

/-- The loop does nothing for any count that is not positive. -/
theorem memWrapperSingleLoop_nonpos {env : Env σ} {b : SingleOp} {ctr ctr' : Int} (h : ctr ≤ 0)
    (h' : ctr' ≤ 0) (fuel : Nat) (acc : SizeT) (dst0 dstOrig : Uintptr) :
    memWrapperSingleLoop env b fuel ctr acc dst0 dstOrig =
      memWrapperSingleLoop env b fuel ctr' acc dst0 dstOrig := by
  cases fuel with
  | zero => rfl
  | succ fuel =>
    funext w
    rw [memWrapperSingleLoop_done h, memWrapperSingleLoop_done h']

/-- On a tagged operand the one-operand wrapper sees of `n` what the `int` counts. -/
theorem memWrapperSingle_intLength (env : Env σ) (fuel : Nat) {p : Uintptr}
    (htagged : isCarmorPtr p = true) (c : Int) (n : SizeT) (func : MemFunctionSingle) (dirty : Byte)
    (partialReturn aggregateRes : Bool) :
    carmorMemWrapperSingle env fuel p c n func dirty partialReturn aggregateRes =
      carmorMemWrapperSingle env fuel p c (intLength n) func dirty partialReturn aggregateRes := by
  have hlen := toNat_intLength n
  have hlt := toNat_toInt32_lt n
  have hint : toInt32 (intLength n) = (toInt32 n).toNat := by
    rw [toInt32_of_lt (by omega), hlen]
  have hloop : ∀ b acc dst0 dstOrig, memWrapperSingleLoop env b fuel (toInt32 n) acc dst0 dstOrig =
      memWrapperSingleLoop env b fuel (toInt32 (intLength n)) acc dst0 dstOrig := by
    intro b acc dst0 dstOrig
    by_cases hpos : 0 ≤ toInt32 n
    · rw [hint, Int.toNat_of_nonneg hpos]
    · exact memWrapperSingleLoop_nonpos (by omega) (by omega) fuel acc dst0 dstOrig
  unfold carmorMemWrapperSingle
  simp only [htagged, hloop, Bool.not_true, if_false, Bool.false_eq_true]

/-! ## `__carmor_realloc` -/

/-- What the callbacks of store `s` do in a `realloc` to `size` bytes of the block of `real` bytes
at `u`: they return, and both blocks are in the store's addresses. -/
structure Resizable (env : Env σ) (s : StoreId) (u : Uintptr) (size real : SizeT) (w : World σ) :
    Prop where
  isCached : (env.stores s).lstoreIsDirect = false
  block : u.toNat + real.toNat ≤ 2 ^ 60
  allocSize : ∃ m, (env.stores s).lstoreAllocSize u w.toMachine = .ok real m
  alloc : ∀ m, ∃ b m', (env.stores s).lstoreAlloc size m = .ok b m' ∧ b.toNat + size.toNat ≤ 2 ^ 60
  free : ∀ m, ∃ m', (env.stores s).lstoreFree u m = .ok () m'

/-- Between the worlds a block of `real` bytes was resized to `size` bytes: a new block was
allocated exactly if the old one is too small, and then the copy has handed over the whole old
block. -/
def ResizedBy (real size : SizeT) (w w' : World σ) : Prop :=
  ∃ es, w'.trace = es ++ w.trace ∧
    ((∃ s k b, Event.lstoreAlloc s k b ∈ es) ↔ real.toNat < size.toNat) ∧
    ((∃ s k b, Event.lstoreAlloc s k b ∈ es) → handed es = real.toNat)

/-- The events between two worlds are determined, so they decide whether the block was resized. -/
theorem resizedBy_iff {real size : SizeT} {w w' : World σ} {es : List (Event σ)}
    (htrace : w'.trace = es ++ w.trace) :
    ResizedBy real size w w' ↔
      ((∃ s k b, Event.lstoreAlloc s k b ∈ es) ↔ real.toNat < size.toNat) ∧
      ((∃ s k b, Event.lstoreAlloc s k b ∈ es) → handed es = real.toNat) := by
  constructor
  · rintro ⟨fs, htrace', hresized⟩
    obtain rfl := List.append_cancel_right (htrace.symm.trans htrace')
    exact hresized
  · intro hresized
    exact ⟨es, htrace, hresized⟩

/-- The size that `__carmor_realloc` compares and copies with. -/
def intSize (real : SizeT) : SizeT := BitVec.ofInt 64 (toInt32 real)

theorem toNat_toInt32_eq_iff (x : BitVec 64) : (toInt32 x).toNat = x.toNat ↔ x.toNat < 2 ^ 31 := by
  have hlow : (x.setWidth 32).toNat = x.toNat % 2 ^ 32 := BitVec.toNat_setWidth ..
  constructor
  · intro heq
    have hlt := toNat_toInt32_lt x
    omega
  · intro hlt
    rw [toInt32_of_lt hlt]
    rfl

theorem intSize_of_lt {real : SizeT} (h : real.toNat < 2 ^ 31) : intSize real = real := by
  apply BitVec.eq_of_toNat_eq
  rw [intSize, toInt32_of_lt h, toNat_ofInt_natCast (by omega)]

/-- A positive `int` is what it is as a `size_t`. -/
theorem toNat_toInt32_le_intSize (real : SizeT) : (toInt32 real).toNat ≤ (intSize real).toNat := by
  by_cases hneg : toInt32 real ≤ 0
  · omega
  · have hle := toInt32_le real
    have hlt := real.isLt
    have hcast : toInt32 real = ((toInt32 real).toNat : Nat) := by omega
    rw [intSize, hcast, toNat_ofInt_natCast (by omega)]
    omega

theorem Hands.unique {j k : Nat} {w w' : World σ} (h : Hands j w w') (h' : Hands k w w') : j = k := by
  obtain ⟨es, htrace, hes⟩ := h
  obtain ⟨fs, htrace', hfs⟩ := h'
  obtain rfl := List.append_cancel_right (htrace.symm.trans htrace')
  exact hes.symm.trans hfs

/-- What was handed over is `n` bytes exactly if the `int` holds `n`. -/
theorem Hands.all_iff {n : SizeT} {w w' : World σ} (h : Hands (toInt32 n).toNat w w') :
    Hands n.toNat w w' ↔ n.toNat < 2 ^ 31 := by
  rw [← toNat_toInt32_eq_iff]
  constructor
  · exact h.unique
  · intro heq
    rwa [← heq]

section Realloc

variable {env : Env σ} {s : StoreId} (hserves : Serves env s) {p : Uintptr}
  (htag : switchCase p = some s) {size real : SizeT} {w : World σ}
  (hready : Resizable env s (makeOriginalPointer p) size real w) {fuel : Nat}
  (hfuel : (toInt32 real).toNat < fuel)
include hserves htag hready hfuel

/-- The copy into a new block at `b` and the free of the old block hand over the size that the `int`
counts. -/
theorem exists_resize {b : Uintptr} (hroom : b.toNat + size.toNat ≤ 2 ^ 60)
    (hsmall : ¬ size ≤ intSize real) (w : World σ) :
    ∃ w₁ w', carmorMemcpy env fuel (makeMstorePtr s b) p (intSize real) w =
        .ok (makeMstorePtr s b) w₁ ∧
      carmorFree env p w₁ = .ok () w' ∧ Hands (toInt32 real).toNat w w' := by
  have hlen : toInt32 (intSize real) = toInt32 real := toInt32_ofInt_toInt32 real
  have hle := toInt32_le real
  have hfits := toNat_toInt32_le_intSize real
  have hblock := hready.block
  rw [BitVec.not_le, BitVec.lt_def] at hsmall
  have hb : b.toNat < 2 ^ 60 := by omega
  have hnew : ServedRange env (makeMstorePtr s b) (toInt32 (intSize real)).toNat := by
    apply ServedRange.tagged hserves (switchCase_makeMstorePtr s hb)
    rw [makeOriginalPointer_makeMstorePtr s hb, hlen]
    omega
  have hold : ServedRange env p (toInt32 (intSize real)).toNat := by
    apply ServedRange.tagged hserves htag
    rw [hlen]
    omega
  have hassert : ∀ t u, switchCase (makeMstorePtr s b) = some t → switchCase p = some u →
      (env.stores t).lstoreIsDirect = false := by
    intro t u ht _
    rw [switchCase_makeMstorePtr s hb] at ht
    cases ht
    exact hready.isCached
  have henough : (toInt32 (intSize real)).toNat < fuel := by rwa [hlen]
  obtain ⟨res, w₁, hcopy, hhands⟩ := memWrapper_handed 1 0 hnew hold carmorMemcpyWrapper false
    (by rw [isCarmorPtr_of_switchCase htag, Bool.or_true]) hassert henough w
  obtain ⟨m₂, hfree⟩ := hready.free (w₁.log (.lstoreFree s (makeOriginalPointer p))).toMachine
  refine ⟨w₁, (w₁.log (.lstoreFree s (makeOriginalPointer p))).withMachine m₂, ?_, ?_, ?_⟩
  · unfold carmorMemcpy
    exact Lib.bind_eq_ok.mpr ⟨res, w₁, hcopy, rfl⟩
  · rw [carmorFree, if_neg (by simp [isCarmorPtr_of_switchCase htag]), htag]
    exact Lib.bind_eq_ok.mpr ⟨(), _, rfl, callStore_of_ok hfree⟩
  · rw [← hlen]
    exact (hhands (by simp)).trans (hands_log (.lstoreFree s (makeOriginalPointer p)) w₁)

/-- `__carmor_realloc` returns, and it resizes the block by the size that the store reports exactly
if this size is a positive `int`, or the block is large enough by both sizes. -/
theorem realloc_resizedBy_iff :
    ∃ res w', carmorRealloc env fuel p size w = .ok res w' ∧
      (ResizedBy real size w w' ↔
        real.toNat < 2 ^ 31 ∨ size.toNat ≤ real.toNat ∧ size ≤ intSize real) := by
  obtain ⟨m, hsize⟩ := hready.allocSize
  have hquery : lstoreAllocSize env s (makeOriginalPointer p) w =
      .ok real ((w.log (.lstoreAllocSize s (makeOriginalPointer p))).withMachine m) := by
    rw [lstoreAllocSize, Lib.bind_of_ok (record_apply _ _)]
    exact callStore_of_ok hsize
  have hrun : carmorRealloc env fuel p size w = (if size ≤ intSize real then return p else do
      let res := makeMstorePtr s (← lstoreAlloc env s size)
      let _ ← carmorMemcpy env fuel res p (intSize real)
      carmorFree env p
      return res) ((w.log (.lstoreAllocSize s (makeOriginalPointer p))).withMachine m) := by
    rw [carmorRealloc, if_neg (by simp [isCarmorPtr_of_switchCase htag]), htag]
    exact Lib.bind_of_ok hquery _
  have hsame : real.toNat < 2 ^ 31 → (size ≤ intSize real ↔ size.toNat ≤ real.toNat) := by
    intro hlt
    rw [intSize_of_lt hlt, BitVec.le_def]
  by_cases hreuse : size ≤ intSize real
  · rw [if_pos hreuse] at hrun
    refine ⟨p, _, hrun, ?_⟩
    have hevents : ¬ ∃ t k b, Event.lstoreAlloc t k b ∈
        [Event.lstoreAllocSize (σ := σ) s (makeOriginalPointer p)] := by simp
    rw [resizedBy_iff (show _ = [.lstoreAllocSize s (makeOriginalPointer p)] ++ w.trace from rfl)]
    constructor
    · rintro ⟨halloc, -⟩
      exact .inr ⟨Nat.le_of_not_lt (halloc.not.mp hevents), hreuse⟩
    · intro hcond
      have hle : size.toNat ≤ real.toNat := by
        rcases hcond with hlt | hcond
        · exact (hsame hlt).mp hreuse
        · exact hcond.1
      exact ⟨iff_of_false hevents (Nat.not_lt.mpr hle), fun halloc => absurd halloc hevents⟩
  · rw [if_neg hreuse] at hrun
    obtain ⟨b, m₁, halloc, hroom⟩ := hready.alloc m
    let w₀ := ((w.log (.lstoreAllocSize s (makeOriginalPointer p))).withMachine m |>.withMachine
      m₁).log (.lstoreAlloc s size b)
    obtain ⟨w₁, w', hcopy, hfree, es, htrace, hes⟩ := exists_resize hserves htag hready hfuel hroom
      hreuse w₀
    refine ⟨makeMstorePtr s b, w', ?_, ?_⟩
    · rw [hrun]
      exact Lib.bind_eq_ok.mpr ⟨b, w₀, lstoreAlloc_eq_ok.mpr ⟨m₁, halloc, rfl⟩,
        Lib.bind_eq_ok.mpr ⟨_, w₁, hcopy, Lib.bind_eq_ok.mpr ⟨(), w', hfree, rfl⟩⟩⟩
    · have htrace₀ : w'.trace = (es ++ [.lstoreAlloc s size b,
          .lstoreAllocSize s (makeOriginalPointer p)]) ++ w.trace := by
        rw [htrace, List.append_assoc]
        rfl
      have hevents : ∃ t k b', Event.lstoreAlloc t k b' ∈ es ++ [.lstoreAlloc s size b,
          .lstoreAllocSize s (makeOriginalPointer p)] := ⟨s, size, b, by simp⟩
      have hhanded : handed (es ++ [.lstoreAlloc s size b,
          .lstoreAllocSize s (makeOriginalPointer p)]) = (toInt32 real).toNat := by
        rw [handed, List.map_append, List.sum_append, ← handed, hes]
        rfl
      rw [resizedBy_iff htrace₀, hhanded, toNat_toInt32_eq_iff]
      constructor
      · rintro ⟨-, hall⟩
        exact .inl (hall hevents)
      · intro hcond
        have hlt : real.toNat < 2 ^ 31 := hcond.resolve_right fun hcond => hreuse hcond.2
        have hnot := (hsame hlt).not.mp hreuse
        exact ⟨iff_of_true hevents (by omega), fun _ => hlt⟩

end Realloc

/-- The lengths that the bulk operations hand over and that `__carmor_realloc` decides by. A bulk
operation that does not return early hands over `n` bytes exactly if `n` is a positive `int`;
`__carmor_realloc` goes by the size of the block exactly if this size is a positive `int`, or the
block is large enough both as it is and as an `int`. -/
theorem lengths_kept_iff (env : Env σ) :
    (∀ {vl vr : Uintptr} (dl dr : Byte) {n : SizeT}, ServedRange env vl (toInt32 n).toNat →
      ServedRange env vr (toInt32 n).toNat → (isCarmorPtr vl || isCarmorPtr vr) = true →
      (∀ s t, switchCase vl = some s → switchCase vr = some t →
        (env.stores s).lstoreIsDirect = false) →
      ∀ (func : MemFunction) (partialReturn : Bool) {fuel : Nat}, (toInt32 n).toNat < fuel →
      ∀ w, ∃ res w', carmorMemWrapper env fuel vl dl vr dr n func partialReturn w = .ok res w' ∧
        (¬ (partialReturn = true ∧ res ≠ 0) → (Hands n.toNat w w' ↔ n.toNat < 2 ^ 31))) ∧
    (∀ {s : StoreId} {p : Uintptr} {n : SizeT}, Serves env s → switchCase p = some s →
      (makeOriginalPointer p).toNat + (toInt32 n).toNat ≤ 2 ^ 60 →
      ∀ (c : Int) (func : MemFunctionSingle) (dirty : Byte) (partialReturn aggregateRes : Bool)
        {fuel : Nat}, (toInt32 n).toNat < fuel →
      ∀ w, ∃ res w', carmorMemWrapperSingle env fuel p c n func dirty partialReturn aggregateRes w =
          .ok res w' ∧
        (¬ (partialReturn = true ∧ res ≠ 0) → (Hands n.toNat w w' ↔ n.toNat < 2 ^ 31))) ∧
    (∀ {s : StoreId} {p : Uintptr} {size real : SizeT}, Serves env s → switchCase p = some s →
      ∀ {w : World σ}, Resizable env s (makeOriginalPointer p) size real w →
      ∀ {fuel : Nat}, (toInt32 real).toNat < fuel →
      ∃ res w', carmorRealloc env fuel p size w = .ok res w' ∧
        (ResizedBy real size w w' ↔
          real.toNat < 2 ^ 31 ∨ size.toNat ≤ real.toNat ∧ size ≤ intSize real)) := by
  refine ⟨?_, ?_, ?_⟩
  · intro vl vr dl dr n hl hr htagged hassert func partialReturn fuel hfuel w
    obtain ⟨res, w', hrun, hhands⟩ := memWrapper_handed dl dr hl hr func partialReturn htagged
      hassert hfuel w
    exact ⟨res, w', hrun, fun hstay => (hhands hstay).all_iff⟩
  · intro s p n hserves htag hin c func dirty partialReturn aggregateRes fuel hfuel w
    obtain ⟨res, w', hrun, hhands⟩ := memWrapperSingle_handed hserves htag hin c func dirty
      partialReturn aggregateRes hfuel w
    exact ⟨res, w', hrun, fun hstay => (hhands hstay).all_iff⟩
  · intro s p size real hserves htag w hready fuel hfuel
    exact realloc_resizedBy_iff hserves htag hready hfuel

/-! ## Runs on large lengths -/

/-- Stores of 16 TiB, whose blocks have 2 GiB. -/
def largeEnv : Env Pins :=
  let env := residentEnv (fun _ => ⟨0, 0x100000000000, 12, smallGeometry.pageBits_lt⟩) 0x200000
  { env with stores := fun s =>
      { env.stores s with
        lstoreAlloc := fun _ => pure 0x100000000
        lstoreAllocSize := fun _ => pure 0x80000000 } }

theorem largeEnv_serves (s : StoreId) (hs : s ≠ .lstore3) : Serves largeEnv s := by
  have hstore : CachedStore largeEnv s ⟨0, 0x100000000000, 12, by decide⟩ :=
    ⟨⟨rfl, rfl, rfl, fun _ => rfl⟩, rfl, rfl, .inl rfl⟩
  exact serves_cached hstore (by decide) (fun _ _ => ⟨_, _, rfl⟩) (fun _ _ _ => ⟨_, rfl⟩)
    (fun _ _ => ⟨_, rfl⟩) hs

/-- A `memset` of 2 GiB hands nothing over, and a block of 2 GiB is reused for 4 GiB. -/
theorem lengths_shortened :
    (∃ w', carmorMemWrapperSingle largeEnv 1 (makeMstorePtr .lstore0 0) 0x5a 0x80000000
        carmorMemsetWrapper 1 false false initialWorld = .ok 0 w' ∧
      ¬ Hands 0x80000000 initialWorld w') ∧
    ∃ w', carmorRealloc largeEnv 1 (makeMstorePtr .lstore0 0) 0x100000000 initialWorld =
        .ok (makeMstorePtr .lstore0 0) w' ∧
      ¬ ResizedBy 0x80000000 0x100000000 initialWorld w' := by
  constructor
  · refine ⟨_, rfl, fun h => ?_⟩
    -- the trace of the run is what it has added to the empty trace of `initialWorld`
    have hnone := h.unique ⟨_, (List.append_nil _).symm, rfl⟩
    cases hnone
  · refine ⟨_, rfl, fun hresized => ?_⟩
    rw [resizedBy_iff
      (show _ = [.lstoreAllocSize .lstore0 0] ++ initialWorld.trace from rfl)] at hresized
    simpa using hresized.1.mpr (by decide)

/-- Three bytes in one page, a fill of 2 GiB, and a block of 2 GiB that is made smaller. -/
theorem lengths_kept_largeEnv :
    (∃ res w', carmorMemWrapper largeEnv 4 (makeMstorePtr .lstore0 0) 1 0x6000 0 3 carmorMemcpyWrapper
        false initialWorld = .ok res w' ∧ Hands 3 initialWorld w') ∧
    (∃ res w', carmorMemWrapperSingle largeEnv 1 (makeMstorePtr .lstore0 0) 0x5a 0x80000000
        carmorMemsetWrapper 1 false false initialWorld = .ok res w' ∧
      ¬ Hands 0x80000000 initialWorld w') ∧
    ∃ res w', carmorRealloc largeEnv 1 (makeMstorePtr .lstore0 0) 0x1000 initialWorld = .ok res w' ∧
      ResizedBy 0x80000000 0x1000 initialWorld w' := by
  have hserves := largeEnv_serves .lstore0 (by decide)
  have htag : switchCase (makeMstorePtr .lstore0 0) = some .lstore0 := by decide
  have hready : Resizable largeEnv .lstore0 (makeOriginalPointer (makeMstorePtr .lstore0 0)) 0x1000
      0x80000000 initialWorld :=
    ⟨rfl, by decide, ⟨_, rfl⟩, fun _ => ⟨_, _, rfl, by decide⟩, fun _ => ⟨_, rfl⟩⟩
  obtain ⟨hwrapper, hsingle, hrealloc⟩ := lengths_kept_iff largeEnv
  have hl : ServedRange largeEnv (makeMstorePtr .lstore0 0) (toInt32 3).toNat :=
    .tagged hserves htag (by decide)
  have hr : ServedRange largeEnv 0x6000 (toInt32 3).toNat := .native (by decide)
  refine ⟨?_, ?_, ?_⟩
  · obtain ⟨res, w', hrun, hhands⟩ := hwrapper 1 0 hl hr (by decide) (fun _ _ _ _ => rfl)
      carmorMemcpyWrapper false (show (toInt32 3).toNat < 4 by decide) initialWorld
    exact ⟨res, w', hrun, (hhands (by simp)).mpr (by decide)⟩
  · obtain ⟨res, w', hrun, hhands⟩ := hsingle (n := 0x80000000) hserves htag (by decide) 0x5a
      carmorMemsetWrapper 1 false false (show (toInt32 0x80000000).toNat < 1 by decide) initialWorld
    exact ⟨res, w', hrun, (hhands (by simp)).not.mpr (by decide)⟩
  · obtain ⟨res, w', hrun, hresized⟩ := hrealloc hserves htag hready
      (show (toInt32 0x80000000).toNat < 1 by decide)
    exact ⟨res, w', hrun, hresized.mpr (.inr ⟨by decide, by decide⟩)⟩

end Carmor
