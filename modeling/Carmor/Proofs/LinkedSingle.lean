import Carmor.Proofs.LinkedLoop

/-!
# The loop of `__carmor_mem_wrapper_single` on a cached store

The loop links one operand, page by page, and a linked address is used until the next page fault
only (`FaultsUntilNext`). `SingleRule` is what a call of the function on a chunk does to the flat
memory, `SingleTrace` what the loop leaves in the trace: one page fault for every page that it has
reached, and calls that stay in a frame.
-/

namespace Carmor

variable {σ : Type}

/-- As `FaultsHeld`, for addresses that stay valid until the next page fault: of the pages held
before, a page fault keeps none. -/
structure FaultsUntilNext (env : Env σ) (r : Residency σ) (R : Set Uintptr)
    (Inv : Set PageOf → World σ → Prop) : Prop where
  place_inj : ∀ {K w p q a}, Inv K w → r.place w.store p = some a → r.place w.store q = some a →
    p = q
  write : ∀ {K w mem}, Inv K w →
    (∀ a, (∀ p, r.place w.store p = some a → ∃ q ∉ K, r.pageOf p = some q) → mem a = w.mem a) →
    Inv K (w.withMem mem)
  log : ∀ {K w e}, Inv K w → Inv K (w.log e)
  fault : ∀ {K w p s} (dirty : Byte), Inv K w → p ∈ R → switchCase p = some s → ∃ f w',
    carmorPageFault env p dirty w = .ok ((r.geometry s).frameAddress f
      ((r.geometry s).inPage (makeOriginalPointer p))) w' ∧
    r.frame w'.store s ((r.geometry s).page (makeOriginalPointer p)) = some f ∧
    Inv {(s, (r.geometry s).page (makeOriginalPointer p))} w' ∧
    r.flat w'.toMachine = r.flat w.toMachine

/-- Addresses that stay valid for the whole call stay valid until the next fault. -/
theorem FaultsHeld.untilNext {env : Env σ} {r : Residency σ} {R : Set Uintptr}
    {Inv : Set PageOf → World σ → Prop} (h : FaultsHeld env r R Inv) :
    FaultsUntilNext env r R (fun K w => ∃ K', K ⊆ K' ∧ Inv K' w) where
  place_inj := by
    rintro K w p q a ⟨K', -, hinv⟩ hp hq
    exact h.place_inj hinv hp hq
  write := by
    rintro K w mem ⟨K', hK, hinv⟩ hmem
    refine ⟨K', hK, h.write hinv fun a ha => hmem a fun p hp => ?_⟩
    obtain ⟨q, hq, hpage⟩ := ha p hp
    exact ⟨q, fun hqK => hq (hK hqK), hpage⟩
  log := by
    rintro K w e ⟨K', hK, hinv⟩
    exact ⟨K', hK, h.log hinv⟩
  fault := by
    rintro K w p s dirty ⟨K', -, hinv⟩ hp htag
    obtain ⟨f, w', hrun, hf, hinv', -, hflat⟩ := h.fault dirty hinv hp htag
    exact ⟨f, w', hrun, hf, ⟨_, Set.singleton_subset_iff.mpr (Set.mem_insert _ _), hinv'⟩, hflat⟩

/-! ## The trace -/

/-- The page that an event faults. -/
def Event.faulted (r : Residency σ) : Event σ → Option PageOf
  | .pageFault p _ => r.pageOf p
  | _ => none

/-- What the loop has added to the trace when it has reached the pages of the first `reach` bytes of
the operand at `p`: a fault with the flag `dirty` for each of these pages, and calls of the function
on bytes of one frame, which holds their page. -/
structure SingleTrace (r : Residency σ) (s : StoreId) (p : Uintptr) (dirty : Byte) (reach : Nat)
    (es : List (Event σ)) : Prop where
  dirty : ∀ q d, Event.pageFault q d ∈ es → d = dirty
  once : (es.filterMap (Event.faulted r)).Nodup
  pages : ∀ q, q ∈ es.filterMap (Event.faulted r) ↔ ∃ i < reach, r.pageOf (cells p i) = some q
  inFrame : ∀ st dst0 dstOrig k, Event.funcSingle st dst0 dstOrig k ∈ es → ∃ f,
    r.frame st s ((r.geometry s).page (makeOriginalPointer dstOrig)) = some f ∧
    dst0 = (r.geometry s).frameAddress f ((r.geometry s).inPage (makeOriginalPointer dstOrig)) ∧
    (r.geometry s).inPage (makeOriginalPointer dstOrig) + k.toNat ≤ (r.geometry s).pageSize

section Trace

variable {r : Residency σ} {s : StoreId} {p : Uintptr} {dirty : Byte} {reach k : Nat}
  {es : List (Event σ)}

theorem singleTrace_nil : SingleTrace r s p dirty 0 [] := by
  constructor <;> simp

/-- A fault of a page that was not reached before. -/
theorem SingleTrace.fault (h : SingleTrace r s p dirty reach es) {q : PageOf}
    (hpage : r.pageOf (cells p reach) = some q)
    (hnew : ∀ i < reach, r.pageOf (cells p i) ≠ some q) {ts : List (Event σ)}
    (hts : ∀ e ∈ ts, e.IsTlb) :
    SingleTrace r s p dirty (reach + 1) (ts ++ .pageFault (cells p reach) dirty :: es) := by
  have hquiet : ts.filterMap (Event.faulted r) = [] := by
    rw [List.filterMap_eq_nil_iff]
    intro e he
    cases e with
    | pageFault => exact (hts _ he).elim
    | _ => rfl
  have hfaulted : (ts ++ .pageFault (cells p reach) dirty :: es).filterMap (Event.faulted r) =
      q :: es.filterMap (Event.faulted r) := by
    have hq : Event.faulted r (.pageFault (cells p reach) dirty : Event σ) = some q := hpage
    rw [List.filterMap_append, hquiet, List.filterMap_cons_some hq]
    rfl
  constructor
  · intro u d hmem
    rcases List.mem_append.mp hmem with hmem | hmem
    · exact (hts _ hmem).elim
    · rcases List.mem_cons.mp hmem with heq | hmem
      · cases heq
        rfl
      · exact h.dirty u d hmem
  · rw [hfaulted]
    refine List.nodup_cons.mpr ⟨?_, h.once⟩
    intro hmem
    obtain ⟨i, hi, hq⟩ := (h.pages q).mp hmem
    exact hnew i hi hq
  · intro q'
    rw [hfaulted, List.mem_cons, h.pages]
    constructor
    · rintro (rfl | ⟨i, hi, hq⟩)
      · exact ⟨reach, Nat.lt_succ_self _, hpage⟩
      · exact ⟨i, by omega, hq⟩
    · rintro ⟨i, hi, hq⟩
      rcases Nat.lt_succ_iff_lt_or_eq.mp hi with hlt | rfl
      · exact .inr ⟨i, hlt, hq⟩
      · rw [hpage] at hq
        exact .inl (Option.some.inj hq).symm
  · intro st dst0 dstOrig k hmem
    apply h.inFrame
    rcases List.mem_append.mp hmem with hmem | hmem
    · exact (hts _ hmem).elim
    · simpa using hmem

/-- A call on `k` bytes that lie in one page. -/
theorem SingleTrace.func (h : SingleTrace r s p dirty (reach + 1) es) (hk : 0 < k)
    (hsame : ∀ i < k, r.pageOf (cells p (reach + i)) = r.pageOf (cells p reach))
    {st : σ} {dst0 : Uintptr} {f : Nat}
    (hf : r.frame st s ((r.geometry s).page (makeOriginalPointer (cells p reach))) = some f)
    (hdst0 : dst0 = (r.geometry s).frameAddress f
      ((r.geometry s).inPage (makeOriginalPointer (cells p reach)))) (hk64 : k < 2 ^ 64)
    (hin : (r.geometry s).inPage (makeOriginalPointer (cells p reach)) + k ≤
      (r.geometry s).pageSize) :
    SingleTrace r s p dirty (reach + k)
      (.funcSingle st dst0 (cells p reach) (BitVec.ofNat 64 k) :: es) := by
  constructor
  · intro u d hmem
    apply h.dirty u d
    simpa using hmem
  · exact h.once
  · intro q
    refine (h.pages q).trans ?_
    constructor
    · rintro ⟨i, hi, hq⟩
      exact ⟨i, by omega, hq⟩
    · rintro ⟨i, hi, hq⟩
      by_cases hlt : i < reach + 1
      · exact ⟨i, hlt, hq⟩
      · refine ⟨reach, Nat.lt_succ_self _, ?_⟩
        rw [← hsame (i - reach) (by omega), Nat.add_sub_cancel' (by omega), hq]
  · intro st' dst0' dstOrig k' hmem
    rcases List.mem_cons.mp hmem with heq | hmem
    · cases heq
      exact ⟨f, hf, hdst0, by rwa [toNat_ofNat_of_lt hk64]⟩
    · exact h.inFrame st' dst0' dstOrig k' hmem

end Trace

/-! ## Links -/

section Links

variable {env : Env σ} {r : Residency σ} {R : Set Uintptr} {Inv : Set PageOf → World σ → Prop}
  {K : Set PageOf} {w : World σ} {s : StoreId} {p a : Uintptr} {n : Nat}
  (hrange : BulkRange env r p n) (htag : switchCase p = some s)
include hrange htag

theorem pageOf_cells {i : Nat} (hi : i < n) :
    r.pageOf (cells p i) =
      some (s, (r.geometry s).page (makeOriginalPointer p + BitVec.ofNat 64 i)) := by
  have htag' : switchCase (cells p i) = some s := (hrange.switchCase_add hi).trans htag
  have horig := hrange.makeOriginalPointer_add htag hi
  unfold Residency.pageOf
  rw [htag', Option.map_some]
  unfold cells
  rw [horig]

/-- The bytes of a chunk lie in one page. -/
theorem Linked.pageOf_add {i k : Nat} (h : Linked r K w (cells p i) a) (hk : i + k ≤ n)
    (dirty : Byte) (hleft : (k : Int) ≤ (operandOf env (cells p i) dirty).leftIn a) {j : Nat}
    (hj : j < k) : r.pageOf (cells p (i + j)) = r.pageOf (cells p i) := by
  have htag' : switchCase (cells p i) = some s := (hrange.switchCase_add (by omega)).trans htag
  have horig : makeOriginalPointer (cells p i) = makeOriginalPointer p + BitVec.ofNat 64 i :=
    hrange.makeOriginalPointer_add htag (by omega)
  have hrest : BulkRange env r (cells p i) (n - i) := hrange.add (by omega)
  have hlt := (r.geometry s).inPage_lt (makeOriginalPointer (cells p i))
  rw [h.leftIn_tagged hrest htag'] at hleft
  have hpage := (r.geometry s).page_add (i := j) (u := makeOriginalPointer (cells p i)) (by omega)
  rw [horig, add_ofNat_add] at hpage
  rw [pageOf_cells hrange htag (by omega), pageOf_cells hrange htag (by omega), hpage]

/-- A page that starts inside the range is not the page of an earlier byte. -/
theorem pageOf_ne_of_start (hn : n ≤ 2 ^ 60) {i j : Nat} (hij : i < j) (hj : j < n)
    (hstart : PageStart r (cells p j)) : r.pageOf (cells p i) ≠ r.pageOf (cells p j) := by
  obtain ⟨t, htag', hzero⟩ := hstart
  have hts : t = s := by
    rw [show switchCase (cells p j) = some s from (hrange.switchCase_add hj).trans htag] at htag'
    exact (Option.some.inj htag').symm
  subst hts
  have horig : makeOriginalPointer (cells p j) = makeOriginalPointer p + BitVec.ofNat 64 j :=
    hrange.makeOriginalPointer_add htag hj
  have hsize : (r.geometry t).pageSize ≤ 2 ^ 30 :=
    Nat.pow_le_pow_right (by decide) (hrange.bulkStore htag).pageBits
  rw [horig] at hzero
  rw [pageOf_cells hrange htag (by omega), pageOf_cells hrange htag hj]
  intro heq
  have hpages := congrArg Prod.snd (Option.some.inj heq)
  exact (r.geometry t).page_ne_of_start hij (by omega) hzero hpages

/-- A page fault links the operand. -/
theorem FaultsUntilNext.exists_pageFault (hfaults : FaultsUntilNext env r R Inv) {i : Nat}
    (hi : i = 0 ∨ i < n) (hp : cells p i ∈ R) (hinv : Inv K w) (dirty : Byte) :
    ∃ a w' K' ts, carmorPageFault env (cells p i) dirty w = .ok a w' ∧
      Linked r K' w' (cells p i) a ∧ Inv K' w' ∧ r.flat w'.toMachine = r.flat w.toMachine ∧
      w'.trace = ts ++ .pageFault (cells p i) dirty :: w.trace ∧ ∀ e ∈ ts, e.IsTlb := by
  have htag' : switchCase (cells p i) = some s := by
    rcases hi with rfl | hi
    · rw [cells_zero, htag]
    · exact (hrange.switchCase_add hi).trans htag
  have hstore := hrange.bulkStore htag
  obtain ⟨f, w', hrun, hf, hinv', hflat⟩ := hfaults.fault dirty hinv hp htag'
  obtain ⟨ts, htrace, hts⟩ :=
    ((carmorPageFault_eq_ok hstore.geometry hstore.link htag').mp hrun).tlbEvents
  refine ⟨_, w', _, ts, hrun, ⟨?_, ?_⟩, hinv', hflat, htrace, hts⟩
  · rw [r.place_tagged htag', hf]
    rfl
  · intro q hq
    unfold Residency.pageOf at hq
    rw [htag'] at hq
    cases hq
    exact Set.mem_singleton _

end Links

/-! ## The loop -/

/-- The operand and the function of an operation on one cached operand. -/
def cachedSingleOp (env : Env σ) (p : Uintptr) (dirty : Byte) (c : Int) (func : MemFunctionSingle)
    (partialReturn : Bool) : SingleOp where
  dest := operandOf env p dirty
  c := c
  isLstoreDirect := false
  func := func
  partialReturn := partialReturn
  aggregateRes := false

theorem callFuncSingle_cached {env : Env σ} {b : SingleOp} (hb : b.isLstoreDirect = false)
    {dst0 dstOrig : Uintptr} {k : SizeT} {w : World σ} {res : Uintptr} {mem : Memory}
    (hfunc : b.func dst0 b.c k w.mem = (res, mem)) :
    callFuncSingle env b dst0 dstOrig k w =
      .ok res ((w.log (.funcSingle w.store dst0 dstOrig k)).withMem mem) := by
  unfold callFuncSingle
  rw [hb, Lib.bind_of_ok (get_apply w), Lib.bind_of_ok (record_apply w _),
    Lib.bind_of_ok (onMem_apply _ _), World.log_mem, hfunc]
  rfl

/-- Calls of `func` on chunks that lie in one page of the operand, as `ChunkRule`. -/
structure SingleRule (r : Residency σ) (Inv : Set PageOf → World σ → Prop)
    (func : MemFunctionSingle) (c : Int) (partialReturn : Bool) (p : Uintptr) (n : Nat)
    (J : Nat → Memory → Prop) (Post : Uintptr → Memory → Prop) : Prop where
  exit : ∀ {m}, J n m → Post 0 m
  chunk : ∀ {K w done k dst0}, Inv K w → J done (r.flat w.toMachine) → done + k ≤ n →
    (∀ i < k, Linked r K w (cells p (done + i)) (cells dst0 i)) → ∃ res mem,
    func dst0 c (BitVec.ofNat 64 k) w.mem = (res, mem) ∧ Inv K (w.withMem mem) ∧
      if partialReturn ∧ res ≠ 0 then Post res (r.flat (w.withMem mem).toMachine)
      else J (done + k) (r.flat (w.withMem mem).toMachine)

section Loop

variable (r : Residency σ) (Inv : Set PageOf → World σ → Prop) (s : StoreId) (p : Uintptr)
  (dirty : Byte) (n : Nat) (J : Nat → Memory → Prop) (Post : Uintptr → Memory → Prop)
  (partialReturn : Bool) (w₀ : World σ)

/-- `done` bytes are processed in chunks, and the page of the next byte is linked. -/
structure SingleState (done : Nat) (dst0 : Uintptr) (w : World σ) : Prop where
  processed : J done (r.flat w.toMachine)
  start : done = 0 ∨ done < n
  held : ∃ K, Inv K w ∧ Linked r K w (cells p done) dst0
  trace : ∃ es, w.trace = es ++ w₀.trace ∧ SingleTrace r s p dirty (done + 1) es

/-- The operation has returned `res`. Where it does not stop early, it has reached all pages. -/
structure SinglePost (res : Uintptr) (w : World σ) : Prop where
  returned : Post res (r.flat w.toMachine)
  trace : ∃ es reach, w.trace = es ++ w₀.trace ∧ SingleTrace r s p dirty reach es ∧
    (0 < n → partialReturn = false → reach = n)

variable {env : Env σ} {r Inv s p dirty n J Post partialReturn w₀} {func : MemFunctionSingle}
  {c : Int} {done : Nat} {dst0 : Uintptr} {w : World σ} {R : Set Uintptr}
  (hfaults : FaultsUntilNext env r R Inv) (hrange : BulkRange env r p n)
  (htag : switchCase p = some s) (hn : n ≤ 2 ^ 60)
  (hrule : SingleRule r Inv func c partialReturn p n J Post)
include hfaults hrange htag hn hrule

/-- One chunk of the loop. -/
theorem SingleState.chunk {k : Nat} (h : SingleState r Inv s p dirty n J w₀ done dst0 w)
    (hpos : 0 < k) (hk : done + k ≤ n)
    (hleft : (k : Int) ≤ (operandOf env p dirty).leftIn dst0) :
    ∃ res K w₁, callFuncSingle env (cachedSingleOp env p dirty c func partialReturn) dst0
        (cells p done) (BitVec.ofNat 64 k) w = .ok res w₁ ∧ Inv K w₁ ∧
      Linked r K w₁ (cells p done) dst0 ∧
      (∃ es, w₁.trace = es ++ w₀.trace ∧ SingleTrace r s p dirty (done + k) es) ∧
      if partialReturn ∧ res ≠ 0 then Post res (r.flat w₁.toMachine)
      else J (done + k) (r.flat w₁.toMachine) := by
  obtain ⟨K, hinv, hlinked⟩ := h.held
  obtain ⟨es, htrace, hes⟩ := h.trace
  have hrest : BulkRange env r (cells p done) (n - done) := hrange.add (by omega)
  have htag' : switchCase (cells p done) = some s := (hrange.switchCase_add (by omega)).trans htag
  have hop : operandOf env (cells p done) dirty = operandOf env p dirty :=
    operandOf_add hrange (by omega) dirty
  rw [← hop] at hleft
  obtain ⟨e, he⟩ : ∃ e, e = Event.funcSingle w.store dst0 (cells p done) (BitVec.ofNat 64 k) :=
    ⟨_, rfl⟩
  have hlinked' : Linked r K (w.log e) (cells p done) dst0 := ⟨hlinked.place, hlinked.held⟩
  have hcells : ∀ i < k, Linked r K (w.log e) (cells p (done + i)) (cells dst0 i) := by
    intro i hi
    rw [← cells_add]
    exact hlinked'.add hrest dirty (by omega) fun _ _ => by omega
  obtain ⟨res, mem, hfunc, hinv', hres⟩ := hrule.chunk (hfaults.log hinv) h.processed hk hcells
  have hcall : callFuncSingle env (cachedSingleOp env p dirty c func partialReturn) dst0
      (cells p done) (BitVec.ofNat 64 k) w = .ok res ((w.log e).withMem mem) := by
    rw [he]
    exact callFuncSingle_cached rfl hfunc
  refine ⟨res, K, (w.log e).withMem mem, hcall, hinv', ⟨hlinked.place, hlinked.held⟩, ?_, hres⟩
  obtain ⟨f, hf, hdst0⟩ := hlinked.tagged htag'
  have hin := hlinked.leftIn_tagged hrest htag' dirty
  have hlt := (r.geometry s).inPage_lt (makeOriginalPointer (cells p done))
  refine ⟨e :: es, congrArg (e :: ·) htrace, ?_⟩
  rw [he]
  exact hes.func hpos (fun i hi => hlinked.pageOf_add hrange htag hk dirty hleft hi) hf hdst0 (by omega)
    (by omega)

omit hrule in
/-- The fault on the page after a chunk. -/
theorem exists_nextFault {left : Nat} (hR : ∀ i < n, cells p i ∈ R)
    (hleft : (operandOf env p dirty).leftIn dst0 = left) (hlt : done + left < n) {K : Set PageOf}
    {w₁ : World σ} (hinv : Inv K w₁) (hlinked : Linked r K w₁ (cells p done) dst0)
    (hJ : J (done + left) (r.flat w₁.toMachine))
    (htrace : ∃ es, w₁.trace = es ++ w₀.trace ∧ SingleTrace r s p dirty (done + left) es) :
    ∃ dst0' w₂, carmorPageFault env (cells p (done + left)) dirty w₁ = .ok dst0' w₂ ∧
      SingleState r Inv s p dirty n J w₀ (done + left) dst0' w₂ := by
  obtain ⟨es, htrace, hes⟩ := htrace
  have hstart : PageStart r (cells p (done + left)) :=
    hlinked.pageStart_chunk hrange dirty hlt htag hleft.symm
  obtain ⟨dst0', w₂, K₂, ts, hrun, hlinked₂, hinv₂, hflat, htrace₂, hts⟩ :=
    hfaults.exists_pageFault hrange htag (.inr hlt) (hR _ hlt) hinv dirty
  refine ⟨dst0', w₂, hrun, ?_, .inr hlt, ⟨K₂, hinv₂, hlinked₂⟩,
    ts ++ .pageFault (cells p (done + left)) dirty :: es, ?_, ?_⟩
  · rw [hflat]
    exact hJ
  · rw [htrace₂, htrace, List.append_assoc, List.cons_append]
  · apply hes.fault (pageOf_cells hrange htag hlt) _ hts
    intro i hi
    rw [← pageOf_cells hrange htag hlt]
    exact pageOf_ne_of_start hrange htag hn hi hlt hstart

/-- `SingleState` is an invariant of the loop. -/
theorem single_loopInvariant (hR : ∀ i < n, cells p i ∈ R) :
    SingleInvariant env (cachedSingleOp env p dirty c func partialReturn) n p
      (SingleState r Inv s p dirty n J w₀) (SinglePost r s p dirty n Post partialReturn w₀) := by
  refine ⟨?_, ?_, ?_⟩
  · intro dst0 w h total htotal
    obtain rfl := htotal rfl
    obtain ⟨es, htrace, hes⟩ := h.trace
    have hstart := h.start
    exact ⟨hrule.exit h.processed, es, n + 1, htrace, hes, by omega⟩
  · intro done left dst0 w h hleft hlt
    have hpos := leftIn_pos (hrange.sized dirty) dst0
    change (operandOf env p dirty).leftIn dst0 = left at hleft
    obtain ⟨res, K, w₁, hcall, hinv, hlinked, hevents, hres⟩ :=
      h.chunk hfaults hrange htag hn hrule (k := left) (by omega) (by omega) (by omega)
    refine ⟨res, w₁, hcall, ?_⟩
    by_cases hreturn : partialReturn ∧ res ≠ 0
    · rw [if_pos hreturn] at hres
      rw [if_pos (show (cachedSingleOp env p dirty c func partialReturn).partialReturn ∧ res ≠ 0
        from hreturn)]
      obtain ⟨es, htrace, hes⟩ := hevents
      refine ⟨hres, es, done + left, htrace, hes, ?_⟩
      intro _ hwhole
      rw [hwhole] at hreturn
      cases hreturn.1
    · rw [if_neg hreturn] at hres
      rw [if_neg (show ¬ ((cachedSingleOp env p dirty c func partialReturn).partialReturn ∧ res ≠ 0)
        from hreturn)]
      exact exists_nextFault hfaults hrange htag hn hR hleft hlt hinv hlinked hres hevents
  · intro done dst0 w h hdone hlast
    change (n : Int) ≤ done + (operandOf env p dirty).leftIn dst0 at hlast
    obtain ⟨res, K, w₁, hcall, -, -, ⟨es, htrace, hes⟩, hres⟩ :=
      h.chunk hfaults hrange htag hn hrule (k := n - done) (by omega) (by omega) (by omega)
    rw [Nat.add_sub_cancel' (Nat.le_of_lt hdone)] at hres hes
    refine ⟨res, w₁, hcall, ?_⟩
    by_cases hreturn : partialReturn ∧ res ≠ 0
    · rw [if_pos hreturn] at hres
      rw [if_pos (show (cachedSingleOp env p dirty c func partialReturn).partialReturn ∧ res ≠ 0
        from hreturn)]
      exact ⟨hres, es, n, htrace, hes, fun _ _ => rfl⟩
    · rw [if_neg hreturn] at hres
      rw [if_neg (show ¬ ((cachedSingleOp env p dirty c func partialReturn).partialReturn ∧ res ≠ 0)
        from hreturn)]
      intro total htotal
      obtain rfl := htotal rfl
      exact ⟨hrule.exit hres, es, n, htrace, hes, fun _ _ => rfl⟩

end Loop

/-- The wrapper on an operand in a cached store returns, and does to the flat memory what its
function does on chunks. -/
theorem memWrapperSingle_returns {env : Env σ} {r : Residency σ} {R : Set Uintptr}
    {Inv : Set PageOf → World σ → Prop} (hfaults : FaultsUntilNext env r R Inv) {p : Uintptr}
    {s : StoreId} {n : SizeT} (hrange : BulkRange env r p n.toNat) (htag : switchCase p = some s)
    {J : Nat → Memory → Prop} {Post : Uintptr → Memory → Prop} {func : MemFunctionSingle} {c : Int}
    {partialReturn : Bool} (hrule : SingleRule r Inv func c partialReturn p n.toNat J Post)
    {K : Set PageOf} {w : World σ} (hinv : Inv K w) (hJ : J 0 (r.flat w.toMachine))
    (hn : n.toNat < 2 ^ 31) {fuel : Nat} (hfuel : n.toNat < fuel)
    (hR : ∀ i, i = 0 ∨ i < n.toNat → cells p i ∈ R) (dirty : Byte) :
    ∃ res w', carmorMemWrapperSingle env fuel p c n func dirty partialReturn false w = .ok res w' ∧
      SinglePost r s p dirty n.toNat Post partialReturn w res w' := by
  have hstore := hrange.bulkStore htag
  obtain ⟨dst0, w₁, K₁, ts, hrun₁, hlinked, hinv₁, hflat, htrace, hts⟩ :=
    hfaults.exists_pageFault hrange htag (.inl rfl) (hR 0 (.inl rfl)) hinv dirty
  have hpage : r.pageOf (cells p 0) = some (s, (r.geometry s).page (makeOriginalPointer p)) := by
    rw [cells_zero, Residency.pageOf, htag]
    rfl
  have hstart : SingleState r Inv s p dirty n.toNat J w 0 dst0 w₁ := by
    refine ⟨?_, .inl rfl, ⟨K₁, hinv₁, hlinked⟩, ts ++ [.pageFault (cells p 0) dirty], ?_,
      singleTrace_nil.fault hpage (by omega) hts⟩
    · rw [hflat]
      exact hJ
    · rw [htrace, List.append_assoc]
      rfl
  obtain ⟨res, w', hrun, hpost⟩ := (single_loopInvariant hfaults hrange htag (by omega) hrule
    fun i hi => hR i (.inr hi)).returns_size (hrange.sized dirty) hn dst0 w₁ hstart hfuel
  refine ⟨res, w', ?_, hpost⟩
  rw [cells_zero] at hrun₁
  rw [memWrapperSingle_tagged fuel c n func dirty partialReturn false htag hstore.ne_lstore3,
    hstore.isCached]
  exact Lib.bind_eq_ok.mpr ⟨dst0, w₁, hrun₁, hrun⟩

end Carmor
