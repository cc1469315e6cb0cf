import Carmor.Proofs.FlatMemory

/-!
# The loop of `__carmor_mem_wrapper` on linked operands

On cached stores and native memory the loop calls its function on chunks in which both operands
are linked, and which end where a page of an operand ends. `ChunkRule` is what such a call does to
the flat memory. From it `memWrapper_returns` gets what the whole operation does.
-/

namespace Carmor

variable {σ : Type}

/-! ## Links that are held -/

/-- Between the worlds only pointers of `R` were faulted. -/
def FaultsIn (R : Set Uintptr) (w w' : World σ) : Prop :=
  ∃ es, w'.trace = es ++ w.trace ∧ ∀ p dirty, Event.pageFault p dirty ∈ es → p ∈ R

theorem FaultsIn.refl (R : Set Uintptr) (w : World σ) : FaultsIn R w w := ⟨[], rfl, by simp⟩

theorem FaultsIn.trans {R : Set Uintptr} {w w₁ w' : World σ} (h : FaultsIn R w w₁)
    (h' : FaultsIn R w₁ w') : FaultsIn R w w' := by
  obtain ⟨es, htrace, hes⟩ := h
  obtain ⟨fs, htrace', hfs⟩ := h'
  refine ⟨fs ++ es, by rw [htrace', htrace, List.append_assoc], ?_⟩
  intro p dirty hmem
  rcases List.mem_append.mp hmem with hmem | hmem
  · exact hfs p dirty hmem
  · exact hes p dirty hmem

/-- A passage through the TLB makes no page fault. -/
theorem LinkStep.faultsIn {env : Env σ} {s : StoreId} {u a : Uintptr} {ptrSize : Int}
    {dirty : Byte} {w w' : World σ} (h : LinkStep env s u ptrSize dirty w a w')
    (R : Set Uintptr) : FaultsIn R w w' := by
  obtain ⟨es, htrace, hes⟩ := h.tlbEvents
  exact ⟨es, htrace, fun p dirty hmem => (hes _ hmem).elim⟩

/-- The operand at `p` is linked at `a`: its byte is there, in a held page if it is tagged. -/
structure Linked (r : Residency σ) (K : Set PageOf) (w : World σ) (p a : Uintptr) : Prop where
  place : r.place w.store p = some a
  held : ∀ q, r.pageOf p = some q → q ∈ K

/-- Page faults at pointers of `R` have led from `w` to `w'`, and the held pages have grown from
`K` to `K'`. -/
structure Faulted (r : Residency σ) (R : Set Uintptr) (K : Set PageOf) (w : World σ)
    (K' : Set PageOf) (w' : World σ) : Prop where
  held : K ⊆ K'
  frame : ∀ q ∈ K, r.frame w'.store q.1 q.2 = r.frame w.store q.1 q.2
  flat : r.flat w'.toMachine = r.flat w.toMachine
  faults : FaultsIn R w w'

theorem Faulted.refl (r : Residency σ) (R : Set Uintptr) (K : Set PageOf) (w : World σ) :
    Faulted r R K w K w := ⟨fun _ h => h, fun _ _ => rfl, rfl, .refl R w⟩

theorem Linked.faulted {r : Residency σ} {R : Set Uintptr} {K K' : Set PageOf} {w w' : World σ}
    {p a : Uintptr} (h : Linked r K w p a) (hw : Faulted r R K w K' w') : Linked r K' w' p a := by
  constructor
  · rw [r.place_congr fun q hq => hw.frame q (h.held q hq), h.place]
  · exact fun q hq => hw.held (h.held q hq)

section Linked

variable {env : Env σ} {r : Residency σ} {R : Set Uintptr} {Inv : Set PageOf → World σ → Prop}
  {K : Set PageOf} {w : World σ} {p a : Uintptr} {m : Nat}

theorem Linked.tagged {s : StoreId} (h : Linked r K w p a) (htag : switchCase p = some s) :
    ∃ f, r.frame w.store s ((r.geometry s).page (makeOriginalPointer p)) = some f ∧
      a = (r.geometry s).frameAddress f ((r.geometry s).inPage (makeOriginalPointer p)) := by
  have hplace := h.place
  rw [r.place_tagged htag, Option.map_eq_some_iff] at hplace
  obtain ⟨f, hf, heq⟩ := hplace
  exact ⟨f, hf, heq.symm⟩

theorem Linked.native (h : Linked r K w p a) (htag : switchCase p = none) : a = p := by
  have hplace := h.place
  rw [r.place_native htag] at hplace
  split at hplace
  · exact (Option.some.inj hplace).symm
  · cases hplace

theorem operandOf_add {i : Nat} (h : BulkRange env r p m) (hi : i < m) (dirty : Byte) :
    operandOf env (p + BitVec.ofNat 64 i) dirty = operandOf env p dirty := by
  unfold operandOf
  rw [h.switchCase_add hi]

theorem Linked.leftIn_tagged {s : StoreId} (h : Linked r K w p a) (hrange : BulkRange env r p m)
    (htag : switchCase p = some s) (dirty : Byte) :
    (operandOf env p dirty).leftIn a =
      ((r.geometry s).pageSize - (r.geometry s).inPage (makeOriginalPointer p) : Nat) := by
  obtain ⟨f, -, rfl⟩ := h.tagged htag
  exact hrange.leftIn_tagged htag dirty

theorem Linked.leftIn_le (h : Linked r K w p a) (hrange : BulkRange env r p m) (dirty : Byte) :
    (operandOf env p dirty).leftIn a ≤ 2 ^ 30 := by
  cases htag : switchCase p with
  | none => rw [leftIn_native (by simp [operandOf, htag])]
  | some s =>
    have hle : (r.geometry s).pageSize ≤ 2 ^ 30 :=
      Nat.pow_le_pow_right (by decide) (hrange.bulkStore htag).pageBits
    rw [h.leftIn_tagged hrange htag]
    omega

/-- A native operand is where it points. -/
theorem linked_native (hrange : BulkRange env r p m) (htag : switchCase p = none) (hm : 0 < m) :
    Linked r K w p p := by
  constructor
  · cases hrange with
    | native hend hp hnative =>
      have hfirst := hnative 0 hm
      rw [BitVec.add_zero] at hfirst
      rw [r.place_native htag, if_pos hfirst]
    | @tagged s x hstore hp hx hend =>
      rw [hp, switchCase_makeMstorePtr s hx] at htag
      cases htag
  · intro q hq
    unfold Residency.pageOf at hq
    rw [htag] at hq
    cases hq

/-- The bytes up to the end of the page are linked with the operand. -/
theorem Linked.add (h : Linked r K w p a) (hrange : BulkRange env r p m) (dirty : Byte) {i : Nat}
    (hi : i < m) (hleft : ∀ s, switchCase p = some s → (i : Int) < (operandOf env p dirty).leftIn a) :
    Linked r K w (p + BitVec.ofNat 64 i) (a + BitVec.ofNat 64 i) := by
  have htag' := hrange.switchCase_add hi
  cases htag : switchCase p with
  | none =>
    rw [htag] at htag'
    have hnative : r.native (p + BitVec.ofNat 64 i) = true := by
      cases hrange with
      | native hend hp hnative => exact hnative i hi
      | @tagged s x hstore hp hx hend =>
        rw [hp, switchCase_makeMstorePtr s hx] at htag
        cases htag
    constructor
    · rw [r.place_native htag', if_pos hnative, h.native htag]
    · intro q hq
      unfold Residency.pageOf at hq
      rw [htag'] at hq
      cases hq
  | some s =>
    rw [htag] at htag'
    have hlt := (r.geometry s).inPage_lt (makeOriginalPointer p)
    have hin : (r.geometry s).inPage (makeOriginalPointer p) + i < (r.geometry s).pageSize := by
      have hileft := hleft s htag
      rw [h.leftIn_tagged hrange htag] at hileft
      omega
    have horig := hrange.makeOriginalPointer_add htag hi
    have hpage := (r.geometry s).page_add hin
    obtain ⟨f, hf, rfl⟩ := h.tagged htag
    constructor
    · rw [r.place_tagged htag', horig, hpage, hf, (r.geometry s).inPage_add hin,
        Option.map_some, (r.geometry s).frameAddress_add]
    · intro q hq
      apply h.held
      unfold Residency.pageOf at hq ⊢
      rw [htag', horig] at hq
      rw [htag, ← hq]
      simp [hpage]

/-- No page starts before the end of the operand's page. -/
theorem Linked.not_pageStart (h : Linked r K w p a) (hrange : BulkRange env r p m) (dirty : Byte)
    {i : Nat} (hi : i < m) (hpos : 0 < i) (hleft : (i : Int) < (operandOf env p dirty).leftIn a) :
    ¬ PageStart r (p + BitVec.ofNat 64 i) := by
  rintro ⟨s, htag', hstart⟩
  have htag : switchCase p = some s := (hrange.switchCase_add hi).symm.trans htag'
  have hlt := (r.geometry s).inPage_lt (makeOriginalPointer p)
  rw [h.leftIn_tagged hrange htag] at hleft
  rw [hrange.makeOriginalPointer_add htag hi, (r.geometry s).inPage_add (by omega)] at hstart
  omega

/-- A page starts at the end of the operand's page. -/
theorem Linked.pageStart {s : StoreId} (h : Linked r K w p a) (hrange : BulkRange env r p m)
    (dirty : Byte) {i : Nat} (hi : i < m) (htag : switchCase p = some s)
    (hleft : (i : Int) = (operandOf env p dirty).leftIn a) :
    PageStart r (p + BitVec.ofNat 64 i) := by
  have hlt := (r.geometry s).inPage_lt (makeOriginalPointer p)
  rw [h.leftIn_tagged hrange htag] at hleft
  refine ⟨s, (hrange.switchCase_add hi).trans htag, ?_⟩
  rw [hrange.makeOriginalPointer_add htag hi]
  exact (r.geometry s).inPage_add_rest (by omega)

/-- So a page starts after a chunk that is all of the rest of the operand's page. -/
theorem Linked.pageStart_chunk {s : StoreId} {done k : Nat} (h : Linked r K w (cells p done) a)
    (hrange : BulkRange env r p m) (dirty : Byte) (hlt : done + k < m) (htag : switchCase p = some s)
    (hleft : (k : Int) = (operandOf env p dirty).leftIn a) : PageStart r (cells p (done + k)) := by
  have hdone : done < m := by omega
  have hrest : BulkRange env r (cells p done) (m - done) := hrange.add hdone
  have hop : operandOf env (cells p done) dirty = operandOf env p dirty :=
    operandOf_add hrange hdone dirty
  rw [← cells_add]
  exact h.pageStart hrest dirty (by omega) ((hrange.switchCase_add hdone).trans htag)
    (by rw [hop, hleft])

variable (hfaults : FaultsHeld env r R Inv)
include hfaults

/-- A page fault links a tagged operand. -/
theorem exists_pageFault {s : StoreId} (hstore : BulkStore env r s) (htag : switchCase p = some s)
    (hp : p ∈ R) (hinv : Inv K w) (dirty : Byte) :
    ∃ a w' K', carmorPageFault env p dirty w = .ok a w' ∧ Linked r K' w' p a ∧ Inv K' w' ∧
      Faulted r R K w K' w' := by
  obtain ⟨f, w', hrun, hf, hinv', hkept, hflat⟩ := hfaults.fault dirty hinv hp htag
  refine ⟨_, w', _, hrun, ⟨?_, ?_⟩, hinv', ⟨Set.subset_insert _ _, hkept, hflat, ?_⟩⟩
  · rw [r.place_tagged htag, hf]
    rfl
  · intro q hq
    unfold Residency.pageOf at hq
    rw [htag] at hq
    cases hq
    exact Set.mem_insert _ _
  · have hlink := (carmorPageFault_eq_ok hstore.geometry hstore.link htag).mp hrun
    refine FaultsIn.trans ⟨[.pageFault p dirty], rfl, ?_⟩ (hlink.faultsIn R)
    intro q d hmem
    cases List.mem_singleton.mp hmem
    exact hp

/-- An operand moves on by a chunk. -/
theorem exists_advanceLinked (hrange : BulkRange env r p m) (hl : Linked r K w p a)
    (hinv : Inv K w) (dirty : Byte) {left : Nat}
    (hleft : (left : Int) ≤ (operandOf env p dirty).leftIn a) (hm : left < m) (hR : p + BitVec.ofNat 64 left ∈ R) :
    ∃ a' w' K', advanceLinked env (operandOf env p dirty) ((operandOf env p dirty).leftIn a) left a
        (p + BitVec.ofNat 64 left) w = .ok a' w' ∧
      Linked r K' w' (p + BitVec.ofNat 64 left) a' ∧ Inv K' w' ∧ Faulted r R K w K' w' := by
  unfold advanceLinked
  by_cases hend : (left : Int) = (operandOf env p dirty).leftIn a ∧
      (operandOf env p dirty).linked = true
  · rw [if_pos hend]
    obtain ⟨s, htag⟩ : ∃ s, switchCase p = some s := by
      cases htag : switchCase p with
      | none =>
        have hlinked := hend.2
        simp [Operand.linked, operandOf, htag] at hlinked
      | some s => exact ⟨s, rfl⟩
    exact exists_pageFault hfaults (hrange.bulkStore htag)
      ((hrange.switchCase_add hm).trans htag) hR hinv dirty
  · rw [if_neg hend, ofInt_natCast]
    refine ⟨_, w, K, rfl, ?_, hinv, .refl r R K w⟩
    apply hl.add hrange dirty hm
    intro s htag
    have hlinked : (operandOf env p dirty).linked = true := by
      simp [Operand.linked, operandOf, htag]
    have hne : (left : Int) ≠ (operandOf env p dirty).leftIn a := fun heq => hend ⟨heq, hlinked⟩
    omega

/-- An operand moves on inside its range. -/
theorem exists_advance (hrange : BulkRange env r p m) {i left : Nat} (hi : i + left < m)
    (hl : Linked r K w (cells p i) a) (hinv : Inv K w) (dirty : Byte)
    (hleft : (left : Int) ≤ (operandOf env p dirty).leftIn a) (hR : cells p (i + left) ∈ R) :
    ∃ a' w' K', advanceLinked env (operandOf env p dirty) ((operandOf env p dirty).leftIn a) left a
        (cells p (i + left)) w = .ok a' w' ∧
      Linked r K' w' (cells p (i + left)) a' ∧ Inv K' w' ∧ Faulted r R K w K' w' := by
  have hop : operandOf env (cells p i) dirty = operandOf env p dirty :=
    operandOf_add hrange (by omega) dirty
  have hrest : BulkRange env r (cells p i) (m - i) := hrange.add (by omega)
  rw [← cells_add] at hR ⊢
  rw [← hop] at hleft ⊢
  exact exists_advanceLinked hfaults hrest hl hinv dirty hleft (by omega) hR

end Linked

/-! ## Chunks -/

/-- A page of an operand starts at its `i`-th byte. -/
def PageCut (r : Residency σ) (dest src : Uintptr) (i : Nat) : Prop :=
  PageStart r (cells dest i) ∨ PageStart r (cells src i)

/-- The operands and the function of an operation on cached stores and native memory. -/
def cachedOp (env : Env σ) (vl : Uintptr) (vlDirty : Byte) (vr : Uintptr) (vrDirty : Byte)
    (func : MemFunction) (partialReturn : Bool) : BulkOp where
  vl := operandOf env vl vlDirty
  vr := operandOf env vr vrDirty
  isLstoreDirect := false
  func := func
  partialReturn := partialReturn

/-- Calls of `func` on chunks that lie in one page of each operand. `J done` holds of the flat
memory when `done` bytes are processed, and `Post` when the operation has returned. -/
structure ChunkRule (r : Residency σ) (Inv : Set PageOf → World σ → Prop) (func : MemFunction)
    (partialReturn : Bool) (vl vr : Uintptr) (n : Nat) (J : Nat → Memory → Prop)
    (Post : Int → Memory → Prop) : Prop where
  exit : ∀ {m}, J n m → Post 0 m
  chunk : ∀ {K w done k vl0 vr0}, Inv K w → J done (r.flat w.toMachine) →
    (done = 0 ∨ PageCut r vl vr done) → done + k ≤ n →
    (∀ i, done < i → i < done + k → ¬ PageCut r vl vr i) →
    (∀ i < k, Linked r K w (cells vl (done + i)) (cells vl0 i) ∧
      Linked r K w (cells vr (done + i)) (cells vr0 i)) → ∃ res mem,
    func vl0 vr0 (BitVec.ofNat 64 k) w.mem = (res, mem) ∧ Inv K (w.withMem mem) ∧
      if res = 0 then J (done + k) (r.flat (w.withMem mem).toMachine)
      else partialReturn = true ∧ Post res (r.flat (w.withMem mem).toMachine)

/-! ## The loop -/

section Loop

variable (r : Residency σ) (R : Set Uintptr) (Inv : Set PageOf → World σ → Prop) (vl vr : Uintptr)
  (n : Nat) (J : Nat → Memory → Prop) (w₀ : World σ)

/-- `done` bytes are processed in chunks, and the rest of both operands is linked. -/
structure LinkedState (done : Nat) (vl0 vr0 : Uintptr) (w : World σ) : Prop where
  processed : J done (r.flat w.toMachine)
  start : done = 0 ∨ PageCut r vl vr done
  held : ∃ K, Inv K w ∧
    (done < n → Linked r K w (cells vl done) vl0 ∧ Linked r K w (cells vr done) vr0)
  faults : FaultsIn R w₀ w

/-- The operation has returned `res`. -/
structure LinkedPost (Post : Int → Memory → Prop) (res : Int) (w : World σ) : Prop where
  returned : Post res (r.flat w.toMachine)
  held : ∃ K, Inv K w
  faults : FaultsIn R w₀ w

variable {env : Env σ} {r R Inv vl vr n J w₀} {func : MemFunction} {partialReturn : Bool}
  {Post : Int → Memory → Prop} {dl dr : Byte} {done : Nat} {vl0 vr0 : Uintptr} {w : World σ}
  (hfaults : FaultsHeld env r R Inv) (hl : BulkRange env r vl n) (hr : BulkRange env r vr n)
include hl hr

variable (dl dr) in
/-- The chunk of an iteration is at most the rest of either operand's page. -/
theorem le_leftIn {k : Nat} (hdone : done < n)
    (hk : k ≤ (cachedOp env vl dl vr dr func partialReturn).minLeft vl0 vr0) :
    (k : Int) ≤ (operandOf env (cells vl done) dl).leftIn vl0 ∧
      (k : Int) ≤ (operandOf env (cells vr done) dr).leftIn vr0 := by
  have hposl := leftIn_pos (hl.sized dl) vl0
  have hposr := leftIn_pos (hr.sized dr) vr0
  have hmin : k ≤ min ((operandOf env vl dl).leftIn vl0).toNat
    ((operandOf env vr dr).leftIn vr0).toNat := hk
  unfold cells
  rw [operandOf_add hl hdone dl, operandOf_add hr hdone dr]
  omega

variable (dl dr) in
include hfaults in
/-- One chunk of the loop. -/
theorem LinkedState.chunk (hrule : ChunkRule r Inv func partialReturn vl vr n J Post)
    {k : Nat} (h : LinkedState r R Inv vl vr n J w₀ done vl0 vr0 w)
    (hdone : done < n) (hk : done + k ≤ n)
    (hleft : k ≤ (cachedOp env vl dl vr dr func partialReturn).minLeft vl0 vr0) :
    ∃ res K w₁, chunkCall env (cachedOp env vl dl vr dr func partialReturn) vl0 vr0 (cells vl done)
        (cells vr done) k w = .ok res w₁ ∧ Inv K w₁ ∧ Linked r K w₁ (cells vl done) vl0 ∧
      Linked r K w₁ (cells vr done) vr0 ∧ FaultsIn R w₀ w₁ ∧
      if res = 0 then J (done + k) (r.flat w₁.toMachine)
      else partialReturn = true ∧ Post res (r.flat w₁.toMachine) := by
  obtain ⟨K, hinv, hlinked⟩ := h.held
  obtain ⟨hlp, hlq⟩ := hlinked hdone
  have hp : BulkRange env r (cells vl done) (n - done) := hl.add hdone
  have hq : BulkRange env r (cells vr done) (n - done) := hr.add hdone
  obtain ⟨hkl, hkr⟩ := le_leftIn dl dr hl hr hdone hleft
  obtain ⟨e, he⟩ : ∃ e, e = Event.func w.store vl0 vr0 (cells vl done) (cells vr done)
    (BitVec.ofNat 64 k) := ⟨_, rfl⟩
  have hlp' : Linked r K (w.log e) (cells vl done) vl0 := ⟨hlp.place, hlp.held⟩
  have hlq' : Linked r K (w.log e) (cells vr done) vr0 := ⟨hlq.place, hlq.held⟩
  -- a page start between two chunks would have ended the first one
  have hinside : ∀ i, done < i → i < done + k → ¬ PageCut r vl vr i := by
    intro i hi hik hcut
    obtain ⟨j, rfl⟩ := Nat.exists_eq_add_of_lt hi
    unfold PageCut at hcut
    rw [Nat.add_assoc, ← cells_add, ← cells_add] at hcut
    rcases hcut with hcut | hcut
    · exact hlp.not_pageStart hp dl (by omega) (by omega) (by omega) hcut
    · exact hlq.not_pageStart hq dr (by omega) (by omega) (by omega) hcut
  have hcells : ∀ i < k, Linked r K (w.log e) (cells vl (done + i)) (cells vl0 i) ∧
      Linked r K (w.log e) (cells vr (done + i)) (cells vr0 i) := by
    intro i hi
    rw [← cells_add, ← cells_add]
    exact ⟨hlp'.add hp dl (by omega) fun _ _ => by omega,
      hlq'.add hq dr (by omega) fun _ _ => by omega⟩
  obtain ⟨res, mem, hfunc, hinv', hres⟩ := hrule.chunk (hfaults.log hinv) h.processed h.start hk
    hinside hcells
  have hfunc' : (cachedOp env vl dl vr dr func partialReturn).func vl0 vr0 (BitVec.ofNat 64 k) w.mem =
    (res, mem) := hfunc
  refine ⟨res, K, (w.log e).withMem mem, ?_, hinv', ⟨hlp.place, hlp.held⟩, ⟨hlq.place, hlq.held⟩,
    h.faults.trans ⟨[e], rfl, by simp [he]⟩, hres⟩
  rw [chunkCall_cached rfl, BulkOp.afterChunk, hfunc', he]

/-- The chunk ends where a page of a tagged operand ends. -/
theorem pageCut_minLeft (htagged : ∃ s, switchCase vl = some s ∨ switchCase vr = some s)
    {K : Set PageOf} (hlp : Linked r K w (cells vl done) vl0)
    (hlq : Linked r K w (cells vr done) vr0)
    (hm : done + (cachedOp env vl dl vr dr func partialReturn).minLeft vl0 vr0 < n) :
    PageCut r vl vr (done + (cachedOp env vl dl vr dr func partialReturn).minLeft vl0 vr0) := by
  have hdone : done < n := by omega
  have hp : BulkRange env r (cells vl done) (n - done) := hl.add hdone
  have hq : BulkRange env r (cells vr done) (n - done) := hr.add hdone
  have hop : operandOf env (cells vl done) dl = operandOf env vl dl := operandOf_add hl hdone dl
  have hoq : operandOf env (cells vr done) dr = operandOf env vr dr := operandOf_add hr hdone dr
  have hposl := leftIn_pos (hl.sized dl) vl0
  have hposr := leftIn_pos (hr.sized dr) vr0
  obtain ⟨k, hk⟩ : ∃ k, (cachedOp env vl dl vr dr func partialReturn).minLeft vl0 vr0 = k := ⟨_, rfl⟩
  have hmin : min ((operandOf env vl dl).leftIn vl0).toNat
    ((operandOf env vr dr).leftIn vr0).toNat = k := hk
  rw [hk] at hm ⊢
  -- an operand whose page ends with the chunk
  have hleft : ∀ s, switchCase vl = some s →
      (operandOf env vl dl).leftIn vl0 ≤ (operandOf env vr dr).leftIn vr0 →
      PageStart r (cells vl (done + k)) := by
    intro s htag hle
    exact hlp.pageStart_chunk hl dl hm htag (by omega)
  have hright : ∀ s, switchCase vr = some s →
      (operandOf env vr dr).leftIn vr0 ≤ (operandOf env vl dl).leftIn vl0 →
      PageStart r (cells vr (done + k)) := by
    intro s htag hle
    exact hlq.pageStart_chunk hr dr hm htag (by omega)
  have hboundl := hlp.leftIn_le hp dl
  have hboundr := hlq.leftIn_le hq dr
  rw [hop] at hboundl
  rw [hoq] at hboundr
  have hnativel : switchCase vl = none → (operandOf env vl dl).leftIn vl0 = 2 ^ 30 := by
    intro htag
    exact leftIn_native (by simp [operandOf, htag]) vl0
  have hnativer : switchCase vr = none → (operandOf env vr dr).leftIn vr0 = 2 ^ 30 := by
    intro htag
    exact leftIn_native (by simp [operandOf, htag]) vr0
  by_cases hle : (operandOf env vl dl).leftIn vl0 ≤ (operandOf env vr dr).leftIn vr0
  · cases htag : switchCase vl with
    | some s => exact .inl (hleft s htag hle)
    | none =>
      obtain ⟨s, hs | hs⟩ := htagged
      · rw [htag] at hs
        cases hs
      · have hfull := hnativel htag
        exact .inr (hright s hs (by omega))
  · cases htag : switchCase vr with
    | some s => exact .inr (hright s htag (by omega))
    | none =>
      have hfull := hnativer htag
      omega

include hfaults in
/-- `LinkedState` is an invariant of the loop. -/
theorem linked_loopInvariant (hrule : ChunkRule r Inv func partialReturn vl vr n J Post)
    (htagged : ∃ s, switchCase vl = some s ∨ switchCase vr = some s)
    (hR : ∀ i < n, cells vl i ∈ R ∧ cells vr i ∈ R) :
    LoopInvariant env (cachedOp env vl dl vr dr func partialReturn) n vl vr
      (LinkedState r R Inv vl vr n J w₀) (LinkedPost r R Inv w₀ Post) := by
  refine ⟨?_, ?_, ?_⟩
  · intro vl0 vr0 w h
    obtain ⟨K, hinv, -⟩ := h.held
    exact ⟨hrule.exit h.processed, ⟨K, hinv⟩, h.faults⟩
  · intro done left vl0 vr0 w h hleft hlt
    obtain ⟨res, K, w₁, hcall, hinv, hlp, hlq, hfaults₁, hres⟩ := h.chunk dl dr hfaults hl hr hrule
      (k := left) (by omega) (by omega) (by omega)
    refine ⟨res, w₁, hcall, ?_⟩
    by_cases hzero : res = 0
    · rw [if_pos hzero] at hres
      rw [if_neg fun hne => hne.2 hzero]
      have hcut := pageCut_minLeft hl hr htagged hlp hlq (hleft.symm ▸ hlt)
      rw [hleft] at hcut
      have hposl := leftIn_pos (hl.sized dl) vl0
      have hposr := leftIn_pos (hr.sized dr) vr0
      have hmin : min ((operandOf env vl dl).leftIn vl0).toNat
        ((operandOf env vr dr).leftIn vr0).toNat = left := hleft
      obtain ⟨vl0', w₂, K₂, hrunl, hlp₂, hinv₂, hfaulted₂⟩ := exists_advance hfaults hl hlt hlp hinv dl
        (by omega) (hR _ hlt).1
      obtain ⟨vr0', w₃, K₃, hrunr, hlq₃, hinv₃, hfaulted₃⟩ := exists_advance hfaults hr hlt
        (hlq.faulted hfaulted₂) hinv₂ dr (by omega) (hR _ hlt).2
      refine ⟨vl0', vr0', w₃, chunkAdvance_of_ok hrunl hrunr, ?_, .inr hcut,
        ⟨K₃, hinv₃, fun _ => ⟨hlp₂.faulted hfaulted₃, hlq₃⟩⟩,
        hfaults₁.trans (hfaulted₂.faults.trans hfaulted₃.faults)⟩
      rw [hfaulted₃.flat, hfaulted₂.flat]
      exact hres
    · rw [if_neg hzero] at hres
      rw [if_pos ⟨hres.1, hzero⟩]
      exact ⟨hres.2, ⟨K, hinv⟩, hfaults₁⟩
  · intro done vl0 vr0 w h hdone hlast
    obtain ⟨res, K, w₁, hcall, hinv, -, -, hfaults₁, hres⟩ := h.chunk dl dr hfaults hl hr hrule
      (k := n - done) hdone (by omega) (by omega)
    rw [Nat.add_sub_cancel' (Nat.le_of_lt hdone)] at hres
    refine ⟨res, w₁, hcall, ?_⟩
    by_cases hzero : res = 0
    · rw [if_pos hzero] at hres
      rw [if_neg fun hne => hne.2 hzero]
      exact ⟨hrule.exit hres, ⟨K, hinv⟩, hfaults₁⟩
    · rw [if_neg hzero] at hres
      rw [if_pos ⟨hres.1, hzero⟩]
      exact ⟨hres.2, ⟨K, hinv⟩, hfaults₁⟩

end Loop

/-! ## The wrapper -/

section Wrapper

variable {env : Env σ} {r : Residency σ} {R : Set Uintptr} {Inv : Set PageOf → World σ → Prop}

/-- The first link of an operand. -/
theorem exists_linkOperand (hfaults : FaultsHeld env r R Inv) {K : Set PageOf} {w : World σ}
    {p : Uintptr} {m : Nat} (hrange : BulkRange env r p m) (hinv : Inv K w) (hR : p ∈ R)
    (dirty : Byte) :
    ∃ a w' K', linkOperand env (operandOf env p dirty) p w = .ok a w' ∧
      (0 < m → Linked r K' w' p a) ∧ Inv K' w' ∧ Faulted r R K w K' w' := by
  unfold linkOperand
  cases htag : switchCase p with
  | some s =>
    rw [if_pos (by simp [Operand.linked, operandOf, htag])]
    obtain ⟨a, w', K', hrun, hl, hinv', hw⟩ :=
      exists_pageFault hfaults (hrange.bulkStore htag) htag hR hinv dirty
    exact ⟨a, w', K', hrun, fun _ => hl, hinv', hw⟩
  | none =>
    rw [if_neg (by simp [Operand.linked, operandOf, htag])]
    exact ⟨p, w, K, rfl, linked_native hrange htag, hinv, .refl r R K w⟩

variable {vl vr : Uintptr} {n : SizeT} {fuel : Nat} {w : World σ} {func : MemFunction}
  {partialReturn : Bool} {J : Nat → Memory → Prop} {Post : Int → Memory → Prop} (dl dr : Byte)
  (hfaults : FaultsHeld env r R Inv) (hl : BulkRange env r vl n.toNat)
  (hr : BulkRange env r vr n.toNat) (hinv : Inv ∅ w)
  (hrule : ChunkRule r Inv func partialReturn vl vr n.toNat J Post) (hJ : J 0 (r.flat w.toMachine))
include hl hr hinv hrule hJ

/-- On native operands the wrapper is one call of the function. -/
theorem memWrapper_native_returns (htagl : switchCase vl = none) (htagr : switchCase vr = none) :
    ∃ res w', carmorMemWrapper env fuel vl dl vr dr n func partialReturn w = .ok res w' ∧
      LinkedPost r R Inv w Post res w' := by
  have hln := hl.isCarmorPtr_eq
  have hrn := hr.isCarmorPtr_eq
  rw [htagl] at hln
  rw [htagr] at hrn
  have hinside : ∀ i, 0 < i → i < 0 + n.toNat → ¬ PageCut r vl vr i := by
    intro i hi hin hcut
    unfold PageCut PageStart cells at hcut
    rw [hl.switchCase_add (by omega), hr.switchCase_add (by omega), htagl, htagr] at hcut
    simp at hcut
  have hcells : ∀ i < n.toNat, Linked r ∅ w (cells vl (0 + i)) (cells vl i) ∧
      Linked r ∅ w (cells vr (0 + i)) (cells vr i) := by
    intro i hi
    rw [Nat.zero_add]
    exact ⟨(linked_native hl htagl (by omega)).add hl dl hi (by simp [htagl]),
      (linked_native hr htagr (by omega)).add hr dr hi (by simp [htagr])⟩
  obtain ⟨res, mem, hfunc, hinv', hres⟩ := hrule.chunk hinv hJ (.inl rfl) (by omega) hinside hcells
  rw [BitVec.ofNat_toNat, BitVec.setWidth_eq] at hfunc
  refine ⟨res, w.withMem mem, ?_, ?_, ⟨∅, hinv'⟩, [], rfl, by simp⟩
  · rw [memWrapper_native fuel dl dr n func partialReturn hln hrn, onMem_apply, hfunc]
  · by_cases hzero : res = 0
    · rw [if_pos hzero, Nat.zero_add] at hres
      exact hzero ▸ hrule.exit hres
    · rw [if_neg hzero] at hres
      exact hres.2

include hfaults

/-- On operands of which one is tagged the wrapper runs its loop. -/
theorem memWrapper_tagged_returns (htagged : ∃ s, switchCase vl = some s ∨ switchCase vr = some s)
    (hn : n.toNat < 2 ^ 31) (hfuel : n.toNat < fuel) (hR : vl ∈ R ∧ vr ∈ R)
    (hR' : ∀ i < n.toNat, cells vl i ∈ R ∧ cells vr i ∈ R) :
    ∃ res w', carmorMemWrapper env fuel vl dl vr dr n func partialReturn w = .ok res w' ∧
      LinkedPost r R Inv w Post res w' := by
  have hln := hl.isCarmorPtr_eq
  have hrn := hr.isCarmorPtr_eq
  have hsome : (isCarmorPtr vl || isCarmorPtr vr) = true := by
    obtain ⟨s, hs | hs⟩ := htagged
    · simp [hln, hs]
    · simp [hrn, hs]
  have hdirect : lstoreTypeIsDirect env (if isCarmorPtr vl then vl else vr) = pure false := by
    cases htagl : switchCase vl with
    | some s =>
      rw [hln, htagl, if_pos (by simp), lstoreTypeIsDirect_eq htagl, (hl.bulkStore htagl).isCached]
    | none =>
      obtain ⟨s, hs | hs⟩ := htagged
      · rw [htagl] at hs
        cases hs
      · rw [hln, htagl, if_neg (by simp), lstoreTypeIsDirect_eq hs, (hr.bulkStore hs).isCached]
  obtain ⟨vl0, w₁, K₁, hrunl, hlp, hinv₁, hfaulted₁⟩ := exists_linkOperand hfaults hl hinv hR.1 dl
  obtain ⟨vr0, w₂, K₂, hrunr, hlq, hinv₂, hfaulted₂⟩ := exists_linkOperand hfaults hr hinv₁ hR.2 dr
  have hstart : LinkedState r R Inv vl vr n.toNat J w 0 vl0 vr0 w₂ := by
    refine ⟨?_, .inl rfl, ⟨K₂, hinv₂, fun hpos => ?_⟩, hfaulted₁.faults.trans hfaulted₂.faults⟩
    · rw [hfaulted₂.flat, hfaulted₁.flat]
      exact hJ
    · rw [cells_zero, cells_zero]
      exact ⟨(hlp hpos).faulted hfaulted₂, hlq hpos⟩
  obtain ⟨res, w', hrun, hpost⟩ :=
    (linked_loopInvariant hfaults hl hr hrule htagged hR').returns_size ⟨hl.sized dl, hr.sized dr⟩
      hn vl0 vr0 w₂ hstart hfuel
  refine ⟨res, w', ?_, hpost⟩
  rw [memWrapper_eq fuel dl dr n func partialReturn hsome hdirect (by simp)
    (hl.operandParameters_eq dl) (hr.operandParameters_eq dr)]
  exact Lib.bind_eq_ok.mpr ⟨vl0, w₁, hrunl, Lib.bind_eq_ok.mpr ⟨vr0, w₂, hrunr, hrun⟩⟩

/-- The wrapper returns, and does to the flat memory what its function does on chunks. -/
theorem memWrapper_returns (hn : n.toNat < 2 ^ 31) (hfuel : n.toNat < fuel) (hR : vl ∈ R ∧ vr ∈ R)
    (hR' : ∀ i < n.toNat, cells vl i ∈ R ∧ cells vr i ∈ R) :
    ∃ res w', carmorMemWrapper env fuel vl dl vr dr n func partialReturn w = .ok res w' ∧
      LinkedPost r R Inv w Post res w' := by
  cases htagl : switchCase vl with
  | some s =>
    exact memWrapper_tagged_returns dl dr hfaults hl hr hinv hrule hJ ⟨s, .inl htagl⟩ hn hfuel hR hR'
  | none =>
    cases htagr : switchCase vr with
    | some s =>
      exact memWrapper_tagged_returns dl dr hfaults hl hr hinv hrule hJ ⟨s, .inr htagr⟩ hn hfuel hR
        hR'
    | none => exact memWrapper_native_returns dl dr hl hr hinv hrule hJ htagl htagr

end Wrapper

end Carmor
