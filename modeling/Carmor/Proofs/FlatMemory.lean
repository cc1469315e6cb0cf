import Carmor.Lib.Copy
import Carmor.Proofs.BulkSteps
import Carmor.Proofs.LinkSteps

/-!
# The flat memory of a program

A program with tagged pointers sees one flat memory: native bytes, and the bytes of the stores'
pages wherever these are at the moment. `Residency.place` puts a byte of the program at an
address of the machine, or nowhere if its page is not in a cache; `Residency.flat` is the flat
memory. `FaultsHeld` is what a call assumes of the stores: page faults return addresses in frames
that stay valid until the call ends.
-/

namespace Carmor

variable {σ : Type}

/-! ## Addresses inside a page -/

namespace StoreGeometry

variable (g : StoreGeometry) {u : Uintptr} {i : Nat}

theorem page_end_le (u : Uintptr) : g.page u * g.pageSize + g.pageSize ≤ 2 ^ 64 := by
  have hlt : g.page u + 1 ≤ 2 ^ (64 - g.pageBits) := g.page_lt u
  have hle := Nat.mul_le_mul_left g.pageSize hlt
  rw [g.pageSize_mul, Nat.mul_add, Nat.mul_one, Nat.mul_comm] at hle
  exact hle

/-- Storage offsets wrap at the end of the address space. -/
theorem offset_add_mod (u : Uintptr) (i : Nat) :
    g.offset (u + BitVec.ofNat 64 i) = (g.offset u + i) % 2 ^ 64 := by
  have hsub : u + BitVec.ofNat 64 i - g.storageBase = u - g.storageBase + BitVec.ofNat 64 i := by
    bv_omega
  rw [offset, hsub, BitVec.toNat_add, BitVec.toNat_ofNat, Nat.add_mod_mod]
  rfl

/-- They do not wrap inside a page. -/
theorem offset_add (hi : g.inPage u + i < g.pageSize) :
    g.offset (u + BitVec.ofNat 64 i) = g.offset u + i := by
  have hend := g.page_end_le u
  have hoff := g.offset_eq u
  rw [g.offset_add_mod, Nat.mod_eq_of_lt (by omega)]

theorem page_add (hi : g.inPage u + i < g.pageSize) :
    g.page (u + BitVec.ofNat 64 i) = g.page u := by
  apply g.page_eq_of_offset hi
  rw [g.offset_add hi, g.offset_eq u]
  omega

theorem inPage_add (hi : g.inPage u + i < g.pageSize) :
    g.inPage (u + BitVec.ofNat 64 i) = g.inPage u + i := by
  apply g.inPage_eq_of_offset (p := g.page u) hi
  rw [g.offset_add hi, g.offset_eq u]
  omega

/-- The byte after the last one of a page starts a page. -/
theorem inPage_add_rest (h : g.inPage u + i = g.pageSize) :
    g.inPage (u + BitVec.ofNat 64 i) = 0 := by
  have hoff := g.offset_eq u
  have hsum : g.offset u + i = g.page u * g.pageSize + g.pageSize := by omega
  rw [inPage, g.offset_add_mod, hsum, Nat.mod_mod_of_dvd _ g.pageSize_dvd, Nat.add_mod_right,
    Nat.mul_mod_left]

/-- A page that starts behind an address is not the page of the address. -/
theorem page_ne_of_start {j : Nat} (hij : i < j) (hj : j + g.pageSize ≤ 2 ^ 64)
    (hstart : g.inPage (u + BitVec.ofNat 64 j) = 0) :
    g.page (u + BitVec.ofNat 64 i) ≠ g.page (u + BitVec.ofNat 64 j) := by
  intro heq
  have hlt := g.inPage_lt (u + BitVec.ofNat 64 i)
  have hoffi := g.offset_eq (u + BitVec.ofNat 64 i)
  have hoffj := g.offset_eq (u + BitVec.ofNat 64 j)
  rw [g.offset_add_mod, heq] at hoffi
  rw [g.offset_add_mod, hstart] at hoffj
  generalize g.page (u + BitVec.ofNat 64 j) * g.pageSize = q at hoffi hoffj
  omega

theorem frameAddress_add (f o i : Nat) :
    g.frameAddress f (o + i) = g.frameAddress f o + BitVec.ofNat 64 i := by
  rw [frameAddress, frameAddress, BitVec.add_assoc, ← BitVec.ofNat_add, Nat.add_assoc]

end StoreGeometry

/-! ## Cells -/

/-- The cells of a range, counted from its start. -/
def cells (p : Uintptr) (i : Nat) : Uintptr := p + BitVec.ofNat 64 i

theorem cells_zero (p : Uintptr) : cells p 0 = p := by simp [cells]

theorem cells_add (p : Uintptr) (i j : Nat) : cells p i + BitVec.ofNat 64 j = cells p (i + j) := by
  unfold cells
  rw [add_ofNat_add]

/-- The cells of a range in order. -/
theorem cells_sub_cells (u : Uintptr) {i j : Nat} (hij : i ≤ j) :
    cells u j - cells u i = BitVec.ofNat 64 (j - i) := by
  obtain ⟨k, rfl⟩ := Nat.le.dest hij
  rw [← cells_add, Nat.add_sub_cancel_left, BitVec.add_comm, BitVec.add_sub_cancel]

/-- A cell that lies before a range. -/
theorem toNat_cells_sub_of_lt (u : Uintptr) {i j : Nat} (hij : i < j) (hj : j < 2 ^ 64) :
    (cells u i - cells u j).toNat = 2 ^ 64 - (j - i) := by
  have hneg : cells u i - cells u j = -(BitVec.ofNat 64 (j - i)) := by
    rw [← cells_sub_cells u (Nat.le_of_lt hij), BitVec.neg_sub, BitVec.add_comm,
      BitVec.sub_eq_add_neg]
  have hlt := toNat_ofNat_of_lt (show j - i < 2 ^ 64 by omega)
  rw [hneg, BitVec.toNat_neg, hlt, Nat.mod_eq_of_lt (by omega)]

theorem cells_toNat (p x : Uintptr) : cells p x.toNat = p + x := by
  rw [cells, BitVec.ofNat_toNat, BitVec.setWidth_eq]

/-- A storage cell is the cell at its distance from `u`. -/
theorem cells_toNat_sub (u a : Uintptr) : cells u (a - u).toNat = a := by
  rw [cells_toNat, BitVec.add_comm, BitVec.sub_add_cancel]

theorem cells_sub (u : Uintptr) (i : Nat) : cells u i - u = BitVec.ofNat 64 i := by
  have hsub := cells_sub_cells u (Nat.zero_le i)
  rwa [cells_zero, Nat.sub_zero] at hsub

theorem toNat_cells_sub (u : Uintptr) {i : Nat} (hi : i < 2 ^ 64) : (cells u i - u).toNat = i := by
  rw [cells_sub, toNat_ofNat_of_lt hi]

section Pointer

variable {p : Uintptr} {s : StoreId} {i : Nat} (htag : switchCase p = some s)
  (hi : (makeOriginalPointer p).toNat + i < 2 ^ 60)
include htag hi

theorem cells_tagged : cells p i = makeMstorePtr s (makeOriginalPointer p + BitVec.ofNat 64 i) := by
  have hin := toNat_ofNat_of_lt (show i < 2 ^ 64 by omega)
  unfold cells
  rw [← makeMstorePtr_add s (by omega), ← eq_makeMstorePtr_of_switchCase htag]

theorem switchCase_cells : switchCase (cells p i) = some s := by
  have hsum := toNat_add_ofNat (show (makeOriginalPointer p).toNat + i < 2 ^ 64 by omega)
  rw [cells_tagged htag hi, switchCase_makeMstorePtr s (by omega)]

theorem makeOriginalPointer_cells :
    makeOriginalPointer (cells p i) = cells (makeOriginalPointer p) i := by
  have hsum := toNat_add_ofNat (show (makeOriginalPointer p).toNat + i < 2 ^ 64 by omega)
  rw [cells_tagged htag hi, makeOriginalPointer_makeMstorePtr s (by omega)]
  rfl

end Pointer

theorem cells_inj {p : Uintptr} {i j : Nat} (hi : i < 2 ^ 64) (hj : j < 2 ^ 64)
    (h : cells p i = cells p j) : i = j := by
  have hoff : BitVec.ofNat 64 i = BitVec.ofNat 64 j := by
    unfold cells at h
    simpa using h
  have hnat := congrArg BitVec.toNat hoff
  rwa [toNat_ofNat_of_lt hi, toNat_ofNat_of_lt hj] at hnat

/-- `target` after `n` bytes at `src` in `source` have been copied to `dst`. -/
def transfer (target : Memory) (dst : Uintptr) (source : Memory) (src : Uintptr) (n : Nat) : Memory :=
  fun a => if (a - dst).toNat < n then source (src + (a - dst)) else target a

section Transfer

variable (target source : Memory) (dst src : Uintptr) {n : Nat}

theorem transfer_zero : transfer target dst source src 0 = target := by
  funext a
  simp [transfer]

theorem transfer_cells_of_lt {i : Nat} (hi : i < n) (hn : n ≤ 2 ^ 64) :
    transfer target dst source src n (cells dst i) = source (cells src i) := by
  unfold transfer
  rw [cells_sub, toNat_ofNat_of_lt (by omega), if_pos hi]
  rfl

theorem transfer_of_ne {a : Uintptr} (ha : ∀ i < n, cells dst i ≠ a) :
    transfer target dst source src n a = target a := by
  unfold transfer
  rw [if_neg]
  intro hlt
  exact ha _ hlt (cells_toNat_sub dst a)

/-- Only the bytes that are copied matter. -/
theorem transfer_congr {source' : Memory}
    (h : ∀ i < n, source (cells src i) = source' (cells src i)) :
    transfer target dst source src n = transfer target dst source' src n := by
  funext a
  unfold transfer
  split
  · rename_i hlt
    rw [← cells_toNat]
    exact h _ hlt
  · rfl

end Transfer

/-! ## Placement -/

/-- Where the bytes of a program are. -/
structure Residency (σ : Type) where
  geometry : StoreId → StoreGeometry
  /-- The addresses of the program's own native memory. -/
  native : Uintptr → Bool
  /-- The frame that holds a page of a store, if the page is in the cache. -/
  frame : σ → StoreId → Nat → Option Nat
  /-- The bytes that are in no frame. -/
  stored : σ → Uintptr → Byte

/-- A page of a store. -/
abbrev PageOf := StoreId × Nat

namespace Residency

variable (r : Residency σ)

/-- The page of a tagged pointer. -/
def pageOf (p : Uintptr) : Option PageOf :=
  (switchCase p).map fun s => (s, (r.geometry s).page (makeOriginalPointer p))

/-- The address of the byte at the program's pointer `p`. -/
def place (st : σ) (p : Uintptr) : Option Uintptr :=
  match switchCase p with
  | some s =>
      (r.frame st s ((r.geometry s).page (makeOriginalPointer p))).map fun f =>
        (r.geometry s).frameAddress f ((r.geometry s).inPage (makeOriginalPointer p))
  | none => if r.native p then some p else none

/-- The memory as the program sees it. -/
def flat (m : Machine σ) : Memory := Lib.read (r.place m.store) (r.stored m.store) m.mem

theorem place_tagged {p : Uintptr} {s : StoreId} (htag : switchCase p = some s) (st : σ) :
    r.place st p =
      (r.frame st s ((r.geometry s).page (makeOriginalPointer p))).map fun f =>
        (r.geometry s).frameAddress f ((r.geometry s).inPage (makeOriginalPointer p)) := by
  unfold place
  rw [htag]

theorem place_native {p : Uintptr} (htag : switchCase p = none) (st : σ) :
    r.place st p = if r.native p then some p else none := by
  unfold place
  rw [htag]

/-- The placement of a byte depends on the frame of its page only. -/
theorem place_congr {st st' : σ} {p : Uintptr}
    (h : ∀ q, r.pageOf p = some q → r.frame st' q.1 q.2 = r.frame st q.1 q.2) :
    r.place st' p = r.place st p := by
  cases htag : switchCase p with
  | none => rw [r.place_native htag, r.place_native htag]
  | some s =>
    have hpage : r.pageOf p = some (s, (r.geometry s).page (makeOriginalPointer p)) := by
      unfold pageOf
      rw [htag]
      rfl
    rw [r.place_tagged htag, r.place_tagged htag, h _ hpage]

end Residency

/-- In the states of `Inv K` the pages `K` are held: `Inv` survives changes of the bytes that the
program can reach, a page fault at a pointer of `R` returns the address in a frame that holds the
page, which is held from then on, and neither moves held pages nor changes the flat memory. -/
structure FaultsHeld (env : Env σ) (r : Residency σ) (R : Set Uintptr)
    (Inv : Set PageOf → World σ → Prop) : Prop where
  place_inj : ∀ {K w p q a}, Inv K w → r.place w.store p = some a → r.place w.store q = some a →
    p = q
  write : ∀ {K w mem}, Inv K w →
    (∀ a, (∀ p, r.place w.store p = some a → ∃ q ∉ K, r.pageOf p = some q) → mem a = w.mem a) →
    Inv K (w.withMem mem)
  log : ∀ {K w e}, Inv K w → Inv K (w.log e)
  fault : ∀ {K w p s} (dirty : Byte), Inv K w → p ∈ R → switchCase p = some s → ∃ f w',
    carmorPageFault env p dirty w = .ok ((r.geometry s).frameAddress f
      ((r.geometry s).inPage (makeOriginalPointer p))) w' ∧
    r.frame w'.store s ((r.geometry s).page (makeOriginalPointer p)) = some f ∧
    Inv (insert (s, (r.geometry s).page (makeOriginalPointer p)) K) w' ∧
    (∀ q ∈ K, r.frame w'.store q.1 q.2 = r.frame w.store q.1 q.2) ∧
    r.flat w'.toMachine = r.flat w.toMachine

/-- The stores whose instances the bulk operations may use, with pages of at most `2 ^ 30`
bytes. -/
structure BulkStore (env : Env σ) (r : Residency σ) (s : StoreId) : Prop where
  ne_lstore3 : s ≠ .lstore3
  isCached : (env.stores s).lstoreIsDirect = false
  geometry : (env.stores s).HasGeometry (r.geometry s)
  pageBits : (r.geometry s).pageBits ≤ 30
  link : CachedInstance env s

/-- An operand of `n` bytes: in the program's native memory, or in a cached store. -/
inductive BulkRange (env : Env σ) (r : Residency σ) (p : Uintptr) (n : Nat) : Prop
  | native : p.toNat + n ≤ 2 ^ 63 → isCarmorPtr p = false →
      (∀ i < n, r.native (p + BitVec.ofNat 64 i) = true) → BulkRange env r p n
  | tagged {s : StoreId} {x : Uintptr} : BulkStore env r s → p = makeMstorePtr s x →
      x.toNat < 2 ^ 60 → x.toNat + n ≤ 2 ^ 60 → BulkRange env r p n

/-- A page of a store starts at the pointer. -/
def PageStart (r : Residency σ) (p : Uintptr) : Prop :=
  ∃ s, switchCase p = some s ∧ (r.geometry s).inPage (makeOriginalPointer p) = 0

/-! ## Operands -/

/-- The parameters that `__carmor_mem_wrapper` reads for an operand. -/
def operandOf (env : Env σ) (p : Uintptr) (dirty : Byte) : Operand where
  dirty := dirty
  params := (switchCase p).map fun s =>
    ((env.stores s).lstoreGetMpageCacheBasePtr, (env.stores s).lstoreGetMpageSize)

section OperandOf

variable {p : Uintptr}

/-- The parameters of a tagged operand are those of its store. -/
theorem operandOf_tagged (env : Env σ) {s : StoreId} (htag : switchCase p = some s) (dirty : Byte) :
    (operandOf env p dirty).params =
      some ((env.stores s).lstoreGetMpageCacheBasePtr, (env.stores s).lstoreGetMpageSize) := by
  rw [operandOf, htag]
  rfl

theorem operandOf_native (hp : isCarmorPtr p = false) (env : Env σ) (dirty : Byte) :
    (operandOf env p dirty).params = none := by
  rw [operandOf, switchCase_native hp]
  rfl

theorem sized_tagged {env : Env σ} {s : StoreId} (htag : switchCase p = some s)
    (hsize : IntSize (env.stores s).lstoreGetMpageSize) (dirty : Byte) :
    (operandOf env p dirty).Sized := by
  intro base size hparams
  rw [operandOf_tagged env htag] at hparams
  cases hparams
  exact hsize

theorem sized_native (hp : isCarmorPtr p = false) (env : Env σ) (dirty : Byte) :
    (operandOf env p dirty).Sized := by
  intro base size hparams
  rw [operandOf_native hp] at hparams
  cases hparams

theorem operandParameters_eq_tagged {env : Env σ} {s : StoreId} (htag : switchCase p = some s)
    (hs : s ≠ .lstore3) (dirty : Byte) :
    operandParameters env p = pure (operandOf env p dirty).params := by
  rw [operandParameters_tagged htag hs, operandOf_tagged env htag]

theorem operandParameters_eq_native (hp : isCarmorPtr p = false) (env : Env σ) (dirty : Byte) :
    operandParameters env p = pure (operandOf env p dirty).params := by
  rw [operandParameters_native hp, operandOf_native hp]

theorem linkOperand_tagged (env : Env σ) {s : StoreId} (htag : switchCase p = some s) (dirty : Byte) :
    linkOperand env (operandOf env p dirty) p = carmorPageFault env p dirty := by
  unfold linkOperand
  rw [if_pos (by simp [Operand.linked, operandOf_tagged env htag])]
  rfl

theorem linkOperand_native (hp : isCarmorPtr p = false) (env : Env σ) (dirty : Byte) :
    linkOperand env (operandOf env p dirty) p = pure p := by
  unfold linkOperand
  rw [if_neg (by simp [Operand.linked, operandOf_native hp])]

variable {env : Env σ} (fuel : Nat) (c : Int) (n : SizeT) (func : MemFunctionSingle) (dirty : Byte)
  (partialReturn aggregateRes : Bool)

/-- The one-operand wrapper on a native operand is the function itself. -/
theorem memWrapperSingle_native (hp : isCarmorPtr p = false) :
    carmorMemWrapperSingle env fuel p c n func dirty partialReturn aggregateRes =
      onMem (func p c n) := by
  unfold carmorMemWrapperSingle
  rw [if_pos (by simp [hp])]

/-- On a tagged operand the one-operand wrapper is a page fault and its loop. -/
theorem memWrapperSingle_tagged {s : StoreId} (htag : switchCase p = some s) (hs : s ≠ .lstore3) :
    carmorMemWrapperSingle env fuel p c n func dirty partialReturn aggregateRes = (do
      let dst0 ← carmorPageFault env p dirty
      memWrapperSingleLoop env ⟨operandOf env p dirty, c, (env.stores s).lstoreIsDirect, func,
        partialReturn, aggregateRes⟩ fuel (toInt32 n) 0 dst0 p) := by
  have hoperand : operandOf env p dirty = ⟨dirty, some ((env.stores s).lstoreGetMpageCacheBasePtr,
      (env.stores s).lstoreGetMpageSize)⟩ := by
    rw [← operandOf_tagged env htag dirty]
    rfl
  unfold carmorMemWrapperSingle
  rw [if_neg (by simp [isCarmorPtr_of_switchCase htag]), lstoreTypeIsDirect_eq htag, pure_bind,
    getLstoreParameters_eq htag, if_neg hs, pure_bind, hoperand]

/-- In `lstore3` the one-operand wrapper finds no parameters. -/
theorem memWrapperSingle_lstore3 (htag : switchCase p = some .lstore3) (w : World σ) :
    carmorMemWrapperSingle env fuel p c n func dirty partialReturn aggregateRes w =
      .error .abort w := by
  unfold carmorMemWrapperSingle
  rw [if_neg (by simp [isCarmorPtr_of_switchCase htag]), lstoreTypeIsDirect_eq htag, pure_bind,
    getLstoreParameters_eq htag, if_pos rfl]
  rfl

end OperandOf

theorem BulkStore.intSize {env : Env σ} {r : Residency σ} {s : StoreId} (h : BulkStore env r s) :
    IntSize (env.stores s).lstoreGetMpageSize := by
  have hpos := (r.geometry s).pageSize_pos
  have hle : (r.geometry s).pageSize ≤ 2 ^ 30 := Nat.pow_le_pow_right (by decide) h.pageBits
  rw [IntSize, toNat_mpageSize h.geometry]
  omega

section Operand

variable {env : Env σ} {r : Residency σ} {p : Uintptr} {n : Nat}

theorem BulkRange.mono {m : Nat} (h : BulkRange env r p n) (hm : m ≤ n) : BulkRange env r p m := by
  cases h with
  | native hend hp hnative =>
    exact .native (by omega) hp fun i hi => hnative i (by omega)
  | tagged hstore hp hx hend => exact .tagged hstore hp hx (by omega)

/-- The rest of a range. -/
theorem BulkRange.add {i : Nat} (h : BulkRange env r p n) (hi : i < n) :
    BulkRange env r (p + BitVec.ofNat 64 i) (n - i) := by
  cases h with
  | native hend hp hnative =>
    have hsum := toNat_add_ofNat (p := p) (i := i) (by omega)
    refine .native (by omega) ?_ ?_
    · rw [← Bool.not_eq_true, isCarmorPtr_iff]
      omega
    · intro j hj
      rw [add_ofNat_add]
      exact hnative (i + j) (by omega)
  | @tagged s x hstore hp hx hend =>
    have hin := toNat_ofNat_of_lt (show i < 2 ^ 64 by omega)
    have hsum := toNat_add_ofNat (p := x) (i := i) (by omega)
    refine .tagged hstore (s := s) (x := x + BitVec.ofNat 64 i) ?_ (by omega) (by omega)
    rw [hp, makeMstorePtr_add s (by omega)]

/-- A range is native or in one store, and moving inside it does not change that. -/
theorem BulkRange.switchCase_add {i : Nat} (h : BulkRange env r p n) (hi : i < n) :
    switchCase (p + BitVec.ofNat 64 i) = switchCase p := by
  cases h with
  | native hend hp hnative =>
    have hsum := toNat_add_ofNat (p := p) (i := i) (by omega)
    have hp' : isCarmorPtr (p + BitVec.ofNat 64 i) = false := by
      rw [← Bool.not_eq_true, isCarmorPtr_iff]
      omega
    rw [switchCase_native hp, switchCase_native hp']
  | @tagged s x hstore hp hx hend =>
    have hin := toNat_ofNat_of_lt (show i < 2 ^ 64 by omega)
    have hsum := toNat_add_ofNat (p := x) (i := i) (by omega)
    rw [hp, makeMstorePtr_add s (by omega), switchCase_makeMstorePtr s (by omega),
      switchCase_makeMstorePtr s hx]

theorem BulkRange.makeOriginalPointer_add {s : StoreId} {i : Nat} (h : BulkRange env r p n)
    (htag : switchCase p = some s) (hi : i < n) :
    makeOriginalPointer (p + BitVec.ofNat 64 i) = makeOriginalPointer p + BitVec.ofNat 64 i := by
  cases h with
  | native hend hp hnative =>
    rw [switchCase_native hp] at htag
    cases htag
  | @tagged t x hstore hp hx hend =>
    have hin := toNat_ofNat_of_lt (show i < 2 ^ 64 by omega)
    have hsum := toNat_add_ofNat (p := x) (i := i) (by omega)
    rw [hp, makeMstorePtr_add t (by omega), makeOriginalPointer_makeMstorePtr t (by omega),
      makeOriginalPointer_makeMstorePtr t hx]

theorem BulkRange.bulkStore {s : StoreId} (h : BulkRange env r p n) (htag : switchCase p = some s) :
    BulkStore env r s := by
  cases h with
  | native hend hp hnative =>
    rw [switchCase_native hp] at htag
    cases htag
  | @tagged t x hstore hp hx hend =>
    rw [hp, switchCase_makeMstorePtr t hx] at htag
    exact Option.some.inj htag ▸ hstore

theorem BulkRange.isCarmorPtr_eq (h : BulkRange env r p n) :
    isCarmorPtr p = (switchCase p).isSome := by
  cases h with
  | native hend hp hnative => rw [hp, switchCase_native hp]; rfl
  | @tagged s x hstore hp hx hend =>
    have htag := switchCase_makeMstorePtr s hx
    rw [hp, isCarmorPtr_of_switchCase htag, htag]
    rfl

theorem BulkRange.operandParameters_eq (h : BulkRange env r p n) (dirty : Byte) :
    operandParameters env p = pure (operandOf env p dirty).params := by
  cases htag : switchCase p with
  | none =>
    have hp := h.isCarmorPtr_eq
    rw [htag] at hp
    exact operandParameters_eq_native hp env dirty
  | some s => exact operandParameters_eq_tagged htag (h.bulkStore htag).ne_lstore3 dirty

theorem BulkRange.sized (h : BulkRange env r p n) (dirty : Byte) :
    (operandOf env p dirty).Sized := by
  cases htag : switchCase p with
  | none =>
    have hp := h.isCarmorPtr_eq
    rw [htag] at hp
    exact sized_native hp env dirty
  | some s => exact sized_tagged htag (h.bulkStore htag).intSize dirty

/-- The bytes that are left in the page of a linked operand. -/
theorem BulkRange.leftIn_tagged {s : StoreId} (h : BulkRange env r p n)
    (htag : switchCase p = some s) {f : Nat} {u : Uintptr} (dirty : Byte) :
    (operandOf env p dirty).leftIn ((r.geometry s).frameAddress f ((r.geometry s).inPage u)) =
      ((r.geometry s).pageSize - (r.geometry s).inPage u : Nat) := by
  have hstore := h.bulkStore htag
  have hlt := (r.geometry s).inPage_lt u
  have hparams : (operandOf env p dirty).params =
      some ((r.geometry s).cacheBase, (env.stores s).lstoreGetMpageSize) := by
    rw [operandOf_tagged env htag, ← hstore.geometry.cacheBase]
  have hmask : (r.geometry s).pageSize - 1 = 2 ^ (r.geometry s).pageBits - 1 := rfl
  rw [leftIn_of_params hparams hstore.intSize, StoreGeometry.toNat_frameAddress_sub,
    toNat_mpageSize hstore.geometry, hmask, Nat.and_two_pow_sub_one_eq_mod]
  change (((r.geometry s).pageSize - (_ % 2 ^ 64) % (r.geometry s).pageSize : Nat) : Int) = _
  rw [Nat.mod_mod_of_dvd _ (r.geometry s).pageSize_dvd, Nat.mul_comm, Nat.mul_add_mod,
    Nat.mod_eq_of_lt hlt]

end Operand

end Carmor
