import Mathlib.Data.Nat.Bitwise

/-!
# C integers and tagged pointers

`mem/common.h` gives every local store (lstore) one of four tags in the upper four bits of a
pointer. `uintptr_t`, `size_t` and pointers are `BitVec 64`, `unsigned` is `BitVec 32`. An
`int` is an `Int`: signed overflow is undefined in C, so only the conversions to `int`
reduce. The `lstoreN_SHIFT60_VAL` and `MAKE_lstoreN_PTR` names of the runtime are the
`MSTOREN` macros of `common.h`, `IS_CARMOR_PTR` is the test of `CARMOR_BIT_MASK`.
-/

namespace Carmor

abbrev Uintptr := BitVec 64
abbrev SizeT := BitVec 64
abbrev Unsigned := BitVec 32
abbrev Byte := BitVec 8

/-- For the membership of page indices in lists. -/
instance : LawfulBEq Unsigned := inferInstance

/-- Conversion of a 64-bit value to `int`: the low 32 bits, read as signed. -/
def toInt32 (x : BitVec 64) : Int := (x.setWidth 32).toInt

/-- The four positions at which the compiler installs a store. -/
inductive StoreId where
  | lstore0
  | lstore1
  | lstore2
  | lstore3
  deriving DecidableEq, Repr

/-- `CARMOR_BIT_MASK`. -/
def carmorBitMask : Uintptr := 0x8000000000000000

/-- `CLEAR_BIT_MASK`: clear the four upper bits. -/
def clearBitMask : Uintptr := 0x0fffffffffffffff

/-- `MSTOREN_BIT_MASK`. -/
def mstoreBitMask : StoreId → Uintptr
  | .lstore0 => 0xc000000000000000
  | .lstore1 => 0xa000000000000000
  | .lstore2 => 0x9000000000000000
  | .lstore3 => 0xb000000000000000

/-- `MSTOREN_SHIFT60_VAL`. -/
def mstoreShift60Val : StoreId → Nat
  | .lstore0 => 12
  | .lstore1 => 10
  | .lstore2 => 9
  | .lstore3 => 11

/-- `IS_CARMOR_PTR`. -/
def isCarmorPtr (p : Uintptr) : Bool := p &&& carmorBitMask == carmorBitMask

/-- `MAKE_ORIGINAL_POINTER`. -/
def makeOriginalPointer (p : Uintptr) : Uintptr := p &&& clearBitMask

/-- `MAKE_MSTOREN_PTR`. -/
def makeMstorePtr (s : StoreId) (p : Uintptr) : Uintptr := p ||| mstoreBitMask s

/-- `int topByte = (uintptr_t)p >> 60`. -/
def topByte (p : Uintptr) : Nat := (p >>> 60).toNat

/-- The `case` label of `switch (topByte)`, `none` for `default`. -/
def switchCase (p : Uintptr) : Option StoreId :=
  match topByte p with
  | 12 => some .lstore0
  | 10 => some .lstore1
  | 9 => some .lstore2
  | 11 => some .lstore3
  | _ => none

/-! ## Pointers as numbers -/

theorem toNat_makeOriginalPointer (p : Uintptr) :
    (makeOriginalPointer p).toNat = p.toNat % 2 ^ 60 := by
  have hmask : clearBitMask.toNat = 2 ^ 60 - 1 := rfl
  rw [makeOriginalPointer, BitVec.toNat_and, hmask, Nat.and_two_pow_sub_one_eq_mod]

theorem topByte_eq (p : Uintptr) : topByte p = p.toNat / 2 ^ 60 := by
  rw [topByte, BitVec.toNat_ushiftRight, Nat.shiftRight_eq_div_pow]

theorem isCarmorPtr_iff (p : Uintptr) : isCarmorPtr p = true ↔ 2 ^ 63 ≤ p.toNat := by
  have hp := p.isLt
  have hmask : carmorBitMask.toNat = 2 ^ 63 := rfl
  rw [isCarmorPtr, beq_iff_eq, ← BitVec.toNat_inj, BitVec.toNat_and, hmask, Nat.and_two_pow,
    Nat.testBit_eq_decide_div_mod_eq]
  have hbit : p.toNat / 2 ^ 63 % 2 = 1 ↔ 2 ^ 63 ≤ p.toNat := by omega
  rw [← hbit]
  simp

/-- A tag only sets bits above bit 60, so tagging an address below `2 ^ 60` adds the tag. -/
theorem toNat_makeMstorePtr (s : StoreId) {x : Uintptr} (hx : x.toNat < 2 ^ 60) :
    (makeMstorePtr s x).toNat = mstoreShift60Val s * 2 ^ 60 + x.toNat := by
  have hmask : (mstoreBitMask s).toNat = mstoreShift60Val s <<< 60 := by cases s <;> rfl
  rw [makeMstorePtr, BitVec.toNat_or, hmask, Nat.or_comm, ← Nat.shiftLeft_add_eq_or_of_lt hx,
    Nat.shiftLeft_eq]

theorem mstoreShift60Val_bounds (s : StoreId) :
    9 ≤ mstoreShift60Val s ∧ mstoreShift60Val s ≤ 12 := by
  cases s <;> decide

/-- Advancing a tagged pointer inside its store's addresses advances the address and keeps the
tag. -/
theorem makeMstorePtr_add (s : StoreId) {x k : Uintptr} (h : x.toNat + k.toNat < 2 ^ 60) :
    makeMstorePtr s x + k = makeMstorePtr s (x + k) := by
  have hs := mstoreShift60Val_bounds s
  have hsum : (x + k).toNat = x.toNat + k.toNat := by
    rw [BitVec.toNat_add, Nat.mod_eq_of_lt (by omega)]
  apply BitVec.eq_of_toNat_eq
  rw [BitVec.toNat_add, toNat_makeMstorePtr s (by omega), toNat_makeMstorePtr s (by omega), hsum]
  omega

/-- A tag makes any address a tagged pointer. -/
theorem isCarmorPtr_makeMstorePtr (s : StoreId) (x : Uintptr) :
    isCarmorPtr (makeMstorePtr s x) = true := by
  have hbit : mstoreBitMask s &&& carmorBitMask = carmorBitMask := by cases s <;> rfl
  rw [isCarmorPtr, beq_iff_eq, makeMstorePtr, BitVec.and_or_distrib_right, hbit, BitVec.or_comm]
  ext i
  simp

theorem makeOriginalPointer_tag (s : StoreId) (x : Uintptr) :
    makeOriginalPointer (makeMstorePtr s x) = makeOriginalPointer x := by
  have hclear : mstoreBitMask s &&& clearBitMask = 0 := by cases s <;> rfl
  rw [makeOriginalPointer, makeMstorePtr, BitVec.and_or_distrib_right, hclear]
  exact BitVec.or_zero

section Tagged

variable (s : StoreId) {x : Uintptr} (hx : x.toNat < 2 ^ 60)
include hx

theorem makeOriginalPointer_makeMstorePtr : makeOriginalPointer (makeMstorePtr s x) = x := by
  apply BitVec.eq_of_toNat_eq
  rw [toNat_makeOriginalPointer, toNat_makeMstorePtr s hx]
  omega

theorem switchCase_makeMstorePtr : switchCase (makeMstorePtr s x) = some s := by
  have htop : topByte (makeMstorePtr s x) = mstoreShift60Val s := by
    rw [topByte_eq, toNat_makeMstorePtr s hx]
    omega
  rw [switchCase, htop]
  cases s <;> rfl

end Tagged

/-- Two tagged pointers are equal only for one store and one address. -/
theorem makeMstorePtr_inj {s t : StoreId} {x y : Uintptr} (hx : x.toNat < 2 ^ 60)
    (hy : y.toNat < 2 ^ 60) (h : makeMstorePtr s x = makeMstorePtr t y) : s = t ∧ x = y := by
  constructor
  · have hcase := switchCase_makeMstorePtr s hx
    rw [h, switchCase_makeMstorePtr t hy] at hcase
    exact (Option.some.inj hcase).symm
  · rw [← makeOriginalPointer_makeMstorePtr s hx, h, makeOriginalPointer_makeMstorePtr t hy]

/-- A pointer that reaches a `case` is a tagged pointer of that store. -/
theorem eq_makeMstorePtr_of_switchCase {p : Uintptr} {s : StoreId} (h : switchCase p = some s) :
    p = makeMstorePtr s (makeOriginalPointer p) := by
  have hp := p.isLt
  have horig := toNat_makeOriginalPointer p
  have htop : topByte p = mstoreShift60Val s := by
    rw [switchCase] at h
    split at h <;> simp_all <;> subst h <;> rfl
  rw [topByte_eq] at htop
  apply BitVec.eq_of_toNat_eq
  rw [toNat_makeMstorePtr s (by omega), horig]
  omega

theorem makeOriginalPointer_lt (p : Uintptr) : (makeOriginalPointer p).toNat < 2 ^ 60 := by
  rw [toNat_makeOriginalPointer]
  exact Nat.mod_lt _ (by decide)

theorem isCarmorPtr_of_switchCase {p : Uintptr} {s : StoreId} (h : switchCase p = some s) :
    isCarmorPtr p = true := by
  rw [eq_makeMstorePtr_of_switchCase h]
  exact isCarmorPtr_makeMstorePtr s _

/-- A native pointer reaches no `case`. -/
theorem switchCase_native {p : Uintptr} (hp : isCarmorPtr p = false) : switchCase p = none := by
  cases htag : switchCase p with
  | none => rfl
  | some s =>
    rw [isCarmorPtr_of_switchCase htag] at hp
    cases hp

end Carmor
