import Carmor.Pointer

/-!
# The handle table

`mem/memory.c` registers machine-specific pointers under handles. The objects are kept in a
hash table of `uthash.h`, which is a parameter; a `VirtualMemory` holds the table and a counter.
-/

namespace Carmor

structure VirtualPointer where
  val : Int
  deriving DecidableEq, Repr

/-- A `ShieldObject` without its hash handle, which only the table reads. -/
structure ShieldObject where
  vptr : VirtualPointer
  ptr : Uintptr
  deriving DecidableEq, Repr

/-- The macros of `uthash.h`; `null` is the table without an element. -/
structure UtHash (τ : Type) where
  null : τ
  hashAdd : τ → ShieldObject → τ
  hashFind : τ → VirtualPointer → Option ShieldObject

structure VirtualMemory (τ : Type) where
  count : Int
  vMap : τ

namespace VirtualMemory

variable {τ : Type} (H : UtHash τ)

/-- The global `vMem` at the start. -/
def empty : VirtualMemory τ where
  count := 0
  vMap := H.null

/-- `VirtualMemory_set`, with the table it leaves. -/
def set (vMem : VirtualMemory τ) (p : Uintptr) : VirtualPointer × VirtualMemory τ :=
  let newId := vMem.count + 1
  let vp : VirtualPointer := ⟨newId⟩
  let obj : ShieldObject := { vptr := vp, ptr := p }
  (vp, { vMem with vMap := H.hashAdd vMem.vMap obj })

/-- `VirtualMemory_get`. -/
def get (vMem : VirtualMemory τ) (vp : VirtualPointer) : Option ShieldObject :=
  H.hashFind vMem.vMap vp

end VirtualMemory

end Carmor
