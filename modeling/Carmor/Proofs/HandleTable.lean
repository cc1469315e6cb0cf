import Carmor.VirtualMemory
import Carmor.Lib.Run

/-!
# Freshness of the handles

A session is a sequence of calls of `VirtualMemory_set` and `VirtualMemory_get` on one table.
`VirtualMemory_set` derives the new handle from the counter and leaves the counter alone, so all
handles of a session are equal.
-/

namespace Carmor

/-- `HASH_FIND` on a table of objects with distinct keys returns the object with that key, or
`NULL` if there is none. -/
structure UtHash.Correct {τ : Type} (H : UtHash τ) : Prop where
  mem_of_find : ∀ {objs : List ShieldObject} {vp obj}, (objs.map ShieldObject.vptr).Nodup →
    H.hashFind (objs.foldl H.hashAdd H.null) vp = some obj → obj ∈ objs ∧ obj.vptr = vp
  ne_of_find : ∀ {objs : List ShieldObject} {vp}, (objs.map ShieldObject.vptr).Nodup →
    H.hashFind (objs.foldl H.hashAdd H.null) vp = none → ∀ obj ∈ objs, obj.vptr ≠ vp

namespace VirtualMemory

variable {τ : Type} {H : UtHash τ}

inductive Command where
  | set (p : Uintptr)
  | get (vp : VirtualPointer)

/-- The table together with the handles that the calls of `VirtualMemory_set` have returned, each
with the pointer it was called with. -/
structure Session (τ : Type) where
  vMem : VirtualMemory τ
  issued : List (VirtualPointer × Uintptr)

namespace Session

def start (H : UtHash τ) : Session τ := ⟨VirtualMemory.empty H, []⟩

inductive Step (H : UtHash τ) : Session τ → Command → Session τ → Prop
  | set (S : Session τ) (p : Uintptr) : Step H S (.set p)
      ⟨(S.vMem.set H p).2, S.issued ++ [((S.vMem.set H p).1, p)]⟩
  | get (S : Session τ) (vp : VirtualPointer) : Step H S (.get vp) S

/-- The handles are distinct, each is found with its pointer, and no other is found. -/
structure Faithful (H : UtHash τ) (S : Session τ) : Prop where
  nodup : (S.issued.map Prod.fst).Nodup
  found : ∀ vp p, (vp, p) ∈ S.issued → ∃ obj, S.vMem.get H vp = some obj ∧ obj.ptr = p
  others : ∀ vp, vp ∉ S.issued.map Prod.fst → S.vMem.get H vp = none

/-- The objects that a session has added to its table, all under the handle 1. -/
structure Holds (H : UtHash τ) (S : Session τ) (ps : List Uintptr) : Prop where
  count : S.vMem.count = 0
  vMap : S.vMem.vMap = (ps.map (ShieldObject.mk ⟨1⟩)).foldl H.hashAdd H.null
  issued : S.issued = ps.map (Prod.mk ⟨1⟩)

/-- The pointers that a sequence of calls registers. -/
def registered : List Command → List Uintptr
  | [] => []
  | .set p :: cs => p :: registered cs
  | .get _ :: cs => registered cs

theorem holds_start (H : UtHash τ) : Holds H (start H) [] := ⟨rfl, rfl, rfl⟩

theorem Holds.step {S S' : Session τ} {ps : List Uintptr} {c : Command} (h : Holds H S ps)
    (hstep : Step H S c S') : Holds H S' (ps ++ registered [c]) := by
  obtain ⟨hcount, hmap, hissued⟩ := h
  cases hstep with
  | set p => exact ⟨hcount, by simp [set, registered, hcount, hmap], by
      simp [set, registered, hcount, hissued]⟩
  | get vp => exact ⟨hcount, by simpa [registered] using hmap, by simpa [registered] using hissued⟩

theorem registered_cons (c : Command) (cs : List Command) :
    registered (c :: cs) = registered [c] ++ registered cs := by
  cases c <;> rfl

theorem Holds.run {S S' : Session τ} {ps : List Uintptr} {cs : List Command} (h : Holds H S ps)
    (hrun : Lib.Run (Step H) S cs S') : Holds H S' (ps ++ registered cs) := by
  induction hrun generalizing ps with
  | nil => simpa [registered] using h
  | @cons S S₁ S' c cs hstep _ ih =>
    rw [registered_cons, ← List.append_assoc]
    exact ih (h.step hstep)

/-- A table with at most one object is searched correctly. -/
theorem Holds.faithful (hH : H.Correct) {S : Session τ} {ps : List Uintptr} (h : Holds H S ps)
    (hone : ps.length ≤ 1) : Faithful H S := by
  obtain ⟨-, hmap, hissued⟩ := h
  have hkeys : ((ps.map (ShieldObject.mk ⟨1⟩)).map ShieldObject.vptr).Nodup := by
    cases ps with
    | nil => simp
    | cons p ps => simp [List.eq_nil_of_length_eq_zero (show ps.length = 0 by simpa using hone)]
  refine ⟨?_, ?_, ?_⟩
  · simpa [hissued, Function.comp_def] using hkeys
  · intro vp p hmem
    rw [hissued] at hmem
    obtain ⟨q, hq, heq⟩ := List.mem_map.mp hmem
    obtain ⟨rfl, rfl⟩ := Prod.mk.inj heq
    cases hfind : S.vMem.get H ⟨1⟩ with
    | none =>
      rw [get, hmap] at hfind
      exact absurd rfl (hH.ne_of_find hkeys hfind ⟨⟨1⟩, q⟩ (List.mem_map_of_mem hq))
    | some obj =>
      refine ⟨obj, rfl, ?_⟩
      rw [get, hmap] at hfind
      obtain ⟨hobj, -⟩ := hH.mem_of_find hkeys hfind
      obtain ⟨r, hr, rfl⟩ := List.mem_map.mp hobj
      -- a list with at most one element has no other
      cases ps with
      | nil => cases hq
      | cons p ps =>
        have hnil : ps = [] := List.eq_nil_of_length_eq_zero (by simpa using hone)
        simp_all
  · intro vp hvp
    cases hfind : S.vMem.get H vp with
    | none => rfl
    | some obj =>
      rw [get, hmap] at hfind
      obtain ⟨hobj, hkey⟩ := hH.mem_of_find hkeys hfind
      obtain ⟨r, hr, rfl⟩ := List.mem_map.mp hobj
      refine absurd ?_ hvp
      rw [hissued, ← hkey]
      exact List.mem_map.mpr ⟨(⟨1⟩, r), List.mem_map_of_mem hr, rfl⟩

/-- The handles of a session serve their purpose exactly if at most one pointer is registered. -/
theorem faithful_iff (hH : H.Correct) {S : Session τ} {cs : List Command}
    (hrun : Lib.Run (Step H) (start H) cs S) :
    Faithful H S ↔ (registered cs).length ≤ 1 := by
  have hholds := (holds_start H).run hrun
  rw [List.nil_append] at hholds
  constructor
  · intro hfaithful
    have hnodup := hfaithful.nodup
    rw [hholds.issued] at hnodup
    -- two registrations return the handle 1 twice
    rcases hreg : registered cs with _ | ⟨p, _ | ⟨q, ps⟩⟩
    · simp
    · simp
    · simp [hreg] at hnodup
  · exact hholds.faithful hH

end Session

/-! ## A table that is a list -/

/-- A table of one bucket: objects are added in front. -/
def bucket : UtHash (List ShieldObject) where
  null := []
  hashAdd objs obj := obj :: objs
  hashFind objs vp := objs.find? fun obj => obj.vptr = vp

theorem foldl_bucket (objs table : List ShieldObject) :
    objs.foldl bucket.hashAdd table = objs.reverse ++ table := by
  simp [bucket]

theorem bucket_correct : bucket.Correct where
  mem_of_find := by
    intro objs vp obj _ hfind
    rw [foldl_bucket] at hfind
    refine ⟨?_, by simpa using List.find?_some hfind⟩
    simpa [bucket] using List.mem_of_find?_eq_some hfind
  ne_of_find := by
    intro objs vp _ hfind obj hobj
    rw [foldl_bucket] at hfind
    have hnone := List.find?_eq_none.mp hfind obj (by simpa [bucket] using hobj)
    simpa using hnone

namespace Session

/-- The session of `main` of `mem/memory.c`, with a read before it. -/
theorem faithful_iff_singlePointer :
    Faithful bucket ⟨(empty bucket |>.set bucket 0x10).2, [(⟨1⟩, 0x10)]⟩ ↔
      (registered [.get ⟨1⟩, .set 0x10, .get ⟨1⟩]).length ≤ 1 :=
  faithful_iff bucket_correct
    (.cons (.get _ _) (.cons (.set _ _) (.cons (.get _ _) (.nil _))))

/-- Two pointers are registered under one handle, and the first can no longer be found. -/
theorem not_faithful_twoPointers :
    ∃ S, Lib.Run (Step bucket) (start bucket) [.set 0x10, .set 0x20] S ∧
      S.issued = [(⟨1⟩, 0x10), (⟨1⟩, 0x20)] ∧ S.vMem.get bucket ⟨1⟩ = some ⟨⟨1⟩, 0x20⟩ ∧
      ¬ Faithful bucket S := by
  refine ⟨_, .cons (.set _ _) (.cons (.set _ _) (.nil _)), rfl, rfl, ?_⟩
  intro hfaithful
  exact absurd hfaithful.nodup (by decide)

end Session

end VirtualMemory

end Carmor
