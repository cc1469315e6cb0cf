import Mathlib.Data.List.Nodup

/-!
# Rooted trees

Trees with any number of children, the labels below a node, and the relation between a node and
the nodes below it.
-/

namespace Lib

universe u

variable {α : Type u}

inductive RootedTree (α : Type u) where
  | node (root : α) (children : List (RootedTree α))

namespace RootedTree

def root : RootedTree α → α
  | node a _ => a

mutual

/-- The labels of a tree. -/
def labels : RootedTree α → List α
  | node a cs => a :: labelsAll cs

/-- The labels of some trees. -/
def labelsAll : List (RootedTree α) → List α
  | [] => []
  | t :: ts => labels t ++ labelsAll ts

end

/-- `a` stands above `b`. -/
inductive StrictAncestor : RootedTree α → α → α → Prop
  | root {a b : α} {cs : List (RootedTree α)} : b ∈ labelsAll cs → StrictAncestor (node a cs) a b
  | child {a x y : α} {cs : List (RootedTree α)} {t : RootedTree α} : t ∈ cs →
      StrictAncestor t x y → StrictAncestor (node a cs) x y

@[simp] theorem labels_node (a : α) (cs : List (RootedTree α)) :
    labels (node a cs) = a :: labelsAll cs := by rw [labels]

@[simp] theorem labelsAll_nil : labelsAll ([] : List (RootedTree α)) = [] := by rw [labelsAll]

@[simp] theorem labelsAll_cons (t : RootedTree α) (ts : List (RootedTree α)) :
    labelsAll (t :: ts) = labels t ++ labelsAll ts := by rw [labelsAll]

@[simp] theorem labelsAll_append (ts us : List (RootedTree α)) :
    labelsAll (ts ++ us) = labelsAll ts ++ labelsAll us := by
  induction ts with
  | nil => simp
  | cons t ts ih => simp [ih]

theorem root_mem_labels (t : RootedTree α) : t.root ∈ t.labels := by
  cases t with
  | node a cs => simp [root]

theorem mem_labelsAll {ts : List (RootedTree α)} {a : α} :
    a ∈ labelsAll ts ↔ ∃ t ∈ ts, a ∈ t.labels := by
  induction ts with
  | nil => simp
  | cons t ts ih => simp [ih]

theorem labelsAll_reverse_perm (ts : List (RootedTree α)) :
    (labelsAll ts.reverse).Perm (labelsAll ts) := by
  induction ts with
  | nil => simp
  | cons t ts ih =>
    simp only [List.reverse_cons, labelsAll_append, labelsAll_cons, labelsAll_nil, List.append_nil]
    exact (List.Perm.append_right _ ih).trans List.perm_append_comm

theorem StrictAncestor.mem {t : RootedTree α} {a b : α} (h : StrictAncestor t a b) :
    a ∈ t.labels ∧ b ∈ t.labels := by
  induction h with
  | root hb => exact ⟨by simp, by simp [hb]⟩
  | child ht _ ih =>
    rw [labels_node]
    exact ⟨List.mem_cons_of_mem _ (mem_labelsAll.mpr ⟨_, ht, ih.1⟩),
      List.mem_cons_of_mem _ (mem_labelsAll.mpr ⟨_, ht, ih.2⟩)⟩

theorem strictAncestor_node {a x y : α} {cs : List (RootedTree α)} :
    StrictAncestor (node a cs) x y ↔
      (x = a ∧ y ∈ labelsAll cs) ∨ ∃ t ∈ cs, StrictAncestor t x y := by
  constructor
  · intro h
    cases h with
    | root hb => exact .inl ⟨rfl, hb⟩
    | child ht h => exact .inr ⟨_, ht, h⟩
  · rintro (⟨rfl, hy⟩ | ⟨t, ht, h⟩)
    · exact .root hy
    · exact .child ht h

/-- A label of a tree is its root or stands below it. -/
theorem eq_root_or_strictAncestor {t : RootedTree α} {b : α} (h : b ∈ t.labels) :
    b = t.root ∨ StrictAncestor t t.root b := by
  cases t with
  | node a cs =>
    rw [labels_node] at h
    rcases List.mem_cons.mp h with rfl | hb
    · exact .inl rfl
    · exact .inr (.root hb)

end RootedTree

end Lib
