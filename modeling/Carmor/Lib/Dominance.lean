import Carmor.Lib.RootedTree

/-!
# Dominance

Walks of a graph from its entry, and dominance: `a` dominates `b` when every walk to `b` passes
through `a`. A dominator tree arranges the reachable nodes so that each stands below the nodes
that dominate it.
-/

namespace Lib

universe u

variable {α : Type u} {edge : α → α → Prop} {entry : α}

/-- `Walk edge entry path b`: from the entry through the nodes `path`, the current node `b` not
among them, latest first. -/
inductive Walk (edge : α → α → Prop) (entry : α) : List α → α → Prop
  | start : Walk edge entry [] entry
  | step {path : List α} {b c : α} : Walk edge entry path b → edge b c →
      Walk edge entry (b :: path) c

def Reachable (edge : α → α → Prop) (entry b : α) : Prop := ∃ path, Walk edge entry path b

def StrictlyDominates (edge : α → α → Prop) (entry a b : α) : Prop :=
  a ≠ b ∧ ∀ path, Walk edge entry path b → a ∈ path

/-- What a dominator tree promises. -/
structure IsDominatorTree (edge : α → α → Prop) (entry : α) (t : RootedTree α) : Prop where
  root : t.root = entry
  nodup : t.labels.Nodup
  mem_iff : ∀ b, b ∈ t.labels ↔ Reachable edge entry b
  ancestor_iff : ∀ a b, t.StrictAncestor a b ↔
    Reachable edge entry b ∧ StrictlyDominates edge entry a b

end Lib
