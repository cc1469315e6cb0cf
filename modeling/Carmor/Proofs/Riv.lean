import Carmor.Passes.Riv
import Carmor.Passes.Runs
import Mathlib.Tactic.Tauto

/-!
# The analysis RIV

The loop of `RIV` hands the values of a block to the blocks below it in the dominator tree,
whatever the order in which the blocks are taken up. What it finds is therefore defined whenever
a run enters the block, except for the results of `invoke`, which an exception leaves undefined.
-/

namespace Carmor.Passes

open Lib RootedTree

namespace RIV

variable {defined : RIVMap} {m : RIVMap}

@[simp] theorem insert_self (b : BlockId) (values : Finset ValueId) :
    insert m b values b = m b ∪ values := if_pos rfl

theorem insert_of_ne {b c : BlockId} (values : Finset ValueId) (h : c ≠ b) :
    insert m b values c = m c := if_neg h

/-- The children of a block receive what it defines and what it received itself. -/
theorem mem_processChildren {b : BlockId} {children : List DomTree}
    (hb : b ∉ children.map root) {c : BlockId} {v : ValueId} :
    v ∈ processChildren defined b children m c ↔
      v ∈ m c ∨ (c ∈ children.map root ∧ (v ∈ defined b ∨ v ∈ m b)) := by
  induction children generalizing m with
  | nil => simp [processChildren]
  | cons child children ih =>
    rw [List.map_cons, List.mem_cons, not_or] at hb
    rw [processChildren, ih hb.2]
    simp only [insert_of_ne _ hb.1, List.map_cons, List.mem_cons]
    by_cases hc : c = child.root
    · subst hc
      simp only [insert_self, Finset.mem_union]
      tauto
    · simp only [insert_of_ne _ hc, hc, false_or]

/-- The loop takes to a block what the blocks above it define and had, in any order. -/
theorem mem_process {nodes : List DomTree} (hnodup : (labelsAll nodes).Nodup) {c : BlockId}
    {v : ValueId} :
    v ∈ process defined nodes m c ↔
      v ∈ m c ∨ ∃ t ∈ nodes, ∃ a, t.StrictAncestor a c ∧ (v ∈ defined a ∨ v ∈ m a) := by
  induction nodes, m using process.induct defined with
  | case1 m => simp [process]
  | case2 b children rest m ih =>
    rw [labelsAll_cons, labels_node] at hnodup
    have hroots : ∀ a ∈ children.map root, a ∈ labelsAll children := by
      intro a ha
      obtain ⟨t, ht, rfl⟩ := List.mem_map.mp ha
      exact mem_labelsAll.mpr ⟨t, ht, root_mem_labels t⟩
    have hb : b ∉ labelsAll children := (List.nodup_cons.mp (List.Nodup.of_append_left hnodup)).1
    have hperm :
        (labelsAll (children.reverse ++ rest)).Perm (labelsAll children ++ labelsAll rest) := by
      rw [labelsAll_append]
      exact (labelsAll_reverse_perm children).append_right _
    have hnodup' : (labelsAll (children.reverse ++ rest)).Nodup :=
      hperm.nodup_iff.mpr (List.nodup_cons.mp (by simpa using hnodup)).2
    have hdisjoint : ∀ {a}, a ∈ labelsAll children → a ∉ labelsAll rest := by
      intro a ha
      exact List.disjoint_of_nodup_append (hperm.nodup_iff.mp hnodup') ha
    rw [List.unattach_reverse, List.unattach_attach] at ih
    rw [process, ih hnodup']
    simp only [mem_processChildren fun h => hb (hroots b h), List.mem_append, List.mem_reverse]
    have hlift : ∀ t, t ∈ children ∨ t ∈ rest → ∀ a, t.StrictAncestor a c →
        ∃ u ∈ .node b children :: rest, u.StrictAncestor a c := by
      rintro t (ht | ht) a ha
      · exact ⟨_, List.mem_cons_self, .child ht ha⟩
      · exact ⟨t, List.mem_cons_of_mem _ ht, ha⟩
    constructor
    · rintro ((hv | ⟨hc, hv⟩) | ⟨t, ht, a, ha, hv | hv | ⟨hroot, hv⟩⟩)
      · exact .inl hv
      · exact .inr ⟨_, List.mem_cons_self, b, .root (hroots c hc), hv⟩
      · obtain ⟨u, hu, ha⟩ := hlift t ht a ha
        exact .inr ⟨u, hu, a, ha, .inl hv⟩
      · obtain ⟨u, hu, ha⟩ := hlift t ht a ha
        exact .inr ⟨u, hu, a, ha, .inr hv⟩
      · -- what a child received from `b` it hands on to the blocks below it
        rcases ht with ht | ht
        · exact .inr ⟨_, List.mem_cons_self, b, .root (mem_labelsAll.mpr ⟨t, ht, ha.mem.2⟩), hv⟩
        · exact absurd (mem_labelsAll.mpr ⟨t, ht, ha.mem.1⟩)
            (hdisjoint (hroots a hroot))
    · rintro (hv | ⟨t, ht, a, ha, hv⟩)
      · exact .inl (.inl hv)
      · rcases List.mem_cons.mp ht with rfl | ht
        · rcases strictAncestor_node.mp ha with ⟨rfl, hc⟩ | ⟨u, hu, ha⟩
          · obtain ⟨u, hu, hcu⟩ := mem_labelsAll.mp hc
            rcases eq_root_or_strictAncestor hcu with rfl | hcu
            · exact .inl (.inr ⟨List.mem_map_of_mem hu, hv⟩)
            · exact .inr ⟨u, .inl hu, u.root, hcu, .inr (.inr ⟨List.mem_map_of_mem hu, hv⟩)⟩
          · exact .inr ⟨u, .inl hu, a, ha, hv.imp_right .inl⟩
        · exact .inr ⟨t, .inr ht, a, ha, hv.imp_right .inl⟩

section Dominance

variable {F : Function} {entry : BasicBlock} {t : DomTree} {b : BlockId} {v : ValueId}

/-- The map before the loop: the arguments of the function, for its entry block. -/
theorem mem_insert_args {c : BlockId} {args : Finset ValueId} :
    v ∈ insert (fun _ => ∅) b args c ↔ c = b ∧ v ∈ args := by
  by_cases hc : c = b
  · subst hc
    simp
  · simp [insert_of_ne _ hc, hc]

theorem runOnFunction_eq (hentry : F.blocks.head? = some entry) :
    runOnFunction F t = process (definedValues F) [t]
      (insert (fun _ => ∅) entry.id (F.params.map Prod.fst).toFinset) := by
  simp only [runOnFunction, hentry]

theorem dominating_of_mem (hentry : F.blocks.head? = some entry)
    (ht : IsDominatorTree F.edge entry.id t) (hv : v ∈ runOnFunction F t b) :
    Reachable F.edge entry.id b ∧ (v ∈ F.params.map Prod.fst ∨
      ∃ a, StrictlyDominates F.edge entry.id a b ∧ v ∈ definedValues F a) := by
  rw [runOnFunction_eq hentry, mem_process (by simpa using ht.nodup)] at hv
  simp only [List.mem_singleton, exists_eq_left, mem_insert_args, List.mem_toFinset,
    ht.ancestor_iff] at hv
  rcases hv with ⟨rfl, hv⟩ | ⟨a, ⟨hreach, hdom⟩, hv | ⟨-, hv⟩⟩
  · exact ⟨⟨[], .start⟩, .inl hv⟩
  · exact ⟨hreach, .inr ⟨a, hdom, hv⟩⟩
  · exact ⟨hreach, .inl hv⟩

theorem mem_of_dominating (hentry : F.blocks.head? = some entry)
    (ht : IsDominatorTree F.edge entry.id t) (hreach : Reachable F.edge entry.id b)
    (hv : v ∈ F.params.map Prod.fst ∨
      ∃ a, StrictlyDominates F.edge entry.id a b ∧ v ∈ definedValues F a) :
    v ∈ runOnFunction F t b := by
  rw [runOnFunction_eq hentry, mem_process (by simpa using ht.nodup)]
  simp only [List.mem_singleton, exists_eq_left, mem_insert_args, List.mem_toFinset]
  rcases hv with hv | ⟨a, hdom, hv⟩
  · rcases eq_root_or_strictAncestor ((ht.mem_iff b).mpr hreach) with hb | hb
    · exact .inl ⟨hb.trans ht.root, hv⟩
    · rw [ht.root] at hb
      exact .inr ⟨entry.id, hb, .inr ⟨rfl, hv⟩⟩
  · exact .inr ⟨a, (ht.ancestor_iff a b).mpr ⟨hreach, hdom⟩, .inl hv⟩

/-- `RIV` finds for a block that the entry reaches the arguments of the function and the integer
values that the blocks strictly dominating it define, and nothing for any other block. -/
theorem mem_runOnFunction (hentry : F.blocks.head? = some entry)
    (ht : IsDominatorTree F.edge entry.id t) (b : BlockId) (v : ValueId) :
    v ∈ runOnFunction F t b ↔ Reachable F.edge entry.id b ∧
      (v ∈ F.params.map Prod.fst ∨
        ∃ a, StrictlyDominates F.edge entry.id a b ∧ v ∈ definedValues F a) :=
  ⟨dominating_of_mem hentry ht, fun ⟨hreach, hv⟩ => mem_of_dominating hentry ht hreach hv⟩

end Dominance

/-! A function of two blocks. -/

def twoBlocks : Function where
  name := "square"
  params := [(0, .integer 32)]
  blocks :=
    [⟨0, [], [⟨1, .integer 32, .binary .add .none (.reg 0) (.reg 0)⟩], .br 1, false⟩,
      ⟨1, [], [⟨2, .integer 32, .binary .mul .none (.reg 1) (.reg 1)⟩], .ret (some (.reg 2)), false⟩]

theorem edge_twoBlocks {b c : BlockId} (h : twoBlocks.edge b c) : b = 0 ∧ c = 1 := by
  obtain ⟨B, hB, hc⟩ := h
  have hid := Function.block_id hB
  have hmem := Function.block_mem hB
  simp only [twoBlocks, List.mem_cons, List.not_mem_nil, or_false] at hmem
  rcases hmem with rfl | rfl
  · exact ⟨hid.symm, by simpa [Terminator.successors] using hc⟩
  · simp [Terminator.successors] at hc

theorem walk_twoBlocks {path : List BlockId} {b : BlockId} (h : Walk twoBlocks.edge 0 path b) :
    (path = [] ∧ b = 0) ∨ (path = [0] ∧ b = 1) := by
  induction h with
  | start => exact .inl ⟨rfl, rfl⟩
  | step _ hedge ih =>
    obtain ⟨rfl, rfl⟩ := edge_twoBlocks hedge
    rcases ih with ⟨rfl, -⟩ | ⟨-, h⟩
    · exact .inr ⟨rfl, rfl⟩
    · cases h

theorem walk_twoBlocks_one : Walk twoBlocks.edge 0 [0] 1 :=
  .step .start ⟨_, rfl, List.mem_singleton_self 1⟩

theorem dominatorTree_twoBlocks :
    IsDominatorTree twoBlocks.edge 0 (.node 0 [.node 1 []]) where
  root := rfl
  nodup := by simp
  mem_iff b := by
    simp only [labels_node, labelsAll_cons, labelsAll_nil, List.append_nil, List.mem_cons,
      List.not_mem_nil, or_false]
    constructor
    · rintro (rfl | rfl)
      · exact ⟨[], .start⟩
      · exact ⟨[0], walk_twoBlocks_one⟩
    · rintro ⟨path, h⟩
      exact (walk_twoBlocks h).imp And.right And.right
  ancestor_iff a b := by
    simp only [strictAncestor_node, labelsAll_cons, labels_node, labelsAll_nil, List.append_nil,
      List.mem_cons, List.not_mem_nil, or_false, exists_eq_left, and_false, false_and,
      exists_false]
    constructor
    · rintro ⟨rfl, rfl⟩
      refine ⟨⟨[0], walk_twoBlocks_one⟩, Nat.zero_ne_one, fun path h => ?_⟩
      rcases walk_twoBlocks h with ⟨-, h⟩ | ⟨rfl, -⟩
      · cases h
      · exact List.mem_singleton_self 0
    · rintro ⟨⟨path, h⟩, -, hdom⟩
      have ha := hdom path h
      rcases walk_twoBlocks h with ⟨rfl, -⟩ | ⟨rfl, rfl⟩
      · cases ha
      · exact ⟨List.mem_singleton.mp ha, rfl⟩

theorem mem_runOnFunction_twoBlocks : 1 ∈ runOnFunction twoBlocks (.node 0 [.node 1 []]) 1 :=
  (mem_runOnFunction rfl dominatorTree_twoBlocks 1 1).mpr
    ⟨⟨[0], walk_twoBlocks_one⟩, .inr ⟨0,
      ((dominatorTree_twoBlocks.ancestor_iff 0 1).mp (.root (by simp))).2, by decide⟩⟩

section Dominance

variable {F : Function} {entry : BasicBlock} {t : DomTree} {b : BlockId} {v : ValueId}

/-- The results of the `invoke`s of a function. -/
def invoked (F : Function) : List ValueId :=
  F.blocks.flatMap fun B => B.terminator.result.toList.map Prod.fst

theorem mem_definedValues :
    v ∈ definedValues F b ↔ ∃ B ty, F.block b = some B ∧ (v, ty) ∈ definitions B ∧
      ty.isIntegerTy = true := by
  unfold definedValues
  cases hB : F.block b with
  | none => simp
  | some B => simp

/-- What is defined in the blocks above a block has a value there, unless an exception has left it
undefined. -/
theorem isSome_of_dominating {π σ : Type} {P : Platform π σ} {call : Caller π σ}
    (hentry : F.blocks.head? = some entry) {vs : List (Val π)} {s₀ s : State σ}
    {path : List BlockId} {c : Config π} (hreach : F.Reaches P call vs s₀ path c s)
    (hv : v ∈ F.params.map Prod.fst ∨
      ∃ a, StrictlyDominates F.edge entry.id a c.block ∧ v ∈ definedValues F a) :
    v ∈ invoked F ∨ (c.env v).isSome := by
  rcases hv with hv | ⟨a, ⟨-, hdom⟩, hv⟩
  · exact .inr (hreach.isSome.1 v hv)
  · have hpath := hdom path (hreach.walk hentry)
    obtain ⟨A, ty, hA, hd, hty⟩ := mem_definedValues.mp hv
    rcases List.mem_append.mp hd with hd | hd
    · refine .inr (hreach.isSome.2 a hpath A hA (v, ty) hd ?_)
      cases ty with
      | integer bits => rfl
      | _ => cases hty
    · exact .inl (List.mem_flatMap.mpr
        ⟨A, Function.block_mem hA, List.mem_map.mpr ⟨(v, ty), hd, rfl⟩⟩)

/-- Whenever a run enters a block, every value that `RIV` finds for the block is defined, unless
it is the result of an `invoke`. -/
theorem isSome_of_mem_runOnFunction {π σ : Type} {P : Platform π σ} {call : Caller π σ}
    (hentry : F.blocks.head? = some entry) (ht : IsDominatorTree F.edge entry.id t)
    {vs : List (Val π)} {s₀ s : State σ} {path : List BlockId} {c : Config π}
    (hreach : F.Reaches P call vs s₀ path c s) (hv : v ∈ runOnFunction F t c.block) :
    v ∈ invoked F ∨ (c.env v).isSome :=
  isSome_of_dominating hentry hreach (dominating_of_mem hentry ht hv).2

end Dominance

/-- A call of `twoBlocks` that has come to the second block. -/
def afterEntry : Config Empty := ⟨some 0, 1, (Env.empty.set 0 (.int 32 5)).set 1 (.int 32 10)⟩

theorem reaches_afterEntry : twoBlocks.Reaches Platform.bare (fun _ _ => throw .undefined)
    [.int 32 5] ⟨(), []⟩ [0] afterEntry ⟨(), []⟩ :=
  have hstart : twoBlocks.start [.int 32 5] = some ⟨none, 0, Env.empty.set 0 (.int 32 5)⟩ := rfl
  .step (.start hstart) rfl

theorem isSome_of_mem_runOnFunction_twoBlocks :
    1 ∈ invoked twoBlocks ∨ (afterEntry.env 1).isSome :=
  isSome_of_mem_runOnFunction rfl dominatorTree_twoBlocks reaches_afterEntry
    (mem_of_dominating rfl dominatorTree_twoBlocks ⟨[0], walk_twoBlocks_one⟩
      (.inr ⟨0, ((dominatorTree_twoBlocks.ancestor_iff 0 1).mp (.root (by simp))).2, by decide⟩))

end RIV

end Carmor.Passes
