import Carmor.Passes.Clones

/-!
# The blocks of a function after a duplication

What `duplicate` leaves at each block number: the chosen block keeps its phi nodes and tests the
context value, three new blocks follow it, and every other block has its phi nodes redirected to
the tail. A run that comes from the tail reads in them what it read when it came from the chosen
block.
-/

namespace Carmor.Passes

open Lib

variable {π σ : Type} {P : Platform π σ} {call : Caller π σ} {F : Function}

theorem Function.lt_nextBlock {B : BasicBlock} (hB : B ∈ F.blocks) {b : BlockId}
    (hb : b ∈ B.mentioned) : b < F.nextBlock :=
  lt_foldr_max (List.mem_flatMap.mpr ⟨B, hB, hb⟩)

theorem Function.id_lt_nextBlock {B : BasicBlock} (hB : B ∈ F.blocks) : B.id < F.nextBlock :=
  lt_nextBlock hB List.mem_cons_self

theorem Function.edge_lt_nextBlock {b c : BlockId} (h : F.edge b c) :
    b < F.nextBlock ∧ c < F.nextBlock := by
  obtain ⟨B, hB, hc⟩ := h
  have hmem := block_mem hB
  refine ⟨block_id hB ▸ id_lt_nextBlock hmem, lt_nextBlock hmem ?_⟩
  exact List.mem_cons_of_mem _ (List.mem_append_left _ hc)

theorem Function.incoming_lt_nextBlock {B : BasicBlock} (hB : B ∈ F.blocks) {p : PHINode}
    (hp : p ∈ B.phis) {a : BlockId} (ha : a ∈ p.incoming.map Prod.fst) : a < F.nextBlock :=
  lt_nextBlock hB (List.mem_cons_of_mem _ (List.mem_append_right _ (List.mem_flatMap.mpr
    ⟨p, hp, ha⟩)))

namespace DuplicateBB

/-! ## Phi nodes -/

/-- The predecessor from which a phi node of the new function expects what came from `a`. -/
def redirect (b tail a : BlockId) : BlockId := if a = b then tail else a

variable {b tail a : BlockId}

theorem redirect_of_ne (h : a ≠ b) : redirect b tail a = a := if_neg h

@[simp] theorem redirect_self : redirect b tail b = tail := if_pos rfl

theorem redirect_inj {a' : BlockId} (ha : a ≠ tail) (ha' : a' ≠ tail)
    (h : redirect b tail a = redirect b tail a') : a = a' := by
  unfold redirect at h
  split at h <;> split at h <;> simp_all

theorem lookup_map_key {α : Type} {g : BlockId → BlockId} {es : List (BlockId × α)}
    (h : ∀ e ∈ es, g a = g e.1 → a = e.1) :
    (es.map fun e => (g e.1, e.2)).lookup (g a) = es.lookup a := by
  induction es with
  | nil => rfl
  | cons e es ih =>
    rw [List.forall_mem_cons] at h
    rw [List.map_cons, List.lookup_cons, List.lookup_cons, ih h.2]
    by_cases ha : a = e.1
    · rw [ha, beq_self_eq_true, beq_self_eq_true]
    · rw [beq_false_of_ne ha, beq_false_of_ne fun hg => ha (h.1 hg)]

theorem value_replaceIncoming {p : PHINode} (ha : a ≠ tail)
    (htail : tail ∉ p.incoming.map Prod.fst) :
    (p.replaceIncoming b tail).value (redirect b tail a) = p.value a := by
  refine lookup_map_key fun e he h => redirect_inj ha ?_ h
  rintro rfl
  exact htail (List.mem_map_of_mem he)

/-- Phi nodes of the same names and values are read alike. -/
theorem readPhis_map {prev prev' : Option BlockId} {env : Env π} {phis : List PHINode}
    {f : PHINode → PHINode} (hf : ∀ p ∈ phis, (f p).id = p.id ∧
      prev'.bind (f p).value = prev.bind p.value) :
    readPhis P prev' env (phis.map f) = readPhis P prev env phis := by
  induction phis with
  | nil => rfl
  | cons p ps ih =>
    rw [List.forall_mem_cons] at hf
    rw [List.map_cons, readPhis, readPhis, hf.1.1, hf.1.2, ih hf.2]

variable {C : BasicBlock} {successors : List BlockId}

@[simp] theorem replacePhiUses_id : (replacePhiUses successors b tail C).id = C.id := by
  unfold replacePhiUses
  split <;> rfl

@[simp] theorem replacePhiUses_body : (replacePhiUses successors b tail C).body = C.body := by
  unfold replacePhiUses
  split <;> rfl

@[simp] theorem replacePhiUses_terminator :
    (replacePhiUses successors b tail C).terminator = C.terminator := by
  unfold replacePhiUses
  split <;> rfl

theorem replacePhiUses_names :
    (replacePhiUses successors b tail C).phis.map PHINode.id = C.phis.map PHINode.id := by
  unfold replacePhiUses
  split
  · rw [List.map_map]
    rfl
  · rfl

/-- A redirected block reads from the tail what it read from the block `b`, whose successors are
the blocks redirected. -/
theorem readPhis_replacePhiUses {prev : Option BlockId} {env : Env π}
    (hprev : ∀ a ∈ prev, a ≠ tail ∧ (a = b → C.id ∈ successors))
    (htail : ∀ p ∈ C.phis, tail ∉ p.incoming.map Prod.fst) :
    readPhis P (prev.map (redirect b tail)) env (replacePhiUses successors b tail C).phis =
      readPhis P prev env C.phis := by
  unfold replacePhiUses
  split
  · refine readPhis_map fun p hp => ⟨rfl, ?_⟩
    cases prev with
    | none => rfl
    | some a => exact value_replaceIncoming (hprev a rfl).1 (htail p hp)
  · rename_i hC
    cases prev with
    | none => rfl
    | some a =>
      rw [Option.map_some, redirect_of_ne fun ha => hC ((hprev a rfl).2 ha)]

/-! ## Blocks -/

section Duplicate

variable (F) (b) (context : ValueId × Ty) (B : BasicBlock)

/-- What takes the place of a block. -/
def pieces (C : BasicBlock) : List BasicBlock :=
  let C := replacePhiUses B.terminator.successors b (F.nextBlock + 2) C
  if C.id = b then
    splitBlock F.nextName F.nextBlock (F.nextBlock + 1) (F.nextBlock + 2) C context
  else [C]

/-- The chosen block after the duplication. -/
def headBlock : BasicBlock :=
  { replacePhiUses B.terminator.successors b (F.nextBlock + 2) B with
    body := [⟨F.nextName, .integer 1, .isNull context.2 (.reg context.1)⟩]
    terminator := .condBr (.reg F.nextName) F.nextBlock (F.nextBlock + 1) }

def branchBlock (n : BlockId) (next : ValueId) : BasicBlock :=
  { id := n, phis := [], body := branchBody next id B.body, terminator := .br (F.nextBlock + 2),
    isLandingPad := false }

def tailBlock : BasicBlock :=
  { id := F.nextBlock + 2,
    phis := (cloneBody F.nextBlock (F.nextBlock + 1) (F.nextName + 1) id id B.body).phis,
    body := [], terminator := B.terminator, isLandingPad := false }

end Duplicate

variable {context : ValueId × Ty} {B : BasicBlock}

theorem duplicate_blocks (context : ValueId × Ty) (hB : F.block b = some B) :
    (duplicate F b context).blocks = F.blocks.flatMap (pieces F b context B) := by
  simp only [duplicate, hB]
  rfl

theorem pieces_of_ne (hC : C.id ≠ b) :
    pieces F b context B C =
      [replacePhiUses B.terminator.successors b (F.nextBlock + 2) C] := by
  unfold pieces
  rw [if_neg (by simpa using hC)]

theorem pieces_self (hB : B.id = b) :
    pieces F b context B B =
      [headBlock F b context B, branchBlock F B F.nextBlock (F.nextName + 1),
        branchBlock F B (F.nextBlock + 1) (F.nextName + 2), tailBlock F B] := by
  unfold pieces
  rw [if_pos (by simpa using hB)]
  simp only [splitBlock, replacePhiUses_body, replacePhiUses_terminator, cloneBody_thenBody,
    cloneBody_elseBody]
  rfl

theorem pieces_ids (F : Function) (context : ValueId × Ty) (B : BasicBlock) (hC : C.id = b) :
    (pieces F b context B C).map BasicBlock.id =
      [b, F.nextBlock, F.nextBlock + 1, F.nextBlock + 2] := by
  unfold pieces
  rw [if_pos (by simpa using hC)]
  simp [splitBlock, hC]

/-- A search in the pieces of a list goes to the pieces of one element when no other piece is
found. -/
theorem find?_flatMap_pieces {α : Type} {xs : List α} {g : α → List α} {p q : α → Bool}
    (hnone : ∀ x ∈ xs, p x = false → (g x).find? q = none)
    (hsome : ∀ x ∈ xs, p x = true → ((g x).find? q).isSome) :
    (xs.flatMap g).find? q = (xs.find? p).bind fun x => (g x).find? q := by
  induction xs with
  | nil => rfl
  | cons x xs ih =>
    rw [List.forall_mem_cons] at hnone hsome
    rw [List.flatMap_cons, List.find?_append, List.find?_cons]
    cases hx : p x with
    | false => rw [hnone.1 hx, Option.none_or, ih hnone.2 hsome.2]
    | true =>
      obtain ⟨y, hy⟩ := Option.isSome_iff_exists.mp (hsome.1 hx)
      rw [hy, Option.some_or, Option.bind_some, hy]

theorem ne_of_piece {b n d m : Nat} (hd : d < n) (hne : d ≠ b) (hm : m ∈ [b, n, n + 1, n + 2]) :
    m ≠ d := by
  simp only [List.mem_cons, List.not_mem_nil, or_false] at hm
  omega

theorem block_duplicate_of_ne (context : ValueId × Ty) (hB : F.block b = some B) {d : BlockId} (hd : d < F.nextBlock)
    (hne : d ≠ b) :
    (duplicate F b context).block d =
      (F.block d).map (replacePhiUses B.terminator.successors b (F.nextBlock + 2)) := by
  have hsearch : (duplicate F b context).block d =
      (F.block d).bind fun C => (pieces F b context B C).find? fun D => D.id == d := by
    unfold Function.block
    rw [duplicate_blocks context hB]
    refine find?_flatMap_pieces ?_ ?_
    · intro C _ hCd
      rw [List.find?_eq_none]
      intro D hD
      have hid := List.mem_map_of_mem (f := BasicBlock.id) hD
      by_cases hCb : C.id = b
      · rw [pieces_ids F context B hCb] at hid
        simpa using ne_of_piece hd hne hid
      · rw [pieces_of_ne hCb, List.map_singleton, replacePhiUses_id, List.mem_singleton] at hid
        simpa [hid] using hCd
    · intro C _ hCd
      have hCb : C.id ≠ b := by
        rw [beq_iff_eq.mp hCd]
        exact hne
      rw [pieces_of_ne hCb]
      simpa using hCd
  rw [hsearch]
  cases hC : F.block d with
  | none => rfl
  | some C =>
    have hid := Function.block_id hC
    rw [Option.bind_some, pieces_of_ne (by rwa [hid])]
    simp [hid]

theorem block_duplicate_of_mem (hB : F.block b = some B) {d : BlockId}
    (hd : d ∈ [b, F.nextBlock, F.nextBlock + 1, F.nextBlock + 2]) :
    (duplicate F b context).block d =
      (pieces F b context B B).find? fun D => D.id == d := by
  have hsearch : (duplicate F b context).block d =
      (F.block b).bind fun C => (pieces F b context B C).find? fun D => D.id == d := by
    unfold Function.block
    rw [duplicate_blocks context hB]
    refine find?_flatMap_pieces ?_ ?_
    · intro C hC hCb
      have hlt := Function.id_lt_nextBlock hC
      have hne : C.id ≠ b := by simpa using hCb
      rw [pieces_of_ne hne]
      simpa using (ne_of_piece hlt hne hd).symm
    · intro C _ hCb
      rw [List.find?_isSome]
      rw [← pieces_ids F context B (beq_iff_eq.mp hCb)] at hd
      obtain ⟨D, hD, hDd⟩ := List.mem_map.mp hd
      exact ⟨D, hD, by simp [hDd]⟩
  rw [hsearch, hB, Option.bind_some]

/-! The four blocks by their numbers. -/

theorem id_lt_nextBlock_of_block (hB : F.block b = some B) : b < F.nextBlock :=
  Function.block_id hB ▸ Function.id_lt_nextBlock (Function.block_mem hB)

theorem block_head (hB : F.block b = some B) :
    (duplicate F b context).block b = some (headBlock F b context B) := by
  rw [block_duplicate_of_mem hB (by simp), pieces_self (Function.block_id hB)]
  simp [headBlock, Function.block_id hB]

theorem block_then (hB : F.block b = some B) :
    (duplicate F b context).block F.nextBlock =
      some (branchBlock F B F.nextBlock (F.nextName + 1)) := by
  have hlt := id_lt_nextBlock_of_block hB
  rw [block_duplicate_of_mem hB (by simp), pieces_self (Function.block_id hB)]
  simp [headBlock, branchBlock, Function.block_id hB, Nat.ne_of_lt hlt]

theorem block_else (hB : F.block b = some B) :
    (duplicate F b context).block (F.nextBlock + 1) =
      some (branchBlock F B (F.nextBlock + 1) (F.nextName + 2)) := by
  have hlt := id_lt_nextBlock_of_block hB
  rw [block_duplicate_of_mem hB (by simp), pieces_self (Function.block_id hB)]
  simp [headBlock, branchBlock, Function.block_id hB, Nat.ne_of_lt (Nat.lt_succ_of_lt hlt)]

theorem block_tail (hB : F.block b = some B) :
    (duplicate F b context).block (F.nextBlock + 2) = some (tailBlock F B) := by
  have hlt := id_lt_nextBlock_of_block hB
  have hne : b ≠ F.nextBlock + 2 := Nat.ne_of_lt (Nat.lt_add_right 2 hlt)
  rw [block_duplicate_of_mem hB (by simp), pieces_self (Function.block_id hB)]
  simp [headBlock, branchBlock, tailBlock, Function.block_id hB, hne]

/-- Where a call starts nothing but the parameters has a value. -/
theorem start_below {vs : List (Val π)} {c : Config π} (hc : F.start vs = some c) :
    c.prev = none ∧ c.env.Below F.nextName := by
  unfold Function.start at hc
  cases hB : F.blocks.head? with
  | none => simp [hB] at hc
  | some B =>
    cases henv : F.bindParams vs with
    | none => simp [hB, henv] at hc
    | some env =>
      simp only [hB, henv, Option.some.injEq] at hc
      subst hc
      refine ⟨rfl, ?_⟩
      unfold Function.bindParams at henv
      split at henv
      · obtain rfl := Option.some.inj henv
        have hempty : (Env.empty : Env π).Within F.nextName Env.empty :=
          ⟨fun _ _ => rfl, fun _ _ h => h⟩
        refine (hempty.setAll fun x hx => ?_).below
        obtain ⟨e, he, rfl⟩ := List.mem_map.mp hx
        exact lt_nextName (List.mem_append_left _ (List.of_mem_zip he).1)
      · cases henv

/-- Calls of the new function start where they started. -/
theorem start_duplicate (vs : List (Val π)) :
    (duplicate F b context).start vs = F.start vs := by
  cases hB : F.block b with
  | none => simp only [duplicate, hB]
  | some B =>
    refine Function.start_congr (by simp only [duplicate, hB]) ?_ vs
    rw [duplicate_blocks context hB]
    cases F.blocks with
    | nil => rfl
    | cons C Cs =>
      rw [List.flatMap_cons]
      by_cases hC : C.id = b
      · have hids := pieces_ids F context B hC
        generalize pieces F b context B C = Ds at hids
        cases Ds with
        | nil => cases hids
        | cons D Ds =>
          rw [List.map_cons, List.cons.injEq] at hids
          simp [hids.1, hC]
      · rw [pieces_of_ne hC]
        simp

end DuplicateBB

end Carmor.Passes
