import Carmor.Proofs.HashChains
import Mathlib.Algebra.Order.Ring.Nat

/-!
# The expansion of the buckets

`HASH_EXPAND_BUCKETS` visits the old buckets one after the other and puts every element that it
meets in front of its chain in an array of twice the size. The chains that it leaves are the
elements in the reverse of that order.
-/

namespace Carmor.HashTable

open Lib

/-- The bucket of an element in an array of `numBkts` buckets. -/
def homeIn (numBkts : Unsigned) (hh : Uintptr → UTHashHandle) (a : Uintptr) : Nat :=
  (hashToBkt (hh a).hashv numBkts).toNat

theorem toNat_hashToBkt {numBkts : Unsigned} {k : Nat} (hk : numBkts.toNat = 2 ^ k)
    (hashv : Unsigned) : (hashToBkt hashv numBkts).toNat = hashv.toNat % 2 ^ k := by
  have hpos : 0 < 2 ^ k := Nat.two_pow_pos k
  have hlt : 2 ^ k < 2 ^ 32 := hk ▸ numBkts.isLt
  have hmask : (numBkts - 1).toNat = 2 ^ k - 1 := by
    rw [BitVec.toNat_sub, hk]
    have hone : (1 : Unsigned).toNat = 1 := rfl
    omega
  rw [hashToBkt, BitVec.toNat_and, hmask, Nat.and_two_pow_sub_one_eq_mod]

theorem homeIn_lt {numBkts : Unsigned} {k : Nat} (hk : numBkts.toNat = 2 ^ k)
    (hh : Uintptr → UTHashHandle) (a : Uintptr) : homeIn numBkts hh a < 2 ^ k := by
  rw [homeIn, toNat_hashToBkt hk]
  exact Nat.mod_lt _ (Nat.two_pow_pos k)

theorem SameOrder.homeIn_eq {hh hh' : Uintptr → UTHashHandle} (h : SameOrder hh hh')
    (numBkts : Unsigned) : homeIn numBkts hh' = homeIn numBkts hh := by
  funext a
  rw [homeIn, homeIn, h.hashv_eq]

/-! ## One chain -/

/-- The new buckets and `nonideal_items` after the element `a`. -/
def place (idealChainMaxlen : Unsigned) (home : Uintptr → Nat) (r : List UTHashBucket × Unsigned)
    (a : Uintptr) : List UTHashBucket × Unsigned :=
  match r.1[home a]? with
  | some b =>
    let b' := countExpanded idealChainMaxlen b
    (r.1.set (home a) { b' with hhHead := some a },
      if idealChainMaxlen < b'.count then r.2 + 1 else r.2)
  | none => r

/-- The chains after the elements `xs`. -/
def regroup (home : Uintptr → Nat) (ch : Nat → List Uintptr) (xs : List Uintptr) (j : Nat) :
    List Uintptr :=
  (xs.filter fun a => home a = j).reverse ++ ch j

theorem regroup_nil (home : Uintptr → Nat) (ch : Nat → List Uintptr) : regroup home ch [] = ch := rfl

theorem regroup_cons (home : Uintptr → Nat) (ch : Nat → List Uintptr) (x : Uintptr)
    (xs : List Uintptr) : regroup home ch (x :: xs) =
      regroup home (Function.update ch (home x) (x :: ch (home x))) xs := by
  funext j
  rcases eq_or_ne j (home x) with rfl | hj
  · simp [regroup]
  · simp [regroup, hj, hj.symm]

theorem regroup_append (home : Uintptr → Nat) (ch : Nat → List Uintptr) (xs ys : List Uintptr) :
    regroup home ch (xs ++ ys) = regroup home (regroup home ch xs) ys := by
  funext j
  simp [regroup]

theorem mem_regroup {home : Uintptr → Nat} {ch : Nat → List Uintptr} {xs : List Uintptr} {j : Nat}
    {a : Uintptr} : a ∈ regroup home ch xs j ↔ (a ∈ xs ∧ home a = j) ∨ a ∈ ch j := by
  simp [regroup]

theorem countExpanded_count (ideal : Unsigned) (b : UTHashBucket) :
    (countExpanded ideal b).count = b.count + 1 := by
  rw [countExpanded]
  split <;> rfl

theorem length_place (ideal : Unsigned) (home : Uintptr → Nat) (r : List UTHashBucket × Unsigned)
    (a : Uintptr) : (place ideal home r a).1.length = r.1.length := by
  rw [place]
  split <;> simp

theorem length_foldl_place (ideal : Unsigned) (home : Uintptr → Nat) (xs : List Uintptr)
    (r : List UTHashBucket × Unsigned) :
    (xs.foldl (place ideal home) r).1.length = r.1.length := by
  induction xs generalizing r with
  | nil => rfl
  | cons x xs ih => rw [List.foldl_cons, ih, length_place]

/-- The table while the loops run. -/
def movedTable (home : Uintptr → Nat) (nb : List UTHashBucket) (t : UTHashTable)
    (xs : List Uintptr) : UTHashTable :=
  { t with nonidealItems := (xs.foldl (place t.idealChainMaxlen home) (nb, t.nonidealItems)).2 }

/-- What the loops of `HASH_EXPAND_BUCKETS` have done after the elements `xs`, when they started
with the new buckets `nb` and their chains `ch`. -/
structure Moved (home : Uintptr → Nat) (ch : Nat → List Uintptr) (nb : List UTHashBucket)
    (t : UTHashTable) (xs : List Uintptr) (S : State) (nb' : List UTHashBucket) (S' : State) :
    Prop where
  buckets : nb' = (xs.foldl (place t.idealChainMaxlen home) (nb, t.nonidealItems)).1
  state : S' = { S with hh := S'.hh, tbl := some (movedTable home nb t xs) }
  order : SameOrder S.hh S'.hh
  chains : Chains S'.hh nb' home (regroup home ch xs)
  frame : ∀ a, a ∉ xs → (∀ j, a ∉ ch j) → S'.hh a = S.hh a

section Expand

variable {S : State} {t : UTHashTable} {n : Unsigned} {home : Uintptr → Nat}
  {nb : List UTHashBucket} {ch : Nat → List Uintptr} {fuel : Nat}

theorem Moved.nil (ht : S.tbl = some t) (hchains : Chains S.hh nb home ch) :
    Moved home ch nb t [] S nb S := by
  refine ⟨rfl, ?_, .refl S.hh, hchains, fun _ _ _ => rfl⟩
  obtain ⟨hh, live, head, tbl, requests⟩ := S
  cases ht
  rfl

theorem Moved.append {xs ys : List Uintptr} {nb₁ nb₂ : List UTHashBucket} {S₁ S₂ : State}
    (h₁ : Moved home ch nb t xs S nb₁ S₁)
    (h₂ : Moved home (regroup home ch xs) nb₁ (movedTable home nb t xs) ys S₁ nb₂ S₂) :
    Moved home ch nb t (xs ++ ys) S nb₂ S₂ := by
  have hfold : ys.foldl (place t.idealChainMaxlen home) (nb₁, (movedTable home nb t xs).nonidealItems) =
      (xs ++ ys).foldl (place t.idealChainMaxlen home) (nb, t.nonidealItems) := by
    rw [List.foldl_append, h₁.buckets]
    rfl
  refine ⟨?_, ?_, h₁.order.trans h₂.order, ?_, ?_⟩
  · rw [← hfold]
    exact h₂.buckets
  · have htable : movedTable home nb₁ (movedTable home nb t xs) ys = movedTable home nb t (xs ++ ys) := by
      simp only [movedTable, ← hfold]
    rw [h₂.state, htable, h₁.state]
  · rw [regroup_append]
    exact h₂.chains
  · intro a ha hach
    obtain ⟨hxs, hys⟩ := not_or.mp (mt List.mem_append.mpr ha)
    rw [h₂.frame a hys fun j hj => (mem_regroup.mp hj).elim (fun h => hxs h.1) (hach j),
      h₁.frame a hxs hach]

section Moved

variable {xs : List Uintptr} {nb' : List UTHashBucket} {S' : State}
  (h : Moved home ch nb t xs S nb' S')

include h

theorem Moved.live_eq : S'.live = S.live := by rw [h.state]

theorem Moved.tbl_eq : S'.tbl = some (movedTable home nb t xs) := by rw [h.state]

theorem Moved.length_eq : nb'.length = nb.length := by rw [h.buckets, length_foldl_place]

theorem Moved.linked {p : Option Uintptr} {ys : List Uintptr}
    (hlinked : Linked (hhNexts S.hh) (hhPrevs S.hh) p ys none) (hxs : ∀ a ∈ ys, a ∉ xs)
    (hch : ∀ a ∈ ys, ∀ j, a ∉ ch j) : Linked (hhNexts S'.hh) (hhPrevs S'.hh) p ys none := by
  have hsame : ∀ a ∈ ys, S'.hh a = S.hh a := fun a ha => h.frame a (hxs a ha) (hch a ha)
  exact hlinked.congr (fun a ha => congrArg UTHashHandle.hhNext (hsame a ha))
    fun a ha => congrArg UTHashHandle.hhPrev (hsame a ha)

theorem Moved.live_chains (hlive : ∀ j, ∀ a ∈ ch j, S.live a = true)
    (hxs : ∀ a ∈ xs, S.live a = true) : ∀ j, ∀ a ∈ regroup home ch xs j, S'.live a = true := by
  intro j a ha
  rw [h.live_eq]
  exact (mem_regroup.mp ha).elim (fun hmem => hxs a hmem.1) (hlive j a)

end Moved

/-- One element moved. -/
theorem run_expandChain_cons {x : Uintptr} {next : Option Uintptr} (fuel : Nat) (ht : S.tbl = some t)
    (hhome : homeIn (n * 2) S.hh = home) (hlt : home x < nb.length)
    (hchains : Chains S.hh nb home ch) (hlive : ∀ j, ∀ a ∈ ch j, S.live a = true)
    (hx : S.live x = true) (hfresh : x ∉ ch (home x)) (hnext : (S.hh x).hhNext = next) :
    ∃ nb' S', expandChain n (fuel + 1) (some x) nb S = expandChain n fuel next nb' S' ∧
      Moved home ch nb t [x] S nb' S' := by
  obtain ⟨b, hb⟩ : ∃ b, nb[home x]? = some b := ⟨_, List.getElem?_eq_getElem hlt⟩
  have hidx : (hashToBkt (S.hh x).hashv (n * 2)).toNat = home x := congrFun hhome x
  have hhead := hchains.hhHead hb
  have hfirst : ∀ f ∈ b.hhHead, f ∈ ch (home x) := fun f hf =>
    List.mem_of_mem_head? (hhead ▸ hf)
  have htbl : (if t.idealChainMaxlen < (countExpanded t.idealChainMaxlen b).count then
        { t with nonidealItems := t.nonidealItems + 1 } else t) = movedTable home nb t [x] := by
    simp only [movedTable, List.foldl_cons, List.foldl_nil, place, hb]
    split <;> rfl
  refine ⟨nb.set (home x) { countExpanded t.idealChainMaxlen b with hhHead := some x },
    { S with hh := pushFront S.hh b.hhHead x, tbl := some (movedTable home nb t [x]) }, ?_,
    ?_, rfl, sameOrder_pushFront S.hh b.hhHead x, ?_, ?_⟩
  · subst hnext
    rw [expandChain, bind_of_ok (load_of_live hx)]
    simp only [hidx, hb]
    rw [bind_of_ok (table_of_some ht), bind_of_ok (setTable_of_some _ ht), htbl, run_pushFront]
    · exact hx
    · exact fun f hf => hlive _ f (hfirst f hf)
  · simp [place, hb]
  · rw [regroup_cons, regroup_nil]
    exact hchains.push hfresh hb rfl (countExpanded_count _ b)
  · intro a ha hach
    exact pushFront_of_ne (fun h => ha (h ▸ List.mem_cons_self)) fun hf => hach _ (hfirst a hf)

theorem run_expandChain {p : Option Uintptr} {xs : List Uintptr} (ht : S.tbl = some t)
    (hhome : homeIn (n * 2) S.hh = home) (hlt : ∀ a, home a < nb.length)
    (hchains : Chains S.hh nb home ch) (hlive : ∀ j, ∀ a ∈ ch j, S.live a = true)
    (hlinked : Linked (hhNexts S.hh) (hhPrevs S.hh) p xs none) (hnodup : xs.Nodup)
    (hxs : ∀ a ∈ xs, S.live a = true) (hfresh : ∀ a ∈ xs, ∀ j, a ∉ ch j)
    (hfuel : xs.length ≤ fuel) :
    ∃ nb' S', expandChain n fuel xs.head? nb S = .ok nb' S' ∧ Moved home ch nb t xs S nb' S' := by
  induction xs generalizing S t p nb ch fuel with
  | nil => exact ⟨nb, S, by cases fuel <;> rfl, .nil ht hchains⟩
  | cons x xs ih =>
    obtain ⟨fuel, rfl⟩ := Nat.exists_eq_add_of_le' (Nat.le_trans (Nat.succ_pos _) hfuel)
    obtain ⟨hx, hxs⟩ := List.forall_mem_cons.mp hxs
    obtain ⟨hfreshx, hfresh⟩ := List.forall_mem_cons.mp hfresh
    obtain ⟨hxnot, hnodup⟩ := List.nodup_cons.mp hnodup
    obtain ⟨-, hnext, hrest⟩ := hlinked
    obtain ⟨nb₁, S₁, hrun₁, hmoved₁⟩ := run_expandChain_cons fuel ht hhome (hlt x) hchains hlive
      hx (hfreshx _) (hnext.trans Option.or_none)
    have hxs₁ : ∀ a ∈ xs, a ∉ [x] := fun a ha hax => hxnot (List.mem_singleton.mp hax ▸ ha)
    have hfresh₁ : ∀ a ∈ xs, ∀ j, a ∉ regroup home ch [x] j := fun a ha j haj =>
      (mem_regroup.mp haj).elim (fun h => hxs₁ a ha h.1) (hfresh a ha j)
    obtain ⟨nb₂, S₂, hrun₂, hmoved₂⟩ := ih hmoved₁.tbl_eq
      ((hmoved₁.order.homeIn_eq _).trans hhome) (by rwa [hmoved₁.length_eq]) hmoved₁.chains
      (hmoved₁.live_chains hlive (by simpa using hx)) (hmoved₁.linked hrest hxs₁ hfresh) hnodup
      (by rwa [hmoved₁.live_eq]) hfresh₁ (Nat.le_of_succ_le_succ hfuel)
    exact ⟨nb₂, S₂, hrun₁.trans hrun₂, hmoved₁.append hmoved₂⟩

/-- The chains `old` of the buckets that `is` numbers moved. -/
theorem run_expandChains {old : Nat → List Uintptr} {is : List Nat} (ht : S.tbl = some t)
    (hhome : homeIn (n * 2) S.hh = home) (hlt : ∀ a, home a < nb.length)
    (hchains : Chains S.hh nb home ch) (hlive : ∀ j, ∀ a ∈ ch j, S.live a = true)
    (hold : ∀ i ∈ is, i < 2 ^ 32 ∧ ∃ b, t.buckets[i]? = some b ∧ b.hhHead = (old i).head?)
    (hlinked : ∀ i ∈ is, Linked (hhNexts S.hh) (hhPrevs S.hh) none (old i) none)
    (hnodup : (is.flatMap old).Nodup) (hxs : ∀ a ∈ is.flatMap old, S.live a = true)
    (hfresh : ∀ a ∈ is.flatMap old, ∀ j, a ∉ ch j)
    (hfuel : ∀ i ∈ is, (old i).length ≤ fuel) :
    ∃ nb' S', expandChains n fuel is nb S = .ok nb' S' ∧
      Moved home ch nb t (is.flatMap old) S nb' S' := by
  induction is generalizing S t nb ch with
  | nil => exact ⟨nb, S, rfl, .nil ht hchains⟩
  | cons i is ih =>
    obtain ⟨⟨hi, b, hb, hhead⟩, hold⟩ := List.forall_mem_cons.mp hold
    obtain ⟨hlinkedi, hlinked⟩ := List.forall_mem_cons.mp hlinked
    obtain ⟨hfueli, hfuel⟩ := List.forall_mem_cons.mp hfuel
    rw [List.flatMap_cons] at hnodup hxs hfresh ⊢
    obtain ⟨hnodupi, hnodup, hdisj⟩ := List.nodup_append'.mp hnodup
    obtain ⟨hxsi, hxs⟩ := List.forall_mem_append.mp hxs
    obtain ⟨hfreshi, hfresh⟩ := List.forall_mem_append.mp hfresh
    have hidx : (BitVec.ofNat 32 i).toNat = i := Nat.mod_eq_of_lt hi
    have hbucket : bucketAt (BitVec.ofNat 32 i) S = .ok b S :=
      bucketAt_of_some ht (by rwa [hidx])
    obtain ⟨nb₁, S₁, hrun₁, hmoved₁⟩ := run_expandChain ht hhome hlt hchains hlive hlinkedi hnodupi
      hxsi hfreshi hfueli
    have hold₁ : ∀ a ∈ is.flatMap old, a ∉ old i := fun a ha hai => hdisj hai ha
    obtain ⟨nb₂, S₂, hrun₂, hmoved₂⟩ := ih hmoved₁.tbl_eq
      ((hmoved₁.order.homeIn_eq _).trans hhome) (by rwa [hmoved₁.length_eq]) hmoved₁.chains
      (hmoved₁.live_chains hlive hxsi) hold
      (fun j hj => hmoved₁.linked (hlinked j hj)
        (fun a ha => hold₁ a (List.mem_flatMap.mpr ⟨j, hj, ha⟩))
        fun a ha => hfresh a (List.mem_flatMap.mpr ⟨j, hj, ha⟩))
      hnodup (by rwa [hmoved₁.live_eq])
      (fun a ha j haj => (mem_regroup.mp haj).elim (fun h => hold₁ a ha h.1) (hfresh a ha j)) hfuel
    refine ⟨nb₂, S₂, ?_, hmoved₁.append hmoved₂⟩
    rw [expandChains, bind_of_ok hbucket, hhead, bind_of_ok hrun₁]
    exact hrun₂

end Expand

/-! ## The whole expansion -/

/-- A table of `2 ^ k` buckets. -/
structure Sized (t : UTHashTable) (k : Nat) : Prop where
  numBuckets : t.numBuckets.toNat = 2 ^ k
  log2NumBuckets : t.log2NumBuckets.toNat = k
  length : t.buckets.length = 2 ^ k

theorem Sized.le {t : UTHashTable} {k : Nat} (h : Sized t k) : k ≤ 31 := by
  have hlt : 2 ^ k < 2 ^ 32 := h.numBuckets ▸ t.numBuckets.isLt
  exact Nat.le_of_lt_succ ((Nat.pow_lt_pow_iff_right (by decide)).mp hlt)

/-- The table after an expansion that visits the elements `xs`. -/
def expandedTable (home : Uintptr → Nat) (t : UTHashTable) (xs : List Uintptr) : UTHashTable :=
  let ideal := (t.numItems >>> (t.log2NumBuckets + 1)) +
    (if t.numItems &&& (t.numBuckets * 2 - 1) ≠ 0 then 1 else 0)
  let r := xs.foldl (place ideal home) (List.replicate (2 * t.numBuckets.toNat) {}, 0)
  let ineffExpands := if t.numItems >>> 1 < r.2 then t.ineffExpands + 1 else 0
  { t with
    idealChainMaxlen := ideal
    nonidealItems := r.2
    numBuckets := t.numBuckets * 2
    log2NumBuckets := t.log2NumBuckets + 1
    buckets := r.1
    ineffExpands := ineffExpands
    noexpand := if 1 < ineffExpands then 1 else t.noexpand }

/-- The old buckets in the order of the outer loop. -/
def visited (t : UTHashTable) (ch : Nat → List Uintptr) : List Uintptr :=
  (List.range t.numBuckets.toNat).flatMap ch

section Whole

variable {malloc : Malloc} {S : State} {t : UTHashTable} {k : Nat} {ch : Nat → List Uintptr}
  {fuel : Nat}

theorem nodup_visited (hchains : Chains S.hh t.buckets (homeIn t.numBuckets S.hh) ch) :
    (visited t ch).Nodup := by
  refine List.nodup_flatMap.mpr ⟨fun j _ => hchains.nodup j, ?_⟩
  refine List.nodup_range.imp ?_
  exact fun hij a hi hj => hchains.not_mem_of_ne hij hi hj

theorem mem_visited (hsized : Sized t k)
    (hchains : Chains S.hh t.buckets (homeIn t.numBuckets S.hh) ch) {a : Uintptr} :
    a ∈ visited t ch ↔ a ∈ ch (homeIn t.numBuckets S.hh a) := by
  simp only [visited, List.mem_flatMap, List.mem_range]
  constructor
  · rintro ⟨j, -, ha⟩
    rwa [hchains.home ha]
  · intro ha
    exact ⟨_, hsized.numBuckets ▸ homeIn_lt hsized.numBuckets S.hh a, ha⟩

theorem toNat_numBuckets_mul_two (hsized : Sized t k) (hk : k < 31) :
    (t.numBuckets * 2).toNat = 2 ^ (k + 1) := by
  have hpow : 2 ^ (k + 1) < 2 ^ 32 := Nat.pow_lt_pow_right (by decide) (by omega)
  rw [BitVec.toNat_mul, hsized.numBuckets]
  exact Nat.mod_eq_of_lt hpow

theorem run_hashExpandBuckets (ht : S.tbl = some t) (hsized : Sized t k) (hk : k < 31)
    (hmalloc : malloc S.requests (2 * t.numBuckets.setWidth 64 * sizeofBucket) = true)
    (hchains : Chains S.hh t.buckets (homeIn t.numBuckets S.hh) ch)
    (hlive : ∀ j, ∀ a ∈ ch j, S.live a = true) (hfuel : ∀ j, (ch j).length ≤ fuel) :
    ∃ hh', hashExpandBuckets malloc fuel S = .ok ()
        { S with
          hh := hh'
          tbl := some (expandedTable (homeIn (t.numBuckets * 2) S.hh) t (visited t ch))
          requests := S.requests + 1 } ∧
      SameOrder S.hh hh' ∧
      Chains hh' (expandedTable (homeIn (t.numBuckets * 2) S.hh) t (visited t ch)).buckets
        (homeIn (t.numBuckets * 2) S.hh)
        (regroup (homeIn (t.numBuckets * 2) S.hh) (fun _ => []) (visited t ch)) := by
  have hdouble := toNat_numBuckets_mul_two hsized hk
  let t₁ : UTHashTable := { t with
    idealChainMaxlen := (t.numItems >>> (t.log2NumBuckets + 1)) +
      (if t.numItems &&& (t.numBuckets * 2 - 1) ≠ 0 then 1 else 0)
    nonidealItems := 0 }
  let S₁ : State := { S with tbl := some t₁, requests := S.requests + 1 }
  have hgranted : uthashMalloc malloc (2 * t.numBuckets.setWidth 64 * sizeofBucket) S =
      .ok () { S with requests := S.requests + 1 } := if_pos hmalloc
  have hshift : ∀ S' : State, checkShift (t.log2NumBuckets + 1) S' = .ok () S' := by
    intro S'
    have hlog : (t.log2NumBuckets + 1).toNat = k + 1 := by
      rw [BitVec.toNat_add, hsized.log2NumBuckets]
      exact Nat.mod_eq_of_lt (show k + 1 < 2 ^ 32 by omega)
    rw [checkShift, if_neg, pure_apply]
    rw [BitVec.le_def, hlog]
    exact Nat.not_le.mpr (Nat.succ_lt_succ hk)
  have hlt : ∀ a, homeIn (t.numBuckets * 2) S.hh a <
      (List.replicate (2 * t.numBuckets.toNat) ({} : UTHashBucket)).length := by
    intro a
    rw [List.length_replicate, hsized.numBuckets, ← Nat.pow_succ']
    exact homeIn_lt hdouble S.hh a
  have hold : ∀ i ∈ List.range t.numBuckets.toNat, i < 2 ^ 32 ∧
      ∃ b, t₁.buckets[i]? = some b ∧ b.hhHead = (ch i).head? := by
    intro i hi
    have hi := List.mem_range.mp hi
    have hlen : i < t.buckets.length := by rwa [hsized.length, ← hsized.numBuckets]
    have hbucket := List.getElem?_eq_getElem hlen
    exact ⟨Nat.lt_trans hi t.numBuckets.isLt, _, hbucket, hchains.hhHead hbucket⟩
  have hlive' : ∀ a ∈ visited t ch, S.live a = true := by
    intro a ha
    obtain ⟨j, -, ha⟩ := List.mem_flatMap.mp ha
    exact hlive j a ha
  obtain ⟨nb', S', hrun, hmoved⟩ : ∃ nb' S', expandChains t.numBuckets fuel
      (List.range t.numBuckets.toNat) (List.replicate (2 * t.numBuckets.toNat) {}) S₁ = .ok nb' S' ∧
      Moved (homeIn (t.numBuckets * 2) S.hh) (fun _ => [])
        (List.replicate (2 * t.numBuckets.toNat) {}) t₁ (visited t ch) S₁ nb' S' :=
    run_expandChains rfl rfl hlt (chains_empty ..) (fun _ _ ha => absurd ha List.not_mem_nil) hold
      (fun i _ => hchains.linked i) (nodup_visited hchains) hlive'
      (fun _ _ _ => List.not_mem_nil) (fun i _ => hfuel i)
  refine ⟨S'.hh, ?_, hmoved.order, ?_⟩
  · rw [hashExpandBuckets, bind_of_ok (table_of_some ht), bind_of_ok hgranted,
      bind_of_ok (hshift _),
      bind_of_ok (setTable_of_some (S := { S with requests := S.requests + 1 }) _ ht), bind_of_ok hrun,
      bind_of_ok (setTable_of_some _ hmoved.tbl_eq), setTable_of_some _ rfl, hmoved.state,
      hmoved.buckets]
    rfl
  · have hbuckets : nb' = (expandedTable (homeIn (t.numBuckets * 2) S.hh) t (visited t ch)).buckets :=
      hmoved.buckets
    rw [← hbuckets]
    exact hmoved.chains

end Whole

end Carmor.HashTable
