import Carmor.Proofs.HashExpand
import Mathlib.Data.List.Perm.Subperm
import Mathlib.Data.List.TakeWhile

/-!
# The table and the order of insertion

A state represents a list of elements: the pointers of the order of insertion run through the list,
and every element is in the chain of the bucket that its hash value selects. The macros keep the
representation, whatever `malloc` answers, or stop for lack of memory.
-/

namespace Carmor.HashTable

open Lib

/-! ## Lack of memory -/

/-- A computation completes with `Q` unless its last request for memory was refused, or was one for
the 64 GiB that more than `2 ^ 31` buckets take and was granted. -/
inductive Completes (malloc : Malloc) {α : Type} (Q : α → State → Prop) :
    EStateM.Result Stop State α → Prop
  | ok {a S} : Q a S → Completes malloc Q (.ok a S)
  | exit {S : State} {n size} : S.requests = n + 1 → malloc n size = false →
      Completes malloc Q (.error .exit S)
  | undefined {S : State} {n size} : S.requests = n + 1 → 2 ^ 36 ≤ size.toNat →
      malloc n size = true → Completes malloc Q (.error .undefined S)

section Completes

variable {malloc : Malloc} {α β : Type} {x : Exec α} {f : α → Exec β} {S : State}
  {P P' : α → State → Prop} {Q : β → State → Prop}

theorem Completes.mono {r : EStateM.Result Stop State α} (h : Completes malloc P r)
    (hP : ∀ a S', P a S' → P' a S') : Completes malloc P' r := by
  cases h with
  | ok ha => exact .ok (hP _ _ ha)
  | exit hn hmalloc => exact .exit hn hmalloc
  | undefined hn hsize hmalloc => exact .undefined hn hsize hmalloc

theorem Completes.bind (hx : Completes malloc P (x S))
    (hf : ∀ a S', P a S' → Completes malloc Q (f a S')) : Completes malloc Q ((x >>= f) S) := by
  rw [bind_apply]
  cases hresult : x S with
  | ok a S' =>
    rw [hresult] at hx
    cases hx with
    | ok ha => exact hf a S' ha
  | error e S' =>
    rw [hresult] at hx
    cases hx with
    | exit hn hmalloc => exact .exit hn hmalloc
    | undefined hn hsize hmalloc => exact .undefined hn hsize hmalloc

theorem completes_of_ok {r : EStateM.Result Stop State α} {a : α} {S' : State} (hr : r = .ok a S')
    (hP : P a S') : Completes malloc P r := by
  rw [hr]
  exact .ok hP

theorem completes_uthashMalloc (size : SizeT) :
    Completes malloc (fun _ S' => S' = { S with requests := S.requests + 1 } ∧
      malloc S.requests size = true) (uthashMalloc malloc size S) := by
  rw [uthashMalloc]
  split
  · rename_i h
    exact .ok ⟨rfl, h⟩
  · rename_i h
    exact .exit rfl (Bool.eq_false_iff.mpr h)

end Completes

/-! ## The buckets -/

/-- The buckets of the table `t` hold the elements `xs`, with the chains `ch`. -/
structure Buckets (S : State) (t : UTHashTable) (xs : List Uintptr) (ch : Nat → List Uintptr) :
    Prop where
  sized : ∃ k, Sized t k
  numItems : t.numItems = BitVec.ofNat 32 xs.length
  chains : Chains S.hh t.buckets (homeIn t.numBuckets S.hh) ch
  mem : ∀ {a}, a ∈ ch (homeIn t.numBuckets S.hh a) ↔ a ∈ xs

section Buckets

variable {malloc : Malloc} {S : State} {t : UTHashTable} {xs : List Uintptr}
  {ch : Nat → List Uintptr} {fuel : Nat} {a : Uintptr}

theorem Buckets.mem_of_mem (h : Buckets S t xs ch) {j : Nat} (ha : a ∈ ch j) : a ∈ xs := by
  rw [← h.mem, h.chains.home ha]
  exact ha

theorem Buckets.bucket (h : Buckets S t xs ch) (a : Uintptr) :
    ∃ b, t.buckets[homeIn t.numBuckets S.hh a]? = some b := by
  obtain ⟨k, hk⟩ := h.sized
  have hlt := homeIn_lt hk.numBuckets S.hh a
  rw [← hk.length] at hlt
  exact ⟨_, List.getElem?_eq_getElem hlt⟩

theorem Buckets.length_le (h : Buckets S t xs ch) (j : Nat) :
    (ch j).length ≤ xs.length :=
  (List.subperm_of_subset (h.chains.nodup j) fun _ ha => h.mem_of_mem ha).length_le

/-- The table with `a` counted in and in front of the chain of the bucket `bkt`. -/
def pushedTable (t : UTHashTable) (bkt : Nat) (b : UTHashBucket) (a : Uintptr) : UTHashTable :=
  { t with buckets := t.buckets.set bkt { b with count := b.count + 1, hhHead := some a } }

/-- `HASH_ADD_TO_BKT` up to the test of the length of the chain. -/
theorem run_hashAddToBkt {bkt : Unsigned} {b : UTHashBucket} (ht : S.tbl = some t)
    (hb : t.buckets[bkt.toNat]? = some b) (ha : S.live a = true)
    (hfirst : ∀ f ∈ b.hhHead, S.live f = true) :
    hashAddToBkt malloc fuel bkt a S =
      (if (b.expandMult + 1) * hashBktCapacityThresh ≤ b.count + 1 ∧ t.noexpand = 0 then
        hashExpandBuckets malloc fuel else pure ())
        { S with
          hh := pushFront S.hh b.hhHead a
          tbl := some (pushedTable t bkt.toNat b a) } := by
  have hlt := (List.getElem?_eq_some_iff.mp hb).1
  have hb' : (t.buckets.set bkt.toNat { b with count := b.count + 1 })[bkt.toNat]? =
      some { b with count := b.count + 1 } := List.getElem?_set_self hlt
  rw [hashAddToBkt, bind_of_ok (storeBucket_of_some _ ht hb),
    bind_of_ok (bucketAt_of_some rfl hb'), run_pushFront]
  · rw [bind_of_ok (storeBucket_of_some (S := { S with
        hh := pushFront S.hh b.hhHead a
        tbl := some { t with buckets := t.buckets.set bkt.toNat { b with count := b.count + 1 } } })
      _ rfl hb'), bind_of_ok (table_of_some rfl)]
    simp only [List.set_set, pushedTable]
  · exact ha
  · exact hfirst

/-- What a macro that touches the buckets only leaves, when they hold `xs` afterwards. -/
structure BucketsHold (S : State) (tail : Option Uintptr) (xs : List Uintptr) (S' : State) :
    Prop where
  order : SameOrder S.hh S'.hh
  live : S'.live = S.live
  head : S'.head = S.head
  table : ∃ t ch, S'.tbl = some t ∧ t.tail = tail ∧ Buckets S' t xs ch

theorem Sized.expanded {k : Nat} (h : Sized t k) (hk : k < 31) (home : Uintptr → Nat)
    (ys : List Uintptr) : Sized (expandedTable home t ys) (k + 1) where
  numBuckets := toNat_numBuckets_mul_two h hk
  log2NumBuckets := by
    rw [expandedTable, BitVec.toNat_add, h.log2NumBuckets]
    exact Nat.mod_eq_of_lt (show k + 1 < 2 ^ 32 by omega)
  length := by
    rw [expandedTable, length_foldl_place, List.length_replicate, h.numBuckets, Nat.pow_succ']

/-- The chains after an expansion. -/
def expandedChains (S : State) (t : UTHashTable) (ch : Nat → List Uintptr) : Nat → List Uintptr :=
  regroup (homeIn (t.numBuckets * 2) S.hh) (fun _ => []) (visited t ch)

theorem Buckets.expanded {k : Nat} {S' : State} (h : Buckets S t xs ch) (hk : Sized t k)
    (hlt : k < 31) (horder : SameOrder S.hh S'.hh)
    (hchains : Chains S'.hh
      (expandedTable (homeIn (t.numBuckets * 2) S.hh) t (visited t ch)).buckets
      (homeIn (t.numBuckets * 2) S.hh) (expandedChains S t ch)) :
    Buckets S' (expandedTable (homeIn (t.numBuckets * 2) S.hh) t (visited t ch)) xs
      (expandedChains S t ch) where
  sized := ⟨k + 1, hk.expanded hlt _ _⟩
  numItems := h.numItems
  chains := by
    change Chains _ _ (homeIn (t.numBuckets * 2) S'.hh) _
    rw [horder.homeIn_eq]
    exact hchains
  mem := by
    intro a
    have hhome : homeIn (t.numBuckets * 2) S'.hh a = homeIn (t.numBuckets * 2) S.hh a :=
      congrFun (horder.homeIn_eq _) a
    have hmem := mem_visited (a := a) hk h.chains
    rw [h.mem] at hmem
    rw [expandedChains, mem_regroup, hmem]
    exact ⟨fun ha => ha.elim And.left fun h => absurd h List.not_mem_nil,
      fun ha => .inl ⟨ha, hhome.symm⟩⟩

theorem completes_hashExpandBuckets (ht : S.tbl = some t) (h : Buckets S t xs ch)
    (hlive : ∀ x ∈ xs, S.live x = true) (hfuel : xs.length ≤ fuel) :
    Completes malloc (fun _ S' => BucketsHold S t.tail xs S') (hashExpandBuckets malloc fuel S) := by
  obtain ⟨k, hk⟩ := h.sized
  have hlivech : ∀ j, ∀ x ∈ ch j, S.live x = true := fun j x hx => hlive x (h.mem_of_mem hx)
  have hfuelch : ∀ j, (ch j).length ≤ fuel := fun j => (h.length_le j).trans hfuel
  cases hmalloc : malloc S.requests (2 * t.numBuckets.setWidth 64 * sizeofBucket) with
  | false =>
    have hrefused : uthashMalloc malloc (2 * t.numBuckets.setWidth 64 * sizeofBucket) S =
        .error .exit { S with requests := S.requests + 1 } := by
      rw [uthashMalloc, hmalloc]
      rfl
    rw [hashExpandBuckets, bind_of_ok (table_of_some ht), bind_of_error hrefused]
    exact .exit rfl hmalloc
  | true =>
    rcases Nat.lt_or_ge k 31 with hlt | hge
    · obtain ⟨hh', hrun, horder, hchains⟩ := run_hashExpandBuckets ht hk hlt hmalloc h.chains
        hlivech hfuelch
      exact completes_of_ok hrun
        ⟨horder, rfl, rfl, _, _, rfl, rfl, h.expanded hk hlt horder hchains⟩
    · obtain rfl : k = 31 := Nat.le_antisymm hk.le hge
      have hgranted : uthashMalloc malloc (2 * t.numBuckets.setWidth 64 * sizeofBucket) S =
          .ok () { S with requests := S.requests + 1 } := if_pos hmalloc
      have hlog : t.log2NumBuckets = 31 := BitVec.eq_of_toNat_eq hk.log2NumBuckets
      have hnum : t.numBuckets = 2 ^ 31 := BitVec.eq_of_toNat_eq hk.numBuckets
      have hshift : ∀ S' : State, checkShift (31 + 1) S' = .error .undefined S' := fun _ => rfl
      rw [hashExpandBuckets, bind_of_ok (table_of_some ht), bind_of_ok hgranted, hlog,
        bind_of_error (hshift _)]
      refine .undefined rfl ?_ hmalloc
      rw [hnum]
      decide

theorem BucketsHold.of_sameOrder {S₁ S₂ : State} {tail : Option Uintptr}
    (h : BucketsHold S₁ tail xs S₂) (horder : SameOrder S.hh S₁.hh) (hlive : S₁.live = S.live)
    (hhead : S₁.head = S.head) : BucketsHold S tail xs S₂ where
  order := horder.trans h.order
  live := h.live.trans hlive
  head := h.head.trans hhead
  table := h.table

theorem Buckets.first_mem (h : Buckets S t xs ch) {b : UTHashBucket} {j : Nat}
    (hb : t.buckets[j]? = some b) : ∀ f ∈ b.hhHead, f ∈ xs := by
  intro f hf
  rw [h.chains.hhHead hb] at hf
  exact h.mem_of_mem (List.mem_of_mem_head? hf)

theorem Buckets.pushed {b : UTHashBucket} {ys : List Uintptr} {S' : State} (h : Buckets S t xs ch)
    (hb : t.buckets[homeIn t.numBuckets S.hh a]? = some b) (ha : a ∉ xs) (hys : ys.Perm (a :: xs))
    (hS' : S'.hh = pushFront S.hh b.hhHead a) :
    Buckets S'
      (pushedTable { t with numItems := t.numItems + 1 } (homeIn t.numBuckets S.hh a) b a) ys
      (Function.update ch (homeIn t.numBuckets S.hh a)
        (a :: ch (homeIn t.numBuckets S.hh a))) := by
  obtain ⟨k, hk⟩ := h.sized
  have hhome : homeIn t.numBuckets S'.hh = homeIn t.numBuckets S.hh := by
    rw [hS']
    exact (sameOrder_pushFront S.hh b.hhHead a).homeIn_eq _
  refine ⟨⟨k, hk.numBuckets, hk.log2NumBuckets, ?_⟩, ?_, ?_, ?_⟩
  · exact (List.length_set ..).trans hk.length
  · rw [hys.length_eq, List.length_cons, BitVec.ofNat_add, ← h.numItems]
    rfl
  · change Chains _ _ (homeIn t.numBuckets S'.hh) _
    rw [hhome, hS']
    exact h.chains.push (mt h.mem.mp ha) hb rfl rfl
  · intro x
    change x ∈ Function.update ch _ _ (homeIn t.numBuckets S'.hh x) ↔ _
    rw [hhome, hys.mem_iff, List.mem_cons, Function.update_apply]
    split
    · rename_i hx
      rw [← hx, List.mem_cons, h.mem]
    · rename_i hx
      rw [h.mem]
      exact ⟨.inr, fun hmem => hmem.resolve_left fun hxa => hx (congrArg _ hxa)⟩

theorem run_hashAddToTable {b : UTHashBucket} (ht : S.tbl = some t)
    (hb : t.buckets[homeIn t.numBuckets S.hh a]? = some b) (ha : S.live a = true)
    (hfirst : ∀ f ∈ b.hhHead, S.live f = true) :
    hashAddToTable malloc fuel (S.hh a).hashv a S =
      (if (b.expandMult + 1) * hashBktCapacityThresh ≤ b.count + 1 ∧ t.noexpand = 0 then
        hashExpandBuckets malloc fuel else pure ())
        { S with
          hh := pushFront S.hh b.hhHead a
          tbl := some (pushedTable { t with numItems := t.numItems + 1 }
            (homeIn t.numBuckets S.hh a) b a) } := by
  rw [hashAddToTable, bind_of_ok (setTable_of_some _ ht), bind_of_ok (table_of_some rfl)]
  refine run_hashAddToBkt (t := { t with numItems := t.numItems + 1 }) rfl hb ?_ ?_
  · exact ha
  · exact hfirst

/-- Other handles with the same chains and hash values, and a table with the same buckets. -/
theorem Buckets.congr {S' : State} {t' : UTHashTable} (h : Buckets S t xs ch)
    (hnexts : hhNexts S'.hh = hhNexts S.hh) (hprevs : hhPrevs S'.hh = hhPrevs S.hh)
    (hhashv : ∀ x ∈ xs, (S'.hh x).hashv = (S.hh x).hashv) (hbuckets : t'.buckets = t.buckets)
    (hnum : t'.numBuckets = t.numBuckets) (hlog : t'.log2NumBuckets = t.log2NumBuckets)
    (hitems : t'.numItems = t.numItems) : Buckets S' t' xs ch := by
  obtain ⟨k, hk⟩ := h.sized
  have hhome : ∀ x ∈ xs, homeIn t'.numBuckets S'.hh x = homeIn t.numBuckets S.hh x := by
    intro x hx
    rw [homeIn, homeIn, hnum, hhashv x hx]
  refine ⟨⟨k, hnum ▸ hk.numBuckets, hlog ▸ hk.log2NumBuckets, hbuckets ▸ hk.length⟩,
    hitems ▸ h.numItems, ?_, ?_⟩
  · rw [hbuckets]
    refine { h.chains.congr hnexts hprevs with home := ?_ }
    intro j x hx
    exact (hhome x (h.mem_of_mem hx)).trans (h.chains.home hx)
  · intro x
    constructor
    · exact h.mem_of_mem
    · intro hx
      rw [hhome x hx]
      exact h.mem.mpr hx

theorem completes_hashAddToTable {ys : List Uintptr} (ht : S.tbl = some t)
    (h : Buckets S t xs ch) (ha : a ∉ xs) (hys : ys.Perm (a :: xs))
    (hlive : ∀ x ∈ a :: xs, S.live x = true) (hfuel : ys.length ≤ fuel) :
    Completes malloc (fun _ S' => BucketsHold S t.tail ys S')
      (hashAddToTable malloc fuel (S.hh a).hashv a S) := by
  obtain ⟨halive, hxlive⟩ := List.forall_mem_cons.mp hlive
  obtain ⟨b, hb⟩ := h.bucket a
  have hfirst : ∀ f ∈ b.hhHead, S.live f = true := fun f hf => hxlive f (h.first_mem hb f hf)
  have horder := sameOrder_pushFront S.hh b.hhHead a
  rw [run_hashAddToTable ht hb halive hfirst]
  split
  · refine (completes_hashExpandBuckets rfl (h.pushed hb ha hys rfl) ?_ hfuel).mono ?_
    · exact fun x hx => hlive x (hys.mem_iff.mp hx)
    · exact fun _ S' hS' => hS'.of_sameOrder horder rfl rfl
  · exact .ok ⟨horder, rfl, rfl, _, _, rfl, rfl, h.pushed hb ha hys rfl⟩

/-- The table with `a` counted out and out of the chain of the bucket `bkt`, where `n` is the
element behind it. -/
def removedTable (t : UTHashTable) (bkt : Nat) (b : UTHashBucket) (a : Uintptr)
    (n : Option Uintptr) : UTHashTable :=
  { t with
    numItems := t.numItems - 1
    buckets := t.buckets.set bkt { b with
      count := b.count - 1
      hhHead := if b.hhHead = some a then n else b.hhHead } }

theorem Buckets.removed {b : UTHashBucket} {ys cs ds : List Uintptr} {S' : State}
    (h : Buckets S t xs ch) (hb : t.buckets[homeIn t.numBuckets S.hh a]? = some b) (hxs : xs.Nodup)
    (hys : xs.Perm (a :: ys)) (hsplit : ch (homeIn t.numBuckets S.hh a) = cs ++ a :: ds)
    (hS' : S'.hh = unlinkHh S.hh cs.getLast? ds.head?) :
    Buckets S' (removedTable t (homeIn t.numBuckets S.hh a) b a ds.head?) ys
      (Function.update ch (homeIn t.numBuckets S.hh a) (cs ++ ds)) := by
  obtain ⟨k, hk⟩ := h.sized
  obtain ⟨hnota, -⟩ := List.nodup_cons.mp (hys.nodup_iff.mp hxs)
  have hhome : homeIn t.numBuckets S'.hh = homeIn t.numBuckets S.hh := by
    rw [hS']
    exact (sameOrder_unlinkHh cs.getLast? ds.head?).homeIn_eq _
  have hacd : a ∉ cs ++ ds :=
    (List.nodup_cons.mp (List.nodup_middle.mp (hsplit ▸ h.chains.nodup _))).1
  refine ⟨⟨k, hk.numBuckets, hk.log2NumBuckets, ?_⟩, ?_, ?_, ?_⟩
  · exact (List.length_set ..).trans hk.length
  · rw [removedTable, h.numItems, hys.length_eq, List.length_cons, BitVec.ofNat_add]
    exact BitVec.add_sub_cancel ..
  · change Chains _ _ (homeIn t.numBuckets S'.hh) _
    rw [hhome, hS']
    exact h.chains.remove hsplit hb rfl rfl
  · intro x
    have hxy : x ∈ xs ↔ x = a ∨ x ∈ ys := hys.mem_iff.trans List.mem_cons
    change x ∈ Function.update ch _ _ (homeIn t.numBuckets S'.hh x) ↔ _
    rw [hhome, Function.update_apply]
    have hmem : x ∈ ch (homeIn t.numBuckets S.hh x) ↔ x ∈ xs := h.mem
    split
    · rename_i hx
      rw [hx, hsplit, hxy] at hmem
      rcases eq_or_ne x a with rfl | hxa
      · exact iff_of_false hacd hnota
      · simpa [hxa] using hmem
    · rename_i hx
      rw [h.mem, hxy]
      exact ⟨fun hor => hor.resolve_left fun hxa => hx (congrArg _ hxa), .inr⟩

theorem run_removeFromBuckets {ys : List Uintptr} (ht : S.tbl = some t) (h : Buckets S t xs ch)
    (hxs : xs.Nodup) (hys : xs.Perm (a :: ys)) (hlive : ∀ x ∈ xs, S.live x = true) :
    ∃ S', (do
        hashDelInBkt (hashToBkt (S.hh a).hashv t.numBuckets) a
        setTable fun t => { t with numItems := t.numItems - 1 }) S = .ok () S' ∧
      BucketsHold S t.tail ys S' := by
  obtain ⟨b, hb⟩ := h.bucket a
  have ha : a ∈ xs := hys.mem_iff.mpr List.mem_cons_self
  obtain ⟨cs, ds, hsplit⟩ := List.append_of_mem (h.mem.mpr ha)
  have hlinked := hsplit ▸ h.chains.linked (homeIn t.numBuckets S.hh a)
  have hnodup := hsplit ▸ h.chains.nodup (homeIn t.numBuckets S.hh a)
  have hmem : ∀ x ∈ cs ++ a :: ds, S.live x = true := fun x hx =>
    hlive x (h.mem_of_mem (hsplit ▸ hx))
  have hcs : a ∉ cs := fun hmem =>
    (List.nodup_cons.mp (List.nodup_middle.mp hnodup)).1 (List.mem_append_left _ hmem)
  have hrun := run_hashDelInBkt ht hb (hlive a ha) (hlinked.prev_eq.trans Option.or_none)
    (hlinked.next_eq.trans Option.or_none)
    (fun x hx => hmem x (List.mem_append_left _ (List.mem_of_mem_getLast? hx)))
    (fun x hx => hmem x (List.mem_append_right _ (List.mem_cons_of_mem _ (List.mem_of_mem_head? hx))))
    (fun hmem => hcs (List.mem_of_mem_getLast? hmem))
  refine ⟨{ S with
    hh := unlinkHh S.hh cs.getLast? ds.head?
    tbl := some (removedTable t (homeIn t.numBuckets S.hh a) b a ds.head?) }, ?_,
    sameOrder_unlinkHh cs.getLast? ds.head?, rfl, rfl, _, _, rfl, rfl,
    h.removed hb hxs hys hsplit rfl⟩
  rw [bind_of_ok hrun, setTable_of_some _ rfl]
  rfl

end Buckets

/-! ## The order of insertion -/

/-- The pointers of the order of insertion run through `xs`. -/
structure InOrder (S : State) (xs : List Uintptr) : Prop where
  nodup : xs.Nodup
  live : ∀ a ∈ xs, S.live a = true
  head : S.head = xs.head?
  linked : Linked (nexts S.hh) (prevs S.hh) none xs none

/-- The table, if there are elements. -/
def HasTable (S : State) (xs : List Uintptr) : Prop :=
  xs ≠ [] → ∃ t ch, S.tbl = some t ∧ t.tail = xs.getLast? ∧ Buckets S t xs ch

/-- What the branches of an addition on `head` leave: the new element is in the order `ys`, and not
yet in the buckets. -/
structure Inserted (S : State) (xs ys : List Uintptr) (S' : State) : Prop where
  order : InOrder S' ys
  chains : SameChains S.hh S'.hh
  live : S'.live = S.live
  table : ∃ t ch, S'.tbl = some t ∧ t.tail = ys.getLast? ∧ Buckets S' t xs ch

section SameChains

variable {hh hh' : Uintptr → UTHashHandle} (h : SameChains hh hh')

include h

theorem SameChains.hhNexts_eq : hhNexts hh' = hhNexts hh :=
  funext fun a => (congrArg UTHashHandle.hhNext (h a) :)

theorem SameChains.hhPrevs_eq : hhPrevs hh' = hhPrevs hh :=
  funext fun a => (congrArg UTHashHandle.hhPrev (h a) :)

theorem SameChains.key_eq (a : Uintptr) : (hh' a).key = (hh a).key :=
  (congrArg UTHashHandle.key (h a) :)

theorem SameChains.keylen_eq (a : Uintptr) : (hh' a).keylen = (hh a).keylen :=
  (congrArg UTHashHandle.keylen (h a) :)

theorem SameChains.hashv_eq (a : Uintptr) : (hh' a).hashv = (hh a).hashv :=
  (congrArg UTHashHandle.hashv (h a) :)

end SameChains

section Order

variable {malloc : Malloc} {S : State} {xs : List Uintptr} {a : Uintptr} {fuel : Nat}

/-- The order with `a` at its end. -/
theorem InOrder.append {S' : State} {last : Uintptr} (h : InOrder S xs) (ha : a ∉ xs)
    (hlive : S.live a = true) (hlast : xs.getLast? = some last) (hS' : S'.hh = Function.update
      (Function.update S.hh a { S.hh a with next := none, prev := some last }) last
      { Function.update S.hh a { S.hh a with next := none, prev := some last } last with
        next := some a })
    (hlive' : S'.live = S.live) (hhead : S'.head = S.head) : InOrder S' (xs ++ [a]) := by
  have hne : last ≠ a := ne_of_mem_of_not_mem (List.mem_of_getLast? hlast) ha
  have hinsert := Linked.insert xs [] (by simpa using h.linked) (by simpa using h.nodup)
    (by simpa using ha)
  refine ⟨?_, ?_, ?_, ?_⟩
  · exact List.nodup_append'.mpr ⟨h.nodup, List.nodup_singleton a, by simpa using ha⟩
  · rw [hlive']
    simpa [or_imp, forall_and, hlive] using h.live
  · rw [hhead, h.head, List.head?_append]
    cases xs with
    | nil => simp at hlast
    | cons => rfl
  · rw [hS']
    simpa [hlast, Function.update_comm hne] using hinsert

theorem run_hashAppendList {t : UTHashTable} {ch : Nat → List Uintptr} {last : Uintptr}
    (h : InOrder S xs) (ha : a ∉ xs) (hlive : S.live a = true) (hlast : xs.getLast? = some last)
    (ht : S.tbl = some t) (htail : t.tail = xs.getLast?) (hbuckets : Buckets S t xs ch) :
    ∃ S', hashAppendList a S = .ok () S' ∧ Inserted S xs (xs ++ [a]) S' := by
  let hh₁ := Function.update S.hh a { S.hh a with next := none, prev := some last }
  let hh₂ := Function.update hh₁ last { hh₁ last with next := some a }
  have hchains : SameChains S.hh hh₂ := by
    refine (agree_update ?_).trans (agree_update ?_)
    · rfl
    · rfl
  have hlivelast : S.live last = true := h.live last (List.mem_of_getLast? hlast)
  refine ⟨{ S with hh := hh₂, tbl := some { t with tail := some a } }, ?_, ?_, hchains, rfl, ?_⟩
  · rw [hashAppendList, bind_of_ok (table_of_some ht), bind_of_ok (store_of_live _ hlive), htail,
      hlast, deref, pure_bind]
    rw [bind_of_ok (store_of_live (S := { S with hh := hh₁ }) _ hlivelast),
      setTable_of_some (S := { S with hh := hh₂ }) _ ht]
  · exact h.append ha hlive hlast rfl rfl rfl
  · refine ⟨_, ch, rfl, by simp, ?_⟩
    exact hbuckets.congr hchains.hhNexts_eq hchains.hhPrevs_eq (fun x _ => hchains.hashv_eq x)
      rfl rfl rfl rfl

/-- The table that `HASH_MAKE_TABLE` makes. -/
def newTable (add : Uintptr) : UTHashTable where
  tail := some add
  numBuckets := hashInitialNumBuckets
  log2NumBuckets := hashInitialNumBucketsLog2
  buckets := List.replicate hashInitialNumBuckets.toNat {}

theorem buckets_newTable (S : State) (a : Uintptr) : Buckets S (newTable a) [] fun _ => [] where
  sized := ⟨5, rfl, rfl, List.length_replicate⟩
  numItems := rfl
  chains := chains_empty ..
  mem := Iff.rfl

theorem completes_hashMakeTable :
    Completes malloc (fun _ S' => ∃ n, S' = { S with tbl := some (newTable a), requests := n })
      (hashMakeTable malloc a S) := by
  rw [hashMakeTable]
  refine (completes_uthashMalloc _).bind fun _ S₁ h₁ => ?_
  refine (completes_uthashMalloc _).bind fun _ S₂ h₂ => ?_
  refine .ok ⟨S.requests + 2, ?_⟩
  rw [h₂.1, h₁.1]
  rfl

/-- The branch for the first element. -/
theorem completes_firstElement (hlive : S.live a = true) :
    Completes malloc (fun _ S' => Inserted S [] [a] S')
      ((do
        store a fun h => { h with next := none, prev := none }
        hashMakeTable malloc a
        setHead (some a)) S) := by
  rw [bind_of_ok (store_of_live _ hlive)]
  refine completes_hashMakeTable.bind ?_
  rintro _ _ ⟨n, rfl⟩
  refine .ok ⟨⟨List.nodup_singleton a, by simpa using hlive, rfl, ?_⟩, agree_update rfl, rfl, ?_⟩
  · simp
  · exact ⟨newTable a, _, rfl, rfl, buckets_newTable ..⟩

theorem completes_hashAddLast (h : InOrder S xs) (htable : HasTable S xs) (ha : a ∉ xs)
    (hlive : S.live a = true) :
    Completes malloc (fun _ S' => Inserted S xs (xs ++ [a]) S') (hashAddLast malloc a S) := by
  rw [hashAddLast, bind_of_ok (get_apply S), h.head]
  cases xs with
  | nil => exact completes_firstElement hlive
  | cons x xs =>
    obtain ⟨t, ch, ht, htail, hbuckets⟩ := htable (List.cons_ne_nil x xs)
    obtain ⟨last, hlast⟩ : ∃ last, (x :: xs).getLast? = some last :=
      ⟨_, List.getLast?_eq_some_getLast (List.cons_ne_nil x xs)⟩
    obtain ⟨S', hrun, hinserted⟩ := run_hashAppendList h ha hlive hlast ht htail hbuckets
    exact completes_of_ok hrun hinserted

theorem run_setNextOf {p : Option Uintptr} (n : Option Uintptr)
    (hp : ∀ x ∈ p, S.live x = true) :
    setNextOf p n S = .ok () { S with
      hh := writeIf S.hh p fun h => { h with next := n }
      head := if p = none then n else S.head } := by
  cases p with
  | none => rfl
  | some x =>
    rw [setNextOf, store_of_live _ (hp x rfl)]
    rfl

/-- Where `HASH_ADD_INORDER` puts `a`: in front of the first element behind it. -/
def insertInorder (cmpfcn : Uintptr → Uintptr → Int) (a : Uintptr) (xs : List Uintptr) :
    List Uintptr :=
  xs.takeWhile (fun x => ¬0 < cmpfcn x a) ++ a :: xs.dropWhile fun x => ¬0 < cmpfcn x a

theorem insertInorder_perm (cmpfcn : Uintptr → Uintptr → Int) (a : Uintptr) (xs : List Uintptr) :
    (insertInorder cmpfcn a xs).Perm (a :: xs) := by
  have h : (insertInorder cmpfcn a xs).Perm (a :: (xs.takeWhile (fun x => ¬0 < cmpfcn x a) ++
      xs.dropWhile fun x => ¬0 < cmpfcn x a)) := List.perm_middle
  rwa [List.takeWhile_append_dropWhile] at h

theorem insertInorder_of_find?_none {cmpfcn : Uintptr → Uintptr → Int}
    (h : (xs.find? fun x => 0 < cmpfcn x a) = none) : insertInorder cmpfcn a xs = xs ++ [a] := by
  have hall : ∀ x ∈ xs, decide (¬0 < cmpfcn x a) = true := by
    simpa using h
  rw [insertInorder, List.takeWhile_eq_self_iff.mpr hall, List.dropWhile_eq_nil_iff.mpr hall]

theorem insertInorder_of_split {cmpfcn : Uintptr → Uintptr → Int} {as bs : List Uintptr}
    {x : Uintptr} (has : ∀ y ∈ as, ¬0 < cmpfcn y a) (hx : 0 < cmpfcn x a) :
    insertInorder cmpfcn a (as ++ x :: bs) = as ++ a :: x :: bs := by
  have hall : ∀ y ∈ as, decide (¬0 < cmpfcn y a) = true := fun y hy => decide_eq_true (has y hy)
  rw [insertInorder, List.takeWhile_append_of_pos hall, List.dropWhile_append_of_pos hall,
    List.takeWhile_cons_of_neg (by simpa using hx), List.dropWhile_cons_of_neg (by simpa using hx),
    List.append_nil]

theorem run_insertBefore {t : UTHashTable} {ch : Nat → List Uintptr} {as bs : List Uintptr}
    {iter : Uintptr} (h : InOrder S (as ++ iter :: bs)) (ha : a ∉ as ++ iter :: bs)
    (hlive : S.live a = true) (ht : S.tbl = some t)
    (htail : t.tail = (as ++ iter :: bs).getLast?) (hbuckets : Buckets S t (as ++ iter :: bs) ch) :
    ∃ S', (do
        let hi ← load iter
        store a fun h => { h with next := some iter, prev := hi.prev }
        setNextOf hi.prev (some a)
        store iter fun h => { h with prev := some a }) S = .ok () S' ∧
      Inserted S (as ++ iter :: bs) (as ++ a :: iter :: bs) S' := by
  have hprev : (S.hh iter).prev = as.getLast? := (h.linked.prev_eq).trans Option.or_none
  have hiter : S.live iter = true := h.live iter (by simp)
  have haslive : ∀ x ∈ as.getLast?, S.live x = true := fun x hx =>
    h.live x (List.mem_append_left _ (List.mem_of_mem_getLast? hx))
  let hh₁ := Function.update S.hh a { S.hh a with next := some iter, prev := as.getLast? }
  let hh₂ := writeIf hh₁ as.getLast? fun h => { h with next := some a }
  let hh₃ := Function.update hh₂ iter { hh₂ iter with prev := some a }
  have hchains : SameChains S.hh hh₃ := by
    refine ((agree_update ?_).trans (agree_writeIf as.getLast? ?_)).trans (agree_update ?_)
    · rfl
    · exact fun _ => rfl
    · rfl
  have hperm : (as ++ a :: iter :: bs).Perm (a :: (as ++ iter :: bs)) := List.perm_middle
  let S₂ : State := { S with hh := hh₂, head := if as.getLast? = none then some a else S.head }
  refine ⟨{ S₂ with hh := hh₃ }, ?_, ⟨?_, ?_, ?_, ?_⟩, hchains, rfl, ?_⟩
  · rw [bind_of_ok (load_of_live hiter), hprev, bind_of_ok (store_of_live _ hlive),
      bind_of_ok (run_setNextOf (S := { S with hh := hh₁ }) _ haslive),
      store_of_live (S := S₂) _ hiter]
  · exact List.nodup_middle.mpr (List.nodup_cons.mpr ⟨ha, h.nodup⟩)
  · intro x hx
    rcases List.mem_cons.mp (hperm.mem_iff.mp hx) with rfl | hx
    · exact hlive
    · exact h.live x hx
  · change (if as.getLast? = none then some a else S.head) = _
    rw [h.head]
    cases as <;> simp
  · have hne : iter ≠ a := ne_of_mem_of_not_mem (by simp) ha
    have hlink := Linked.insert as (iter :: bs) h.linked h.nodup ha
    have hlast : a ∉ as.getLast? := fun hmem =>
      ha (List.mem_append_left _ (List.mem_of_mem_getLast? hmem))
    have hnexts : nexts hh₃ =
        Function.update (link (nexts S.hh) as.getLast? (some a)) a (some iter) :=
      calc nexts hh₃ = nexts hh₂ := field_update_of_eq rfl
        _ = link (nexts hh₁) as.getLast? (some a) := field_writeIf fun _ => rfl
        _ = _ := by rw [← link_update hlast, nexts, field_update]
    have hprevs₂ : prevs hh₂ = prevs hh₁ := field_writeIf_of_eq fun _ => rfl
    have hprevs : prevs hh₃ =
        Function.update (Function.update (prevs S.hh) iter (some a)) a as.getLast? :=
      calc prevs hh₃ = Function.update (prevs hh₂) iter (some a) := field_update
        _ = _ := by rw [hprevs₂, prevs, field_update, Function.update_comm hne.symm]
    change Linked (nexts hh₃) (prevs hh₃) _ _ _
    rw [hnexts, hprevs]
    simpa using hlink
  · refine ⟨t, ch, ht, htail.trans (by simp), ?_⟩
    exact hbuckets.congr hchains.hhNexts_eq hchains.hhPrevs_eq (fun x _ => hchains.hashv_eq x)
      rfl rfl rfl rfl

theorem completes_hashAddSorted (cmpfcn : Uintptr → Uintptr → Int) (h : InOrder S xs)
    (htable : HasTable S xs) (ha : a ∉ xs) (hlive : S.live a = true) (hfuel : xs.length ≤ fuel) :
    Completes malloc (fun _ S' => Inserted S xs (insertInorder cmpfcn a xs) S')
      (hashAddSorted malloc fuel a cmpfcn S) := by
  rw [hashAddSorted, bind_of_ok (get_apply S), h.head]
  cases xs with
  | nil => exact completes_firstElement hlive
  | cons x xs =>
    obtain ⟨t, ch, ht, htail, hbuckets⟩ := htable (List.cons_ne_nil x xs)
    have hloop := run_hashAkbiInnerLoop cmpfcn a h.linked h.live hfuel
    simp only [List.head?_cons]
    rw [bind_of_ok hloop]
    cases hfind : (x :: xs).find? fun y => 0 < cmpfcn y a with
    | none =>
      obtain ⟨last, hlast⟩ : ∃ last, (x :: xs).getLast? = some last :=
        ⟨_, List.getLast?_eq_some_getLast (List.cons_ne_nil x xs)⟩
      obtain ⟨S', hrun, hinserted⟩ := run_hashAppendList h ha hlive hlast ht htail hbuckets
      rw [insertInorder_of_find?_none hfind]
      exact completes_of_ok hrun hinserted
    | some iter =>
      obtain ⟨hiter, as, bs, hsplit, has⟩ := List.find?_eq_some_iff_append.mp hfind
      rw [hsplit] at h ha htail hbuckets ⊢
      obtain ⟨S', hrun, hinserted⟩ := run_insertBefore h ha hlive ht htail hbuckets
      rw [insertInorder_of_split (fun y hy => by simpa using has y hy) (by simpa using hiter)]
      exact completes_of_ok hrun hinserted

end Order

/-! ## The representation -/

/-- The state holds the table of the elements `xs`, in this order. -/
structure Represents (hashFcn : List Byte → Unsigned) (S : State) (xs : List Uintptr) : Prop where
  order : InOrder S xs
  table : HasTable S xs
  hashv : ∀ a ∈ xs, (S.hh a).hashv = hashFcn (S.hh a).key
  keylen : ∀ a ∈ xs, (S.hh a).keylen.toNat = (S.hh a).key.length

/-- No table, as after `head = NULL`. -/
theorem represents_nil {hashFcn : List Byte → Unsigned} {S : State} (h : S.head = none) :
    Represents hashFcn S [] where
  order := ⟨List.nodup_nil, fun _ ha => absurd ha List.not_mem_nil, h, trivial⟩
  table := fun hne => absurd rfl hne
  hashv := fun _ ha => absurd ha List.not_mem_nil
  keylen := fun _ ha => absurd ha List.not_mem_nil

section Represents

variable {malloc : Malloc} {hashFcn : List Byte → Unsigned} {S : State} {xs : List Uintptr}
  {a : Uintptr} {fuel : Nat}

/-- What holds of a state after the addition of `a` with the key `key`, in the order `ys`. -/
structure Added (hashFcn : List Byte → Unsigned) (key : List Byte) (a : Uintptr)
    (ys : List Uintptr) (S S' : State) : Prop where
  represents : Represents hashFcn S' ys
  live : S'.live = S.live
  key : (S'.hh a).key = key
  others : ∀ x, x ≠ a → (S'.hh x).key = (S.hh x).key

/-- The handle with its key. -/
def withKey (hashFcn : List Byte → Unsigned) (key : List Byte) (S : State) (a : Uintptr) : State :=
  { S with hh := Function.update S.hh a { S.hh a with
    hashv := hashFcn key, key := key, keylen := BitVec.ofNat 32 key.length } }

theorem Represents.withKey (key : List Byte) (h : Represents hashFcn S xs) (ha : a ∉ xs) :
    Represents hashFcn (HashTable.withKey hashFcn key S a) xs := by
  have hsame : ∀ x ∈ xs, (HashTable.withKey hashFcn key S a).hh x = S.hh x := fun x hx =>
    Function.update_of_ne (ne_of_mem_of_not_mem hx ha) _ _
  refine ⟨⟨h.order.nodup, h.order.live, h.order.head, ?_⟩, ?_, ?_, ?_⟩
  · simpa [HashTable.withKey] using h.order.linked
  · intro hne
    obtain ⟨t, ch, ht, htail, hbuckets⟩ := h.table hne
    refine ⟨t, ch, ht, htail, hbuckets.congr ?_ ?_ ?_ rfl rfl rfl rfl⟩
    · exact field_update_of_eq rfl
    · exact field_update_of_eq rfl
    · exact fun x hx => congrArg UTHashHandle.hashv (hsame x hx)
  · intro x hx
    rw [hsame x hx]
    exact h.hashv x hx
  · intro x hx
    rw [hsame x hx]
    exact h.keylen x hx

/-- The buckets after the order. -/
theorem completes_added {key : List Byte} {ys : List Uintptr} {S₁ : State}
    (h : Represents hashFcn S xs) (ha : a ∉ xs) (hkey : key.length < 2 ^ 32)
    (hys : ys.Perm (a :: xs)) (hfuel : ys.length ≤ fuel)
    (hinserted : Inserted (withKey hashFcn key S a) xs ys S₁) :
    Completes malloc (fun _ S' => Added hashFcn key a ys S S')
      (hashAddToTable malloc fuel (hashFcn key) a S₁) := by
  obtain ⟨horder, hchains, hlive₁, t, ch, ht, htail, hbuckets⟩ := hinserted
  have hkeya : (withKey hashFcn key S a).hh a = { S.hh a with
      hashv := hashFcn key, key := key, keylen := BitVec.ofNat 32 key.length } :=
    Function.update_self ..
  have hsame : ∀ x, x ≠ a → (withKey hashFcn key S a).hh x = S.hh x := fun x hx =>
    Function.update_of_ne hx _ _
  have hhashv : (S₁.hh a).hashv = hashFcn key := by rw [hchains.hashv_eq, hkeya]
  have hlive : ∀ x ∈ a :: xs, S₁.live x = true := fun x hx =>
    horder.live x (hys.mem_iff.mpr hx)
  rw [← hhashv]
  refine (completes_hashAddToTable ht hbuckets ha hys hlive hfuel).mono fun _ S' hS' => ?_
  obtain ⟨horder', hlive', hhead', t', ch', ht', htail', hbuckets'⟩ := hS'
  have hhandle : ∀ x ∈ ys, (S'.hh x).hashv = hashFcn (S'.hh x).key ∧
      (S'.hh x).keylen.toNat = (S'.hh x).key.length := by
    intro x hx
    rw [horder'.hashv_eq, horder'.key_eq, horder'.keylen_eq, hchains.hashv_eq, hchains.key_eq,
      hchains.keylen_eq]
    rcases List.mem_cons.mp (hys.mem_iff.mp hx) with rfl | hx
    · rw [hkeya]
      exact ⟨rfl, Nat.mod_eq_of_lt hkey⟩
    · rw [hsame x (ne_of_mem_of_not_mem hx ha)]
      exact ⟨h.hashv x hx, h.keylen x hx⟩
  refine ⟨⟨⟨horder.nodup, ?_, hhead'.trans horder.head, ?_⟩, ?_, fun x hx => (hhandle x hx).1,
    fun x hx => (hhandle x hx).2⟩, hlive'.trans hlive₁, ?_, ?_⟩
  · rw [hlive']
    exact horder.live
  · rw [horder'.nexts_eq, horder'.prevs_eq]
    exact horder.linked
  · exact fun _ => ⟨t', ch', ht', htail'.trans htail, hbuckets'⟩
  · rw [horder'.key_eq, hchains.key_eq, hkeya]
  · intro x hx
    rw [horder'.key_eq, hchains.key_eq, hsame x hx]

theorem completes_hashAdd {key : List Byte} (h : Represents hashFcn S xs) (ha : a ∉ xs)
    (hlive : S.live a = true) (hkey : key.length < 2 ^ 32) (hfuel : xs.length < fuel) :
    Completes malloc (fun _ S' => Added hashFcn key a (xs ++ [a]) S S')
      (hashAdd malloc hashFcn fuel key a S) := by
  have hk := h.withKey key ha
  rw [hashAdd, hashAddKeyptrByhashvalue, bind_of_ok (store_of_live _ hlive)]
  refine (completes_hashAddLast hk.order hk.table ha hlive).bind fun _ S₁ hinserted => ?_
  exact completes_added h ha hkey (List.perm_append_singleton a xs) (by simpa using Nat.succ_le_of_lt hfuel) hinserted

theorem completes_hashAddInorder {key : List Byte} (cmpfcn : Uintptr → Uintptr → Int)
    (h : Represents hashFcn S xs) (ha : a ∉ xs) (hlive : S.live a = true)
    (hkey : key.length < 2 ^ 32) (hfuel : xs.length < fuel) :
    Completes malloc (fun _ S' => Added hashFcn key a (insertInorder cmpfcn a xs) S S')
      (hashAddInorder malloc hashFcn fuel key a cmpfcn S) := by
  have hk := h.withKey key ha
  have hperm := insertInorder_perm cmpfcn a xs
  rw [hashAddInorder, hashAddKeyptrByhashvalueInorder, bind_of_ok (store_of_live _ hlive)]
  refine (completes_hashAddSorted cmpfcn hk.order hk.table ha hlive hfuel.le).bind
    fun _ S₁ hinserted => ?_
  exact completes_added h ha hkey hperm (hperm.length_eq ▸ hfuel) hinserted

/-- `a` taken out of the order. -/
theorem InOrder.remove {as bs : List Uintptr} {S' : State} (h : InOrder S (as ++ a :: bs))
    (hne : as ++ bs ≠ [])
    (hS' : S'.hh = writeIf (writeIf S.hh as.getLast? fun h => { h with next := bs.head? }) bs.head?
      fun h => { h with prev := as.getLast? })
    (hlive : S'.live = S.live)
    (hhead : S'.head = if as.getLast? = none then bs.head? else S.head) :
    InOrder S' (as ++ bs) := by
  have hsub : (as ++ bs).Sublist (as ++ a :: bs) :=
    List.Sublist.append_left (List.sublist_cons_self a bs) as
  refine ⟨h.nodup.sublist hsub, ?_, ?_, ?_⟩
  · rw [hlive]
    exact fun x hx => h.live x (hsub.subset hx)
  · rw [hhead, h.head]
    cases as <;> simp
  · have hnexts : nexts S'.hh = link (nexts S.hh) as.getLast? bs.head? := by
      rw [hS']
      refine (field_writeIf_of_eq ?_).trans (field_writeIf ?_)
      · exact fun _ => rfl
      · exact fun _ => rfl
    have hprevs : prevs S'.hh = link (prevs S.hh) bs.head? as.getLast? := by
      rw [hS']
      refine (field_writeIf ?_).trans (congrArg (link · bs.head? as.getLast?) (field_writeIf_of_eq ?_))
      · exact fun _ => rfl
      · exact fun _ => rfl
    rw [hnexts, hprevs]
    simpa using h.linked.remove h.nodup

/-- `tail` after the removal of `a`. -/
theorem tail_remove {as bs : List Uintptr} {t : UTHashTable} (hnodup : (as ++ a :: bs).Nodup)
    (htail : t.tail = (as ++ a :: bs).getLast?) :
    (if t.tail = some a then { t with tail := as.getLast? } else t).tail = (as ++ bs).getLast? := by
  rcases List.eq_nil_or_concat' bs with rfl | ⟨bs, last, rfl⟩
  · simp [htail]
  · have hlast : last ≠ a := by
      rintro rfl
      simp [List.nodup_append'] at hnodup
    have htail' : t.tail = some last := by
      rw [htail, ← List.cons_append, ← List.append_assoc, List.getLast?_concat]
    rw [if_neg (by simpa [htail'] using hlast), htail', ← List.append_assoc, List.getLast?_concat]

theorem run_hashDeleteHh {as bs : List Uintptr} (h : Represents hashFcn S (as ++ a :: bs)) :
    ∃ S', hashDeleteHh a S = .ok () S' ∧ Represents hashFcn S' (as ++ bs) ∧ S'.live = S.live ∧
      ∀ x, (S'.hh x).key = (S.hh x).key := by
  obtain ⟨t, ch, ht, htail, hbuckets⟩ := h.table (by simp)
  have halive : S.live a = true := h.order.live a (by simp)
  have hprev : (S.hh a).prev = as.getLast? := h.order.linked.prev_eq.trans Option.or_none
  have hnext : (S.hh a).next = bs.head? := h.order.linked.next_eq.trans Option.or_none
  by_cases hlone : ((S.hh a).prev.isNone && (S.hh a).next.isNone) = true
  · have hrun : hashDeleteHh a S = .ok () { S with tbl := none, head := none } := by
      rw [hashDeleteHh, bind_of_ok (load_of_live halive), bind_of_ok (table_of_some ht),
        if_pos hlone]
      rfl
    obtain ⟨has, hbs⟩ : as = [] ∧ bs = [] := by simpa [hprev, hnext] using hlone
    subst has hbs
    exact ⟨_, hrun, represents_nil rfl, rfl, fun _ => rfl⟩
  · have hne : as ++ bs ≠ [] := by
      intro hnil
      obtain ⟨rfl, rfl⟩ := List.append_eq_nil_iff.mp hnil
      simp [hprev, hnext] at hlone
    have hsub : ∀ x ∈ as ++ bs, x ∈ as ++ a :: bs := fun x hx =>
      (List.Sublist.append_left (List.sublist_cons_self a bs) as).subset hx
    have haas : a ∉ as.getLast? := fun hmem =>
      (List.nodup_cons.mp (List.nodup_middle.mp h.order.nodup)).1
        (List.mem_append_left _ (List.mem_of_mem_getLast? hmem))
    have hplive : ∀ x ∈ as.getLast?, S.live x = true := fun x hx =>
      h.order.live x (List.mem_append_left _ (List.mem_of_mem_getLast? hx))
    have hnlive : ∀ x ∈ bs.head?, S.live x = true := fun x hx =>
      h.order.live x (List.mem_append_right _ (List.mem_cons_of_mem _ (List.mem_of_mem_head? hx)))
    let t₁ : UTHashTable := if t.tail = some a then { t with tail := as.getLast? } else t
    have ht₁ : t₁.buckets = t.buckets ∧ t₁.numBuckets = t.numBuckets ∧
        t₁.log2NumBuckets = t.log2NumBuckets ∧ t₁.numItems = t.numItems := by
      by_cases hif : t.tail = some a
      · simp [t₁, hif]
      · simp [t₁, hif]
    let hh₁ := writeIf S.hh as.getLast? fun h => { h with next := bs.head? }
    let hh₂ := writeIf hh₁ bs.head? fun h => { h with prev := as.getLast? }
    have hhh₁ : hh₁ a = S.hh a := writeIf_of_not_mem haas
    have hchains : SameChains S.hh hh₂ := by
      refine (agree_writeIf as.getLast? ?_).trans (agree_writeIf bs.head? ?_)
      · exact fun _ => rfl
      · exact fun _ => rfl
    let S₁ : State := { S with
      tbl := some t₁, hh := hh₁, head := if as.getLast? = none then bs.head? else S.head }
    let S₂ : State := { S₁ with hh := hh₂ }
    have horder₂ : InOrder S₂ (as ++ bs) := h.order.remove hne rfl rfl rfl
    have hbuckets₂ : Buckets S₂ t₁ (as ++ a :: bs) ch :=
      hbuckets.congr hchains.hhNexts_eq hchains.hhPrevs_eq (fun x _ => hchains.hashv_eq x)
        ht₁.1 ht₁.2.1 ht₁.2.2.1 ht₁.2.2.2
    obtain ⟨S', hrun, hhold⟩ := run_removeFromBuckets (S := S₂) rfl hbuckets₂ h.order.nodup
      List.perm_middle h.order.live
    obtain ⟨horder', hlive', hhead', t', ch', ht', htail', hbuckets'⟩ := hhold
    have hkey : ∀ x, (S'.hh x).key = (S.hh x).key := fun x =>
      (horder'.key_eq x).trans (hchains.key_eq x)
    refine ⟨S', ?_, ⟨⟨horder₂.nodup, ?_, hhead'.trans horder₂.head, ?_⟩, ?_, ?_, ?_⟩, hlive', hkey⟩
    · rw [hashDeleteHh, bind_of_ok (load_of_live halive), bind_of_ok (table_of_some ht),
        if_neg hlone, bind_of_ok (setTable_of_some _ ht), hprev, hnext,
        bind_of_ok (run_setNextOf (S := { S with tbl := some t₁ }) _ hplive),
        bind_of_ok (load_of_live (S := S₁) halive)]
      change ((storeIf (hh₁ a).next fun hn => { hn with prev := (hh₁ a).prev }) >>= fun _ =>
        hashDelInBkt (hashToBkt (hh₁ a).hashv t.numBuckets) a >>= fun _ => _) S₁ = _
      rw [hhh₁, hnext, hprev, bind_of_ok (storeIf_of_live (S := S₁) _ hnlive)]
      rw [hchains.hashv_eq, ht₁.2.1] at hrun
      exact hrun
    · rw [hlive']
      exact horder₂.live
    · rw [horder'.nexts_eq, horder'.prevs_eq]
      exact horder₂.linked
    · exact fun _ => ⟨t', ch', ht', htail'.trans (tail_remove h.order.nodup htail), hbuckets'⟩
    · intro x hx
      rw [horder'.hashv_eq, hchains.hashv_eq, hkey]
      exact h.hashv x (hsub x hx)
    · intro x hx
      rw [horder'.keylen_eq, hchains.keylen_eq, hkey]
      exact h.keylen x (hsub x hx)

end Represents

end Carmor.HashTable
