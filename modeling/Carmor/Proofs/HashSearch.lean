import Carmor.Proofs.HashTable

/-!
# Searches and loops

What a search, the check of `HASH_DEBUG` and a loop over the elements do on a represented list.
-/

namespace Carmor.HashTable

open Lib

section Represents

variable {malloc : Malloc} {hashFcn : List Byte → Unsigned} {S : State} {xs : List Uintptr}
  {a : Uintptr} {fuel : Nat}

/-! ## Search -/

theorem Represents.hasKey_iff (h : Represents hashFcn S xs) (ha : a ∈ xs) (keyptr : List Byte) :
    hasKey S.hh keyptr (hashFcn keyptr) a = true ↔ (S.hh a).key = keyptr := by
  rw [hasKey, decide_eq_true_iff, h.hashv a ha, h.keylen a ha]
  constructor
  · rintro ⟨-, hlen, htake⟩
    rwa [← hlen, List.take_length] at htake
  · rintro rfl
    exact ⟨rfl, rfl, List.take_length⟩

/-- The elements under a key, as `HASH_FIND` meets them. -/
structure Found (S : State) (xs : List Uintptr) (key : List Byte) (r : Option Uintptr) : Prop where
  of_some : ∀ a, r = some a → a ∈ xs ∧ (S.hh a).key = key
  of_none : r = none → ∀ a ∈ xs, (S.hh a).key ≠ key

theorem run_hashFind (h : Represents hashFcn S xs) (hfuel : xs.length ≤ fuel) (key : List Byte) :
    ∃ r, hashFind hashFcn fuel key S = .ok r S ∧
      hashFindByhashvalue fuel key (hashFcn key) S = .ok r S ∧ Found S xs key r := by
  cases xs with
  | nil =>
    have hhead : S.head = none := h.order.head
    refine ⟨none, ?_, ?_, ⟨fun _ hr => by simp at hr, fun _ _ ha => absurd ha List.not_mem_nil⟩⟩
    · rw [hashFind, bind_of_ok (get_apply S), hhead]
      rfl
    · rw [hashFindByhashvalue, bind_of_ok (get_apply S), hhead]
      rfl
  | cons x xs =>
    obtain ⟨t, ch, ht, -, hbuckets⟩ := h.table (List.cons_ne_nil x xs)
    obtain ⟨k, hk⟩ := hbuckets.sized
    have hhead : S.head = some x := h.order.head
    let j := (hashToBkt (hashFcn key) t.numBuckets).toNat
    have hj : j < t.buckets.length := by
      rw [hk.length, show j = _ from toNat_hashToBkt hk.numBuckets _]
      exact Nat.mod_lt _ (Nat.two_pow_pos k)
    have hb : t.buckets[j]? = some t.buckets[j] := List.getElem?_eq_getElem hj
    have hwalk := run_hashFindInBkt key (hashFcn key) (hbuckets.chains.linked j)
      (fun a ha => h.order.live a (hbuckets.mem_of_mem ha)) ((hbuckets.length_le j).trans hfuel)
    have hrun : hashFindByhashvalue fuel key (hashFcn key) S =
        .ok ((ch j).find? (hasKey S.hh key (hashFcn key))) S := by
      rw [hashFindByhashvalue, bind_of_ok (get_apply S), hhead]
      simp only []
      rw [bind_of_ok (table_of_some ht), bind_of_ok (bucketAt_of_some ht hb),
        hbuckets.chains.hhHead hb]
      exact hwalk
    refine ⟨_, ?_, hrun, ?_, ?_⟩
    · rw [hashFind, bind_of_ok (get_apply S), hhead]
      exact hrun
    · intro a ha
      have hmem := hbuckets.mem_of_mem (List.mem_of_find?_eq_some ha)
      exact ⟨hmem, (h.hasKey_iff hmem key).mp (List.find?_some ha)⟩
    · intro hnone a ha hkey
      have hhome : homeIn t.numBuckets S.hh a = j := by
        rw [homeIn, h.hashv a ha, hkey]
      have hmem : a ∈ ch j := hhome ▸ hbuckets.mem.mpr ha
      exact List.find?_eq_none.mp hnone a hmem ((h.hasKey_iff ha key).mpr hkey)

/-! ## The check of `HASH_DEBUG` -/

theorem run_fsckBuckets {t : UTHashTable} {ch : Nat → List Uintptr} {is : List Nat}
    (ht : S.tbl = some t) (hbuckets : Buckets S t xs ch) (hlive : ∀ x ∈ xs, S.live x = true)
    (hfuel : xs.length ≤ fuel) (his : ∀ i ∈ is, i < t.numBuckets.toNat) (count : Unsigned) :
    fsckBuckets fuel is count S = .ok (count + BitVec.ofNat 32 (is.flatMap ch).length) S := by
  induction is generalizing count with
  | nil => simp [fsckBuckets]
  | cons i is ih =>
    obtain ⟨hi, his⟩ := List.forall_mem_cons.mp his
    obtain ⟨k, hk⟩ := hbuckets.sized
    have hlen : i < t.buckets.length := by rwa [hk.length, ← hk.numBuckets]
    have hb : t.buckets[i]? = some t.buckets[i] := List.getElem?_eq_getElem hlen
    have hidx : (BitVec.ofNat 32 i).toNat = i :=
      Nat.mod_eq_of_lt (Nat.lt_trans hi t.numBuckets.isLt)
    have hwalk : fsckWalk UTHashHandle.hhNext UTHashHandle.hhPrev fuel t.buckets[i].hhHead none 0 S =
        .ok (BitVec.ofNat 32 (ch i).length) S := by
      rw [hbuckets.chains.hhHead hb, run_fsckWalk 0 (hbuckets.chains.linked i)
        (fun a ha => hlive a (hbuckets.mem_of_mem ha)) ((hbuckets.length_le i).trans hfuel)]
      simp
    have hoops : hashOops (t.buckets[i].count ≠ BitVec.ofNat 32 (ch i).length) S = .ok () S := by
      rw [hashOops, if_neg (not_not.mpr (hbuckets.chains.count hb)), pure_apply]
    rw [fsckBuckets, bind_of_ok (bucketAt_of_some ht (by rw [hidx]; exact hb)), bind_of_ok hwalk,
      bind_of_ok hoops, ih his, List.flatMap_cons, List.length_append, BitVec.ofNat_add,
      BitVec.add_assoc]

theorem Buckets.perm_visited {t : UTHashTable} {ch : Nat → List Uintptr}
    (hbuckets : Buckets S t xs ch) (hxs : xs.Nodup) : (visited t ch).Perm xs := by
  obtain ⟨k, hk⟩ := hbuckets.sized
  refine (List.perm_ext_iff_of_nodup (nodup_visited hbuckets.chains) hxs).mpr fun a => ?_
  rw [mem_visited hk hbuckets.chains, hbuckets.mem]

/-- The integrity check of `HASH_DEBUG` passes. -/
theorem run_hashFsck (h : Represents hashFcn S xs) (hfuel : xs.length ≤ fuel) :
    hashFsck fuel S = .ok () S := by
  cases xs with
  | nil =>
    have hhead : S.head = none := h.order.head
    rw [hashFsck, bind_of_ok (get_apply S), hhead]
    rfl
  | cons x xs =>
    obtain ⟨t, ch, ht, -, hbuckets⟩ := h.table (List.cons_ne_nil x xs)
    have hhead : S.head = some x := h.order.head
    have hitems : ∀ c : Unsigned, c = BitVec.ofNat 32 (x :: xs).length →
        hashOops (c ≠ t.numItems) S = .ok () S := by
      rintro c rfl
      rw [hashOops, if_neg (not_not.mpr hbuckets.numItems.symm), pure_apply]
    have hchains : fsckBuckets fuel (List.range t.numBuckets.toNat) 0 S =
        .ok (0 + BitVec.ofNat 32 (visited t ch).length) S :=
      run_fsckBuckets ht hbuckets h.order.live hfuel (fun i hi => List.mem_range.mp hi) 0
    have horder : fsckWalk UTHashHandle.next UTHashHandle.prev fuel (some x) none 0 S =
        .ok (0 + BitVec.ofNat 32 (x :: xs).length) S :=
      run_fsckWalk 0 h.order.linked h.order.live hfuel
    rw [hashFsck, bind_of_ok (get_apply S), hhead]
    simp only []
    rw [bind_of_ok (table_of_some ht), bind_of_ok hchains, bind_of_ok (hitems _ ?_),
      bind_of_ok horder, hitems _ ?_]
    · simp
    · rw [(hbuckets.perm_visited h.order.nodup).length_eq]
      simp

/-! ## Iteration -/

/-- Elements may be allocated and freed as long as those of the table stay. -/
theorem Represents.of_live (h : Represents hashFcn S xs) {live : Uintptr → Bool}
    (hlive : ∀ x ∈ xs, live x = true) : Represents hashFcn { S with live := live } xs where
  order := { h.order with live := hlive }
  table := fun hne => by
    obtain ⟨t, ch, ht, htail, hbuckets⟩ := h.table hne
    exact ⟨t, ch, ht, htail, hbuckets.congr rfl rfl (fun _ _ => rfl) rfl rfl rfl rfl⟩
  hashv := h.hashv
  keylen := h.keylen

/-- The element is deleted and freed unless it is kept. -/
def deleteUnless (keep : Uintptr → Bool) (el : Uintptr) : Exec Unit :=
  if keep el then pure ()
  else do
    hashDeleteHh el
    freeElement el

/-- A loop body that deletes and frees the elements that it does not keep, and lists all. -/
def visit (keep : Uintptr → Bool) (el : Uintptr) (seen : List Uintptr) : Exec (List Uintptr) := do
  deleteUnless keep el
  return seen ++ [el]

theorem run_nextOrNull (as : List Uintptr) {bs : List Uintptr} (h : InOrder S (as ++ bs)) :
    nextOrNull bs.head? S = .ok bs.tail.head? S := by
  cases bs with
  | nil => rfl
  | cons b bs =>
    have hnext : (S.hh b).next = bs.head? := h.linked.next_eq.trans Option.or_none
    rw [List.head?_cons, nextOrNull, bind_of_ok (load_of_live (h.live b (by simp))), hnext]
    rfl

theorem run_deleteUnless (keep : Uintptr → Bool) {as bs : List Uintptr}
    (h : Represents hashFcn S (as ++ a :: bs)) :
    ∃ S', deleteUnless keep a S = .ok () S' ∧
      Represents hashFcn S' ((as ++ [a].filter keep) ++ bs) ∧
      (∀ x, S'.live x = (S.live x && (x != a || keep x))) ∧
      ∀ x, (S'.hh x).key = (S.hh x).key := by
  have halive : S.live a = true := h.order.live a (by simp)
  cases hkeep : keep a with
  | true =>
    refine ⟨S, ?_, by simpa [hkeep] using h, ?_, fun _ => rfl⟩
    · rw [deleteUnless, if_pos hkeep, pure_apply]
    · intro x
      rcases eq_or_ne x a with rfl | hx
      · simp [hkeep]
      · simp [hx]
  | false =>
    obtain ⟨S₁, hrun, hrep, hlive, hkey⟩ := run_hashDeleteHh h
    have hnot : ∀ x ∈ as ++ bs, x ≠ a := fun x hx =>
      ne_of_mem_of_not_mem hx (List.nodup_cons.mp (List.nodup_middle.mp h.order.nodup)).1
    have hfree : freeElement a S₁ =
        .ok () { S₁ with live := Function.update S₁.live a false } := by
      rw [freeElement, if_pos (by rw [hlive]; exact halive)]
    refine ⟨{ S₁ with live := Function.update S₁.live a false }, ?_, ?_, ?_, hkey⟩
    · rw [deleteUnless, if_neg (by simp [hkeep]), bind_of_ok hrun, hfree]
    · have hfilter : (as ++ [a].filter keep) ++ bs = as ++ bs := by simp [hkeep]
      rw [hfilter]
      refine hrep.of_live fun x hx => ?_
      rw [Function.update_of_ne (hnot x hx)]
      exact hrep.order.live x hx
    · intro x
      rcases eq_or_ne x a with rfl | hx
      · simp [hkeep]
      · simp [hx, hlive]

theorem run_hashIterLoop (keep : Uintptr → Bool) {as bs : List Uintptr} (seen : List Uintptr)
    (h : Represents hashFcn S (as ++ bs)) (hfuel : bs.length ≤ fuel) :
    ∃ S', hashIterLoop (visit keep) fuel bs.head? bs.tail.head? seen S = .ok (seen ++ bs) S' ∧
      Represents hashFcn S' (as ++ bs.filter keep) ∧
      (∀ x, S'.live x = (S.live x && (!bs.contains x || keep x))) ∧
      ∀ x, (S'.hh x).key = (S.hh x).key := by
  induction bs generalizing S as seen fuel with
  | nil =>
    refine ⟨S, ?_, h, by simp, fun _ => rfl⟩
    cases fuel <;> simp [hashIterLoop]
  | cons b bs ih =>
    obtain ⟨fuel, rfl⟩ := Nat.exists_eq_add_of_le' (Nat.le_trans (Nat.succ_pos _) hfuel)
    obtain ⟨S₁, hrun₁, hrep₁, hlive₁, hkey₁⟩ := run_deleteUnless keep h
    obtain ⟨S₂, hrun₂, hrep₂, hlive₂, hkey₂⟩ := ih (seen ++ [b]) hrep₁
      (Nat.le_of_succ_le_succ hfuel)
    refine ⟨S₂, ?_, ?_, ?_, fun x => (hkey₂ x).trans (hkey₁ x)⟩
    · have hvisit : visit keep b seen S = .ok (seen ++ [b]) S₁ := bind_of_ok hrun₁ _
      rw [List.head?_cons, List.tail_cons, hashIterLoop, bind_of_ok hvisit,
        bind_of_ok (run_nextOrNull _ hrep₁.order), hrun₂, List.append_assoc]
      rfl
    · rw [List.append_assoc, ← List.filter_append] at hrep₂
      exact hrep₂
    · intro x
      rw [hlive₂, hlive₁, List.contains_cons]
      cases S.live x <;> cases keep x <;> cases bs.contains x <;> simp [bne]

/-- `HASH_ITER` meets every element once, in order, also where its body deletes and frees it. -/
theorem run_hashIter (keep : Uintptr → Bool) (h : Represents hashFcn S xs)
    (hfuel : xs.length ≤ fuel) :
    ∃ S', hashIter fuel (visit keep) [] S = .ok xs S' ∧ Represents hashFcn S' (xs.filter keep) ∧
      (∀ x, S'.live x = (S.live x && (!xs.contains x || keep x))) ∧
      ∀ x, (S'.hh x).key = (S.hh x).key := by
  have h' : Represents hashFcn S ([] ++ xs) := h
  obtain ⟨S', hrun, hrest⟩ := run_hashIterLoop keep [] h' hfuel
  refine ⟨S', ?_, hrest⟩
  have hnext := run_nextOrNull [] h.order
  rw [hashIter, bind_of_ok (get_apply S), h.order.head, bind_of_ok hnext]
  exact hrun

end Represents

end Carmor.HashTable
