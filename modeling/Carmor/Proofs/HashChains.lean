import Carmor.HashTable
import Carmor.Lib.LinkedList

/-!
# The chains of the buckets

The steps of the macros of `uthash.h` on memory that is allocated, and what an element at the
front of a chain, a search and a removal do to the chains.
-/

namespace Carmor.HashTable

open Lib

/-! ## Steps -/

section Steps

variable {S : State} {a : Uintptr} {t : UTHashTable} {β : Type}

theorem get_apply (S : State) : (get : Exec State) S = .ok S S := rfl

theorem load_of_live (ha : S.live a = true) : load a S = .ok (S.hh a) S := if_pos ha

theorem store_of_live (f : UTHashHandle → UTHashHandle) (ha : S.live a = true) :
    store a f S = .ok () { S with hh := Function.update S.hh a (f (S.hh a)) } := if_pos ha

/-- The handles after `if (p) p->... = ...`. -/
def writeIf (hh : Uintptr → UTHashHandle) (p : Option Uintptr) (f : UTHashHandle → UTHashHandle) :
    Uintptr → UTHashHandle :=
  match p with
  | some x => Function.update hh x (f (hh x))
  | none => hh

theorem storeIf_of_live {p : Option Uintptr} (f : UTHashHandle → UTHashHandle)
    (hp : ∀ x ∈ p, S.live x = true) :
    storeIf p f S = .ok () { S with hh := writeIf S.hh p f } := by
  cases p with
  | none => rfl
  | some x => exact store_of_live f (hp x rfl)

theorem writeIf_of_not_mem {hh : Uintptr → UTHashHandle} {p : Option Uintptr}
    {f : UTHashHandle → UTHashHandle} (ha : a ∉ p) : writeIf hh p f a = hh a := by
  cases p with
  | none => rfl
  | some x => exact Function.update_of_ne (fun h => ha (congrArg some h.symm)) _ _

theorem table_of_some (ht : S.tbl = some t) : table S = .ok t S := by
  simp [table, ht]

theorem setTable_of_some (f : UTHashTable → UTHashTable) (ht : S.tbl = some t) :
    setTable f S = .ok () { S with tbl := some (f t) } := by
  simp [setTable, ht]

theorem bucketAt_of_some {bkt : Unsigned} {b : UTHashBucket} (ht : S.tbl = some t)
    (hb : t.buckets[bkt.toNat]? = some b) : bucketAt bkt S = .ok b S := by
  rw [bucketAt, bind_of_ok (table_of_some ht), hb]
  rfl

theorem storeBucket_of_some {bkt : Unsigned} {b : UTHashBucket} (f : UTHashBucket → UTHashBucket)
    (ht : S.tbl = some t) (hb : t.buckets[bkt.toNat]? = some b) :
    storeBucket bkt f S = .ok ()
      { S with tbl := some { t with buckets := t.buckets.set bkt.toNat (f b) } } := by
  rw [storeBucket, bind_of_ok (bucketAt_of_some ht hb), setTable_of_some _ ht]

end Steps

/-! ## Fields of all handles -/

/-- The pointers that the handles hold in the field `g`. -/
def field (g : UTHashHandle → Option Uintptr) (hh : Uintptr → UTHashHandle) :
    Uintptr → Option Uintptr :=
  fun a => g (hh a)

/-- The pointers of the order of insertion. -/
abbrev nexts (hh : Uintptr → UTHashHandle) := field UTHashHandle.next hh

abbrev prevs (hh : Uintptr → UTHashHandle) := field UTHashHandle.prev hh

/-- The pointers of the chains. -/
abbrev hhNexts (hh : Uintptr → UTHashHandle) := field UTHashHandle.hhNext hh

abbrev hhPrevs (hh : Uintptr → UTHashHandle) := field UTHashHandle.hhPrev hh

section Fields

variable {g : UTHashHandle → Option Uintptr} {hh : Uintptr → UTHashHandle} {a : Uintptr}
  {h : UTHashHandle} {p v : Option Uintptr} {f : UTHashHandle → UTHashHandle}

@[simp] theorem field_update : field g (Function.update hh a h) = Function.update (field g hh) a (g h) :=
  Function.comp_update g hh a h

@[simp high] theorem field_update_of_eq (heq : g h = g (hh a)) :
    field g (Function.update hh a h) = field g hh := by
  rw [field_update, heq]
  exact Function.update_eq_self a (field g hh)

theorem field_writeIf (hf : ∀ h, g (f h) = v) : field g (writeIf hh p f) = link (field g hh) p v := by
  cases p with
  | none => rfl
  | some x => rw [writeIf, field_update, hf, link_some]

theorem field_writeIf_of_eq (hf : ∀ h, g (f h) = g h) : field g (writeIf hh p f) = field g hh := by
  cases p with
  | none => rfl
  | some x => exact field_update_of_eq (hf _)

end Fields

/-- A handle without its pointers in the chain of its bucket. -/
def UTHashHandle.outsideChain (h : UTHashHandle) : UTHashHandle :=
  { h with hhPrev := none, hhNext := none }

/-- A handle without its pointers in the order of insertion. -/
def UTHashHandle.outsideOrder (h : UTHashHandle) : UTHashHandle :=
  { h with prev := none, next := none }

/-- The handles agree on `part`. -/
def Agree (part : UTHashHandle → UTHashHandle) (hh hh' : Uintptr → UTHashHandle) : Prop :=
  ∀ a, part (hh' a) = part (hh a)

/-- Only pointers of chains differ. -/
abbrev SameOrder (hh hh' : Uintptr → UTHashHandle) : Prop :=
  Agree UTHashHandle.outsideChain hh hh'

/-- Only pointers of the order of insertion differ. -/
abbrev SameChains (hh hh' : Uintptr → UTHashHandle) : Prop :=
  Agree UTHashHandle.outsideOrder hh hh'

section Agree

variable {part : UTHashHandle → UTHashHandle} {hh hh' hh'' : Uintptr → UTHashHandle}

theorem Agree.refl (hh : Uintptr → UTHashHandle) : Agree part hh hh := fun _ => rfl

theorem Agree.trans (h : Agree part hh hh') (h' : Agree part hh' hh'') : Agree part hh hh'' :=
  fun a => (h' a).trans (h a)

theorem agree_update {a : Uintptr} {h : UTHashHandle} (hpart : part h = part (hh a)) :
    Agree part hh (Function.update hh a h) := by
  intro x
  rcases eq_or_ne x a with rfl | hx
  · rw [Function.update_self, hpart]
  · rw [Function.update_of_ne hx]

theorem agree_writeIf (p : Option Uintptr) {f : UTHashHandle → UTHashHandle}
    (hf : ∀ h, part (f h) = part h) : Agree part hh (writeIf hh p f) := by
  cases p with
  | none => exact .refl hh
  | some x => exact agree_update (hf (hh x))

end Agree

section SameOrder

variable {hh hh' : Uintptr → UTHashHandle} (h : SameOrder hh hh')

include h

theorem SameOrder.nexts_eq : nexts hh' = nexts hh :=
  funext fun a => (congrArg UTHashHandle.next (h a) :)

theorem SameOrder.prevs_eq : prevs hh' = prevs hh :=
  funext fun a => (congrArg UTHashHandle.prev (h a) :)

theorem SameOrder.key_eq (a : Uintptr) : (hh' a).key = (hh a).key :=
  (congrArg UTHashHandle.key (h a) :)

theorem SameOrder.keylen_eq (a : Uintptr) : (hh' a).keylen = (hh a).keylen :=
  (congrArg UTHashHandle.keylen (h a) :)

theorem SameOrder.hashv_eq (a : Uintptr) : (hh' a).hashv = (hh a).hashv :=
  (congrArg UTHashHandle.hashv (h a) :)

end SameOrder

/-! ## The front of a chain -/

/-- `a` put in front of the chain that begins at `first`. -/
def pushFront (hh : Uintptr → UTHashHandle) (first : Option Uintptr) (a : Uintptr) :
    Uintptr → UTHashHandle :=
  writeIf (Function.update hh a { hh a with hhPrev := none, hhNext := first }) first
    fun h => { h with hhPrev := some a }

section PushFront

variable {hh : Uintptr → UTHashHandle} {first p n : Option Uintptr} {a : Uintptr}
  {xs ys : List Uintptr}

theorem sameOrder_pushFront (hh : Uintptr → UTHashHandle) (first : Option Uintptr) (a : Uintptr) :
    SameOrder hh (pushFront hh first a) := by
  refine (agree_update ?_).trans (agree_writeIf first ?_)
  · rfl
  · exact fun _ => rfl

theorem pushFront_of_ne {x : Uintptr} (hx : x ≠ a) (hfirst : x ∉ first) :
    pushFront hh first a x = hh x := by
  rw [pushFront, writeIf_of_not_mem hfirst, Function.update_of_ne hx]

theorem linked_pushFront (h : Linked (hhNexts hh) (hhPrevs hh) none xs none) (hxs : xs.Nodup)
    (ha : a ∉ xs) : Linked (hhNexts (pushFront hh xs.head? a))
      (hhPrevs (pushFront hh xs.head? a)) none (a :: xs) none := by
  have hinsert := Linked.insert [] xs h hxs ha
  cases xs with
  | nil => simp [pushFront, writeIf]
  | cons f xs =>
    have haf : f ≠ a := (List.ne_of_not_mem_cons ha).symm
    simpa [pushFront, writeIf, Function.update_comm haf] using hinsert

/-- The assignments by which an element is put in front of a chain. -/
theorem run_pushFront {S : State} {β : Type} (ha : S.live a = true)
    (hfirst : ∀ f ∈ first, S.live f = true) (k : Exec β) :
    (do
      store a fun h => { h with hhPrev := none, hhNext := first }
      storeIf first fun h => { h with hhPrev := some a }
      k) S = k { S with hh := pushFront S.hh first a } := by
  rw [bind_of_ok (store_of_live _ ha)]
  refine bind_of_ok (storeIf_of_live _ ?_) fun _ => k
  exact hfirst

end PushFront

/-! ## The chains of a table -/

/-- `ch j` is the chain of bucket `j`, and `home a` the bucket that the element `a` belongs to. -/
structure Chains (hh : Uintptr → UTHashHandle) (buckets : List UTHashBucket)
    (home : Uintptr → Nat) (ch : Nat → List Uintptr) : Prop where
  hhHead : ∀ {j b}, buckets[j]? = some b → b.hhHead = (ch j).head?
  count : ∀ {j b}, buckets[j]? = some b → b.count = BitVec.ofNat 32 (ch j).length
  linked : ∀ j, Linked (hhNexts hh) (hhPrevs hh) none (ch j) none
  nodup : ∀ j, (ch j).Nodup
  home : ∀ {j a}, a ∈ ch j → home a = j

theorem chains_empty (hh : Uintptr → UTHashHandle) (n : Nat) (home : Uintptr → Nat) :
    Chains hh (List.replicate n {}) home fun _ => [] where
  hhHead h := by
    obtain rfl := List.eq_of_mem_replicate (List.mem_of_getElem? h)
    rfl
  count h := by
    obtain rfl := List.eq_of_mem_replicate (List.mem_of_getElem? h)
    rfl
  linked _ := trivial
  nodup _ := List.nodup_nil
  home h := absurd h List.not_mem_nil

section Chains

variable {hh hh' : Uintptr → UTHashHandle} {buckets : List UTHashBucket}
  {home : Uintptr → Nat} {ch : Nat → List Uintptr} {a : Uintptr} {b b' : UTHashBucket}

theorem Chains.congr (h : Chains hh buckets home ch) (hnext : hhNexts hh' = hhNexts hh)
    (hprev : hhPrevs hh' = hhPrevs hh) : Chains hh' buckets home ch :=
  { h with linked := fun j => by rw [hnext, hprev]; exact h.linked j }

theorem Chains.not_mem_of_ne (h : Chains hh buckets home ch) {i j : Nat} (hij : i ≠ j)
    (ha : a ∈ ch i) : a ∉ ch j :=
  fun haj => hij ((h.home ha).symm.trans (h.home haj))

/-- Another chain in one bucket. -/
theorem Chains.set (h : Chains hh buckets home ch) {j : Nat} {l : List Uintptr}
    (hj : j < buckets.length) (hhead : b'.hhHead = l.head?)
    (hcount : b'.count = BitVec.ofNat 32 l.length)
    (hlinked : Linked (hhNexts hh') (hhPrevs hh') none l none) (hnodup : l.Nodup)
    (hhome : ∀ x ∈ l, home x = j) (hothers : ∀ x, home x ≠ j → (∃ i, x ∈ ch i) → hh' x = hh x) :
    Chains hh' (buckets.set j b') home (Function.update ch j l) := by
  refine ⟨?_, ?_, ?_, ?_, ?_⟩
  · intro i c hc
    rcases eq_or_ne j i with rfl | hij
    · rw [List.getElem?_set_self hj] at hc
      cases hc
      rw [Function.update_self, hhead]
    · rw [List.getElem?_set_ne hij] at hc
      rw [Function.update_of_ne hij.symm, h.hhHead hc]
  · intro i c hc
    rcases eq_or_ne j i with rfl | hij
    · rw [List.getElem?_set_self hj] at hc
      cases hc
      rw [Function.update_self, hcount]
    · rw [List.getElem?_set_ne hij] at hc
      rw [Function.update_of_ne hij.symm, h.count hc]
  · intro i
    rcases eq_or_ne i j with rfl | hij
    · rwa [Function.update_self]
    · rw [Function.update_of_ne hij]
      have hsame : ∀ x ∈ ch i, hh' x = hh x := fun x hx => hothers x (by rwa [h.home hx]) ⟨i, hx⟩
      exact (h.linked i).congr (fun x hx => congrArg UTHashHandle.hhNext (hsame x hx))
        fun x hx => congrArg UTHashHandle.hhPrev (hsame x hx)
  · intro i
    rcases eq_or_ne i j with rfl | hij
    · rwa [Function.update_self]
    · rw [Function.update_of_ne hij]
      exact h.nodup i
  · intro i x hx
    rcases eq_or_ne i j with rfl | hij
    · rw [Function.update_self] at hx
      exact hhome x hx
    · rw [Function.update_of_ne hij] at hx
      exact h.home hx

theorem Chains.push (h : Chains hh buckets home ch) (ha : a ∉ ch (home a))
    (hb : buckets[home a]? = some b) (hhead : b'.hhHead = some a) (hcount : b'.count = b.count + 1) :
    Chains (pushFront hh b.hhHead a) (buckets.set (home a) b') home
      (Function.update ch (home a) (a :: ch (home a))) := by
  have hfirst := h.hhHead hb
  refine h.set (List.getElem?_eq_some_iff.mp hb).1 hhead ?_ ?_ ?_ ?_ ?_
  · rw [hcount, h.count hb, List.length_cons, BitVec.ofNat_add]
    rfl
  · rw [hfirst]
    exact linked_pushFront (h.linked _) (h.nodup _) ha
  · exact List.nodup_cons.mpr ⟨ha, h.nodup _⟩
  · exact List.forall_mem_cons.mpr ⟨rfl, fun x hx => h.home hx⟩
  · intro x hx _
    refine pushFront_of_ne (fun hxa => hx (congrArg home hxa)) fun hmem => ?_
    rw [hfirst] at hmem
    exact hx (h.home (List.mem_of_mem_head? hmem))

/-! ## Removal from a chain -/

/-- The predecessor `p` and the successor `n` of an element of a chain linked with each other. -/
def unlinkHh (hh : Uintptr → UTHashHandle) (p n : Option Uintptr) : Uintptr → UTHashHandle :=
  writeIf (writeIf hh p fun h => { h with hhNext := n }) n fun h => { h with hhPrev := p }

theorem hhNexts_unlinkHh (p n : Option Uintptr) :
    hhNexts (unlinkHh hh p n) = link (hhNexts hh) p n := by
  refine (field_writeIf_of_eq ?_).trans (field_writeIf ?_)
  · exact fun _ => rfl
  · exact fun _ => rfl

theorem hhPrevs_unlinkHh (p n : Option Uintptr) :
    hhPrevs (unlinkHh hh p n) = link (hhPrevs hh) n p := by
  refine (field_writeIf ?_).trans (congrArg (link · n p) (field_writeIf_of_eq ?_))
  · exact fun _ => rfl
  · exact fun _ => rfl

theorem sameOrder_unlinkHh (p n : Option Uintptr) : SameOrder hh (unlinkHh hh p n) := by
  refine (agree_writeIf p ?_).trans (agree_writeIf n ?_)
  · exact fun _ => rfl
  · exact fun _ => rfl

theorem run_hashDelInBkt {S : State} {t : UTHashTable} {bkt : Unsigned} {p n : Option Uintptr}
    (ht : S.tbl = some t) (hb : t.buckets[bkt.toNat]? = some b) (ha : S.live a = true)
    (hp : (S.hh a).hhPrev = p) (hn : (S.hh a).hhNext = n) (hplive : ∀ x ∈ p, S.live x = true)
    (hnlive : ∀ x ∈ n, S.live x = true) (hap : a ∉ p) :
    hashDelInBkt bkt a S = .ok () { S with
      hh := unlinkHh S.hh p n
      tbl := some { t with buckets := t.buckets.set bkt.toNat { b with
        count := b.count - 1
        hhHead := if b.hhHead = some a then n else b.hhHead } } } := by
  have hlt := (List.getElem?_eq_some_iff.mp hb).1
  have ha' : (writeIf S.hh p fun hp => { hp with hhNext := n }) a = S.hh a :=
    writeIf_of_not_mem hap
  subst hp hn
  simp only [hashDelInBkt, storeBucket, bucketAt, table, setTable, load, bind_apply, pure_apply,
    ht, hb, ha, if_true, List.getElem?_set_self hlt, List.set_set]
  rw [storeIf_of_live]
  · simp only [ha, ha', if_true]
    rw [storeIf_of_live]
    · split <;> rfl
    · exact hnlive
  · exact hplive

theorem Chains.remove (h : Chains hh buckets home ch) {xs ys : List Uintptr}
    (hsplit : ch (home a) = xs ++ a :: ys) (hb : buckets[home a]? = some b)
    (hhead : b'.hhHead = if b.hhHead = some a then ys.head? else b.hhHead)
    (hcount : b'.count = b.count - 1) :
    Chains (unlinkHh hh xs.getLast? ys.head?) (buckets.set (home a) b') home
      (Function.update ch (home a) (xs ++ ys)) := by
  have hnodup := hsplit ▸ h.nodup (home a)
  have hlinked := hsplit ▸ h.linked (home a)
  have hhome : ∀ x ∈ xs ++ a :: ys, home x = home a := fun x hx => h.home (hsplit ▸ hx)
  refine h.set (List.getElem?_eq_some_iff.mp hb).1 ?_ ?_ ?_ ?_ ?_ ?_
  · rw [hhead, h.hhHead hb, hsplit]
    cases xs with
    | nil => simp
    | cons x xs =>
      have hxa : x ≠ a := by
        rintro rfl
        simp at hnodup
      simp [hxa]
  · rw [hcount, h.count hb, hsplit, List.length_append, List.length_cons, ← Nat.add_assoc,
      List.length_append, BitVec.ofNat_add]
    exact BitVec.add_sub_cancel ..
  · rw [hhNexts_unlinkHh, hhPrevs_unlinkHh]
    simpa using hlinked.remove hnodup
  · exact hnodup.sublist (List.Sublist.append_left (List.sublist_cons_self a ys) xs)
  · simp only [List.forall_mem_append, List.forall_mem_cons] at hhome ⊢
    exact ⟨hhome.1, hhome.2.2⟩
  · intro x hx _
    simp only [List.forall_mem_append, List.forall_mem_cons] at hhome
    rw [unlinkHh, writeIf_of_not_mem, writeIf_of_not_mem]
    · exact fun hmem => hx (hhome.1 x (List.mem_of_mem_getLast? hmem))
    · exact fun hmem => hx (hhome.2.2 x (List.mem_of_mem_head? hmem))

end Chains

/-! ## Walks -/

/-- The test of `HASH_FIND_IN_BKT`. -/
def hasKey (hh : Uintptr → UTHashHandle) (keyptr : List Byte) (hashval : Unsigned)
    (a : Uintptr) : Bool :=
  (hh a).hashv = hashval ∧ (hh a).keylen.toNat = keyptr.length ∧
    (hh a).key.take keyptr.length = keyptr

section Walks

variable {S : State} {p : Option Uintptr} {xs : List Uintptr} {fuel : Nat}

theorem run_hashFindInBkt {prev : Uintptr → Option Uintptr} (keyptr : List Byte)
    (hashval : Unsigned) (hlinked : Linked (hhNexts S.hh) prev p xs none)
    (hlive : ∀ a ∈ xs, S.live a = true) (hfuel : xs.length ≤ fuel) :
    hashFindInBkt keyptr hashval fuel xs.head? S =
      .ok (xs.find? (hasKey S.hh keyptr hashval)) S := by
  induction xs generalizing p fuel with
  | nil => cases fuel <;> rfl
  | cons x xs ih =>
    obtain ⟨fuel, rfl⟩ := Nat.exists_eq_add_of_le' (Nat.le_trans (Nat.succ_pos _) hfuel)
    obtain ⟨-, hnext, hrest⟩ := hlinked
    obtain ⟨hx, hxs⟩ := List.forall_mem_cons.mp hlive
    rw [List.head?_cons, hashFindInBkt, bind_of_ok (load_of_live hx), List.find?_cons]
    by_cases hkey : hasKey S.hh keyptr hashval x = true
    · rw [if_pos (of_decide_eq_true hkey), hkey]
      rfl
    · rw [if_neg (fun h => hkey (decide_eq_true h)), Bool.eq_false_iff.mpr hkey]
      have hhead : (S.hh x).hhNext = xs.head? := hnext.trans Option.or_none
      rw [hhead]
      exact ih hrest hxs (Nat.le_of_succ_le_succ hfuel)

theorem run_fsckWalk {next prev : UTHashHandle → Option Uintptr} (count : Unsigned)
    (hlinked : Linked (fun a => next (S.hh a)) (fun a => prev (S.hh a)) p xs none)
    (hlive : ∀ a ∈ xs, S.live a = true) (hfuel : xs.length ≤ fuel) :
    fsckWalk next prev fuel xs.head? p count S =
      .ok (count + BitVec.ofNat 32 xs.length) S := by
  induction xs generalizing p fuel count with
  | nil => cases fuel <;> simp [fsckWalk]
  | cons x xs ih =>
    obtain ⟨fuel, rfl⟩ := Nat.exists_eq_add_of_le' (Nat.le_trans (Nat.succ_pos _) hfuel)
    obtain ⟨hprev, hnext, hrest⟩ := hlinked
    obtain ⟨hx, hxs⟩ := List.forall_mem_cons.mp hlive
    have hhead : next (S.hh x) = xs.head? := hnext.trans Option.or_none
    have hoops : hashOops (p ≠ prev (S.hh x)) S = .ok () S := by
      rw [hashOops, if_neg (not_not.mpr hprev.symm), pure_apply]
    rw [List.head?_cons, fsckWalk, bind_of_ok (load_of_live hx), bind_of_ok hoops, hhead,
      ih (count + 1) hrest hxs (Nat.le_of_succ_le_succ hfuel), List.length_cons, BitVec.ofNat_add,
      BitVec.add_assoc, BitVec.add_comm 1]
    rfl

theorem run_hashAkbiInnerLoop {prev : Uintptr → Option Uintptr} (cmpfcn : Uintptr → Uintptr → Int)
    (add : Uintptr) {x : Uintptr} (hlinked : Linked (nexts S.hh) prev p (x :: xs) none)
    (hlive : ∀ a ∈ x :: xs, S.live a = true) (hfuel : (x :: xs).length ≤ fuel) :
    hashAkbiInnerLoop cmpfcn add fuel x S =
      .ok ((x :: xs).find? fun a => 0 < cmpfcn a add) S := by
  induction xs generalizing p x fuel with
  | nil =>
    obtain ⟨fuel, rfl⟩ := Nat.exists_eq_add_of_le' (Nat.le_trans (Nat.succ_pos _) hfuel)
    obtain ⟨-, hnext, -⟩ := hlinked
    have hnone : (S.hh x).next = none := hnext
    rw [hashAkbiInnerLoop, List.find?_cons]
    by_cases hcmp : 0 < cmpfcn x add
    · rw [if_pos hcmp, decide_eq_true hcmp]
      rfl
    · rw [if_neg hcmp, decide_eq_false hcmp, bind_of_ok (load_of_live (hlive x List.mem_cons_self)),
        hnone]
      rfl
  | cons y xs ih =>
    obtain ⟨fuel, rfl⟩ := Nat.exists_eq_add_of_le' (Nat.le_trans (Nat.succ_pos _) hfuel)
    obtain ⟨-, hnext, hrest⟩ := hlinked
    obtain ⟨hx, hxs⟩ := List.forall_mem_cons.mp hlive
    have hsome : (S.hh x).next = some y := hnext
    rw [hashAkbiInnerLoop, List.find?_cons]
    by_cases hcmp : 0 < cmpfcn x add
    · rw [if_pos hcmp, decide_eq_true hcmp]
      rfl
    · rw [if_neg hcmp, decide_eq_false hcmp, bind_of_ok (load_of_live hx), hsome]
      exact ih hrest hxs (Nat.le_of_succ_le_succ hfuel)

end Walks

end Carmor.HashTable
