import Carmor.Proofs.HashSearch
import Carmor.Lib.OrderedMap
import Carmor.Lib.Run

/-!
# Runs of the hash table

Sequences of all operations refine a map that keeps an order.
-/

namespace Carmor.HashTable

open Lib

/-- What a program does with its table. It allocates and frees the elements itself. -/
inductive Command where
  | mallocElement (a : Uintptr)
  | freeElement (a : Uintptr)
  | add (a : Uintptr) (key : List Byte)
  | addInorder (a : Uintptr) (key : List Byte)
  | find (key : List Byte)
  | delete (a : Uintptr)
  | replace (a : Uintptr) (key : List Byte)
  | replaceInorder (a : Uintptr) (key : List Byte)
  | clear
  | count
  | iter (keep : Uintptr → Bool)
  | fsck

inductive Output where
  | done
  | element (r : Option Uintptr)
  | number (n : Unsigned)
  | elements (as : List Uintptr)
  deriving DecidableEq

section Exec

variable (malloc : Malloc) (hashFcn : List Byte → Unsigned) (cmpfcn : Uintptr → Uintptr → Int)
  (fuel : Nat)

def exec : Command → Exec Output
  | .mallocElement a => (fun _ => .done) <$> mallocElement a
  | .freeElement a => (fun _ => .done) <$> freeElement a
  | .add a key => (fun _ => .done) <$> hashAdd malloc hashFcn fuel key a
  | .addInorder a key => (fun _ => .done) <$> hashAddInorder malloc hashFcn fuel key a cmpfcn
  | .find key => .element <$> hashFind hashFcn fuel key
  | .delete a => (fun _ => .done) <$> hashDeleteHh a
  | .replace a key => .element <$> hashReplace malloc hashFcn fuel key a
  | .replaceInorder a key => .element <$> hashReplaceInorder malloc hashFcn fuel key a cmpfcn
  | .clear => (fun _ => .done) <$> hashClear
  | .count => .number <$> hashCount
  | .iter keep => .elements <$> hashIter fuel (visit keep) []
  | .fsck => (fun _ => .done) <$> hashFsck fuel

def execAll : List Command → Exec (List Output)
  | [] => pure []
  | c :: cs => do
    let o ← exec malloc hashFcn cmpfcn fuel c
    let os ← execAll cs
    return o :: os

end Exec

/-- What the program has: the allocated elements, and a map to the elements in the table. -/
structure Client where
  live : Uintptr → Bool
  map : OrderedMap Uintptr (List Byte)

/-- `keep` selects what stays of the elements in the map, and the others are deleted and freed. -/
def Client.iter (C : Client) (keep : Uintptr → Bool) : Client where
  live x := C.live x && (!C.map.elements.contains x || keep x)
  map := C.map.filter fun e => keep e.1

/-- The contract of the macros, what they do to the map and what they return. -/
inductive Client.Step (cmpfcn : Uintptr → Uintptr → Int) (C : Client) :
    Command × Output → Client → Prop
  | mallocElement {a} : C.live a = false →
      Step cmpfcn C (.mallocElement a, .done) { C with live := Function.update C.live a true }
  | freeElement {a} : C.live a = true → a ∉ C.map.elements →
      Step cmpfcn C (.freeElement a, .done) { C with live := Function.update C.live a false }
  | add {a key} (ha : a ∉ C.map.elements) (hkey : key ∉ C.map.keys) : C.live a = true →
      key.length < 2 ^ 32 → Step cmpfcn C (.add a key, .done)
        { C with map := C.map.add a key ha hkey }
  | addInorder {a key} (ha : a ∉ C.map.elements) (hkey : key ∉ C.map.keys) : C.live a = true →
      key.length < 2 ^ 32 → Step cmpfcn C (.addInorder a key, .done)
        { C with map := C.map.insertBefore (fun x => 0 < cmpfcn x a) a key ha hkey }
  | find (key) : Step cmpfcn C (.find key, .element (C.map.find? key)) C
  | delete {a} : a ∈ C.map.elements →
      Step cmpfcn C (.delete a, .done) { C with map := C.map.erase a }
  | replace {a key} (ha : a ∉ C.map.elements) : C.live a = true → key.length < 2 ^ 32 →
      Step cmpfcn C (.replace a key, .element (C.map.find? key))
        { C with map := C.map.replace a key ha }
  | replaceInorder {a key} (ha : a ∉ C.map.elements) : C.live a = true → key.length < 2 ^ 32 →
      Step cmpfcn C (.replaceInorder a key, .element (C.map.find? key))
        { C with map := C.map.replaceBefore (fun x => 0 < cmpfcn x a) a key ha }
  | clear : Step cmpfcn C (.clear, .done) { C with map := .empty }
  | count : Step cmpfcn C (.count, .number (BitVec.ofNat 32 C.map.entries.length)) C
  | iter (keep) : Step cmpfcn C (.iter keep, .elements C.map.elements) (C.iter keep)
  | fsck : Step cmpfcn C (.fsck, .done) C

/-- A state implements what the program has. -/
structure Implements (hashFcn : List Byte → Unsigned) (S : State) (C : Client) : Prop where
  represents : Represents hashFcn S C.map.elements
  live : S.live = C.live
  key : ∀ e ∈ C.map.entries, (S.hh e.1).key = e.2

section Runs

variable {malloc : Malloc} {hashFcn : List Byte → Unsigned} {cmpfcn : Uintptr → Uintptr → Int}
  {S : State} {C C' : Client} {fuel : Nat} {a : Uintptr} {key : List Byte}

theorem Completes.map {α β : Type} {x : Exec α} {f : α → β} {P : α → State → Prop}
    {Q : β → State → Prop} (hx : Completes malloc P (x S)) (hf : ∀ a S', P a S' → Q (f a) S') :
    Completes malloc Q ((f <$> x) S) := by
  rw [map_eq_pure_bind]
  exact hx.bind fun a S' ha => .ok (hf a S' ha)

theorem completes_map_of_ok {α β : Type} {x : Exec α} {f : α → β} {b : α} {S' : State}
    {Q : β → State → Prop} (hx : x S = .ok b S') (hQ : Q (f b) S') :
    Completes malloc Q ((f <$> x) S) := by
  rw [map_eq_pure_bind]
  exact completes_of_ok (bind_of_ok hx _) hQ

theorem Implements.added {S' : State} {p : Uintptr → Bool} (h : Implements hashFcn S C)
    (ha : a ∉ C.map.elements) (hkey : key ∉ C.map.keys)
    (hadded : Added hashFcn key a (C.map.insertBefore p a key ha hkey).elements S S') :
    Implements hashFcn S' { C with map := C.map.insertBefore p a key ha hkey } where
  represents := hadded.represents
  live := hadded.live.trans h.live
  key := by
    intro e he
    rcases (OrderedMap.mem_insertBefore ha hkey).mp he with rfl | he
    · exact hadded.key
    · rw [hadded.others e.1 (ne_of_mem_of_not_mem (List.mem_map_of_mem he) ha)]
      exact h.key e he

theorem Implements.find (h : Implements hashFcn S C) {r : Option Uintptr}
    (hfound : Found S C.map.elements key r) : r = C.map.find? key := by
  have hentry : ∀ {x}, x ∈ C.map.elements → (S.hh x).key = key → (x, key) ∈ C.map.entries := by
    rintro x hx rfl
    obtain ⟨e, he, rfl⟩ := List.mem_map.mp hx
    rw [h.key e he]
    exact he
  cases r with
  | some x =>
    obtain ⟨hx, hkey⟩ := hfound.of_some x rfl
    exact (OrderedMap.find?_of_mem (hentry hx hkey)).symm
  | none =>
    refine (OrderedMap.find?_of_not_mem fun hmem => ?_).symm
    obtain ⟨e, he, rfl⟩ := List.mem_map.mp hmem
    exact hfound.of_none rfl e.1 (List.mem_map_of_mem he) (h.key e he)

theorem Implements.run_delete (h : Implements hashFcn S C) (ha : a ∈ C.map.elements) :
    ∃ S', hashDeleteHh a S = .ok () S' ∧
      Implements hashFcn S' { C with map := C.map.erase a } := by
  obtain ⟨as, bs, hsplit⟩ := List.append_of_mem ha
  obtain ⟨S', hrun, hrep, hlive, hkey⟩ := run_hashDeleteHh (hsplit ▸ h.represents)
  refine ⟨S', hrun, ?_, hlive.trans h.live, fun e he => ?_⟩
  · rw [C.map.elements_erase_of_split hsplit]
    exact hrep
  · rw [hkey]
    exact h.key e (List.mem_of_mem_filter he)

theorem Implements.run_deleteReplaced (key : List Byte) (h : Implements hashFcn S C) :
    ∃ S', hashDeleteReplaced (C.map.find? key) S = .ok () S' ∧
      Implements hashFcn S' { C with map := C.map.eraseKey key } := by
  by_cases hkey : key ∈ C.map.keys
  · obtain ⟨⟨x, key⟩, he, rfl⟩ := List.mem_map.mp hkey
    obtain ⟨S', hrun, himpl⟩ := h.run_delete (List.mem_map_of_mem he)
    refine ⟨S', ?_, ?_⟩
    · rw [OrderedMap.find?_of_mem he]
      exact hrun
    · rw [OrderedMap.eraseKey_of_mem he]
      exact himpl
  · refine ⟨S, ?_, ?_⟩
    · rw [OrderedMap.find?_of_not_mem hkey]
      rfl
    · rw [OrderedMap.eraseKey_of_not_mem hkey]
      exact h

theorem Implements.completes_add (h : Implements hashFcn S C) (ha : a ∉ C.map.elements)
    (hkey : key ∉ C.map.keys) (hlive : C.live a = true) (hlen : key.length < 2 ^ 32)
    (hfuel : C.map.elements.length < fuel) :
    Completes malloc (fun _ S' => Implements hashFcn S' { C with map := C.map.add a key ha hkey })
      (hashAdd malloc hashFcn fuel key a S) := by
  refine (completes_hashAdd h.represents ha (h.live ▸ hlive) hlen hfuel).mono fun _ S' hS' => ?_
  rw [← OrderedMap.elements_add ha hkey] at hS'
  exact h.added ha hkey hS'

theorem Implements.of_live (h : Implements hashFcn S C) {live : Uintptr → Bool}
    (hlive : ∀ x ∈ C.map.elements, live x = true) :
    Implements hashFcn { S with live := live } { C with live := live } :=
  ⟨h.represents.of_live hlive, rfl, h.key⟩

theorem Implements.run_mallocElement (h : Implements hashFcn S C) (ha : C.live a = false) :
    ∃ S', mallocElement a S = .ok () S' ∧
      Implements hashFcn S' { C with live := Function.update C.live a true } := by
  refine ⟨_, if_neg (by rw [h.live, ha]; exact Bool.false_ne_true), h.live ▸ h.of_live ?_⟩
  intro x hx
  rcases eq_or_ne x a with rfl | hne
  · exact Function.update_self ..
  · rw [Function.update_of_ne hne]
    exact h.represents.order.live x hx

theorem Implements.run_freeElement (h : Implements hashFcn S C) (hlive : C.live a = true)
    (ha : a ∉ C.map.elements) :
    ∃ S', freeElement a S = .ok () S' ∧
      Implements hashFcn S' { C with live := Function.update C.live a false } := by
  refine ⟨_, if_pos (by rw [h.live, hlive]), h.live ▸ h.of_live ?_⟩
  intro x hx
  rw [Function.update_of_ne (ne_of_mem_of_not_mem hx ha)]
  exact h.represents.order.live x hx

theorem Implements.run_clear (h : Implements hashFcn S C) :
    ∃ S', hashClear S = .ok () S' ∧ Implements hashFcn S' { C with map := .empty } := by
  have hempty : ∀ S' : State, S'.head = none → S'.live = S.live →
      Implements hashFcn S' { C with map := .empty } := fun S' hhead hlive =>
    ⟨represents_nil hhead, hlive.trans h.live, fun _ he => absurd he List.not_mem_nil⟩
  rw [hashClear, bind_of_ok (get_apply S)]
  cases hhead : S.head with
  | none => exact ⟨S, rfl, hempty S hhead rfl⟩
  | some x =>
    have hne : C.map.elements ≠ [] := by
      intro hnil
      have hnone := h.represents.order.head
      rw [hnil, hhead] at hnone
      simp at hnone
    obtain ⟨t, ch, ht, -⟩ := h.represents.table hne
    refine ⟨{ S with tbl := none, head := none }, ?_, hempty _ rfl rfl⟩
    simp only []
    rw [bind_of_ok (table_of_some ht)]
    rfl

theorem Implements.run_count (h : Implements hashFcn S C) :
    hashCount S = .ok (BitVec.ofNat 32 C.map.entries.length) S := by
  have hlength : C.map.entries.length = C.map.elements.length := (List.length_map _).symm
  rw [hashCount, bind_of_ok (get_apply S), h.represents.order.head, hlength]
  cases hxs : C.map.elements with
  | nil => rfl
  | cons x xs =>
    obtain ⟨t, ch, ht, -, hbuckets⟩ := h.represents.table (by simp [hxs])
    simp only [List.head?_cons]
    rw [bind_of_ok (table_of_some ht), hbuckets.numItems, hxs]
    rfl

theorem Implements.run_iter (keep : Uintptr → Bool) (h : Implements hashFcn S C)
    (hfuel : C.map.elements.length ≤ fuel) :
    ∃ S', hashIter fuel (visit keep) [] S = .ok C.map.elements S' ∧
      Implements hashFcn S' (C.iter keep) := by
  obtain ⟨S', hrun, hrep, hlive, hkey⟩ := run_hashIter keep h.represents hfuel
  refine ⟨S', hrun, ?_, ?_, fun e he => ?_⟩
  · have helements : (C.iter keep).map.elements = C.map.elements.filter keep := by
      rw [Client.iter, OrderedMap.elements, OrderedMap.elements, List.filter_map]
      rfl
    rw [helements]
    exact hrep
  · funext x
    rw [hlive, h.live]
    rfl
  · rw [hkey]
    exact h.key e (List.mem_of_mem_filter he)

theorem Implements.completes_addInorder (h : Implements hashFcn S C) (ha : a ∉ C.map.elements)
    (hkey : key ∉ C.map.keys) (hlive : C.live a = true) (hlen : key.length < 2 ^ 32)
    (hfuel : C.map.elements.length < fuel) :
    Completes malloc (fun _ S' => Implements hashFcn S'
        { C with map := C.map.insertBefore (fun x => 0 < cmpfcn x a) a key ha hkey })
      (hashAddInorder malloc hashFcn fuel key a cmpfcn S) := by
  refine (completes_hashAddInorder cmpfcn h.represents ha (h.live ▸ hlive) hlen hfuel).mono
    fun _ S' hS' => ?_
  refine h.added ha hkey ?_
  rw [OrderedMap.elements_insertBefore]
  simp only [← decide_not]
  exact hS'

theorem Implements.completes_replace (h : Implements hashFcn S C) (ha : a ∉ C.map.elements)
    (hlive : C.live a = true) (hlen : key.length < 2 ^ 32) (hfuel : C.map.elements.length < fuel) :
    Completes malloc (fun r S' => r = C.map.find? key ∧
        Implements hashFcn S' { C with map := C.map.replace a key ha })
      (hashReplace malloc hashFcn fuel key a S) := by
  obtain ⟨r, -, hfind, hfound⟩ := run_hashFind h.represents hfuel.le key
  obtain rfl := h.find hfound
  obtain ⟨S₁, hdelete, h₁⟩ := h.run_deleteReplaced key
  have hsize := (C.map.elements_filter_sublist fun e => e.2 ≠ key).length_le
  rw [hashReplace, bind_of_ok hfind, bind_of_ok hdelete]
  refine (h₁.completes_add (OrderedMap.not_mem_elements_eraseKey key ha)
    (C.map.not_mem_eraseKey key) hlive hlen (hsize.trans_lt hfuel)).bind fun _ S' hS' => ?_
  exact .ok ⟨rfl, hS'⟩

theorem Implements.completes_replaceInorder (h : Implements hashFcn S C)
    (ha : a ∉ C.map.elements) (hlive : C.live a = true) (hlen : key.length < 2 ^ 32)
    (hfuel : C.map.elements.length < fuel) :
    Completes malloc (fun r S' => r = C.map.find? key ∧ Implements hashFcn S'
        { C with map := C.map.replaceBefore (fun x => 0 < cmpfcn x a) a key ha })
      (hashReplaceInorder malloc hashFcn fuel key a cmpfcn S) := by
  obtain ⟨r, -, hfind, hfound⟩ := run_hashFind h.represents hfuel.le key
  obtain rfl := h.find hfound
  obtain ⟨S₁, hdelete, h₁⟩ := h.run_deleteReplaced key
  have hsize := (C.map.elements_filter_sublist fun e => e.2 ≠ key).length_le
  rw [hashReplaceInorder, bind_of_ok hfind, bind_of_ok hdelete]
  refine (h₁.completes_addInorder (OrderedMap.not_mem_elements_eraseKey key ha)
    (C.map.not_mem_eraseKey key) hlive hlen (hsize.trans_lt hfuel)).bind fun _ S' hS' => ?_
  exact .ok ⟨rfl, hS'⟩

/-- One operation. -/
theorem Client.Step.completes {c : Command} {o : Output} (hstep : Client.Step cmpfcn C (c, o) C')
    (h : Implements hashFcn S C) (hfuel : C.map.entries.length < fuel) :
    Completes malloc (fun o' S' => o' = o ∧ Implements hashFcn S' C')
      (exec malloc hashFcn cmpfcn fuel c S) := by
  have hsize : C.map.elements.length < fuel := by rwa [OrderedMap.elements, List.length_map]
  cases hstep with
  | mallocElement ha =>
    obtain ⟨S', hrun, h'⟩ := h.run_mallocElement ha
    exact completes_map_of_ok hrun ⟨rfl, h'⟩
  | freeElement hlive ha =>
    obtain ⟨S', hrun, h'⟩ := h.run_freeElement hlive ha
    exact completes_map_of_ok hrun ⟨rfl, h'⟩
  | add ha hkey hlive hlen =>
    exact (h.completes_add ha hkey hlive hlen hsize).map fun _ S' hS' => ⟨rfl, hS'⟩
  | addInorder ha hkey hlive hlen =>
    exact (h.completes_addInorder ha hkey hlive hlen hsize).map fun _ S' hS' => ⟨rfl, hS'⟩
  | find key =>
    obtain ⟨r, hrun, -, hfound⟩ := run_hashFind h.represents hsize.le key
    exact completes_map_of_ok hrun ⟨congrArg _ (h.find hfound), h⟩
  | delete ha =>
    obtain ⟨S', hrun, h'⟩ := h.run_delete ha
    exact completes_map_of_ok hrun ⟨rfl, h'⟩
  | replace ha hlive hlen =>
    refine (h.completes_replace ha hlive hlen hsize).map fun r S' hS' => ?_
    exact ⟨congrArg _ hS'.1, hS'.2⟩
  | replaceInorder ha hlive hlen =>
    refine (h.completes_replaceInorder ha hlive hlen hsize).map fun r S' hS' => ?_
    exact ⟨congrArg _ hS'.1, hS'.2⟩
  | clear =>
    obtain ⟨S', hrun, h'⟩ := h.run_clear
    exact completes_map_of_ok hrun ⟨rfl, h'⟩
  | count => exact completes_map_of_ok h.run_count ⟨rfl, h⟩
  | iter keep =>
    obtain ⟨S', hrun, h'⟩ := h.run_iter keep hsize.le
    exact completes_map_of_ok hrun ⟨rfl, h'⟩
  | fsck => exact completes_map_of_ok (run_hashFsck h.represents hsize.le) ⟨rfl, h⟩

theorem Client.Step.size_le {l : Command × Output} (hstep : Client.Step cmpfcn C l C') :
    C'.map.entries.length ≤ C.map.entries.length + 1 := by
  cases hstep with
  | mallocElement => exact Nat.le_succ _
  | freeElement => exact Nat.le_succ _
  | add ha hkey => exact (OrderedMap.length_insertBefore ha hkey).le
  | addInorder ha hkey => exact (OrderedMap.length_insertBefore ha hkey).le
  | find => exact Nat.le_succ _
  | delete => exact (List.length_filter_le ..).trans (Nat.le_succ _)
  | replace => exact OrderedMap.length_replaceBefore_le ..
  | replaceInorder => exact OrderedMap.length_replaceBefore_le ..
  | clear => exact Nat.zero_le _
  | count => exact Nat.le_succ _
  | iter => exact (List.length_filter_le ..).trans (Nat.le_succ _)
  | fsck => exact Nat.le_succ _

/-- Any sequence of operations within the contract refines the map that keeps an order. -/
theorem completes_execAll {labels : List (Command × Output)} (h : Implements hashFcn S C)
    (hrun : Run (Client.Step cmpfcn) C labels C')
    (hfuel : C.map.entries.length + labels.length ≤ fuel) :
    Completes malloc (fun os S' => os = labels.map Prod.snd ∧ Implements hashFcn S' C')
      (execAll malloc hashFcn cmpfcn fuel (labels.map Prod.fst) S) := by
  induction hrun generalizing S with
  | nil C => exact completes_of_ok (pure_apply ..) ⟨rfl, h⟩
  | @cons C C₁ C' l ls hstep _ ih =>
    obtain ⟨c, o⟩ := l
    have hsize := hstep.size_le
    rw [List.length_cons] at hfuel
    rw [List.map_cons, List.map_cons, execAll]
    refine (hstep.completes h (by omega)).bind fun o' S₁ ⟨ho, h₁⟩ => ?_
    refine (ih h₁ (by omega)).bind fun os S' ⟨hos, h'⟩ => ?_
    exact .ok ⟨by rw [ho, hos], h'⟩

/-- No element is allocated, and the list is `NULL`. -/
def State.start (hh : Uintptr → UTHashHandle) (requests : Nat) : State where
  hh := hh
  live _ := false
  head := none
  tbl := none
  requests := requests

def Client.start : Client := ⟨fun _ => false, .empty⟩

theorem implements_start (hh : Uintptr → UTHashHandle) (requests : Nat) :
    Implements hashFcn (.start hh requests) .start :=
  ⟨represents_nil rfl, rfl, fun _ he => absurd he List.not_mem_nil⟩

def Client.Sorted (cmpfcn : Uintptr → Uintptr → Int) (C : Client) : Prop :=
  C.map.elements.Pairwise fun x y => cmpfcn x y ≤ 0

/-- The command does not add an element at the end. -/
def Command.Inorder : Command → Prop
  | .add _ _ => False
  | .replace _ _ => False
  | _ => True

/-- `cmpfcn` compares by a total preorder. -/
structure TotalPreorder (cmpfcn : Uintptr → Uintptr → Int) : Prop where
  total : ∀ x y, cmpfcn x y ≤ 0 ∨ cmpfcn y x ≤ 0
  trans : ∀ x y z, cmpfcn x y ≤ 0 → cmpfcn y z ≤ 0 → cmpfcn x z ≤ 0

theorem Client.Sorted.insertBefore (hcmp : TotalPreorder cmpfcn)
    {M : OrderedMap Uintptr (List Byte)} (ha : a ∉ M.elements) (hkey : key ∉ M.keys)
    (h : M.elements.Pairwise fun x y => cmpfcn x y ≤ 0) :
    (M.insertBefore (fun x => 0 < cmpfcn x a) a key ha hkey).elements.Pairwise
      fun x y => cmpfcn x y ≤ 0 := by
  refine OrderedMap.pairwise_insertBefore ha hkey hcmp.total hcmp.trans h fun x => ?_
  rw [← decide_not, decide_eq_decide, not_le]

theorem Client.Sorted.step {l : Command × Output} (hcmp : TotalPreorder cmpfcn)
    (h : Client.Sorted cmpfcn C) (hstep : Client.Step cmpfcn C l C') (hl : l.1.Inorder) :
    Client.Sorted cmpfcn C' := by
  have hfilter : ∀ p, (C.map.filter p).elements.Pairwise fun x y => cmpfcn x y ≤ 0 := fun p =>
    h.sublist (C.map.elements_filter_sublist p)
  cases hstep with
  | mallocElement => exact h
  | freeElement => exact h
  | add => exact absurd hl id
  | addInorder ha hkey => exact Client.Sorted.insertBefore hcmp ha hkey h
  | find => exact h
  | delete => exact hfilter _
  | replace => exact absurd hl id
  | @replaceInorder a key ha =>
    exact Client.Sorted.insertBefore hcmp (OrderedMap.not_mem_elements_eraseKey key ha)
      (C.map.not_mem_eraseKey key) (hfilter _)
  | clear => exact List.Pairwise.nil
  | count => exact h
  | iter => exact hfilter _
  | fsck => exact h

theorem Client.Sorted.outputs {labels : List (Command × Output)} (hcmp : TotalPreorder cmpfcn)
    (h : Client.Sorted cmpfcn C) (hrun : Run (Client.Step cmpfcn) C labels C')
    (hinorder : ∀ l ∈ labels, l.1.Inorder) {as : List Uintptr}
    (has : .elements as ∈ labels.map Prod.snd) : as.Pairwise fun x y => cmpfcn x y ≤ 0 := by
  induction hrun with
  | nil => exact absurd has List.not_mem_nil
  | @cons C C₁ C' l ls hstep _ ih =>
    obtain ⟨hl, hls⟩ := List.forall_mem_cons.mp hinorder
    rcases List.mem_cons.mp has with heq | has
    · cases hstep with
      | iter => exact (Output.elements.inj heq) ▸ h
      | _ => cases heq
    · exact ih (h.step hcmp hstep hl) hls has

def compareAddresses (x y : Uintptr) : Int := (x.toNat : Int) - y.toNat

end Runs

end Carmor.HashTable
