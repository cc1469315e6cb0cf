import Mathlib.Data.List.TakeWhile
import Mathlib.Data.List.Nodup

/-!
# Maps that keep an order

Elements under distinct keys, in an order: a new element comes last, or in front of the first one
that a test selects.
-/

namespace Lib

universe u v

structure OrderedMap (α : Type u) (κ : Type v) where
  entries : List (α × κ)
  nodup_elements : (entries.map Prod.fst).Nodup
  nodup_keys : (entries.map Prod.snd).Nodup

namespace OrderedMap

variable {α : Type u} {κ : Type v} (M : OrderedMap α κ)

def elements : List α := M.entries.map Prod.fst

def keys : List κ := M.entries.map Prod.snd

def empty : OrderedMap α κ := ⟨[], List.nodup_nil, List.nodup_nil⟩

@[simp]
theorem elements_empty : (empty : OrderedMap α κ).elements = [] := rfl

@[simp]
theorem keys_empty : (empty : OrderedMap α κ).keys = [] := rfl

/-- The entries that satisfy `p`. -/
def filter (p : α × κ → Bool) : OrderedMap α κ where
  entries := M.entries.filter p
  nodup_elements := M.nodup_elements.sublist (List.filter_sublist.map Prod.fst)
  nodup_keys := M.nodup_keys.sublist (List.filter_sublist.map Prod.snd)

/-- A new entry in front of the first one with an element that satisfies `p`. -/
def insertBefore (p : α → Bool) (a : α) (key : κ) (ha : a ∉ M.elements) (hkey : key ∉ M.keys) :
    OrderedMap α κ where
  entries := M.entries.takeWhile (fun e => !p e.1) ++
    (a, key) :: M.entries.dropWhile fun e => !p e.1
  nodup_elements := by
    rw [List.map_append, List.map_cons, List.nodup_middle, ← List.map_append,
      List.takeWhile_append_dropWhile]
    exact List.nodup_cons.mpr ⟨ha, M.nodup_elements⟩
  nodup_keys := by
    rw [List.map_append, List.map_cons, List.nodup_middle, ← List.map_append,
      List.takeWhile_append_dropWhile]
    exact List.nodup_cons.mpr ⟨hkey, M.nodup_keys⟩

/-- A new entry at the end. -/
def add (a : α) (key : κ) (ha : a ∉ M.elements) (hkey : key ∉ M.keys) : OrderedMap α κ :=
  M.insertBefore (fun _ => false) a key ha hkey

section Insert

variable {M} {a : α} {key : κ} {p : α → Bool} (ha : a ∉ M.elements) (hkey : key ∉ M.keys)

theorem mem_insertBefore {e : α × κ} :
    e ∈ (M.insertBefore p a key ha hkey).entries ↔ e = (a, key) ∨ e ∈ M.entries := by
  rw [insertBefore, List.perm_middle.mem_iff, List.takeWhile_append_dropWhile, List.mem_cons]

@[simp]
theorem mem_elements_insertBefore {x : α} :
    x ∈ (M.insertBefore p a key ha hkey).elements ↔ x = a ∨ x ∈ M.elements := by
  simp only [elements, List.mem_map, mem_insertBefore, or_and_right, exists_or, exists_eq_left,
    eq_comm]

@[simp]
theorem mem_keys_insertBefore {k : κ} :
    k ∈ (M.insertBefore p a key ha hkey).keys ↔ k = key ∨ k ∈ M.keys := by
  simp only [keys, List.mem_map, mem_insertBefore, or_and_right, exists_or, exists_eq_left,
    eq_comm]

theorem length_insertBefore :
    (M.insertBefore p a key ha hkey).entries.length = M.entries.length + 1 := by
  rw [insertBefore, List.perm_middle.length_eq, List.takeWhile_append_dropWhile, List.length_cons]

theorem elements_insertBefore : (M.insertBefore p a key ha hkey).elements =
    M.elements.takeWhile (fun x => !p x) ++ a :: M.elements.dropWhile fun x => !p x := by
  simp only [elements, insertBefore, List.map_append, List.map_cons, List.takeWhile_map,
    List.dropWhile_map]
  rfl

/-- An insertion in front of the first greater element keeps a list sorted. -/
theorem pairwise_insertBefore {r : α → α → Prop} [DecidableRel r] (htotal : ∀ x y, r x y ∨ r y x)
    (htrans : ∀ x y z, r x y → r y z → r x z) (hM : M.elements.Pairwise r)
    (hp : ∀ x, p x = !decide (r x a)) : (M.insertBefore p a key ha hkey).elements.Pairwise r := by
  have hsplit := List.takeWhile_append_dropWhile (p := fun x => !p x) (l := M.elements)
  rw [← hsplit, List.pairwise_append] at hM
  obtain ⟨hfront, hback, hcross⟩ := hM
  have hbefore : ∀ x ∈ M.elements.takeWhile (fun x => !p x), r x a := by
    intro x hx
    simpa [hp] using List.mem_takeWhile_imp hx
  have hbehind : ∀ x ∈ M.elements.dropWhile (fun x => !p x), r a x := by
    intro x hx
    cases hdrop : M.elements.dropWhile (fun x => !p x) with
    | nil =>
      rw [hdrop] at hx
      exact absurd hx List.not_mem_nil
    | cons y ys =>
      rw [hdrop] at hx hback
      have hy : r a y := by
        have hhead := List.head?_dropWhile_not (fun x => !p x) M.elements
        rw [hdrop] at hhead
        have hfirst : (!p y) = false := hhead
        exact (htotal a y).resolve_right (by simpa [hp] using hfirst)
      rcases List.mem_cons.mp hx with rfl | hx
      · exact hy
      · exact htrans _ _ _ hy (List.rel_of_pairwise_cons hback hx)
  rw [elements_insertBefore, List.pairwise_append, List.pairwise_cons]
  refine ⟨hfront, ⟨hbehind, hback⟩, fun x hx y hy => ?_⟩
  rcases List.mem_cons.mp hy with rfl | hy
  · exact hbefore x hx
  · exact hcross x hx y hy

theorem elements_add : (M.add a key ha hkey).elements = M.elements ++ [a] := by
  have hall : ∀ x ∈ M.elements, (!false) = true := fun _ _ => rfl
  rw [add, elements_insertBefore, List.takeWhile_eq_self_iff.mpr hall,
    List.dropWhile_eq_nil_iff.mpr hall]

end Insert

theorem elements_filter_sublist (p : α × κ → Bool) : (M.filter p).elements.Sublist M.elements :=
  List.filter_sublist.map Prod.fst

theorem mem_elements_filter {p : α × κ → Bool} {a : α} (h : a ∈ (M.filter p).elements) :
    a ∈ M.elements :=
  (M.elements_filter_sublist p).subset h

/-- The entries without those of the element `a`. -/
def erase [DecidableEq α] (a : α) : OrderedMap α κ := M.filter fun e => e.1 ≠ a

theorem elements_erase_of_split [DecidableEq α] {a : α} {as bs : List α}
    (h : M.elements = as ++ a :: bs) : (M.erase a).elements = as ++ bs := by
  have hnodup : (as ++ a :: bs).Nodup := h ▸ M.nodup_elements
  have hnot : a ∉ as ++ bs := (List.nodup_cons.mp (List.nodup_middle.mp hnodup)).1
  obtain ⟨has, hbs⟩ := not_or.mp (mt List.mem_append.mpr hnot)
  have helements : (M.erase a).elements = M.elements.filter fun x => x ≠ a := by
    rw [elements, elements, List.filter_map]
    rfl
  rw [helements, h, List.filter_append, List.filter_cons_of_neg (by simp),
    List.filter_eq_self.mpr fun x hx => decide_eq_true (ne_of_mem_of_not_mem hx has),
    List.filter_eq_self.mpr fun x hx => decide_eq_true (ne_of_mem_of_not_mem hx hbs)]

section Find

variable [DecidableEq κ] {M} {a : α} {key : κ}

def eraseKey (M : OrderedMap α κ) (key : κ) : OrderedMap α κ := M.filter fun e => e.2 ≠ key

theorem not_mem_eraseKey (M : OrderedMap α κ) (key : κ) : key ∉ (M.eraseKey key).keys := by
  simp [eraseKey, keys, filter]

theorem not_mem_elements_eraseKey (key : κ) (ha : a ∉ M.elements) :
    a ∉ (M.eraseKey key).elements :=
  mt M.mem_elements_filter ha

/-- A new entry, and none of the old ones under the same key. -/
def replaceBefore (M : OrderedMap α κ) (p : α → Bool) (a : α) (key : κ) (ha : a ∉ M.elements) :
    OrderedMap α κ :=
  (M.eraseKey key).insertBefore p a key (not_mem_elements_eraseKey key ha) (M.not_mem_eraseKey key)

theorem length_replaceBefore_le (M : OrderedMap α κ) (p : α → Bool) (a : α) (key : κ)
    (ha : a ∉ M.elements) : (M.replaceBefore p a key ha).entries.length ≤ M.entries.length + 1 :=
  (length_insertBefore _ _).le.trans (Nat.succ_le_succ (List.length_filter_le ..))

def replace (M : OrderedMap α κ) (a : α) (key : κ) (ha : a ∉ M.elements) : OrderedMap α κ :=
  M.replaceBefore (fun _ => false) a key ha

/-- The element under a key. -/
def find? (M : OrderedMap α κ) (key : κ) : Option α :=
  (M.entries.find? fun e => e.2 = key).map Prod.fst

theorem find?_of_not_mem (h : key ∉ M.keys) : M.find? key = none := by
  have hnone : (M.entries.find? fun e => e.2 = key) = none :=
    List.find?_eq_none.mpr fun e he hkey =>
      h (List.mem_map.mpr ⟨e, he, of_decide_eq_true hkey⟩)
  rw [find?, hnone]
  rfl

theorem find?_of_mem (h : (a, key) ∈ M.entries) : M.find? key = some a := by
  cases hfind : M.entries.find? fun e => e.2 = key with
  | none => exact absurd (decide_eq_true rfl) (List.find?_eq_none.mp hfind _ h)
  | some e =>
    have hkey : e.2 = key := by simpa using List.find?_some hfind
    have he : e = (a, key) :=
      List.inj_on_of_nodup_map M.nodup_keys (List.mem_of_find?_eq_some hfind) h hkey
    rw [find?, hfind, he]
    rfl

theorem eraseKey_of_not_mem (h : key ∉ M.keys) : M.eraseKey key = M := by
  have hself : M.entries.filter (fun e => e.2 ≠ key) = M.entries :=
    List.filter_eq_self.mpr fun e he =>
      decide_eq_true (ne_of_mem_of_not_mem (List.mem_map_of_mem he) h)
  simp only [eraseKey, filter, hself]

theorem eraseKey_of_mem [DecidableEq α] (h : (a, key) ∈ M.entries) :
    M.eraseKey key = M.erase a := by
  have hsame : M.entries.filter (fun e => e.2 ≠ key) = M.entries.filter fun e => e.1 ≠ a := by
    refine List.filter_congr fun e he => ?_
    have hiff : e.2 = key ↔ e.1 = a := by
      constructor
      · intro hkey
        rw [List.inj_on_of_nodup_map M.nodup_keys he h hkey]
      · intro ha
        rw [List.inj_on_of_nodup_map M.nodup_elements he h ha]
    simp only [ne_eq, hiff]
  simp only [eraseKey, erase, filter, hsame]

end Find

end OrderedMap

end Lib
