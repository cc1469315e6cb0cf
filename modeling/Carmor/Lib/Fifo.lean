import Mathlib.Data.List.Basic

/-!
# FIFO caches

A FIFO cache of fixed size as the list of its keys, the latest insertion first. A hit leaves
the list alone, a miss puts the key in front and drops the last key. A key `empty` may fill
unused places any number of times; the other keys stay distinct.
-/

namespace Lib.Fifo

variable {α : Type*}

/-- The keys after an access to `a`. -/
def touch [DecidableEq α] (xs : List α) (a : α) : List α :=
  if a ∈ xs then xs else a :: xs.dropLast

/-- Keys other than `empty` occur once. -/
def Distinct (empty : α) (xs : List α) : Prop := xs.Pairwise fun a b => a = empty ∨ a ≠ b

section Distinct

variable {empty a : α} {xs : List α}

theorem distinct_replicate (empty : α) (n : Nat) : Distinct empty (List.replicate n empty) :=
  List.pairwise_replicate.mpr (Or.inr (Or.inl rfl))

theorem Distinct.cons_dropLast (h : Distinct empty xs) (ha : a ∉ xs) :
    Distinct empty (a :: xs.dropLast) := by
  refine List.pairwise_cons.mpr ⟨?_, h.sublist (List.dropLast_sublist xs)⟩
  rintro b hb
  exact Or.inr fun heq => ha (heq ▸ (List.dropLast_sublist xs).mem hb)

/-- The key that a miss drops does not remain in the cache. -/
theorem Distinct.getLast_notMem_dropLast (h : Distinct empty xs) (hne : xs ≠ [])
    (hlast : xs.getLast hne ≠ empty) : xs.getLast hne ∉ xs.dropLast := by
  intro hmem
  rw [Distinct, ← List.dropLast_append_getLast hne, List.pairwise_append] at h
  rcases h.2.2 _ hmem _ (List.mem_singleton_self _) with hempty | hne'
  · exact hlast hempty
  · exact hne' rfl

end Distinct

theorem mem_dropLast_or_eq_getLast {a : α} {xs : List α} (hne : xs ≠ []) (ha : a ∈ xs) :
    a ∈ xs.dropLast ∨ a = xs.getLast hne := by
  rw [← List.dropLast_append_getLast hne, List.mem_append, List.mem_singleton] at ha
  exact ha

/-- What a miss on `a` does to the membership of a key `b`, counted. -/
theorem Distinct.indicator_cons_dropLast [DecidableEq α] {empty a b : α} {xs : List α}
    (h : Distinct empty xs) (hne : xs ≠ []) (ha : a ∉ xs) (hb : b ≠ empty) :
    (if b ∈ a :: xs.dropLast then 1 else 0 : Int) =
      (if b = a then 1 else 0) + (if b ∈ xs then 1 else 0) -
        if b = xs.getLast hne then 1 else 0 := by
  have hsub : b ∈ xs.dropLast → b ∈ xs := (List.dropLast_sublist xs).mem
  by_cases hba : b = a
  · subst hba
    have hlast : b ≠ xs.getLast hne := fun heq => ha (heq ▸ List.getLast_mem hne)
    simp [ha, hlast]
  · by_cases hlast : b = xs.getLast hne
    · have hmem : b ∈ xs := hlast ▸ List.getLast_mem hne
      have hnot : b ∉ xs.dropLast := hlast ▸ h.getLast_notMem_dropLast hne (hlast ▸ hb)
      simp [hba, hnot, hmem, ← hlast]
    · have hiff : b ∈ xs.dropLast ↔ b ∈ xs :=
        ⟨hsub, fun hmem => (mem_dropLast_or_eq_getLast hne hmem).resolve_right hlast⟩
      simp [hba, hlast, hiff]

section Touch

variable [DecidableEq α] {a b : α} {xs : List α}

theorem touch_of_mem (h : a ∈ xs) : touch xs a = xs := if_pos h

theorem touch_of_notMem (h : a ∉ xs) : touch xs a = a :: xs.dropLast := if_neg h

theorem mem_of_mem_touch (h : b ∈ touch xs a) : b = a ∨ b ∈ xs := by
  by_cases ha : a ∈ xs
  · rw [touch_of_mem ha] at h
    exact Or.inr h
  · rw [touch_of_notMem ha] at h
    exact (List.mem_cons.mp h).imp_right (List.dropLast_sublist xs).mem

/-- An access keeps every key but the last. -/
theorem mem_touch_of_mem_dropLast (a : α) (h : b ∈ xs.dropLast) : b ∈ touch xs a := by
  by_cases ha : a ∈ xs
  · rw [touch_of_mem ha]
    exact (List.dropLast_sublist xs).mem h
  · rw [touch_of_notMem ha]
    exact List.mem_cons_of_mem a h

end Touch

/-! ## What accesses leave with a key

A cache whose keys carry what was noted at their accesses since their insertion, the latest
first. -/

section Notes

variable {β : Type*} [DecidableEq α] {a : α} {c : List (α × List β)}

/-- The cache after an access to `a` that notes `x`. -/
def note (c : List (α × List β)) (a : α) (x : β) : List (α × List β) :=
  if a ∈ c.map Prod.fst then c.map fun e => if e.1 = a then (e.1, x :: e.2) else e
  else (a, [x]) :: c.dropLast

/-- The key that an access to `a` drops, with its notes. -/
def dropped (c : List (α × List β)) (a : α) : Option (α × List β) :=
  if a ∈ c.map Prod.fst then none else c.getLast?

/-- The keys that a sequence of accesses drops, in their order. -/
def allDropped : List (α × List β) → List (α × β) → List (α × List β)
  | _, [] => []
  | c, (a, x) :: as => (dropped c a).toList ++ allDropped (note c a x) as

/-- Without the notes `note` is `touch`. -/
theorem map_fst_note (c : List (α × List β)) (a : α) (x : β) :
    (note c a x).map Prod.fst = touch (c.map Prod.fst) a := by
  by_cases ha : a ∈ c.map Prod.fst
  · rw [touch_of_mem ha, note, if_pos ha, List.map_map]
    apply List.map_congr_left
    intro e _
    simp only [Function.comp]
    split <;> rfl
  · rw [touch_of_notMem ha, note, if_neg ha, List.map_cons, List.map_dropLast]

end Notes

/-! ## Caches with owners

A cache that several owners share and that is looked up by the keys alone: the entry that serves an
access may be that of another owner. -/

section Owners

variable {ω : Type*} [DecidableEq α] {c : List (ω × α)} {d e : ω × α}

/-- The entry that serves an access: the first one with its key, or the one that is put in. -/
def found (c : List (ω × α)) (e : ω × α) : ω × α := (c.find? fun d => d.2 = e.2).getD e

/-- The cache after an access. -/
def touchOwned (c : List (ω × α)) (e : ω × α) : List (ω × α) :=
  if e.2 ∈ c.map Prod.snd then c else e :: c.dropLast

theorem touchOwned_of_mem (h : e.2 ∈ c.map Prod.snd) : touchOwned c e = c := if_pos h

theorem touchOwned_of_notMem (h : e.2 ∉ c.map Prod.snd) : touchOwned c e = e :: c.dropLast :=
  if_neg h

/-- Without the owners `touchOwned` is `touch`. -/
theorem map_snd_touchOwned (c : List (ω × α)) (e : ω × α) :
    (touchOwned c e).map Prod.snd = touch (c.map Prod.snd) e.2 := by
  by_cases h : e.2 ∈ c.map Prod.snd
  · rw [touchOwned_of_mem h, touch_of_mem h]
  · rw [touchOwned_of_notMem h, touch_of_notMem h, List.map_cons, List.map_dropLast]

theorem found_of_find? (h : (c.find? fun d => d.2 = e.2) = some d) : found c e = d := by
  rw [found, h]
  rfl

/-- A key that is present is found in the cache. -/
theorem exists_find? (h : e.2 ∈ c.map Prod.snd) : ∃ d ∈ c, (c.find? fun d => d.2 = e.2) = some d := by
  obtain ⟨d, hd, hkey⟩ := List.mem_map.mp h
  have hsome : (c.find? fun d => d.2 = e.2).isSome = true :=
    List.find?_isSome.mpr ⟨d, hd, decide_eq_true hkey⟩
  obtain ⟨d', hd'⟩ := Option.isSome_iff_exists.mp hsome
  exact ⟨d', List.mem_of_find?_eq_some hd', hd'⟩

/-- The entry that serves an access has its key. -/
theorem found_snd (c : List (ω × α)) (e : ω × α) : (found c e).2 = e.2 := by
  unfold found
  cases hfind : c.find? fun d => d.2 = e.2 with
  | none => rfl
  | some d =>
    have hkey := List.find?_some hfind
    exact of_decide_eq_true hkey

theorem found_mem (h : e.2 ∈ c.map Prod.snd) : found c e ∈ c := by
  obtain ⟨d, hd, hfind⟩ := exists_find? h
  rwa [found_of_find? hfind]

theorem found_of_notMem (h : e.2 ∉ c.map Prod.snd) : found c e = e := by
  have hnone : (c.find? fun d => d.2 = e.2) = none := by
    refine List.find?_eq_none.mpr fun d hd hkey => h ?_
    exact List.mem_map.mpr ⟨d, hd, of_decide_eq_true hkey⟩
  rw [found, hnone]
  rfl

/-- The first entry of a key that all entries but the last have is one of these. -/
theorem found_mem_dropLast (h : e.2 ∈ (c.map Prod.snd).dropLast) : found c e ∈ c.dropLast := by
  have hne : c ≠ [] := by
    rintro rfl
    simp at h
  rw [← List.map_dropLast] at h
  obtain ⟨d, hd, hfind⟩ := exists_find? h
  have hall : (c.find? fun d => d.2 = e.2) = some d := by
    rw [← List.dropLast_append_getLast hne, List.find?_append, hfind]
    rfl
  rwa [found_of_find? hall]

theorem mem_touchOwned_self (h : found c e = e) : e ∈ touchOwned c e := by
  by_cases hkey : e.2 ∈ c.map Prod.snd
  · rw [touchOwned_of_mem hkey]
    exact h ▸ found_mem hkey
  · rw [touchOwned_of_notMem hkey]
    exact List.mem_cons_self

theorem mem_of_mem_touchOwned (h : d ∈ touchOwned c e) : d = e ∨ d ∈ c := by
  by_cases hkey : e.2 ∈ c.map Prod.snd
  · rw [touchOwned_of_mem hkey] at h
    exact Or.inr h
  · rw [touchOwned_of_notMem hkey] at h
    exact (List.mem_cons.mp h).imp_right (List.dropLast_sublist c).mem

theorem length_touchOwned (h : c ≠ []) (e : ω × α) : (touchOwned c e).length = c.length := by
  by_cases hkey : e.2 ∈ c.map Prod.snd
  · rw [touchOwned_of_mem hkey]
  · rw [touchOwned_of_notMem hkey, List.length_cons, List.length_dropLast]
    exact Nat.sub_add_cancel (List.length_pos_iff.mpr h)

/-- After accesses to `d` and `e`, the first of which finds no entry of another owner, `d` is gone
only if its key was the last one and that of `e` was missing. -/
theorem of_notMem_touchOwned_touchOwned (hlength : 2 ≤ c.length) (hown : found c d = d)
    (h : d ∉ touchOwned (touchOwned c d) e) :
    (d.2 ∈ c.map Prod.snd ∧ d.2 ∉ (c.map Prod.snd).dropLast) ∧ e.2 ∉ c.map Prod.snd := by
  by_cases hkey : d.2 ∈ c.map Prod.snd
  · rw [touchOwned_of_mem hkey] at h
    have hd : d ∈ c := hown ▸ found_mem hkey
    have hmiss : e.2 ∉ c.map Prod.snd := fun he => h (by rwa [touchOwned_of_mem he])
    rw [touchOwned_of_notMem hmiss, List.mem_cons, not_or] at h
    exact ⟨⟨hkey, fun hdrop => h.2 (hown ▸ found_mem_dropLast hdrop)⟩, hmiss⟩
  · have hne : c.dropLast ≠ [] := by
      apply List.ne_nil_of_length_pos
      rw [List.length_dropLast]
      omega
    rw [touchOwned_of_notMem hkey] at h
    refine absurd ?_ h
    by_cases he : e.2 ∈ (d :: c.dropLast).map Prod.snd
    · rw [touchOwned_of_mem he]
      exact List.mem_cons_self
    · rw [touchOwned_of_notMem he, List.dropLast_cons_of_ne_nil hne]
      exact List.mem_cons_of_mem _ List.mem_cons_self

end Owners

end Lib.Fifo
