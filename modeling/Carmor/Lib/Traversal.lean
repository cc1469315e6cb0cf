import Mathlib.Data.List.Flatten

/-!
# Traversals that may be abandoned

A traversal that visits a list of items in order and ends after the first item that stops it. The
items it visits are `takeThrough stop xs`; what it produces from them, `filterMap f`, is complete
exactly if no item that would produce something comes after one that stops.
-/

namespace Lib.Traversal

variable {α β : Type*} {stop : α → Bool} {f : α → Option β} {xs ys : List α}

/-- The items up to and including the first one that stops. -/
def takeThrough (stop : α → Bool) : List α → List α
  | [] => []
  | x :: xs => if stop x then [x] else x :: takeThrough stop xs

theorem takeThrough_cons_of_stop {x : α} (h : stop x = true) (xs : List α) :
    takeThrough stop (x :: xs) = [x] := if_pos h

theorem takeThrough_cons_of_not_stop {x : α} (h : stop x = false) (xs : List α) :
    takeThrough stop (x :: xs) = x :: takeThrough stop xs := by
  simp [takeThrough, h]

theorem takeThrough_append_of_any (h : xs.any stop = true) (ys : List α) :
    takeThrough stop (xs ++ ys) = takeThrough stop xs := by
  induction xs with
  | nil => simp at h
  | cons x xs ih =>
    cases hx : stop x with
    | true => simp [takeThrough, hx]
    | false =>
      have hxs : xs.any stop = true := by simpa [hx] using h
      rw [List.cons_append, takeThrough_cons_of_not_stop hx, takeThrough_cons_of_not_stop hx, ih hxs]

theorem takeThrough_append_of_not_any (h : xs.any stop = false) (ys : List α) :
    takeThrough stop (xs ++ ys) = xs ++ takeThrough stop ys := by
  induction xs with
  | nil => rfl
  | cons x xs ih =>
    obtain ⟨hx, hxs⟩ := Bool.or_eq_false_iff.mp (List.any_cons.symm.trans h)
    rw [List.cons_append, takeThrough_cons_of_not_stop hx, ih hxs, List.cons_append]

theorem takeThrough_initial (stop : α → Bool) (xs : List α) : takeThrough stop xs <+: xs := by
  induction xs with
  | nil => exact List.prefix_rfl
  | cons x xs ih =>
    cases hx : stop x with
    | true =>
      rw [takeThrough_cons_of_stop hx]
      exact ⟨xs, rfl⟩
    | false =>
      rw [takeThrough_cons_of_not_stop hx]
      exact List.cons_prefix_cons.mpr ⟨rfl, ih⟩

/-- An item is visited if nothing before it stops. -/
theorem mem_takeThrough_iff {x : α} :
    x ∈ takeThrough stop xs ↔
      ∃ before after, xs = before ++ x :: after ∧ ∀ y ∈ before, stop y = false := by
  constructor
  · induction xs with
    | nil => simp [takeThrough]
    | cons y ys ih =>
      intro hmem
      cases hy : stop y with
      | true =>
        rw [takeThrough_cons_of_stop hy, List.mem_singleton] at hmem
        exact ⟨[], ys, by rw [hmem, List.nil_append], by simp⟩
      | false =>
        rw [takeThrough_cons_of_not_stop hy] at hmem
        rcases List.mem_cons.mp hmem with rfl | hmem
        · exact ⟨[], ys, rfl, by simp⟩
        · obtain ⟨before, after, rfl, hbefore⟩ := ih hmem
          exact ⟨y :: before, after, rfl, List.forall_mem_cons.mpr ⟨hy, hbefore⟩⟩
  · rintro ⟨before, after, rfl, hbefore⟩
    rw [takeThrough_append_of_not_any (by simpa using hbefore)]
    cases hx : stop x <;> simp [takeThrough, hx]

/-- The products of the visited items are all products exactly if nothing is produced behind a
stop. -/
theorem filterMap_takeThrough_eq_iff :
    (takeThrough stop xs).filterMap f = xs.filterMap f ↔
      xs.Pairwise fun a b => stop a = true → f b = none := by
  induction xs with
  | nil => simp [takeThrough]
  | cons x xs ih =>
    rw [List.pairwise_cons]
    cases hx : stop x with
    | true =>
      have hnone : xs.filterMap f = [] ↔ ∀ b ∈ xs, f b = none := List.filterMap_eq_nil_iff
      rw [takeThrough_cons_of_stop hx]
      constructor
      · intro h
        have hxs : ∀ b ∈ xs, f b = none := by
          rw [← hnone]
          cases hfx : f x <;> simpa [hfx, eq_comm] using h
        exact ⟨fun b hb _ => hxs b hb, List.pairwise_of_forall_mem_list fun a _ b hb _ => hxs b hb⟩
      · rintro ⟨h, -⟩
        have hxs : xs.filterMap f = [] := hnone.mpr fun b hb => h b hb rfl
        cases hfx : f x <;> simp [hfx, hxs]
    | false =>
      rw [takeThrough_cons_of_not_stop hx, ← ih]
      cases hfx : f x <;> simp [hfx]

/-- Parts that are each a part of their whole add up to the whole exactly if each is its
whole. -/
theorem flatMap_eq_iff_of_sublist {ι : Type*} {part whole : ι → List β} {is : List ι}
    (h : ∀ i ∈ is, (part i).Sublist (whole i)) :
    is.flatMap part = is.flatMap whole ↔ ∀ i ∈ is, part i = whole i := by
  induction is with
  | nil => simp
  | cons i is ih =>
    have hi := h i List.mem_cons_self
    have his : ∀ j ∈ is, (part j).Sublist (whole j) := fun j hj => h j (List.mem_cons_of_mem i hj)
    have hrest : (is.flatMap part).Sublist (is.flatMap whole) := List.Sublist.flatMap_right is his
    rw [List.forall_mem_cons, ← ih his, List.flatMap_cons, List.flatMap_cons]
    constructor
    · intro heq
      have hlength := congrArg List.length heq
      rw [List.length_append, List.length_append] at hlength
      have hle := hi.length_le
      have hle' := hrest.length_le
      exact ⟨hi.eq_of_length (by omega), hrest.eq_of_length (by omega)⟩
    · rintro ⟨hfirst, hothers⟩
      rw [hfirst, hothers]

end Lib.Traversal
