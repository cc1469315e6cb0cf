import Mathlib.Data.List.Nodup
import Mathlib.Logic.Function.Basic

/-!
# Doubly linked lists

Pointers `next` and `prev` that run through the elements of a list, and how a list changes when
one of them is redirected.
-/

namespace Lib

universe u

variable {α : Type u}

/-- From the first element of `xs`, `next` leads through `xs` to `n`; from the last element,
`prev` leads back to `p`. -/
def Linked (next prev : α → Option α) : Option α → List α → Option α → Prop
  | _, [], _ => True
  | p, x :: xs, n => prev x = p ∧ next x = xs.head?.or n ∧ Linked next prev (some x) xs n

namespace Linked

variable {next prev next' prev' : α → Option α} {p n : Option α} {x : α} {xs ys : List α}

@[simp] theorem nil : Linked next prev p [] n := trivial

@[simp] theorem cons_iff : Linked next prev p (x :: xs) n ↔
    prev x = p ∧ next x = xs.head?.or n ∧ Linked next prev (some x) xs n := Iff.rfl

theorem append_iff : Linked next prev p (xs ++ ys) n ↔
    Linked next prev p xs (ys.head?.or n) ∧ Linked next prev (xs.getLast?.or p) ys n := by
  induction xs generalizing p with
  | nil => simp
  | cons x xs ih =>
    have hlast : (x :: xs).getLast?.or p = xs.getLast?.or (some x) := by
      rw [List.getLast?_cons]
      cases xs.getLast? <;> rfl
    simp only [List.cons_append, cons_iff, ih, hlast, List.head?_append, Option.or_assoc, and_assoc]

/-- Only the pointers of the elements count. -/
theorem congr (h : Linked next prev p xs n) (hnext : ∀ x ∈ xs, next' x = next x)
    (hprev : ∀ x ∈ xs, prev' x = prev x) : Linked next' prev' p xs n := by
  induction xs generalizing p with
  | nil => trivial
  | cons x xs ih =>
    obtain ⟨hp, hn, hrest⟩ := h
    simp only [List.forall_mem_cons] at hnext hprev
    exact ⟨hprev.1.trans hp, hnext.1.trans hn, ih hrest hnext.2 hprev.2⟩

theorem next_eq (h : Linked next prev p (xs ++ x :: ys) n) : next x = ys.head?.or n :=
  (append_iff.mp h).2.2.1

theorem prev_eq (h : Linked next prev p (xs ++ x :: ys) n) : prev x = xs.getLast?.or p :=
  (append_iff.mp h).2.1

section Update

variable [DecidableEq α] {a : α} {q : Option α}

theorem update_next (h : Linked next prev p xs n) (ha : a ∉ xs) :
    Linked (Function.update next a q) prev p xs n := by
  refine h.congr (fun x hx => Function.update_of_ne ?_ _ _) fun _ _ => rfl
  rintro rfl
  exact ha hx

theorem update_prev (h : Linked next prev p xs n) (ha : a ∉ xs) :
    Linked next (Function.update prev a q) p xs n := by
  refine h.congr (fun _ _ => rfl) fun x hx => Function.update_of_ne ?_ _ _
  rintro rfl
  exact ha hx

end Update

end Linked

/-- The pointers `f` with the one at `x`, if there is an `x`, redirected to `v`. -/
def link [DecidableEq α] (f : α → Option α) (x v : Option α) : α → Option α :=
  match x with
  | some x => Function.update f x v
  | none => f

section Link

variable [DecidableEq α] {f : α → Option α} {a x : α} {o v : Option α}

@[simp] theorem link_none : link f none v = f := rfl

@[simp] theorem link_some : link f (some x) v = Function.update f x v := rfl

theorem link_of_not_mem (h : a ∉ o) : link f o v a = f a := by
  cases o with
  | none => rfl
  | some x => exact Function.update_of_ne (fun hax => h (congrArg some hax.symm)) _ _

theorem link_update {w : Option α} (h : a ∉ o) :
    link (Function.update f a w) o v = Function.update (link f o v) a w := by
  cases o with
  | none => rfl
  | some x => exact Function.update_comm (fun hax => h (congrArg some hax.symm)) _ _ _

end Link

namespace Linked

variable [DecidableEq α] {next prev : α → Option α} {p n q : Option α} {a : α} {xs ys : List α}

theorem link_next (h : Linked next prev p xs n) {o : Option α} (ho : ∀ x ∈ o, x ∉ xs) :
    Linked (link next o q) prev p xs n :=
  h.congr (fun x hx => link_of_not_mem fun hxo => ho x hxo hx) fun _ _ => rfl

theorem link_prev (h : Linked next prev p xs n) {o : Option α} (ho : ∀ x ∈ o, x ∉ xs) :
    Linked next (link prev o q) p xs n :=
  h.congr (fun _ _ => rfl) fun x hx => link_of_not_mem fun hxo => ho x hxo hx

/-- The last element is given another successor. -/
theorem link_last (h : Linked next prev p xs n) (hxs : xs.Nodup) :
    Linked (link next xs.getLast? q) prev p xs q := by
  rcases List.eq_nil_or_concat' xs with rfl | ⟨xs, x, rfl⟩
  · trivial
  · have hx : x ∉ xs := fun hmem => List.disjoint_of_nodup_append hxs hmem List.mem_cons_self
    obtain ⟨hfront, hlast⟩ := append_iff.mp h
    rw [List.getLast?_concat, link_some, append_iff]
    exact ⟨hfront.update_next hx, hlast.1, Function.update_self .., trivial⟩

/-- The first element is given another predecessor. -/
theorem link_first (h : Linked next prev p xs n) (hxs : xs.Nodup) :
    Linked next (link prev xs.head? q) q xs n := by
  cases xs with
  | nil => trivial
  | cons x xs =>
    exact ⟨Function.update_self .., h.2.1, h.2.2.update_prev (List.nodup_cons.mp hxs).1⟩

theorem insert (xs ys : List α) (h : Linked next prev p (xs ++ ys) n) (hnodup : (xs ++ ys).Nodup)
    (ha : a ∉ xs ++ ys) :
    Linked (Function.update (link next xs.getLast? (some a)) a (ys.head?.or n))
      (Function.update (link prev ys.head? (some a)) a (xs.getLast?.or p)) p (xs ++ a :: ys) n := by
  obtain ⟨hxs, hys⟩ := append_iff.mp h
  obtain ⟨hndx, hndy, hdisj⟩ := List.nodup_append'.mp hnodup
  obtain ⟨hax, hay⟩ := not_or.mp (mt List.mem_append.mpr ha)
  refine append_iff.mpr ⟨?_, Function.update_self .., Function.update_self .., ?_⟩
  · refine (Linked.link_prev ?_ ?_).update_next hax |>.update_prev hax
    · exact hxs.link_last hndx
    · exact fun y hy hyx => hdisj hyx (List.mem_of_mem_head? hy)
  · refine (Linked.link_next ?_ ?_).update_next hay |>.update_prev hay
    · exact hys.link_first hndy
    · exact fun x hx hxy => hdisj (List.mem_of_mem_getLast? hx) hxy

theorem remove (h : Linked next prev p (xs ++ a :: ys) n) (hnodup : (xs ++ a :: ys).Nodup) :
    Linked (link next xs.getLast? (ys.head?.or n)) (link prev ys.head? (xs.getLast?.or p)) p
      (xs ++ ys) n := by
  obtain ⟨hxs, -, -, hys⟩ := append_iff.mp h
  obtain ⟨hndx, hndy, hdisj⟩ := List.nodup_append'.mp hnodup
  have hdisj' : ∀ x ∈ xs, x ∉ ys := fun x hx hy => hdisj hx (List.mem_cons_of_mem a hy)
  refine append_iff.mpr ⟨?_, ?_⟩
  · refine (hxs.link_last hndx).link_prev ?_
    exact fun y hy hyx => hdisj' y hyx (List.mem_of_mem_head? hy)
  · refine (hys.link_first (List.nodup_cons.mp hndy).2).link_next ?_
    exact fun x hx hxy => hdisj' x (List.mem_of_mem_getLast? hx) hxy

end Linked

end Lib
