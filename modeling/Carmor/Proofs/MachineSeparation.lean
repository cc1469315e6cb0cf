import Carmor.Proofs.ConfinedRemoval

/-!
# Telling machine 1 from the others

`GetMachineComment` searches the comment for the two characters `@1`, so it takes every machine
whose number starts with the digit 1 for machine 1. Of a declaration for another machine the output
lacks the characters through the token that clang measures.
-/

namespace Carmor.CommentTool

open Lib.Traversal

/-! ## Searching the comment -/

theorem isSome_find {pattern text : Text} : (find pattern text).isSome = true ↔ pattern <:+: text := by
  induction text with
  | nil => simp [find]
  | cons c cs ih =>
    rw [find, List.infix_cons_iff, ← List.isPrefixOf_iff_prefix, ← ih]
    cases hprefix : pattern.isPrefixOf (c :: cs) <;> simp

/-- A character of comment markers and white space. -/
def isMarker (c : Char) : Bool := c ∈ ['/', '*', '!', '<', ' ', '\t', '\n', '\r']

/-- The comment consists of markers and spaces and the annotation `@m`. -/
def Annotates (m : Nat) (comment : Text) : Prop :=
  ∃ before after : Text, comment = before ++ '@' :: (Nat.toDigits 10 m ++ after) ∧
    before.all isMarker = true ∧ after.all isMarker = true

theorem at_notMem_of_all_isMarker {text : Text} (h : text.all isMarker = true) : '@' ∉ text := by
  intro hmem
  exact absurd (List.all_eq_true.mp h '@' hmem) (by decide)

theorem at_notMem_toDigits (m : Nat) : '@' ∉ Nat.toDigits 10 m := by
  intro hmem
  exact absurd (Nat.isDigit_of_mem_toDigits (by decide) (by decide) hmem) (by decide)

/-- `@1` occurs in the annotation exactly if the number starts with 1. -/
theorem getMachineComment_iff {m : Nat} {comment : Text} (h : Annotates m comment) :
    getMachineComment (some comment) machine1 = true ↔ (Nat.toDigits 10 m).head? = some '1' := by
  obtain ⟨before, after, rfl, hbefore, hafter⟩ := h
  have hrest : '@' ∉ Nat.toDigits 10 m ++ after := by
    rw [List.mem_append, not_or]
    exact ⟨at_notMem_toDigits m, at_notMem_of_all_isMarker hafter⟩
  rw [getMachineComment, isSome_find]
  cases hdigits : Nat.toDigits 10 m with
  | nil => exact absurd hdigits Nat.toDigits_ne_nil
  | cons digit digits =>
    rw [hdigits] at hrest
    rw [List.head?_cons, Option.some.injEq]
    constructor
    · rintro ⟨front, back, heq⟩
      -- the only `@` is the one of the annotation
      have hsplit : before ++ '@' :: (digit :: digits ++ after) = front ++ '@' :: ('1' :: back) := by
        simpa [machine1] using heq.symm
      obtain ⟨-, -, hnumber⟩ :=
        (List.append_cons_inj_of_notMem (at_notMem_of_all_isMarker hbefore) hrest).mp hsplit
      exact (List.cons.inj hnumber).1
    · rintro rfl
      exact ⟨before, digits ++ after, by simp [machine1]⟩

/-! ## The tool -/

namespace Node

/-- A function other than `main`, or a variable of `main`. -/
def isSubject : Node → Bool
  | function d => !d.isMain
  | var parent _ => parent.any FunctionDecl.isMain

def rawComment : Node → Option Text
  | function d => d.rawComment
  | var _ d => d.rawComment

/-- The call of `RemoveText` for the declaration. -/
def removeText : Node → RemoveText
  | function d => .function d
  | var _ d => .var d

theorem removal_eq_some {n : Node} {r : RemoveText} :
    n.removal = some r ↔ n.removeText = r ∧ getMachineComment n.rawComment machine1 = false ∧
      (∀ d, n = function d → d.isMain = false) ∧ n.aborts = false := by
  cases n with
  | function d =>
    cases hmain : d.isMain <;> cases hcomment : getMachineComment d.rawComment machine1 <;>
      simp [removal, removeText, rawComment, aborts, hmain, hcomment]
  | var parent d =>
    cases hparent : parent.any fun f => !f.isMain <;>
      cases hcomment : getMachineComment d.rawComment machine1 <;>
        simp [removal, removeText, rawComment, aborts, hparent, hcomment]

theorem rawComment_eq_of_removeText_eq {n n' : Node} (h : n'.removeText = n.removeText) :
    n'.rawComment = n.rawComment := by
  cases n <;> cases n' <;> simp_all [removeText, rawComment]

theorem isMain_eq_false_of_removeText_eq {n n' : Node} (h : n'.removeText = n.removeText)
    (hsubject : n.isSubject = true) : ∀ d, n' = function d → d.isMain = false := by
  rintro d rfl
  cases n with
  | function d' =>
    obtain rfl : d = d' := by simpa [removeText] using h
    simpa [isSubject] using hsubject
  | var parent d' => cases h

end Node

/-- The traversal comes to the declaration of `n`: before it, in its top-level declaration, no
visit returns false. -/
def Reached (unit : List (List Decl)) (n : Node) : Prop :=
  ∃ d ∈ unit.flatten, ∃ before n' after, nodesOfDecl none d = before ++ n' :: after ∧
    (∀ k ∈ before, k.aborts = false) ∧ n'.aborts = false ∧ n'.removeText = n.removeText

/-- What the tool removes of the functions other than `main` and the variables of `main`: the
declarations it reaches whose comment lacks `@1`. -/
theorem removeText_mem_run_iff {unit : List (List Decl)} {n : Node} (hsubject : n.isSubject = true) :
    n.removeText ∈ run unit ↔
      Reached unit n ∧ getMachineComment n.rawComment machine1 = false := by
  rw [run_eq]
  constructor
  · intro hmem
    obtain ⟨d, hd, hmem⟩ := List.mem_flatMap.mp hmem
    obtain ⟨n', hn', hremoval⟩ := List.mem_filterMap.mp hmem
    obtain ⟨before, after, hnodes, hbefore⟩ := mem_takeThrough_iff.mp hn'
    obtain ⟨htext, hcomment, -, hgo⟩ := Node.removal_eq_some.mp hremoval
    refine ⟨⟨d, hd, before, n', after, hnodes, hbefore, hgo, htext⟩, ?_⟩
    rw [← Node.rawComment_eq_of_removeText_eq htext]
    exact hcomment
  · rintro ⟨⟨d, hd, before, n', after, hnodes, hbefore, hgo, htext⟩, hcomment⟩
    refine List.mem_flatMap.mpr ⟨d, hd, List.mem_filterMap.mpr ⟨n', ?_, ?_⟩⟩
    · exact mem_takeThrough_iff.mpr ⟨before, after, hnodes, hbefore⟩
    · rw [← Node.rawComment_eq_of_removeText_eq htext] at hcomment
      exact Node.removal_eq_some.mpr
        ⟨htext, hcomment, Node.isMain_eq_false_of_removeText_eq htext hsubject, hgo⟩

/-- A declaration annotated `@m` is removed exactly if `m` is another machine than 1: this holds
for `m = 1`, and of the other numbers for those that do not start with the digit 1, if the tool
reaches the declaration. -/
theorem separated_iff {unit : List (List Decl)} {n : Node} {m : Nat} {comment : Text}
    (hsubject : n.isSubject = true) (hcomment : n.rawComment = some comment)
    (hm : Annotates m comment) :
    (n.removeText ∈ run unit ↔ m ≠ 1) ↔
      m = 1 ∨ (Nat.toDigits 10 m).head? ≠ some '1' ∧ Reached unit n := by
  rw [removeText_mem_run_iff hsubject, hcomment, ← Bool.not_eq_true, getMachineComment_iff hm]
  by_cases hone : m = 1
  · subst hone
    have hdigit : (Nat.toDigits 10 1).head? = some '1' := rfl
    simp [hdigit]
  · simp [hone, and_comm]

/-- `sub_one` of `split2.cc`, annotated for machine 2. -/
theorem separated_iff_subOne :
    ((Node.function ⟨⟨6, 44⟩, false, some "///@2".toList⟩).removeText ∈
        run [[.function ⟨⟨6, 44⟩, false, some "///@2".toList⟩ [.var ⟨⟨19, 23⟩, none⟩]]] ↔ 2 ≠ 1) ↔
      2 = 1 ∨ (Nat.toDigits 10 2).head? ≠ some '1' ∧
        Reached [[.function ⟨⟨6, 44⟩, false, some "///@2".toList⟩ [.var ⟨⟨19, 23⟩, none⟩]]]
          (.function ⟨⟨6, 44⟩, false, some "///@2".toList⟩) :=
  separated_iff rfl rfl ⟨"///".toList, [], rfl, rfl, rfl⟩

/-- A function annotated for machine 10 is kept. -/
theorem not_separated_machine10 :
    Annotates 10 "///@10".toList ∧
      (Node.function ⟨⟨7, 45⟩, false, some "///@10".toList⟩).removeText ∉
        run [[.function ⟨⟨7, 45⟩, false, some "///@10".toList⟩ []]] :=
  ⟨⟨"///".toList, [], rfl, rfl, rfl⟩, by decide⟩

/-! ## The text of the output -/

section Text

variable {unit : List (List Decl)} {n : Node} {m : Nat} {comment : Text}
  {measure : Text → Nat → Nat} {text : Text} {i : Nat}

/-- The character at `i` is not in the output. -/
def Deleted (measure : Text → Nat → Nat) (text : Text) (unit : List (List Decl)) (i : Nat) : Prop :=
  ∃ c ∈ run unit, c.Deletes measure text i

/-- The character at `i` is deleted for another declaration than that of `n`. -/
def DeletedBeside (n : Node) (measure : Text → Nat → Nat) (text : Text) (unit : List (List Decl))
    (i : Nat) : Prop :=
  ∃ c ∈ run unit, c ≠ n.removeText ∧ c.Deletes measure text i

theorem deleted_iff : Deleted measure text unit i ↔
    n.removeText ∈ run unit ∧ n.removeText.Deletes measure text i ∨
      DeletedBeside n measure text unit i := by
  constructor
  · rintro ⟨c, hc, hdeletes⟩
    by_cases hcall : c = n.removeText
    · subst hcall
      exact .inl ⟨hc, hdeletes⟩
    · exact .inr ⟨c, hc, hcall, hdeletes⟩
  · rintro (⟨hc, hdeletes⟩ | ⟨c, hc, -, hdeletes⟩)
    · exact ⟨_, hc, hdeletes⟩
    · exact ⟨c, hc, hdeletes⟩

/-- Of a declaration whose number starts with the digit 1 no character is deleted, unless for
another declaration; of another one that the tool reaches, all that one call of `RemoveText`
deletes. -/
theorem deleted_iff_of_annotates (hsubject : n.isSubject = true)
    (hcomment : n.rawComment = some comment) (hm : Annotates m comment) (hreached : Reached unit n) :
    Deleted measure text unit i ↔
      (Nat.toDigits 10 m).head? ≠ some '1' ∧ n.removeText.Deletes measure text i ∨
        DeletedBeside n measure text unit i := by
  rw [deleted_iff (n := n), removeText_mem_run_iff hsubject, hcomment, ← Bool.not_eq_true,
    getMachineComment_iff hm]
  simp [hreached]

/-- One call deletes the characters up to `stop` exactly if the token at the end of its range
reaches that far. -/
theorem RemoveText.deletes_through_iff (c : RemoveText) {stop : Nat} (hbegin : c.range.begin < stop)
    (hstop : stop ≤ text.length) :
    (∀ i, c.range.begin ≤ i → i < stop → c.Deletes measure text i) ↔
      stop ≤ c.range.finish + measure text c.range.finish := by
  constructor
  · intro h
    obtain ⟨-, hlast, -⟩ := h (stop - 1) (by omega) (by omega)
    omega
  · intro h i hi hlt
    exact ⟨hi, by omega, by omega⟩

/-- A variable for another machine whose characters belong to no other removal is deleted as a
whole exactly if its last token is at most as long as four characters and the token that clang
measures behind these. -/
theorem own_deleted_iff {parent : Option FunctionDecl} {d : VarDecl} (L : Layout text d)
    (hsubject : (Node.var parent d).isSubject = true) (hcomment : d.rawComment = some comment)
    (hm : Annotates m comment) (hone : (Nat.toDigits 10 m).head? ≠ some '1')
    (hreached : Reached unit (.var parent d))
    (hbeside : ∀ i, L.Own i → ¬ DeletedBeside (.var parent d) measure text unit i) :
    (∀ i, L.Own i → Deleted measure text unit i) ↔
      L.lastToken ≤ 4 + measure text (d.sourceRange.finish + 4) := by
  have hbegin := L.begin_le
  have hfinish := L.finish_lt
  have hthrough := @RemoveText.deletes_through_iff measure text (.var d) L.tokenEnd
    (hbegin.trans_lt hfinish) L.tokenEnd_le
  have hown : (∀ i, L.Own i → Deleted measure text unit i) ↔
      ∀ i, d.sourceRange.begin ≤ i → i < L.tokenEnd →
        (RemoveText.var d).Deletes measure text i := by
    refine forall_congr' fun i => ?_
    rw [Layout.Own, and_imp]
    refine imp_congr_right fun hi => imp_congr_right fun hlt => ?_
    rw [deleted_iff_of_annotates hsubject hcomment hm hreached]
    exact ⟨fun h => (h.resolve_right (hbeside i ⟨hi, hlt⟩)).2, fun h => .inl ⟨hone, h⟩⟩
  have hlast : L.tokenEnd ≤ d.sourceRange.finish + 4 + measure text (d.sourceRange.finish + 4) ↔
      L.lastToken ≤ 4 + measure text (d.sourceRange.finish + 4) := by
    rw [Layout.lastToken]
    omega
  exact hown.trans (hthrough.trans hlast)

end Text

end Carmor.CommentTool
