import Carmor.Lib.SourceText
import Carmor.Proofs.PartitionCompleteness

/-!
# What the removal of a variable deletes

`VisitVarDecl` ends the range for `RemoveText` four characters behind the start of the
declaration's last token, and `RemoveText` deletes through the token that clang measures there. The
four characters fit a last token of one character with a semicolon, a blank and a comment behind
it. What clang measures is a parameter: `measure text i` is `Lexer::MeasureTokenLength` at `i`.
-/

namespace Carmor.CommentTool

open Lib.SourceText

/-! ## Declarations in their text -/

/-- What a declaration shares its text with. -/
inductive Place (d : VarDecl) where
  /-- It is the only one of its statement. -/
  | statement
  /-- It has the specifiers, and the declarators before it, in common with others: what they
  share ends at `sharedEnd`. -/
  | group (sharedEnd : Nat) (begin_lt : d.sourceRange.begin < sharedEnd)
  /-- It stands in the parameter list of `main`. -/
  | parameter

/-- Where a declaration stands in its source text. -/
structure Layout (text : Text) (d : VarDecl) where
  place : Place d
  /-- The position behind its last token. -/
  tokenEnd : Nat
  begin_le : d.sourceRange.begin ≤ d.sourceRange.finish
  finish_lt : d.sourceRange.finish < tokenEnd
  tokenEnd_le : tokenEnd ≤ text.length

namespace Layout

variable {text : Text} {d : VarDecl} (L : Layout text d)

/-- The position is in the declaration. -/
def Own (i : Nat) : Prop := d.sourceRange.begin ≤ i ∧ i < L.tokenEnd

/-- The position is in other declarations too, or in the parameter list of `main`. -/
def Shared (i : Nat) : Prop :=
  match L.place with
  | .statement => False
  | .group sharedEnd _ => d.sourceRange.begin ≤ i ∧ i < sharedEnd
  | .parameter => L.Own i

/-- The characters behind the declaration with their marks. -/
def behind : List (Char × Mark) := marks .code (text.drop L.tokenEnd)

/-- The position is in the terminating semicolon, or in white space or comment before it or behind
it on the rest of the line. -/
def Tail (i : Nat) : Prop := L.tokenEnd ≤ i ∧ InTail L.behind (i - L.tokenEnd)

/-- Only characters of the declaration alone and of its tail are deleted. -/
def Confined (deleted : Nat → Prop) : Prop :=
  ∀ i, deleted i → (L.Own i ∨ L.Tail i) ∧ ¬ L.Shared i

/-- The length of the last token. -/
def lastToken : Nat := L.tokenEnd - d.sourceRange.finish

end Layout

/-! ## Deleted characters -/

/-- `RemoveText` deletes from the begin of its range through the token at the end of it. -/
def RemoveText.Deletes (measure : Text → Nat → Nat) (text : Text) (c : RemoveText) (i : Nat) :
    Prop :=
  c.range.begin ≤ i ∧ i < c.range.finish + measure text c.range.finish ∧ i < text.length

/-- A call of `RemoveText` that `VisitVarDecl` adds deletes the character at `i`. -/
def VisitDeletes (measure : Text → Nat → Nat) (text : Text) (parent : Option FunctionDecl)
    (d : VarDecl) (R : Rewriter) (i : Nat) : Prop :=
  ∃ added, (visitVarDecl parent d R).2 = R ++ added ∧ ∃ c ∈ added, c.Deletes measure text i

section Visit

variable {text : Text} {parent : Option FunctionDecl} {d : VarDecl}
  (hparent : ∀ f, parent = some f → f.isMain = true)
  (hcomment : getMachineComment d.rawComment machine1 = false) (R : Rewriter)
include hparent hcomment

/-- A variable at file scope or of `main` without the annotation is removed. -/
theorem visitVarDecl_removes : (visitVarDecl parent d R).2 = R ++ [.var d] := by
  have hmain : (parent.any fun f => !f.isMain) = false := by
    cases parent with
    | none => rfl
    | some f => simp [hparent f rfl]
  rw [visitVarDecl_eq]
  simp [Node.removal, hmain, hcomment]

theorem visitDeletes_iff (measure : Text → Nat → Nat) (i : Nat) :
    VisitDeletes measure text parent d R i ↔ d.sourceRange.begin ≤ i ∧
      i < d.sourceRange.finish + 4 + measure text (d.sourceRange.finish + 4) ∧ i < text.length := by
  rw [VisitDeletes, visitVarDecl_removes hparent hcomment]
  constructor
  · rintro ⟨added, hadded, c, hc, hdeletes⟩
    obtain rfl := List.append_cancel_left hadded
    obtain rfl := List.mem_singleton.mp hc
    exact hdeletes
  · intro hdeletes
    exact ⟨_, rfl, _, List.mem_singleton_self _, hdeletes⟩

end Visit

/-! ## When the removal is confined -/

namespace Layout

variable {text : Text} {d : VarDecl} (L : Layout text d)

theorem length_behind : L.behind.length = text.length - L.tokenEnd := by
  rw [behind, marks_length, List.length_drop]

theorem tail_iff {i : Nat} (h : L.tokenEnd ≤ i) :
    L.Tail i ↔ i < L.tokenEnd + tailLength L.behind := by
  rw [Tail, ← lt_tailLength_iff]
  omega

/-- A deletion of the declaration's first characters is not confined if these are shared. -/
theorem statement_of_confined {deleted : Nat → Prop} (hbegin : deleted d.sourceRange.begin)
    (h : L.Confined deleted) : L.place = .statement := by
  obtain ⟨-, hshared⟩ := h _ hbegin
  unfold Shared at hshared
  cases hplace : L.place with
  | statement => rfl
  | group sharedEnd begin_lt =>
    rw [hplace] at hshared
    exact absurd ⟨le_rfl, begin_lt⟩ hshared
  | parameter =>
    rw [hplace] at hshared
    exact absurd ⟨le_rfl, L.begin_le.trans_lt L.finish_lt⟩ hshared

/-- For a statement of its own, a deletion that starts with the declaration is confined exactly if
it ends inside the tail, or the file does. -/
theorem confined_iff_of_statement (hplace : L.place = .statement) (stop : Nat) :
    L.Confined (fun i => d.sourceRange.begin ≤ i ∧ i < stop ∧ i < text.length) ↔
      stop ≤ L.tokenEnd + tailLength L.behind ∨ L.tokenEnd + tailLength L.behind = text.length := by
  have hbegin := L.begin_le.trans_lt L.finish_lt
  have htail : tailLength L.behind ≤ text.length - L.tokenEnd := L.length_behind ▸ tailLength_le
  have htoken := L.tokenEnd_le
  have hshared : ∀ i, ¬ L.Shared i := by
    intro i
    unfold Shared
    rw [hplace]
    exact not_false
  constructor
  · intro h
    by_contra hbound
    -- the first character behind the tail
    obtain ⟨hown | htail', -⟩ := h (L.tokenEnd + tailLength L.behind) (by omega)
    · exact absurd hown.2 (by omega)
    · exact absurd ((L.tail_iff (by omega)).mp htail') (by omega)
  · rintro hbound i ⟨hi, hstop, hlength⟩
    refine ⟨?_, hshared i⟩
    by_cases hown : i < L.tokenEnd
    · exact .inl ⟨hi, hown⟩
    · exact .inr ((L.tail_iff (by omega)).mpr (by omega))

end Layout

/-- The removal of a variable of `main` or at file scope is confined exactly if the variable is
declared in a statement of its own, and its last token and the tail behind it have room for four
characters and the token that clang measures after these, or are the end of the file. -/
theorem visitVarDecl_confined_iff (measure : Text → Nat → Nat) {text : Text}
    {parent : Option FunctionDecl} {d : VarDecl} (hparent : ∀ f, parent = some f → f.isMain = true)
    (hcomment : getMachineComment d.rawComment machine1 = false) (L : Layout text d)
    (R : Rewriter) :
    L.Confined (VisitDeletes measure text parent d R) ↔ L.place = .statement ∧
      (4 + measure text (d.sourceRange.finish + 4) ≤ L.lastToken + tailLength L.behind ∨
        L.tokenEnd + tailLength L.behind = text.length) := by
  have hdeletes : VisitDeletes measure text parent d R = fun i => d.sourceRange.begin ≤ i ∧
      i < d.sourceRange.finish + 4 + measure text (d.sourceRange.finish + 4) ∧ i < text.length := by
    funext i
    exact propext (visitDeletes_iff hparent hcomment R measure i)
  have hbegin := L.begin_le
  have hfinish := L.finish_lt
  have htoken := L.tokenEnd_le
  rw [hdeletes]
  constructor
  · intro h
    have hplace := L.statement_of_confined (by omega) h
    refine ⟨hplace, ?_⟩
    have hbound := (L.confined_iff_of_statement hplace _).mp h
    rw [Layout.lastToken]
    omega
  · rintro ⟨hplace, hbound⟩
    rw [Layout.lastToken] at hbound
    exact (L.confined_iff_of_statement hplace _).mpr (by omega)

/-- A `main` whose first statement declares a variable for machine 2. -/
def sampleText : Text := "int main () \x7b\n  int a = 4; ///@2\n  a = 6; ///@2\n\x7d\n".toList

def sampleMain : FunctionDecl := ⟨⟨0, 48⟩, true, none⟩

def sampleVar : VarDecl := ⟨⟨16, 24⟩, some "///@2".toList⟩

def sampleLayout : Layout sampleText sampleVar :=
  ⟨.statement, 25, by decide, by decide, by decide⟩

/-- The token that clang measures in the sample is the rest of the comment. -/
theorem visitVarDecl_confined_sample :
    sampleLayout.Confined (VisitDeletes
      (fun text i => ((text.drop i).takeWhile (· ≠ '\n')).length) sampleText (some sampleMain)
      sampleVar []) := by
  refine (visitVarDecl_confined_iff _ ?_ (by decide) sampleLayout []).mpr ⟨rfl, .inl (by decide)⟩
  intro f hf
  obtain rfl := Option.some.inj hf
  rfl

/-- Two variables at file scope, on lines of their own. -/
def twoGlobals : Text := "int a = 4;\nint b = 5;\n".toList

def firstGlobal : VarDecl := ⟨⟨0, 8⟩, none⟩

def firstGlobalLayout : Layout twoGlobals firstGlobal :=
  ⟨.statement, 9, by decide, by decide, by decide⟩

/-- Whatever clang measures, the removal of the first variable deletes the start of the second. -/
theorem firstGlobal_deletes (measure : Text → Nat → Nat) (R : Rewriter) :
    VisitDeletes measure twoGlobals none firstGlobal R 11 := by
  rw [visitDeletes_iff (fun f hf => by cases hf) rfl]
  exact ⟨Nat.zero_le _, Nat.lt_add_right _ (by decide), by decide⟩

theorem not_confined_nextLine : ¬ ∃ measure R,
    firstGlobalLayout.Confined (VisitDeletes measure twoGlobals none firstGlobal R) := by
  rintro ⟨measure, R, hconfined⟩
  obtain ⟨hown | htail, -⟩ := hconfined 11 (firstGlobal_deletes measure R)
  · exact absurd hown.2 (by decide)
  · exact absurd (lt_tailLength_iff.mpr htail.2) (by decide)

/-- The layout of the sample inputs: behind the last token come a semicolon, a blank and a line
comment, and the token that clang measures is at most as long as the comment behind its first
slash. -/
theorem confined_of_lineComment {measure : Text → Nat → Nat} {text : Text}
    {parent : Option FunctionDecl} {d : VarDecl} (hparent : ∀ f, parent = some f → f.isMain = true)
    (hcomment : getMachineComment d.rawComment machine1 = false) {L : Layout text d}
    (hplace : L.place = .statement) {comment rest : List Char} (hline : '\n' ∉ comment)
    (hbehind : text.drop L.tokenEnd = ';' :: ' ' :: '/' :: '/' :: (comment ++ rest))
    (hmeasure : measure text (d.sourceRange.finish + 4) ≤ comment.length + 1) (R : Rewriter) :
    L.Confined (VisitDeletes measure text parent d R) := by
  have htail : comment.length + 4 ≤ tailLength L.behind := by
    have hlength := length_le_lineLength_lineComment hline rest
    have hmarks : tailLength L.behind =
        1 + (lineLength (marks .lineComment (comment ++ rest)) + 1 + 1 + 1) := by
      rw [Layout.behind, hbehind]
      rfl
    omega
  have hfinish := L.finish_lt
  have hconfined := (L.confined_iff_of_statement hplace
    (d.sourceRange.finish + 4 + measure text (d.sourceRange.finish + 4))).mpr (.inl (by omega))
  intro i hi
  exact hconfined i ((visitDeletes_iff hparent hcomment R measure i).mp hi)

end Carmor.CommentTool
