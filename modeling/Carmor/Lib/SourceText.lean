import Mathlib.Data.List.Basic

/-!
# White space and comments in C source text

`marks` tells of every character of a text whether it is white space, part of a comment or code.
Behind a declaration come its terminating semicolon and the rest of its line: `InTail` says which
characters these are, `tailLength` counts them.
-/

namespace Lib.SourceText

inductive Mark where
  | space
  | comment
  | code
  deriving DecidableEq, Repr

/-- Where a character stands. -/
inductive Mode where
  | code
  | lineComment
  | blockComment

/-- `isspace`. -/
def isSpace (c : Char) : Bool := c ∈ [' ', '\t', '\n', '\x0b', '\x0c', '\r']

/-- The characters of a text with their marks. Literals are not read as such: the marks are right
up to the first quote outside of comments. -/
def marks : Mode → List Char → List (Char × Mark)
  | _, [] => []
  | .code, '/' :: '/' :: cs => ('/', .comment) :: ('/', .comment) :: marks .lineComment cs
  | .code, '/' :: '*' :: cs => ('/', .comment) :: ('*', .comment) :: marks .blockComment cs
  | .code, c :: cs => (c, if isSpace c then .space else .code) :: marks .code cs
  | .lineComment, '\\' :: '\n' :: cs =>
      ('\\', .comment) :: ('\n', .comment) :: marks .lineComment cs
  | .lineComment, '\n' :: cs => ('\n', .space) :: marks .code cs
  | .lineComment, c :: cs => (c, .comment) :: marks .lineComment cs
  | .blockComment, '*' :: '/' :: cs => ('*', .comment) :: ('/', .comment) :: marks .code cs
  | .blockComment, c :: cs => (c, .comment) :: marks .blockComment cs

@[simp] theorem marks_length (mode : Mode) (cs : List Char) :
    (marks mode cs).length = cs.length := by
  fun_induction marks mode cs with
  | case1 => rfl
  | case2 cs ih | case3 cs ih | case5 cs ih | case6 cs ih | case8 cs ih => simp [ih]
  | case4 c cs _ _ ih | case7 c cs _ _ ih | case9 c cs _ ih => simp [ih]

/-! ## The semicolon and the rest of the line -/

variable {ms : List (Char × Mark)} {s k : Nat}

/-- At `s` is a semicolon, behind white space and comments only. -/
def IsTerminator (ms : List (Char × Mark)) (s : Nat) : Prop :=
  ms[s]? = some (';', .code) ∧ ∀ m ∈ ms.take s, m.2 ≠ .code

/-- At `k` is white space or comment, behind nothing else and on the first line. -/
def OnLine (ms : List (Char × Mark)) (k : Nat) : Prop :=
  k < ms.length ∧ (∀ m ∈ ms.take (k + 1), m.2 ≠ .code) ∧ ∀ m ∈ ms.take k, m.1 ≠ '\n'

/-- The character at `k` is the terminating semicolon or comes before it, or is white space or
comment on the rest of the line. -/
inductive InTail (ms : List (Char × Mark)) (k : Nat) : Prop
  | statement {s : Nat} : IsTerminator ms s → k ≤ s → InTail ms k
  | restOfLine {s : Nat} : IsTerminator ms s → s < k → OnLine (ms.drop (s + 1)) (k - (s + 1)) →
      InTail ms k
  | unterminated : (∀ s, ¬ IsTerminator ms s) → OnLine ms k → InTail ms k

/-- The position of the terminating semicolon. -/
def terminator : List (Char × Mark) → Option Nat
  | [] => none
  | (c, mark) :: ms =>
      if mark = .code then if c = ';' then some 0 else none else (terminator ms).map (· + 1)

/-- How many characters of white space and comment there are on the first line. -/
def lineLength : List (Char × Mark) → Nat
  | [] => 0
  | (c, mark) :: ms => if mark = .code then 0 else if c = '\n' then 1 else lineLength ms + 1

/-- How many characters `InTail` holds of. -/
def tailLength (ms : List (Char × Mark)) : Nat :=
  match terminator ms with
  | some s => s + 1 + lineLength (ms.drop (s + 1))
  | none => lineLength ms

theorem isTerminator_cons {m : Char × Mark} :
    IsTerminator (m :: ms) (s + 1) ↔ m.2 ≠ .code ∧ IsTerminator ms s := by
  simp [IsTerminator, and_left_comm]

theorem terminator_eq_some_iff : terminator ms = some s ↔ IsTerminator ms s := by
  induction ms generalizing s with
  | nil => simp [terminator, IsTerminator]
  | cons m ms ih =>
    obtain ⟨c, mark⟩ := m
    rw [terminator]
    cases s with
    | zero => by_cases hmark : mark = .code <;> simp [IsTerminator, hmark]
    | succ s =>
      rw [isTerminator_cons, ← ih]
      by_cases hmark : mark = .code
      · simp [hmark]
      · simp [hmark]

theorem onLine_cons_succ {m : Char × Mark} :
    OnLine (m :: ms) (k + 1) ↔ m.2 ≠ .code ∧ m.1 ≠ '\n' ∧ OnLine ms k := by
  simp only [OnLine, List.length_cons, List.take_succ_cons, List.forall_mem_cons]
  constructor
  · rintro ⟨hlen, ⟨hmark, hmarks⟩, hline, hlines⟩
    exact ⟨hmark, hline, by omega, hmarks, hlines⟩
  · rintro ⟨hmark, hline, hlen, hmarks, hlines⟩
    exact ⟨by omega, ⟨hmark, hmarks⟩, hline, hlines⟩

theorem lt_lineLength_iff : k < lineLength ms ↔ OnLine ms k := by
  induction ms generalizing k with
  | nil => simp [lineLength, OnLine]
  | cons m ms ih =>
    obtain ⟨c, mark⟩ := m
    rw [lineLength]
    cases k with
    | zero =>
      by_cases hmark : mark = .code
      · simp [OnLine, hmark]
      · by_cases hline : c = '\n' <;> simp [OnLine, hmark, hline]
    | succ k =>
      rw [onLine_cons_succ, ← ih]
      by_cases hmark : mark = .code
      · simp [hmark]
      · by_cases hline : c = '\n' <;> simp [hmark, hline]

/-- The tail is a prefix. -/
theorem lt_tailLength_iff : k < tailLength ms ↔ InTail ms k := by
  rw [tailLength]
  cases hs : terminator ms with
  | none =>
    have hnone : ∀ s, ¬ IsTerminator ms s := by
      intro s h
      rw [terminator_eq_some_iff.mpr h] at hs
      cases hs
    simp only [lt_lineLength_iff]
    constructor
    · exact .unterminated hnone
    · rintro (⟨h, -⟩ | ⟨h, -, -⟩ | ⟨-, h⟩)
      · exact absurd h (hnone _)
      · exact absurd h (hnone _)
      · exact h
  | some s =>
    have hterm := terminator_eq_some_iff.mp hs
    have hunique : ∀ s', IsTerminator ms s' → s' = s := fun s' h =>
      Option.some.inj ((terminator_eq_some_iff.mpr h).symm.trans hs)
    simp only []
    constructor
    · intro hk
      by_cases hle : k ≤ s
      · exact .statement hterm hle
      · exact .restOfLine hterm (by omega) (lt_lineLength_iff.mp (by omega))
    · rintro (⟨h, hle⟩ | ⟨h, hlt, hline⟩ | ⟨hnone, -⟩)
      · obtain rfl := hunique _ h
        omega
      · obtain rfl := hunique _ h
        have hlen := lt_lineLength_iff.mpr hline
        omega
      · exact absurd hterm (hnone s)

theorem InTail.lt_length (h : InTail ms k) : k < ms.length := by
  cases h with
  | statement hterm hle =>
    obtain ⟨hs, -⟩ := List.getElem?_eq_some_iff.mp hterm.1
    omega
  | restOfLine hterm hlt hline =>
    have hlen := hline.1
    rw [List.length_drop] at hlen
    omega
  | unterminated hnone hline => exact hline.1

theorem tailLength_le : tailLength ms ≤ ms.length := by
  by_contra h
  exact absurd (lt_tailLength_iff.mp (by omega : ms.length < tailLength ms)).lt_length (by omega)

/-! ## Line comments -/

section LineComment

variable {c : Char} {cs : List Char} (hc : c ≠ '\n')
include hc

/-- Away from the end of the line a line comment goes on. -/
theorem marks_lineComment_cons (hcs : cs.head? ≠ some '\n') :
    marks .lineComment (c :: cs) = (c, .comment) :: marks .lineComment cs := by
  rw [marks]
  · rintro tail - rfl
    exact hcs rfl
  · exact hc

theorem lineLength_lineComment_pos : 0 < lineLength (marks .lineComment (c :: cs)) := by
  by_cases hcs : cs.head? = some '\n'
  · obtain ⟨tail, rfl⟩ := List.head?_eq_some_iff.mp hcs
    by_cases hsplice : c = '\\'
    · subst hsplice
      simp [marks, lineLength]
    · rw [marks]
      · simp [lineLength, hc]
      · exact fun _ h => absurd h hsplice
      · exact hc
  · rw [marks_lineComment_cons hc hcs]
    simp [lineLength, hc]

end LineComment

/-- A line comment goes on to the end of the line. -/
theorem length_le_lineLength_lineComment {cs : List Char} (hline : '\n' ∉ cs) (rest : List Char) :
    cs.length ≤ lineLength (marks .lineComment (cs ++ rest)) := by
  induction cs with
  | nil => exact Nat.zero_le _
  | cons c cs ih =>
    have hc : c ≠ '\n' := (List.ne_of_not_mem_cons hline).symm
    have hcs : '\n' ∉ cs := List.not_mem_of_not_mem_cons hline
    cases cs with
    | nil => exact lineLength_lineComment_pos hc
    | cons d cs =>
      have hd : d ≠ '\n' := fun h => hcs (h ▸ List.mem_cons_self)
      have hrest := ih hcs
      rw [List.cons_append, marks_lineComment_cons hc (by simpa using hd)]
      simp only [lineLength, if_neg hc, List.length_cons] at hrest ⊢
      simpa using hrest

end Lib.SourceText
