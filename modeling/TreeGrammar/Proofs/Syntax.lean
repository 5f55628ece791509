import Mathlib.Logic.Relation
import TreeGrammar.Regex.Engine

/-!
This module contains what is assumed of a library of regular expressions: how expressions are written,
and what the search for them finds. The marks, classes and flags are left open; only those that a group
between two anchors is written with are fixed.
-/

namespace TreeGrammar

/--
From where to where something matches in a text.
-/
abbrev Spans := List Char → Nat → Nat → Prop

namespace Spans

def empty : Spans := fun _ i j => i = j

def never : Spans := fun _ _ _ => False

def either (a b : Spans) : Spans := fun s i j => a s i j ∨ b s i j

def followedBy (a b : Spans) : Spans := fun s => Relation.Comp (a s) (b s)

def atStart : Spans := fun _ i j => i = 0 ∧ j = 0

def atEnd : Spans := fun s i j => i = s.length ∧ j = s.length

end Spans

/--
What regular expressions are written with. Flags that have been set before can make a difference to what
something means; they are in the mode.
-/
structure Lexicon where
  Mode : Type
  /--
  The mode in which no flags have been set.
  -/
  initial : Mode
  /--
  A character, a class or an assertion.
  -/
  atom : Mode → List Char → Spans → Prop
  /--
  The operators, if any, that stand one after the other behind what is to be repeated.
  -/
  run : Mode → List Char → (Spans → Spans) → Prop
  /--
  What begins a group, and the mode in it.
  -/
  opening : Mode → List Char → Mode → Prop
  /--
  Flags that are set up to the end of the group.
  -/
  directive : Mode → List Char → Mode → Prop
  /--
  What is passed over.
  -/
  remark : Mode → List Char → Prop
  /--
  The beginning of what would be passed over.
  -/
  openRemark : Mode → List Char → Prop

namespace Lexicon

/--
A text is an expression, which begins in one mode and ends in another. The first alternative and the
others are told apart, since what is put before the expression belongs to the first one.
-/
inductive Expression (l : Lexicon) : l.Mode → List Char → l.Mode → Spans → Spans → Prop where
  | empty {mode} : l.Expression mode [] mode .empty .never
  | bar {mode rest last a b} : l.Expression mode rest last a b →
    l.Expression mode ('|' :: rest) last .empty (a.either b)
  | remark {mode text rest last a b} : l.remark mode text → l.Expression mode rest last a b →
    l.Expression mode (text ++ rest) last a b
  | directive {mode text next rest last a b} : l.directive mode text next →
    l.Expression next rest last a b → l.Expression mode (text ++ rest) last a b
  | atom {mode text spans run repeated rest last a b} : l.atom mode text spans →
    l.run mode run repeated → l.Expression mode rest last a b →
    l.Expression mode (text ++ (run ++ rest)) last ((repeated spans).followedBy a) b
  | group {mode text inner body next c d run repeated rest last a b} : l.opening mode text inner →
    l.Expression inner body next c d → l.run mode run repeated → l.Expression mode rest last a b →
    l.Expression mode (text ++ (body ++ ')' :: (run ++ rest))) last
      ((repeated (c.either d)).followedBy a) b

/--
The text is an expression by itself, which matches so.
-/
def Means (l : Lexicon) (text : List Char) (m : Spans) : Prop :=
  ∃ last a b, l.Expression l.initial text last a b ∧ m = a.either b

/--
The marks of groups, anchors and repetitions are as usual when no flags have been set.
-/
structure IsStandard (l : Lexicon) : Prop where
  -- the anchors stand for the ends of the text
  atom_start : l.atom l.initial ['^'] .atStart
  atom_end : l.atom l.initial ['$'] .atEnd
  run_nil : l.run l.initial [] id
  opening_silent : l.opening l.initial ['(', '?', ':'] l.initial
  -- by the first characters it is seen what else there can be
  atom_cases {text m} : l.atom l.initial text m →
    ∃ c rest, text = c :: rest ∧ c ∉ ['(', ')', '|', '?'] ∧ (c = '^' → rest = [])
  run_cases {text f} : l.run l.initial text f → ∀ c ∈ text.head?, c ∈ ['*', '+', '?', '\x7b']
  opening_cases {text inner} : l.opening l.initial text inner →
    (text = ['('] ∨ text = ['(', '?', ':']) ∧ inner = l.initial ∨
      ∃ c rest, text = '(' :: '?' :: c :: rest ∧ c ≠ ':'
  directive_cases {text next} : l.directive l.initial text next →
    ∃ c rest, text = '(' :: '?' :: c :: rest ∧ c ≠ ':'
  remark_cases {text} : ¬ l.remark l.initial text
  openRemark_cases {mode text} : l.openRemark mode text → text.head? = some '#'

theorem IsStandard.head?_ne {l : Lexicon} {text : List Char} {last : l.Mode} {a b : Spans}
    (h : l.IsStandard) (hexpression : l.Expression l.initial text last a b) :
    text.head? ≠ some '?' := by
  cases hexpression with
  | empty => simp
  | bar => simp
  | remark hremark => exact absurd hremark h.remark_cases
  | directive hdirective =>
    obtain ⟨c, rest, rfl, -⟩ := h.directive_cases hdirective
    simp
  | atom hatom =>
    obtain ⟨c, rest, rfl, hc, -⟩ := h.atom_cases hatom
    rintro ⟨⟩
    simp at hc
  | group hopening =>
    obtain ⟨rfl | rfl, -⟩ | ⟨c, rest, rfl, -⟩ := h.opening_cases hopening <;> simp

end Lexicon

/--
What is known of the library from its documentation.
-/
structure RegexEngine.Documented (engine : RegexEngine) (l : Lexicon) : Prop extends
    l.IsStandard where
  /--
  What compiles is an expression, with no more than an open remark behind it.
  -/
  reads {text r} : engine.compile? text = some r →
    ∃ body rest last a b, text.toList = body ++ rest ∧ l.Expression l.initial body last a b ∧
      (rest = [] ∨ l.openRemark last rest)
  /--
  The search finds out whether the expression matches some part of a text.
  -/
  search {text r m} : engine.compile? text = some r → l.Means text.toList m → ∀ value,
    (engine.isMatch r value = true ↔
      ∃ i j, i ≤ j ∧ j ≤ value.toList.length ∧ m value.toList i j)

end TreeGrammar
