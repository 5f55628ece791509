import TreeGrammar.Regex.CharClass
import TreeGrammar.Text.WordCharacter

/-!
This module contains regular expressions as they are written, with anchors for the ends of the text
and of its words.
-/

namespace TreeGrammar

inductive Anchor where
  | atStart
  | atEnd
  | atWordStart
  | atWordEnd
deriving DecidableEq

structure Place where
  before : Option Char
  after : Option Char

def Place.all (before : Option Char) : List Char → List Place
  | [] => [{ before, after := none }]
  | c :: s => { before, after := some c } :: Place.all (some c) s

def Anchor.holds (a : Anchor) (p : Place) : Bool :=
  match a with
  | .atStart => p.before.isNone
  | .atEnd => p.after.isNone
  | .atWordStart => !isWord p.before && isWord p.after
  | .atWordEnd => isWord p.before && !isWord p.after
where
  isWord (c : Option Char) : Bool := c.any Text.isWordChar

inductive Regex where
  | empty
  | one (k : CharClass)
  | anchor (a : Anchor)
  /--
  One expression after the other. In a row of several, the first is on its own.
  -/
  | seq (a b : Regex)
  | alt (a b : Regex)
  /--
  Between `min` and `max` repetitions; without `max`, any number from `min` on. A lazy one
  prefers few, which makes no difference to what matches.
  -/
  | repeated (min : Nat) (max : Option Nat) (isLazy : Bool) (a : Regex)
  | group (captures : Bool) (a : Regex)
deriving DecidableEq

namespace Regex

def seqOf : List Regex → Regex
  | [] => .empty
  | [a] => a
  | a :: as => .seq a (seqOf as)

def altOf : List Regex → Regex
  | [] => .empty
  | [a] => a
  | a :: as => .alt a (altOf as)

/--
How deep the expressions and classes are nested. A row counts once, however long it is.
-/
def depth : Regex → Nat
  | .empty | .anchor _ => 0
  | .one k => k.depth
  | .seq a b =>
    max (a.depth + 1) (match b with
      | .seq .. => b.depth
      | _ => b.depth + 1)
  | .alt a b =>
    max (a.depth + 1) (match b with
      | .alt .. => b.depth
      | _ => b.depth + 1)
  | .repeated _ _ _ a | .group _ a => a.depth + 1

end Regex

end TreeGrammar
