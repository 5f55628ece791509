import TreeGrammar.Expr.Node
import TreeGrammar.Scope

/-!
This module contains terms: expressions written out as they are to be built, in contrast to the
nodes of a graph that result from building them.
-/

namespace TreeGrammar

/--
How to build an expression. Operands are built from left to right, before what they belong to.
-/
inductive Term where
  | variable (name : String)
  | epsilon
  | nullSet
  | anyString
  | choice (a b : Term)
  | sequence (a b : Term)
  | interleave (a b : Term)
  | oneOrMore (a : Term)
  | zeroOrMore (a : Term)
  | optional (a : Term)
  | mixed (a : Term)
  | attribute (names : NameClass) (content : Term)
  | element (names : NameClass) (content : Term)
  | typedString (number : Nat)
  | reference (name : String)

inductive TokenTerm where
  | text (literal : String) (scope : Scope)
  | attribute (name : Name) (value : String) (scope : Scope)
  | element (declarations : List Term)
  | anyElement

end TreeGrammar
