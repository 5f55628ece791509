import TreeGrammar.Expr.Node

/-!
This module contains the tokens: the pieces of a document that an expression is matched against.
-/

namespace TreeGrammar

/--
A piece of the content of an element. A child element is a piece as a whole, known by the
declarations that it satisfies.
-/
inductive Token where
  | text (literal : String) (scope : Scope)
  | attribute (name : Name) (value : String) (scope : Scope)
  | element (satisfied : List ExprId)
  | anyElement

namespace Token

def isText : Token → Bool
  | .text .. => true
  | _ => false

/--
Whether the token may be left out where the grammar has no place for it: it is blank text.
-/
def isIgnorable : Token → Bool
  | .text literal _ => Text.isBlank literal
  | _ => false

def satisfies (t : Token) (declaration : ExprId) : Bool :=
  match t with
  | .element satisfied => satisfied.contains declaration
  | .anyElement => true
  | _ => false

end Token

end TreeGrammar
