import TreeGrammar.Expr.Node

/-!
This module contains the faults: what stops work on an expression graph for good, as opposed to what
a document can do wrong.
-/

namespace TreeGrammar

inductive Fault where
  /--
  A new node was needed while the graph already held more than the limit.
  -/
  | limitExceeded (limit : Nat)
  | undefinedReference (name : String)
  | unguardedReference (name : String)
  | attributesOfNullSet
  | redefinition (name : String) (existing target : ExprId)
  | notReference (node : String) (id : ExprId)
  | foreignOperand (id : ExprId)
deriving DecidableEq

namespace Fault

def message : Fault → String
  | .limitExceeded limit =>
    "Grammar derivative complexity limit exceeded (expression count > " ++ toString limit ++ ")"
  | .undefinedReference name => "Somehow definition for " ++ Text.quoted name ++ " is missing"
  | .unguardedReference name =>
    "reference " ++ Text.quoted name ++ " recurses without consuming a token"
  | .attributesOfNullSet => "attributes picked from NullSet"
  | .redefinition name existing target =>
    "reference " ++ Text.quoted name ++ " is already defined as " ++ toString existing.index ++
      ", can't redefine it as " ++ toString target.index
  | .notReference node id =>
    "expected a reference but got " ++ node ++ " with id " ++ toString id.index
  | .foreignOperand id => "expression " ++ toString id.index ++ " does not exist"

end Fault

end TreeGrammar
