import TreeGrammar.Schema.Check

/-!
This module contains grammars: schemas that have been checked and can be used to validate documents.
-/

namespace TreeGrammar

structure Grammar where
  start : ExprId
  /--
  Any attributes, elements and text, for the content of elements that were not expected.
  -/
  anyContent : ExprId

namespace Grammar

def create (start : ExprId) : SchemaM (Except SchemaError Grammar) := do
  match (← get).check start with
  | .error e => return .error e
  | .ok () =>
    let anyContent ← Schema.reference "any-content"
    let content ← Schema.onGraph fun _ => do
      let anyElement ← Graph.elementNamed .any anyContent
      let anyAttribute ← Graph.attributeNamed .any .anyString
      Graph.mixed (← Graph.zeroOrMore (← Graph.choice anyAttribute anyElement))
    Schema.define anyContent content
    return .ok { start, anyContent }

end Grammar

end TreeGrammar
