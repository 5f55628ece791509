import TreeGrammar.Validation.Basic

/-!
This module contains the events that a document is given as.
-/

namespace TreeGrammar

inductive Event where
  | startElement (tag : StartTag)
  | characters (text : String)
  | endElement
  | endDocument

namespace Validation

def take (g : Grammar) (defs : Definitions) (v : Validation) : Event → GraphM Validation
  | .startElement tag => v.startElement g defs tag
  | .characters text => return v.characters text
  | .endElement => v.endElement g defs
  | .endDocument => v.endDocument defs

def errorsSince (v earlier : Validation) : List ValidationError :=
  v.errors.drop earlier.errors.length

end Validation

end TreeGrammar
