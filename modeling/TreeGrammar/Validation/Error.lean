/-!
This module contains what can be wrong with a document, and how it is reported.
-/

namespace TreeGrammar

inductive ValidationError where
  | elementNotAllowed (name expected : String)
  | attributeNotAllowed (element name : String)
  | missingAttributes (element expected : String)
  | textNotAllowed (element expected : String)
  | incompleteContent (element expected : String)
  | childRejected (element parent : String)
  | unexpectedEndTag
  | unclosedElements (count : Nat)
deriving DecidableEq

inductive Level where
  | error
  | help
deriving DecidableEq

structure Diagnostic where
  level : Level
  message : String
  label : Option String
deriving DecidableEq

namespace ValidationError

def message : ValidationError → String
  | .elementNotAllowed name _ => "element " ++ name ++ " not expected here"
  | .attributeNotAllowed element name =>
    "attribute " ++ name ++ " not allowed on element " ++ element
  | .missingAttributes element _ => "element " ++ element ++ " is missing required attributes"
  | .textNotAllowed element _ => "text not allowed in element " ++ element
  | .incompleteContent element _ => "content of " ++ element ++ " is incomplete"
  | .childRejected element parent =>
    "element " ++ element ++ " does not fit the content of " ++ parent
  | .unexpectedEndTag => "end tag without a matching start tag"
  | .unclosedElements count =>
    "document ended with " ++ toString count ++ " element(s) still open"

def label : ValidationError → String
  | .elementNotAllowed .. | .attributeNotAllowed .. | .textNotAllowed .. | .unexpectedEndTag =>
    "Not allowed"
  | .missingAttributes .. => "Missing attributes"
  | .incompleteContent .. | .unclosedElements _ => "Incomplete"
  | .childRejected .. => "Does not fit here"

def help? : ValidationError → Option String
  | .elementNotAllowed _ expected | .textNotAllowed _ expected =>
    some (if expected.isEmpty then "Remove this" else "Expected " ++ expected)
  | .attributeNotAllowed .. | .unexpectedEndTag => some "Remove this"
  | .missingAttributes _ expected =>
    if expected.isEmpty then none else some ("Add attribute " ++ expected)
  | .incompleteContent _ expected =>
    if expected.isEmpty then none else some ("Expected " ++ expected)
  | .childRejected .. | .unclosedElements _ => none

/--
The report of a mistake: what is wrong, and advice if there is any. The place is labelled if it is
known.
-/
def diagnostics (e : ValidationError) (located : Bool) : List Diagnostic :=
  { level := .error, message := e.message, label := if located then some e.label else none } ::
    (e.help?.map fun message => { level := .help, message, label := none }).toList

end ValidationError

end TreeGrammar
