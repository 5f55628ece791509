import TreeGrammar.Session.Term
import TreeGrammar.Validation.Event

/-!
This module contains what can be asked of a session, and what a session answers.
-/

namespace TreeGrammar

/--
A request to a session. Terms in it are built before anything else is done, in the order in which
they stand, and what they build stays in the graph.
-/
inductive Command where
  | bind (name : String) (e : Term)
  | define (reference target : Term)
  | inspect (e : Term)
  | follow (reference : Term)
  | isNullable (e : Term)
  | outline (e : Term)
  | size
  | settings
  | lookUp (e element : Term)
  | remember (e element derivative : Term)
  | check (e : Term)
  | classify (token : TokenTerm)
  | derive (e : Term) (token : TokenTerm) (name : Option String)
  | createPicker (name : String)
  /--
  Find the attributes that an expression demands, and give what is found a name if there is one. The
  picker makes use of what it has found before.
  -/
  | pick (picker : String) (e : Term) (name : Option String)
  | describeHeads (e : Term)
  | describeAttributes (e : Term)
  | createMatcher (name : String) (content : Term)
  | enterChild (parent : String) (name : Name) (child : String)
  /--
  Read a child element with a matcher, given the matcher that has read its content.
  -/
  | readChild (parent child : String) (recovering : Bool)
  /--
  Read a text with a matcher. The previous datatype is the answer if the text does not fit.
  -/
  | readText (matcher : String) (literal : String) (scope : Scope) (previous : Option Nat)
  | readAttribute (matcher : String) (name : Name) (value : String) (scope : Scope)
  | endAttributes (matcher : String)
  | grantAttributes (matcher : String)
  | showMatcher (matcher : String)
  | isAccepting (matcher : String)
  | listSatisfied (matcher : String)
  | createGrammar (start : Term)
  | createValidation (name : String)
  | take (validation : String) (event : Event)
  | diagnose (validation : String) (located : Bool)

inductive Answer where
  | done
  | built (id : ExprId) (size : Nat)
  | node (id : ExprId) (node : Node)
  | reference (id : ExprId) (name : String) (target : Option ExprId)
  | target (id : ExprId)
  | nullable (value : Bool)
  | outline (text : String)
  | size (size : Nat)
  | settings (settings : Settings)
  | recalled (derivative : Option ExprId)
  | refused (e : SchemaError)
  | classified (isText isIgnorable : Bool)
  | derived (rest : ExprId) (size : Nat) (matched : Option Nat)
  | picked (attributes : ExprId) (size : Nat)
  | description (text : String)
  | read (fits : Bool)
  | readText (fits : Bool) (matched : Option Nat)
  | matcher (m : Matcher)
  | accepting (value : Bool)
  | satisfied (declarations : List ExprId)
  | grammar (start : ExprId) (size : Nat)
  | progress (errors : List ValidationError) (depth : Nat)
  | diagnoses (reports : List (List Diagnostic))
deriving DecidableEq

end TreeGrammar
