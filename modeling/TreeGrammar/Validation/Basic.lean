import TreeGrammar.Expr.Required
import TreeGrammar.Grammar
import TreeGrammar.Matcher
import TreeGrammar.Validation.Error

/-!
This module contains the validation of a document that is given as a sequence of events. After a
mistake the validation goes on, and tries not to report what only follows from the mistake.
-/

namespace TreeGrammar

structure Attribute where
  name : Name
  value : String

structure StartTag where
  name : Name
  attributes : List Attribute := []
  declarations : List Declaration := []

/--
An element that has been started and not ended, or the whole document.
-/
structure OpenElement where
  matcher : Matcher
  name : String
  faulty : Bool := false
  hasContent : Bool := false
  /--
  How many namespaces the start tag declares.
  -/
  declared : Nat := 0

structure Validation where
  document : OpenElement
  elements : List OpenElement := []
  scope : Scope := []
  text : String := ""
  errors : List ValidationError := []

namespace Validation

def create (g : Grammar) : Validation where
  document := { matcher := .ofContent g.start, name := "document" }

def depth (v : Validation) : Nat := v.elements.length

def innermost (v : Validation) : OpenElement := v.elements.headD v.document

def withInnermost (v : Validation) (e : OpenElement) : Validation :=
  match v.elements with
  | [] => { v with document := e }
  | _ :: elements => { v with elements := e :: elements }

def report (v : Validation) (e : ValidationError) : Validation :=
  { v with errors := v.errors ++ [e] }

/--
Reads the text since the latest tag. There need not be any, unless an element ends in which nothing
has been: the empty text is then read as its content.
-/
def flush (defs : Definitions) (closing : Bool) (v : Validation) : GraphM Validation := do
  let e := v.innermost
  if v.text.isEmpty && !(closing && !e.hasContent) then return v
  match ← e.matcher.readText? defs v.text v.scope with
  | some (matcher, _) =>
    return { v.withInnermost { e with matcher, hasContent := true } with text := "" }
  | none =>
    let expected ← Graph.describeHeads defs e.matcher.state
    let v := v.withInnermost { e with hasContent := true, faulty := true }
    return { v.report (.textNotAllowed e.name expected) with text := "" }

/--
Finds out what an element that starts here may contain. If no such element is acceptable, it may
contain anything.
-/
def enter (g : Grammar) (defs : Definitions) (tag : StartTag) (v : Validation) :
    GraphM (OpenElement × Validation) := do
  let parent := v.innermost
  let name := toString tag.name
  let declared := tag.declarations.length
  match ← parent.matcher.child? defs tag.name with
  | some matcher => return ({ matcher, name, declared }, v)
  | none =>
    let expected ← Graph.describeHeads defs parent.matcher.state
    return ({ matcher := .ofContent g.anyContent, name, declared, faulty := true },
      v.report (.elementNotAllowed name expected))

def readAttributes (defs : Definitions) :
    List Attribute → OpenElement × Validation → GraphM (OpenElement × Validation)
  | [], (e, v) => return (e, v)
  | a :: attributes, (e, v) => do
    match ← e.matcher.readAttribute? defs a.name a.value v.scope with
    | some matcher => readAttributes defs attributes ({ e with matcher }, v)
    | none =>
      readAttributes defs attributes
        ({ e with faulty := true }, v.report (.attributeNotAllowed e.name (toString a.name)))

/--
Ends a start tag. Missing attributes are not reported after another mistake in the tag, which is
likely to be one of them misspelt.
-/
def endAttributes (defs : Definitions) :
    OpenElement × Validation → GraphM (OpenElement × Validation)
  | (e, v) => do
    match ← e.matcher.endAttributes? defs with
    | some matcher => return ({ e with matcher }, v)
    | none =>
      let v ← if e.faulty then pure v else do
        let missing ← (Graph.required defs e.matcher.state).run' ∅
        let expected := (← get).store.describeAttributes missing
        pure (v.report (.missingAttributes e.name expected))
      let matcher ← e.matcher.grantAttributes defs
      return ({ e with matcher, faulty := true }, v)

def startElement (g : Grammar) (defs : Definitions) (tag : StartTag) (v : Validation) :
    GraphM Validation := do
  let v ← v.flush defs false
  let v := { v with scope := v.scope.declare tag.declarations }
  let v := v.withInnermost { v.innermost with hasContent := true }
  let (e, v) ← endAttributes defs (← readAttributes defs tag.attributes (← v.enter g defs tag))
  return { v with elements := e :: v.elements }

def characters (text : String) (v : Validation) : Validation :=
  { v with text := v.text ++ text }

def checkComplete (defs : Definitions) (v : Validation) (e : OpenElement) :
    GraphM (OpenElement × Validation) := do
  let accepting ← e.matcher.isAccepting defs
  if accepting || e.faulty then return (e, v)
  let expected ← Graph.describeHeads defs e.matcher.state
  return ({ e with faulty := true }, v.report (.incompleteContent e.name expected))

/--
Reads an element that has ended as a child of the innermost open element. If the element does not
fit, it is taken for one that satisfies all its declarations, and in the end for an unknown one.
-/
def leave (g : Grammar) (defs : Definitions) (v : Validation) (e : OpenElement) :
    GraphM Validation := do
  let parent := v.innermost
  match ← parent.matcher.readChild? defs e.matcher e.faulty with
  | some matcher => return v.withInnermost { parent with matcher }
  | none =>
    let v := if e.faulty then v else v.report (.childRejected e.name parent.name)
    match ← parent.matcher.readChild? defs e.matcher true with
    | some matcher => return v.withInnermost { parent with matcher, faulty := true }
    | none =>
      let stray := Matcher.ofContent g.anyContent
      let matcher := (← parent.matcher.readChild? defs stray true).getD parent.matcher
      return v.withInnermost { parent with matcher, faulty := true }

/--
Takes an end tag. Its name does not matter: it ends the innermost open element.
-/
def endElement (g : Grammar) (defs : Definitions) (v : Validation) : GraphM Validation := do
  if v.elements.isEmpty then return v.report .unexpectedEndTag
  let v ← v.flush defs true
  match v.elements with
  | [] => return v
  | e :: elements =>
    let v := { v with elements, scope := v.scope.drop e.declared }
    let (e, v) ← v.checkComplete defs e
    v.leave g defs e

def endDocument (defs : Definitions) (v : Validation) : GraphM Validation := do
  if !v.elements.isEmpty then return v.report (.unclosedElements v.depth)
  let v ← v.flush defs false
  if ← v.document.matcher.isAccepting defs then return v
  let expected ← Graph.describeHeads defs v.document.matcher.state
  return v.report (.incompleteContent v.document.name expected)

end Validation

end TreeGrammar
