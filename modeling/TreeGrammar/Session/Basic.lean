import TreeGrammar.Session.Command

/-!
This module contains sessions: a schema that is worked on step by step, with names for what has been
made so far.
-/

namespace TreeGrammar

structure Session where
  schema : Schema
  bindings : Std.TreeMap String ExprId := ∅
  matchers : Std.TreeMap String Matcher := ∅
  /--
  What each picker has found so far.
  -/
  pickers : Std.TreeMap String Results := ∅
  grammar : Option Grammar := none
  validations : Std.TreeMap String Validation := ∅

inductive Misuse where
  | unknownVariable (name : String)
  | unknownMatcher (name : String)
  | unknownPicker (name : String)
  | unknownValidation (name : String)
  | noGrammar
  | grammarExists
deriving DecidableEq

inductive Halt where
  | fault (f : Fault)
  | refused (e : SchemaError)
  | misuse (m : Misuse)
deriving DecidableEq

abbrev SessionM := StateT Session (Except Halt)

namespace Session

def create (types : Nat → Datatype) (settings : Settings) : Except Fault Session :=
  return { schema := ← Schema.create types settings }

def onSchema {α : Type} (work : SchemaM α) : SessionM α := fun s =>
  match work.run s.schema with
  | .ok (a, schema) => .ok (a, { s with schema })
  | .error f => .error (.fault f)

def onGraph {α : Type} (work : Definitions → GraphM α) : SessionM α :=
  onSchema (Schema.onGraph work)

def found {α : Type} (a? : Option α) (otherwise : Misuse) : SessionM α :=
  match a? with
  | some a => return a
  | none => throw (.misuse otherwise)

def variableNamed (name : String) : SessionM ExprId := do
  found (← get).bindings[name]? (.unknownVariable name)

def matcherNamed (name : String) : SessionM Matcher := do
  found (← get).matchers[name]? (.unknownMatcher name)

def pickerNamed (name : String) : SessionM Results := do
  found (← get).pickers[name]? (.unknownPicker name)

def validationNamed (name : String) : SessionM Validation := do
  found (← get).validations[name]? (.unknownValidation name)

def theGrammar : SessionM Grammar := do
  found (← get).grammar .noGrammar

def bind (name : String) (id : ExprId) : SessionM Unit :=
  modify fun s => { s with bindings := s.bindings.insert name id }

def putMatcher (name : String) (m : Matcher) : SessionM Unit :=
  modify fun s => { s with matchers := s.matchers.insert name m }

def putPicker (name : String) (results : Results) : SessionM Unit :=
  modify fun s => { s with pickers := s.pickers.insert name results }

def putValidation (name : String) (v : Validation) : SessionM Unit :=
  modify fun s => { s with validations := s.validations.insert name v }

def size : SessionM Nat :=
  return (← get).schema.graph.store.size

end Session

def Term.build : Term → SessionM ExprId
  | .variable name => Session.variableNamed name
  | .epsilon => return .epsilon
  | .nullSet => return .nullSet
  | .anyString => return .anyString
  | .choice a b => do
    let a ← a.build
    let b ← b.build
    Session.onGraph fun _ => Graph.choice a b
  | .sequence a b => do
    let a ← a.build
    let b ← b.build
    Session.onGraph fun _ => Graph.sequence a b
  | .interleave a b => do
    let a ← a.build
    let b ← b.build
    Session.onGraph fun _ => Graph.interleave a b
  | .oneOrMore a => do
    let a ← a.build
    Session.onGraph fun _ => Graph.oneOrMore a
  | .zeroOrMore a => do
    let a ← a.build
    Session.onGraph fun _ => Graph.zeroOrMore a
  | .optional a => do
    let a ← a.build
    Session.onGraph fun _ => Graph.optional a
  | .mixed a => do
    let a ← a.build
    Session.onGraph fun _ => Graph.mixed a
  | .attribute names content => do
    let content ← content.build
    Session.onGraph fun _ => Graph.attributeNamed names content
  | .element names content => do
    let content ← content.build
    Session.onGraph fun _ => Graph.elementNamed names content
  | .typedString number => Session.onGraph fun _ => Graph.typedString number
  | .reference name => Session.onSchema (Schema.reference name)

def TokenTerm.build : TokenTerm → SessionM Token
  | .text literal scope => return .text literal scope
  | .attribute name value scope => return .attribute name value scope
  | .element declarations => return .element (← declarations.mapM Term.build)
  | .anyElement => return .anyElement

end TreeGrammar
