import TreeGrammar.Expr.Outline
import TreeGrammar.Session.Basic

/-!
This module contains how a session carries out requests.
-/

namespace TreeGrammar

namespace Session

def asReference (id : ExprId) : SessionM RefId := do
  let { graph, definitions } := (← get).schema
  match graph.store.node id with
  | .reference r => return r
  | n => throw (.fault (.notReference (n.spellOut definitions.types) id))

def inspect (id : ExprId) : SessionM Answer := do
  let { graph, definitions } := (← get).schema
  match graph.store.node id with
  | .reference r => return .reference id (definitions.name r) (definitions.target? r)
  | n => return .node id n

def derive (e : Term) (token : TokenTerm) (name : Option String) : SessionM Answer := do
  let id ← e.build
  let token ← token.build
  let d ← onGraph fun defs => Graph.derivative defs token id
  if let some name := name then bind name d.rest
  return .derived d.rest (← size) (d.matched.map (·.number))

def pick (picker : String) (e : Term) (name : Option String) : SessionM Answer := do
  let id ← e.build
  let results ← pickerNamed picker
  let (attributes, results) ← onGraph fun defs => (Graph.required defs id).run results
  putPicker picker results
  if let some name := name then bind name attributes
  return .picked attributes (← size)

def advance (name : String) (read? : Definitions → Matcher → GraphM (Option Matcher)) :
    SessionM Answer := do
  let m ← matcherNamed name
  let m? ← onGraph fun defs => read? defs m
  putMatcher name (m?.getD m)
  return .read m?.isSome

def readText (name literal : String) (scope : Scope) (previous : Option Nat) :
    SessionM Answer := do
  let m ← matcherNamed name
  match ← onGraph fun defs => m.readText? defs literal scope with
  | none => return .readText false previous
  | some (m, matched) =>
    putMatcher name m
    return .readText true (matched.map (·.number))

/--
Makes a matcher for the content of a child element. If none is acceptable, what has been under the
name of the child stays there.
-/
def enterChild (parent : String) (name : Name) (child : String) : SessionM Answer := do
  let m ← matcherNamed parent
  match ← onGraph fun defs => m.child? defs name with
  | none => return .read false
  | some m =>
    putMatcher child m
    return .read true

def listSatisfied (name : String) : SessionM Answer := do
  match ← matcherNamed name with
  | .single .. => return .satisfied []
  | .several _ slots => return .satisfied (← onGraph fun defs => Matcher.satisfied defs slots)

/--
Turns the schema into the grammar of the session. The matchers and pickers made before are given up.
-/
def createGrammar (start : Term) : SessionM Answer := do
  let id ← start.build
  if (← get).grammar.isSome then throw (.misuse .grammarExists)
  match ← onSchema (Grammar.create id) with
  | .error e => throw (.refused e)
  | .ok g =>
    modify fun s => { s with grammar := some g, matchers := ∅, pickers := ∅ }
    return .grammar g.start (← size)

def take (name : String) (event : Event) : SessionM Answer := do
  let g ← theGrammar
  let earlier ← validationNamed name
  let v ← onGraph fun defs => earlier.take g defs event
  putValidation name v
  return .progress (v.errorsSince earlier) v.depth

def perform : Command → SessionM Answer
  | .bind name e => do
    let id ← e.build
    bind name id
    return .built id (← size)
  | .define reference target => do
    let reference ← reference.build
    let target ← target.build
    onSchema (Schema.define reference target)
    return .done
  | .inspect e => do inspect (← e.build)
  | .follow reference => do
    let r ← asReference (← reference.build)
    return .target (← onGraph fun defs => return (← defs.follow r).val)
  | .isNullable e => do
    let id ← e.build
    return .nullable (← onGraph fun defs => Graph.isNullable defs id)
  | .outline e => do
    let id ← e.build
    let { graph, definitions } := (← get).schema
    return .outline (Outline.text graph.store definitions id)
  | .size => return .size (← size)
  | .settings => return .settings (← get).schema.graph.settings
  | .lookUp e element => do
    let id ← e.build
    let element ← element.build
    return .recalled (← onGraph fun _ => Graph.remembered? id element)
  | .remember e element derivative => do
    let id ← e.build
    let element ← element.build
    let derivative ← derivative.build
    onGraph fun _ => Graph.remember id element derivative
    return .done
  | .check e => do
    let id ← e.build
    match (← get).schema.check id with
    | .ok () => return .done
    | .error e => return .refused e
  | .classify token => do
    let token ← token.build
    return .classified token.isText token.isIgnorable
  | .derive e token name => derive e token name
  | .createPicker name => do
    putPicker name ∅
    return .done
  | .pick picker e name => pick picker e name
  | .describeHeads e => do
    let id ← e.build
    return .description (← onGraph fun defs => Graph.describeHeads defs id)
  | .describeAttributes e => do
    let id ← e.build
    return .description ((← get).schema.graph.store.describeAttributes id)
  | .createMatcher name content => do
    putMatcher name (.ofContent (← content.build))
    return .done
  | .enterChild parent name child => enterChild parent name child
  | .readChild parent child recovering => do
    let c ← matcherNamed child
    advance parent fun defs m => m.readChild? defs c recovering
  | .readText m literal scope previous => readText m literal scope previous
  | .readAttribute m name value scope =>
    advance m fun defs m => m.readAttribute? defs name value scope
  | .endAttributes m => advance m fun defs m => m.endAttributes? defs
  | .grantAttributes m => advance m fun defs m => return some (← m.grantAttributes defs)
  | .showMatcher name => return .matcher (← matcherNamed name)
  | .isAccepting name => do
    let m ← matcherNamed name
    return .accepting (← onGraph fun defs => m.isAccepting defs)
  | .listSatisfied name => listSatisfied name
  | .createGrammar start => createGrammar start
  | .createValidation name => do
    putValidation name (.create (← theGrammar))
    return .done
  | .take name event => take name event
  | .diagnose name located => do
    let v ← validationNamed name
    return .diagnoses (v.errors.map (·.diagnostics located))

/--
Carries out requests one after the other. The result has an answer for each request that could be
carried out, and the session after the last one or why it ended before.
-/
def run : List Command → Session → List Answer × Except Halt Session
  | [], s => ([], .ok s)
  | c :: commands, s =>
    match (perform c).run s with
    | .error h => ([], .error h)
    | .ok (answer, s) =>
      let (answers, outcome) := run commands s
      (answer :: answers, outcome)

end Session

end TreeGrammar
