import TreeGrammar.Expr.Derivative
import TreeGrammar.Expr.Heads
import TreeGrammar.Expr.Discharge

/-!
This module contains matchers, which read the content of one element token by token. If a start tag
fits several declarations, a matcher follows all of them side by side, so that the parent can be
told in the end which ones the element satisfies.
-/

namespace TreeGrammar

/--
A declaration that an element may turn out to satisfy.
-/
structure Slot where
  owner : ExprId
  content : ExprId
deriving DecidableEq

inductive Matcher where
  /--
  The rest of the content, and the declaration it comes from if there is one.
  -/
  | single (state : ExprId) (owner : Option ExprId)
  /--
  The rest of the content, by any of several declarations and by each of them.
  -/
  | several (state : ExprId) (slots : List Slot)
deriving DecidableEq

namespace Matcher

def ofContent (content : ExprId) : Matcher := .single content none

def state : Matcher → ExprId
  | .single state _ | .several state _ => state

def isAccepting (defs : Definitions) (m : Matcher) : GraphM Bool :=
  Graph.isNullable defs m.state

def satisfied (defs : Definitions) : List Slot → GraphM (List ExprId)
  | [] => return []
  | slot :: slots => do
    if ← Graph.isNullable defs slot.content then
      return slot.owner :: (← satisfied defs slots)
    else
      satisfied defs slots

/--
The state after a token that may have been there to be left out: then the state before it remains an
alternative.
-/
def after (token : Token) (before rest : ExprId) : GraphM ExprId :=
  if token.isIgnorable then Graph.choice before rest else pure rest

def advanceSlots (defs : Definitions) (token : Token) : List Slot → GraphM (List Slot)
  | [] => return []
  | slot :: slots => do
    let d ← Graph.derivative defs token slot.content
    let content ← after token slot.content d.rest
    return { slot with content } :: (← advanceSlots defs token slots)

def advance (defs : Definitions) (token : Token) (rest : ExprId) : Matcher → GraphM Matcher
  | .single state owner => return .single (← after token state rest) owner
  | .several state slots => do
    let state ← after token state rest
    return .several state (← advanceSlots defs token slots)

/--
Reads a token. The result is `none` if the token does not fit; otherwise it comes with the datatype
that accepted the text. Blank text that does not fit is passed over.
-/
def read? (defs : Definitions) (m : Matcher) (token : Token) :
    GraphM (Option (Matcher × Option DeclaredType)) := do
  let d ← Graph.derivative defs token m.state
  if d.rest = .nullSet then
    return if token.isIgnorable then some (m, d.matched) else none
  else
    return some (← m.advance defs token d.rest, d.matched)

def readText? (defs : Definitions) (m : Matcher) (literal : String) (scope : Scope) :
    GraphM (Option (Matcher × Option DeclaredType)) :=
  m.read? defs (.text literal scope)

def readAttribute? (defs : Definitions) (m : Matcher) (name : Name) (value : String)
    (scope : Scope) : GraphM (Option Matcher) :=
  return (← m.read? defs (.attribute name value scope)).map (·.1)

/--
The token for an element whose content has been read. In recovery an element with several
declarations counts as satisfying all of them.
-/
def token (defs : Definitions) (m : Matcher) (recovering : Bool) : GraphM Token :=
  match m with
  | .single _ none => return .anyElement
  | .single _ (some owner) => return .element [owner]
  | .several _ slots => do
    if recovering then
      return .element (slots.map (·.owner))
    else
      return .element (← satisfied defs slots)

def readChild? (defs : Definitions) (m : Matcher) (child : Matcher) (recovering : Bool) :
    GraphM (Option Matcher) := do
  return (← m.read? defs (← child.token defs recovering)).map (·.1)

def dischargeSlots (defs : Definitions) (pending : Pending) : List Slot → MemoM (List Slot)
  | [] => return []
  | slot :: slots => do
    let content ← Graph.discharge defs pending slot.content
    return { slot with content } :: (← dischargeSlots defs pending slots)

def discharge (defs : Definitions) (pending : Pending) (state : ExprId) : Matcher → MemoM Matcher
  | .single _ owner => return .single state owner
  | .several _ slots => return .several state (← dischargeSlots defs pending slots)

def endAttributes? (defs : Definitions) (m : Matcher) : GraphM (Option Matcher) :=
  go.run' ∅
where
  go : MemoM (Option Matcher) := do
    let state ← Graph.discharge defs .missing m.state
    if state = .nullSet then return none
    return some (← m.discharge defs .missing state)

def grantAttributes (defs : Definitions) (m : Matcher) : GraphM Matcher :=
  go.run' ∅
where
  go : MemoM Matcher := do
    let state ← Graph.discharge defs .granted m.state
    m.discharge defs .granted state

def ofHeads? : List Head → GraphM (Option Matcher)
  | [] => return none
  | [head] => return some (.single head.content (some head.id))
  | heads => do
    let state ← heads.foldlM (fun state head => Graph.choice state head.content) .nullSet
    return some (.several state (heads.map fun head => ⟨head.id, head.content⟩))

def child? (defs : Definitions) (m : Matcher) (name : Name) : GraphM (Option Matcher) := do
  ofHeads? (← Graph.candidates defs m.state name)

end Matcher

end TreeGrammar
