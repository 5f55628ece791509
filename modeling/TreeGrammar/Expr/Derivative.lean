import TreeGrammar.Expr.Memo
import TreeGrammar.Expr.Nullable
import TreeGrammar.Token

/-!
This module contains derivatives: what is left of an expression once a token has been consumed. The
null set is left exactly where the token does not fit.
-/

namespace TreeGrammar

abbrev DerivationM := StateT (Option DeclaredType) MemoM

namespace Graph

/--
The derivative of an expression that is a leaf of the search: no other derivative enters into it.
The test `fits` tells whether the value of an attribute is acceptable to a content.
-/
def deriveLeaf (defs : Definitions) (token : Token) (fits : ExprId → GraphM Bool) (id : ExprId) :
    Node → DerivationM ExprId
  -- any amount of text: what has been read may be followed by more
  | .anyString => return if token.isText then .anyString else .nullSet
  | .typedString number =>
    match token with
    | .text literal scope => do
      if (defs.types number).accepts scope literal then
        set (some (defs.type number))
        return .epsilon
      else
        return .nullSet
    | _ => return .nullSet
  | .attribute names content =>
    match token with
    | .attribute name .. => do
      if names.contains name then
        if ← fits content then
          return .epsilon
      return .nullSet
    | _ => return .nullSet
  | .element .. => return if token.satisfies id then .epsilon else .nullSet
  | _ => return .nullSet

def deriveFrom (defs : Definitions) (token : Token) (fits : ExprId → GraphM Bool)
    (visiting : List RefId) (id : ExprId) : DerivationM ExprId :=
  memoized id do
    let ⟨n, below⟩ ← Graph.read id
    match n, below with
    | .epsilon, _ | .nullSet, _ | .anyString, _ | .typedString _, _ | .attribute .., _
    | .element .., _ => deriveLeaf defs token fits id n
    | .choice a b, _below =>
      let da ← deriveFrom defs token fits visiting a
      let db ← deriveFrom defs token fits visiting b
      choice da db
    | .sequence a b, _below =>
      let da ← deriveFrom defs token fits visiting a
      let inFirst ← sequence da b
      if ← isNullable defs a then
        let db ← deriveFrom defs token fits visiting b
        choice inFirst db
      else
        return inFirst
    | .interleave a b, _below =>
      let da ← deriveFrom defs token fits visiting a
      let inFirst ← interleave da b
      let db ← deriveFrom defs token fits visiting b
      let inSecond ← interleave a db
      choice inFirst inSecond
    | .oneOrMore a, _below =>
      let da ← deriveFrom defs token fits visiting a
      let more ← zeroOrMore a
      sequence da more
    | .mixed a, _below =>
      if token.isText then
        return id
      else
        let da ← deriveFrom defs token fits visiting a
        mixed da
    | .reference r, _ =>
      if _new : r ∈ visiting then
        throw (.unguardedReference (defs.name r))
      else
        let ⟨target, _defined⟩ ← defs.follow r
        deriveFrom defs token fits (r :: visiting) target
termination_by defs.reach visiting id
decreasing_by
  all_goals first
    | exact Definitions.reach_child_lt (_below _ (by simp [Node.children]))
    | exact Definitions.reach_target_lt _defined _new

structure Derivative where
  rest : ExprId
  matched : Option DeclaredType := none

def derive (defs : Definitions) (token : Token) (fits : ExprId → GraphM Bool) (id : ExprId) :
    GraphM Derivative := do
  let (rest, matched) ← ((deriveFrom defs token fits [] id).run none).run' ∅
  return { rest, matched }

/--
Whether the value of an attribute is acceptable to a content. A blank value is also acceptable where
no content is. What datatype the value belongs to is not told.
-/
def acceptsValue (defs : Definitions) (value : String) (scope : Scope) (content : ExprId) :
    GraphM Bool := do
  if content = .anyString then return true
  if Text.isBlank value then
    if ← isNullable defs content then return true
  -- there is no attribute in the content of an attribute
  let d ← derive defs (.text value scope) (fun _ => return false) content
  isNullable defs d.rest

def acceptsToken (defs : Definitions) : Token → ExprId → GraphM Bool
  | .attribute _ value scope, content => acceptsValue defs value scope content
  | _, _ => return false

def remembered? (id element : ExprId) : GraphM (Option ExprId) := do
  let g ← get
  return if g.settings.remembersDerivatives then g.derivatives[(id, element)]? else none

def remember (id element derivative : ExprId) : GraphM Unit :=
  modify fun g =>
    if g.settings.remembersDerivatives then
      { g with derivatives := g.derivatives.insert (id, element) derivative }
    else
      g

/--
The derivative of an expression by a token. Derivatives by a child element with exactly one
declaration are remembered; for more declarations there would be too many.
-/
def derivative (defs : Definitions) (token : Token) (id : ExprId) : GraphM Derivative := do
  let fits := acceptsToken defs token
  match token with
  | .element [declaration] =>
    if let some rest ← remembered? id declaration then return { rest }
    let d ← derive defs token fits id
    remember id declaration d.rest
    return d
  | _ => derive defs token fits id

end Graph

end TreeGrammar
