import TreeGrammar.Expr.Definitions
import TreeGrammar.Expr.Graph

/-!
This module contains the test whether an expression accepts no content. References make the question
circular; the answer is the least one that fits.
-/

namespace TreeGrammar

structure NullableAnswer where
  value : Bool
  /--
  If the answer was found by taking a reference on the path to be not nullable, the place on the
  path of the outermost such reference.
  -/
  provisional : Option Nat := none

namespace Graph

def settled (id : ExprId) (work : GraphM NullableAnswer) : GraphM NullableAnswer := do
  if let some value := (← get).nullable[id]? then return { value }
  let answer ← work
  if answer.provisional.isNone then
    modify fun g => { g with nullable := g.nullable.insert id answer.value }
  return answer

/--
Whether an expression accepts no content, where the references in `visiting`, the latest first, are
being examined already and count as not nullable. A "no" that rests on such a guess is final only
once the outermost reference involved has been examined in full.
-/
def nullableFrom (defs : Definitions) (visiting : List RefId) (id : ExprId) :
    GraphM NullableAnswer :=
  settled id do
    let ⟨n, below⟩ ← read id
    match n, below with
    | .epsilon, _ | .anyString, _ => return { value := true }
    | .nullSet, _ | .typedString _, _ | .attribute .., _ | .element .., _ =>
      return { value := false }
    | .choice a b, _below =>
      let p ← nullableFrom defs visiting a
      if p.value then
        return { value := true }
      else
        let q ← nullableFrom defs visiting b
        if q.value then
          return { value := true }
        else
          return { value := false, provisional := p.provisional.merge min q.provisional }
    | .sequence a b, _below | .interleave a b, _below =>
      let p ← nullableFrom defs visiting a
      if p.value then nullableFrom defs visiting b else return p
    | .oneOrMore a, _below | .mixed a, _below => nullableFrom defs visiting a
    | .reference r, _ =>
      match _new : visiting.reverse.idxOf? r with
      | some place => return { value := false, provisional := some place }
      | none =>
        let ⟨target, _defined⟩ ← defs.follow r
        let p ← nullableFrom defs (r :: visiting) target
        -- a guess about `r` itself is settled here
        return { p with provisional := p.provisional.filter (· < visiting.length) }
termination_by defs.reach visiting id
decreasing_by
  all_goals first
    | exact Definitions.reach_child_lt (_below _ (by simp [Node.children]))
    | exact Definitions.reach_target_lt _defined (by simpa using _new)

def isNullable (defs : Definitions) (id : ExprId) : GraphM Bool :=
  return (← nullableFrom defs [] id).value

end Graph

end TreeGrammar
