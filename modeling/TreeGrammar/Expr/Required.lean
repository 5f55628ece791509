import TreeGrammar.Expr.Memo
import TreeGrammar.Expr.Nullable

/-!
This module contains the attributes that an expression cannot do without, for telling what is
missing from a start tag.
-/

namespace TreeGrammar

namespace Graph

/--
The attributes that an expression demands, where the references in `visiting` are being followed
already. The result is a choice of attributes, any one of which is missing, or accepts no content if
no attribute is demanded.
-/
def requiredFrom (defs : Definitions) (visiting : List RefId) (id : ExprId) : MemoM ExprId :=
  memoized id do
    let ⟨n, below⟩ ← Graph.read id
    match n, below with
    | .nullSet, _ => throw .attributesOfNullSet
    | .epsilon, _ | .anyString, _ | .typedString _, _ | .element .., _ => return .epsilon
    | .attribute .., _ => return id
    | .oneOrMore a, _below | .mixed a, _below => requiredFrom defs visiting a
    | .sequence a b, _below | .interleave a b, _below =>
      let p ← requiredFrom defs visiting a
      let q ← requiredFrom defs visiting b
      if !(← isNullable defs p) then
        return p
      else if !(← isNullable defs q) then
        return q
      else
        return .epsilon
    | .choice a b, _below =>
      let p ← requiredFrom defs visiting a
      let q ← requiredFrom defs visiting b
      if ← isNullable defs p then
        return .epsilon
      else if ← isNullable defs q then
        return .epsilon
      else
        choice p q
    | .reference r, _ =>
      if _new : r ∈ visiting then
        return .epsilon
      else
        let ⟨target, _defined⟩ ← defs.follow r
        requiredFrom defs (r :: visiting) target
termination_by defs.reach visiting id
decreasing_by
  all_goals first
    | exact Definitions.reach_child_lt (_below _ (by simp [Node.children]))
    | exact Definitions.reach_target_lt _defined _new

def required (defs : Definitions) (id : ExprId) : MemoM ExprId :=
  requiredFrom defs [] id

end Graph

def Store.describeAttributes (s : Store) (id : ExprId) : String :=
  (s.alternatives id).foldl (fun text a => join text (s.node a)) ""
where
  join (text : String) : Node → String
    | .attribute names _ => (if text.isEmpty then text else text ++ " | ") ++ names.describe
    | _ => text

end TreeGrammar
