import TreeGrammar.Expr.Definitions
import TreeGrammar.Expr.Memo

/-!
This module contains what becomes of an expression at the end of a start tag, when no attribute can
follow any more.
-/

namespace TreeGrammar

inductive Pending where
  /--
  They are missing, so nothing satisfies what demands them.
  -/
  | missing
  /--
  They are taken as given, in order to go on after an error.
  -/
  | granted

def Pending.replacement : Pending → ExprId
  | .missing => .nullSet
  | .granted => .epsilon

namespace Graph

/--
An expression without its pending attributes, where the references in `visiting` are being followed
already. What holds no attribute is kept as it is, references included.
-/
def dischargeFrom (defs : Definitions) (pending : Pending) (visiting : List RefId) (id : ExprId) :
    MemoM ExprId :=
  memoized id do
    let ⟨n, below⟩ ← Graph.read id
    match n, below with
    | .attribute .., _ => return pending.replacement
    -- the attributes of a child element belong to the start tag of the child
    | .element .., _ | .epsilon, _ | .nullSet, _ | .anyString, _ | .typedString _, _ => return id
    | .choice a b, _below =>
      let a' ← dischargeFrom defs pending visiting a
      let b' ← dischargeFrom defs pending visiting b
      if a' = a ∧ b' = b then return id else choice a' b'
    | .sequence a b, _below =>
      let a' ← dischargeFrom defs pending visiting a
      let b' ← dischargeFrom defs pending visiting b
      if a' = a ∧ b' = b then return id else sequence a' b'
    | .interleave a b, _below =>
      let a' ← dischargeFrom defs pending visiting a
      let b' ← dischargeFrom defs pending visiting b
      if a' = a ∧ b' = b then return id else interleave a' b'
    | .oneOrMore a, _below =>
      let a' ← dischargeFrom defs pending visiting a
      if a' = a then return id else oneOrMore a'
    | .mixed a, _below =>
      let a' ← dischargeFrom defs pending visiting a
      if a' = a then return id else mixed a'
    | .reference r, _ =>
      if _new : r ∈ visiting then
        return id
      else
        let ⟨target, _defined⟩ ← defs.follow r
        let target' ← dischargeFrom defs pending (r :: visiting) target
        return if target' = target then id else target'
termination_by defs.reach visiting id
decreasing_by
  all_goals first
    | exact Definitions.reach_child_lt (_below _ (by simp [Node.children]))
    | exact Definitions.reach_target_lt _defined _new

def discharge (defs : Definitions) (pending : Pending) (id : ExprId) : MemoM ExprId :=
  dischargeFrom defs pending [] id

end Graph

end TreeGrammar
