import TreeGrammar.Expr.Definitions
import TreeGrammar.Expr.Store

/-!
This module contains the outline of an expression: everything that can be reached from it, indented
by depth. An expression that has been shown before is only named again, so the outline of a
recursive expression ends as well.
-/

namespace TreeGrammar

namespace Outline

inductive Line where
  | first (depth : Nat) (id : ExprId)
  | again (depth : Nat) (id : ExprId)
  | close (depth : Nat)
deriving DecidableEq

inductive Task where
  | enter (depth : Nat) (id : ExprId)
  | leave (depth : Nat)

/--
What a node is made of, where a reference is made of its definition.
-/
def parts (defs : Definitions) : Node → List ExprId
  | .reference r => (defs.target? r).toList
  | n => n.children

def tasksBelow (defs : Definitions) (depth : Nat) (n : Node) : List Task :=
  (parts defs n).map (.enter (depth + 1)) ++ if n.children.isEmpty then [] else [.leave depth]

theorem length_tasksBelow_le (defs : Definitions) (depth : Nat) (n : Node) :
    (tasksBelow defs depth n).length ≤ 3 := by
  cases n with
  | reference r => cases h : defs.target? r <;> simp [tasksBelow, parts, Node.children, h]
  | _ => simp [tasksBelow, parts, Node.children]

def linesFrom (s : Store) (defs : Definitions) (v : Visited) : List Task → List Line
  | [] => []
  | .leave depth :: tasks => .close depth :: linesFrom s defs v tasks
  | .enter depth id :: tasks =>
    match _fresh : v.visit? id with
    | none => .again depth id :: linesFrom s defs v tasks
    | some v => .first depth id :: linesFrom s defs v (tasksBelow defs depth (s.node id) ++ tasks)
termination_by tasks => 3 * v.remaining + tasks.length
decreasing_by
  . simp
  . simp
  . have := Visited.remaining_lt_of_visit? _fresh
    have := length_tasksBelow_le defs depth (s.node id)
    simp only [List.length_append, List.length_cons]
    omega

def lines (s : Store) (defs : Definitions) (id : ExprId) : List Line :=
  linesFrom s defs { bound := s.size } [.enter 0 id]

def heading (defs : Definitions) (n : Node) (id : ExprId) : String :=
  n.kind ++ toString id.index ++
    match n with
    | .epsilon | .nullSet | .anyString => ""
    | .typedString number => "(" ++ (defs.types number).name ++ ")"
    | .reference r => "(" ++ defs.name r ++ ")" ++ if (defs.target? r).isSome then "->" else "?"
    | .attribute names _ | .element names _ => "(" ++ names.describe ++ "="
    | .choice .. | .sequence .. | .interleave .. | .oneOrMore _ | .mixed _ => "("

def Line.text (s : Store) (defs : Definitions) : Line → String
  | .first depth id => indentation depth ++ heading defs (s.node id) id
  | .again depth id => indentation depth ++ (s.node id).kind ++ toString id.index ++ "!"
  | .close depth => indentation depth ++ ")"
where
  indentation (depth : Nat) : String := "".pushn ' ' (2 * depth)

def text (s : Store) (defs : Definitions) (id : ExprId) : String :=
  String.join ((lines s defs id).map fun l => l.text s defs ++ "\n")

end Outline

end TreeGrammar
