import TreeGrammar.Datatype
import TreeGrammar.NameClass
import Std.Data.TreeMap

/-!
This module contains the nodes of the expression graph. A node refers to its operands by number, so
that equal expressions are one node and an expression can be compared by its number alone.
-/

namespace TreeGrammar

/--
The number of an expression: the place of its node in the order of creation.
-/
structure ExprId where
  index : Nat
deriving DecidableEq

namespace ExprId

instance : Ord ExprId := ⟨compareOn index⟩

instance : Std.TransOrd ExprId := inferInstanceAs (Std.TransCmp (compareOn index))

instance : Std.LawfulEqOrd ExprId where
  eq_of_compare h := congrArg mk (Nat.compare_eq_eq.1 h)

def epsilon : ExprId := ⟨0⟩

def nullSet : ExprId := ⟨1⟩

def anyString : ExprId := ⟨2⟩

end ExprId

structure RefId where
  index : Nat
deriving DecidableEq

inductive Node where
  | epsilon
  | nullSet
  | anyString
  | typedString (number : Nat)
  | attribute (names : NameClass) (content : ExprId)
  | element (names : NameClass) (content : ExprId)
  | choice (a b : ExprId)
  | sequence (a b : ExprId)
  | interleave (a b : ExprId)
  | oneOrMore (a : ExprId)
  | mixed (a : ExprId)
  | reference (r : RefId)
deriving DecidableEq

namespace Node

def children : Node → List ExprId
  | .attribute _ c | .element _ c => [c]
  | .choice a b | .sequence a b | .interleave a b => [a, b]
  | .oneOrMore a | .mixed a => [a]
  | .epsilon | .nullSet | .anyString | .typedString _ | .reference _ => []

def kind : Node → String
  | .epsilon => "epsilon"
  | .nullSet => "nullSet"
  | .anyString => "anyString"
  | .typedString _ => "typedString"
  | .attribute .. => "attribute"
  | .element .. => "element"
  | .choice .. => "choice"
  | .sequence .. => "sequence"
  | .interleave .. => "interleave"
  | .oneOrMore _ => "oneOrMore"
  | .mixed _ => "mixed"
  | .reference _ => "ref"

def spellOut (types : Nat → Datatype) : Node → String
  | .epsilon => "Epsilon"
  | .nullSet => "NullSet"
  | .anyString => "AnyString"
  | .typedString number => "TypedString(" ++ (types number).spelledOut ++ ")"
  | .attribute names c => "Attribute(" ++ names.spellOut ++ ", " ++ operand c ++ ")"
  | .element names c => "Element(" ++ names.spellOut ++ ", " ++ operand c ++ ")"
  | .choice a b => "Choice(" ++ operand a ++ ", " ++ operand b ++ ")"
  | .sequence a b => "Sequence(" ++ operand a ++ ", " ++ operand b ++ ")"
  | .interleave a b => "Interleave(" ++ operand a ++ ", " ++ operand b ++ ")"
  | .oneOrMore a => "OneOrMore(" ++ operand a ++ ")"
  | .mixed a => "Mixed(" ++ operand a ++ ")"
  | .reference r => "Reference(RefId(" ++ toString r.index ++ "))"
where
  operand (id : ExprId) : String := "ExpId(" ++ toString id.index ++ ")"

/--
A number to look nodes up by. Nodes that differ only in their names share one, and so do nodes with
very large operands.
-/
def key : Node → Nat
  | .epsilon => 0
  | .nullSet => 1
  | .anyString => 2
  | .typedString number => pack 3 number 0
  | .attribute _ c => pack 4 c.index 0
  | .element _ c => pack 5 c.index 0
  | .choice a b => pack 6 a.index b.index
  | .sequence a b => pack 7 a.index b.index
  | .interleave a b => pack 8 a.index b.index
  | .oneOrMore a => pack 9 a.index 0
  | .mixed a => pack 10 a.index 0
  | .reference r => pack 11 r.index 0
where
  pack (kind a b : Nat) : Nat := (a * 0x1000000 + b) * 0x10 + kind

def Below (n : Node) (id : ExprId) : Prop :=
  ∀ c ∈ n.children, c.index < id.index

instance (n : Node) (id : ExprId) : Decidable (n.Below id) :=
  inferInstanceAs (Decidable (∀ c ∈ n.children, c.index < id.index))

end Node

end TreeGrammar
