import TreeGrammar.Expr.Store
import Std.Data.TreeMap

/-!
This module contains the expression graph and the operations that build expressions. Each operation
simplifies as it builds, so that what a document leads to stays small.
-/

namespace TreeGrammar

structure Settings where
  /--
  The number of nodes that must not be exceeded before a further one is added.
  -/
  limit : Nat := 0x0fffffff
  remembersDerivatives : Bool := true
deriving DecidableEq

structure Graph where
  settings : Settings
  store : Store := .initial
  /--
  For some expressions, whether they accept no content.
  -/
  nullable : Std.TreeMap ExprId Bool := ∅
  /--
  For some expressions and elements, what is left of the expression after the element.
  -/
  derivatives : Std.TreeMap (ExprId × ExprId) ExprId lexOrd.compare := ∅

abbrev GraphM := StateT Graph (Except Fault)

namespace Graph

def create (settings : Settings) : Except Fault Graph :=
  if settings.limit < 2 then .error (.limitExceeded settings.limit) else .ok { settings }

def read (id : ExprId) : GraphM { n : Node // n.Below id } := do
  let g ← get
  return ⟨g.store.node id, g.store.node_below id⟩

def intern (n : Node) : GraphM ExprId := fun g => do
  let (id, store) ← g.store.intern g.settings.limit n
  return (id, { g with store })

end Graph

/--
The alternatives of an expression: what its outermost choices choose from, in order. The null set
has none.
-/
def Store.alternatives (s : Store) (id : ExprId) : List ExprId :=
  match h : s.node id with
  | .choice a b =>
    have := h ▸ s.node_below id
    s.alternatives a ++ s.alternatives b
  | .nullSet => []
  | _ => [id]
termination_by id.index
decreasing_by all_goals exact this _ (by simp [Node.children])

namespace Graph

def without (seen : List ExprId) (id : ExprId) : GraphM (Option ExprId) := do
  if seen.contains id then return none
  let ⟨n, below⟩ ← read id
  match n, below with
  | .choice a b, _below =>
    let a? ← without seen a
    let b? ← without seen b
    match a?, b? with
    | none, none => return none
    | some kept, none | none, some kept => return some kept
    | some a', some b' =>
      if a' = a ∧ b' = b then return some id
      return some (← intern (.choice a' b'))
  | _, _ => return some id
termination_by id.index
decreasing_by all_goals exact _below _ (by simp [Node.children])

/--
Either of two expressions. Alternatives of the second that the first has too are dropped.
-/
def choice (a b : ExprId) : GraphM ExprId := do
  if a = .nullSet then return b
  if b = .nullSet then return a
  if a = b then return a
  match ← without ((← get).store.alternatives a) b with
  | none => return a
  | some b => intern (.choice a b)

def sequence (a b : ExprId) : GraphM ExprId := do
  if a = .nullSet ∨ b = .nullSet then return .nullSet
  if a = .epsilon then return b
  if b = .epsilon then return a
  intern (.sequence a b)

def interleave (a b : ExprId) : GraphM ExprId := do
  if a = .nullSet ∨ b = .nullSet then return .nullSet
  if a = .epsilon then return b
  if b = .epsilon then return a
  intern (.interleave a b)

def oneOrMore (a : ExprId) : GraphM ExprId := do
  if a = .nullSet ∨ a = .epsilon then return a
  match (← read a).val with
  | .oneOrMore _ => return a
  | _ => intern (.oneOrMore a)

def zeroOrMore (a : ExprId) : GraphM ExprId := do
  choice (← oneOrMore a) .epsilon

def optional (a : ExprId) : GraphM ExprId :=
  choice a .epsilon

def mixed (a : ExprId) : GraphM ExprId := do
  if a = .nullSet then return a
  if a = .epsilon then return .anyString
  match (← read a).val with
  | .mixed _ => return a
  | _ => intern (.mixed a)

def attributeNamed (names : NameClass) (content : ExprId) : GraphM ExprId :=
  intern (.attribute names content)

def elementNamed (names : NameClass) (content : ExprId) : GraphM ExprId :=
  intern (.element names content)

def typedString (number : Nat) : GraphM ExprId :=
  intern (.typedString number)

end Graph

end TreeGrammar
