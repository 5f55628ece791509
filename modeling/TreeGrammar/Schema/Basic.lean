import TreeGrammar.Expr.Nullable

/-!
This module contains schemas: an expression graph together with the references used in it.
-/

namespace TreeGrammar

structure Schema where
  graph : Graph
  definitions : Definitions := {}

abbrev SchemaM := StateT Schema (Except Fault)

namespace Schema

def create (types : Nat → Datatype) (settings : Settings) : Except Fault Schema :=
  return { graph := ← Graph.create settings, definitions := { types } }

def onGraph {α : Type} (work : Definitions → GraphM α) : SchemaM α := fun s => do
  let (a, graph) ← (work s.definitions).run s.graph
  return (a, { s with graph })

/--
A new reference. It differs from all others, also from those of the same name.
-/
def reference (name : String) : SchemaM ExprId := do
  let s ← get
  let (r, definitions) := s.definitions.declare name
  set { s with definitions }
  onGraph fun _ => Graph.intern (.reference r)

def define (id target : ExprId) : SchemaM Unit := do
  let s ← get
  match s.graph.store.node id with
  | .reference r =>
    let definitions ← s.definitions.define r target
    set { s with definitions }
  | n => throw (.notReference (n.spellOut s.definitions.types) id)

end Schema

end TreeGrammar
