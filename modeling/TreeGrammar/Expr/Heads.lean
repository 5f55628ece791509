import TreeGrammar.Expr.Nullable

/-!
This module contains the heads of an expression: the declarations of elements that can come next.
-/

namespace TreeGrammar

structure Head where
  id : ExprId
  names : NameClass
  content : ExprId

inductive HeadTask where
  | visit (id : ExprId)
  /--
  The second of two expressions, if the first accepts no content.
  -/
  | after (first second : ExprId)

def HeadTask.weight : HeadTask → Nat
  | .visit _ => 1
  | .after .. => 2

namespace Graph

/--
The heads found by the remaining tasks, in the order in which they are met. Each expression is
searched once.
-/
def headsFrom (defs : Definitions) (v : Visited) : List HeadTask → GraphM (List Head)
  | [] => return []
  | .after first second :: tasks => do
    if ← isNullable defs first then
      headsFrom defs v (.visit second :: tasks)
    else
      headsFrom defs v tasks
  | .visit id :: tasks => do
    match _fresh : v.visit? id with
    | none => headsFrom defs v tasks
    | some v =>
      match (← read id).val with
      | .element names content => return { id, names, content } :: (← headsFrom defs v tasks)
      | .choice a b | .interleave a b => headsFrom defs v (.visit a :: .visit b :: tasks)
      | .sequence a b => headsFrom defs v (.visit a :: .after a b :: tasks)
      | .oneOrMore a | .mixed a => headsFrom defs v (.visit a :: tasks)
      | .reference r =>
        let ⟨target, _⟩ ← defs.follow r
        headsFrom defs v (.visit target :: tasks)
      | .epsilon | .nullSet | .anyString | .typedString _ | .attribute .. => headsFrom defs v tasks
termination_by tasks => 3 * v.remaining + tasks.foldr (·.weight + ·) 0
decreasing_by
  all_goals
    try have := Visited.remaining_lt_of_visit? _fresh
    simp only [List.foldr_cons, HeadTask.weight]
    omega

def heads (defs : Definitions) (id : ExprId) : GraphM (List Head) := do
  headsFrom defs { bound := (← get).store.size } [.visit id]

def candidates (defs : Definitions) (id : ExprId) (name : Name) : GraphM (List Head) :=
  return (← heads defs id).filter (·.names.contains name)

/--
The names of the elements that can come next, for readers: the first four name classes and how many
there are besides. The text is empty if no element can come next.
-/
def describeHeads (defs : Definitions) (id : ExprId) : GraphM String := do
  let classes := ((← heads defs id).map (·.names)).eraseDups
  if classes.isEmpty then return ""
  let shown := " ".intercalate ((classes.take most).map (·.describe))
  let others := classes.length - most
  return "Element " ++ shown ++
    if others = 0 then "" else " .. or one of " ++ toString others ++ " more"
where
  most : Nat := 4

end Graph

end TreeGrammar
