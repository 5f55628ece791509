import TreeGrammar.Schema.Basic

/-!
This module contains the check that a schema has to pass before documents are matched against it:
every reference is defined, attributes hold neither elements nor attributes, and no reference leads
back to itself without an element in between.
-/

namespace TreeGrammar

inductive SchemaError where
  | undefinedReference (name : String)
  | elementInAttribute
  | attributeInAttribute
  | unguardedRecursion (name : String)
deriving DecidableEq

def SchemaError.message : SchemaError → String
  | .undefinedReference name => "reference " ++ Text.quoted name ++ " is never defined"
  | .elementInAttribute => "element is not allowed inside attribute"
  | .attributeInAttribute => "attribute is not allowed inside attribute"
  | .unguardedRecursion name =>
    "reference " ++ Text.quoted name ++ " refers to itself without an intervening element"

namespace Schema

structure Survey where
  /--
  The references followed so far, and whether that was within an attribute.
  -/
  followed : List (RefId × Bool) := []
  contents : List ExprId := []

abbrev SurveyM := StateT Survey (Except SchemaError)

/--
Checks an expression up to the elements in it, whose contents are only noted. The path holds the
references that led here without an element in between.
-/
def survey (s : Store) (defs : Definitions) (inAttribute : Bool) (path : List RefId)
    (id : ExprId) : SurveyM Unit := do
  match _below : s.node id with
  | .element _ content =>
    if inAttribute then throw .elementInAttribute
    modify fun v => { v with contents := content :: v.contents }
  | .attribute _ content =>
    if inAttribute then throw .attributeInAttribute
    survey s defs true path content
  | .choice a b | .sequence a b | .interleave a b =>
    survey s defs inAttribute path a
    survey s defs inAttribute path b
  | .oneOrMore a | .mixed a => survey s defs inAttribute path a
  | .reference r =>
    if _new : r ∈ path then
      throw (.unguardedRecursion (defs.name r))
    else
      match _defined : defs.target? r with
      | none => throw (.undefinedReference (defs.name r))
      | some target =>
        unless (← get).followed.contains (r, inAttribute) do
          modify fun v => { v with followed := (r, inAttribute) :: v.followed }
          survey s defs inAttribute (r :: path) target
  | .epsilon | .nullSet | .anyString | .typedString _ => return ()
termination_by defs.reach path id
decreasing_by
  all_goals first
    | exact Definitions.reach_child_lt ((_below ▸ s.node_below id) _ (by simp [Node.children]))
    | exact Definitions.reach_target_lt _defined _new

def enqueue (contents : List ExprId) (v : Visited) (waiting : List ExprId) :
    Visited × List ExprId :=
  match contents with
  | [] => (v, waiting)
  | c :: contents =>
    match v.visit? c with
    | none => enqueue contents v waiting
    | some v => enqueue contents v (c :: waiting)

theorem remaining_enqueue_add_length (contents : List ExprId) (v : Visited) (waiting : List ExprId) :
    (enqueue contents v waiting).1.remaining + (enqueue contents v waiting).2.length ≤
      v.remaining + waiting.length := by
  induction contents generalizing v waiting with
  | nil => exact Nat.le_refl _
  | cons c contents ih =>
    unfold enqueue
    split
    . exact ih v waiting
    . next w h =>
      have := Visited.remaining_lt_of_visit? h
      have := ih w (c :: waiting)
      simp only [List.length_cons] at this
      omega

/--
Checks the waiting contents and all that they lead to. Each content is checked on its own, with no
reference on its path.
-/
def checkContents (s : Store) (defs : Definitions) (followed : List (RefId × Bool))
    (v : Visited) : List ExprId → Except SchemaError Unit
  | [] => .ok ()
  | content :: waiting =>
    match (survey s defs false [] content).run { followed } with
    | .error e => .error e
    | .ok ((), found) =>
      checkContents s defs found.followed (enqueue found.contents.reverse v waiting).1
        (enqueue found.contents.reverse v waiting).2
termination_by waiting => v.remaining + waiting.length
decreasing_by
  have := remaining_enqueue_add_length found.contents.reverse v waiting
  simp only [List.length_cons]
  omega

def check (s : Schema) (id : ExprId) : Except SchemaError Unit :=
  checkContents s.graph.store s.definitions [] { bound := s.graph.store.size } [id]

end Schema

end TreeGrammar
