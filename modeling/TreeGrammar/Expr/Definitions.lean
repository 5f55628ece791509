import TreeGrammar.Expr.Visited
import TreeGrammar.Fault

/-!
This module contains what is defined in a schema: its datatypes, and the references with what they
stand for. A reference can be used before it is defined, and its definition can lead back to it.
-/

namespace TreeGrammar

structure Definition where
  name : String
  target : Option ExprId := none

structure Definitions where
  types : Nat → Datatype := fun _ => .string
  entries : Array Definition := #[]

namespace Definitions

def type (defs : Definitions) (number : Nat) : DeclaredType :=
  { number, datatype := defs.types number }

def size (defs : Definitions) : Nat := defs.entries.size

def name (defs : Definitions) (r : RefId) : String :=
  (defs.entries[r.index]?.map (·.name)).getD ""

def target? (defs : Definitions) (r : RefId) : Option ExprId :=
  defs.entries[r.index]?.bind (·.target)

def declare (defs : Definitions) (name : String) : RefId × Definitions :=
  (⟨defs.size⟩, { defs with entries := defs.entries.push { name } })

/--
Defines a reference. It may be defined again, but only as what it is already.
-/
def define (defs : Definitions) (r : RefId) (target : ExprId) : Except Fault Definitions :=
  match defs.target? r with
  | none => .ok { defs with entries := defs.entries.modify r.index ({ · with target := some target }) }
  | some existing =>
    if existing = target then .ok defs
    else .error (.redefinition (defs.name r) existing target)

def follow (defs : Definitions) (r : RefId) :
    Except Fault { target : ExprId // defs.target? r = some target } :=
  match (defs.target? r).attach with
  | some target => .ok target
  | none => .error (.undefinedReference (defs.name r))

def unvisited (defs : Definitions) (visiting : List RefId) : Nat :=
  (List.range defs.size).countP fun i => !visiting.contains ⟨i⟩

def ceiling (defs : Definitions) : Nat :=
  (defs.entries.toList.filterMap fun e => e.target.map (·.index)).max?.getD 0 + 1

/--
How far a search can go on from an expression when it follows only references that are not on the
path `visiting`: within an expression numbers fall, and following a reference leaves one less.
-/
def reach (defs : Definitions) (visiting : List RefId) (id : ExprId) : Nat :=
  defs.unvisited visiting * defs.ceiling + id.index

theorem lt_size_of_target? {defs : Definitions} {r : RefId} {target : ExprId}
    (h : defs.target? r = some target) : r.index < defs.size := by
  obtain ⟨e, he, _⟩ := Option.bind_eq_some_iff.1 h
  exact (Array.getElem?_eq_some_iff.1 he).1

theorem lt_ceiling_of_target? {defs : Definitions} {r : RefId} {target : ExprId}
    (h : defs.target? r = some target) : target.index < defs.ceiling := by
  obtain ⟨e, he, ht⟩ := Option.bind_eq_some_iff.1 h
  refine Nat.lt_succ_of_le (List.le_max?_getD_of_mem (List.mem_filterMap.2 ⟨e, ?_, by simp [ht]⟩))
  exact Array.mem_toList_iff.2 (Array.mem_of_getElem? he)

theorem unvisited_cons_lt {defs : Definitions} {visiting : List RefId} {r : RefId}
    (lt : r.index < defs.size) (new : r ∉ visiting) :
    defs.unvisited (r :: visiting) < defs.unvisited visiting := by
  refine countP_lt_countP (fun i => ?_) (List.mem_range.2 lt) ?_ ?_
  . simp
  . simp
  . simpa using new

theorem reach_child_lt {defs : Definitions} {visiting : List RefId} {c id : ExprId}
    (lt : c.index < id.index) : defs.reach visiting c < defs.reach visiting id :=
  Nat.add_lt_add_left lt _

theorem reach_target_lt {defs : Definitions} {visiting : List RefId} {r : RefId} {target id : ExprId}
    (h : defs.target? r = some target) (new : r ∉ visiting) :
    defs.reach (r :: visiting) target < defs.reach visiting id := by
  have less := unvisited_cons_lt (lt_size_of_target? h) new
  have low := lt_ceiling_of_target? h
  calc defs.unvisited (r :: visiting) * defs.ceiling + target.index
    _ < (defs.unvisited (r :: visiting) + 1) * defs.ceiling := by
      rw [Nat.succ_mul]
      omega
    _ ≤ defs.unvisited visiting * defs.ceiling := Nat.mul_le_mul_right _ less
    _ ≤ defs.unvisited visiting * defs.ceiling + id.index := Nat.le_add_right _ _

end Definitions

end TreeGrammar
