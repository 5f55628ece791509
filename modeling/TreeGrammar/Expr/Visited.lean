import TreeGrammar.Expr.Node
import Std.Data.TreeSet

/-!
This module contains the set of expressions that a traversal has met, together with the count of
those it has not met yet. The count is what makes a traversal of a cyclic graph end.
-/

namespace TreeGrammar

theorem countP_lt_countP {α : Type} {p q : α → Bool} {l : List α}
    (imp : ∀ x, p x = true → q x = true) {a : α} (ha : a ∈ l) (hp : p a = false)
    (hq : q a = true) : l.countP p < l.countP q := by
  induction l with
  | nil => simp at ha
  | cons x l ih =>
    have le : l.countP p ≤ l.countP q := List.countP_mono_left fun x _ => imp x
    rcases List.mem_cons.1 ha with rfl | ha
    . simp [hp, hq]
      omega
    . have head : (if p x then 1 else 0) ≤ if q x then 1 else 0 := by
        split
        . next h => simp [imp x h]
        . exact Nat.zero_le _
      simp only [List.countP_cons]
      exact Nat.add_lt_add_of_lt_of_le (ih ha) head

/--
The expressions that a traversal has met, out of the first `bound` ones.
-/
structure Visited where
  bound : Nat
  seen : Std.TreeSet ExprId := ∅

namespace Visited

def remaining (v : Visited) : Nat :=
  (List.range v.bound).countP fun i => !v.seen.contains ⟨i⟩

/--
Marks an expression as met. The result is `none` if it has been met before or does not exist.
-/
def visit? (v : Visited) (id : ExprId) : Option Visited :=
  if id.index < v.bound && !v.seen.contains id then
    some { v with seen := v.seen.insert id }
  else
    none

theorem remaining_lt_of_visit? {v w : Visited} {id : ExprId} (h : v.visit? id = some w) :
    w.remaining < v.remaining := by
  simp only [visit?, Option.ite_none_right_eq_some, Bool.and_eq_true, decide_eq_true_eq,
    Option.some.injEq] at h
  obtain ⟨⟨hlt, hnew⟩, rfl⟩ := h
  refine countP_lt_countP (fun i => ?_) (List.mem_range.2 hlt) ?_ hnew
  . simp only [Std.TreeSet.contains_insert]
    simp
  . simp

end Visited

end TreeGrammar
