import TreeGrammar.Expr.Graph

/-!
This module contains work that visits an expression once and remembers the result, so that a shared
part of an expression costs no more than a part that occurs once.
-/

namespace TreeGrammar

abbrev Results := Std.TreeMap ExprId ExprId

abbrev MemoM := StateT Results GraphM

def memoized {m : Type → Type} [Monad m] [MonadStateOf Results m] (id : ExprId)
    (work : m ExprId) : m ExprId := do
  if let some result := (← getThe Results)[id]? then return result
  let result ← work
  modifyThe Results (·.insert id result)
  return result

end TreeGrammar
