import TreeGrammar.Expr.Nullable
import TreeGrammar.Proofs.Growth

/-!
This module contains how a property of work on a graph is shown step by step: what the operations that
build expressions are put together of, and the test whether an expression accepts no content.
-/

namespace TreeGrammar

namespace Graph

/--
The property passes from the steps of work on to the work.
-/
structure Composes (P : ∀ {α : Type}, GraphM α → Prop) : Prop where
  pure : ∀ {α : Type} (a : α), P (Pure.pure a)
  bind : ∀ {α β : Type} {work : GraphM α} {next : α → GraphM β},
    P work → (∀ a, P (next a)) → P (work >>= next)
  read : ∀ id : ExprId, P (Graph.read id)

structure Builds (P : ∀ {α : Type}, GraphM α → Prop) : Prop extends Composes P where
  intern : ∀ n : Node, (∀ r, n ≠ .reference r) → P (Graph.intern n)
  alternatives : ∀ (id : ExprId) (next : List ExprId → GraphM ExprId), (∀ ids, P (next ids)) →
    P ((get : GraphM Graph) >>= fun g => next (g.store.alternatives id))

structure Examines (defs : Definitions) (P : ∀ {α : Type}, GraphM α → Prop) : Prop
    extends Composes P where
  follow : ∀ r, P (liftM (defs.follow r))
  settled : ∀ (id : ExprId) {work : GraphM NullableAnswer}, P work → P (Graph.settled id work)

variable {P : ∀ {α : Type}, GraphM α → Prop} {α : Type} {defs : Definitions}

theorem Composes.ite (_ : Composes P) {c : Prop} [Decidable c] {work other : GraphM α}
    (hwork : P work) (hother : P other) : P (if c then work else other) := by
  split
  . exact hwork
  . exact hother

namespace Builds

theorem without (h : Builds P) (seen : List ExprId) (id : ExprId) : P (without seen id) := by
  rw [Graph.without]
  refine h.ite (h.pure _) (h.bind (h.read id) ?_)
  rintro ⟨n, below⟩
  cases n with
  | choice a b =>
    refine h.bind (h.without seen a) fun a? => h.bind (h.without seen b) fun b? => ?_
    cases a? with
    | none => cases b? <;> exact h.pure _
    | some a' =>
      cases b? with
      | none => exact h.pure _
      | some b' =>
        exact h.ite (h.pure _) (h.bind (h.intern _ (by simp)) fun _ => h.pure _)
  | _ => exact h.pure _
termination_by id.index
decreasing_by all_goals exact below _ (by simp [Node.children])

theorem choice (h : Builds P) (a b : ExprId) : P (choice a b) := by
  refine h.ite (h.pure _) (h.ite (h.pure _) (h.ite (h.pure _) ?_))
  refine h.alternatives a (fun seen => Graph.without seen b >>= _) fun seen => ?_
  refine h.bind (h.without seen b) fun b? => ?_
  cases b? with
  | none => exact h.pure _
  | some b' => exact h.intern _ (by simp)

theorem sequence (h : Builds P) (a b : ExprId) : P (sequence a b) :=
  h.ite (h.pure _) (h.ite (h.pure _) (h.ite (h.pure _) (h.intern _ (by simp))))

theorem interleave (h : Builds P) (a b : ExprId) : P (interleave a b) :=
  h.ite (h.pure _) (h.ite (h.pure _) (h.ite (h.pure _) (h.intern _ (by simp))))

theorem oneOrMore (h : Builds P) (a : ExprId) : P (oneOrMore a) := by
  refine h.ite (h.pure _) (h.bind (h.read a) ?_)
  rintro ⟨n, below⟩
  cases n with
  | oneOrMore => exact h.pure _
  | _ => exact h.intern _ (by simp)

theorem zeroOrMore (h : Builds P) (a : ExprId) : P (zeroOrMore a) :=
  h.bind (h.oneOrMore a) fun _ => h.choice _ _

theorem mixed (h : Builds P) (a : ExprId) : P (mixed a) := by
  refine h.ite (h.pure _) (h.ite (h.pure _) (h.bind (h.read a) ?_))
  rintro ⟨n, below⟩
  cases n with
  | mixed => exact h.pure _
  | _ => exact h.intern _ (by simp)

end Builds

namespace Examines

theorem nullableFrom (h : Examines defs P) (visiting : List RefId) (id : ExprId) :
    P (nullableFrom defs visiting id) := by
  refine Definitions.search_induction
    (motive := fun visiting id => P (Graph.nullableFrom defs visiting id)) defs ?_ visiting id
  intro visiting id ihChild ihTarget
  rw [Graph.nullableFrom]
  refine h.settled id (h.bind (h.read id) ?_)
  rintro ⟨n, below⟩
  have operand {a : ExprId} (ha : a ∈ n.children) : P (Graph.nullableFrom defs visiting a) :=
    ihChild a (below a ha)
  cases n with
  | epsilon | anyString | nullSet | typedString | «attribute» | element => exact h.pure _
  | choice a b =>
    refine h.bind (operand (by simp [Node.children])) fun p => h.ite (h.pure _) ?_
    exact h.bind (operand (by simp [Node.children])) fun q => h.ite (h.pure _) (h.pure _)
  | sequence a b | interleave a b =>
    refine h.bind (operand (by simp [Node.children])) fun p => ?_
    exact h.ite (operand (by simp [Node.children])) (h.pure _)
  | oneOrMore a | mixed a => exact operand (by simp [Node.children])
  | reference r =>
    dsimp only
    split
    . exact h.pure _
    . next new =>
      refine h.bind (h.follow r) ?_
      rintro ⟨target, htarget⟩
      exact h.bind (ihTarget r target htarget (by simpa using new)) fun _ => h.pure _

theorem isNullable (h : Examines defs P) (id : ExprId) : P (isNullable defs id) :=
  h.bind (h.nullableFrom [] id) fun _ => h.pure _

end Examines

end Graph

end TreeGrammar
