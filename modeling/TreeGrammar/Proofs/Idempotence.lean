import TreeGrammar.Proofs.NormalForm
import TreeGrammar.Proofs.Work

/-!
This module contains which operations on one expression are idempotent. Repetition and the choice of no
content are: done again to what they have given, they give it back, and no node is added. Mixing with
text is idempotent too, except on the expression for no content: this gives any text, and to mix any
text with text again makes a node of its own.
-/

namespace TreeGrammar

variable {s t : Store} {g h : Graph} {a b c : ExprId} {n : Node}

namespace Store

theorem node_of_le_of_ne (hst : s ≤ t) (hn : s.node a = n) (hne : n ≠ .nullSet) : t.node a = n := by
  subst hn
  exact node_of_le hst (mem_of_node_ne hne)

@[simp]
theorem alternatives_epsilon (s : Store) : s.alternatives .epsilon = [.epsilon] :=
  alternatives_of_ne (by simp) (by simp)

end Store

namespace Graph

/--
What the operation gives for an expression, it gives back from then on: for its own result it adds
no node and raises no fault, whatever has been added in between.
-/
def Settles (operation : ExprId → GraphM ExprId) (a : ExprId) (g : Graph) : Prop :=
  ∀ b h, operation a g = .ok (b, h) → ∀ k : Graph, h.store ≤ k.store → operation b k = .ok (b, k)

theorem node_of_intern (hrun : intern n g = .ok (a, h)) : h.store.node a = n := by
  rw [intern_apply] at hrun
  cases hs : g.store.intern g.settings.limit n with
  | error f =>
    rw [hs] at hrun
    cases hrun
  | ok p =>
    rw [hs] at hrun
    cases hrun
    exact Store.node_eq_of_find? (Store.intern_eq_ok hs).2

theorem read_bind_eq {α : Type} {next : { n : Node // n.Below a } → GraphM α}
    {r : Except Fault (α × Graph)}
    (hnext : ∀ n below, g.store.node a = n → next ⟨n, below⟩ g = r) : (read a >>= next) g = r :=
  hnext _ (g.store.node_below a) rfl

theorem bind_eq_of_ok {α β : Type} {work : GraphM α} {next : α → GraphM β} {x : α}
    (hrun : work g = .ok (x, h)) : (work >>= next) g = next x h := by
  change (work g >>= fun p => next p.1 p.2) = _
  rw [hrun]
  rfl

theorem oneOrMore_apply (a : ExprId) (g : Graph) : oneOrMore a g =
    if a = .nullSet ∨ a = .epsilon then .ok (a, g)
    else match g.store.node a with
      | .oneOrMore _ => .ok (a, g)
      | _ => intern (.oneOrMore a) g := by
  unfold oneOrMore
  split
  . rfl
  . refine read_bind_eq fun n _ hn => ?_
    rw [hn]
    cases n <;> rfl

theorem oneOrMore_of_node (ha : g.store.node a = .oneOrMore c) : oneOrMore a g = .ok (a, g) := by
  rw [oneOrMore_apply, ha, ite_self]

theorem oneOrMore_settles (a : ExprId) (g : Graph) : Settles oneOrMore a g := by
  intro b h hrun k hhk
  by_cases hconst : a = .nullSet ∨ a = .epsilon
  . rw [oneOrMore_apply, if_pos hconst] at hrun
    cases hrun
    rw [oneOrMore_apply, if_pos hconst]
  . rw [oneOrMore_apply, if_neg hconst] at hrun
    split at hrun
    . next c hn =>
      cases hrun
      exact oneOrMore_of_node (Store.node_of_le_of_ne hhk hn (by simp))
    . exact oneOrMore_of_node (Store.node_of_le_of_ne hhk (node_of_intern hrun) (by simp))

theorem mixed_apply (a : ExprId) (g : Graph) : mixed a g =
    if a = .nullSet then .ok (a, g)
    else if a = .epsilon then .ok (.anyString, g)
    else match g.store.node a with
      | .mixed _ => .ok (a, g)
      | _ => intern (.mixed a) g := by
  unfold mixed
  split
  . rfl
  . split
    . rfl
    . refine read_bind_eq fun n _ hn => ?_
      rw [hn]
      cases n <;> rfl

theorem mixed_of_node (ha : g.store.node a = .mixed c) : mixed a g = .ok (a, g) := by
  have hne : a ≠ .epsilon := by
    rintro rfl
    simp at ha
  rw [mixed_apply, ha, if_neg hne, ite_self]

theorem mixed_settles (ha : a ≠ .epsilon) (g : Graph) : Settles mixed a g := by
  intro b h hrun k hhk
  by_cases hnull : a = .nullSet
  . rw [mixed_apply, if_pos hnull] at hrun
    cases hrun
    rw [mixed_apply, if_pos hnull]
  . rw [mixed_apply, if_neg hnull, if_neg ha] at hrun
    split at hrun
    . next c hn =>
      cases hrun
      exact mixed_of_node (Store.node_of_le_of_ne hhk hn (by simp))
    . exact mixed_of_node (Store.node_of_le_of_ne hhk (node_of_intern hrun) (by simp))

theorem mixed_mixed_epsilon (g : Graph) :
    (mixed .epsilon >>= mixed) g = intern (.mixed .anyString) g := by
  change mixed .anyString g = _
  rw [mixed_apply, if_neg (by decide), if_neg (by decide), Store.node_anyString]

theorem not_mixed_settles_epsilon (g : Graph) : ¬ Settles mixed .epsilon g := by
  intro hsettles
  have hkept := hsettles .anyString g rfl g le_rfl
  have hnode := node_of_intern ((mixed_mixed_epsilon g).symm.trans hkept)
  rw [Store.node_anyString] at hnode
  cases hnode

theorem without_epsilon (seen : List ExprId) (g : Graph) : without seen .epsilon g =
    .ok (if .epsilon ∈ seen then none else some .epsilon, g) := by
  rw [without]
  by_cases hseen : ExprId.epsilon ∈ seen
  . rw [if_pos (by simpa using hseen), if_pos hseen]
    rfl
  . rw [if_neg (by simpa using hseen), if_neg hseen]
    refine read_bind_eq fun n _ hn => ?_
    obtain rfl : n = .epsilon := by rw [← hn, Store.node_epsilon]
    rfl

theorem optional_apply (a : ExprId) (g : Graph) : optional a g =
    if a = .nullSet then .ok (.epsilon, g)
    else if .epsilon ∈ g.store.alternatives a then .ok (a, g)
    else intern (.choice a .epsilon) g := by
  unfold optional choice
  split
  . rfl
  . rw [if_neg (by decide)]
    by_cases ha : a = .epsilon
    . subst ha
      rw [if_pos rfl, if_pos (by simp)]
      rfl
    . rw [if_neg ha]
      have hget : (get : GraphM Graph) g = .ok (g, g) := rfl
      rw [bind_eq_of_ok hget, bind_eq_of_ok (without_epsilon _ g)]
      split <;> rfl

theorem optional_of_mem (ha : .epsilon ∈ g.store.alternatives a) : optional a g = .ok (a, g) := by
  have hne : a ≠ .nullSet := by
    rintro rfl
    simp [Store.alternatives_of_nullSet] at ha
  rw [optional_apply, if_neg hne, if_pos ha]

theorem optional_settles (a : ExprId) (g : Graph) : Settles optional a g := by
  intro b h hrun k hhk
  rw [optional_apply] at hrun
  split at hrun
  . cases hrun
    exact optional_of_mem (by simp)
  . split at hrun
    . next hmem =>
      cases hrun
      have ha : a ∈ g.store := Store.mem_of_node_ne fun hn => by
        simp [Store.alternatives_of_nullSet hn] at hmem
      exact optional_of_mem (by rwa [Store.alternatives_of_le hhk ha])
    . have hb := Store.node_of_le_of_ne hhk (node_of_intern hrun) (by simp)
      exact optional_of_mem (by simp [Store.alternatives_of_choice hb])

/--
Repetition and the choice of no content are idempotent for every expression of every graph. Mixing
with text is for every expression but that for no content, where the second time asks for a further
node.
-/
theorem unary_settles_except_mixed_epsilon (a : ExprId) (g : Graph) :
    Settles oneOrMore a g ∧ Settles optional a g ∧ (Settles mixed a g ↔ a ≠ .epsilon) ∧
      (mixed .epsilon >>= mixed) g = intern (.mixed .anyString) g := by
  refine ⟨oneOrMore_settles a g, optional_settles a g, ⟨?_, fun ha => mixed_settles ha g⟩,
    mixed_mixed_epsilon g⟩
  rintro hsettles rfl
  exact not_mixed_settles_epsilon g hsettles

end Graph

end TreeGrammar
