import TreeGrammar.Proofs.Parts

/-!
This module contains the form that all expressions of a store have: what the operations that build
expressions would simplify does not occur.
-/

namespace TreeGrammar

namespace Store

variable {s t : Store} {id x : ExprId} {n : Node} {limit : Nat}

theorem alternatives_eq (s : Store) (id : ExprId) : s.alternatives id =
    match s.node id with
    | .choice a b => s.alternatives a ++ s.alternatives b
    | .nullSet => []
    | _ => [id] := by
  rw [alternatives]
  split
  . next heq =>
    dsimp only
    rw [heq]
  . next heq => rw [heq]
  . next hchoice hnull =>
    split
    . next heq => exact absurd heq (hchoice _ _)
    . next heq => exact absurd heq hnull
    . rfl

theorem alternatives_of_choice {a b : ExprId} (h : s.node id = .choice a b) :
    s.alternatives id = s.alternatives a ++ s.alternatives b := by
  rw [alternatives_eq, h]

theorem alternatives_of_nullSet (h : s.node id = .nullSet) : s.alternatives id = [] := by
  rw [alternatives_eq, h]

theorem alternatives_of_ne (hchoice : ∀ a b, s.node id ≠ .choice a b) (hnull : s.node id ≠ .nullSet) :
    s.alternatives id = [id] := by
  rw [alternatives_eq]
  split
  . next heq => exact absurd heq (hchoice _ _)
  . next heq => exact absurd heq hnull
  . rfl

theorem alternatives_induction {motive : ExprId → Prop} (s : Store)
    (choice : ∀ id a b, s.node id = .choice a b → motive a → motive b → motive id)
    (other : ∀ id, (∀ a b, s.node id ≠ .choice a b) → motive id) (id : ExprId) : motive id := by
  have below := s.node_below id
  cases hn : s.node id with
  | choice a b =>
    rw [hn] at below
    have ha := below a (by simp [Node.children])
    have hb := below b (by simp [Node.children])
    exact choice id a b hn (alternatives_induction s choice other a)
      (alternatives_induction s choice other b)
  | _ => exact other id (by simp [hn])
termination_by id.index

theorem alternatives_of_le (hst : s ≤ t) (hid : id ∈ s) : t.alternatives id = s.alternatives id := by
  induction id using s.alternatives_induction with
  | choice id a b hn iha ihb =>
    have hnode := (node_of_le hst hid).trans hn
    have ha : a ∈ s := mem_of_mem_children hid (by simp [hn, Node.children])
    have hb : b ∈ s := mem_of_mem_children hid (by simp [hn, Node.children])
    rw [alternatives_of_choice hn, alternatives_of_choice hnode, iha ha, ihb hb]
  | other id hn =>
    have hnode := node_of_le hst hid
    by_cases hnull : s.node id = .nullSet
    . rw [alternatives_of_nullSet hnull, alternatives_of_nullSet (hnode.trans hnull)]
    . rw [alternatives_of_ne hn hnull, alternatives_of_ne (by simpa [hnode] using hn)
        (by simpa [hnode] using hnull)]

theorem ne_choice_of_mem_alternatives (hx : x ∈ s.alternatives id) (a b : ExprId) :
    s.node x ≠ .choice a b := by
  induction id using s.alternatives_induction with
  | choice id i j hn ihi ihj =>
    rw [alternatives_of_choice hn, List.mem_append] at hx
    exact hx.elim ihi ihj
  | other id hn =>
    by_cases hnull : s.node id = .nullSet
    . simp [alternatives_of_nullSet hnull] at hx
    . rw [alternatives_of_ne hn hnull, List.mem_singleton] at hx
      exact hx ▸ hn a b

theorem eq_nullSet_of_node (hid : id ∈ s) (h : s.node id = .nullSet) : id = .nullSet :=
  eq_of_node_eq hid (nullSet_mem s) (by rw [h, node_nullSet])

/--
There is nothing to simplify about the node.
-/
def Simplified (s : Store) : Node → Prop
  | .choice a b => (a ≠ .nullSet ∧ b ≠ .nullSet) ∧ (s.alternatives a ++ s.alternatives b).Nodup
  | .sequence a b | .interleave a b =>
    (a ≠ .nullSet ∧ b ≠ .nullSet) ∧ a ≠ .epsilon ∧ b ≠ .epsilon
  | .oneOrMore a => (a ≠ .nullSet ∧ a ≠ .epsilon) ∧ ∀ b, s.node a ≠ .oneOrMore b
  | .mixed a => (a ≠ .nullSet ∧ a ≠ .epsilon) ∧ ∀ b, s.node a ≠ .mixed b
  | _ => True

/--
There is nothing to simplify about any node of the store.
-/
def IsNormal (s : Store) : Prop :=
  ∀ id, s.Simplified (s.node id)

def IsReduced (s : Store) : Prop :=
  ∀ id, (s.node id).isCompound → .nullSet ∉ (s.node id).children

theorem IsReduced.ne_nullSet {a : ExprId} (hs : s.IsReduced) (hid : (s.node id).isCompound)
    (ha : a ∈ (s.node id).children) : a ≠ .nullSet :=
  fun h => hs id hid (h ▸ ha)

theorem IsReduced.alternatives_ne_nil (hs : s.IsReduced) (hid : id ∈ s) (hne : id ≠ .nullSet) :
    s.alternatives id ≠ [] := by
  induction id using s.alternatives_induction with
  | choice id a b hn iha _ =>
    have ha : a ∈ (s.node id).children := by simp [hn, Node.children]
    have haNe := hs.ne_nullSet (by rw [hn]; rfl) ha
    rw [alternatives_of_choice hn]
    exact List.append_ne_nil_of_left_ne_nil (iha (mem_of_mem_children hid ha) haNe) _
  | other id hn =>
    rw [alternatives_of_ne hn (mt (eq_nullSet_of_node hid) hne)]
    exact List.cons_ne_nil _ _

namespace Simplified

theorem of_leaf (hn : n.isCompound = false) : s.Simplified n := by
  cases n with
  | choice | sequence | interleave | oneOrMore | mixed => cases hn
  | _ => trivial

theorem nullSet_not_mem (h : s.Simplified n) (hn : n.isCompound) : .nullSet ∉ n.children := by
  cases n with
  | choice a b | sequence a b | interleave a b =>
    simpa [Node.children, eq_comm] using h.1
  | oneOrMore a | mixed a => simpa [Node.children, eq_comm] using h.1.1
  | _ => cases hn

theorem of_le (h : s.Simplified n) (hst : s ≤ t) (hn : ∀ c ∈ n.children, c ∈ s) :
    t.Simplified n := by
  cases n with
  | choice a b =>
    refine ⟨h.1, ?_⟩
    rw [alternatives_of_le hst (hn a (by simp [Node.children])),
      alternatives_of_le hst (hn b (by simp [Node.children]))]
    exact h.2
  | oneOrMore a | mixed a =>
    refine ⟨h.1, ?_⟩
    rw [node_of_le hst (hn a (by simp [Node.children]))]
    exact h.2
  | _ => exact h

end Simplified

namespace IsNormal

theorem initial : Store.initial.IsNormal := by
  intro id
  obtain ⟨i⟩ := id
  match i with
  | 0 | 1 | 2 | i + 3 => exact .of_leaf (by simp [node, Store.initial, Node.isCompound])

theorem isReduced (hs : s.IsNormal) : s.IsReduced :=
  fun id hid => (hs id).nullSet_not_mem hid

theorem nodup_alternatives (hs : s.IsNormal) (id : ExprId) : (s.alternatives id).Nodup := by
  cases hn : s.node id with
  | choice a b =>
    have hsimplified := hs id
    rw [hn] at hsimplified
    rw [alternatives_of_choice hn]
    exact hsimplified.2
  | nullSet => simp [alternatives_of_nullSet hn]
  | _ =>
    rw [alternatives_of_ne (by simp [hn]) (by simp [hn])]
    simp

theorem intern (hs : s.IsNormal) (h : s.intern limit n = .ok (id, t))
    (hchildren : ∀ c ∈ n.children, c ∈ s) (hn : n.isCompound → s.Simplified n) : t.IsNormal := by
  obtain ⟨hst, hfind⟩ := intern_eq_ok h
  intro a
  cases ha : (t.node a).isCompound with
  | false => exact .of_leaf ha
  | true =>
    have hat := mem_of_isCompound ha
    have hold (has : a ∈ s) : t.Simplified (t.node a) := by
      rw [node_of_le hst has]
      exact (hs a).of_le hst fun c hc => mem_of_mem_children has hc
    rcases intern_grows h with rfl | ⟨_, _, hnew⟩
    . exact hold hat
    . rcases hnew a hat with has | rfl
      . exact hold has
      . rw [node_eq_of_find? hfind] at ha ⊢
        exact (hn ha).of_le hst hchildren

end IsNormal

end Store

end TreeGrammar
