import TreeGrammar.Proofs.Idempotence
import TreeGrammar.Proofs.Sessions

/-!
This module contains that an expression without new references, once it has been built, is found again:
building it later comes to the same number and leaves the session as it is, even if there is no room
left. Every expression of a session whose references have names is found in this way, also those that
have come up in the course of other work.
-/

namespace TreeGrammar

namespace Term

def isReferenceFree : Term → Bool
  | .reference _ => false
  | .choice a b | .sequence a b | .interleave a b => a.isReferenceFree && b.isReferenceFree
  | .oneOrMore a | .zeroOrMore a | .optional a | .mixed a | .attribute _ a | .element _ a =>
    a.isReferenceFree
  | .variable _ | .epsilon | .nullSet | .anyString | .typedString _ => true

def names : Term → List String
  | .variable name => [name]
  | .choice a b | .sequence a b | .interleave a b => a.names ++ b.names
  | .oneOrMore a | .zeroOrMore a | .optional a | .mixed a | .attribute _ a | .element _ a => a.names
  | .epsilon | .nullSet | .anyString | .typedString _ | .reference _ => []

end Term

namespace Graph

variable {g : Graph} {a b c id : ExprId} {n : Node} {seen : List ExprId}

theorem intern_stored (hid : id ∈ g.store) (hn : g.store.node id = n) :
    intern n g = .ok (id, g) := by
  rw [intern_apply, Store.intern_of_find? (hn ▸ Store.find?_node hid)]
  rfl

theorem without_of_disjoint (hs : g.store.IsReduced)
    (hseen : ∀ x ∈ seen, ∀ a b, g.store.node x ≠ .choice a b) (id : ExprId) (hid : id ∈ g.store)
    (hne : id ≠ .nullSet) (h : ∀ x ∈ g.store.alternatives id, x ∉ seen) :
    without seen id g = .ok (some id, g) := by
  have hnull : g.store.node id ≠ .nullSet := mt (Store.eq_nullSet_of_node hid) hne
  have hid' : id ∉ seen := by
    intro hmem
    rw [Store.alternatives_of_ne (hseen id hmem) hnull] at h
    exact h id List.mem_cons_self hmem
  rw [without, if_neg (by simpa using hid')]
  refine read_bind_eq fun n hbelow hn => ?_
  cases n with
  | choice a b =>
    have hchild {c : ExprId} (hc : c ∈ [a, b]) : c ∈ g.store ∧ c ≠ .nullSet := by
      have hmem : c ∈ (g.store.node id).children := by rwa [hn]
      exact ⟨Store.mem_of_mem_children hid hmem, hs.ne_nullSet (by rw [hn]; rfl) hmem⟩
    rw [Store.alternatives_of_choice hn, List.forall_mem_append] at h
    have hlta := hbelow a (by simp [Node.children])
    have hltb := hbelow b (by simp [Node.children])
    obtain ⟨ha, haNe⟩ := hchild (c := a) (by simp)
    obtain ⟨hb, hbNe⟩ := hchild (c := b) (by simp)
    dsimp only
    rw [bind_eq_of_ok (without_of_disjoint hs hseen a ha haNe h.1),
      bind_eq_of_ok (without_of_disjoint hs hseen b hb hbNe h.2)]
    simp only [and_self, if_true]
    rfl
  | _ => rfl
termination_by id.index

theorem choice_stored (hs : g.store.IsNormal) (hid : id ∈ g.store)
    (hn : g.store.node id = .choice a b) : choice a b g = .ok (id, g) := by
  have hsimplified := hs id
  rw [hn] at hsimplified
  obtain ⟨⟨haNe, hbNe⟩, hnodup⟩ := hsimplified
  have hdisjoint := List.disjoint_of_nodup_append hnodup
  have ha : a ∈ g.store := Store.mem_of_mem_children hid (by simp [hn, Node.children])
  have hb : b ∈ g.store := Store.mem_of_mem_children hid (by simp [hn, Node.children])
  have hab : a ≠ b := by
    rintro rfl
    obtain ⟨x, hx⟩ := List.exists_mem_of_ne_nil _ (hs.isReduced.alternatives_ne_nil ha haNe)
    exact hdisjoint hx hx
  have hget : (get : GraphM Graph) g = .ok (g, g) := rfl
  unfold choice
  rw [if_neg haNe, if_neg hbNe, if_neg hab, bind_eq_of_ok hget, bind_eq_of_ok (without_of_disjoint
    hs.isReduced (fun x hx => Store.ne_choice_of_mem_alternatives hx) b hb hbNe fun x hx hx' =>
      hdisjoint hx' hx)]
  exact intern_stored hid hn

theorem sequence_stored (hs : g.store.IsNormal) (hid : id ∈ g.store)
    (hn : g.store.node id = .sequence a b) : sequence a b g = .ok (id, g) := by
  have hsimplified := hs id
  rw [hn] at hsimplified
  obtain ⟨⟨haNe, hbNe⟩, ha, hb⟩ := hsimplified
  unfold sequence
  rw [if_neg (by simp [haNe, hbNe]), if_neg ha, if_neg hb]
  exact intern_stored hid hn

theorem interleave_stored (hs : g.store.IsNormal) (hid : id ∈ g.store)
    (hn : g.store.node id = .interleave a b) : interleave a b g = .ok (id, g) := by
  have hsimplified := hs id
  rw [hn] at hsimplified
  obtain ⟨⟨haNe, hbNe⟩, ha, hb⟩ := hsimplified
  unfold interleave
  rw [if_neg (by simp [haNe, hbNe]), if_neg ha, if_neg hb]
  exact intern_stored hid hn

theorem oneOrMore_stored (hs : g.store.IsNormal) (hid : id ∈ g.store)
    (hn : g.store.node id = .oneOrMore a) : oneOrMore a g = .ok (id, g) := by
  have hsimplified := hs id
  rw [hn] at hsimplified
  obtain ⟨⟨haNe, ha⟩, hinner⟩ := hsimplified
  rw [oneOrMore_apply, if_neg (by simp [haNe, ha])]
  split
  . next b hb => exact absurd hb (hinner b)
  . exact intern_stored hid hn

theorem mixed_stored (hs : g.store.IsNormal) (hid : id ∈ g.store)
    (hn : g.store.node id = .mixed a) : mixed a g = .ok (id, g) := by
  have hsimplified := hs id
  rw [hn] at hsimplified
  obtain ⟨⟨haNe, ha⟩, hinner⟩ := hsimplified
  rw [mixed_apply, if_neg haNe, if_neg ha]
  split
  . next b hb => exact absurd hb (hinner b)
  . exact intern_stored hid hn

end Graph

namespace Session

structure Retains (s : Session) (names : List String) (t : Session) : Prop where
  schema : s.schema ≤ t.schema
  bindings : ∀ name ∈ names, t.bindings[name]? = s.bindings[name]?

/--
Doing the work again later has the same result and no effect.
-/
def IsRepeatable (names : List String) (work : SessionM ExprId) : Prop :=
  ∀ s, s.Sound → ∀ id t, work s = .ok (id, t) → ∀ u, t.Retains names u → work u = .ok (id, u)

variable {α β : Type} {names names' : List String} {s t u : Session} {id : ExprId}

namespace Retains

theorem mono (h : s.Retains names t) (hnames : names' ⊆ names) : s.Retains names' t :=
  ⟨h.schema, fun name hname => h.bindings name (hnames hname)⟩

theorem of_extends (h : t.Retains names u) (hst : s.Extends t) (hle : s.schema ≤ t.schema) :
    s.Retains names u := by
  refine ⟨le_trans hle h.schema, fun name hname => ?_⟩
  rw [h.bindings name hname, hst]

end Retains

theorem onGraph_again {work : Definitions → GraphM ExprId} {E : Fault → Prop}
    {Q : ExprId → Graph → Prop}
    (hwork : Graph.Yields s.schema.definitions s.schema.graph work E Q)
    (h : onGraph work s = .ok (id, t)) (htu : t.Retains names u) :
    onGraph work u = .ok (id, u) ∧ s.Retains names u := by
  rw [onGraph_apply] at h
  split at h
  . next hok =>
    cases h
    have hle := (hwork.returns.ok _ _ hok).1
    refine ⟨?_, htu.of_extends rfl ⟨le_rfl, hle⟩⟩
    rw [onGraph_apply, hwork.again hok htu.schema.1 htu.schema.2]
  . cases h

theorem makes_of_build {e : Term} (hs : s.Sound) (h : e.build s = .ok (id, t)) :
    s.schema ≤ t.schema ∧ t.Sound ∧ s.Makes id t := by
  have hbuild : Returns True s e.build _ s.Makes := build_returns e s hs
  exact hbuild.ok id t h

theorem buildBinary_again {a b : Term} {op : ExprId → ExprId → GraphM ExprId}
    (hop : ∀ {defs : Definitions} {g : Graph} {i j : ExprId}, g.Sound defs → i ∈ g.store →
      j ∈ g.store → ∃ Q, Graph.Yields defs g (fun _ => op i j) (Fault.Admissible True) Q)
    (iha : IsRepeatable a.names a.build) (ihb : IsRepeatable b.names b.build) :
    IsRepeatable (a.names ++ b.names)
      (a.build >>= fun i => b.build >>= fun j => onGraph fun _ => op i j) := by
  intro s hs id t h u htu
  obtain ⟨i, v, ha, h⟩ := bind_eq_ok h
  obtain ⟨j, w, hb, h⟩ := bind_eq_ok h
  obtain ⟨hsv, hv, hi⟩ := makes_of_build hs ha
  obtain ⟨hvw, hw, hj⟩ := makes_of_build hv hb
  obtain ⟨_, hyields⟩ := hop hw.graph (hi.has.of_le hvw) hj.has
  -- from the last step back: what retains the names after a step retains them before it
  obtain ⟨hopAgain, hwu⟩ := onGraph_again hyields h htu
  have hvu := hwu.of_extends hj.only hvw
  rw [bind_of_ok (iha s hs i v ha u (hvu.mono (List.subset_append_left _ _))),
    bind_of_ok (ihb v hv j w hb u (hwu.mono (List.subset_append_right _ _))), hopAgain]

theorem buildUnary_again {a : Term} {op : ExprId → GraphM ExprId}
    (hop : ∀ {defs : Definitions} {g : Graph} {i : ExprId}, g.Sound defs → i ∈ g.store →
      ∃ Q, Graph.Yields defs g (fun _ => op i) (Fault.Admissible True) Q)
    (iha : IsRepeatable a.names a.build) :
    IsRepeatable a.names (a.build >>= fun i => onGraph fun _ => op i) := by
  intro s hs id t h u htu
  obtain ⟨i, v, ha, h⟩ := bind_eq_ok h
  obtain ⟨hsv, hv, hi⟩ := makes_of_build hs ha
  obtain ⟨_, hyields⟩ := hop hv.graph hi.has
  obtain ⟨hopAgain, hvu⟩ := onGraph_again hyields h htu
  rw [bind_of_ok (iha s hs i v ha u hvu), hopAgain]

theorem pure_again (id : ExprId) : IsRepeatable names (pure id) := by
  rintro s _ _ _ ⟨⟩ u _
  rfl

theorem variableNamed_again (name : String) : IsRepeatable [name] (variableNamed name) := by
  intro s hs id t h u htu
  have hrun (s : Session) :
      variableNamed name s = found s.bindings[name]? (.unknownVariable name) s := rfl
  rw [hrun] at h ⊢
  cases hname : s.bindings[name]? with
  | none =>
    rw [hname] at h
    cases h
  | some i =>
    rw [hname] at h
    cases h
    rw [htu.bindings name List.mem_cons_self, hname]
    rfl

theorem typedString_again (number : Nat) :
    IsRepeatable names (onGraph fun _ => Graph.typedString number) := by
  intro s hs id t h u htu
  have hyields := Graph.intern_yields (n := .typedString number) hs.graph
    (by simp [Node.children]) (by simp [Node.isCompound])
  exact (onGraph_again hyields h htu).1

theorem build_again (e : Term) (he : e.isReferenceFree) : IsRepeatable e.names e.build := by
  induction e with
  | «variable» name => exact variableNamed_again name
  | epsilon | nullSet | anyString => exact pure_again _
  | choice a b iha ihb =>
    rw [Term.isReferenceFree, Bool.and_eq_true] at he
    exact buildBinary_again (fun hg hi hj => ⟨_, Graph.choice_yields hg hi hj⟩) (iha he.1)
      (ihb he.2)
  | sequence a b iha ihb =>
    rw [Term.isReferenceFree, Bool.and_eq_true] at he
    exact buildBinary_again (fun hg hi hj => ⟨_, Graph.sequence_yields hg hi hj⟩) (iha he.1)
      (ihb he.2)
  | interleave a b iha ihb =>
    rw [Term.isReferenceFree, Bool.and_eq_true] at he
    exact buildBinary_again (fun hg hi hj => ⟨_, Graph.interleave_yields hg hi hj⟩) (iha he.1)
      (ihb he.2)
  | oneOrMore a ih => exact buildUnary_again (fun hg hi => ⟨_, Graph.oneOrMore_yields hg hi⟩) (ih he)
  | zeroOrMore a ih => exact buildUnary_again (fun hg hi => ⟨_, Graph.zeroOrMore_yields hg hi⟩) (ih he)
  | optional a ih => exact buildUnary_again (fun hg hi => ⟨_, Graph.optional_yields hg hi⟩) (ih he)
  | mixed a ih => exact buildUnary_again (fun hg hi => ⟨_, Graph.mixed_yields hg hi⟩) (ih he)
  | «attribute» names content ih =>
    exact buildUnary_again (fun hg hi => ⟨_, Graph.intern_yields (n := .attribute names _) hg
      (by simpa [Node.children] using hi) (by simp [Node.isCompound])⟩) (ih he)
  | element names content ih =>
    exact buildUnary_again (fun hg hi => ⟨_, Graph.intern_yields (n := .element names _) hg
      (by simpa [Node.children] using hi) (by simp [Node.isCompound])⟩) (ih he)
  | typedString number => exact typedString_again number
  | reference name => cases he

/--
There is a term for the expression, and building it makes no new node.
-/
def IsWritten (s : Session) (id : ExprId) : Prop :=
  ∃ e : Term, e.isReferenceFree ∧ e.build s = .ok (id, s)

theorem IsWritten.binary {a b : ExprId} {op : ExprId → ExprId → GraphM ExprId}
    (join : Term → Term → Term) (ha : s.IsWritten a) (hb : s.IsWritten b)
    (hop : op a b s.schema.graph = .ok (id, s.schema.graph))
    (hfree : ∀ e e', (join e e').isReferenceFree = (e.isReferenceFree && e'.isReferenceFree))
    (hbuild : ∀ e e', (join e e').build =
      e.build >>= fun i => e'.build >>= fun j => onGraph fun _ => op i j) : s.IsWritten id := by
  obtain ⟨e, he, ha⟩ := ha
  obtain ⟨e', he', hb⟩ := hb
  refine ⟨join e e', by rw [hfree, he, he', Bool.and_self], ?_⟩
  rw [hbuild, bind_of_ok ha, bind_of_ok hb, onGraph_apply, hop]

theorem IsWritten.unary {a : ExprId} {op : ExprId → GraphM ExprId} (wrap : Term → Term)
    (ha : s.IsWritten a) (hop : op a s.schema.graph = .ok (id, s.schema.graph))
    (hfree : ∀ e, (wrap e).isReferenceFree = e.isReferenceFree)
    (hbuild : ∀ e, (wrap e).build = e.build >>= fun i => onGraph fun _ => op i) :
    s.IsWritten id := by
  obtain ⟨e, he, ha⟩ := ha
  refine ⟨wrap e, by rw [hfree, he], ?_⟩
  rw [hbuild, bind_of_ok ha, onGraph_apply, hop]

/--
Whatever has come up in a session, such as the state of a matcher, can be written as a term, if the
references have names.
-/
theorem isWritten (hs : s.Sound) (hnames : ∀ id r, s.Has id →
    s.schema.graph.store.node id = .reference r → ∃ name : String, s.bindings[name]? = some id)
    (id : ExprId) (hid : s.Has id) : s.IsWritten id := by
  have hnormal := hs.graph.normal
  have hbelow := s.schema.graph.store.node_below id
  have hoperand (a : ExprId) (ha : a ∈ (s.schema.graph.store.node id).children) : s.IsWritten a :=
    have hlt := hbelow a ha
    isWritten hs hnames a (Store.mem_of_mem_children hid ha)
  cases hn : s.schema.graph.store.node id with
  | epsilon =>
    obtain rfl := Store.eq_of_node_eq hid (Store.epsilon_mem _) (by rw [hn, Store.node_epsilon])
    exact ⟨.epsilon, rfl, rfl⟩
  | nullSet =>
    obtain rfl := Store.eq_nullSet_of_node hid hn
    exact ⟨.nullSet, rfl, rfl⟩
  | anyString =>
    obtain rfl := Store.eq_of_node_eq hid (Store.anyString_mem _) (by rw [hn, Store.node_anyString])
    exact ⟨.anyString, rfl, rfl⟩
  | choice a b =>
    rw [hn] at hoperand
    exact .binary .choice (hoperand a (by simp [Node.children]))
      (hoperand b (by simp [Node.children])) (Graph.choice_stored hnormal hid hn) (fun _ _ => rfl)
      fun _ _ => rfl
  | sequence a b =>
    rw [hn] at hoperand
    exact .binary .sequence (hoperand a (by simp [Node.children]))
      (hoperand b (by simp [Node.children])) (Graph.sequence_stored hnormal hid hn) (fun _ _ => rfl)
      fun _ _ => rfl
  | interleave a b =>
    rw [hn] at hoperand
    exact .binary .interleave (hoperand a (by simp [Node.children]))
      (hoperand b (by simp [Node.children])) (Graph.interleave_stored hnormal hid hn) (fun _ _ => rfl)
      fun _ _ => rfl
  | oneOrMore a =>
    rw [hn] at hoperand
    exact .unary .oneOrMore (hoperand a (by simp [Node.children])) (Graph.oneOrMore_stored hnormal hid hn)
      (fun _ => rfl) fun _ => rfl
  | mixed a =>
    rw [hn] at hoperand
    exact .unary .mixed (hoperand a (by simp [Node.children])) (Graph.mixed_stored hnormal hid hn)
      (fun _ => rfl) fun _ => rfl
  | «attribute» names content =>
    rw [hn] at hoperand
    exact .unary (.attribute names) (hoperand content (by simp [Node.children]))
      (Graph.intern_stored hid hn : Graph.attributeNamed names content _ = _) (fun _ => rfl)
      fun _ => rfl
  | element names content =>
    rw [hn] at hoperand
    exact .unary (.element names) (hoperand content (by simp [Node.children]))
      (Graph.intern_stored hid hn : Graph.elementNamed names content _ = _) (fun _ => rfl)
      fun _ => rfl
  | typedString number =>
    have hbuild : Graph.typedString number s.schema.graph = .ok (id, s.schema.graph) :=
      Graph.intern_stored hid hn
    refine ⟨.typedString number, rfl, ?_⟩
    rw [Term.build, onGraph_apply, hbuild]
  | reference r =>
    obtain ⟨name, hname⟩ := hnames id r hid hn
    refine ⟨.variable name, rfl, ?_⟩
    change found s.bindings[name]? (.unknownVariable name) s = _
    rw [hname]
    rfl
termination_by id.index

end Session

end TreeGrammar
