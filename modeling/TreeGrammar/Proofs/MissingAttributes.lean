import TreeGrammar.Proofs.StartTags

/-!
This module contains what is said about attributes that are missing. Attributes are found to be demanded
exactly where a start tag is refused without them, each of them is an attribute of the expression, and
nothing that the expression stands for does without all of them.
-/

namespace TreeGrammar

open Computability Relation StoreState

namespace Form

/--
The form `d` is a choice of attributes in `e`, and `e` cannot do without all of them.
-/
structure Demands (e d : Form) : Prop where
  attributes : ∀ x ∈ d.alternatives, x ∈ e.attributes
  ne_nullSet : d ≠ .nullSet
  discharge : (e.discharge .missing).value = .nullSet
  words : ∀ w ∈ e.language, ∃ x ∈ w, [x] ∈ d.language

variable {a b d e p q : Form} {pending : Pending}

theorem ne_nullSet_of_required (h : e.required.run.value = some d) : e ≠ .nullSet := by
  rintro rfl
  cases h

theorem Demands.nullable (h : e.Demands d) : d.nullable = false := by
  rw [← Bool.not_eq_true, nullable_iff_alternatives]
  rintro ⟨x, hx, hnullable⟩
  obtain ⟨names, content, rfl⟩ := exists_of_mem_attributes (h.attributes x hx)
  cases hnullable

theorem Demands.ne_epsilon (h : e.Demands d) : d ≠ .epsilon := by
  rintro rfl
  cases h.nullable

section Discharge

variable (ha : a ≠ .nullSet) (hb : b ≠ .nullSet)

include ha

theorem discharge_oneOrMore_eq_nullSet :
    ((oneOrMore a).discharge pending).value = .nullSet ↔ (a.discharge pending).value = .nullSet := by
  rw [discharge, Plan.value_bind]
  split
  . next hsame => exact iff_of_false (by simp) fun h => ha (hsame.symm.trans h)
  . refine ⟨fun h => ?_, fun h => by rw [h]; rfl⟩
    by_contra hne
    exact oneOrMore_ne_nullSet hne h

theorem discharge_mixed_eq_nullSet :
    ((mixed a).discharge pending).value = .nullSet ↔ (a.discharge pending).value = .nullSet := by
  rw [discharge, Plan.value_bind]
  split
  . next hsame => exact iff_of_false (by simp) fun h => ha (hsame.symm.trans h)
  . refine ⟨fun h => ?_, fun h => by rw [h]; rfl⟩
    by_contra hne
    exact mixed_ne_nullSet hne h

theorem discharge_choice_eq_nullSet : ((choice a b).discharge pending).value = .nullSet ↔
    (a.discharge pending).value = .nullSet ∧ (b.discharge pending).value = .nullSet := by
  rw [discharge, Plan.value_bind, Plan.value_bind]
  split
  . next hsame => exact iff_of_false (by simp) fun h => ha (hsame.1 ▸ h.1)
  . refine ⟨fun h => ?_, fun h => by rw [h.1, h.2]; rfl⟩
    by_contra hne
    exact choice_ne_nullSet (not_and_or.1 hne) h

include hb

theorem discharge_sequence_eq_nullSet : ((sequence a b).discharge pending).value = .nullSet ↔
    (a.discharge pending).value = .nullSet ∨ (b.discharge pending).value = .nullSet := by
  rw [discharge, Plan.value_bind, Plan.value_bind]
  split
  . next hsame => exact iff_of_false (by simp) (by simp [hsame.1, hsame.2, ha, hb])
  . exact sequence_eq_nullSet_iff

theorem discharge_interleave_eq_nullSet : ((interleave a b).discharge pending).value = .nullSet ↔
    (a.discharge pending).value = .nullSet ∨ (b.discharge pending).value = .nullSet := by
  rw [discharge, Plan.value_bind, Plan.value_bind]
  split
  . next hsame => exact iff_of_false (by simp) (by simp [hsame.1, hsame.2, ha, hb])
  . exact interleave_eq_nullSet_iff

end Discharge

theorem demanded_of_one (ha : a.Demands d ∨ d = .epsilon ∧ (a.discharge .missing).value ≠ .nullSet)
    (hattributes : e.attributes = a.attributes)
    (hdischarge : (e.discharge .missing).value = .nullSet ↔ (a.discharge .missing).value = .nullSet)
    (hwords : ∀ w ∈ e.language, ∃ u ∈ a.language, u ⊆ w) :
    e.Demands d ∨ d = .epsilon ∧ (e.discharge .missing).value ≠ .nullSet := by
  rcases ha with ha | ⟨rfl, haNe⟩
  . refine Or.inl ⟨?_, ha.ne_nullSet, hdischarge.2 ha.discharge, fun w hw => ?_⟩
    . rw [hattributes]
      exact ha.attributes
    . obtain ⟨u, hu, huw⟩ := hwords w hw
      obtain ⟨x, hx, hxd⟩ := ha.words u hu
      exact ⟨x, huw hx, hxd⟩
  . exact Or.inr ⟨rfl, mt hdischarge.1 haNe⟩

theorem demanded_of_both (ha : a.Demands p ∨ p = .epsilon ∧ (a.discharge .missing).value ≠ .nullSet)
    (hb : b.Demands q ∨ q = .epsilon ∧ (b.discharge .missing).value ≠ .nullSet)
    (hattributes : e.attributes = a.attributes ++ b.attributes)
    (hdischarge : (e.discharge .missing).value = .nullSet ↔
      (a.discharge .missing).value = .nullSet ∨ (b.discharge .missing).value = .nullSet)
    (hwords : ∀ w ∈ e.language, ∃ u ∈ a.language, ∃ v ∈ b.language, u ⊆ w ∧ v ⊆ w)
    (hd : d = if !p.nullable then p else if !q.nullable then q else .epsilon) :
    e.Demands d ∨ d = .epsilon ∧ (e.discharge .missing).value ≠ .nullSet := by
  rcases ha with ha | ⟨rfl, haNe⟩
  . rw [ha.nullable] at hd
    subst hd
    refine Or.inl ⟨fun x hx => ?_, ha.ne_nullSet, hdischarge.2 (Or.inl ha.discharge), ?_⟩
    . rw [hattributes]
      exact List.mem_append_left _ (ha.attributes x hx)
    . intro w hw
      obtain ⟨u, hu, _, _, huw, _⟩ := hwords w hw
      obtain ⟨x, hx, hxd⟩ := ha.words u hu
      exact ⟨x, huw hx, hxd⟩
  . rcases hb with hb | ⟨rfl, hbNe⟩
    . rw [hb.nullable] at hd
      subst hd
      refine Or.inl ⟨fun x hx => ?_, hb.ne_nullSet, hdischarge.2 (Or.inr hb.discharge), ?_⟩
      . rw [hattributes]
        exact List.mem_append_right _ (hb.attributes x hx)
      . intro w hw
        obtain ⟨_, _, v, hv, _, hvw⟩ := hwords w hw
        obtain ⟨x, hx, hxd⟩ := hb.words v hv
        exact ⟨x, hvw hx, hxd⟩
    . refine Or.inr ⟨hd, ?_⟩
      rw [ne_eq, hdischarge]
      exact not_or.2 ⟨haNe, hbNe⟩

/--
Either a form demands some of its attributes, and nothing is left without them, or it demands
nothing and can do without.
-/
theorem required_cases (h : e.required.run.value = some d) :
    e.Demands d ∨ d = .epsilon ∧ (e.discharge .missing).value ≠ .nullSet := by
  induction e generalizing d with
  | nullSet => cases h
  | epsilon | anyString | typedString | element =>
    cases h
    exact Or.inr ⟨rfl, by simp [discharge]⟩
  | «attribute» names content ih =>
    cases h
    refine Or.inl ⟨fun x hx => hx, by simp, rfl, ?_⟩
    rintro _ ⟨name, value, scope, hname, hvalue, rfl⟩
    exact ⟨_, List.mem_singleton_self _, name, value, scope, hname, hvalue, rfl⟩
  | oneOrMore a ih =>
    have hne := ne_nullSet_of_required (e := a) h
    refine demanded_of_one (ih h) rfl (discharge_oneOrMore_eq_nullSet hne) ?_
    rintro _ ⟨u, hu, v, _, rfl⟩
    exact ⟨u, hu, List.subset_append_left _ _⟩
  | mixed a ih =>
    have hne := ne_nullSet_of_required (e := a) h
    refine demanded_of_one (ih h) rfl (discharge_mixed_eq_nullSet hne) fun w hw => ?_
    exact ⟨_, hw, fun _ => List.mem_of_mem_filter⟩
  | reference r a ih =>
    have hne := ne_nullSet_of_required (e := a) h
    have hdischarge : ((reference r a).discharge .missing).value = .nullSet ↔
        (a.discharge .missing).value = .nullSet := by
      rw [discharge, Plan.value_bind, Plan.value_pure]
      split
      . next hsame => exact iff_of_false (by simp) fun h => hne (hsame.symm.trans h)
      . rfl
    exact demanded_of_one (ih h) rfl hdischarge fun w hw => ⟨w, hw, List.Subset.refl _⟩
  | choice a b iha ihb =>
    rw [required, Plan.value_attempt] at h
    obtain ⟨p, hp, h⟩ := Option.bind_eq_some_iff.1 h
    rw [Plan.value_attempt] at h
    obtain ⟨q, hq, h⟩ := Option.bind_eq_some_iff.1 h
    have hdischarge : ((choice a b).discharge .missing).value = .nullSet ↔ _ :=
      discharge_choice_eq_nullSet (ne_nullSet_of_required hp)
    rcases iha hp with ha | ⟨rfl, haNe⟩
    . rcases ihb hq with hb | ⟨rfl, hbNe⟩
      . rw [ha.nullable, hb.nullable, if_neg (by simp)] at h
        obtain rfl := Option.some.inj ((Plan.value_lift _).symm.trans h)
        refine Or.inl ⟨fun x hx => ?_, choice_ne_nullSet (Or.inl ha.ne_nullSet),
          hdischarge.2 ⟨ha.discharge, hb.discharge⟩, fun w hw => ?_⟩
        . exact List.mem_append.2
            ((mem_alternatives_choice.1 hx).imp (ha.attributes x) (hb.attributes x))
        . rw [language, languageWith_choice]
          rcases hw with hw | hw
          . obtain ⟨x, hx, hxp⟩ := ha.words w hw
            exact ⟨x, hx, Or.inl hxp⟩
          . obtain ⟨x, hx, hxq⟩ := hb.words w hw
            exact ⟨x, hx, Or.inr hxq⟩
      . rw [ha.nullable] at h
        cases h
        exact Or.inr ⟨rfl, fun hnull => hbNe (hdischarge.1 hnull).2⟩
    . cases h
      exact Or.inr ⟨rfl, fun hnull => haNe (hdischarge.1 hnull).1⟩
  | sequence a b iha ihb =>
    rw [required, Plan.value_attempt] at h
    obtain ⟨p, hp, h⟩ := Option.bind_eq_some_iff.1 h
    rw [Plan.value_attempt] at h
    obtain ⟨q, hq, h⟩ := Option.bind_eq_some_iff.1 h
    refine demanded_of_both (iha hp) (ihb hq) rfl (discharge_sequence_eq_nullSet
      (ne_nullSet_of_required hp) (ne_nullSet_of_required hq)) ?_ (Option.some.inj h).symm
    rintro _ ⟨u, hu, v, hv, rfl⟩
    exact ⟨u, hu, v, hv, List.subset_append_left _ _, List.subset_append_right _ _⟩
  | interleave a b iha ihb =>
    rw [required, Plan.value_attempt] at h
    obtain ⟨p, hp, h⟩ := Option.bind_eq_some_iff.1 h
    rw [Plan.value_attempt] at h
    obtain ⟨q, hq, h⟩ := Option.bind_eq_some_iff.1 h
    refine demanded_of_both (iha hp) (ihb hq) rfl (discharge_interleave_eq_nullSet
      (ne_nullSet_of_required hp) (ne_nullSet_of_required hq)) ?_ (Option.some.inj h).symm
    rintro w ⟨u, hu, v, hv, hw⟩
    exact ⟨u, hu, v, hv, fun x hx => (hw.mem_iff x).2 (Or.inl hx),
      fun x hx => (hw.mem_iff x).2 (Or.inr hx)⟩

theorem required_eq_epsilon_iff (h : e.required.run.value = some d) :
    d = .epsilon ↔ (e.discharge .missing).value ≠ .nullSet := by
  rcases required_cases h with hdemands | ⟨rfl, hne⟩
  . exact iff_of_false hdemands.ne_epsilon (not_not.2 hdemands.discharge)
  . exact iff_of_true rfl hne

end Form

namespace Store

/--
The expression is one of which `p` holds, or a choice between such.
-/
inductive IsChoiceOf (s : Store) (p : ExprId → Prop) : ExprId → Prop where
  | single {id} : p id → IsChoiceOf s p id
  | choice {id a b} : s.node id = .choice a b → IsChoiceOf s p a → IsChoiceOf s p b →
    IsChoiceOf s p id

variable {s : Store} {defs : Definitions} {id a : ExprId} {d e x : Form} {names : NameClass}
variable {content : ExprId} {p : ExprId → Prop}

theorem Shows.isChoiceOf (h : s.Shows defs id d) (hd : d.IsReduced) (hne : d ≠ .nullSet)
    (hp : ∀ x ∈ d.alternatives, ∀ a, s.Shows defs a x → p a) : s.IsChoiceOf p id := by
  induction d using Form.alternatives_induction generalizing id with
  | choice a b iha ihb =>
    obtain ⟨i, j, hid, ha, hb⟩ := h
    obtain ⟨⟨haNe, hbNe⟩, haReduced, hbReduced⟩ := hd
    refine .choice (node_eq_of_find? hid) (iha ha haReduced haNe fun x hx => ?_)
      (ihb hb hbReduced hbNe fun x hx => ?_)
    . exact hp x (List.mem_append_left _ hx)
    . exact hp x (List.mem_append_right _ hx)
  | other d hchoice =>
    rw [Form.alternatives_of_ne hchoice hne] at hp
    exact .single (hp d List.mem_cons_self id h)

theorem Shows.mem_alternatives (h : s.Shows defs id d) (hx : x ∈ d.alternatives)
    (ha : s.Shows defs a x) : a ∈ s.alternatives id := by
  have halternatives := h.alternatives
  generalize s.alternatives id = ids, d.alternatives = forms at halternatives hx ⊢
  induction halternatives with
  | nil => cases hx
  | cons hfirst _ ih =>
    rcases List.mem_cons.1 hx with rfl | hx
    . exact List.mem_cons.2 (Or.inl (ha.injective hfirst))
    . exact List.mem_cons_of_mem _ (ih hx)

theorem Shows.exists_of_mem_alternatives (h : s.Shows defs id d) (ha : a ∈ s.alternatives id) :
    ∃ x ∈ d.alternatives, s.Shows defs a x := by
  have halternatives := h.alternatives
  generalize s.alternatives id = ids, d.alternatives = forms at halternatives ha ⊢
  induction halternatives with
  | nil => cases ha
  | @cons _ form _ _ hfirst _ ih =>
    rcases List.mem_cons.1 ha with rfl | ha
    . exact ⟨form, List.mem_cons_self, hfirst⟩
    . obtain ⟨x, hx, hshows⟩ := ih ha
      exact ⟨x, List.mem_cons_of_mem _ hx, hshows⟩

theorem Shows.exposesNullSet (h : s.Shows defs id e) (hnone : e.required.run.value = none) :
    ExposesNullSet s defs id := by
  have operand {id i : ExprId} {n : Node} (hid : s.find? n = some id) (hn : n.isCompound)
      (hi : i ∈ n.children) (hexposes : ExposesNullSet s defs i) : ExposesNullSet s defs id := by
    rw [← node_eq_of_find? hid] at hn hi
    exact hexposes.part (.of_isCompound hn hi)
  induction e generalizing id with
  | nullSet => exact ⟨id, .refl, node_eq_of_find? h⟩
  | epsilon | anyString | typedString | element | «attribute» => cases hnone
  | oneOrMore a ih | mixed a ih =>
    obtain ⟨i, hid, ha⟩ := h
    exact operand hid rfl (by simp [Node.children]) (ih ha hnone)
  | reference r a ih =>
    obtain ⟨hid, i, hr, ha⟩ := h
    have hn := node_eq_of_find? hid
    exact (ih ha hnone).part ⟨.target hn hr, by simp [hn]⟩
  | choice a b iha ihb | sequence a b iha ihb | interleave a b iha ihb =>
    obtain ⟨i, j, hid, ha, hb⟩ := h
    cases hp : a.required.run.value with
    | none => exact operand hid rfl (by simp [Node.children]) (iha ha hp)
    | some p =>
      cases hq : b.required.run.value with
      | none => exact operand hid rfl (by simp [Node.children]) (ihb hb hq)
      | some q =>
        rw [Form.required, Plan.value_attempt, hp, Option.bind_some, Plan.value_attempt, hq,
          Option.bind_some] at hnone
        split at hnone <;> cases hnone

theorem describe_isInfix (ha : a ∈ s.alternatives id) (hn : s.node a = .attribute names content) :
    names.describe.toList <:+: (s.describeAttributes id).toList := by
  have hjoin (text : String) (n : Node) : text.toList <+: (describeAttributes.join text n).toList := by
    cases n with
    | «attribute» names _ =>
      rw [describeAttributes.join, String.toList_append]
      split
      . exact List.prefix_append _ _
      . rw [String.toList_append, List.append_assoc]
        exact List.prefix_append _ _
    | _ => exact List.prefix_rfl
  have hkeeps (ids : List ExprId) (text : String) :
      text.toList <+:
        (ids.foldl (fun text a => describeAttributes.join text (s.node a)) text).toList := by
    induction ids generalizing text with
    | nil => exact List.prefix_rfl
    | cons i ids ih => exact (hjoin text (s.node i)).trans (ih _)
  obtain ⟨before, after, hids⟩ := List.append_of_mem ha
  rw [describeAttributes, hids, List.foldl_append, List.foldl_cons, hn, describeAttributes.join]
  refine (List.IsSuffix.isInfix ?_).trans (hkeeps after _).isInfix
  rw [String.toList_append]
  exact List.suffix_append _ _

end Store

theorem Graph.required_returns_of_eq_some {g : Graph} {defs : Definitions} {id : ExprId} {d e : Form}
    (hg : g.Sound defs) (h : g.store.Shows defs id e) (hd : e.required.run.value = some d) :
    Returns defs g ((required defs id).run' ∅) (Fault.Admissible True)
      fun r h => h.store.Shows defs r d := by
  refine Returns.mono (required_carries hg h) ?_ ?_
  . rintro f (⟨⟨limit, rfl⟩, -⟩ | ⟨rfl, hnone⟩)
    . trivial
    . rw [hd] at hnone
      cases hnone
  . rintro r h _ _ ⟨⟨d', hd', hr⟩, -⟩
    rw [hd] at hd'
    cases hd'
    exact hr

namespace Session

def required (id : ExprId) : SessionM ExprId :=
  onGraph fun defs => (Graph.required defs id).run' ∅

def HasAttribute (s : Session) (id a : ExprId) : Prop :=
  ReflTransGen (Exposes s.schema.graph.store s.schema.definitions) a id ∧
    ∃ names content, s.schema.graph.store.node a = .attribute names content

/--
In the session `t`, `r` has been found to be what the expression demands.
-/
structure Demands (s : Session) (id r : ExprId) (t : Session) : Prop where
  choice : r = .epsilon ∨ t.schema.graph.store.IsChoiceOf (s.HasAttribute id) r
  ne_epsilon_iff : ∀ u, s.Develops u → u.Completes (discharge .missing id) fun d _ =>
    r ≠ .epsilon ↔ d = .nullSet
  words : r ≠ .epsilon → ∀ w ∈ s.language id, ∃ x ∈ w, x.isAttribute ∧
    ∃ a ∈ t.schema.graph.store.alternatives r, s.HasAttribute id a ∧ [x] ∈ s.language a

/--
What the end of the start tag of the element `e`, of which `id` is left, adds to the report.
-/
structure ReportsMissing (s : Session) (id : ExprId) (e : OpenElement) (v v' : Validation)
    (t : Session) : Prop where
  eq_iff : ∀ u, s.Develops u → u.Completes (required id) fun r _ =>
    v' = v ↔ e.faulty = true ∨ r = .epsilon
  names : v' ≠ v → ∃ r, r ≠ .epsilon ∧ s.Demands id r t ∧
    v' = v.report (.missingAttributes e.name (t.schema.graph.store.describeAttributes r)) ∧
    t.schema.graph.store.alternatives r ≠ [] ∧
    ∀ a ∈ t.schema.graph.store.alternatives r, ∃ names content,
      t.schema.graph.store.node a = .attribute names content ∧
        names.describe.toList <:+: (t.schema.graph.store.describeAttributes r).toList

variable {s t : Session} {id r : ExprId} {d e : Form} {m : Matcher} {name : String}

theorem required_completes (hs : s.Sound) (h : s.Shows id e) (hd : e.required.run.value = some d) :
    s.Completes (required id) fun r t => s.schema ≤ t.schema ∧ t.Sound ∧ t.Shows r d := by
  refine .of_returns hs (Graph.required_returns_of_eq_some hs.graph h hd) trivial
    (fun _ => (Graph.requiredFrom_uniform [] id).run' ∅) fun r t hle ht hdefs hr => ⟨hle, ht, ?_⟩
  rwa [Shows, hdefs]

theorem exists_hasAttribute {x : Form} (h : s.Shows id e) (hx : x ∈ e.attributes) :
    ∃ a, s.HasAttribute id a ∧ s.Shows a x := by
  obtain ⟨names, content, rfl⟩ := Form.exists_of_mem_attributes hx
  obtain ⟨a, hexposes, ha⟩ := Store.Shows.exists_exposed h hx
  have ⟨c, hid, _⟩ := ha
  exact ⟨a, ⟨hexposes, names, c, Store.node_eq_of_find? hid⟩, ha⟩

theorem Demands.of_shows (h : s.Shows id e) (hd : e.required.run.value = some d) (hs : s.Sound)
    (hst : s.schema ≤ t.schema) (ht : t.Sound) (hr : t.Shows r d) : s.Demands id r t := by
  have hcases := Form.required_cases hd
  refine ⟨?_, fun u hsu => ?_, fun hne w hw => ?_⟩
  . rcases hcases with hdemands | ⟨rfl, -⟩
    . refine Or.inr (hr.isChoiceOf (hr.isReduced ht.graph.reduced) hdemands.ne_nullSet ?_)
      intro x hx i hi
      obtain ⟨a, ha, hshows⟩ := exists_hasAttribute h (hdemands.attributes x hx)
      rwa [hi.injective (hshows.of_le hst)]
    . exact Or.inl (hr.injective (.epsilon _))
  . obtain ⟨hle, hu⟩ := hsu.le_and_sound hs
    refine (discharge_completes hu (h.of_le hle)).imp ?_
    rintro d' v - ⟨-, -, hd'⟩
    rw [Store.Shows.eq_nullSet_iff hd', ne_eq, Store.Shows.eq_epsilon_iff hr,
      Form.required_eq_epsilon_iff hd, not_not]
  . rcases hcases with hdemands | ⟨rfl, -⟩
    . rw [language, Store.Shows.language_eq h] at hw
      obtain ⟨x, hx, hxd⟩ := hdemands.words w hw
      obtain ⟨y, hy, hxy⟩ := Form.mem_languageWith_iff_alternatives.1 hxd
      obtain ⟨a, ha, hshows⟩ := exists_hasAttribute h (hdemands.attributes y hy)
      have hmem : [x] ∈ s.language a := by rwa [language, Store.Shows.language_eq hshows]
      refine ⟨x, hx, ?_, a, Store.Shows.mem_alternatives hr hy (hshows.of_le hst), ha, hmem⟩
      obtain ⟨-, names, content, hn⟩ := ha
      rw [language, Store.language_of_attribute hn] at hmem
      obtain ⟨_, _, _, _, _, heq⟩ := hmem
      cases heq
      rfl
    . exact absurd (hr.injective (.epsilon _)) hne

theorem validation_endAttributes_returns {e : OpenElement} {v : Validation} {defs : Definitions}
    {g : Graph} (hg : g.Sound defs) (he : e.matcher.IsVetted g.store defs)
    (hd : (e.matcher.form g.store defs).state.required.run.value = some d) :
    Graph.Returns defs g (Validation.endAttributes defs (e, v)) (Fault.Admissible True) fun p h =>
      if e.faulty = true ∨ d = .epsilon then p.2 = v else
        ∃ r, h.store.Shows defs r d ∧
          p.2 = v.report (.missingAttributes e.name (h.store.describeAttributes r)) := by
  have hgrant {h : Graph} {v' : Validation} (hh : h.Sound defs) (hgh : g ≤ h) :
      Graph.Returns defs h (do
        let matcher ← e.matcher.grantAttributes defs
        return ({ e with matcher, faulty := true }, v')) (Fault.Admissible True)
        fun p _ => p.2 = v' :=
    (Validation.grant_returns hh (he.of_le (Graph.store_le hgh) le_rfl hg.within)).mono
      (fun _ hf => hf) fun _ _ _ _ hp => hp.2.2.2.2
  have hrequired := Form.required_eq_epsilon_iff hd
  refine Graph.Returns.bind (Matcher.endAttributes?_operated hg he) ?_
  rintro m? h hgh hh hm?
  have hvalue := hm?.form
  rw [Form.Matcher.operate?, Form.Matcher.value_endAttributes?] at hvalue
  split at hvalue
  . next hnull =>
    have hne : d ≠ .epsilon := fun hd => hrequired.1 hd hnull
    rw [Option.map_eq_none_iff.1 hvalue]
    dsimp only
    split
    . next hfaulty =>
      refine (hgrant hh hgh).mono (fun _ hf => hf) fun p _ _ _ hp => ?_
      rwa [if_pos (Or.inl hfaulty)]
    . next hflawless =>
      have hrequired := Graph.required_returns_of_eq_some hh
        ((he.shows hg.within).state.of_le (Graph.store_le hgh) le_rfl) hd
      refine Graph.Returns.bind hrequired ?_
      intro r k hhk hk hr
      refine Graph.Returns.get rfl ?_
      refine (hgrant hk (le_trans hgh hhk)).mono (fun _ hf => hf) fun p l hkl _ hp => ?_
      rw [if_neg (not_or.2 ⟨hflawless, hne⟩)]
      have hrl := hr.of_le (Graph.store_le hkl) le_rfl
      refine ⟨r, hrl, hp.trans ?_⟩
      rw [Graph.describeAttributes_eq hr, Graph.describeAttributes_eq hrl]
  . next hnull =>
    obtain ⟨m', rfl, -⟩ := Option.map_eq_some_iff.1 hvalue
    refine .pure hh ?_
    rw [if_pos (Or.inr (hrequired.2 hnull))]

theorem endAttributes_reports {e : OpenElement} {v : Validation} (hs : s.Sound)
    (he : e.matcher.IsVetted s.schema.graph.store s.schema.definitions)
    (hd : (e.matcher.form s.schema.graph.store s.schema.definitions).state.required.run.value =
      some d) :
    s.Completes (onGraph fun defs => Validation.endAttributes defs (e, v)) fun p t =>
      s.ReportsMissing e.matcher.state e v p.2 t := by
  have h : s.Shows e.matcher.state _ := (he.shows hs.graph.within).state
  refine .of_returns hs (validation_endAttributes_returns hs.graph he hd) trivial
    (fun _ => Validation.endAttributes_uniform (e, v)) fun p t hst ht hdefs hp => ?_
  have hreport {error : ValidationError} : v.report error ≠ v := fun heq => by
    have herrors := congrArg (fun v => v.errors.length) heq
    simp [Validation.report] at herrors
  refine ⟨fun u hsu => ?_, fun hne => ?_⟩
  . obtain ⟨hle, hu⟩ := hsu.le_and_sound hs
    refine (required_completes hu (h.of_le hle) hd).imp ?_
    rintro r w - ⟨-, -, hr⟩
    rw [Store.Shows.eq_epsilon_iff hr]
    split at hp
    . next hquiet => exact iff_of_true hp hquiet
    . next hreported =>
      obtain ⟨_, -, hp⟩ := hp
      exact iff_of_false (hp ▸ hreport) hreported
  . split at hp
    . exact absurd hp hne
    . next hreported =>
      obtain ⟨r, hr, hp⟩ := hp
      have hr : t.Shows r d := by rwa [Shows, hdefs]
      have hrNe : r ≠ .epsilon := mt (Store.Shows.eq_epsilon_iff hr).1 fun hd => hreported (Or.inr hd)
      have hdemands := Demands.of_shows h hd hs hst ht hr
      have hforms := (Form.required_cases hd).resolve_right fun h => hreported (Or.inr h.1)
      have hrNull := mt (Store.Shows.eq_nullSet_iff hr).1 hforms.ne_nullSet
      refine ⟨r, hrNe, hdemands, hp, ht.graph.reduced.alternatives_ne_nil hr.mem hrNull, fun a ha => ?_⟩
      obtain ⟨x, hx, hshows⟩ := Store.Shows.exists_of_mem_alternatives hr ha
      obtain ⟨names, _, rfl⟩ := Form.exists_of_mem_attributes (hforms.attributes x hx)
      obtain ⟨content, hfind, -⟩ := hshows
      have hn := Store.node_eq_of_find? hfind
      exact ⟨names, content, hn, Store.describe_isInfix ha hn⟩

/--
The attributes that a checked expression demands, where no null set is in the way, are found and are
attributes of the expression. They are what a start tag is refused for and what is reported then.
-/
theorem missing_attributes_found (hs : s.Arises) (hid : s.Has id)
    (hcheck : s.schema.check id = .ok ())
    (hnull : ¬ ExposesNullSet s.schema.graph.store s.schema.definitions id) :
    s.Completes (required id) (s.Demands id) ∧
      (∀ name m, s.matchers[name]? = some m → m.state = id → s.Checks m →
        s.Completes (perform (.endAttributes name)) fun answer _ => ∀ u, s.Develops u →
          u.Completes (required id) fun r _ => answer.fits = false ↔ r ≠ .epsilon) ∧
      ∀ e v, e.matcher.state = id → e.matcher.Within s.schema.graph.store → s.Checks e.matcher →
        s.Completes (onGraph fun defs => Validation.endAttributes defs (e, v)) fun p t =>
          s.ReportsMissing id e v p.2 t := by
  have hs := hs.sound
  have hfound {e : Form} (h : s.Shows id e) : ∃ d, e.required.run.value = some d :=
    Option.ne_none_iff_exists'.1 fun hnone => hnull (Store.Shows.exposesNullSet h hnone)
  refine ⟨?_, ?_, ?_⟩
  . have hshows := shows_of_check hs hid hcheck
    obtain ⟨d, hd⟩ := hfound hshows
    refine (required_completes hs hshows hd).imp ?_
    rintro r t - ⟨hst, ht, hr⟩
    exact .of_shows hshows hd hs hst ht hr
  . rintro name m hm rfl hchecks
    have hshows : s.Shows m.state _ := (hchecks.shows hs hm).state
    obtain ⟨d, hd⟩ := hfound hshows
    refine (endAttributes_planned hs hm hchecks).imp ?_
    rintro answer _ - ⟨-, hrefused⟩ u hsu
    obtain ⟨hle, hu⟩ := hsu.le_and_sound hs
    refine (required_completes hu (hshows.of_le hle) hd).imp ?_
    rintro r v - ⟨-, -, hr⟩
    rw [hrefused, ne_eq, Store.Shows.eq_epsilon_iff hr, Form.required_eq_epsilon_iff hd, not_not]
  . rintro e v rfl hwithin hchecks
    have hvetted := hchecks.isVetted hwithin
    obtain ⟨d, hd⟩ := hfound (hvetted.shows hs.graph.within).state
    exact endAttributes_reports hs hvetted hd

/--
One of two attributes is demanded beside a reference, and the start tag is refused without them.
-/
theorem missing_attributes_found_reference :
    ∃ s id r t m answer u p w, s.Arises ∧ s.Has id ∧ s.schema.check id = .ok () ∧
      ¬ ExposesNullSet s.schema.graph.store s.schema.definitions id ∧
      required id s = .ok (r, t) ∧ r ≠ .epsilon ∧ s.Demands id r t ∧
      s.matchers["m"]? = some m ∧ m.state = id ∧ s.Checks m ∧
      perform (.endAttributes "m") s = .ok (answer, u) ∧ answer.fits = false ∧
      (∀ v, s.Develops v → v.Completes (required id) fun r _ => answer.fits = false ↔ r ≠ .epsilon) ∧
      onGraph (fun defs => Validation.endAttributes defs
        ({ matcher := m, name := "e" }, { document := { matcher := m, name := "document" } })) s =
          .ok (p, w) ∧
      p.2.errors = [.missingAttributes "e" "a | b"] ∧
      s.ReportsMissing id { matcher := m, name := "e" }
        { document := { matcher := m, name := "document" } } p.2 w := by
  let named (name : String) : Term := .attribute (.only ⟨"", name⟩) .anyString
  let v (m : Matcher) : Validation := { document := { matcher := m, name := "document" } }
  obtain ⟨s, hs, hp⟩ := Reachable.of_leadsTo (fun _ => .string)
    [.bind "r" (.reference "r"), .define (.variable "r") (.optional (.element .any .epsilon)),
      .bind "e" (.interleave (.choice (named "a") (named "b")) (.variable "r")),
      .createMatcher "m" (.variable "e")]
    (fun s => s.bindings["e"]?.any fun id => s.matchers["m"]?.any fun m =>
      s.schema.check id = .ok () && m.state = id && m.slots.isEmpty &&
        (required id s).toOption.any (fun p => p.1 ≠ .epsilon) &&
        yields (.endAttributes "m") s (fun answer _ => !answer.fits) &&
        (onGraph (fun defs => Validation.endAttributes defs ({ matcher := m, name := "e" }, v m))
          s).toOption.any fun p => p.1.2.errors = [.missingAttributes "e" "a | b"])
    (by simp [Command.isLawful]) (by decide +kernel)
  obtain ⟨id, hid, hp⟩ := (Option.any_eq_true _ _).1 hp
  obtain ⟨m, hm, hp⟩ := (Option.any_eq_true _ _).1 hp
  simp only [Bool.and_eq_true, decide_eq_true_eq, List.isEmpty_iff] at hp
  obtain ⟨⟨⟨⟨⟨hcheck, hstate⟩, hslots⟩, hrequired⟩, hyields⟩, hreport⟩ := hp
  have hid := hs.sound.bindings _ id hid
  have hchecks : s.Checks m := ⟨hstate ▸ hcheck, by simp [hslots]⟩
  obtain ⟨⟨r, t⟩, hrun, hr⟩ := exists_of_any_toOption hrequired
  obtain ⟨answer, u, hperform, hrefused⟩ := yields_iff.1 hyields
  obtain ⟨⟨p, w⟩, hend, herrors⟩ := exists_of_any_toOption hreport
  simp only [decide_eq_true_eq] at hr herrors
  -- the search would not have come to an end
  have hnull : ¬ ExposesNullSet s.schema.graph.store s.schema.definitions id := by
    have hreturns : Returns True s (required id) _ _ :=
      onGraph_returns hs.sound (Graph.run_required_returns hs.sound.graph hid)
    exact (hreturns.ok r t hrun).2.2.1
  obtain ⟨hfound, hends, hreports⟩ := missing_attributes_found hs.arises hid hcheck hnull
  exact ⟨s, id, r, t, m, answer, u, p, w, hs.arises, hid, hcheck, hnull, hrun, hr,
    hfound.ok r t hrun, hm, hstate, hchecks, hperform, by simpa using hrefused,
    (hends "m" m hm hstate hchecks).ok answer u hperform, hend, herrors,
    (hreports _ _ hstate (hs.sound.matchers "m" m hm) hchecks).ok p w hend⟩

end Session

end TreeGrammar
