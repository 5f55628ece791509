import TreeGrammar.Proofs.Construction
import TreeGrammar.Proofs.Form

/-!
This module contains which expressions have which form. Since each node is stored once, an expression
has one form and a form belongs to one expression, and the form stays when the schema grows. So the
form of an expression tells what can be told of it without its number and the history of the store.
-/

namespace TreeGrammar

namespace Store

/--
The expression has the form.
-/
def Shows (s : Store) (defs : Definitions) (id : ExprId) : Form → Prop
  | .epsilon => s.find? .epsilon = some id
  | .nullSet => s.find? .nullSet = some id
  | .anyString => s.find? .anyString = some id
  | .typedString type => s.find? (.typedString type.number) = some id ∧ type = defs.type type.number
  | .attribute names content => ∃ c, s.find? (.attribute names c) = some id ∧ s.Shows defs c content
  | .element head => s.find? (.element head.names head.content) = some id ∧ head.id = id
  | .choice a b => ∃ i j, s.find? (.choice i j) = some id ∧ s.Shows defs i a ∧ s.Shows defs j b
  | .sequence a b => ∃ i j, s.find? (.sequence i j) = some id ∧ s.Shows defs i a ∧ s.Shows defs j b
  | .interleave a b =>
    ∃ i j, s.find? (.interleave i j) = some id ∧ s.Shows defs i a ∧ s.Shows defs j b
  | .oneOrMore a => ∃ i, s.find? (.oneOrMore i) = some id ∧ s.Shows defs i a
  | .mixed a => ∃ i, s.find? (.mixed i) = some id ∧ s.Shows defs i a
  | .reference r target =>
    s.find? (.reference r) = some id ∧ ∃ i, defs.target? r = some i ∧ s.Shows defs i target

def Knows (s : Store) (defs : Definitions) (e : Form) : Prop :=
  ∃ id, s.Shows defs id e

variable {s t u : Store} {defs defs' : Definitions} {id i j : ExprId} {e e' : Form}
variable {built built' : List Form}

namespace Shows

theorem mem (h : s.Shows defs id e) : id ∈ s := by
  cases e with
  | epsilon | nullSet | anyString => exact mem_of_find? h
  | typedString | element | reference => exact mem_of_find? h.1
  | «attribute» | oneOrMore | mixed =>
    obtain ⟨_, h, _⟩ := h
    exact mem_of_find? h
  | choice | sequence | interleave =>
    obtain ⟨_, _, h, _⟩ := h
    exact mem_of_find? h

theorem of_le (h : s.Shows defs id e) (hst : s ≤ t) (hdefs : defs ≤ defs') :
    t.Shows defs' id e := by
  induction e generalizing id with
  | epsilon | nullSet | anyString => exact find?_of_le hst h
  | typedString type => exact ⟨find?_of_le hst h.1, h.2.trans (Definitions.type_eq hdefs _).symm⟩
  | element => exact ⟨find?_of_le hst h.1, h.2⟩
  | «attribute» names a ih | oneOrMore a ih | mixed a ih =>
    obtain ⟨i, hid, ha⟩ := h
    exact ⟨i, find?_of_le hst hid, ih ha⟩
  | choice a b iha ihb | sequence a b iha ihb | interleave a b iha ihb =>
    obtain ⟨i, j, hid, ha, hb⟩ := h
    exact ⟨i, j, find?_of_le hst hid, iha ha, ihb hb⟩
  | reference r a ih =>
    obtain ⟨hid, i, hr, ha⟩ := h
    exact ⟨find?_of_le hst hid, i, Definitions.target?_of_le hdefs hr, ih ha⟩

theorem of_ge (h : t.Shows defs id e) (hst : s ≤ t) (hwithin : defs.Within s) (hid : id ∈ s) :
    s.Shows defs id e := by
  have child {id : ExprId} {n : Node} {i : ExprId} (hid : id ∈ s) (hn : s.find? n = some id)
      (hi : i ∈ n.children) : i ∈ s :=
    mem_of_mem_children hid (by rwa [node_eq_of_find? hn])
  induction e generalizing id with
  | epsilon | nullSet | anyString => exact find?_of_ge hst hid h
  | typedString | element => exact ⟨find?_of_ge hst hid h.1, h.2⟩
  | «attribute» names a ih | oneOrMore a ih | mixed a ih =>
    obtain ⟨i, hn, ha⟩ := h
    have hn := find?_of_ge hst hid hn
    exact ⟨i, hn, ih ha (child hid hn (by simp [Node.children]))⟩
  | choice a b iha ihb | sequence a b iha ihb | interleave a b iha ihb =>
    obtain ⟨i, j, hn, ha, hb⟩ := h
    have hn := find?_of_ge hst hid hn
    exact ⟨i, j, hn, iha ha (child hid hn (by simp [Node.children])),
      ihb hb (child hid hn (by simp [Node.children]))⟩
  | reference r a ih =>
    obtain ⟨hn, i, hr, ha⟩ := h
    exact ⟨find?_of_ge hst hid hn, i, hr, ih ha (hwithin r i hr)⟩

theorem form_of_node (h : s.Shows defs id e) :
    match s.node id with
    | .epsilon => e = .epsilon
    | .nullSet => e = .nullSet
    | .anyString => e = .anyString
    | .typedString number => e = .typedString (defs.type number)
    | .attribute names c => ∃ a, e = .attribute names a ∧ s.Shows defs c a
    | .element names content => e = .element ⟨id, names, content⟩
    | .choice i j => ∃ a b, e = .choice a b ∧ s.Shows defs i a ∧ s.Shows defs j b
    | .sequence i j => ∃ a b, e = .sequence a b ∧ s.Shows defs i a ∧ s.Shows defs j b
    | .interleave i j => ∃ a b, e = .interleave a b ∧ s.Shows defs i a ∧ s.Shows defs j b
    | .oneOrMore i => ∃ a, e = .oneOrMore a ∧ s.Shows defs i a
    | .mixed i => ∃ a, e = .mixed a ∧ s.Shows defs i a
    | .reference r => ∃ i a, e = .reference r a ∧ defs.target? r = some i ∧ s.Shows defs i a := by
  cases e with
  | epsilon | nullSet | anyString =>
    rw [node_eq_of_find? h]
  | typedString type =>
    rw [node_eq_of_find? h.1]
    exact congrArg Form.typedString h.2
  | element head =>
    obtain ⟨hid, rfl⟩ := h
    rw [node_eq_of_find? hid]
  | «attribute» names a | oneOrMore a | mixed a =>
    obtain ⟨i, hid, ha⟩ := h
    rw [node_eq_of_find? hid]
    exact ⟨a, rfl, ha⟩
  | choice a b | sequence a b | interleave a b =>
    obtain ⟨i, j, hid, ha, hb⟩ := h
    rw [node_eq_of_find? hid]
    exact ⟨a, b, rfl, ha, hb⟩
  | reference r a =>
    obtain ⟨hid, i, hr, ha⟩ := h
    rw [node_eq_of_find? hid]
    exact ⟨i, a, rfl, hr, ha⟩

theorem unique (h : s.Shows defs id e) (h' : s.Shows defs id e') : e = e' := by
  induction e generalizing id e' with
  | epsilon | nullSet | anyString =>
    have hform := h'.form_of_node
    rw [node_eq_of_find? h] at hform
    exact hform.symm
  | typedString type =>
    have hform := h'.form_of_node
    rw [node_eq_of_find? h.1] at hform
    rw [hform, ← h.2]
  | element head =>
    obtain ⟨hid, rfl⟩ := h
    have hform := h'.form_of_node
    rw [node_eq_of_find? hid] at hform
    exact hform.symm
  | «attribute» names a ih | oneOrMore a ih | mixed a ih =>
    obtain ⟨i, hid, ha⟩ := h
    have hform := h'.form_of_node
    rw [node_eq_of_find? hid] at hform
    obtain ⟨a', rfl, ha'⟩ := hform
    rw [ih ha ha']
  | choice a b iha ihb | sequence a b iha ihb | interleave a b iha ihb =>
    obtain ⟨i, j, hid, ha, hb⟩ := h
    have hform := h'.form_of_node
    rw [node_eq_of_find? hid] at hform
    obtain ⟨a', b', rfl, ha', hb'⟩ := hform
    rw [iha ha ha', ihb hb hb']
  | reference r a ih =>
    obtain ⟨hid, i, hr, ha⟩ := h
    have hform := h'.form_of_node
    rw [node_eq_of_find? hid] at hform
    obtain ⟨i', a', rfl, hr', ha'⟩ := hform
    cases hr.symm.trans hr'
    rw [ih ha ha']

theorem eq_choice (h : s.Shows defs id e) (hn : s.node id = .choice i j) :
    ∃ a b, e = .choice a b ∧ s.Shows defs i a ∧ s.Shows defs j b := by
  have hform := h.form_of_node
  rwa [hn] at hform

theorem eq_oneOrMore (h : s.Shows defs id e) (hn : s.node id = .oneOrMore i) :
    ∃ a, e = .oneOrMore a ∧ s.Shows defs i a := by
  have hform := h.form_of_node
  rwa [hn] at hform

theorem eq_mixed (h : s.Shows defs id e) (hn : s.node id = .mixed i) :
    ∃ a, e = .mixed a ∧ s.Shows defs i a := by
  have hform := h.form_of_node
  rwa [hn] at hform

theorem injective (hi : s.Shows defs i e) (hj : s.Shows defs j e) : i = j := by
  induction e generalizing i j with
  | epsilon | nullSet | anyString => exact Option.some.inj (hi.symm.trans hj)
  | typedString => exact Option.some.inj (hi.1.symm.trans hj.1)
  | element => exact hi.2.symm.trans hj.2
  | «attribute» names a ih | oneOrMore a ih | mixed a ih =>
    obtain ⟨i', hi, ha⟩ := hi
    obtain ⟨j', hj, ha'⟩ := hj
    cases ih ha ha'
    exact Option.some.inj (hi.symm.trans hj)
  | choice a b iha ihb | sequence a b iha ihb | interleave a b iha ihb =>
    obtain ⟨i', j', hi, ha, hb⟩ := hi
    obtain ⟨i'', j'', hj, ha', hb'⟩ := hj
    cases iha ha ha'
    cases ihb hb hb'
    exact Option.some.inj (hi.symm.trans hj)
  | reference => exact Option.some.inj (hi.1.symm.trans hj.1)

theorem eq_iff (hi : s.Shows defs i e) (hj : s.Shows defs j e') : i = j ↔ e = e' := by
  constructor
  . rintro rfl
    exact hi.unique hj
  . rintro rfl
    exact hi.injective hj

theorem guarded (h : s.Shows defs id e) : Guarded s defs id := by
  induction e generalizing id with
  | epsilon | nullSet | anyString =>
    have hn := node_eq_of_find? h
    exact .of_children_eq_nil (by simp [hn, Node.children]) (by simp [hn])
  | typedString =>
    have hn := node_eq_of_find? h.1
    exact .of_children_eq_nil (by simp [hn, Node.children]) (by simp [hn])
  | element =>
    have hn := node_eq_of_find? h.1
    refine .intro (by simp [hn]) ?_
    rintro a (⟨helement, _⟩ | ⟨hr, _⟩)
    . exact absurd hn (helement _ _)
    . simp [hn] at hr
  | «attribute» names a ih | oneOrMore a ih | mixed a ih =>
    obtain ⟨i, hid, ha⟩ := h
    have hn := node_eq_of_find? hid
    refine .intro (by simp [hn]) ?_
    rintro c (⟨_, hc⟩ | ⟨hr, _⟩)
    . simp only [hn, Node.children, List.mem_singleton] at hc
      exact hc ▸ ih ha
    . simp [hn] at hr
  | choice a b iha ihb | sequence a b iha ihb | interleave a b iha ihb =>
    obtain ⟨i, j, hid, ha, hb⟩ := h
    have hn := node_eq_of_find? hid
    refine .intro (by simp [hn]) ?_
    rintro c (⟨_, hc⟩ | ⟨hr, _⟩)
    . simp only [hn, Node.children, List.mem_pair] at hc
      rcases hc with rfl | rfl
      . exact iha ha
      . exact ihb hb
    . simp [hn] at hr
  | reference r a ih =>
    obtain ⟨hid, i, hr, ha⟩ := h
    have hn := node_eq_of_find? hid
    refine .intro ?_ ?_
    . intro q hq
      rw [hn] at hq
      cases hq
      simp [hr]
    . rintro c (⟨_, hc⟩ | ⟨hq, hc⟩)
      . simp [hn, Node.children] at hc
      . rw [hn] at hq
        cases hq
        rw [hr] at hc
        cases hc
        exact ih ha

theorem epsilon (s : Store) : s.Shows defs .epsilon .epsilon :=
  find?_eq_some_iff.2 s.nodes_epsilon

theorem nullSet (s : Store) : s.Shows defs .nullSet .nullSet :=
  find?_eq_some_iff.2 s.nodes_nullSet

theorem anyString (s : Store) : s.Shows defs .anyString .anyString :=
  find?_eq_some_iff.2 s.nodes_anyString

theorem eq_nullSet_iff (h : s.Shows defs id e) : id = .nullSet ↔ e = .nullSet :=
  h.eq_iff (.nullSet s)

theorem eq_epsilon_iff (h : s.Shows defs id e) : id = .epsilon ↔ e = .epsilon :=
  h.eq_iff (.epsilon s)

theorem eq_anyString_iff (h : s.Shows defs id e) : id = .anyString ↔ e = .anyString :=
  h.eq_iff (.anyString s)

theorem isReduced (h : s.Shows defs id e) (hs : s.IsReduced) : e.IsReduced := by
  have operand {id i : ExprId} {n : Node} {a : Form} (hid : s.find? n = some id)
      (hn : n.isCompound) (hi : i ∈ n.children) (ha : s.Shows defs i a) : a ≠ .nullSet := by
    rw [← node_eq_of_find? hid] at hn hi
    exact fun h => hs.ne_nullSet hn hi (ha.eq_nullSet_iff.2 h)
  induction e generalizing id with
  | epsilon | nullSet | anyString | typedString | element => trivial
  | «attribute» names a ih =>
    obtain ⟨i, _, ha⟩ := h
    exact ih ha
  | oneOrMore a ih | mixed a ih =>
    obtain ⟨i, hid, ha⟩ := h
    exact ⟨operand hid rfl (by simp [Node.children]) ha, ih ha⟩
  | choice a b iha ihb | sequence a b iha ihb | interleave a b iha ihb =>
    obtain ⟨i, j, hid, ha, hb⟩ := h
    exact ⟨⟨operand hid rfl (by simp [Node.children]) ha,
      operand hid rfl (by simp [Node.children]) hb⟩, iha ha, ihb hb⟩
  | reference r a ih =>
    obtain ⟨_, i, _, ha⟩ := h
    exact ih ha

theorem empties_iff (h : s.Shows defs id e) : Empties s defs [] id ↔ e.nullable = true := by
  induction e generalizing id with
  | epsilon => exact iff_of_true (.epsilon (node_eq_of_find? h)) rfl
  | anyString => exact iff_of_true (.anyString (node_eq_of_find? h)) rfl
  | nullSet =>
    have hn := node_eq_of_find? h
    refine iff_of_false ?_ (by simp [Form.nullable])
    intro hempties
    cases hempties <;> simp_all
  | «attribute» =>
    obtain ⟨_, hid, _⟩ := h
    have hn := node_eq_of_find? hid
    refine iff_of_false ?_ (by simp [Form.nullable])
    intro hempties
    cases hempties <;> simp_all
  | typedString | element =>
    have hn := node_eq_of_find? h.1
    refine iff_of_false ?_ (by simp [Form.nullable])
    intro hempties
    cases hempties <;> simp_all
  | choice a b iha ihb =>
    obtain ⟨i, j, hid, ha, hb⟩ := h
    rw [Empties.iff_of_choice (node_eq_of_find? hid), iha ha, ihb hb]
    simp [Form.nullable]
  | sequence a b iha ihb =>
    obtain ⟨i, j, hid, ha, hb⟩ := h
    rw [Empties.iff_of_sequence (node_eq_of_find? hid), iha ha, ihb hb]
    simp [Form.nullable]
  | interleave a b iha ihb =>
    obtain ⟨i, j, hid, ha, hb⟩ := h
    rw [Empties.iff_of_interleave (node_eq_of_find? hid), iha ha, ihb hb]
    simp [Form.nullable]
  | oneOrMore a ih =>
    obtain ⟨i, hid, ha⟩ := h
    rw [Empties.iff_of_oneOrMore (node_eq_of_find? hid), ih ha]
    rfl
  | mixed a ih =>
    obtain ⟨i, hid, ha⟩ := h
    rw [Empties.iff_of_mixed (node_eq_of_find? hid), ih ha]
    rfl
  | reference r a ih =>
    obtain ⟨hid, i, hr, ha⟩ := h
    rw [Empties.iff_nil_mem_language, language_of_reference (node_eq_of_find? hid) hr,
      ← Empties.iff_nil_mem_language, ih ha]
    rfl

theorem alternatives (h : s.Shows defs id e) :
    List.Forall₂ (s.Shows defs) (s.alternatives id) e.alternatives := by
  induction e generalizing id with
  | choice a b iha ihb =>
    obtain ⟨i, j, hid, ha, hb⟩ := h
    rw [alternatives_of_choice (node_eq_of_find? hid)]
    exact List.rel_append (iha ha) (ihb hb)
  | nullSet =>
    rw [alternatives_of_nullSet (node_eq_of_find? h)]
    exact .nil
  | epsilon | anyString =>
    have hn := node_eq_of_find? h
    rw [alternatives_of_ne (by simp [hn]) (by simp [hn])]
    exact .cons h .nil
  | typedString | element | reference =>
    have hn := node_eq_of_find? h.1
    rw [alternatives_of_ne (by simp [hn]) (by simp [hn])]
    exact .cons h .nil
  | «attribute» | oneOrMore | mixed =>
    have hn := node_eq_of_find? h.choose_spec.1
    rw [alternatives_of_ne (by simp [hn]) (by simp [hn])]
    exact .cons h .nil
  | sequence | interleave =>
    have hn := node_eq_of_find? h.choose_spec.choose_spec.1
    rw [alternatives_of_ne (by simp [hn]) (by simp [hn])]
    exact .cons h .nil

end Shows

/--
A guarded expression has a form.
-/
theorem exists_shows (hguarded : Guarded s defs id) (hwithin : defs.Within s) (hid : id ∈ s) :
    ∃ e, s.Shows defs id e := by
  induction hguarded with
  | @intro id hdefined hparts ih =>
    have hfind := find?_node hid
    have operand {a : ExprId} (ha : a ∈ (s.node id).children)
        (helement : ∀ names content, s.node id ≠ .element names content) :
        ∃ e, s.Shows defs a e :=
      ih a (.operand helement ha) (mem_of_mem_children hid ha)
    generalize hn : s.node id = n at hfind
    cases n with
    | epsilon => exact ⟨.epsilon, hfind⟩
    | nullSet => exact ⟨.nullSet, hfind⟩
    | anyString => exact ⟨.anyString, hfind⟩
    | typedString number => exact ⟨.typedString (defs.type number), hfind, rfl⟩
    | element names content => exact ⟨.element ⟨id, names, content⟩, hfind, rfl⟩
    | «attribute» names content =>
      obtain ⟨c, hc⟩ := operand (a := content) (by simp [hn, Node.children]) (by simp [hn])
      exact ⟨.attribute names c, content, hfind, hc⟩
    | choice i j =>
      obtain ⟨a, ha⟩ := operand (a := i) (by simp [hn, Node.children]) (by simp [hn])
      obtain ⟨b, hb⟩ := operand (a := j) (by simp [hn, Node.children]) (by simp [hn])
      exact ⟨.choice a b, i, j, hfind, ha, hb⟩
    | sequence i j =>
      obtain ⟨a, ha⟩ := operand (a := i) (by simp [hn, Node.children]) (by simp [hn])
      obtain ⟨b, hb⟩ := operand (a := j) (by simp [hn, Node.children]) (by simp [hn])
      exact ⟨.sequence a b, i, j, hfind, ha, hb⟩
    | interleave i j =>
      obtain ⟨a, ha⟩ := operand (a := i) (by simp [hn, Node.children]) (by simp [hn])
      obtain ⟨b, hb⟩ := operand (a := j) (by simp [hn, Node.children]) (by simp [hn])
      exact ⟨.interleave a b, i, j, hfind, ha, hb⟩
    | oneOrMore i =>
      obtain ⟨a, ha⟩ := operand (a := i) (by simp [hn, Node.children]) (by simp [hn])
      exact ⟨.oneOrMore a, i, hfind, ha⟩
    | mixed i =>
      obtain ⟨a, ha⟩ := operand (a := i) (by simp [hn, Node.children]) (by simp [hn])
      exact ⟨.mixed a, i, hfind, ha⟩
    | reference r =>
      obtain ⟨i, hi⟩ := Option.isSome_iff_exists.1 (hdefined r hn)
      obtain ⟨a, ha⟩ := ih i (.target hn hi) (hwithin r i hi)
      exact ⟨.reference r a, hfind, i, hi, ha⟩

theorem Knows.of_le (h : s.Knows defs e) (hst : s ≤ t) : t.Knows defs e :=
  h.imp fun _ hid => hid.of_le hst le_rfl

/--
The store `t` is `s` with the forms in `built`, as far as they are new.
-/
structure GrowsBy (defs : Definitions) (s t : Store) (built : List Form) : Prop where
  knows : ∀ e ∈ built, t.Knows defs e
  new : ∀ id ∈ t, id ∈ s ∨ ∃ e ∈ built, t.Shows defs id e

namespace GrowsBy

theorem of_knows (h : ∀ e ∈ built, s.Knows defs e) : GrowsBy defs s s built where
  knows := h
  new _ hid := Or.inl hid

theorem trans (hst : GrowsBy defs s t built) (htu : GrowsBy defs t u built') (hle : t ≤ u) :
    GrowsBy defs s u (built ++ built') where
  knows := by
    intro e he
    rcases List.mem_append.1 he with he | he
    . exact (hst.knows e he).of_le hle
    . exact htu.knows e he
  new := by
    intro id hid
    rcases htu.new id hid with hid | ⟨e, he, hid⟩
    . rcases hst.new id hid with hid | ⟨e, he, hid⟩
      . exact Or.inl hid
      . exact Or.inr ⟨e, List.mem_append_left _ he, hid.of_le hle le_rfl⟩
    . exact Or.inr ⟨e, List.mem_append_right _ he, hid⟩

theorem size_eq (h : GrowsBy defs s t []) (hle : s ≤ t) : t.size = s.size := by
  refine le_antisymm (le_of_not_gt fun hlt => ?_) (le_of_not_gt fun hlt => ?_)
  . rcases h.new ⟨s.size⟩ hlt with hid | ⟨_, he, _⟩
    . exact Nat.lt_irrefl _ hid
    . cases he
  . have hid : (⟨t.size⟩ : ExprId) ∈ t := mem_of_le hle (mem_iff.2 hlt)
    exact Nat.lt_irrefl _ hid

end GrowsBy

end Store

end TreeGrammar
