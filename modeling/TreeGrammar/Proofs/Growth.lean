import Mathlib.Order.Defs.PartialOrder
import TreeGrammar.Session.Run

/-!
This module contains the ways in which a schema grows. Nodes are only ever added to a store, and
references are only ever defined. What is known about an expression is kept, since its node and the
nodes below it stay the same.
-/

namespace TreeGrammar

namespace Store

variable {s t u : Store} {id a b : ExprId} {n : Node} {limit : Nat}

instance : Membership ExprId Store := ⟨fun s id => id.index < s.size⟩

instance : Preorder Store where
  le s t := ∀ (i : Nat) (n : Node), s.nodes[i]? = some n → t.nodes[i]? = some n
  le_refl _ _ _ h := h
  le_trans _ _ _ hst htu i n h := htu i n (hst i n h)

theorem mem_iff : id ∈ s ↔ id.index < s.size := Iff.rfl

theorem getElem?_of_mem (h : id ∈ s) : s.nodes[id.index]? = some (s.node id) := by
  have h : id.index < s.nodes.size := h
  simp [node, h]

theorem mem_of_find? (h : s.find? n = some id) : id ∈ s :=
  (Array.getElem?_eq_some_iff.1 (find?_eq_some_iff.1 h)).1

theorem find?_node (h : id ∈ s) : s.find? (s.node id) = some id :=
  find?_eq_some_iff.2 (getElem?_of_mem h)

theorem eq_of_node_eq (ha : a ∈ s) (hb : b ∈ s) (h : s.node a = s.node b) : a = b := by
  have hfound := find?_node ha
  rw [h, find?_node hb] at hfound
  exact (Option.some.inj hfound).symm

theorem find?_of_le (h : s ≤ t) (hn : s.find? n = some id) : t.find? n = some id := by
  rw [find?_eq_some_iff] at hn ⊢
  exact h id.index n hn

theorem find?_of_ge (h : s ≤ t) (hid : id ∈ s) (hn : t.find? n = some id) : s.find? n = some id := by
  rw [find?_eq_some_iff] at hn ⊢
  rw [← hn, getElem?_of_mem hid]
  exact (h id.index _ (getElem?_of_mem hid)).symm

theorem mem_of_le (h : s ≤ t) (hid : id ∈ s) : id ∈ t :=
  mem_of_find? (find?_of_le h (find?_node hid))

theorem node_of_le (h : s ≤ t) (hid : id ∈ s) : t.node id = s.node id :=
  node_eq_of_find? (find?_of_le h (find?_node hid))

theorem mem_of_mem_children (hid : id ∈ s) (ha : a ∈ (s.node id).children) : a ∈ s :=
  Nat.lt_trans (s.node_below id a ha) hid

theorem epsilon_mem (s : Store) : ExprId.epsilon ∈ s :=
  mem_of_find? (find?_eq_some_iff.2 s.nodes_epsilon)

theorem nullSet_mem (s : Store) : ExprId.nullSet ∈ s :=
  mem_of_find? (find?_eq_some_iff.2 s.nodes_nullSet)

theorem anyString_mem (s : Store) : ExprId.anyString ∈ s :=
  mem_of_find? (find?_eq_some_iff.2 s.nodes_anyString)

theorem node_ne_of_not_mem (h : id ∉ s) : s.node id = .nullSet := by
  have h : ¬ id.index < s.nodes.size := h
  simp [node, h]

theorem mem_of_node_ne (h : s.node id ≠ .nullSet) : id ∈ s :=
  Classical.byContradiction fun hid => h (node_ne_of_not_mem hid)

theorem le_push (new : s.find? n = none) (below : n.Below ⟨s.size⟩) : s ≤ s.push n new below := by
  intro i m h
  have hi := (Array.getElem?_eq_some_iff.1 h).1
  rw [← h]
  simp only [push, Array.getElem?_push_lt hi, Array.getElem?_eq_getElem hi]

theorem find?_push (new : s.find? n = none) (below : n.Below ⟨s.size⟩) :
    (s.push n new below).find? n = some ⟨s.size⟩ := by
  rw [find?_eq_some_iff]
  simp [push, size]

theorem intern_of_find? (h : s.find? n = some id) : s.intern limit n = .ok (id, s) := by
  unfold intern
  split
  . next found =>
    rw [h] at found
    rw [Option.some.inj found]
  . next missing => simp [h] at missing

theorem intern_cases {p : ExprId × Store} (h : s.intern limit n = .ok p) :
    (∃ id, s.find? n = some id ∧ p = (id, s)) ∨
      ∃ new below, s.size ≤ limit ∧ p = (⟨s.size⟩, s.push n new below) := by
  unfold intern at h
  split at h
  . next id found =>
    cases h
    exact Or.inl ⟨id, found, rfl⟩
  . next missing =>
    split at h
    . cases h
    . next room =>
      split at h
      . next below =>
        cases h
        exact Or.inr ⟨missing, below, Nat.le_of_not_lt room, rfl⟩
      . cases h

theorem intern_eq_ok (h : s.intern limit n = .ok (id, t)) : s ≤ t ∧ t.find? n = some id := by
  rcases intern_cases h with ⟨id, found, heq⟩ | ⟨new, below, -, heq⟩
  . cases heq
    exact ⟨le_rfl, found⟩
  . cases heq
    exact ⟨le_push new below, find?_push new below⟩

theorem intern_grows (h : s.intern limit n = .ok (id, t)) :
    t = s ∨ s.size ≤ limit ∧ t.size = s.size + 1 ∧ ∀ i ∈ t, i ∈ s ∨ i = id := by
  rcases intern_cases h with ⟨id, found, heq⟩ | ⟨new, below, room, heq⟩
  . cases heq
    exact Or.inl rfl
  . cases heq
    have hsize : (s.push n new below).size = s.size + 1 := by simp [push, size]
    refine Or.inr ⟨room, hsize, ?_⟩
    rintro ⟨i⟩ hi
    rw [mem_iff, hsize] at hi
    rcases Nat.lt_succ_iff_lt_or_eq.1 hi with hi | rfl
    . exact Or.inl hi
    . exact Or.inr rfl

theorem intern_eq_error {f : Fault} (h : s.intern limit n = .error f)
    (hn : ∀ c ∈ n.children, c ∈ s) :
    f = .limitExceeded limit ∧ s.find? n = none ∧ limit < s.size := by
  unfold intern at h
  split at h
  . cases h
  . next missing =>
    split at h
    . next full =>
      cases h
      exact ⟨rfl, missing, full⟩
    . split at h
      . cases h
      . next above => exact absurd (fun c hc => hn c hc) above

end Store

namespace Definitions

variable {defs : Definitions} {r : RefId} {target : ExprId} {name : String}

/--
Definitions grow when references are made or defined: what is defined stays as it is, and so do the
datatypes.
-/
instance : Preorder Definitions where
  le defs defs' := defs'.types = defs.types ∧ ∀ (r : RefId) (target : ExprId),
    defs.target? r = some target → defs'.target? r = some target
  le_refl _ := ⟨rfl, fun _ _ h => h⟩
  le_trans _ _ _ h h' := ⟨h'.1.trans h.1, fun r target hr => h'.2 r target (h.2 r target hr)⟩

theorem types_eq {defs' : Definitions} (h : defs ≤ defs') : defs'.types = defs.types := h.1

theorem type_eq {defs' : Definitions} (h : defs ≤ defs') (number : Nat) :
    defs'.type number = defs.type number := by
  rw [type, type, types_eq h]

theorem target?_of_le {defs' : Definitions} (h : defs ≤ defs') (hr : defs.target? r = some target) :
    defs'.target? r = some target :=
  h.2 r target hr

/--
The expressions that references are defined as belong to a store.
-/
def Within (defs : Definitions) (s : Store) : Prop :=
  ∀ (r : RefId) (target : ExprId), defs.target? r = some target → target ∈ s

theorem Within.of_le {s t : Store} (h : defs.Within s) (hst : s ≤ t) : defs.Within t :=
  fun r target hr => Store.mem_of_le hst (h r target hr)

theorem target?_declare (r : RefId) : (defs.declare name).2.target? r = defs.target? r := by
  unfold declare target?
  by_cases h : r.index < defs.entries.size
  . simp [Array.getElem?_push_lt h, Array.getElem?_eq_getElem h]
  . rw [Array.getElem?_eq_none (Nat.le_of_not_lt h), Array.getElem?_push]
    split
    . rfl
    . rw [Array.getElem?_eq_none (Nat.le_of_not_lt h)]

theorem le_declare : defs ≤ (defs.declare name).2 := by
  refine ⟨rfl, fun r target h => ?_⟩
  rw [target?_declare]
  exact h

theorem target?_define {defs' : Definitions} (h : defs.define r target = .ok defs') (q : RefId)
    {found : ExprId} (hq : defs'.target? q = some found) :
    defs.target? q = some found ∨ found = target := by
  unfold define at h
  split at h
  . cases h
    by_cases hqr : r.index = q.index
    . unfold target? at hq
      simp only [Array.getElem?_modify, hqr, if_true, Option.bind_eq_some_iff,
        Option.map_eq_some_iff] at hq
      obtain ⟨_, ⟨_, _, rfl⟩, hq⟩ := hq
      exact Or.inr (Option.some.inj hq).symm
    . refine Or.inl ?_
      unfold target? at hq ⊢
      simpa only [Array.getElem?_modify, hqr, if_false] using hq
  . split at h
    . cases h
      exact Or.inl hq
    . cases h

theorem le_define {defs' : Definitions} (h : defs.define r target = .ok defs') : defs ≤ defs' := by
  unfold define at h
  split at h
  . next undefined =>
    cases h
    refine ⟨rfl, fun q found hq => ?_⟩
    have hqr : ¬ r.index = q.index := by
      intro heq
      have : r = q := by cases r; cases q; simp_all
      simp [this, hq] at undefined
    unfold target? at hq ⊢
    simpa only [Array.getElem?_modify, hqr, if_false] using hq
  . split at h
    . cases h
      exact le_rfl
    . cases h

theorem Within.declare {s : Store} (h : defs.Within s) : (defs.declare name).2.Within s := by
  intro r target hr
  rw [target?_declare] at hr
  exact h r target hr

theorem Within.define {s : Store} {defs' : Definitions} (h : defs.Within s) (htarget : target ∈ s)
    (hdefine : defs.define r target = .ok defs') : defs'.Within s := by
  intro q found hq
  rcases target?_define hdefine q hq with hq | rfl
  . exact h q found hq
  . exact htarget

theorem target?_define_self {defs' : Definitions} (h : defs.define r target = .ok defs')
    (hr : r.index < defs.size) : defs'.target? r = some target := by
  have hr : r.index < defs.entries.size := hr
  unfold define at h
  split at h
  . cases h
    simp [target?, Array.getElem?_modify, Array.getElem?_eq_getElem hr]
  . next hdefined =>
    split at h
    . next heq =>
      cases h
      rw [hdefined, heq]
    . cases h

theorem follow_of_target? (h : defs.target? r = some target) : defs.follow r = .ok ⟨target, h⟩ := by
  unfold follow
  split
  . next found _ =>
    have same : some found.val = some target := found.property.symm.trans h
    exact congrArg Except.ok (Subtype.ext (Option.some.inj same))
  . next none => simp [h] at none

theorem follow_of_target?_eq_none (h : defs.target? r = none) :
    defs.follow r = .error (.undefinedReference (defs.name r)) := by
  unfold follow
  split
  . next found _ =>
    have := found.property
    simp [h] at this
  . rfl

/--
Searches that go from an expression to its operands and from a reference to its definition, and
never come back to a reference that is on the path.
-/
theorem search_induction {motive : List RefId → ExprId → Prop} (defs : Definitions)
    (step : ∀ visiting id,
      (∀ a : ExprId, a.index < id.index → motive visiting a) →
      (∀ r target, defs.target? r = some target → r ∉ visiting → motive (r :: visiting) target) →
      motive visiting id)
    (visiting : List RefId) (id : ExprId) : motive visiting id := by
  apply step
  . intro a _
    exact search_induction defs step visiting a
  . intro r target h new
    exact search_induction defs step (r :: visiting) target
termination_by defs.reach visiting id
decreasing_by
  . exact reach_child_lt ‹_›
  . exact reach_target_lt h new

end Definitions

namespace Graph

instance : Preorder Graph where
  le g h := g.store ≤ h.store ∧ (∀ (id : ExprId) (b : Bool), g.nullable[id]? = some b →
    h.nullable[id]? = some b) ∧ h.settings.limit = g.settings.limit
  le_refl _ := ⟨le_rfl, fun _ _ h => h, rfl⟩
  le_trans _ _ _ hgh hhk := ⟨le_trans hgh.1 hhk.1, fun id b h => hhk.2.1 id b (hgh.2.1 id b h),
    hhk.2.2.trans hgh.2.2⟩

variable {g h : Graph}

theorem store_le (hgh : g ≤ h) : g.store ≤ h.store := hgh.1

theorem nullable_le (hgh : g ≤ h) {id : ExprId} {b : Bool} (hb : g.nullable[id]? = some b) :
    h.nullable[id]? = some b :=
  hgh.2.1 id b hb

theorem limit_eq (hgh : g ≤ h) : h.settings.limit = g.settings.limit := hgh.2.2

end Graph

end TreeGrammar
