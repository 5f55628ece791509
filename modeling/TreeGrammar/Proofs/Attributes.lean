import TreeGrammar.Proofs.FormLanguage
import TreeGrammar.Proofs.Required

/-!
This module contains the attributes in a form, and what becomes of a form when they are discharged:
its language is that of the form with every pending attribute read as nothing or as no content.
-/

namespace TreeGrammar

open Computability Relation

def Pending.language : Pending → Language Letter
  | .missing => 0
  | .granted => 1

/--
There is an attribute in the expression, other than in attributes and the contents of elements.
-/
def ExposesAttribute (s : Store) (defs : Definitions) (id : ExprId) : Prop :=
  ∃ a names content, ReflTransGen (Exposes s defs) a id ∧ s.node a = .attribute names content

namespace Form

def attributes : Form → List Form
  | .attribute names content => [.attribute names content]
  | .choice a b | .sequence a b | .interleave a b => a.attributes ++ b.attributes
  | .oneOrMore a | .mixed a | .reference _ a => a.attributes
  | .epsilon | .nullSet | .anyString | .typedString _ | .element _ => []

variable {a b e x : Form} {pending other : Pending}
variable {leaf : NameClass → Language Letter → Language Letter}

theorem exists_of_mem_attributes (h : x ∈ e.attributes) :
    ∃ names content, x = .attribute names content := by
  induction e with
  | «attribute» names content => exact ⟨names, content, List.mem_singleton.1 h⟩
  | choice a b iha ihb | sequence a b iha ihb | interleave a b iha ihb =>
    exact (List.mem_append.1 h).elim iha ihb
  | oneOrMore a ih | mixed a ih | reference r a ih => exact ih h
  | _ => cases h

theorem mem_attributes_iff_alternatives :
    x ∈ e.attributes ↔ ∃ a ∈ e.alternatives, x ∈ a.attributes :=
  iff_exists_alternative (P := fun e => x ∈ e.attributes) (fun _ _ => List.mem_append)
    List.not_mem_nil e

section Operations

variable (ha : a.attributes = []) (hb : b.attributes = [])

include ha

theorem attributes_oneOrMore : (Plan.oneOrMore a).value.attributes = [] := by
  unfold Plan.oneOrMore
  split
  . exact ha
  . split
    . exact ha
    . exact ha

theorem attributes_mixed : (Plan.mixed a).value.attributes = [] := by
  unfold Plan.mixed
  split
  . exact ha
  . split
    . rfl
    . split
      . exact ha
      . exact ha

include hb

theorem attributes_choice : (Plan.choice a b).value.attributes = [] := by
  refine List.eq_nil_iff_forall_not_mem.2 fun x hx => ?_
  obtain ⟨c, hc, hx⟩ := mem_attributes_iff_alternatives.1 hx
  rcases mem_alternatives_choice.1 hc with hc | hc
  . have hmem := mem_attributes_iff_alternatives.2 ⟨c, hc, hx⟩
    rw [ha] at hmem
    cases hmem
  . have hmem := mem_attributes_iff_alternatives.2 ⟨c, hc, hx⟩
    rw [hb] at hmem
    cases hmem

theorem attributes_joined {join : Form → Form → Form}
    (hjoin : (join a b).attributes = a.attributes ++ b.attributes) :
    (Plan.joined join a b).value.attributes = [] :=
  Plan.joined_cases (motive := (·.value.attributes = [])) (fun _ => rfl) (fun _ => hb) (fun _ => ha)
    fun _ _ => hjoin.trans (List.append_eq_nil_iff.2 ⟨ha, hb⟩)

end Operations

theorem attributes_discharge : (e.discharge pending).value.attributes = [] := by
  induction e with
  | «attribute» => cases pending <;> rfl
  | choice a b iha ihb | sequence a b iha ihb | interleave a b iha ihb =>
    rw [discharge, Plan.value_bind, Plan.value_bind]
    split
    . next hsame => exact List.append_eq_nil_iff.2 ⟨hsame.1 ▸ iha, hsame.2 ▸ ihb⟩
    . first
        | exact attributes_choice iha ihb
        | exact attributes_joined iha ihb rfl
  | oneOrMore a ih | mixed a ih =>
    rw [discharge, Plan.value_bind]
    split
    . next hsame => exact hsame ▸ ih
    . first
        | exact attributes_oneOrMore ih
        | exact attributes_mixed ih
  | reference r a ih =>
    rw [discharge, Plan.value_bind, Plan.value_pure]
    split
    . next hsame => exact hsame ▸ ih
    . exact ih
  | _ => rfl

theorem discharge_of_attributes_eq_nil (h : e.attributes = []) : e.discharge pending = pure e := by
  induction e with
  | «attribute» => cases h
  | choice a b iha ihb | sequence a b iha ihb | interleave a b iha ihb =>
    obtain ⟨ha, hb⟩ := List.append_eq_nil_iff.1 h
    rw [discharge, iha ha, ihb hb, pure_bind, pure_bind, if_pos ⟨rfl, rfl⟩]
  | oneOrMore a ih | mixed a ih =>
    rw [discharge, ih h, pure_bind, if_pos rfl]
  | reference r a ih => rw [discharge, ih h, pure_bind, if_pos rfl]
  | _ => rfl

theorem discharge_eq_self_iff : (e.discharge pending).value = e ↔ e.attributes = [] := by
  constructor
  . intro h
    rw [← h]
    exact attributes_discharge
  . intro h
    rw [discharge_of_attributes_eq_nil h, Plan.value_pure]

theorem languageWith_discharge : (e.discharge pending).value.languageWith leaf =
    e.languageWith fun _ _ => pending.language := by
  induction e with
  | «attribute» => cases pending <;> rfl
  | choice a b iha ihb | sequence a b iha ihb | interleave a b iha ihb =>
    rw [discharge, Plan.value_bind, Plan.value_bind, languageWith, ← iha, ← ihb]
    split
    . next hsame =>
      rw [hsame.1, hsame.2]
      rfl
    . first
        | exact languageWith_choice
        | exact languageWith_sequence
        | exact languageWith_interleave
  | oneOrMore a ih | mixed a ih =>
    rw [discharge, Plan.value_bind, languageWith, ← ih]
    split
    . next hsame =>
      rw [hsame]
      rfl
    . first
        | exact languageWith_oneOrMore
        | exact languageWith_mixed
  | reference r a ih =>
    rw [discharge, Plan.value_bind, Plan.value_pure, languageWith, ← ih]
    split
    . next hsame =>
      rw [hsame]
      rfl
    . rfl
  | _ => rfl

end Form

namespace Store.Shows

variable {s : Store} {defs : Definitions} {id a : ExprId} {e x : Form}

theorem exists_exposed (h : s.Shows defs id e) (hx : x ∈ e.attributes) :
    ∃ a, ReflTransGen (Exposes s defs) a id ∧ s.Shows defs a x := by
  have operand {id i : ExprId} {n : Node} (hid : s.find? n = some id) (hn : n.isCompound)
      (hi : i ∈ n.children) (hfound : ∃ a, ReflTransGen (Exposes s defs) a i ∧ s.Shows defs a x) :
      ∃ a, ReflTransGen (Exposes s defs) a id ∧ s.Shows defs a x := by
    obtain ⟨a, ha, hshows⟩ := hfound
    rw [← node_eq_of_find? hid] at hn hi
    exact ⟨a, ha.tail (.of_isCompound hn hi), hshows⟩
  induction e generalizing id with
  | «attribute» names content =>
    rw [List.mem_singleton.1 hx]
    exact ⟨id, .refl, h⟩
  | choice a b iha ihb | sequence a b iha ihb | interleave a b iha ihb =>
    obtain ⟨i, j, hid, ha, hb⟩ := h
    rcases List.mem_append.1 hx with hx | hx
    . exact operand hid rfl (by simp [Node.children]) (iha ha hx)
    . exact operand hid rfl (by simp [Node.children]) (ihb hb hx)
  | oneOrMore a ih | mixed a ih =>
    obtain ⟨i, hid, ha⟩ := h
    exact operand hid rfl (by simp [Node.children]) (ih ha hx)
  | reference r a ih =>
    obtain ⟨hid, i, hr, ha⟩ := h
    have hn := node_eq_of_find? hid
    obtain ⟨b, hb, hshows⟩ := ih ha hx
    exact ⟨b, hb.tail ⟨.target hn hr, by simp [hn]⟩, hshows⟩
  | _ => cases hx

theorem mem_attributes_of_exposes (h : s.Shows defs id e) (ha : Exposes s defs a id) :
    ∃ b, s.Shows defs a b ∧ ∀ x ∈ b.attributes, x ∈ e.attributes := by
  have operand {n : Node} (hid : s.find? n = some id) (hn : n.isCompound) : a ∈ n.children := by
    rw [← node_eq_of_find? hid] at hn ⊢
    exact (Part.iff_of_isCompound hn).1 ha.1
  have leaf {n : Node} (hid : s.find? n = some id) (hn : n.children = [])
      (hr : ∀ r, n ≠ .reference r) : False := by
    rw [← node_eq_of_find? hid] at hn hr
    exact Part.not_of_children_eq_nil hn hr ha.1
  cases e with
  | epsilon | nullSet | anyString => exact (leaf h rfl (by simp)).elim
  | typedString => exact (leaf h.1 rfl (by simp)).elim
  | element head =>
    have hn := node_eq_of_find? h.1
    obtain ⟨⟨helement, _⟩ | ⟨hr, _⟩, _⟩ := ha
    . exact absurd hn (helement _ _)
    . simp [hn] at hr
  | «attribute» names content =>
    obtain ⟨i, hid, _⟩ := h
    exact absurd (node_eq_of_find? hid) (ha.2 _ _)
  | choice b c | sequence b c | interleave b c =>
    obtain ⟨i, j, hid, hb, hc⟩ := h
    rcases List.mem_pair.1 (operand hid rfl) with rfl | rfl
    . exact ⟨b, hb, fun x hx => List.mem_append_left _ hx⟩
    . exact ⟨c, hc, fun x hx => List.mem_append_right _ hx⟩
  | oneOrMore b | mixed b =>
    obtain ⟨i, hid, hb⟩ := h
    obtain rfl := List.mem_singleton.1 (operand hid rfl)
    exact ⟨b, hb, fun x hx => hx⟩
  | reference r b =>
    obtain ⟨hid, i, hr, hb⟩ := h
    obtain rfl := Option.some.inj (hr.symm.trans (ha.target (node_eq_of_find? hid)))
    exact ⟨b, hb, fun x hx => hx⟩

theorem attributes_eq_nil_iff (h : s.Shows defs id e) :
    e.attributes = [] ↔ ¬ ExposesAttribute s defs id := by
  constructor
  . rintro hnil ⟨a, names, content, ha, hn⟩
    -- on the way into the expression no attribute comes up
    have hforms : ∃ b, s.Shows defs a b ∧ b.attributes = [] := by
      clear hn
      induction ha using ReflTransGen.head_induction_on with
      | refl => exact ⟨e, h, hnil⟩
      | head hab _ ih =>
        obtain ⟨c, hc, hnil⟩ := ih
        obtain ⟨b, hb, hsub⟩ := hc.mem_attributes_of_exposes hab
        refine ⟨b, hb, List.eq_nil_iff_forall_not_mem.2 fun x hx => ?_⟩
        have hx := hsub x hx
        rw [hnil] at hx
        cases hx
    obtain ⟨b, hb, hnil⟩ := hforms
    cases b <;> simp only [Shows] at hb <;> grind [node_eq_of_find?, Form.attributes]
  . intro hnone
    refine List.eq_nil_iff_forall_not_mem.2 fun x hx => hnone ?_
    obtain ⟨names, content, rfl⟩ := Form.exists_of_mem_attributes hx
    obtain ⟨a, ha, c, hid, _⟩ := h.exists_exposed hx
    exact ⟨a, names, c, ha, node_eq_of_find? hid⟩

end Store.Shows

end TreeGrammar
