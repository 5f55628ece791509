import TreeGrammar.Proofs.Alternatives
import TreeGrammar.Proofs.Meaning

/-!
This module contains the languages of forms. What the attributes in a form stand for is left open, so
that they can also be read as something else than what they are.
-/

namespace TreeGrammar

open Computability

namespace Form

/--
The language of a form. An attribute has the language that `leaf` gives it for its names and the
language of its content.
-/
def languageWith (leaf : NameClass → Language Letter → Language Letter) : Form → Language Letter
  | .epsilon => 1
  | .nullSet => 0
  | .anyString => ({w | ∀ x ∈ w, x.isText} : Set (List Letter))
  | .typedString type => ({w | ∃ literal scope,
      type.datatype.accepts scope literal ∧ w = [.text literal scope]} : Set (List Letter))
  | .attribute names content => leaf names (content.languageWith leaf)
  | .element head => ({w | ∃ x : Letter, x.Satisfies head.id ∧ w = [x]} : Set (List Letter))
  | .choice a b => a.languageWith leaf + b.languageWith leaf
  | .sequence a b => a.languageWith leaf * b.languageWith leaf
  | .interleave a b => Language.shuffle (a.languageWith leaf) (b.languageWith leaf)
  | .oneOrMore a => a.languageWith leaf * (a.languageWith leaf)∗
  | .mixed a => Language.mixed (a.languageWith leaf)
  | .reference _ target => target.languageWith leaf

abbrev language (e : Form) : Language Letter :=
  e.languageWith Language.attribute

variable {leaf : NameClass → Language Letter → Language Letter} {a b e : Form} {w : List Letter}

@[simp] theorem languageWith_of_epsilon : epsilon.languageWith leaf = 1 := rfl

@[simp] theorem languageWith_of_nullSet : nullSet.languageWith leaf = 0 := rfl

theorem mem_languageWith_iff_alternatives :
    w ∈ e.languageWith leaf ↔ ∃ a ∈ e.alternatives, w ∈ a.languageWith leaf :=
  iff_exists_alternative (P := fun e => w ∈ e.languageWith leaf) (fun _ _ => Language.mem_add _ _ _)
    (Language.notMem_zero w) e

theorem languageWith_choice : (Plan.choice a b).value.languageWith leaf =
    a.languageWith leaf + b.languageWith leaf := by
  ext w
  rw [Language.mem_add, mem_languageWith_iff_alternatives, mem_languageWith_iff_alternatives (e := a),
    mem_languageWith_iff_alternatives (e := b)]
  simp only [mem_alternatives_choice, or_and_right, exists_or]

theorem languageWith_sequence : (Plan.sequence a b).value.languageWith leaf =
    a.languageWith leaf * b.languageWith leaf := by
  refine Plan.joined_cases (motive := (·.value.languageWith leaf = _)) (fun hnull => ?_) (fun ha => ?_)
    (fun hb => ?_) fun _ _ => rfl
  . rcases hnull with rfl | rfl <;> simp
  . simp [ha]
  . simp [hb]

theorem languageWith_interleave : (Plan.interleave a b).value.languageWith leaf =
    Language.shuffle (a.languageWith leaf) (b.languageWith leaf) := by
  refine Plan.joined_cases (motive := (·.value.languageWith leaf = _)) (fun hnull => ?_) (fun ha => ?_)
    (fun hb => ?_) fun _ _ => rfl
  . rcases hnull with rfl | rfl <;> simp [Language.zero_shuffle, Language.shuffle_zero]
  . simp [ha, Language.one_shuffle]
  . simp [hb, Language.shuffle_one]

theorem languageWith_oneOrMore : (Plan.oneOrMore a).value.languageWith leaf =
    a.languageWith leaf * (a.languageWith leaf)∗ := by
  unfold Plan.oneOrMore
  split
  . next h => rcases h with rfl | rfl <;> simp
  . split
    . exact Language.mul_kstar_mul_kstar.symm
    . rfl

theorem languageWith_mixed :
    (Plan.mixed a).value.languageWith leaf = Language.mixed (a.languageWith leaf) := by
  unfold Plan.mixed
  split
  . next h => simp [h, Language.mixed_zero]
  . split
    . next h =>
      ext w
      rw [h, languageWith_of_epsilon, Language.mem_mixed_one]
      rfl
    . split
      . exact Language.mixed_mixed.symm
      . rfl

theorem bare_language : Language.bare e.language = e.languageWith fun _ _ => 0 := by
  induction e with
  | epsilon =>
    refine Language.bare_eq_self fun w hw => ?_
    rw [(Language.mem_one w).1 hw]
    simp
  | nullSet => exact Language.bare_zero
  | anyString =>
    refine Language.bare_eq_self fun w hw x hx => ?_
    have htext : x.isText = true := hw x hx
    cases x with
    | text => rfl
    | _ => cases htext
  | typedString type =>
    refine Language.bare_eq_self ?_
    rintro _ ⟨_, _, _, rfl⟩
    simp [Letter.isAttribute]
  | «attribute» names content ih =>
    refine Language.bare_eq_zero ?_
    rintro _ ⟨_, _, _, _, _, rfl⟩
    simp [Letter.isAttribute]
  | element head =>
    refine Language.bare_eq_self ?_
    rintro _ ⟨x, hx, rfl⟩
    cases x with
    | element => simp [Letter.isAttribute]
    | _ => cases hx
  | choice a b iha ihb =>
    change Language.bare (a.language + b.language) = _
    rw [Language.bare_add, iha, ihb]
    rfl
  | sequence a b iha ihb =>
    change Language.bare (a.language * b.language) = _
    rw [Language.bare_mul, iha, ihb]
    rfl
  | interleave a b iha ihb =>
    change Language.bare (Language.shuffle a.language b.language) = _
    rw [Language.bare_shuffle, iha, ihb]
    rfl
  | oneOrMore a ih =>
    change Language.bare (a.language * a.language∗) = _
    rw [Language.bare_mul, Language.bare_kstar, ih]
    rfl
  | mixed a ih =>
    change Language.bare (Language.mixed a.language) = _
    rw [Language.bare_mixed, ih]
    rfl
  | reference r a ih => exact ih

end Form

namespace Store.Shows

variable {s : Store} {defs : Definitions} {id : ExprId} {e : Form}

/--
An expression stands for the same as its form.
-/
theorem language_eq (h : s.Shows defs id e) : s.language defs id = e.language := by
  induction e generalizing id with
  | epsilon => exact language_of_epsilon (node_eq_of_find? h)
  | nullSet => exact language_of_nullSet (node_eq_of_find? h)
  | anyString =>
    ext w
    exact mem_language_of_anyString (node_eq_of_find? h)
  | typedString type =>
    ext w
    rw [mem_language_of_typedString (node_eq_of_find? h.1)]
    unfold Form.language Form.languageWith
    rw [h.2]
    constructor
    . rintro ⟨_, ⟨literal, scope, haccepts, rfl⟩, rfl⟩
      exact ⟨literal, scope, haccepts, rfl⟩
    . rintro ⟨literal, scope, haccepts, rfl⟩
      exact ⟨_, ⟨literal, scope, haccepts, rfl⟩, rfl⟩
  | «attribute» names a ih =>
    obtain ⟨i, hid, ha⟩ := h
    rw [language_of_attribute (node_eq_of_find? hid), ih ha]
    rfl
  | element head =>
    obtain ⟨hid, rfl⟩ := h
    ext w
    exact mem_language_of_element (node_eq_of_find? hid)
  | choice a b iha ihb =>
    obtain ⟨i, j, hid, ha, hb⟩ := h
    rw [language_of_choice (node_eq_of_find? hid), iha ha, ihb hb]
    rfl
  | sequence a b iha ihb =>
    obtain ⟨i, j, hid, ha, hb⟩ := h
    rw [language_of_sequence (node_eq_of_find? hid), iha ha, ihb hb]
    rfl
  | interleave a b iha ihb =>
    obtain ⟨i, j, hid, ha, hb⟩ := h
    rw [language_of_interleave (node_eq_of_find? hid), iha ha, ihb hb]
    rfl
  | oneOrMore a ih =>
    obtain ⟨i, hid, ha⟩ := h
    rw [language_of_oneOrMore (node_eq_of_find? hid), ih ha]
    rfl
  | mixed a ih =>
    obtain ⟨i, hid, ha⟩ := h
    rw [language_of_mixed (node_eq_of_find? hid), ih ha]
    rfl
  | reference r a ih =>
    obtain ⟨hid, i, hr, ha⟩ := h
    rw [language_of_reference (node_eq_of_find? hid) hr, ih ha]
    rfl

end Store.Shows

end TreeGrammar
