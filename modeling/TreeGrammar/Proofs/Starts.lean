import TreeGrammar.Proofs.FormLanguage

/-!
This module contains what an expression can start with. A token leaves something of an expression
exactly if something that can come first takes it: for a text this is a datatype that accepts the text
in its scope, and for an attribute one that accepts its value there.
-/

namespace TreeGrammar

open Computability Relation

/--
The expression itself can read the letter, rather than something in it that comes first.
-/
def Store.Takes (s : Store) (defs : Definitions) (x : Letter) (id : ExprId) : Prop :=
  match s.node id with
  | .anyString | .mixed _ => x.isText
  | .typedString number =>
    ∃ literal scope, x = .text literal scope ∧ (defs.types number).accepts scope literal
  | .attribute names content => ∃ name value scope, x = .attribute name value scope ∧
      names.contains name ∧ s.AcceptsValue defs value scope content
  | .element _ _ => x.Satisfies id
  | _ => False

/--
Something that can come first in the expression can read the letter.
-/
def Store.StartsWith (s : Store) (defs : Definitions) (x : Letter) (id : ExprId) : Prop :=
  ∃ y, ReflTransGen (Opens s defs) y id ∧ s.Takes defs x y

namespace Form

variable {e : Form} {literal value : String} {scope : Scope} {token : Token}

theorem nullable_iff : e.nullable = true ↔ [] ∈ e.language := by
  induction e with
  | epsilon => exact iff_of_true rfl Language.nil_mem_one
  | nullSet => exact iff_of_false Bool.false_ne_true (Language.notMem_zero _)
  | anyString => exact iff_of_true rfl (by rintro _ ⟨⟩)
  | typedString | «attribute» | element =>
    refine iff_of_false Bool.false_ne_true ?_
    rintro ⟨_, _, _⟩
    simp_all
  | choice a b iha ihb =>
    rw [nullable, Bool.or_eq_true, iha, ihb]
    exact (Language.mem_add _ _ _).symm
  | sequence a b iha ihb =>
    rw [nullable, Bool.and_eq_true, iha, ihb]
    exact Language.nil_mem_mul.symm
  | interleave a b iha ihb =>
    rw [nullable, Bool.and_eq_true, iha, ihb]
    exact Language.nil_mem_shuffle.symm
  | oneOrMore a ih =>
    rw [nullable, ih]
    exact (Language.nil_mem_mul.trans (and_iff_left (Language.nil_mem_kstar _))).symm
  | mixed a ih => exact ih
  | reference r a ih => exact ih

theorem derive_text (fits : Form → Plan Bool) :
    e.derive (.text literal scope) fits = e.derivative (.text literal scope) := by
  unfold derivative
  induction e with
  | choice a b iha ihb | interleave a b iha ihb | sequence a b iha ihb => rw [derive, derive, iha, ihb]
  | oneOrMore a ih => rw [derive, derive, ih]
  | reference r a ih => exact ih
  | _ => rfl

theorem mem_language_typedString {type : DeclaredType} {w : List Letter} :
    w ∈ (typedString type).language ↔
      ∃ y, (∃ literal scope, type.datatype.accepts scope literal ∧ y = .text literal scope) ∧
        w = [y] := by
  constructor
  . rintro ⟨literal, scope, haccepts, rfl⟩
    exact ⟨_, ⟨literal, scope, haccepts, rfl⟩, rfl⟩
  . rintro ⟨_, ⟨literal, scope, haccepts, rfl⟩, rfl⟩
    exact ⟨literal, scope, haccepts, rfl⟩

theorem language_derivative_text : (e.derivative (.text literal scope)).value.language =
    e.language.leftQuotient [.text literal scope] := by
  unfold language
  induction e with
  | epsilon => exact Language.leftQuotient_one.symm
  | nullSet => exact Language.leftQuotient_zero.symm
  | anyString =>
    ext w
    have hcons : (∀ y ∈ Letter.text literal scope :: w, y.isText = true) ↔ ∀ y ∈ w, y.isText = true :=
      List.forall_mem_cons.trans (and_iff_right rfl)
    exact hcons.symm
  | typedString type =>
    have hletters (w : List Letter) : w ∈ (typedString type).language ↔ _ := mem_language_typedString
    rw [value_derivative_typedString]
    split
    . next haccepts =>
      exact (Language.leftQuotient_of_letters hletters ⟨literal, scope, haccepts, rfl⟩).symm
    . next haccepts =>
      refine (Language.leftQuotient_of_letters_eq_zero hletters ?_).symm
      rintro ⟨_, _, hother, ⟨⟩⟩
      exact haccepts hother
  | «attribute» names content =>
    refine Eq.symm (Language.leftQuotient_eq_zero ?_)
    rintro w ⟨_, _, _, _, _, ⟨⟩⟩
  | element head =>
    refine Eq.symm (Language.leftQuotient_eq_zero ?_)
    rintro w ⟨_, hsatisfies, ⟨⟩⟩
    exact hsatisfies
  | choice a b iha ihb =>
    rw [value_derivative_choice, languageWith_choice, iha, ihb]
    exact Language.leftQuotient_add.symm
  | sequence a b iha ihb =>
    rw [value_derivative_sequence]
    split
    . next hnullable =>
      rw [languageWith_choice, languageWith_sequence, iha, ihb]
      exact (Language.leftQuotient_mul_of_nil_mem (nullable_iff.1 hnullable)).symm
    . next hnullable =>
      rw [languageWith_sequence, iha]
      exact (Language.leftQuotient_mul (mt nullable_iff.2 hnullable)).symm
  | interleave a b iha ihb =>
    rw [value_derivative_interleave, languageWith_choice, languageWith_interleave,
      languageWith_interleave, iha, ihb]
    exact Language.leftQuotient_shuffle.symm
  | oneOrMore a ih =>
    rw [value_derivative_oneOrMore, languageWith_sequence, Plan.zeroOrMore, Plan.value_bind,
      languageWith_choice, languageWith_oneOrMore, languageWith_of_epsilon, ih, add_comm _ 1,
      Language.one_add_self_mul_kstar_eq_kstar]
    exact Language.leftQuotient_mul_kstar.symm
  | mixed a ih => exact (Language.leftQuotient_mixed_of_isText rfl).symm
  | reference r a ih => exact ih

theorem acceptsValue_iff : (e.acceptsValue value scope).value = true ↔
    [.text value scope] ∈ e.language ∨ Text.isBlank value ∧ [] ∈ e.language := by
  have hderivative : (e.derivative (.text value scope)).value.nullable = true ↔
      [.text value scope] ∈ e.language := by
    rw [nullable_iff, language_derivative_text, Language.mem_leftQuotient]
    rfl
  unfold acceptsValue
  split
  . next hany =>
    subst hany
    refine iff_of_true rfl (Or.inl fun y hy => ?_)
    rw [List.mem_singleton.1 hy]
    rfl
  . rw [derive_text]
    split
    . next hempty =>
      simp only [Bool.and_eq_true, nullable_iff] at hempty
      exact iff_of_true rfl (Or.inr hempty)
    . next hempty =>
      simp only [Bool.and_eq_true, nullable_iff] at hempty
      exact hderivative.trans (or_iff_left hempty).symm

end Form

namespace Store

variable {s : Store} {defs : Definitions} {id a b : ExprId} {e : Form} {x : Letter} {token : Token}

theorem startsWith_iff : s.StartsWith defs x id ↔
    s.Takes defs x id ∨ ∃ a, Opens s defs a id ∧ s.StartsWith defs x a := by
  constructor
  . rintro ⟨y, hopens, hy⟩
    rcases hopens.cases_tail with rfl | ⟨a, hya, haid⟩
    . exact Or.inl hy
    . exact Or.inr ⟨a, haid, y, hya, hy⟩
  . rintro (hid | ⟨a, haid, y, hya, hy⟩)
    . exact ⟨id, .refl, hid⟩
    . exact ⟨y, hya.tail haid, hy⟩

theorem startsWith_of_leaf (hn : (s.node id).isCompound = false)
    (hr : ∀ r, s.node id ≠ .reference r) : s.StartsWith defs x id ↔ s.Takes defs x id := by
  rw [startsWith_iff, or_iff_left]
  rintro ⟨a, hopens, -⟩
  exact Opens.not_of_leaf hn hr hopens

theorem startsWith_of_isCompound (hn : (s.node id).isCompound)
    (hsequence : ∀ a b, s.node id ≠ .sequence a b) : s.StartsWith defs x id ↔
      s.Takes defs x id ∨ ∃ a ∈ (s.node id).children, s.StartsWith defs x a := by
  rw [startsWith_iff]
  simp only [Opens.iff_of_isCompound hn hsequence]

/--
The form tells what the expression can start with.
-/
theorem Shows.startsWith_iff (h : s.Shows defs id e) :
    e.StartsWith token ↔ s.StartsWith defs token.letter id := by
  induction e generalizing id with
  | epsilon | nullSet =>
    have hn := node_eq_of_find? h
    rw [startsWith_of_leaf (by rw [hn]; rfl) (by simp [hn]), Takes, hn, Form.StartsWith]
  | anyString =>
    have hn := node_eq_of_find? h
    rw [startsWith_of_leaf (by rw [hn]; rfl) (by simp [hn]), Takes, hn, Form.StartsWith]
    simp
  | element head =>
    obtain ⟨hid, rfl⟩ := h
    have hn := node_eq_of_find? hid
    rw [startsWith_of_leaf (by rw [hn]; rfl) (by simp [hn]), Takes, hn, Form.StartsWith]
    exact (Token.satisfies_letter token head.id).symm
  | «attribute» names content =>
    obtain ⟨i, hid, hi⟩ := h
    have hn := node_eq_of_find? hid
    rw [startsWith_of_leaf (by rw [hn]; rfl) (by simp [hn]), Takes, hn, Form.StartsWith]
    simp only [Form.acceptsValue_iff, AcceptsValue, hi.language_eq]
    cases token <;> simp [Token.letter]
  | typedString type =>
    obtain ⟨hid, htype⟩ := h
    have hn := node_eq_of_find? hid
    rw [startsWith_of_leaf (by rw [hn]; rfl) (by simp [hn]), Takes, hn, Form.StartsWith]
    rw [htype]
    cases token <;> simp [Token.letter, Token.suits, Definitions.type]
  | choice a b iha ihb | interleave a b iha ihb =>
    obtain ⟨i, j, hid, hi, hj⟩ := h
    have hn := node_eq_of_find? hid
    rw [startsWith_of_isCompound (by rw [hn]; rfl) (by simp [hn]), or_iff_right (by simp [Takes, hn]),
      hn, Form.StartsWith, iha hi, ihb hj]
    simp [Node.children]
  | sequence a b iha ihb =>
    obtain ⟨i, j, hid, hi, hj⟩ := h
    have hn := node_eq_of_find? hid
    have hopens (c : ExprId) : Opens s defs c id ↔ c = i ∨ a.nullable ∧ c = j := by
      rw [Opens.iff_of_sequence hn, ← Empties.iff_nil_mem_language, hi.empties_iff]
    rw [Store.startsWith_iff, or_iff_right (by simp [Takes, hn]), Form.StartsWith, iha hi, ihb hj]
    cases hnullable : a.nullable <;> simp [hopens, hnullable]
  | oneOrMore a ih =>
    obtain ⟨i, hid, hi⟩ := h
    have hn := node_eq_of_find? hid
    rw [startsWith_of_isCompound (by rw [hn]; rfl) (by simp [hn]), or_iff_right (by simp [Takes, hn]),
      hn, Form.StartsWith, ih hi]
    simp [Node.children]
  | mixed a ih =>
    obtain ⟨i, hid, hi⟩ := h
    have hn := node_eq_of_find? hid
    rw [startsWith_of_isCompound (by rw [hn]; rfl) (by simp [hn]), Form.StartsWith, ih hi, Takes, hn]
    simp [Node.children]
  | reference r a ih =>
    obtain ⟨hid, i, hr, hi⟩ := h
    have hn := node_eq_of_find? hid
    have hopens (c : ExprId) : Opens s defs c id ↔ c = i := Opens.iff_of_reference hn hr
    rw [Store.startsWith_iff, or_iff_right (by simp [Takes, hn]), Form.StartsWith, ih hi]
    simp [hopens]

end Store

end TreeGrammar
