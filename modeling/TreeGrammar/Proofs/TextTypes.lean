import TreeGrammar.Proofs.Heads
import TreeGrammar.Proofs.Shown

/-!
This module contains the datatypes that a text that comes next can belong to, and what is to be noted of
them when the derivative by a text is taken.
-/

namespace TreeGrammar

open Relation

def Token.suits : Token → DeclaredType → Bool
  | .text literal scope, type => type.datatype.accepts scope literal
  | _, _ => false

def OpensText (s : Store) (defs : Definitions) (a id : ExprId) : Prop :=
  Opens s defs a id ∧ ∀ b, s.node id ≠ .mixed b

/--
A text that comes next in the expression can belong to the datatype.
-/
def Store.HasTextType (s : Store) (defs : Definitions) (id : ExprId) (type : DeclaredType) : Prop :=
  ∃ y number, ReflTransGen (OpensText s defs) y id ∧ s.node y = .typedString number ∧
    type = defs.type number

namespace Form

def textTypes : Form → List DeclaredType
  | .typedString type => [type]
  | .choice a b | .interleave a b => a.textTypes ++ b.textTypes
  | .sequence a b => a.textTypes ++ if a.nullable then b.textTypes else []
  | .oneOrMore a => a.textTypes
  | .reference _ target => target.textTypes
  | .epsilon | .nullSet | .anyString | .attribute .. | .element _ | .mixed _ => []

def Suits (token : Token) (e : Form) : Prop :=
  ∃ type ∈ e.textTypes, token.suits type

/--
What is to be noted of the datatypes that accept the token: one of them if there are any, and else
nothing new.
-/
structure Marks (token : Token) (e : Form) (before after : Option DeclaredType) : Prop where
  either : after = before ∨ ∃ type ∈ e.textTypes, token.suits type ∧ after = some type
  isSome : e.Suits token → after.isSome

variable {token : Token} {a b e : Form} {m m' m'' : Option DeclaredType}

namespace Marks

theorem isSome_of_isSome (h : e.Marks token m m') (hm : m.isSome) : m'.isSome := by
  rcases h.either with rfl | ⟨_, _, _, rfl⟩
  . exact hm
  . rfl

theorem of_not_suits (h : ¬ e.Suits token) : e.Marks token m m :=
  ⟨Or.inl rfl, fun hsuits => absurd hsuits h⟩

theorem of_textTypes_eq_nil (h : e.textTypes = []) : e.Marks token m m :=
  of_not_suits (by simp [Suits, h])

theorem accept {type : DeclaredType} (h : token.suits type) :
    (typedString type).Marks token m (some type) :=
  ⟨Or.inr ⟨type, List.mem_singleton_self _, h, rfl⟩, fun _ => rfl⟩

theorem eq_of_not_isText (h : e.Marks token m m') (htoken : ¬ token.isText) : m' = m := by
  refine h.either.resolve_right ?_
  rintro ⟨_, _, hsuits, _⟩
  cases token with
  | text => exact htoken rfl
  | _ => cases hsuits

theorem later (h : e.Marks token m m') (hm : m'.isSome → m''.isSome) : e.Marks token m'' m'' :=
  ⟨Or.inl rfl, fun hsuits => hm (h.isSome hsuits)⟩

theorem congr (h : a.Marks token m m') (he : e.textTypes = a.textTypes) : e.Marks token m m' := by
  refine ⟨?_, ?_⟩
  . rw [he]
    exact h.either
  . unfold Suits
    rw [he]
    exact h.isSome

theorem trans (ha : a.Marks token m m') (hb : b.Marks token m' m'')
    (he : e.textTypes = a.textTypes ++ b.textTypes) : e.Marks token m m'' := by
  refine ⟨?_, ?_⟩
  . rw [he]
    rcases hb.either with rfl | ⟨type, htype, hsuits, hm⟩
    . refine ha.either.imp_right ?_
      rintro ⟨type, htype, h⟩
      exact ⟨type, List.mem_append_left _ htype, h⟩
    . exact Or.inr ⟨type, List.mem_append_right _ htype, hsuits, hm⟩
  . rintro ⟨type, htype, hsuits⟩
    rw [he] at htype
    rcases List.mem_append.1 htype with htype | htype
    . exact hb.isSome_of_isSome (ha.isSome ⟨type, htype, hsuits⟩)
    . exact hb.isSome ⟨type, htype, hsuits⟩

theorem eq_none_iff (h : e.Marks token none m) : m = none ↔ ¬ e.Suits token := by
  constructor
  . rintro rfl hsuits
    cases h.isSome hsuits
  . intro hsuits
    refine h.either.resolve_right ?_
    rintro ⟨type, htype, haccepts, _⟩
    exact hsuits ⟨type, htype, haccepts⟩

end Marks

end Form

namespace Store

variable {s : Store} {defs : Definitions} {id : ExprId} {e : Form} {type : DeclaredType}

theorem hasTextType_iff : s.HasTextType defs id type ↔
    (∃ number, s.node id = .typedString number ∧ type = defs.type number) ∨
      ∃ a, OpensText s defs a id ∧ s.HasTextType defs a type := by
  constructor
  . rintro ⟨y, number, hopens, hy⟩
    rcases hopens.cases_tail with rfl | ⟨a, hya, haid⟩
    . exact Or.inl ⟨number, hy⟩
    . exact Or.inr ⟨a, haid, y, number, hya, hy⟩
  . rintro (⟨number, hid⟩ | ⟨a, haid, y, number, hya, hy⟩)
    . exact ⟨id, number, .refl, hid⟩
    . exact ⟨y, number, hya.tail haid, hy⟩

theorem not_hasTextType_of_leaf (hn : (s.node id).isCompound = false)
    (hr : ∀ r, s.node id ≠ .reference r) (htype : ∀ number, s.node id ≠ .typedString number) :
    ¬ s.HasTextType defs id type := by
  rw [hasTextType_iff]
  rintro (⟨number, hid, _⟩ | ⟨a, ⟨hopens, _⟩, _⟩)
  . exact htype number hid
  . exact Opens.not_of_leaf hn hr hopens

theorem Shows.mem_textTypes_iff (h : s.Shows defs id e) :
    type ∈ e.textTypes ↔ s.HasTextType defs id type := by
  induction e generalizing id with
  | epsilon | nullSet | anyString =>
    have hn := node_eq_of_find? h
    exact iff_of_false List.not_mem_nil
      (not_hasTextType_of_leaf (by rw [hn]; rfl) (by simp [hn]) (by simp [hn]))
  | element =>
    have hn := node_eq_of_find? h.1
    exact iff_of_false List.not_mem_nil
      (not_hasTextType_of_leaf (by rw [hn]; rfl) (by simp [hn]) (by simp [hn]))
  | «attribute» =>
    obtain ⟨_, hid, _⟩ := h
    have hn := node_eq_of_find? hid
    exact iff_of_false List.not_mem_nil
      (not_hasTextType_of_leaf (by rw [hn]; rfl) (by simp [hn]) (by simp [hn]))
  | mixed =>
    obtain ⟨i, hid, _⟩ := h
    have hn := node_eq_of_find? hid
    refine iff_of_false List.not_mem_nil ?_
    rw [hasTextType_iff, hn]
    rintro (⟨_, htype, _⟩ | ⟨_, ⟨_, hmixed⟩, _⟩)
    . cases htype
    . exact hmixed i hn
  | typedString type' =>
    have hn := node_eq_of_find? h.1
    rw [hasTextType_iff, hn, Form.textTypes, List.mem_singleton]
    refine ⟨fun htype => Or.inl ⟨type'.number, rfl, htype.trans h.2⟩, ?_⟩
    rintro (⟨_, ⟨⟩, htype⟩ | ⟨a, ⟨hopens, _⟩, _⟩)
    . exact htype.trans h.2.symm
    . exact absurd hopens (Opens.not_of_leaf (by rw [hn]; rfl) (by simp [hn]))
  | choice a b iha ihb | interleave a b iha ihb =>
    obtain ⟨i, j, hid, hi, hj⟩ := h
    have hn := node_eq_of_find? hid
    have hopens (c : ExprId) : OpensText s defs c id ↔ c = i ∨ c = j := by
      rw [OpensText, Opens.iff_of_isCompound (by rw [hn]; rfl) (by simp [hn]), hn]
      simp [Node.children]
    rw [hasTextType_iff, hn, Form.textTypes, List.mem_append, iha hi, ihb hj]
    simp [hopens]
  | sequence a b iha ihb =>
    obtain ⟨i, j, hid, hi, hj⟩ := h
    have hn := node_eq_of_find? hid
    have hopens (c : ExprId) : OpensText s defs c id ↔ c = i ∨ a.nullable ∧ c = j := by
      rw [OpensText, Opens.iff_of_sequence hn, hn, ← Empties.iff_nil_mem_language, hi.empties_iff]
      simp
    rw [hasTextType_iff, hn, Form.textTypes, List.mem_append, iha hi]
    cases hnullable : a.nullable with
    | true => simp [hopens, hnullable, ihb hj]
    | false => simp [hopens, hnullable]
  | oneOrMore a ih =>
    obtain ⟨i, hid, hi⟩ := h
    have hn := node_eq_of_find? hid
    have hopens (c : ExprId) : OpensText s defs c id ↔ c = i := by
      rw [OpensText, Opens.iff_of_isCompound (by rw [hn]; rfl) (by simp [hn]), hn]
      simp [Node.children]
    rw [hasTextType_iff, hn, Form.textTypes, ih hi]
    simp [hopens]
  | reference r a ih =>
    obtain ⟨hid, i, hr, hi⟩ := h
    have hn := node_eq_of_find? hid
    have hopens (c : ExprId) : OpensText s defs c id ↔ c = i := by
      rw [OpensText, Opens.iff_of_reference hn hr, hn]
      simp
    rw [hasTextType_iff, hn, Form.textTypes, ih hi]
    simp [hopens]

end Store

end TreeGrammar
