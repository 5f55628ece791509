import TreeGrammar.Proofs.Keeping

/-!
This module contains what becomes of the alternatives of a form: a choice has those of both sides, each
of them once more at most, and whatever consumes a token or discharges attributes does so with each
alternative on its own. Something is left of what is reduced after a token exactly if something that can
come first takes it.
-/

namespace TreeGrammar

def Token.isElement : Token → Bool
  | .element _ | .anyElement => true
  | .text .. | .attribute .. => false

theorem Token.isText_of_isElement {token : Token} (h : token.isElement) : token.isText = false := by
  cases token with
  | text => cases h
  | _ => rfl

theorem Token.isElement_of_satisfies {token : Token} {id : ExprId} (h : token.satisfies id) :
    token.isElement := by
  cases token with
  | element | anyElement => rfl
  | _ => cases h

namespace Form

variable {a b e x : Form} {token : Token} {pending : Pending} {seen : List Form}

theorem ne_of_mem_alternatives (h : x ∈ e.alternatives) :
    (∀ a b, x ≠ .choice a b) ∧ x ≠ .nullSet := by
  induction e using alternatives_induction with
  | choice a b iha ihb => exact (List.mem_append.1 h).elim iha ihb
  | other e hchoice =>
    by_cases hnull : e = .nullSet
    . simp [hnull] at h
    . rw [alternatives_of_ne hchoice hnull] at h
      rw [List.mem_singleton.1 h]
      exact ⟨hchoice, hnull⟩

theorem alternatives_of_mem_alternatives (h : x ∈ e.alternatives) : x.alternatives = [x] :=
  alternatives_of_ne (ne_of_mem_alternatives h).1 (ne_of_mem_alternatives h).2

theorem isReduced_of_mem_alternatives (he : e.IsReduced) (hx : x ∈ e.alternatives) : x.IsReduced := by
  induction e using alternatives_induction with
  | choice a b iha ihb => exact (List.mem_append.1 hx).elim (iha he.2.1) (ihb he.2.2)
  | other e hchoice =>
    by_cases hnull : e = .nullSet
    . simp [hnull] at hx
    . rw [alternatives_of_ne hchoice hnull] at hx
      rwa [List.mem_singleton.1 hx]

theorem alternatives_ne_nil (he : e.IsReduced) (hne : e ≠ .nullSet) : e.alternatives ≠ [] := by
  induction e using alternatives_induction with
  | choice a b iha ihb =>
    exact fun hnil => iha he.2.1 he.1.1 (List.append_eq_nil_iff.1 hnil).1
  | other e hchoice => simp [alternatives_of_ne hchoice hne]

theorem alternatives_without (hseen : ∀ x ∈ seen, ∀ a b, x ≠ .choice a b) :
    (Plan.without seen e).value.elim [] alternatives =
      e.alternatives.filter fun x => !decide (x ∈ seen) := by
  induction e using alternatives_induction with
  | choice a b iha ihb =>
    have hnew : Form.choice a b ∉ seen := fun h => hseen _ h a b rfl
    rw [Plan.without_choice, if_neg hnew, alternatives_of_choice, List.filter_append, ← iha, ← ihb]
    rw [Plan.value_bind, Plan.value_bind]
    generalize (Plan.without seen a).value = a?, (Plan.without seen b).value = b?
    cases a? with
    | none =>
      cases b? with
      | none => rfl
      | some b' => rfl
    | some a' =>
      cases b? with
      | none => exact (List.append_nil _).symm
      | some b' =>
        rw [Plan.value_rejoin_some]
        rfl
  | other e hchoice =>
    rw [Plan.without_of_ne hchoice]
    by_cases hnull : e = .nullSet
    . subst hnull
      split <;> rfl
    . rw [alternatives_of_ne hchoice hnull]
      split
      . next h => simp [h]
      . next h =>
        rw [List.filter_cons_of_pos (by simpa using h)]
        exact alternatives_of_ne hchoice hnull

theorem choice_nullSet : (Plan.choice e .nullSet).value = e := by
  unfold Plan.choice
  split
  . next h => exact h.symm
  . rw [if_pos rfl]
    rfl

theorem alternatives_choice : (Plan.choice a b).value.alternatives =
    a.alternatives ++ b.alternatives.filter fun x => !decide (x ∈ a.alternatives) := by
  have hwithout := @alternatives_without b a.alternatives fun x hx => (ne_of_mem_alternatives hx).1
  unfold Plan.choice
  split
  . next ha => simp [ha]
  . split
    . next hb => simp [hb]
    . split
      . next hab =>
        subst hab
        rw [List.filter_eq_nil_iff.2 (by simp), List.append_nil]
        rfl
      . rw [← hwithout, Plan.value_bind]
        cases (Plan.without a.alternatives b).value with
        | none => exact (List.append_nil _).symm
        | some b' => rfl

theorem mem_alternatives_choice : x ∈ (Plan.choice a b).value.alternatives ↔
    x ∈ a.alternatives ∨ x ∈ b.alternatives := by
  rw [alternatives_choice, List.mem_append, List.mem_filter]
  by_cases h : x ∈ a.alternatives <;> simp [h]

theorem value_derivative_anyString :
    (Form.anyString.derivative token).value = if token.isText then .anyString else .nullSet := rfl

theorem value_derivative_typedString {type : DeclaredType} {literal : String} {scope : Scope} :
    ((Form.typedString type).derivative (.text literal scope)).value =
      if type.datatype.accepts scope literal then .epsilon else .nullSet := rfl

theorem value_derivative_element {head : Head} : ((Form.element head).derivative token).value =
    if token.satisfies head.id then .epsilon else .nullSet := rfl

theorem value_derivative_attribute {names : NameClass} {content : Form} {name : Name} {value : String}
    {scope : Scope} : ((Form.attribute names content).derivative (.attribute name value scope)).value =
      if names.contains name && (content.acceptsValue value scope).value then .epsilon
      else .nullSet := by
  rw [derivative, derive]
  cases names.contains name with
  | false => rfl
  | true =>
    change (acceptsValue value scope content >>= fun fits => _ : Plan Form).value = _
    rw [Plan.value_bind]
    cases (acceptsValue value scope content).value <;> rfl

theorem value_derivative_choice : ((Form.choice a b).derivative token).value =
    (Plan.choice (a.derivative token).value (b.derivative token).value).value := rfl

theorem value_derivative_sequence : ((Form.sequence a b).derivative token).value =
    if a.nullable then
      (Plan.choice (Plan.sequence (a.derivative token).value b).value
        (b.derivative token).value).value
    else (Plan.sequence (a.derivative token).value b).value := by
  rw [derivative, derive, Plan.value_bind, Plan.value_bind]
  split <;> rfl

theorem value_derivative_interleave : ((Form.interleave a b).derivative token).value =
    (Plan.choice (Plan.interleave (a.derivative token).value b).value
      (Plan.interleave a (b.derivative token).value).value).value := rfl

theorem value_derivative_oneOrMore : ((Form.oneOrMore a).derivative token).value =
    (Plan.sequence (a.derivative token).value (Plan.zeroOrMore a).value).value := rfl

theorem value_derivative_mixed (htext : token.isText = false) :
    ((Form.mixed a).derivative token).value = (Plan.mixed (a.derivative token).value).value := by
  cases token with
  | text => cases htext
  | _ => rfl

theorem mem_alternatives_derivative : x ∈ (e.derivative token).value.alternatives ↔
    ∃ a ∈ e.alternatives, x ∈ (a.derivative token).value.alternatives :=
  iff_exists_alternative (P := fun e => x ∈ (e.derivative token).value.alternatives)
    (fun _ _ => mem_alternatives_choice) List.not_mem_nil e

theorem mem_alternatives_discharge : x ∈ (e.discharge pending).value.alternatives ↔
    ∃ a ∈ e.alternatives, x ∈ (a.discharge pending).value.alternatives := by
  refine iff_exists_alternative (P := fun e => x ∈ (e.discharge pending).value.alternatives)
    (fun a b => ?_) List.not_mem_nil e
  rw [discharge, Plan.value_bind, Plan.value_bind]
  split
  . next hsame =>
    rw [hsame.1, hsame.2]
    exact List.mem_append
  . exact mem_alternatives_choice

theorem nullable_iff_alternatives : e.nullable = true ↔ ∃ a ∈ e.alternatives, a.nullable = true :=
  iff_exists_alternative (P := fun e => e.nullable = true) (fun _ _ => Bool.or_eq_true_iff)
    Bool.false_ne_true e

theorem choice_eq_nullSet_iff :
    (Plan.choice a b).value = .nullSet ↔ a = .nullSet ∧ b = .nullSet := by
  constructor
  . unfold Plan.choice
    split
    . next ha => exact fun hb => ⟨ha, hb⟩
    . next ha =>
      split
      . exact fun h => absurd h ha
      . split
        . exact fun h => absurd h ha
        . rw [Plan.value_bind]
          cases (Plan.without a.alternatives b).value with
          | none => exact fun h => absurd h ha
          | some b' => exact nofun
  . rintro ⟨rfl, rfl⟩
    rfl

theorem choice_ne_nullSet (h : a ≠ .nullSet ∨ b ≠ .nullSet) : (Plan.choice a b).value ≠ .nullSet :=
  mt choice_eq_nullSet_iff.1 (not_and_or.2 h)

theorem joined_eq_nullSet_iff (join : Form → Form → Form) (hjoin : join a b ≠ .nullSet) :
    (Plan.joined join a b).value = .nullSet ↔ a = .nullSet ∨ b = .nullSet := by
  refine Plan.joined_cases
    (motive := fun plan => plan.value = .nullSet ↔ a = .nullSet ∨ b = .nullSet) ?_ ?_ ?_ ?_
  . exact iff_of_true rfl
  . rintro rfl
    simp
  . rintro rfl
    simp
  . intro ha hb
    exact iff_of_false hjoin (not_or.2 ⟨ha, hb⟩)

theorem sequence_eq_nullSet_iff :
    (Plan.sequence a b).value = .nullSet ↔ a = .nullSet ∨ b = .nullSet :=
  joined_eq_nullSet_iff .sequence (by simp)

theorem interleave_eq_nullSet_iff :
    (Plan.interleave a b).value = .nullSet ↔ a = .nullSet ∨ b = .nullSet :=
  joined_eq_nullSet_iff .interleave (by simp)

theorem sequence_nullSet : (Plan.sequence e .nullSet).value = .nullSet :=
  sequence_eq_nullSet_iff.2 (Or.inr rfl)

theorem interleave_nullSet : (Plan.interleave e .nullSet).value = .nullSet :=
  interleave_eq_nullSet_iff.2 (Or.inr rfl)

theorem oneOrMore_ne_nullSet (ha : a ≠ .nullSet) : (Plan.oneOrMore a).value ≠ .nullSet := by
  unfold Plan.oneOrMore
  split
  . exact ha
  . split
    . simp
    . simp [Plan.intern]

theorem zeroOrMore_ne_nullSet : (Plan.zeroOrMore a).value ≠ .nullSet :=
  choice_ne_nullSet (Or.inr (by simp))

theorem mixed_ne_nullSet (ha : a ≠ .nullSet) : (Plan.mixed a).value ≠ .nullSet := by
  unfold Plan.mixed
  rw [if_neg ha]
  split
  . simp
  . split
    . simp
    . simp [Plan.intern]

theorem mixed_eq_nullSet_iff : (Plan.mixed a).value = .nullSet ↔ a = .nullSet := by
  refine ⟨not_imp_not.1 mixed_ne_nullSet, ?_⟩
  rintro rfl
  rfl

def StartsWith (token : Token) : Form → Prop
  | .epsilon | .nullSet => False
  | .anyString => token.isText
  | .typedString type => token.suits type
  | .attribute names content => ∃ name value scope, token = .attribute name value scope ∧
      names.contains name ∧ (content.acceptsValue value scope).value
  | .element head => token.satisfies head.id
  | .choice a b | .interleave a b => a.StartsWith token ∨ b.StartsWith token
  | .sequence a b => a.StartsWith token ∨ a.nullable ∧ b.StartsWith token
  | .oneOrMore a => a.StartsWith token
  | .mixed a => token.isText ∨ a.StartsWith token
  | .reference _ target => target.StartsWith token

/--
A token leaves nothing exactly if nothing that can come first takes it.
-/
theorem derivative_eq_nullSet_iff (he : e.IsReduced) :
    (e.derivative token).value = .nullSet ↔ ¬ e.StartsWith token := by
  induction e with
  | epsilon | nullSet => exact iff_of_true rfl nofun
  | anyString => simp [value_derivative_anyString, StartsWith]
  | typedString type => cases token <;> simp [derivative, derive, StartsWith, Token.suits]
  | «attribute» names content =>
    cases token with
    | «attribute» name value scope => simp [value_derivative_attribute, StartsWith]
    | _ => exact iff_of_true rfl (by simp [StartsWith])
  | element head => simp [value_derivative_element, StartsWith]
  | choice a b iha ihb =>
    rw [value_derivative_choice, choice_eq_nullSet_iff, iha he.2.1, ihb he.2.2, ← not_or]
    rfl
  | sequence a b iha ihb =>
    have hfirst : (Plan.sequence (a.derivative token).value b).value = .nullSet ↔
        ¬ a.StartsWith token := by
      rw [sequence_eq_nullSet_iff, or_iff_left he.1.2, iha he.2.1]
    rw [value_derivative_sequence, StartsWith]
    split
    . next hnullable =>
      rw [choice_eq_nullSet_iff, hfirst, ihb he.2.2, ← not_or, and_iff_right hnullable]
    . next hnullable => rw [hfirst, or_iff_left fun h => hnullable h.1]
  | interleave a b iha ihb =>
    rw [value_derivative_interleave, choice_eq_nullSet_iff, interleave_eq_nullSet_iff,
      interleave_eq_nullSet_iff, or_iff_left he.1.2, or_iff_right he.1.1, iha he.2.1, ihb he.2.2,
      ← not_or]
    rfl
  | oneOrMore a ih =>
    rw [value_derivative_oneOrMore, sequence_eq_nullSet_iff, or_iff_left zeroOrMore_ne_nullSet, ih he.2]
    rfl
  | mixed a ih =>
    cases htext : token.isText with
    | true =>
      cases token with
      | text =>
        exact iff_of_false (by simp [derivative, derive, Token.isText])
          (by simp [StartsWith, htext])
      | _ => cases htext
    | false =>
      rw [value_derivative_mixed htext, mixed_eq_nullSet_iff, ih he.2, StartsWith, htext]
      simp
  | reference r a ih => exact ih he

theorem derivative_ne_nullSet_iff (he : e.IsReduced) :
    (e.derivative token).value ≠ .nullSet ↔ e.StartsWith token := by
  rw [ne_eq, derivative_eq_nullSet_iff he, not_not]

theorem Suits.startsWith (h : e.Suits token) : e.StartsWith token := by
  obtain ⟨type, htype, hsuits⟩ := h
  induction e with
  | typedString own =>
    obtain rfl : type = own := List.mem_singleton.1 htype
    exact hsuits
  | choice a b iha ihb | interleave a b iha ihb => exact (List.mem_append.1 htype).imp iha ihb
  | sequence a b iha ihb =>
    refine (List.mem_append.1 htype).imp iha fun htype => ?_
    split at htype
    . next hnullable => exact ⟨hnullable, ihb htype⟩
    . cases htype
  | oneOrMore a ih | reference r a ih => exact ih htype
  | _ => cases htype

theorem startsWith_iff (htoken : token.isElement) :
    e.StartsWith token ↔ ∃ head ∈ e.heads, token.satisfies head.id := by
  induction e with
  | epsilon | nullSet => simp [StartsWith, heads]
  | anyString => simp [StartsWith, heads, Token.isText_of_isElement htoken]
  | typedString type =>
    cases token with
    | text => cases htoken
    | _ => simp [StartsWith, heads, Token.suits]
  | «attribute» names content =>
    refine iff_of_false ?_ (by simp [heads])
    rintro ⟨_, _, _, rfl, _⟩
    cases htoken
  | element head => simp [StartsWith, heads]
  | choice a b iha ihb | interleave a b iha ihb =>
    simp [StartsWith, heads, iha, ihb, or_and_right, exists_or]
  | sequence a b iha ihb =>
    cases hnullable : a.nullable <;>
      simp [StartsWith, heads, iha, ihb, hnullable, or_and_right, exists_or]
  | oneOrMore a ih | reference r a ih => simp [StartsWith, heads, ih]
  | mixed a ih => simp [StartsWith, heads, ih, Token.isText_of_isElement htoken]

end Form

end TreeGrammar
