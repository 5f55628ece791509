import TreeGrammar.Proofs.Alternatives
import TreeGrammar.Proofs.Vetting

/-!
This module contains how derivatives distribute over the operations that build forms. The derivative of
a choice is the choice of the derivatives, although the alternatives that both sides have are taken out
of the one before the derivative and of the others after it.
-/

namespace TreeGrammar

namespace Form

noncomputable def kept (e : Form) : Option Form :=
  if e = .nullSet then none else some e

noncomputable def drop (p : Form → Bool) : Form → Option Form
  | .choice a b => (a.drop p).merge .choice (b.drop p)
  | e => if p e then none else e.kept

variable {a b e e' x : Form} {p q : Form → Bool} {r : Head → Prop} {token : Token}

theorem drop_of_choice : (choice a b).drop p = (a.drop p).merge .choice (b.drop p) := rfl

theorem drop_of_ne (h : ∀ a b, e ≠ .choice a b) : e.drop p = if p e then none else e.kept := by
  cases e with
  | choice a b => exact absurd rfl (h a b)
  | _ => rfl

theorem kept_of_ne (h : e ≠ .nullSet) : e.kept = some e :=
  if_neg h

theorem kept_injective (h : a.kept = b.kept) : a = b := by
  unfold kept at h
  split at h
  . next ha =>
    split at h
    . next hb => rw [ha, hb]
    . cases h
  . split at h
    . cases h
    . exact Option.some.inj h

theorem eq_of_kept (h : e.kept = some e') : e = e' :=
  Option.some.inj ((if_neg fun hnull => by simp [kept, hnull] at h).symm.trans h)

theorem drop_congr (h : ∀ x ∈ e.alternatives, p x = q x) : e.drop p = e.drop q := by
  induction e using alternatives_induction with
  | choice a b iha ihb =>
    rw [drop_of_choice, drop_of_choice, iha fun x hx => h x (List.mem_append_left _ hx),
      ihb fun x hx => h x (List.mem_append_right _ hx)]
  | other e hchoice =>
    rw [drop_of_ne hchoice, drop_of_ne hchoice]
    by_cases hnull : e = .nullSet
    . simp [hnull, kept]
    . rw [h e (by simp [alternatives_of_ne hchoice hnull])]

theorem alternatives_drop :
    (e.drop p).elim [] alternatives = e.alternatives.filter fun x => !p x := by
  induction e using alternatives_induction with
  | choice a b iha ihb =>
    rw [drop_of_choice, alternatives_of_choice, List.filter_append, ← iha, ← ihb]
    cases a.drop p <;> cases b.drop p <;> simp [alternatives_of_choice]
  | other e hchoice =>
    rw [drop_of_ne hchoice]
    by_cases hnull : e = .nullSet
    . simp [hnull, kept]
    . rw [alternatives_of_ne hchoice hnull, kept_of_ne hnull]
      cases hp : p e <;> simp [hp, alternatives_of_ne hchoice hnull]

theorem mem_alternatives_drop :
    (∃ e' ∈ e.drop p, x ∈ e'.alternatives) ↔ x ∈ e.alternatives ∧ p x = false := by
  have hmem : (∃ e' ∈ e.drop p, x ∈ e'.alternatives) ↔ x ∈ (e.drop p).elim [] alternatives := by
    cases e.drop p <;> simp
  rw [hmem, alternatives_drop, List.mem_filter, Bool.not_eq_true']

theorem merge_bind_drop (a? b? : Option Form) : (a?.merge .choice b?).bind (drop p) =
    (a?.bind (drop p)).merge .choice (b?.bind (drop p)) := by
  cases a? <;> cases b? <;> simp [drop_of_choice]

theorem kept_bind_drop : e.kept.bind (drop p) = e.drop p := by
  by_cases hnull : e = .nullSet
  . simp [hnull, kept, drop_of_ne]
  . rw [kept_of_ne hnull, Option.bind_some]

theorem drop_drop : (e.drop q).bind (drop p) = e.drop fun x => q x || p x := by
  induction e using alternatives_induction with
  | choice a b iha ihb => rw [drop_of_choice, drop_of_choice, merge_bind_drop, iha, ihb]
  | other e hchoice =>
    rw [drop_of_ne hchoice, drop_of_ne hchoice]
    cases hq : q e with
    | true => simp
    | false => simp [kept_bind_drop, drop_of_ne hchoice]

theorem drop_eq_none : e.drop p = none ↔ ∀ x ∈ e.alternatives, p x := by
  induction e using alternatives_induction with
  | choice a b iha ihb =>
    rw [drop_of_choice, Option.merge_eq_none_iff, iha, ihb, alternatives_of_choice,
      List.forall_mem_append]
  | other e hchoice =>
    rw [drop_of_ne hchoice]
    by_cases hnull : e = .nullSet
    . simp [hnull, kept]
    . simp [kept_of_ne hnull, alternatives_of_ne hchoice hnull]

theorem drop_of_not (he : e.Proper r) (h : ∀ x ∈ e.alternatives, p x = false) : e.drop p = e.kept := by
  induction e using alternatives_induction with
  | choice a b iha ihb =>
    obtain ⟨⟨ha, haNe⟩, hb, hbNe⟩ := he.operands
    rw [drop_of_choice, iha ha fun x hx => h x (List.mem_append_left _ hx),
      ihb hb fun x hx => h x (List.mem_append_right _ hx), kept_of_ne haNe, kept_of_ne hbNe]
    rfl
  | other e hchoice =>
    rw [drop_of_ne hchoice]
    by_cases hnull : e = .nullSet
    . simp [hnull, kept]
    . rw [h e (by simp [alternatives_of_ne hchoice hnull])]
      rfl

theorem Proper.drop (he : e.Proper r) (h : e.drop p = some e') : e'.Proper r ∧ e' ≠ .nullSet := by
  induction e using alternatives_induction generalizing e' with
  | choice a b iha ihb =>
    obtain ⟨⟨ha, -⟩, hb, -⟩ := he.operands
    rw [drop_of_choice] at h
    cases ha' : a.drop p with
    | none =>
      rw [ha', Option.merge_none_left] at h
      exact ihb hb h
    | some a' =>
      obtain ⟨haProper, haNe⟩ := iha ha ha'
      cases hb' : b.drop p with
      | none =>
        rw [ha', hb', Option.merge_none_right] at h
        cases h
        exact ⟨haProper, haNe⟩
      | some b' =>
        obtain ⟨hbProper, hbNe⟩ := ihb hb hb'
        rw [ha', hb'] at h
        cases h
        exact ⟨haProper.pair hbProper haNe hbNe, by simp⟩
  | other e hchoice =>
    rw [drop_of_ne hchoice] at h
    split at h
    . cases h
    . by_cases hnull : e = .nullSet
      . simp [hnull, kept] at h
      . rw [kept_of_ne hnull] at h
        cases h
        exact ⟨he, hnull⟩

theorem value_without {seen : List Form} (he : e.Proper r) (hne : e ≠ .nullSet)
    (hseen : ∀ x ∈ seen, ∀ a b, x ≠ .choice a b) :
    (Plan.without seen e).value = e.drop (· ∈ seen) := by
  induction e using alternatives_induction with
  | choice a b iha ihb =>
    obtain ⟨⟨ha, haNe⟩, hb, hbNe⟩ := he.operands
    have hnew : Form.choice a b ∉ seen := fun h => hseen _ h a b rfl
    rw [Plan.without_choice, if_neg hnew, drop_of_choice, Plan.value_bind, Plan.value_bind, iha ha haNe,
      ihb hb hbNe]
    cases a.drop (· ∈ seen) with
    | none => cases b.drop (· ∈ seen) <;> rfl
    | some a' =>
      cases b.drop (· ∈ seen) with
      | none => rfl
      | some b' =>
        rw [Plan.value_rejoin_some]
        rfl
  | other e hchoice =>
    rw [Plan.without_of_ne hchoice, drop_of_ne hchoice, kept_of_ne hne, Plan.value_pure]
    simp

theorem kept_choice (ha : a.Proper r) (hb : b.Proper r) : (Plan.choice a b).value.kept =
    a.kept.merge .choice (b.drop (· ∈ a.alternatives)) := by
  unfold Plan.choice
  split
  . next hnull =>
    subst hnull
    rw [drop_of_not hb (by simp)]
    simp [kept]
  . next haNe =>
    split
    . next hnull => simp [hnull, drop_of_ne, kept]
    . next hbNe =>
      split
      . next hsame =>
        subst hsame
        rw [drop_eq_none.2 (by simp), Option.merge_none_right]
        rfl
      . rw [← value_without hb hbNe fun x hx => (ne_of_mem_alternatives hx).1, kept_of_ne haNe,
          Plan.value_bind]
        cases (Plan.without a.alternatives b).value with
        | none => exact kept_of_ne haNe
        | some b' => rfl

theorem drop_choice (ha : a.Proper r) (hb : b.Proper r) : (Plan.choice a b).value.drop p =
    (a.drop p).merge .choice (b.drop fun x => decide (x ∈ a.alternatives) || p x) := by
  rw [← kept_bind_drop, kept_choice ha hb, merge_bind_drop, kept_bind_drop, drop_drop]

theorem mem_derivative_or (hpq : ∀ x ∈ e.alternatives, q x →
      ∀ y ∈ (x.derivative token).value.alternatives, p y) :
    x ∈ (e.derivative token).value.alternatives ∨ p x ↔
      (∃ e' ∈ e.drop q, x ∈ (e'.derivative token).value.alternatives) ∨ p x := by
  constructor
  . rintro (hx | hp)
    . obtain ⟨y, hy, hx⟩ := mem_alternatives_derivative.1 hx
      cases hq : q y with
      | true => exact Or.inr (hpq y hy hq x hx)
      | false =>
        obtain ⟨e', he', hy⟩ := mem_alternatives_drop.2 ⟨hy, hq⟩
        exact Or.inl ⟨e', he', mem_alternatives_derivative.2 ⟨y, hy, hx⟩⟩
    . exact Or.inr hp
  . rintro (⟨e', he', hx⟩ | hp)
    . obtain ⟨y, hy, hx⟩ := mem_alternatives_derivative.1 hx
      obtain ⟨hy, -⟩ := mem_alternatives_drop.1 ⟨e', he', hy⟩
      exact Or.inl (mem_alternatives_derivative.2 ⟨y, hy, hx⟩)
    . exact Or.inr hp

/--
Where all that comes of some alternatives is dropped from a derivative, the alternatives can be
dropped before as well.
-/
theorem drop_derivative (he : e.Proper r) (hpq : ∀ x ∈ e.alternatives, q x →
      ∀ y ∈ (x.derivative token).value.alternatives, p y) :
    (e.derivative token).value.drop p =
      (e.drop q).bind fun e' => (e'.derivative token).value.drop p := by
  induction e using alternatives_induction generalizing p with
  | choice a b iha ihb =>
    obtain ⟨⟨ha, -⟩, hb, -⟩ := he.operands
    have hpqa := fun x (hx : x ∈ a.alternatives) => hpq x (List.mem_append_left _ hx)
    have hpqb := fun x (hx : x ∈ b.alternatives) => hpq x (List.mem_append_right _ hx)
    -- what the first side leaves has to be dropped from the second one too
    let s (a : Form) (x : Form) : Bool := decide (x ∈ (a.derivative token).value.alternatives) || p x
    have hb' : (b.derivative token).value.drop (s a) =
        (b.drop q).bind fun b' => (b'.derivative token).value.drop (s a) :=
      ihb hb fun x hx hq y hy => by simp [s, hpqb x hx hq y hy]
    rw [value_derivative_choice, drop_choice (ha.derivative token).value (hb.derivative token).value,
      iha ha hpqa, hb', drop_of_choice]
    have hsame := fun x => mem_derivative_or (x := x) hpqa
    cases haDrop : a.drop q with
    | none =>
      simp only [haDrop, Option.not_mem_none, false_and, exists_false, false_or] at hsame
      rw [Option.bind_none, Option.merge_none_left, Option.merge_none_left]
      congr 1
      funext b'
      refine drop_congr fun x _ => ?_
      rw [Bool.eq_iff_iff]
      simpa [s] using hsame x
    | some a' =>
      simp only [haDrop, Option.mem_some_iff, exists_eq_left'] at hsame
      cases hbDrop : b.drop q with
      | none => simp
      | some b' =>
        have ha' := (ha.drop haDrop).1
        have hb' := (hb.drop hbDrop).1
        rw [Option.bind_some, Option.bind_some, Option.merge_some_some, Option.bind_some,
          value_derivative_choice,
          drop_choice (ha'.derivative token).value (hb'.derivative token).value]
        congr 1
        refine drop_congr fun x _ => ?_
        rw [Bool.eq_iff_iff]
        simpa [s] using hsame x
  | other e hchoice =>
    rw [drop_of_ne hchoice]
    by_cases hnull : e = .nullSet
    . subst hnull
      have hvalue : (Form.nullSet.derivative token).value = .nullSet := rfl
      simp [kept, hvalue, drop_of_ne]
    . rw [kept_of_ne hnull]
      split
      . next hq =>
        refine drop_eq_none.2 ?_
        exact hpq e (by simp [alternatives_of_ne hchoice hnull]) hq
      . rfl

theorem derivative_choice (ha : a.Proper r) (hb : b.Proper r) (token : Token) :
    ((Plan.choice a b).value.derivative token).value =
      (Plan.choice (a.derivative token).value (b.derivative token).value).value := by
  by_cases haNull : a = .nullSet
  . subst haNull
    rfl
  . have hshrink : (b.derivative token).value.drop (· ∈ (a.derivative token).value.alternatives) =
        (b.drop (· ∈ a.alternatives)).bind fun b' =>
          (b'.derivative token).value.drop (· ∈ (a.derivative token).value.alternatives) := by
      refine drop_derivative hb fun x _ hx y hy => ?_
      rw [decide_eq_true_eq] at hx ⊢
      exact mem_alternatives_derivative.2 ⟨x, hx, hy⟩
    have hchoice := kept_choice ha hb
    rw [kept_of_ne haNull] at hchoice
    apply kept_injective
    rw [kept_choice (ha.derivative token).value (hb.derivative token).value, hshrink]
    cases hbDrop : b.drop (· ∈ a.alternatives) with
    | none =>
      rw [hbDrop, Option.merge_none_right] at hchoice
      rw [eq_of_kept hchoice, Option.bind_none, Option.merge_none_right]
    | some b' =>
      rw [hbDrop, Option.merge_some_some] at hchoice
      have hb' := (hb.drop hbDrop).1
      rw [eq_of_kept hchoice, value_derivative_choice,
        kept_choice (ha.derivative token).value (hb'.derivative token).value, Option.bind_some]

theorem joined_epsilon (join : Form → Form → Form) (e : Form) :
    (Plan.joined join e .epsilon).value = e := by
  unfold Plan.joined
  split
  . next h => exact (h.resolve_right (by simp)).symm
  . split
    . next h => exact h.symm
    . rw [if_pos rfl]
      rfl

theorem epsilon_joined (join : Form → Form → Form) (e : Form) :
    (Plan.joined join .epsilon e).value = e := by
  unfold Plan.joined
  split
  . next h => exact (h.resolve_left (by simp)).symm
  . rw [if_pos rfl]
    rfl

theorem sequence_epsilon : (Plan.sequence e .epsilon).value = e := joined_epsilon .sequence e

theorem epsilon_interleave : (Plan.interleave .epsilon e).value = e := epsilon_joined .interleave e

theorem interleave_epsilon : (Plan.interleave e .epsilon).value = e := joined_epsilon .interleave e

theorem derivative_sequence (a b : Form) (token : Token) :
    ((Plan.sequence a b).value.derivative token).value = if a.nullable then
        (Plan.choice (Plan.sequence (a.derivative token).value b).value
          (b.derivative token).value).value
      else (Plan.sequence (a.derivative token).value b).value := by
  have hnull : (Form.nullSet.derivative token).value = .nullSet := rfl
  have hunit : (Form.epsilon.derivative token).value = .nullSet := rfl
  rw [← value_derivative_sequence]
  unfold Plan.sequence
  split
  . next hne =>
    obtain rfl | rfl := hne
    . rfl
    . rw [value_derivative_sequence, sequence_nullSet, hnull, choice_nullSet, ite_self]
      rfl
  . split
    . next ha =>
      subst ha
      rfl
    . split
      . next hb =>
        subst hb
        rw [value_derivative_sequence, sequence_epsilon, hunit, choice_nullSet, ite_self]
        rfl
      . rfl

theorem derivative_interleave (a b : Form) (token : Token) :
    ((Plan.interleave a b).value.derivative token).value =
      (Plan.choice (Plan.interleave (a.derivative token).value b).value
        (Plan.interleave a (b.derivative token).value).value).value := by
  have hnull : (Form.nullSet.derivative token).value = .nullSet := rfl
  have hunit : (Form.epsilon.derivative token).value = .nullSet := rfl
  by_cases hne : a = .nullSet ∨ b = .nullSet
  . obtain rfl | rfl := hne
    . rfl
    . rw [interleave_nullSet, interleave_nullSet, hnull, interleave_nullSet]
      rfl
  . by_cases ha : a = .epsilon
    . subst ha
      rw [epsilon_interleave, epsilon_interleave]
      rfl
    . by_cases hb : b = .epsilon
      . subst hb
        rw [interleave_epsilon, interleave_epsilon, hunit, interleave_nullSet, choice_nullSet]
      . have hinterleave : (Plan.interleave a b).value = .interleave a b := by
          unfold Plan.interleave
          rw [if_neg hne, if_neg ha, if_neg hb]
          rfl
        rw [hinterleave]
        rfl

end Form

end TreeGrammar
