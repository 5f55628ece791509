import TreeGrammar.Proofs.Keeping
import TreeGrammar.Proofs.Validating

/-!
This module contains the forms of what has been checked: all declarations in them have been checked
too, and so their contents have forms as well. Whatever events come, there will be no other
declarations.
-/

namespace TreeGrammar

namespace Form

def Over (p : Head → Prop) : Form → Prop
  | .element head => p head
  | .choice a b | .sequence a b | .interleave a b => a.Over p ∧ b.Over p
  | .attribute _ a | .oneOrMore a | .mixed a | .reference _ a => a.Over p
  | .epsilon | .nullSet | .anyString | .typedString _ => True

variable {p : Head → Prop} {a b e : Form} {seen : List Form} {token : Token}
variable {fits : Form → Plan Bool}

theorem Over.heads (h : e.Over p) : ∀ head ∈ e.heads, p head := by
  induction e with
  | element own =>
    intro head hhead
    rwa [List.mem_singleton.1 hhead]
  | choice a b iha ihb | interleave a b iha ihb =>
    intro head hhead
    rcases List.mem_append.1 hhead with hhead | hhead
    . exact iha h.1 head hhead
    . exact ihb h.2 head hhead
  | sequence a b iha ihb =>
    intro head hhead
    rcases List.mem_append.1 hhead with hhead | hhead
    . exact iha h.1 head hhead
    . split at hhead
      . exact ihb h.2 head hhead
      . cases hhead
  | oneOrMore a ih | mixed a ih | reference r a ih => exact ih h
  | _ => simp [Form.heads]

structure Proper (p : Head → Prop) (e : Form) : Prop where
  reduced : e.IsReduced
  declarations : e.Over p

namespace Proper

theorem epsilon : Form.epsilon.Proper p := ⟨trivial, trivial⟩

theorem nullSet : Form.nullSet.Proper p := ⟨trivial, trivial⟩

theorem anyString : Form.anyString.Proper p := ⟨trivial, trivial⟩

theorem operands (h : (Form.choice a b).Proper p) :
    (a.Proper p ∧ a ≠ .nullSet) ∧ b.Proper p ∧ b ≠ .nullSet :=
  ⟨⟨⟨h.reduced.2.1, h.declarations.1⟩, h.reduced.1.1⟩, ⟨h.reduced.2.2, h.declarations.2⟩, h.reduced.1.2⟩

theorem pair (ha : a.Proper p) (hb : b.Proper p) (haNe : a ≠ .nullSet) (hbNe : b ≠ .nullSet) :
    (Form.choice a b).Proper p :=
  ⟨⟨⟨haNe, hbNe⟩, ha.reduced, hb.reduced⟩, ha.declarations, hb.declarations⟩

theorem without (h : e.Proper p) : (Plan.without seen e).Keeps (Proper p) fun e? =>
    ∀ e' ∈ e?, e'.Proper p ∧ (e ≠ .nullSet → e' ≠ .nullSet) := by
  induction e using alternatives_induction with
  | choice a b iha ihb =>
    obtain ⟨⟨ha, haNe⟩, hb, hbNe⟩ := h.operands
    rw [Plan.without_choice]
    split
    . exact .pure (by simp)
    . refine .bind (iha ha) fun a? ha? => .bind (ihb hb) fun b? hb? => ?_
      cases a? with
      | none =>
        cases b? with
        | none => exact .pure (by simp)
        | some b' => exact .pure (by simpa [hbNe] using hb?)
      | some a' =>
        obtain ⟨ha', haNe'⟩ := ha? a' rfl
        cases b? with
        | none => exact .pure (by simpa [haNe] using ha?)
        | some b' =>
          obtain ⟨hb', hbNe'⟩ := hb? b' rfl
          rw [Plan.rejoin_some]
          split
          . exact .pure (by simpa using h)
          . have hpair := pair ha' hb' (haNe' haNe) (hbNe' hbNe)
            have hintern : (Plan.intern (.choice a' b')).Keeps (Proper p) (· = .choice a' b') :=
              ⟨rfl, (Plan.Keeps.intern hpair).built⟩
            refine .bind hintern fun e he => .pure ?_
            rintro _ ⟨⟩
            rw [he]
            exact ⟨hpair, by simp⟩
  | other e hchoice =>
    rw [Plan.without_of_ne hchoice]
    refine .pure ?_
    split
    . simp
    . simpa using h

theorem choice (ha : a.Proper p) (hb : b.Proper p) :
    (Plan.choice a b).Keeps (Proper p) (Proper p) := by
  unfold Plan.choice
  split
  . exact .pure hb
  . next haNe =>
    split
    . exact .pure ha
    . next hbNe =>
      split
      . exact .pure ha
      . refine .bind hb.without fun b? hb? => ?_
        cases b? with
        | none => exact .pure ha
        | some b' => exact .intern (pair ha (hb? b' rfl).1 haNe ((hb? b' rfl).2 hbNe))

theorem joined {join : Form → Form → Form} (hjoin : (Form.choice a b).Proper p → (join a b).Proper p)
    (ha : a.Proper p) (hb : b.Proper p) : (Plan.joined join a b).Keeps (Proper p) (Proper p) :=
  Plan.joined_cases (motive := (·.Keeps (Proper p) (Proper p))) (fun _ => .pure nullSet)
    (fun _ => .pure hb) (fun _ => .pure ha) fun haNe hbNe => .intern (hjoin (pair ha hb haNe hbNe))

theorem sequence (ha : a.Proper p) (hb : b.Proper p) :
    (Plan.sequence a b).Keeps (Proper p) (Proper p) :=
  joined (fun h => ⟨h.reduced, h.declarations⟩) ha hb

theorem interleave (ha : a.Proper p) (hb : b.Proper p) :
    (Plan.interleave a b).Keeps (Proper p) (Proper p) :=
  joined (fun h => ⟨h.reduced, h.declarations⟩) ha hb

theorem oneOrMore (ha : a.Proper p) : (Plan.oneOrMore a).Keeps (Proper p) (Proper p) := by
  unfold Plan.oneOrMore
  split
  . exact .pure ha
  . next hne =>
    rw [not_or] at hne
    split
    . exact .pure ha
    . exact .intern ⟨⟨hne.1, ha.reduced⟩, ha.declarations⟩

theorem zeroOrMore (ha : a.Proper p) : (Plan.zeroOrMore a).Keeps (Proper p) (Proper p) :=
  .bind ha.oneOrMore fun _ hr => choice hr epsilon

theorem mixed (ha : a.Proper p) : (Plan.mixed a).Keeps (Proper p) (Proper p) := by
  unfold Plan.mixed
  split
  . exact .pure ha
  . next hne =>
    split
    . exact .pure anyString
    . split
      . exact .pure ha
      . exact .intern ⟨⟨hne, ha.reduced⟩, ha.declarations⟩

theorem derive (hfits : ∀ e, e.Proper p → (fits e).Keeps (Proper p) fun _ => True)
    (h : e.Proper p) : (e.derive token fits).Keeps (Proper p) (Proper p) := by
  induction e with
  | epsilon | nullSet => exact .pure nullSet
  | anyString =>
    refine .pure ?_
    split
    . exact anyString
    . exact nullSet
  | typedString type =>
    unfold Form.derive
    split
    . refine .pure ?_
      split
      . exact epsilon
      . exact nullSet
    . exact .pure nullSet
  | «attribute» names content ih =>
    unfold Form.derive
    split
    . split
      . refine .bind (hfits content ⟨h.reduced, h.declarations⟩) fun fit _ => ?_
        split
        . exact .pure epsilon
        . exact .pure nullSet
      . exact .pure nullSet
    . exact .pure nullSet
  | element head =>
    refine .pure ?_
    split
    . exact epsilon
    . exact nullSet
  | choice a b iha ihb =>
    obtain ⟨⟨ha, -⟩, hb, -⟩ := h.operands
    exact .bind (iha ha) fun _ hda => .bind (ihb hb) fun _ hdb => hda.choice hdb
  | sequence a b iha ihb =>
    obtain ⟨⟨ha, -⟩, hb, -⟩ := operands ⟨h.reduced, h.declarations⟩
    refine .bind (iha ha) fun _ hda => .bind (hda.sequence hb) fun _ hfirst => ?_
    split
    . exact .bind (ihb hb) fun _ hdb => hfirst.choice hdb
    . exact .pure hfirst
  | interleave a b iha ihb =>
    obtain ⟨⟨ha, -⟩, hb, -⟩ := operands ⟨h.reduced, h.declarations⟩
    refine .bind (iha ha) fun _ hda => .bind (hda.interleave hb) fun _ hfirst => ?_
    refine .bind (ihb hb) fun _ hdb => .bind (ha.interleave hdb) fun _ hsecond => ?_
    exact hfirst.choice hsecond
  | oneOrMore a ih =>
    have ha : a.Proper p := ⟨h.reduced.2, h.declarations⟩
    exact .bind (ih ha) fun _ hda => .bind ha.zeroOrMore fun _ hmore => hda.sequence hmore
  | mixed a ih =>
    unfold Form.derive
    split
    . exact .pure h
    . exact .bind (ih ⟨h.reduced.2, h.declarations⟩) fun _ hda => hda.mixed
  | reference r a ih => exact ih ⟨h.reduced, h.declarations⟩

theorem acceptsValue {value : String} {scope : Scope} (h : e.Proper p) :
    (Form.acceptsValue value scope e).Keeps (Proper p) fun _ => True := by
  unfold Form.acceptsValue
  split
  . exact .pure trivial
  . split
    . exact .pure trivial
    . exact .bind (derive (fun _ _ => .pure trivial) h) fun _ _ => .pure trivial

theorem derivative (token : Token) (h : e.Proper p) :
    (e.derivative token).Keeps (Proper p) (Proper p) := by
  refine derive (fun e he => ?_) h
  unfold acceptsToken
  split
  . exact he.acceptsValue
  . exact .pure trivial

theorem discharge (pending : Pending) (h : e.Proper p) :
    (e.discharge pending).Keeps (Proper p) (Proper p) := by
  induction e with
  | «attribute» =>
    cases pending with
    | missing => exact .pure nullSet
    | granted => exact .pure epsilon
  | choice a b iha ihb =>
    obtain ⟨⟨ha, -⟩, hb, -⟩ := h.operands
    refine .bind (iha ha) fun _ ha' => .bind (ihb hb) fun _ hb' => ?_
    split
    . exact .pure h
    . exact ha'.choice hb'
  | sequence a b iha ihb =>
    obtain ⟨⟨ha, -⟩, hb, -⟩ := operands ⟨h.reduced, h.declarations⟩
    refine .bind (iha ha) fun _ ha' => .bind (ihb hb) fun _ hb' => ?_
    split
    . exact .pure h
    . exact ha'.sequence hb'
  | interleave a b iha ihb =>
    obtain ⟨⟨ha, -⟩, hb, -⟩ := operands ⟨h.reduced, h.declarations⟩
    refine .bind (iha ha) fun _ ha' => .bind (ihb hb) fun _ hb' => ?_
    split
    . exact .pure h
    . exact ha'.interleave hb'
  | oneOrMore a ih =>
    refine .bind (ih ⟨h.reduced.2, h.declarations⟩) fun _ ha' => ?_
    split
    . exact .pure h
    . exact ha'.oneOrMore
  | mixed a ih =>
    refine .bind (ih ⟨h.reduced.2, h.declarations⟩) fun _ ha' => ?_
    split
    . exact .pure h
    . exact ha'.mixed
  | reference r a ih =>
    refine .bind (ih ⟨h.reduced, h.declarations⟩) fun _ ha' => .pure ?_
    split
    . exact h
    . exact ha'
  | _ => exact .pure h

theorem required (h : e.Proper p) :
    e.required.run.Keeps (Proper p) fun e? => ∀ e ∈ e?, e.Proper p := by
  induction e with
  | nullSet => exact .pure (by simp)
  | epsilon | anyString | typedString | element => exact .pure (by simpa using epsilon)
  | «attribute» => exact .pure (by simpa using h)
  | oneOrMore a ih | mixed a ih => exact ih ⟨h.reduced.2, h.declarations⟩
  | reference r a ih => exact ih ⟨h.reduced, h.declarations⟩
  | sequence a b iha ihb | interleave a b iha ihb =>
    obtain ⟨⟨ha, -⟩, hb, -⟩ := operands ⟨h.reduced, h.declarations⟩
    refine .attempt (iha ha) fun p hp => .attempt (ihb hb) fun q hq => .pure ?_
    rintro _ ⟨⟩
    split
    . exact hp
    . split
      . exact hq
      . exact epsilon
  | choice a b iha ihb =>
    obtain ⟨⟨ha, -⟩, hb, -⟩ := h.operands
    refine .attempt (iha ha) fun p hp => .attempt (ihb hb) fun q hq => ?_
    split
    . exact .pure (by simpa using epsilon)
    . exact (hp.choice hq).attempted

end Proper

theorem stable_proper (p : Head → Prop) : Stable (Proper p) where
  nullSet := .nullSet
  choice := Proper.choice
  derivative token _ h := h.derivative token
  discharge pending _ h := h.discharge pending
  required h := h.required.mono fun _ _ => trivial

end Form

def Head.IsVetted (s : Store) (defs : Definitions) (head : Head) : Prop :=
  Vetted s defs head.content

open Classical in
noncomputable def Store.form (s : Store) (defs : Definitions) (id : ExprId) : Form :=
  if h : ∃ e, s.Shows defs id e then h.choose else .nullSet

noncomputable def Grammar.form (s : Store) (defs : Definitions) (gr : Grammar) : Form.Grammar where
  anyContent := s.form defs gr.anyContent
  contents := s.form defs

noncomputable def Slot.form (s : Store) (defs : Definitions) (slot : Slot) : Form.Slot where
  owner := slot.owner
  content := s.form defs slot.content

noncomputable def Matcher.form (s : Store) (defs : Definitions) : Matcher → Form.Matcher
  | .single state owner => .single (s.form defs state) owner
  | .several state slots => .several (s.form defs state) (slots.map (Slot.form s defs))

noncomputable def OpenElement.form (s : Store) (defs : Definitions) (e : OpenElement) :
    Form.OpenElement :=
  { e with matcher := e.matcher.form s defs }

noncomputable def Validation.form (s : Store) (defs : Definitions) (v : Validation) :
    Form.Validation :=
  { v with
    document := v.document.form s defs
    elements := v.elements.map (OpenElement.form s defs) }

variable {s t : Store} {defs : Definitions} {id : ExprId} {e : Form} {gr : Grammar} {m : Matcher}
variable {v : Validation}

theorem Store.Shows.form_eq (h : s.Shows defs id e) : s.form defs id = e := by
  have hexists : ∃ e, s.Shows defs id e := ⟨e, h⟩
  rw [Store.form, dif_pos hexists]
  exact hexists.choose_spec.unique h

theorem Store.ShowsMatcher.form_eq {m' : Form.Matcher} (h : s.ShowsMatcher defs m m') :
    m.form s defs = m' := by
  cases m <;> cases m'
  . obtain ⟨hstate, rfl⟩ := h
    rw [Matcher.form, hstate.form_eq]
  . exact h.elim
  . exact h.elim
  . obtain ⟨hstate, hslots⟩ := h
    rw [Matcher.form, hstate.form_eq]
    congr 1
    rw [← List.forall₂_eq_eq_eq, List.forall₂_map_left_iff]
    refine hslots.imp fun slot slot' hslot => ?_
    rw [Slot.form, hslot.1, hslot.2.form_eq]

theorem Store.ShowsElement.form_eq {e : OpenElement} {e' : Form.OpenElement}
    (h : s.ShowsElement defs e e') : e.form s defs = e' := by
  rw [OpenElement.form, h.matcher.form_eq, h.name, h.faulty, h.hasContent, h.declared]

theorem Store.ShowsValidation.form_eq {v' : Form.Validation} (h : s.ShowsValidation defs v v') :
    v.form s defs = v' := by
  have helements : v.elements.map (OpenElement.form s defs) = v'.elements := by
    rw [← List.forall₂_eq_eq_eq, List.forall₂_map_left_iff]
    exact h.elements.imp fun _ _ he => he.form_eq
  rw [Validation.form, h.document.form_eq, helements, h.scope, h.text, h.errors]

theorem Store.Shows.declarations (h : s.Shows defs id e) (hwithin : defs.Within s)
    (hmade : Made s (Vetted s defs) id) : e.Over (Head.IsVetted s defs) := by
  have operand {id i : ExprId} {n : Node} (hmade : Made s (Vetted s defs) id)
      (hid : s.find? n = some id) (hi : i ∈ n.children)
      (helement : ∀ names content, n ≠ .element names content) : Made s (Vetted s defs) i := by
    rw [← node_eq_of_find? hid] at hi helement
    exact hmade.part (.vetted_self hwithin) (.operand helement hi)
  induction e generalizing id with
  | epsilon | nullSet | anyString | typedString => trivial
  | element head =>
    have hn := node_eq_of_find? h.1
    have hne : id ≠ .nullSet := by
      rintro rfl
      simp at hn
    exact ((hmade.built hne).base_of_element hn).content hn
  | «attribute» names a ih | oneOrMore a ih | mixed a ih =>
    obtain ⟨i, hid, ha⟩ := h
    exact ih ha (operand hmade hid (by simp [Node.children]) (by simp))
  | choice a b iha ihb | sequence a b iha ihb | interleave a b iha ihb =>
    obtain ⟨i, j, hid, ha, hb⟩ := h
    exact ⟨iha ha (operand hmade hid (by simp [Node.children]) (by simp)),
      ihb hb (operand hmade hid (by simp [Node.children]) (by simp))⟩
  | reference r a ih =>
    obtain ⟨hid, i, hr, ha⟩ := h
    exact ih ha (hmade.part (.vetted_self hwithin) (.target (node_eq_of_find? hid) hr))

theorem Made.shows (h : Made s (Vetted s defs) id) (hwithin : defs.Within s) :
    s.Shows defs id (s.form defs id) := by
  have hguarded := h.guarded fun _ ha => ha.checked.guarded
  obtain ⟨e, he⟩ := Store.exists_shows hguarded hwithin (h.mem fun _ ha => ha.mem)
  rwa [he.form_eq]

theorem Vetted.shows (h : Vetted s defs id) (hwithin : defs.Within s) :
    s.Shows defs id (s.form defs id) :=
  Made.shows (Or.inr (.base h)) hwithin

theorem Made.proper (h : Made s (Vetted s defs) id) (hwithin : defs.Within s)
    (hs : s.IsReduced) : (s.form defs id).Proper (Head.IsVetted s defs) :=
  ⟨(h.shows hwithin).isReduced hs, (h.shows hwithin).declarations hwithin h⟩

theorem Vetted.proper (h : Vetted s defs id) (hwithin : defs.Within s) (hs : s.IsReduced) :
    (s.form defs id).Proper (Head.IsVetted s defs) :=
  Made.proper (Or.inr (.base h)) hwithin hs

theorem Grammar.keeps_proper (hwithin : defs.Within s) (hs : s.IsReduced)
    (hany : Vetted s defs gr.anyContent) :
    (gr.form s defs).Keeps (Form.Proper (Head.IsVetted s defs)) where
  stable := Form.stable_proper _
  anyContent := hany.proper hwithin hs
  contents _ he head hhead := Vetted.proper (he.declarations.heads head hhead) hwithin hs

theorem Grammar.shows_form (hwithin : defs.Within s) (hany : Vetted s defs gr.anyContent)
    (hst : s ≤ t) (he : e.Over (Head.IsVetted s defs)) :
    t.ShowsGrammar defs gr (gr.form s defs) e.heads where
  anyContent := (hany.shows hwithin).of_le hst le_rfl
  contents head hhead := (Vetted.shows (he.heads head hhead) hwithin).of_le hst le_rfl

theorem Matcher.IsVetted.shows (hm : m.IsVetted s defs) (hwithin : defs.Within s) :
    s.ShowsMatcher defs m (m.form s defs) := by
  cases m with
  | single state owner => exact ⟨hm.state.shows hwithin, rfl⟩
  | several state slots =>
    refine ⟨hm.state.shows hwithin, ?_⟩
    rw [List.forall₂_map_right_iff, List.forall₂_same]
    exact fun slot hslot => ⟨rfl, (hm.slots slot hslot).2.shows hwithin⟩

theorem Matcher.IsVetted.all {P : Form → Prop} (hm : m.IsVetted s defs)
    (h : ∀ id, Made s (Vetted s defs) id → P (s.form defs id)) : (m.form s defs).All P := by
  cases m with
  | single state owner => exact h state hm.state
  | several state slots =>
    refine ⟨h state hm.state, ?_⟩
    intro slot' hslot'
    obtain ⟨slot, hslot, rfl⟩ := List.mem_map.1 hslot'
    exact h slot.content (hm.slots slot hslot).2

namespace Validation.IsVetted

theorem document (hv : v.IsVetted s defs) : v.document.matcher.IsVetted s defs := by
  obtain ⟨document, elements⟩ := v
  cases elements with
  | nil => exact hv.innermost
  | cons e elements => exact hv.outer _ (by simp [Validation.outer])

theorem elements (hv : v.IsVetted s defs) : ∀ e ∈ v.elements, e.matcher.IsVetted s defs := by
  obtain ⟨document, elements⟩ := v
  cases elements with
  | nil => simp
  | cons e elements =>
    rw [List.forall_mem_cons]
    exact ⟨hv.innermost, fun e he => hv.outer e (List.mem_append_left _ he)⟩

theorem shows (hv : v.IsVetted s defs) (hwithin : defs.Within s) :
    s.ShowsValidation defs v (v.form s defs) where
  document := ⟨hv.document.shows hwithin, rfl, rfl, rfl, rfl⟩
  elements := by
    have helements := hv.elements
    dsimp only [form]
    rw [List.forall₂_map_right_iff, List.forall₂_same]
    exact fun e he => ⟨(helements e he).shows hwithin, rfl, rfl, rfl, rfl⟩
  scope := rfl
  text := rfl
  errors := rfl

theorem all {P : Form → Prop} (hv : v.IsVetted s defs)
    (h : ∀ id, Made s (Vetted s defs) id → P (s.form defs id)) : (v.form s defs).All P where
  document := hv.document.all h
  elements := by
    intro e' he'
    obtain ⟨e, he, rfl⟩ := List.mem_map.1 he'
    exact (hv.elements e he).all h

theorem proper (hv : v.IsVetted s defs) (hwithin : defs.Within s) (hs : s.IsReduced) :
    (v.form s defs).All (Form.Proper (Head.IsVetted s defs)) :=
  hv.all fun _ h => h.proper hwithin hs

end Validation.IsVetted

end TreeGrammar
