import TreeGrammar.Proofs.Taking

/-!
This module contains what a validation keeps: if a property of forms is stable, which means that the
operations on expressions lead from forms with the property only to such forms, all forms that any
events lead to have it. One such property is to be made of known declarations.
-/

namespace TreeGrammar

structure Plan.Keeps {α : Type} (P : Form → Prop) (plan : Plan α) (Q : α → Prop) : Prop where
  value : Q plan.value
  built : ∀ e ∈ plan.built, P e

namespace Plan.Keeps

variable {α β : Type} {P P' : Form → Prop} {plan : Plan α} {next : α → Plan β} {Q Q' : α → Prop}
variable {R : β → Prop} {e : Form}

theorem pure {a : α} (ha : Q a) : (Pure.pure a : Plan α).Keeps P Q :=
  ⟨ha, by simp⟩

theorem of_value (ha : Q plan.value) : plan.Keeps (fun _ => True) Q :=
  ⟨ha, fun _ _ => trivial⟩

theorem bind (h : plan.Keeps P Q) (hnext : ∀ a, Q a → (next a).Keeps P R) :
    (plan >>= next).Keeps P R := by
  obtain ⟨hvalue, hbuilt⟩ := hnext _ h.value
  refine ⟨hvalue, ?_⟩
  intro e he
  rcases List.mem_append.1 he with he | he
  . exact h.built e he
  . exact hbuilt e he

theorem mono (h : plan.Keeps P Q) (hQ : ∀ a, Q a → Q' a) : plan.Keeps P Q' :=
  ⟨hQ _ h.value, h.built⟩

theorem imp (h : plan.Keeps P Q) (hP : ∀ e, P e → P' e) (hQ : ∀ a, Q a → Q' a) :
    plan.Keeps P' Q' :=
  ⟨hQ _ h.value, fun e he => hP e (h.built e he)⟩

theorem and (h : plan.Keeps P Q) (h' : plan.Keeps P' Q') :
    plan.Keeps (fun e => P e ∧ P' e) fun a => Q a ∧ Q' a :=
  ⟨⟨h.value, h'.value⟩, fun e he => ⟨h.built e he, h'.built e he⟩⟩

theorem intern (he : P e) : (Plan.intern e).Keeps P P :=
  ⟨he, by simpa [Plan.intern] using he⟩

theorem mapM {f : α → Plan β} (l : List α) (h : ∀ a ∈ l, (f a).Keeps P R) :
    (l.mapM f).Keeps P fun bs => ∀ b ∈ bs, R b := by
  induction l with
  | nil => exact .pure (by simp)
  | cons a l ih =>
    rw [List.forall_mem_cons] at h
    rw [List.mapM_cons]
    refine bind h.1 fun b hb => bind (ih h.2) fun bs hbs => .pure ?_
    exact List.forall_mem_cons.2 ⟨hb, hbs⟩

theorem attempt {plan : OptionT Plan α} {next : α → OptionT Plan β}
    (h : plan.run.Keeps P fun a? => ∀ a ∈ a?, Q a)
    (hnext : ∀ a, Q a → (next a).run.Keeps P fun b? => ∀ b ∈ b?, R b) :
    (plan >>= next).run.Keeps P fun b? => ∀ b ∈ b?, R b := by
  rw [Plan.run_attempt]
  refine bind h fun a? ha? => ?_
  cases a? with
  | none => exact .pure (by simp)
  | some a => exact hnext a (ha? a rfl)

theorem attempted (h : plan.Keeps P Q) :
    (liftM plan : OptionT Plan α).run.Keeps P fun a? => ∀ a ∈ a?, Q a :=
  bind h fun a ha => .pure (by simpa using ha)

end Plan.Keeps

namespace Form

/--
The operations on expressions lead from forms with the property only to forms with the property.
-/
structure Stable (P : Form → Prop) : Prop where
  nullSet : P .nullSet
  choice : ∀ {a b}, P a → P b → (Plan.choice a b).Keeps P P
  derivative : ∀ token {e}, P e → (e.derivative token).Keeps P P
  discharge : ∀ pending {e}, P e → (e.discharge pending).Keeps P P
  required : ∀ {e}, P e → e.required.run.Keeps P fun _ => True

theorem Stable.and {P P' : Form → Prop} (h : Stable P) (h' : Stable P') :
    Stable fun e => P e ∧ P' e where
  nullSet := ⟨h.nullSet, h'.nullSet⟩
  choice ha hb := (h.choice ha.1 hb.1).and (h'.choice ha.2 hb.2)
  derivative token _ he := (h.derivative token he.1).and (h'.derivative token he.2)
  discharge pending _ he := (h.discharge pending he.1).and (h'.discharge pending he.2)
  required he := ((h.required he.1).and (h'.required he.2)).mono fun _ _ => trivial

namespace Matcher

def All (P : Form → Prop) : Matcher → Prop
  | .single state _ => P state
  | .several state slots => P state ∧ ∀ slot ∈ slots, P slot.content

variable {P P' : Form → Prop} {m c : Matcher} {token : Token} {pending : Pending} {rest a b : Form}
variable {contents : ExprId → Form} {heads : List Head}

theorem All.state (h : m.All P) : P m.state := by
  cases m with
  | single => exact h
  | several => exact h.1

theorem All.mono (h : m.All P) (hP : ∀ e, P e → P' e) : m.All P' := by
  cases m with
  | single => exact hP _ h
  | several => exact ⟨hP _ h.1, fun slot hslot => hP _ (h.2 slot hslot)⟩

theorem after_keeps (hP : Stable P) (ha : P a) (hb : P b) : (after token a b).Keeps P P := by
  unfold after
  split
  . exact hP.choice ha hb
  . exact .pure hb

theorem advance_keeps (hP : Stable P) (hm : m.All P) (hrest : P rest) :
    (m.advance token rest).Keeps P (All P) := by
  cases m with
  | single state owner =>
    exact .bind (after_keeps hP hm hrest) fun _ ha => .pure ha
  | several state slots =>
    refine .bind (after_keeps hP hm.1 hrest) fun state hstate => ?_
    refine .bind (.mapM slots fun slot hslot => ?_) fun slots hslots => .pure ⟨hstate, hslots⟩
    refine .bind (hP.derivative token (hm.2 slot hslot)) fun rest hrest => ?_
    exact .bind (after_keeps hP (hm.2 slot hslot) hrest) fun _ ha => .pure ha

theorem read?_keeps (hP : Stable P) (hm : m.All P) :
    (m.read? token).Keeps P fun m? => ∀ m ∈ m?, m.All P := by
  refine .bind (hP.derivative token hm.state) fun rest hrest => ?_
  split
  . refine .pure ?_
    split
    . simpa using hm
    . simp
  . exact .bind (advance_keeps hP hm hrest) fun m hm => .pure (by simpa using hm)

theorem discharge_keeps (hP : Stable P) (hm : m.All P) (ha : P a) :
    (m.discharge pending a).Keeps P (All P) := by
  cases m with
  | single state owner => exact .pure ha
  | several state slots =>
    refine .bind (.mapM slots fun slot hslot => ?_) fun slots hslots => .pure ⟨ha, hslots⟩
    exact .bind (hP.discharge pending (hm.2 slot hslot)) fun _ ha => .pure ha

theorem endAttributes?_keeps (hP : Stable P) (hm : m.All P) :
    m.endAttributes?.Keeps P fun m? => ∀ m ∈ m?, m.All P := by
  refine .bind (hP.discharge .missing hm.state) fun state hstate => ?_
  split
  . exact .pure (by simp)
  . exact .bind (discharge_keeps hP hm hstate) fun m hm => .pure (by simpa using hm)

theorem grantAttributes_keeps (hP : Stable P) (hm : m.All P) : m.grantAttributes.Keeps P (All P) :=
  .bind (hP.discharge .granted hm.state) fun _ hstate => discharge_keeps hP hm hstate

theorem choices_keeps (hP : Stable P) (hheads : ∀ head ∈ heads, P (contents head.content))
    (ha : P a) :
    (heads.foldlM (fun state head => Plan.choice state (contents head.content)) a).Keeps P P := by
  induction heads generalizing a with
  | nil => exact .pure ha
  | cons head heads ih =>
    rw [List.forall_mem_cons] at hheads
    rw [List.foldlM_cons]
    exact .bind (hP.choice ha hheads.1) fun _ hr => ih hheads.2 hr

theorem ofHeads?_keeps (hP : Stable P) (hheads : ∀ head ∈ heads, P (contents head.content)) :
    (ofHeads? contents heads).Keeps P fun m? => ∀ m ∈ m?, m.All P := by
  match heads with
  | [] => exact .pure (by simp)
  | [head] => exact .pure (by simpa [All] using hheads)
  | head :: next :: heads =>
    refine .bind (choices_keeps hP hheads hP.nullSet) fun state hstate => .pure ?_
    rintro _ ⟨⟩
    refine ⟨hstate, ?_⟩
    intro slot hslot
    obtain ⟨head, hhead, rfl⟩ := List.mem_map.1 hslot
    exact hheads head hhead

theorem child?_keeps {name : Name} (hP : Stable P)
    (hheads : ∀ head ∈ m.state.heads, P (contents head.content)) :
    (m.child? contents name).Keeps P fun m? => ∀ m ∈ m?, m.All P :=
  ofHeads?_keeps hP fun head hhead =>
    hheads head (List.mem_eraseDups.1 (List.mem_filter.1 hhead).1)

end Matcher

structure Grammar.Keeps (gr : Grammar) (P : Form → Prop) : Prop where
  stable : Stable P
  anyContent : P gr.anyContent
  contents : ∀ e, P e → ∀ head ∈ e.heads, P (gr.contents head.content)

namespace Validation

structure All (P : Form → Prop) (v : Validation) : Prop where
  document : v.document.matcher.All P
  elements : ∀ e ∈ v.elements, e.matcher.All P

variable {P P' : Form → Prop} {v : Validation} {e : OpenElement} {gr : Grammar} {closing : Bool}
variable {error : ValidationError}

namespace All

theorem mono (hv : v.All P) (hP : ∀ e, P e → P' e) : v.All P' :=
  ⟨hv.document.mono hP, fun e he => (hv.elements e he).mono hP⟩

theorem innermost (hv : v.All P) : v.innermost.matcher.All P := by
  obtain ⟨document, elements⟩ := v
  cases elements with
  | nil => exact hv.document
  | cons e elements => exact hv.elements e List.mem_cons_self

theorem withInnermost (hv : v.All P) (he : e.matcher.All P) : (v.withInnermost e).All P := by
  obtain ⟨document, elements⟩ := v
  obtain ⟨hdocument, helements⟩ := hv
  cases elements with
  | nil => exact ⟨he, by simp [Validation.withInnermost]⟩
  | cons e elements =>
    exact ⟨hdocument, List.forall_mem_cons.2 ⟨he, (List.forall_mem_cons.1 helements).2⟩⟩

theorem report (hv : v.All P) : (v.report error).All P :=
  ⟨hv.document, hv.elements⟩

theorem withText {text : String} (hv : v.All P) : ({ v with text } : Validation).All P :=
  ⟨hv.document, hv.elements⟩

end All

theorem flush_keeps (hP : Stable P) (hv : v.All P) : (v.flush closing).Keeps P (All P) := by
  unfold flush
  dsimp only
  split
  . exact .pure hv
  . refine .bind (Matcher.read?_keeps hP hv.innermost) fun m? hm? => ?_
    cases m? with
    | some m => exact .pure (.withText (hv.withInnermost (hm? m rfl)))
    | none => exact .pure (.withText (.report (hv.withInnermost hv.innermost)))

theorem all_declare (tag : StartTag) (hv : v.All P) : (v.declare tag).All P := by
  have hscope : ({ v with scope := v.scope.declare tag.declarations } : Validation).All P :=
    ⟨hv.document, hv.elements⟩
  exact hscope.withInnermost hscope.innermost

theorem enter_keeps (tag : StartTag) (hgr : gr.Keeps P) (hv : v.All P) :
    (v.enter gr tag).Keeps P fun p => p.1.matcher.All P ∧ p.2.All P := by
  have hheads := hgr.contents _ hv.innermost.state
  refine .bind (Matcher.child?_keeps hgr.stable hheads) fun m? hm? => ?_
  cases m? with
  | some m => exact .pure ⟨hm? m rfl, hv⟩
  | none => exact .pure ⟨hgr.anyContent, hv.report⟩

theorem readAttributes_keeps (attributes : List Attribute) (hP : Stable P)
    {p : OpenElement × Validation} (he : p.1.matcher.All P) (hv : p.2.All P) :
    (readAttributes attributes p).Keeps P fun p => p.1.matcher.All P ∧ p.2.All P := by
  induction attributes generalizing p with
  | nil => exact .pure ⟨he, hv⟩
  | cons a attributes ih =>
    refine .bind (Matcher.read?_keeps hP he) fun m? hm? => ?_
    cases m? with
    | some m => exact ih (hm? m rfl) hv
    | none => exact ih he hv.report

theorem reportMissing_keeps (hP : Stable P) (he : e.matcher.All P) (hv : v.All P) :
    (reportMissing e v).run.Keeps P fun v? => ∀ v ∈ v?, v.All P := by
  unfold reportMissing
  split
  . exact .pure (by simpa using hv)
  . have hmissing := (hP.required he.state).mono fun a? _ a (_ : a ∈ a?) => trivial
    exact .attempt hmissing fun _ _ => .pure (by simpa using hv.report)

theorem endAttributes_keeps (hP : Stable P) {p : OpenElement × Validation}
    (he : p.1.matcher.All P) (hv : p.2.All P) :
    (endAttributes p).run.Keeps P fun p? => ∀ p ∈ p?, p.1.matcher.All P ∧ p.2.All P := by
  refine .attempt (Matcher.endAttributes?_keeps hP he).attempted fun m? hm? => ?_
  cases m? with
  | some m => exact .pure (by simpa using ⟨hm? m rfl, hv⟩)
  | none =>
    refine .attempt (reportMissing_keeps hP he hv) fun v hv => ?_
    refine .attempt (Matcher.grantAttributes_keeps hP he).attempted fun m hm => ?_
    exact .pure (by simpa using ⟨hm, hv⟩)

theorem startElement_keeps (tag : StartTag) (hgr : gr.Keeps P) (hv : v.All P) :
    (v.startElement gr tag).run.Keeps P fun v? => ∀ v ∈ v?, v.All P := by
  have hP := hgr.stable
  refine .attempt (flush_keeps hP hv).attempted fun v hv => ?_
  refine .attempt (enter_keeps tag hgr (all_declare tag hv)).attempted fun p hp => ?_
  refine .attempt (readAttributes_keeps _ hP hp.1 hp.2).attempted fun p hp => ?_
  refine .attempt (endAttributes_keeps hP hp.1 hp.2) fun p hp => .pure ?_
  rintro _ ⟨⟩
  exact ⟨hp.2.document, List.forall_mem_cons.2 ⟨hp.1, hp.2.elements⟩⟩

theorem checkComplete_all (he : e.matcher.All P) (hv : v.All P) :
    (v.checkComplete e).1.matcher.All P ∧ (v.checkComplete e).2.All P := by
  unfold checkComplete
  split
  . exact ⟨he, hv⟩
  . exact ⟨he, hv.report⟩

theorem leave_keeps (hgr : gr.Keeps P) (hv : v.All P) : (v.leave gr e).Keeps P (All P) := by
  have hP := hgr.stable
  have hparent := hv.innermost
  refine .bind (Matcher.read?_keeps hP hparent) fun m? hm? => ?_
  cases m? with
  | some m => exact .pure (hv.withInnermost (hm? m rfl))
  | none =>
    dsimp only
    have hv : (if e.faulty then v else v.report (.childRejected e.name v.innermost.name)).All P := by
      split
      . exact hv
      . exact hv.report
    generalize (if e.faulty then v else _) = w at hv ⊢
    refine .bind (Matcher.read?_keeps hP hparent) fun m? hm? => ?_
    cases m? with
    | some m => exact .pure (hv.withInnermost (hm? m rfl))
    | none =>
      refine .bind (Matcher.read?_keeps hP hparent) fun m? hm? => .pure (hv.withInnermost ?_)
      cases m? with
      | some m => exact hm? m rfl
      | none => exact hparent

theorem ended_keeps (hP : Stable P) (hv : v.All P) :
    v.ended.Keeps P fun p => (∀ e ∈ p.1, e.matcher.All P) ∧ p.2.All P := by
  unfold ended
  split
  . exact .pure ⟨by simp, hv.report⟩
  . refine .bind (flush_keeps hP hv) fun v hv => ?_
    obtain ⟨document, elements, scope, text, errors⟩ := v
    cases elements with
    | nil => exact .pure ⟨by simp, hv⟩
    | cons e elements =>
      obtain ⟨he, helements⟩ := List.forall_mem_cons.1 hv.elements
      have hrest : ({ document, elements, scope := scope.drop e.declared, text, errors } :
        Validation).All P := ⟨hv.document, helements⟩
      obtain ⟨he, hrest⟩ := checkComplete_all he hrest
      refine .pure ⟨?_, hrest⟩
      rintro _ ⟨⟩
      exact he

theorem endElement_keeps (hgr : gr.Keeps P) (hv : v.All P) : (v.endElement gr).Keeps P (All P) := by
  rw [endElement_eq]
  refine .bind (ended_keeps hgr.stable hv) fun p hp => ?_
  obtain ⟨e?, w⟩ := p
  cases e? with
  | none => exact .pure hp.2
  | some e => exact leave_keeps hgr hp.2

theorem endDocument_keeps (hP : Stable P) (hv : v.All P) : v.endDocument.Keeps P (All P) := by
  unfold endDocument
  split
  . exact .pure hv.report
  . refine .bind (flush_keeps hP hv) fun v hv => ?_
    split
    . exact .pure hv
    . exact .pure hv.report

/--
All forms that an event leads to have a property that the grammar keeps.
-/
theorem take_keeps (event : Event) (hgr : gr.Keeps P) (hv : v.All P) :
    (v.take gr event).run.Keeps P fun v? => ∀ v ∈ v?, v.All P := by
  cases event with
  | startElement tag => exact startElement_keeps tag hgr hv
  | characters text => exact .pure (by simpa using hv.withText)
  | endElement => exact (endElement_keeps hgr hv).attempted
  | endDocument => exact (endDocument_keeps hgr.stable hv).attempted

end Validation

end Form

end TreeGrammar
