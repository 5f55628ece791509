import TreeGrammar.Proofs.Children
import TreeGrammar.Proofs.Recovery

/-!
This module contains for which element each mistake is reported, and that an element is not blamed for
ending too early when it has been blamed for something else before. The document is not spared.
-/

namespace TreeGrammar

namespace ValidationError

def isIncomplete : ValidationError → Bool
  | .incompleteContent .. => true
  | _ => false

def concernsTag : ValidationError → Bool
  | .elementNotAllowed .. | .attributeNotAllowed .. | .missingAttributes .. => true
  | _ => false

def blames : ValidationError → Bool
  | .elementNotAllowed .. | .attributeNotAllowed .. | .missingAttributes .. | .textNotAllowed .. =>
    true
  | _ => false

/--
Content is not said to end too early after another mistake.
-/
def BlamesOnce (errors : List ValidationError) : Prop :=
  errors.Pairwise fun earlier later => earlier.blames → ¬ later.isIncomplete

theorem blames_of_concernsTag {error : ValidationError} (h : error.concernsTag) : error.blames := by
  cases error <;> first | rfl | cases h

theorem not_blames_of_isIncomplete {error : ValidationError} (h : error.isIncomplete) :
    ¬ error.blames := by
  cases error <;> first | exact Bool.false_ne_true | cases h

end ValidationError

inductive Bearer where
  | document
  | element (number : Nat)
deriving DecidableEq

/--
What has been reported of a document, and for whom.
-/
structure Ledger where
  started : Nat := 0
  current : List Nat := []
  entries : List (Bearer × ValidationError) := []

namespace Ledger

def innermost (l : Ledger) : Bearer :=
  match l.current with
  | [] => .document
  | number :: _ => .element number

def bearer (l : Ledger) (error : ValidationError) : Bearer :=
  if error.concernsTag then .element l.started else l.innermost

def enter (l : Ledger) (event : Event) (errors : List ValidationError) : Ledger where
  started := match event with
    | .startElement _ => l.started + 1
    | _ => l.started
  current := match event with
    | .startElement _ => l.started :: l.current
    | .endElement => l.current.tail
    | _ => l.current
  entries := l.entries ++ errors.map fun error => (l.bearer error, error)

def of (l : Ledger) (b : Bearer) : List ValidationError :=
  (l.entries.filter (·.1 = b)).map (·.2)

end Ledger

namespace Form

namespace Validation

inductive Marks (mistake : Prop) : List OpenElement → List OpenElement → Prop where
  | nil : Marks mistake [] []
  | cons {e e' : OpenElement} {parents : List OpenElement} :
    (e.faulty = true ∨ mistake → e'.faulty = true) → Marks mistake (e :: parents) (e' :: parents)

structure Charges (event : Event) (v : Validation) (errors : List ValidationError)
    (w : Validation) : Prop where
  reported : w.errors = v.errors ++ errors
  tag : (∃ tag, event = .startElement tag) ∨ ∀ error ∈ errors, ¬ error.concernsTag
  incomplete : ∀ error ∈ errors, error.isIncomplete → v.elements ≠ [] →
    v.innermost.faulty = false ∧ ∀ error ∈ errors, ¬ error.blames
  marks : match event with
    | .startElement _ => ∃ e elements, w.elements = e :: elements ∧
        (∀ error ∈ errors, error.concernsTag → e.faulty = true) ∧
        Marks (∃ error ∈ errors, error.blames ∧ ¬ error.concernsTag) v.elements elements
    | .endElement => Marks False v.elements.tail w.elements
    | .characters _ | .endDocument => Marks (∃ error ∈ errors, error.blames) v.elements w.elements

variable {v w : Validation} {e : OpenElement} {gr : Grammar} {tag : StartTag} {closing : Bool}
variable {mistake mistake' : Prop} {before between after : List OpenElement}
variable {p q : OpenElement × Validation}

namespace Marks

theorem refl (elements : List OpenElement) : Marks False elements elements := by
  cases elements with
  | nil => exact .nil
  | cons e parents => exact .cons fun h => h.resolve_right id

theorem mono (h : Marks mistake before after) (himp : mistake' → mistake) :
    Marks mistake' before after := by
  cases h with
  | nil => exact .nil
  | cons h => exact .cons fun h' => h (h'.imp_right himp)

theorem trans (h : Marks mistake before between) (h' : Marks mistake' between after) :
    Marks (mistake ∨ mistake') before after := by
  cases h with
  | nil =>
    cases h'
    exact .nil
  | cons h =>
    cases h' with
    | cons h' =>
      refine .cons ?_
      rintro (hfaulty | hmistake | hmistake)
      . exact h' (Or.inl (h (Or.inl hfaulty)))
      . exact h' (Or.inl (h (Or.inr hmistake)))
      . exact h' (Or.inr hmistake)

theorem withInnermost (h : v.innermost.faulty = true ∨ mistake → e.faulty = true) :
    Marks mistake v.elements (v.withInnermost e).elements := by
  obtain ⟨document, elements⟩ := v
  cases elements with
  | nil => exact .nil
  | cons child parents => exact .cons h

end Marks

theorem flush_charges (v : Validation) (closing : Bool) :
    ∃ errors, (v.flush closing).value.errors = v.errors ++ errors ∧
      (∀ error ∈ errors, error.blames ∧ ¬ error.concernsTag) ∧
      Marks (errors ≠ []) v.elements (v.flush closing).value.elements := by
  unfold flush
  dsimp only
  split
  . exact ⟨[], by simp, by simp, (Marks.refl _).mono fun h => h rfl⟩
  . rw [Plan.value_bind]
    split
    . next m hm =>
      refine ⟨[], ?_, by simp, .withInnermost (·.resolve_right fun h => h rfl)⟩
      rw [List.append_nil]
      exact errors_withInnermost
    . let expected := v.innermost.matcher.state.describeHeads
      refine ⟨[.textNotAllowed v.innermost.name expected], ?_, ?_, .withInnermost fun _ => rfl⟩
      . exact congrArg (· ++ [_]) errors_withInnermost
      . simp [ValidationError.blames, ValidationError.concernsTag]

structure Accused (v : Validation) (errors : List ValidationError) (p : OpenElement × Validation) :
    Prop where
  reported : p.2.errors = v.errors ++ errors
  tag : ∀ error ∈ errors, error.concernsTag
  marked : errors ≠ [] → p.1.faulty = true

theorem Accused.report {errors : List ValidationError} {error : ValidationError} {m : Matcher}
    (h : Accused v errors (e, w)) (herror : error.concernsTag) :
    Accused v (errors ++ [error]) ({ e with matcher := m, faulty := true }, w.report error) where
  reported := by
    rw [← List.append_assoc]
    exact congrArg (· ++ [error]) h.reported
  tag := by
    intro other hother
    rcases List.mem_append.1 hother with hother | hother
    . exact h.tag other hother
    . rwa [List.mem_singleton.1 hother]
  marked _ := rfl

theorem enter_accused (v : Validation) (gr : Grammar) (tag : StartTag) :
    ∃ errors, Accused v errors (v.enter gr tag).value := by
  unfold enter
  dsimp only
  rw [Plan.value_bind]
  split
  . exact ⟨[], (List.append_nil _).symm, by simp, fun h => absurd rfl h⟩
  . exact ⟨[_], rfl, by simp [ValidationError.concernsTag], fun _ => rfl⟩

theorem readAttributes_accused (attributes : List Attribute) {errors : List ValidationError}
    (h : Accused v errors p) : ∃ errors, Accused v errors (readAttributes attributes p).value := by
  induction attributes generalizing p errors with
  | nil => exact ⟨errors, h⟩
  | cons a attributes ih =>
    obtain ⟨e, w⟩ := p
    rw [readAttributes, Plan.value_bind]
    split
    . exact ih ⟨h.reported, h.tag, h.marked⟩
    . exact ih (h.report rfl)

theorem endAttributes_accused {errors : List ValidationError} (h : Accused v errors p)
    (hq : (endAttributes p).run.value = some q) : ∃ errors, Accused v errors q := by
  obtain ⟨e, w⟩ := p
  rw [endAttributes, Plan.value_attempt, Plan.value_lift, Option.bind_some] at hq
  split at hq
  . cases hq
    exact ⟨errors, h.reported, h.tag, h.marked⟩
  . rw [Plan.value_attempt] at hq
    obtain ⟨u, hu, hq⟩ := Option.bind_eq_some_iff.1 hq
    cases hq
    unfold reportMissing at hu
    split at hu
    . cases hu
      exact ⟨errors, h.reported, h.tag, fun _ => rfl⟩
    . rw [Plan.value_attempt] at hu
      obtain ⟨missing, -, hu⟩ := Option.bind_eq_some_iff.1 hu
      cases hu
      exact ⟨_, h.report rfl⟩

theorem startElement_charges (hw : (v.startElement gr tag).run.value = some w) :
    ∃ errors, Charges (.startElement tag) v errors w := by
  simp only [startElement, Plan.value_attempt, Plan.value_lift, Option.bind_some] at hw
  obtain ⟨q, hq, hw⟩ := Option.bind_eq_some_iff.1 hw
  cases hw
  obtain ⟨texts, htexts, hkind, hmarks⟩ := flush_charges v false
  generalize (v.flush false).value = u at htexts hmarks hq
  obtain ⟨_, henter⟩ := enter_accused (u.declare tag) gr tag
  obtain ⟨_, hread⟩ := readAttributes_accused tag.attributes henter
  obtain ⟨tags, hends⟩ := endAttributes_accused hread hq
  have helements : q.2.elements = (u.declare tag).elements := by
    rw [elements_of_endAttributes hq, elements_readAttributes, elements_enter]
  have hdeclare : Marks False u.elements (u.declare tag).elements :=
    .withInnermost (v := { u with scope := u.scope.declare tag.declarations })
      fun h => h.resolve_right id
  have hreported : (u.declare tag).errors = v.errors ++ texts := errors_withInnermost.trans htexts
  -- the text before the tag is held against the parent, and what is wrong with the tag against the
  -- element that it starts
  refine ⟨texts ++ tags, ?_, Or.inl ⟨tag, rfl⟩, ?_, q.1, _, rfl, ?_, ?_⟩
  . rw [← List.append_assoc, ← hreported]
    exact hends.reported
  . intro error hmem hincomplete
    refine absurd ?_ (ValidationError.not_blames_of_isIncomplete hincomplete)
    rcases List.mem_append.1 hmem with hmem | hmem
    . exact (hkind error hmem).1
    . exact ValidationError.blames_of_concernsTag (hends.tag error hmem)
  . intro error hmem hconcerns
    rcases List.mem_append.1 hmem with hmem | hmem
    . exact absurd hconcerns (hkind error hmem).2
    . exact hends.marked (List.ne_nil_of_mem hmem)
  . rw [helements]
    refine (hmarks.trans hdeclare).mono ?_
    rintro ⟨error, hmem, -, hconcerns⟩
    rcases List.mem_append.1 hmem with hmem | hmem
    . exact Or.inl (List.ne_nil_of_mem hmem)
    . exact absurd (hends.tag error hmem) hconcerns

theorem leave_charges (v : Validation) (gr : Grammar) (e : OpenElement) :
    ∃ errors, (v.leave gr e).value.errors = v.errors ++ errors ∧
      (∀ error ∈ errors, ¬ error.blames ∧ ¬ error.concernsTag ∧ ¬ error.isIncomplete) ∧
      Marks False v.elements (v.leave gr e).value.elements := by
  unfold leave
  dsimp only
  rw [Plan.value_bind]
  split
  . refine ⟨[], ?_, by simp, .withInnermost fun h => h.resolve_right id⟩
    rw [List.append_nil]
    exact errors_withInnermost
  . obtain ⟨errors, herrors, hkind, helements⟩ : ∃ errors,
        (if e.faulty then v else v.report (.childRejected e.name v.innermost.name)).errors =
          v.errors ++ errors ∧
        (∀ error ∈ errors, ¬ error.blames ∧ ¬ error.concernsTag ∧ ¬ error.isIncomplete) ∧
        (if e.faulty then v else v.report (.childRejected e.name v.innermost.name)).elements =
          v.elements := by
      split
      . exact ⟨[], by simp, by simp, rfl⟩
      . refine ⟨[_], rfl, ?_, rfl⟩
        simp [ValidationError.blames, ValidationError.concernsTag, ValidationError.isIncomplete]
    generalize (if e.faulty then v else _) = u at herrors helements
    rw [Plan.value_bind, ← helements]
    split
    . exact ⟨errors, errors_withInnermost.trans herrors, hkind, .withInnermost fun _ => rfl⟩
    . rw [Plan.value_bind]
      exact ⟨errors, errors_withInnermost.trans herrors, hkind, .withInnermost fun _ => rfl⟩

theorem checkComplete_charges : ∃ errors, (v.checkComplete e).2.errors = v.errors ++ errors ∧
    (v.checkComplete e).2.elements = v.elements ∧
    (∀ error ∈ errors, error.isIncomplete ∧ ¬ error.blames ∧ ¬ error.concernsTag) ∧
    (errors ≠ [] → e.faulty = false) := by
  unfold checkComplete
  split
  . exact ⟨[], by simp⟩
  . next hdone =>
    refine ⟨[.incompleteContent e.name e.matcher.state.describeHeads], rfl, rfl, ?_, fun _ => ?_⟩
    . simp [ValidationError.blames, ValidationError.concernsTag, ValidationError.isIncomplete]
    . rw [Bool.or_eq_true, not_or, Bool.not_eq_true e.faulty] at hdone
      exact hdone.2

theorem endElement_charges : ∃ errors, Charges .endElement v errors (v.endElement gr).value := by
  unfold endElement
  split
  . next hempty =>
    have hempty : v.elements = [] := List.isEmpty_iff.1 hempty
    refine ⟨[.unexpectedEndTag], rfl, Or.inr ?_, fun _ _ _ h => absurd hempty h, ?_⟩
    . simp [ValidationError.concernsTag]
    . show Marks False v.elements.tail v.elements
      rw [hempty]
      exact .nil
  . next hopen =>
    obtain ⟨texts, htexts, htext, hmarks⟩ := flush_charges v true
    rw [Plan.value_bind]
    generalize (v.flush true).value = u at htexts hmarks
    obtain ⟨document, elements, scope, text, reported⟩ := u
    obtain ⟨document', elements', scope', text', reported'⟩ := v
    cases hmarks with
    | nil => exact absurd rfl hopen
    | @cons e e' parents hmark =>
      let w : Validation :=
        { document, elements := parents, scope := scope.drop e'.declared, text, errors := reported }
      obtain ⟨ends, hends, helements, hend, hfaulty⟩ := checkComplete_charges (v := w) (e := e')
      obtain ⟨others, hothers, hother, hparents⟩ := leave_charges (w.checkComplete e').2 gr
        (w.checkComplete e').1
      rw [helements] at hparents
      refine ⟨texts ++ (ends ++ others), ?_, Or.inr ?_, ?_, hparents⟩
      . rw [← List.append_assoc, ← List.append_assoc, ← htexts]
        exact hothers.trans (congrArg (· ++ others) hends)
      . exact List.forall_mem_append.2 ⟨fun error hmem => (htext error hmem).2,
          List.forall_mem_append.2 ⟨fun error hmem => (hend error hmem).2.2,
            fun error hmem => (hother error hmem).2.1⟩⟩
      . intro error hmem hincomplete _
        have hunmarked : e'.faulty = false := by
          rcases List.mem_append.1 hmem with hmem | hmem
          . exact absurd (htext error hmem).1 (ValidationError.not_blames_of_isIncomplete hincomplete)
          . rcases List.mem_append.1 hmem with hmem | hmem
            . exact hfaulty (List.ne_nil_of_mem hmem)
            . exact absurd hincomplete (hother error hmem).2.2
        -- text before the end tag that is not allowed would have marked the element first
        have hmark : ¬ (e.faulty = true ∨ texts ≠ []) := fun h => by
          rw [hmark h] at hunmarked
          cases hunmarked
        rw [not_or, Bool.not_eq_true, not_not] at hmark
        refine ⟨hmark.1, ?_⟩
        rw [hmark.2, List.nil_append]
        exact List.forall_mem_append.2 ⟨fun error hmem => (hend error hmem).2.1,
          fun error hmem => (hother error hmem).1⟩

theorem endDocument_charges : ∃ errors, Charges .endDocument v errors v.endDocument.value := by
  unfold endDocument
  split
  . refine ⟨[.unclosedElements v.elements.length], rfl, Or.inr ?_, ?_, ?_⟩
    . simp [ValidationError.concernsTag]
    . simp [ValidationError.isIncomplete]
    . exact (Marks.refl v.elements).mono (by simp [ValidationError.blames])
  . next hclosed =>
    have hclosed : v.elements = [] := by simpa using hclosed
    obtain ⟨texts, htexts, htext, hmarks⟩ := flush_charges v false
    rw [Plan.value_bind]
    generalize (v.flush false).value = u at htexts hmarks
    have hmarks (mistake : Prop) : Marks mistake v.elements u.elements := by
      rw [hclosed] at hmarks ⊢
      generalize u.elements = elements at hmarks ⊢
      cases hmarks
      exact .nil
    split
    . exact ⟨texts, htexts, Or.inr fun error hmem => (htext error hmem).2,
        fun _ _ _ h => absurd hclosed h, hmarks _⟩
    . let error := ValidationError.incompleteContent u.document.name
        u.document.matcher.state.describeHeads
      refine ⟨texts ++ [error], ?_, Or.inr ?_, fun _ _ _ h => absurd hclosed h, hmarks _⟩
      . rw [← List.append_assoc, ← htexts]
        rfl
      . intro error hmem
        rcases List.mem_append.1 hmem with hmem | hmem
        . exact (htext error hmem).2
        . rw [List.mem_singleton.1 hmem]
          exact Bool.false_ne_true

/--
Whatever event comes, it is known for whom its mistakes are, and who is marked for them.
-/
theorem take_charges {event : Event} (hw : w ∈ (v.take gr event).run.value) :
    ∃ errors, Charges event v errors w := by
  cases event with
  | startElement tag => exact startElement_charges hw
  | characters text =>
    cases hw
    exact ⟨[], (List.append_nil _).symm, Or.inr (by simp), by simp,
      (Marks.refl v.elements).mono (by simp)⟩
  | endElement =>
    cases hw
    exact endElement_charges
  | endDocument =>
    cases hw
    exact endDocument_charges

theorem endDocument_incomplete (h : v.elements = []) :
    (v.endDocument.value.errors.drop v.errors.length).any (·.isIncomplete) ↔
      ¬ v.endDocument.value.document.matcher.state.nullable = true := by
  obtain ⟨texts, htexts, htext, -⟩ := flush_charges v false
  have hcomplete : ¬ texts.any (·.isIncomplete) := by
    rw [List.any_eq_true]
    rintro ⟨error, hmem, hincomplete⟩
    exact ValidationError.not_blames_of_isIncomplete hincomplete (htext error hmem).1
  rw [endDocument, h]
  simp only [List.isEmpty_nil, Bool.not_true, Bool.false_eq_true, if_false, Plan.value_bind]
  split
  . next hnullable =>
    refine ⟨fun hany => absurd ?_ hcomplete, fun hnot => absurd hnullable hnot⟩
    simpa [htexts] using hany
  . next hnullable =>
    refine iff_of_true ?_ hnullable
    simp [report, htexts, ValidationError.isIncomplete]

end Validation

end Form

namespace Ledger

open Form.Validation

variable {l : Ledger} {v w : Form.Validation} {event : Event} {errors : List ValidationError}
variable {b : Bearer} {number : Nat} {e e' : Form.OpenElement}

def Charged (l : Ledger) (number : Nat) (e : Form.OpenElement) : Prop :=
  ∀ error ∈ l.of (.element number), error.blames → e.faulty = true

/--
The ledger has been kept of the validation.
-/
structure Fits (l : Ledger) (v : Form.Validation) : Prop where
  entries : l.entries.map (·.2) = v.errors
  charged : List.Forall₂ l.Charged l.current v.elements
  numbered : (l.started :: l.current).Pairwise (· > ·)
  unknown : ∀ number, l.started ≤ number → l.of (.element number) = []
  once : ∀ number, ValidationError.BlamesOnce (l.of (.element number))

theorem of_enter :
    (l.enter event errors).of b = l.of b ++ errors.filter fun error => l.bearer error = b := by
  simp [of, enter, List.filter_append, List.filter_map, Function.comp_def]

theorem of_enter_of_ne (h : ∀ error ∈ errors, l.bearer error ≠ b) :
    (l.enter event errors).of b = l.of b := by
  rw [of_enter, List.filter_eq_nil_iff.2, List.append_nil]
  simpa using h

theorem bearer_ne (hstarted : number ≠ l.started) (hinnermost : .element number ≠ l.innermost)
    (error : ValidationError) : l.bearer error ≠ .element number := by
  unfold bearer
  split
  . exact fun h => hstarted (Bearer.element.inj h).symm
  . exact hinnermost.symm

theorem Charged.enter (h : l.Charged number e) (hkept : e.faulty = true → e'.faulty = true)
    (hnew : ∀ error ∈ errors, l.bearer error = .element number → error.blames → e'.faulty = true) :
    (l.enter event errors).Charged number e' := by
  intro error hmem hblames
  rw [of_enter] at hmem
  rcases List.mem_append.1 hmem with hmem | hmem
  . exact hkept (h error hmem hblames)
  . obtain ⟨hmem, hbearer⟩ := List.mem_filter.1 hmem
    exact hnew error hmem (of_decide_eq_true hbearer) hblames

theorem charged_of_ne {numbers : List Nat} {elements : List Form.OpenElement}
    (h : List.Forall₂ l.Charged numbers elements)
    (hne : ∀ number ∈ numbers, ∀ error, l.bearer error ≠ .element number) :
    List.Forall₂ (l.enter event errors).Charged numbers elements := by
  induction h with
  | nil => exact .nil
  | cons h _ ih =>
    rw [List.forall_mem_cons] at hne
    exact .cons (h.enter id fun error _ hbearer => absurd hbearer (hne.1 error)) (ih hne.2)

theorem charged_of_marks {mistake : Prop} {before after : List Form.OpenElement} (numbers : List Nat)
    (h : List.Forall₂ l.Charged numbers before) (hmarks : Marks mistake before after)
    (hne : ∀ number ∈ numbers.tail, ∀ error, l.bearer error ≠ .element number)
    (hnew : ∀ error ∈ errors, ∀ number ∈ numbers.head?, l.bearer error = .element number →
      error.blames → mistake) :
    List.Forall₂ (l.enter event errors).Charged numbers after := by
  cases hmarks with
  | nil =>
    cases h
    exact .nil
  | cons hmark =>
    cases h with
    | cons h hparents =>
      refine .cons (h.enter (fun hfaulty => hmark (Or.inl hfaulty)) ?_) (charged_of_ne hparents hne)
      exact fun error hmem hbearer hblames => hmark (Or.inr (hnew error hmem _ rfl hbearer hblames))

namespace Fits

theorem lt_started (h : l.Fits v) (hnumber : number ∈ l.current) : number < l.started :=
  (List.pairwise_cons.1 h.numbered).1 number hnumber

theorem element_ne_innermost (h : l.Fits v) (hle : l.started ≤ number) :
    .element number ≠ l.innermost := by
  unfold innermost
  split
  . exact Bearer.noConfusion
  . next first rest hcurrent =>
    have hlt : first < l.started := h.lt_started (by simp [hcurrent])
    exact fun heq => absurd (Bearer.element.inj heq) (by omega)

theorem bearer_ne_of_mem_tail (h : l.Fits v) (hnumber : number ∈ l.current.tail)
    (error : ValidationError) : l.bearer error ≠ .element number := by
  refine bearer_ne (h.lt_started (List.mem_of_mem_tail hnumber)).ne ?_ error
  have hnumbered := (List.pairwise_cons.1 h.numbered).2
  unfold innermost
  split
  . exact Bearer.noConfusion
  . next first rest hcurrent =>
    rw [hcurrent] at hnumber hnumbered
    have hlt := (List.pairwise_cons.1 hnumbered).1 number hnumber
    exact fun heq => hlt.ne (Bearer.element.inj heq)

theorem not_blamed (h : l.Fits v) (hcharges : Charges event v errors w) {error : ValidationError}
    (hmem : error ∈ errors) (hincomplete : error.isIncomplete)
    (hbearer : l.bearer error = .element number) :
    (∀ earlier ∈ l.of (.element number), ¬ earlier.blames) ∧ ∀ other ∈ errors, ¬ other.blames := by
  have hconcerns : ¬ error.concernsTag := fun h =>
    ValidationError.not_blames_of_isIncomplete hincomplete (ValidationError.blames_of_concernsTag h)
  rw [bearer, if_neg hconcerns, innermost] at hbearer
  split at hbearer
  . cases hbearer
  . next first rest hcurrent =>
    cases hbearer
    have hcharged := h.charged
    rw [hcurrent] at hcharged
    obtain ⟨e, parents, hfirst, -, helements⟩ := List.forall₂_cons_left_iff.1 hcharged
    have hinnermost : v.innermost = e := by
      rw [Form.Validation.innermost, helements, List.headD_cons]
    obtain ⟨hfaulty, hother⟩ := hcharges.incomplete error hmem hincomplete (by simp [helements])
    -- an earlier mistake would have left its mark on the element
    refine ⟨fun earlier hearlier hblames => ?_, hother⟩
    have hmarked := hfirst earlier hearlier hblames
    rw [← hinnermost, hfaulty] at hmarked
    cases hmarked

theorem once_enter (h : l.Fits v) (hcharges : Charges event v errors w) (number : Nat) :
    ValidationError.BlamesOnce ((l.enter event errors).of (.element number)) := by
  rw [of_enter, ValidationError.BlamesOnce, List.pairwise_append]
  have hnot (later : ValidationError)
      (hlater : later ∈ errors.filter fun error => l.bearer error = .element number)
      (hincomplete : later.isIncomplete) :
      (∀ earlier ∈ l.of (.element number), ¬ earlier.blames) ∧ ∀ other ∈ errors, ¬ other.blames := by
    obtain ⟨hmem, hbearer⟩ := List.mem_filter.1 hlater
    exact h.not_blamed hcharges hmem hincomplete (of_decide_eq_true hbearer)
  refine ⟨h.once number, List.pairwise_of_forall_mem_list ?_, ?_⟩
  . intro earlier hearlier later hlater hblames hincomplete
    exact (hnot later hlater hincomplete).2 earlier (List.mem_of_mem_filter hearlier) hblames
  . intro earlier hearlier later hlater hblames hincomplete
    exact (hnot later hlater hincomplete).1 earlier hearlier hblames

theorem charged_enter (h : l.Fits v) (hcharges : Charges event v errors w) :
    List.Forall₂ (l.enter event errors).Charged (l.enter event errors).current w.elements := by
  have hmarks := hcharges.marks
  cases event with
  | startElement tag =>
    obtain ⟨e, elements, hw, htag, hmarks⟩ := hmarks
    rw [hw]
    refine .cons ?_ (charged_of_marks l.current h.charged hmarks (fun _ => h.bearer_ne_of_mem_tail) ?_)
    -- the number of the element is new, so the ledger holds nothing against it yet
    . refine Charged.enter (e := e) ?_ id fun error hmem hbearer hblames => htag error hmem ?_
      . rw [Charged, h.unknown _ le_rfl]
        simp
      . by_contra hconcerns
        rw [bearer, if_neg hconcerns] at hbearer
        exact h.element_ne_innermost le_rfl hbearer.symm
    . intro error hmem number hnumber hbearer hblames
      refine ⟨error, hmem, hblames, fun hconcerns => ?_⟩
      rw [bearer, if_pos hconcerns] at hbearer
      have hlt := h.lt_started (List.mem_of_mem_head? hnumber)
      exact hlt.ne (Bearer.element.inj hbearer).symm
  | endElement =>
    refine charged_of_marks l.current.tail ?_ hmarks
      (fun _ hnumber => h.bearer_ne_of_mem_tail (List.mem_of_mem_tail hnumber)) ?_
    . simpa only [List.drop_one] using List.forall₂_drop 1 h.charged
    . intro error _ number hnumber hbearer _
      exact h.bearer_ne_of_mem_tail (List.mem_of_mem_head? hnumber) error hbearer
  | characters text =>
    exact charged_of_marks l.current h.charged hmarks (fun _ => h.bearer_ne_of_mem_tail)
      fun error hmem _ _ _ hblames => ⟨error, hmem, hblames⟩
  | endDocument =>
    exact charged_of_marks l.current h.charged hmarks (fun _ => h.bearer_ne_of_mem_tail)
      fun error hmem _ _ _ hblames => ⟨error, hmem, hblames⟩

theorem unknown_enter (h : l.Fits v) (hcharges : Charges event v errors w)
    (hle : (l.enter event errors).started ≤ number) :
    (l.enter event errors).of (.element number) = [] := by
  have hstarted : l.started ≤ number := by
    cases event with
    | startElement tag => exact (Nat.le_succ _).trans hle
    | _ => exact hle
  rw [of_enter_of_ne, h.unknown number hstarted]
  intro error hmem
  rcases hcharges.tag with ⟨tag, rfl⟩ | htag
  . exact bearer_ne (Nat.lt_of_succ_le hle).ne' (h.element_ne_innermost hstarted) error
  . rw [bearer, if_neg (htag error hmem)]
    exact (h.element_ne_innermost hstarted).symm

theorem enter (h : l.Fits v) (hcharges : Charges event v errors w) :
    (l.enter event errors).Fits w where
  entries := by
    simp [Ledger.enter, h.entries, hcharges.reported, Function.comp_def]
  charged := h.charged_enter hcharges
  numbered := by
    have hnumbered := h.numbered
    cases event with
    | startElement tag =>
      refine .cons ?_ hnumbered
      rintro number (_ | ⟨_, hnumber⟩)
      . exact Nat.lt_succ_self _
      . exact (h.lt_started hnumber).trans (Nat.lt_succ_self _)
    | endElement => exact hnumbered.sublist ((List.tail_sublist l.current).cons_cons _)
    | characters text => exact hnumbered
    | endDocument => exact hnumbered
  unknown _ hle := h.unknown_enter hcharges hle
  once := h.once_enter hcharges

theorem create (start : Form) : ({} : Ledger).Fits (.create start) :=
  ⟨rfl, .nil, List.pairwise_singleton _ _, fun _ _ => rfl, fun _ => .nil⟩

end Fits

end Ledger

namespace Session

variable {s t : Session} {l : Ledger} {name : String}

/--
The ledger has been kept of the validation from its beginning until now.
-/
inductive Records (name : String) : Session → Ledger → Prop where
  | create {s answer t} : s.Reachable → perform (.createValidation name) s = .ok (answer, t) →
    Records name t {}
  | aside {s l c answer t} : Records name s l → c.isLawful → ¬ c.Revises name →
    perform c s = .ok (answer, t) → Records name t l
  | take {s l event errors depth t} : Records name s l →
    perform (.take name event) s = .ok (.progress errors depth, t) →
    Records name t (l.enter event errors)

theorem Records.reachable (h : Records name s l) : s.Reachable := by
  induction h with
  | create hs hperform => exact hs.perform rfl hperform
  | aside _ hc _ hperform ih => exact ih.perform hc hperform
  | take _ hperform ih => exact ih.perform rfl hperform

theorem Took.fits {u : Session} {w : Form.Validation} {built : List Form}
    (h : s.Took t u name w built) (hw : l.Fits w) :
    ∃ v, u.validations[name]? = some v ∧
      l.Fits (v.form u.schema.graph.store u.schema.definitions) := by
  obtain ⟨v, hv, hviews⟩ := h.get
  refine ⟨v, hv, ?_⟩
  rwa [h.continues.definitions, hviews.shows.form_eq]

theorem Records.fits (h : Records name s l) : ∃ v, s.validations[name]? = some v ∧
    l.Fits (v.form s.schema.graph.store s.schema.definitions) := by
  induction h with
  | create hs hperform =>
    obtain ⟨gr, hgr⟩ := exists_of_perform_createValidation hperform
    have hsound := hs.sound
    rw [perform_createValidation hgr] at hperform
    cases hperform
    exact (took_createValidation hsound hgr (.refl hsound)).fits (.create _)
  | aside hrecords hc hrevises hperform ih =>
    obtain ⟨v, hv, hfits⟩ := ih
    have hsound := hrecords.reachable.sound
    obtain ⟨hle, -, halters⟩ := (perform_returns _ hc hsound).ok _ _ hperform
    refine ⟨v, (halters.validations name hrevises).trans hv, ?_⟩
    rwa [form_eq_of_le hsound hv hle]
  | take hrecords hperform ih =>
    obtain ⟨v, hv, hfits⟩ := ih
    have hsound := hrecords.reachable.sound
    obtain ⟨gr, _, hgr, -⟩ := exists_of_perform_take hperform
    obtain ⟨w, hw, hanswer, htook⟩ :=
      perform_take_ok hsound hgr (.refl hsound) hv (views_form hsound hv) hperform
    obtain ⟨errors, hcharges⟩ := Form.Validation.take_charges hw
    rw [hcharges.reported, List.drop_left] at hanswer
    cases hanswer
    exact htook.fits (hfits.enter hcharges)

/--
An element is not blamed for ending too early if anything has been reported of it before: not that
it is not allowed, nor a mistake in its tag, nor text that is not allowed. The document is not
spared: when it ends it is said to be incomplete exactly if it is, whatever the ledger says of it.
-/
theorem blamesOnce_element (h : Records name s l) :
    (∀ number, ValidationError.BlamesOnce (l.of (.element number))) ∧
      ∀ errors depth t, l.current = [] →
        perform (.take name .endDocument) s = .ok (.progress errors depth, t) →
        ∃ v, t.validations[name]? = some v ∧ (errors.any (·.isIncomplete) ↔
          [] ∉ t.schema.graph.store.language t.schema.definitions v.document.matcher.state) := by
  obtain ⟨v, hv, hfits⟩ := h.fits
  refine ⟨hfits.once, fun errors depth t hclosed hperform => ?_⟩
  have hsound := h.reachable.sound
  obtain ⟨gr, _, hgr, -⟩ := exists_of_perform_take hperform
  obtain ⟨w, hw, hanswer, htook⟩ :=
    perform_take_ok hsound hgr (.refl hsound) hv (views_form hsound hv) hperform
  obtain ⟨v', hv', hviews⟩ := htook.get
  have hopen : (v.form s.schema.graph.store s.schema.definitions).elements = [] := by
    have hcharged := hfits.charged
    rwa [hclosed, List.forall₂_nil_left_iff] at hcharged
  obtain rfl : (v.form s.schema.graph.store s.schema.definitions).endDocument.value = w :=
    Option.some.inj hw
  cases hanswer
  refine ⟨v', hv', ?_⟩
  have hends := Form.Validation.endDocument_incomplete hopen
  rw [← hviews.shows.document.matcher.state.empties_iff] at hends
  rwa [htook.continues.definitions, ← Empties.iff_nil_mem_language]

/--
There is text before the first element, and then the document ends: it is blamed twice.
-/
theorem blamesOnce_element_text :
    ∃ s t text incomplete l, Records "w" s l ∧ l.current = [] ∧ l.of .document = [] ∧
      perform (.take "w" .endDocument) s = .ok (.progress [text, incomplete] 0, t) ∧
      text.blames ∧ incomplete.isIncomplete ∧
      ¬ ValidationError.BlamesOnce ((l.enter .endDocument [text, incomplete]).of .document) ∧
      (∀ number, ValidationError.BlamesOnce (l.of (.element number))) ∧
      ∃ v, t.validations["w"]? = some v ∧
        [] ∉ t.schema.graph.store.language t.schema.definitions v.document.matcher.state := by
  let text : ValidationError := .textNotAllowed "document" "Element a"
  let incomplete : ValidationError := .incompleteContent "document" "Element a"
  obtain ⟨r, hr, hp⟩ := Reachable.of_leadsTo (fun _ => .string)
    [.createGrammar (.element (.only ⟨"", "a"⟩) .epsilon)]
    (fun r => yields (.createValidation "w") r fun _ s =>
      yields (.take "w" (.characters "x")) s fun answer t => answer = .progress [] 0 &&
        yields (.take "w" .endDocument) t fun answer _ => answer = .progress [text, incomplete] 0)
    (by simp [Command.isLawful]) (by decide +kernel)
  simp only [yields_iff, Bool.and_eq_true, decide_eq_true_eq] at hp
  obtain ⟨_, s, hcreate, _, t, htext, rfl, _, u, hends, rfl⟩ := hp
  have hrecords := (Records.create hr hcreate).take htext
  obtain ⟨honce, hdocument⟩ := blamesOnce_element hrecords
  obtain ⟨v, hv, hincomplete⟩ := hdocument _ _ _ rfl hends
  refine ⟨_, _, _, _, _, hrecords, rfl, rfl, hends, rfl, rfl, ?_, honce, v, hv, hincomplete.1 rfl⟩
  simp [ValidationError.BlamesOnce, Ledger.of, Ledger.enter, Ledger.bearer, Ledger.innermost,
    ValidationError.concernsTag, ValidationError.blames, ValidationError.isIncomplete, text, incomplete]

end Session

end TreeGrammar
