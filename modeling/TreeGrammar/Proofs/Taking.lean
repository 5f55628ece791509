import TreeGrammar.Proofs.Reading
import TreeGrammar.Validation.Event

/-!
This module contains the validation of a document on forms, and that a validation on expressions does
what the validation on their forms plans to do. So nothing of a store shows in what is reported.
-/

namespace TreeGrammar

noncomputable section

namespace Form

structure Grammar where
  anyContent : Form
  contents : ExprId → Form

structure OpenElement where
  matcher : Matcher
  name : String
  faulty : Bool := false
  hasContent : Bool := false
  declared : Nat := 0

structure Validation where
  document : OpenElement
  elements : List OpenElement := []
  scope : Scope := []
  text : String := ""
  errors : List ValidationError := []

namespace Validation

def create (start : Form) : Validation where
  document := { matcher := .ofContent start, name := "document" }

def innermost (v : Validation) : OpenElement := v.elements.headD v.document

def withInnermost (v : Validation) (e : OpenElement) : Validation :=
  match v.elements with
  | [] => { v with document := e }
  | _ :: elements => { v with elements := e :: elements }

def report (v : Validation) (e : ValidationError) : Validation :=
  { v with errors := v.errors ++ [e] }

def flush (closing : Bool) (v : Validation) : Plan Validation := do
  let e := v.innermost
  if v.text.isEmpty && !(closing && !e.hasContent) then return v
  match ← e.matcher.read? (.text v.text v.scope) with
  | some matcher => return { v.withInnermost { e with matcher, hasContent := true } with text := "" }
  | none =>
    let v := v.withInnermost { e with hasContent := true, faulty := true }
    return { v.report (.textNotAllowed e.name e.matcher.state.describeHeads) with text := "" }

def enter (g : Grammar) (tag : StartTag) (v : Validation) : Plan (OpenElement × Validation) := do
  let parent := v.innermost
  let name := toString tag.name
  let declared := tag.declarations.length
  match ← parent.matcher.child? g.contents tag.name with
  | some matcher => return ({ matcher, name, declared }, v)
  | none =>
    return ({ matcher := .ofContent g.anyContent, name, declared, faulty := true },
      v.report (.elementNotAllowed name parent.matcher.state.describeHeads))

def readAttributes : List Attribute → OpenElement × Validation → Plan (OpenElement × Validation)
  | [], (e, v) => return (e, v)
  | a :: attributes, (e, v) => do
    match ← e.matcher.read? (.attribute a.name a.value v.scope) with
    | some matcher => readAttributes attributes ({ e with matcher }, v)
    | none =>
      readAttributes attributes
        ({ e with faulty := true }, v.report (.attributeNotAllowed e.name (toString a.name)))

def reportMissing (e : OpenElement) (v : Validation) : OptionT Plan Validation := do
  if e.faulty then return v
  let missing ← e.matcher.state.required
  return v.report (.missingAttributes e.name missing.describeAttributes)

def endAttributes : OpenElement × Validation → OptionT Plan (OpenElement × Validation)
  | (e, v) => do
    match ← (liftM e.matcher.endAttributes? : OptionT Plan (Option Matcher)) with
    | some matcher => return ({ e with matcher }, v)
    | none =>
      let v ← reportMissing e v
      let matcher ← (liftM e.matcher.grantAttributes : OptionT Plan Matcher)
      return ({ e with matcher, faulty := true }, v)

def declare (tag : StartTag) (v : Validation) : Validation :=
  let v := { v with scope := v.scope.declare tag.declarations }
  v.withInnermost { v.innermost with hasContent := true }

def startElement (g : Grammar) (tag : StartTag) (v : Validation) : OptionT Plan Validation := do
  let v ← (liftM (v.flush false) : OptionT Plan Validation)
  let p ← (liftM ((v.declare tag).enter g tag) : OptionT Plan (OpenElement × Validation))
  let p ← (liftM (readAttributes tag.attributes p) : OptionT Plan (OpenElement × Validation))
  let (e, v) ← endAttributes p
  return { v with elements := e :: v.elements }

def checkComplete (v : Validation) (e : OpenElement) : OpenElement × Validation :=
  if e.matcher.state.nullable || e.faulty then (e, v)
  else
    ({ e with faulty := true },
      v.report (.incompleteContent e.name e.matcher.state.describeHeads))

def leave (g : Grammar) (v : Validation) (e : OpenElement) : Plan Validation := do
  let parent := v.innermost
  match ← parent.matcher.readChild? e.matcher e.faulty with
  | some matcher => return v.withInnermost { parent with matcher }
  | none =>
    let v := if e.faulty then v else v.report (.childRejected e.name parent.name)
    match ← parent.matcher.readChild? e.matcher true with
    | some matcher => return v.withInnermost { parent with matcher, faulty := true }
    | none =>
      let stray := Matcher.ofContent g.anyContent
      let matcher := (← parent.matcher.readChild? stray true).getD parent.matcher
      return v.withInnermost { parent with matcher, faulty := true }

def endElement (g : Grammar) (v : Validation) : Plan Validation := do
  if v.elements.isEmpty then return v.report .unexpectedEndTag
  let v ← v.flush true
  match v.elements with
  | [] => return v
  | e :: elements =>
    let v := { v with elements, scope := v.scope.drop e.declared }
    let (e, v) := v.checkComplete e
    v.leave g e

def ended (v : Validation) : Plan (Option OpenElement × Validation) := do
  if v.elements.isEmpty then return (none, v.report .unexpectedEndTag)
  let v ← v.flush true
  match v.elements with
  | [] => return (none, v)
  | e :: elements =>
    let v := { v with elements, scope := v.scope.drop e.declared }
    let (e, v) := v.checkComplete e
    return (some e, v)

def endDocument (v : Validation) : Plan Validation := do
  if !v.elements.isEmpty then return v.report (.unclosedElements v.elements.length)
  let v ← v.flush false
  if v.document.matcher.state.nullable then return v
  return v.report
    (.incompleteContent v.document.name v.document.matcher.state.describeHeads)

def take (g : Grammar) (v : Validation) : Event → OptionT Plan Validation
  | .startElement tag => v.startElement g tag
  | .characters text => return { v with text := v.text ++ text }
  | .endElement => (liftM (v.endElement g) : OptionT Plan Validation)
  | .endDocument => (liftM v.endDocument : OptionT Plan Validation)

variable {v : Validation} {e : OpenElement} {gr : Grammar}

@[simp]
theorem innermost_withInnermost : (v.withInnermost e).innermost = e := by
  unfold withInnermost innermost
  cases v.elements <;> rfl

theorem matcher_declare (tag : StartTag) :
    (v.declare tag).innermost.matcher = v.innermost.matcher := by
  rw [declare, innermost_withInnermost]
  rfl

theorem endElement_eq : v.endElement gr = (do
    match ← v.ended with
    | (none, v) => return v
    | (some e, v) => v.leave gr e) := by
  unfold endElement ended
  split
  . rw [pure_bind]
  . rw [bind_assoc]
    congr 1
    funext w
    cases w.elements <;> rw [pure_bind]

end Validation

end Form

namespace Store

structure ShowsElement (s : Store) (defs : Definitions) (e : OpenElement) (e' : Form.OpenElement) :
    Prop where
  matcher : s.ShowsMatcher defs e.matcher e'.matcher
  name : e.name = e'.name
  faulty : e.faulty = e'.faulty
  hasContent : e.hasContent = e'.hasContent
  declared : e.declared = e'.declared

structure ShowsValidation (s : Store) (defs : Definitions) (v : Validation)
    (v' : Form.Validation) : Prop where
  document : s.ShowsElement defs v.document v'.document
  elements : List.Forall₂ (s.ShowsElement defs) v.elements v'.elements
  scope : v.scope = v'.scope
  text : v.text = v'.text
  errors : v.errors = v'.errors

variable {s t : Store} {defs : Definitions} {e : OpenElement} {e' : Form.OpenElement}
variable {v : Validation} {v' : Form.Validation} {error error' : ValidationError}

theorem ShowsElement.imp {defs' : Definitions} (h : s.ShowsElement defs e e')
    (himp : ∀ id e, s.Shows defs id e → t.Shows defs' id e) : t.ShowsElement defs' e e' :=
  ⟨h.matcher.imp himp, h.name, h.faulty, h.hasContent, h.declared⟩

theorem ShowsElement.of_le (h : s.ShowsElement defs e e') (hst : s ≤ t) :
    t.ShowsElement defs e e' :=
  h.imp fun _ _ hid => hid.of_le hst le_rfl

namespace ShowsValidation

theorem imp {defs' : Definitions} (h : s.ShowsValidation defs v v')
    (himp : ∀ id e, s.Shows defs id e → t.Shows defs' id e) : t.ShowsValidation defs' v v' :=
  ⟨h.document.imp himp, h.elements.imp fun _ _ he => he.imp himp, h.scope, h.text, h.errors⟩

theorem of_le (h : s.ShowsValidation defs v v') (hst : s ≤ t) : t.ShowsValidation defs v v' :=
  h.imp fun _ _ hid => hid.of_le hst le_rfl

theorem innermost (h : s.ShowsValidation defs v v') :
    s.ShowsElement defs v.innermost v'.innermost := by
  obtain ⟨document, elements⟩ := v
  obtain ⟨document', elements'⟩ := v'
  cases h.elements with
  | nil => exact h.document
  | cons he _ => exact he

theorem withInnermost (h : s.ShowsValidation defs v v') (he : s.ShowsElement defs e e') :
    s.ShowsValidation defs (v.withInnermost e) (v'.withInnermost e') := by
  obtain ⟨document, elements⟩ := v
  obtain ⟨document', elements'⟩ := v'
  obtain ⟨hdocument, helements, hscope, htext, herrors⟩ := h
  cases helements with
  | nil => exact ⟨he, .nil, hscope, htext, herrors⟩
  | cons _ helements => exact ⟨hdocument, .cons he helements, hscope, htext, herrors⟩

theorem report (h : s.ShowsValidation defs v v') (herror : error = error') :
    s.ShowsValidation defs (v.report error) (v'.report error') := by
  obtain rfl := herror
  exact { h with errors := congrArg (· ++ [error]) h.errors }

theorem withText {text : String} (h : s.ShowsValidation defs v v') :
    s.ShowsValidation defs { v with text } { v' with text } :=
  { h with text := rfl }

theorem pop {elements : List OpenElement} {elements' : List Form.OpenElement}
    (h : s.ShowsValidation defs v v') (hv : v.elements = e :: elements)
    (hv' : v'.elements = e' :: elements') : s.ShowsElement defs e e' ∧
      s.ShowsValidation defs { v with elements, scope := v.scope.drop e.declared }
        { v' with elements := elements', scope := v'.scope.drop e'.declared } := by
  have helements := h.elements
  rw [hv, hv', List.forall₂_cons] at helements
  obtain ⟨he, helements⟩ := helements
  exact ⟨he, { h with elements := helements, scope := by rw [h.scope, he.declared] }⟩

theorem declare (tag : StartTag) (h : s.ShowsValidation defs v v') :
    let v := { v with scope := v.scope.declare tag.declarations }
    s.ShowsValidation defs (v.withInnermost { v.innermost with hasContent := true })
      (v'.declare tag) := by
  have hscope : s.ShowsValidation defs { v with scope := v.scope.declare tag.declarations }
      { v' with scope := v'.scope.declare tag.declarations } :=
    { h with scope := by rw [h.scope] }
  have he := hscope.innermost
  exact hscope.withInnermost ⟨he.matcher, he.name, he.faulty, rfl, he.declared⟩

end ShowsValidation

structure ShowsGrammar (s : Store) (defs : Definitions) (gr : Grammar) (gr' : Form.Grammar)
    (heads : List Head) : Prop where
  anyContent : s.Shows defs gr.anyContent gr'.anyContent
  contents : s.ShowsContents defs gr'.contents heads

theorem ShowsGrammar.of_le {gr : Grammar} {gr' : Form.Grammar} {heads : List Head}
    (h : s.ShowsGrammar defs gr gr' heads) (hst : s ≤ t) : t.ShowsGrammar defs gr gr' heads :=
  ⟨h.anyContent.of_le hst le_rfl, h.contents.of_le hst⟩

end Store

namespace Validation

def ended (defs : Definitions) (v : Validation) : GraphM (Option OpenElement × Validation) := do
  if v.elements.isEmpty then return (none, v.report .unexpectedEndTag)
  let v ← v.flush defs true
  match v.elements with
  | [] => return (none, v)
  | e :: elements =>
    let v := { v with elements, scope := v.scope.drop e.declared }
    let (e, v) ← v.checkComplete defs e
    return (some e, v)

open TreeGrammar.Graph

variable {defs : Definitions} {g : Graph} {e : OpenElement} {e' : Form.OpenElement}
variable {v : Validation} {v' : Form.Validation} {gr : Grammar} {gr' : Form.Grammar}

theorem flush_carries {closing : Bool} (hg : g.Sound defs)
    (hv : g.store.ShowsValidation defs v v') :
    Carries defs g (v.flush defs closing) (v'.flush closing) (Store.ShowsValidation · defs) := by
  have he := hv.innermost
  unfold flush Form.Validation.flush
  dsimp only
  rw [hv.text, he.hasContent, hv.scope]
  refine .ite Iff.rfl (fun _ => .pure hg hv) fun _ => ?_
  refine Carries.bind (Matcher.readText?_carries hg he.matcher) fun r h hgh hh hr => ?_
  have hv := hv.of_le (store_le hgh)
  have he := he.of_le (store_le hgh)
  generalize (v'.innermost.matcher.read? (.text v'.text v'.scope)).value = r' at hr
  cases hr' : r.map (·.1) with
  | none =>
    rw [hr'] at hr
    cases hr
    obtain rfl := Option.map_eq_none_iff.1 hr'
    refine Carries.ask (describeHeads_carries hh he.matcher.state) ?_
    rintro _ k hhk hk rfl
    have he := he.of_le (store_le hhk)
    refine .pure hk (.withText (.report ((hv.of_le (store_le hhk)).withInnermost ?_) ?_))
    . exact ⟨he.matcher, he.name, rfl, rfl, he.declared⟩
    . rw [he.name]
  | some matcher =>
    rw [hr'] at hr
    obtain ⟨p, rfl, rfl⟩ := Option.map_eq_some_iff.1 hr'
    cases hr with | some hmatcher =>
    refine .pure hh (.withText (hv.withInnermost ?_))
    exact ⟨hmatcher, he.name, he.faulty, rfl, he.declared⟩

theorem enter_carries {tag : StartTag} (hg : g.Sound defs) (hv : g.store.ShowsValidation defs v v')
    (hgr : g.store.ShowsGrammar defs gr gr' v'.innermost.matcher.state.heads) :
    Carries defs g (v.enter gr defs tag) (v'.enter gr' tag) fun s p p' =>
      s.ShowsElement defs p.1 p'.1 ∧ s.ShowsValidation defs p.2 p'.2 := by
  have he := hv.innermost
  refine Carries.bind (Matcher.child?_carries hg he.matcher hgr.contents) fun r h hgh hh hr => ?_
  have hv := hv.of_le (store_le hgh)
  generalize (v'.innermost.matcher.child? gr'.contents tag.name).value = r' at hr
  cases hr with
  | some hmatcher => exact .pure hh ⟨⟨hmatcher, rfl, rfl, rfl, rfl⟩, hv⟩
  | none =>
    refine Carries.ask (describeHeads_carries hh (he.of_le (store_le hgh)).matcher.state) ?_
    rintro _ k hhk hk rfl
    have hany := hgr.anyContent.of_le (store_le (le_trans hgh hhk)) le_rfl
    exact .pure hk ⟨⟨⟨hany, rfl⟩, rfl, rfl, rfl, rfl⟩, (hv.of_le (store_le hhk)).report rfl⟩

theorem readAttributes_carries (attributes : List Attribute) {p : OpenElement × Validation}
    {p' : Form.OpenElement × Form.Validation} {g : Graph} (hg : g.Sound defs)
    (he : g.store.ShowsElement defs p.1 p'.1) (hv : g.store.ShowsValidation defs p.2 p'.2) :
    Carries defs g (readAttributes defs attributes p) (Form.Validation.readAttributes attributes p')
      fun s p p' => s.ShowsElement defs p.1 p'.1 ∧ s.ShowsValidation defs p.2 p'.2 := by
  obtain ⟨e, v⟩ := p
  obtain ⟨e', v'⟩ := p'
  induction attributes generalizing g e v e' v' with
  | nil => exact .pure hg ⟨he, hv⟩
  | cons a attributes ih =>
    unfold readAttributes Form.Validation.readAttributes
    rw [hv.scope]
    refine Carries.bind (Matcher.readAttribute?_carries hg he.matcher) fun r h hgh hh hr => ?_
    have he := he.of_le (store_le hgh)
    have hv := hv.of_le (store_le hgh)
    dsimp only at he hv hr ⊢
    generalize (e'.matcher.read? (.attribute a.name a.value v'.scope)).value = r' at hr
    cases hr with
    | some hmatcher => exact ih hh _ _ _ _ ⟨hmatcher, he.name, he.faulty, he.hasContent, he.declared⟩ hv
    | none =>
      refine ih hh _ _ _ _ ⟨he.matcher, he.name, rfl, he.hasContent, he.declared⟩ (hv.report ?_)
      rw [he.name]

theorem grant_carries (hg : g.Sound defs) (he : g.store.ShowsElement defs e e')
    (hv : g.store.ShowsValidation defs v v') :
    Carries defs g (do
      let matcher ← e.matcher.grantAttributes defs
      return ({ e with matcher, faulty := true }, v))
      (do
        let matcher ← (liftM e'.matcher.grantAttributes : OptionT Plan Form.Matcher)
        return ({ e' with matcher, faulty := true }, v') : OptionT Plan _).run
      (Yielded fun s p p' => s.ShowsElement defs p.1 p'.1 ∧ s.ShowsValidation defs p.2 p'.2)
      Refused := by
  refine Carries.attempt (Matcher.grantAttributes_carries hg he.matcher).attempted ?_
  intro m m' h hgh hh hm
  exact .pure hh ⟨_, rfl, ⟨hm, he.name, rfl, he.hasContent, he.declared⟩, hv.of_le (store_le hgh)⟩

theorem endAttributes_carries {p : OpenElement × Validation}
    {p' : Form.OpenElement × Form.Validation} (hg : g.Sound defs)
    (he : g.store.ShowsElement defs p.1 p'.1) (hv : g.store.ShowsValidation defs p.2 p'.2) :
    Carries defs g (endAttributes defs p) (Form.Validation.endAttributes p').run
      (Yielded fun s p p' => s.ShowsElement defs p.1 p'.1 ∧ s.ShowsValidation defs p.2 p'.2)
      Refused := by
  obtain ⟨e, v⟩ := p
  obtain ⟨e', v'⟩ := p'
  refine Carries.attempt (Matcher.endAttributes?_carries hg he.matcher).attempted ?_
  intro r r' h hgh hh hr
  have he := he.of_le (store_le hgh)
  have hv := hv.of_le (store_le hgh)
  dsimp only at he hv
  cases hr with
  | some hmatcher =>
    exact .pure hh ⟨_, rfl, ⟨hmatcher, he.name, he.faulty, he.hasContent, he.declared⟩, hv⟩
  | none =>
    dsimp only
    rw [Form.Validation.reportMissing, he.faulty]
    split
    . rw [pure_bind]
      exact grant_carries hh he hv
    . rw [bind_assoc]
      refine Carries.attempt (required_carries hh he.matcher.state) ?_
      intro missing missing' k hhk hk hmissing
      rw [pure_bind]
      have hreport : k.store.ShowsValidation defs
          (v.report (.missingAttributes e.name (k.store.describeAttributes missing)))
          (v'.report (.missingAttributes e'.name missing'.describeAttributes)) := by
        refine (hv.of_le (store_le hhk)).report ?_
        rw [he.name, describeAttributes_eq hmissing]
      have hgrant := grant_carries hk (he.of_le (store_le hhk)) hreport
      exact ⟨hgrant.forgetful, hgrant.error, hgrant.ok⟩

theorem startElement_carries {tag : StartTag} (hg : g.Sound defs)
    (hv : g.store.ShowsValidation defs v v')
    (hgr : g.store.ShowsGrammar defs gr gr'
      (v'.flush false).value.innermost.matcher.state.heads) :
    Carries defs g (v.startElement gr defs tag) (v'.startElement gr' tag).run
      (Yielded (Store.ShowsValidation · defs)) Refused := by
  refine Carries.lift (flush_carries hg hv) fun v₁ h hgh hh hv => ?_
  have hdeclare := hv.declare tag
  have hgr := hgr.of_le (store_le hgh)
  rw [← Form.Validation.matcher_declare tag] at hgr
  refine Carries.lift (enter_carries hh hdeclare hgr) fun p k hhk hk hp => ?_
  refine Carries.lift (readAttributes_carries _ hk hp.1 hp.2) fun q l hkl hl hq => ?_
  refine Carries.attempt (endAttributes_carries hl hq.1 hq.2) fun r r' u hlu hu hr => ?_
  exact .pure hu ⟨_, rfl, { hr.2 with elements := .cons hr.1 hr.2.elements }⟩

theorem checkComplete_carries (hg : g.Sound defs) (hv : g.store.ShowsValidation defs v v')
    (he : g.store.ShowsElement defs e e') :
    Carries defs g (v.checkComplete defs e) (Pure.pure (v'.checkComplete e') : Plan _)
      fun s p p' => s.ShowsElement defs p.1 p'.1 ∧ s.ShowsValidation defs p.2 p'.2 := by
  refine Carries.ask (Matcher.isAccepting_carries hg he.matcher) ?_
  rintro _ h hgh hh rfl
  have he := he.of_le (store_le hgh)
  have hv := hv.of_le (store_le hgh)
  unfold Form.Validation.checkComplete
  rw [he.faulty]
  split
  . exact .pure hh ⟨he, hv⟩
  . refine Carries.ask (describeHeads_carries hh he.matcher.state) ?_
    rintro _ k hhk hk rfl
    have he := he.of_le (store_le hhk)
    refine .pure hk ⟨⟨he.matcher, he.name, rfl, he.hasContent, he.declared⟩, ?_⟩
    refine (hv.of_le (store_le hhk)).report ?_
    rw [he.name]

theorem leave_carries (hg : g.Sound defs) (hv : g.store.ShowsValidation defs v v')
    (he : g.store.ShowsElement defs e e') (hany : g.store.Shows defs gr.anyContent gr'.anyContent) :
    Carries defs g (v.leave gr defs e) (v'.leave gr' e') (Store.ShowsValidation · defs) := by
  have hparent := hv.innermost
  unfold leave Form.Validation.leave
  dsimp only
  rw [he.faulty]
  refine Carries.bind (Matcher.readChild?_carries hg hparent.matcher he.matcher) ?_
  intro r h hgh hh hr
  have hv := hv.of_le (store_le hgh)
  have he := he.of_le (store_le hgh)
  have hparent := hparent.of_le (store_le hgh)
  have hany := hany.of_le (store_le hgh) le_rfl
  generalize (v'.innermost.matcher.readChild? e'.matcher e'.faulty).value = r' at hr
  cases hr with
  | some hmatcher =>
    refine .pure hh (hv.withInnermost ?_)
    exact ⟨hmatcher, hparent.name, hparent.faulty, hparent.hasContent, hparent.declared⟩
  | none =>
    dsimp only
    have hv : h.store.ShowsValidation defs
        (if e'.faulty then v else v.report (.childRejected e.name v.innermost.name))
        (if e'.faulty then v' else v'.report (.childRejected e'.name v'.innermost.name)) := by
      split
      . exact hv
      . refine hv.report ?_
        rw [he.name, hparent.name]
    generalize (if e'.faulty then v else _) = w at hv ⊢
    generalize (if e'.faulty then v' else _) = w' at hv ⊢
    have recover {k : Graph} {m : Matcher} {m' : Form.Matcher} (hhk : h ≤ k) (hk : k.Sound defs)
        (hm : k.store.ShowsMatcher defs m m') :
        Carries defs k
          (Pure.pure (w.withInnermost { v.innermost with matcher := m, faulty := true }))
          (Pure.pure (w'.withInnermost { v'.innermost with matcher := m', faulty := true }) :
            Plan Form.Validation) (Store.ShowsValidation · defs) := by
      have hparent := hparent.of_le (store_le hhk)
      refine .pure hk ((hv.of_le (store_le hhk)).withInnermost ?_)
      exact ⟨hm, hparent.name, rfl, hparent.hasContent, hparent.declared⟩
    refine Carries.bind (Matcher.readChild?_carries hh hparent.matcher he.matcher) ?_
    intro r k hhk hk hr
    generalize (v'.innermost.matcher.readChild? e'.matcher true).value = r' at hr
    cases hr with
    | some hmatcher => exact recover hhk hk hmatcher
    | none =>
      have hparent := hparent.of_le (store_le hhk)
      have hstray : k.store.ShowsMatcher defs (.ofContent gr.anyContent)
          (.ofContent gr'.anyContent) := ⟨hany.of_le (store_le hhk) le_rfl, rfl⟩
      refine Carries.bind (Matcher.readChild?_carries hk hparent.matcher hstray) ?_
      intro r l hkl hl hr
      refine recover (le_trans hhk hkl) hl ?_
      generalize (v'.innermost.matcher.readChild? _ true).value = r' at hr
      cases hr with
      | some hmatcher => exact hmatcher
      | none => exact (hparent.of_le (store_le hkl)).matcher

theorem endElement_eq : v.endElement gr defs = (do
    match ← v.ended defs with
    | (none, v) => return v
    | (some e, v) => v.leave gr defs e) := by
  unfold endElement ended
  split
  . rw [pure_bind]
  . rw [bind_assoc]
    congr 1
    funext w
    cases w.elements with
    | nil => rw [pure_bind]
    | cons e elements => simp only [bind_assoc, pure_bind]

theorem ended_carries (hg : g.Sound defs) (hv : g.store.ShowsValidation defs v v') :
    Carries defs g (v.ended defs) v'.ended fun s p p' =>
      Option.Rel (s.ShowsElement defs) p.1 p'.1 ∧ s.ShowsValidation defs p.2 p'.2 := by
  have hempty : v.elements.isEmpty = true ↔ v'.elements.isEmpty = true := by
    rw [List.isEmpty_iff_length_eq_zero, List.isEmpty_iff_length_eq_zero, hv.elements.length_eq]
  refine Carries.ite hempty (fun _ => .pure hg ⟨.none, hv.report rfl⟩) fun _ => ?_
  refine Carries.bind (flush_carries hg hv) fun w h hgh hh hw => ?_
  generalize (v'.flush true).value = w' at hw
  have hlength := hw.elements.length_eq
  match helements : w.elements, helements' : w'.elements with
  | [], [] => exact .pure hh ⟨.none, hw⟩
  | e :: elements, e' :: elements' =>
    obtain ⟨he, hrest⟩ := hw.pop helements helements'
    refine Carries.ask (checkComplete_carries hh hrest he) fun p k hhk hk hp => ?_
    exact .pure hk ⟨.some hp.1, hp.2⟩
  | [], _ :: _ | _ :: _, [] => simp [helements, helements'] at hlength

theorem endElement_carries (hg : g.Sound defs) (hv : g.store.ShowsValidation defs v v')
    (hany : g.store.Shows defs gr.anyContent gr'.anyContent) :
    Carries defs g (v.endElement gr defs) (v'.endElement gr') (Store.ShowsValidation · defs) := by
  rw [endElement_eq, Form.Validation.endElement_eq]
  refine Carries.bind (ended_carries hg hv) fun p h hgh hh hp => ?_
  obtain ⟨e?, w⟩ := p
  generalize v'.ended.value = p' at hp
  obtain ⟨e?', w'⟩ := p'
  obtain ⟨he, hw⟩ := hp
  cases he with
  | none => exact .pure hh hw
  | some he => exact leave_carries hh hw he (hany.of_le (store_le hgh) le_rfl)

theorem endDocument_carries (hg : g.Sound defs) (hv : g.store.ShowsValidation defs v v') :
    Carries defs g (v.endDocument defs) v'.endDocument (Store.ShowsValidation · defs) := by
  have hlength := hv.elements.length_eq
  have hopen : (!v.elements.isEmpty) = true ↔ (!v'.elements.isEmpty) = true := by
    simp [← List.length_eq_zero_iff, hlength]
  refine Carries.ite hopen (fun _ => .pure hg (hv.report (by rw [depth, hlength]))) fun _ => ?_
  refine Carries.bind (flush_carries hg hv) fun w h hgh hh hw => ?_
  have he := hw.document
  refine Carries.ask (Matcher.isAccepting_carries hh he.matcher) ?_
  rintro _ k hhk hk rfl
  have hw := hw.of_le (store_le hhk)
  have he := he.of_le (store_le hhk)
  split
  . exact .pure hk hw
  . refine Carries.ask (describeHeads_carries hk he.matcher.state) ?_
    rintro _ l hkl hl rfl
    refine .pure hl ((hw.of_le (store_le hkl)).report ?_)
    rw [he.name]

theorem take_carries (event : Event) (hg : g.Sound defs) (hv : g.store.ShowsValidation defs v v')
    (hgr : g.store.ShowsGrammar defs gr gr'
      (v'.flush false).value.innermost.matcher.state.heads) :
    Carries defs g (v.take gr defs event) (v'.take gr' event).run
      (Yielded (Store.ShowsValidation · defs)) Refused := by
  cases event with
  | startElement tag => exact startElement_carries hg hv hgr
  | characters text => exact .pure hg ⟨_, rfl, { hv with text := congrArg (· ++ text) hv.text }⟩
  | endElement => exact (endElement_carries hg hv hgr.anyContent).attempted
  | endDocument => exact (endDocument_carries hg hv).attempted

end Validation

end

end TreeGrammar
