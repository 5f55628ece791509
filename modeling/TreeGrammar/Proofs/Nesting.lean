import TreeGrammar.Proofs.Alternatives

/-!
This module contains how open elements are nested: the declarations that an element can satisfy are
among those that its parent waits for, and the parent does not move on before the element has ended. So
the parent can read the element then.
-/

namespace TreeGrammar

namespace Form

namespace Matcher

def owners : Matcher → List ExprId
  | .single _ none => []
  | .single _ (some owner) => [owner]
  | .several _ slots => slots.map (·.owner)

def IsJoint : Matcher → Prop
  | .single .. => True
  | .several state slots => slots ≠ [] ∧
    ∀ x, x ∈ state.alternatives ↔ ∃ slot ∈ slots, x ∈ slot.content.alternatives

structure Succeeds (m m' : Matcher) : Prop where
  owners : m'.owners = m.owners
  joint : m.IsJoint → m'.IsJoint

variable {m m' : Matcher} {token : Token} {pending : Pending} {rest state x : Form}
variable {slots : List Slot} {contents : ExprId → Form} {heads : List Head} {name : Name}

theorem Succeeds.refl : m.Succeeds m := ⟨rfl, id⟩

theorem Succeeds.several (op : Form → Form) {step : Slot → Slot}
    (hop : ∀ e x, x ∈ (op e).alternatives ↔ ∃ a ∈ e.alternatives, x ∈ (op a).alternatives)
    (howner : ∀ slot, (step slot).owner = slot.owner)
    (hcontent : ∀ slot, (step slot).content = op slot.content) :
    (several state slots).Succeeds (several (op state) (slots.map step)) where
  owners := by
    change (slots.map step).map (·.owner) = slots.map (·.owner)
    rw [List.map_map]
    exact List.map_congr_left fun slot _ => howner slot
  joint := by
    rintro ⟨hne, hjoint⟩
    refine ⟨by simpa using hne, fun x => ?_⟩
    simp only [List.mem_map, exists_exists_and_eq_and, hcontent]
    rw [hop]
    constructor
    . rintro ⟨a, ha, hx⟩
      obtain ⟨slot, hslot, ha⟩ := (hjoint a).1 ha
      exact ⟨slot, hslot, (hop _ x).2 ⟨a, ha, hx⟩⟩
    . rintro ⟨slot, hslot, hx⟩
      obtain ⟨a, ha, hx⟩ := (hop _ x).1 hx
      exact ⟨a, (hjoint a).2 ⟨slot, hslot, ha⟩, hx⟩

/--
The state that follows a state when a token is read.
-/
noncomputable def afterToken (token : Token) (e : Form) : Form :=
  (after token e (e.derivative token).value).value

theorem mem_alternatives_afterToken (token : Token) (e x : Form) :
    x ∈ (afterToken token e).alternatives ↔
      ∃ a ∈ e.alternatives, x ∈ (afterToken token a).alternatives := by
  unfold afterToken after
  split
  . simp only [mem_alternatives_choice]
    rw [mem_alternatives_derivative]
    constructor
    . rintro (hx | ⟨a, ha, hx⟩)
      . refine ⟨x, hx, Or.inl ?_⟩
        rw [alternatives_of_mem_alternatives hx]
        exact List.mem_singleton_self x
      . exact ⟨a, ha, Or.inr hx⟩
    . rintro ⟨a, ha, hx | hx⟩
      . rw [alternatives_of_mem_alternatives ha, List.mem_singleton] at hx
        exact Or.inl (hx ▸ ha)
      . exact Or.inr ⟨a, ha, hx⟩
  . exact mem_alternatives_derivative

theorem value_advance_several :
    ((Matcher.several state slots).advance token (state.derivative token).value).value =
      .several (afterToken token state)
        (slots.map fun slot => { slot with content := afterToken token slot.content }) := by
  rw [advance, Plan.value_bind, Plan.value_bind, Plan.value_mapM]
  rfl

theorem succeeds_of_read? (h : (m.read? token).value = some m') : m.Succeeds m' := by
  rw [read?, Plan.value_bind] at h
  split at h
  . split at h
    . cases h
      exact .refl
    . cases h
  . cases h
    cases m with
    | single state owner => exact ⟨by cases owner <;> rfl, fun _ => trivial⟩
    | several state slots =>
      rw [Matcher.state, value_advance_several]
      exact .several _ (mem_alternatives_afterToken token) (fun _ => rfl) fun _ => rfl

theorem value_discharge_several :
    ((Matcher.several state slots).discharge pending (state.discharge pending).value).value =
      .several (state.discharge pending).value
        (slots.map fun slot => { slot with content := (slot.content.discharge pending).value }) := by
  rw [discharge, Plan.value_bind, Plan.value_mapM]
  rfl

theorem succeeds_discharge : m.Succeeds
    (m.discharge pending (m.state.discharge pending).value).value := by
  cases m with
  | single state owner => exact ⟨by cases owner <;> rfl, fun _ => trivial⟩
  | several state slots =>
    rw [Matcher.state, value_discharge_several]
    exact .several (fun e => (e.discharge pending).value)
      (fun _ _ => mem_alternatives_discharge) (fun _ => rfl) fun _ => rfl

theorem succeeds_of_endAttributes? (h : m.endAttributes?.value = some m') : m.Succeeds m' := by
  rw [endAttributes?, Plan.value_bind] at h
  split at h
  . cases h
  . cases h
    exact succeeds_discharge

theorem succeeds_grantAttributes : m.Succeeds m.grantAttributes.value :=
  succeeds_discharge

theorem mem_alternatives_choices : x ∈ (heads.foldlM
      (fun state head => Plan.choice state (contents head.content)) state).value.alternatives ↔
    x ∈ state.alternatives ∨ ∃ head ∈ heads, x ∈ (contents head.content).alternatives := by
  induction heads generalizing state with
  | nil => simp
  | cons head heads ih =>
    rw [List.foldlM_cons, Plan.value_bind, ih, mem_alternatives_choice, List.exists_mem_cons_iff,
      or_assoc]

theorem of_ofHeads? (h : (ofHeads? contents heads).value = some m) :
    m.owners = heads.map (·.id) ∧ heads ≠ [] ∧ m.IsJoint := by
  match heads with
  | [] => cases h
  | [head] =>
    cases h
    exact ⟨rfl, by simp, trivial⟩
  | head :: next :: heads =>
    cases h
    refine ⟨?_, by simp, by simp, fun x => ?_⟩
    . rw [owners, List.map_map]
      rfl
    . rw [mem_alternatives_choices]
      simp only [List.mem_map, exists_exists_and_eq_and]
      simp [alternatives]

theorem of_child? (h : (m.child? contents name).value = some m') :
    m'.owners ≠ [] ∧ m'.IsJoint ∧ ∀ owner ∈ m'.owners, ∃ head ∈ m.state.heads, head.id = owner := by
  obtain ⟨howners, hne, hjoint⟩ := of_ofHeads? h
  refine ⟨by simpa [howners] using hne, hjoint, ?_⟩
  rw [howners]
  intro owner howner
  obtain ⟨head, hhead, rfl⟩ := List.mem_map.1 howner
  exact ⟨head, List.mem_eraseDups.1 (List.mem_filter.1 hhead).1, rfl⟩

theorem exists_satisfied (h : (several state slots).IsJoint) (hnullable : state.nullable = true) :
    ∃ owner, owner ∈ satisfied slots := by
  obtain ⟨a, ha, hnullable⟩ := nullable_iff_alternatives.1 hnullable
  obtain ⟨slot, hslot, ha⟩ := (h.2 a).1 ha
  refine ⟨slot.owner, List.mem_map_of_mem (List.mem_filter.2 ⟨hslot, ?_⟩)⟩
  exact nullable_iff_alternatives.2 ⟨a, ha, hnullable⟩

theorem read?_of_head {head : Head} (hm : m.state.IsReduced) (hhead : head ∈ m.state.heads)
    (htoken : token.satisfies head.id) : (m.read? token).value.isSome := by
  have hstarts : m.state.StartsWith token :=
    (startsWith_iff (Token.isElement_of_satisfies htoken)).2 ⟨head, hhead, htoken⟩
  rw [read?, Plan.value_bind, if_neg ((derivative_ne_nullSet_iff hm).2 hstarts)]
  rfl

end Matcher

namespace OpenElement

/--
The element can be a child in the place where the parent is.
-/
structure Fits (child parent : OpenElement) : Prop where
  owners : ∀ owner ∈ child.matcher.owners, ∃ head ∈ parent.matcher.state.heads, head.id = owner
  known : child.matcher.owners = [] → child.faulty = true
  joint : child.matcher.IsJoint

variable {child child' parent : OpenElement}

theorem Fits.succeeds (h : child.Fits parent) (hmatcher : child.matcher.Succeeds child'.matcher)
    (hfaulty : child.faulty = true → child'.faulty = true) : child'.Fits parent where
  owners := by
    rw [hmatcher.owners]
    exact h.owners
  known := by
    rw [hmatcher.owners]
    exact fun hnone => hfaulty (h.known hnone)
  joint := hmatcher.joint h.joint

theorem Fits.readChild? (h : child.Fits parent) (hparent : parent.matcher.state.IsReduced)
    (hdone : child.matcher.state.nullable = true ∨ child.faulty = true)
    (hnone : (parent.matcher.readChild? child.matcher child.faulty).value = none) :
    child.matcher.owners = [] ∧ child.faulty = true ∧ parent.matcher.state.heads = [] := by
  obtain ⟨howners, hknown, hjoint⟩ := h
  obtain ⟨matcher, name, faulty, hasContent, declared⟩ := child
  -- a declaration that the token satisfies is enough
  have hread (head : Head) (hhead : head ∈ parent.matcher.state.heads)
      (htoken : (matcher.token faulty).satisfies head.id) : False := by
    have hsome := Matcher.read?_of_head hparent hhead htoken
    have hnone : (parent.matcher.read? (matcher.token faulty)).value = none := hnone
    rw [hnone] at hsome
    cases hsome
  cases matcher with
  | single state owner =>
    cases owner with
    | none =>
      refine ⟨rfl, hknown rfl, List.eq_nil_iff_forall_not_mem.2 fun head hhead => ?_⟩
      exact hread head hhead rfl
    | some owner =>
      obtain ⟨head, hhead, hid⟩ := howners owner List.mem_cons_self
      exact (hread head hhead (by simp [Matcher.token, Token.satisfies, hid])).elim
  | several state slots =>
    obtain ⟨owner, howner⟩ : ∃ owner,
        owner ∈ if faulty then slots.map (·.owner) else Matcher.satisfied slots := by
      cases faulty with
      | true =>
        obtain ⟨slot, hslot⟩ := List.exists_mem_of_ne_nil _ hjoint.1
        exact ⟨slot.owner, List.mem_map_of_mem hslot⟩
      | false => exact Matcher.exists_satisfied hjoint (hdone.resolve_right (by simp))
    have hmem : owner ∈ slots.map (·.owner) := by
      split at howner
      . exact howner
      . obtain ⟨slot, hslot, rfl⟩ := List.mem_map.1 howner
        exact List.mem_map_of_mem (List.mem_filter.1 hslot).1
    obtain ⟨head, hhead, hid⟩ := howners owner hmem
    refine (hread head hhead ?_).elim
    simpa [Matcher.token, Token.satisfies, hid] using howner

end OpenElement

namespace Validation

/--
Each of the open elements fits the one around it, or the document.
-/
def Nested (document : OpenElement) : List OpenElement → Prop
  | [] => True
  | child :: parents => child.Fits (parents.headD document) ∧ Nested document parents

/--
The open elements are nested, and no child has been rejected.
-/
structure Orderly (v : Validation) : Prop where
  nested : Nested v.document v.elements
  accepted : ∀ element parent, ValidationError.childRejected element parent ∉ v.errors

variable {v : Validation} {e : OpenElement} {error : ValidationError} {gr : Grammar} {tag : StartTag}
variable {P : Form → Prop} {closing : Bool}

namespace Orderly

theorem create (start : Form) : (create start).Orderly :=
  ⟨trivial, by simp [Validation.create]⟩

theorem report (h : v.Orderly) (herror : ∀ element parent, error ≠ .childRejected element parent) :
    (v.report error).Orderly where
  nested := h.nested
  accepted := by
    intro element parent hmem
    rcases List.mem_append.1 hmem with hmem | hmem
    . exact h.accepted element parent hmem
    . exact herror element parent (List.mem_singleton.1 hmem).symm

theorem withText {text : String} (h : v.Orderly) : ({ v with text } : Validation).Orderly :=
  ⟨h.nested, h.accepted⟩

theorem withInnermost (h : v.Orderly) (hmatcher : v.innermost.matcher.Succeeds e.matcher)
    (hfaulty : v.innermost.faulty = true → e.faulty = true) : (v.withInnermost e).Orderly := by
  obtain ⟨document, elements⟩ := v
  cases elements with
  | nil => exact ⟨trivial, h.accepted⟩
  | cons child parents =>
    obtain ⟨hfits, hnested⟩ := h.nested
    exact ⟨⟨hfits.succeeds hmatcher hfaulty, hnested⟩, h.accepted⟩

end Orderly

theorem flush_orderly (h : v.Orderly) : (v.flush closing).value.Orderly := by
  unfold flush
  dsimp only
  split
  . exact h
  . rw [Plan.value_bind]
    split
    . next m hm => exact .withText (h.withInnermost (Matcher.succeeds_of_read? hm) id)
    . exact .withText (.report (h.withInnermost .refl fun _ => rfl) (by simp))

theorem declare_orderly (h : v.Orderly) : (v.declare tag).Orderly := by
  have hscope : ({ v with scope := v.scope.declare tag.declarations } : Validation).Orderly :=
    ⟨h.nested, h.accepted⟩
  exact hscope.withInnermost .refl id

/--
What is asked of an element that is being started.
-/
structure Starts (parent : OpenElement) (p : OpenElement × Validation) : Prop where
  fits : p.1.Fits parent
  innermost : p.2.innermost = parent
  orderly : p.2.Orderly

theorem Starts.report {parent : OpenElement} (h : Starts parent (e, v))
    (herror : ∀ element parent, error ≠ .childRejected element parent) {m : Matcher}
    (hm : e.matcher.Succeeds m) : Starts parent ({ e with matcher := m, faulty := true },
      v.report error) :=
  ⟨h.fits.succeeds hm fun _ => rfl, h.innermost, h.orderly.report herror⟩

theorem enter_starts (h : v.Orderly) : Starts v.innermost (v.enter gr tag).value := by
  unfold enter
  dsimp only
  rw [Plan.value_bind]
  split
  . next m hm =>
    obtain ⟨hne, hjoint, howners⟩ := Matcher.of_child? hm
    exact ⟨⟨howners, fun hnone => absurd hnone hne, hjoint⟩, rfl, h⟩
  . exact ⟨⟨by simp [Matcher.ofContent, Matcher.owners], fun _ => rfl, trivial⟩, rfl,
      h.report (by simp)⟩

theorem readAttributes_starts (attributes : List Attribute) {parent : OpenElement}
    {p : OpenElement × Validation} (h : Starts parent p) :
    Starts parent (readAttributes attributes p).value := by
  induction attributes generalizing p with
  | nil => exact h
  | cons a attributes ih =>
    obtain ⟨e, v⟩ := p
    rw [readAttributes, Plan.value_bind]
    split
    . next m hm =>
      exact ih ⟨h.fits.succeeds (Matcher.succeeds_of_read? hm) id, h.innermost, h.orderly⟩
    . exact ih (h.report (by simp) .refl)

theorem reportMissing_orderly (h : v.Orderly) :
    (reportMissing e v).run.Keeps (fun _ => True) fun v? => ∀ v' ∈ v?,
      v'.innermost = v.innermost ∧ v'.Orderly := by
  unfold reportMissing
  split
  . exact .of_value (by simpa using h)
  . have hmissing : e.matcher.state.required.run.Keeps (fun _ => True) fun a? =>
        ∀ a ∈ a?, (fun _ => True) a := .of_value (by simp)
    refine .attempt hmissing fun missing _ => .of_value ?_
    rintro _ ⟨⟩
    exact ⟨rfl, h.report (by simp)⟩

theorem endAttributes_starts {parent : OpenElement} {p : OpenElement × Validation}
    (h : Starts parent p) :
    (endAttributes p).run.Keeps (fun _ => True) fun p? => ∀ p' ∈ p?, Starts parent p' := by
  obtain ⟨e, v⟩ := p
  have hends : e.matcher.endAttributes?.Keeps (fun _ => True) fun m? =>
      ∀ m ∈ m?, e.matcher.Succeeds m := .of_value fun _ hm => Matcher.succeeds_of_endAttributes? hm
  refine .attempt hends.attempted fun m? hm? => ?_
  cases m? with
  | some m =>
    refine .of_value ?_
    rintro _ ⟨⟩
    exact ⟨h.fits.succeeds (hm? m rfl) id, h.innermost, h.orderly⟩
  | none =>
    refine .attempt (reportMissing_orderly h.orderly) fun v' hv' => ?_
    have hgrant : e.matcher.grantAttributes.Keeps (fun _ => True) e.matcher.Succeeds :=
      .of_value Matcher.succeeds_grantAttributes
    refine .attempt hgrant.attempted fun m hm => .of_value ?_
    rintro _ ⟨⟩
    exact ⟨h.fits.succeeds hm fun _ => rfl, hv'.1.trans h.innermost, hv'.2⟩

theorem startElement_orderly (h : v.Orderly) :
    (v.startElement gr tag).run.Keeps (fun _ => True) fun v? => ∀ v' ∈ v?, v'.Orderly := by
  have hflush : (v.flush false).Keeps (fun _ => True) Orderly := .of_value (flush_orderly h)
  refine .attempt hflush.attempted fun v₁ h₁ => ?_
  have henter : ((v₁.declare tag).enter gr tag).Keeps (fun _ => True)
      (Starts (v₁.declare tag).innermost) := .of_value (enter_starts (declare_orderly h₁))
  refine .attempt henter.attempted fun p hp => ?_
  have hread : (readAttributes tag.attributes p).Keeps (fun _ => True)
      (Starts (v₁.declare tag).innermost) := .of_value (readAttributes_starts _ hp)
  refine .attempt hread.attempted fun q hq => .attempt (endAttributes_starts hq) fun r hr => ?_
  refine .of_value ?_
  rintro _ ⟨⟩
  refine ⟨⟨?_, hr.orderly.nested⟩, hr.orderly.accepted⟩
  have hparent : r.2.elements.headD r.2.document = r.2.innermost := rfl
  rw [hparent, hr.innermost]
  exact hr.fits

structure Ends (e : OpenElement) (v : Validation) : Prop where
  fits : e.Fits v.innermost
  done : e.matcher.state.nullable = true ∨ e.faulty = true
  orderly : v.Orderly

theorem checkComplete_ends (hfits : e.Fits v.innermost) (h : v.Orderly) :
    Ends (v.checkComplete e).1 (v.checkComplete e).2 := by
  unfold checkComplete
  split
  . next hdone => exact ⟨hfits, by simpa using hdone, h⟩
  . exact ⟨hfits.succeeds .refl fun _ => rfl, Or.inr rfl, h.report (by simp)⟩

theorem leave_orderly (hparent : v.innermost.matcher.state.IsReduced) (h : Ends e v) :
    (v.leave gr e).value.Orderly := by
  unfold leave
  dsimp only
  rw [Plan.value_bind]
  split
  . next m hm => exact h.orderly.withInnermost (Matcher.succeeds_of_read? hm) id
  . next hnone =>
    have hfaulty := (h.fits.readChild? hparent h.done hnone).2.1
    rw [if_pos hfaulty, Plan.value_bind]
    split
    . next m hm =>
      exact h.orderly.withInnermost (Matcher.succeeds_of_read? hm) fun _ => rfl
    . rw [Plan.value_bind]
      refine h.orderly.withInnermost ?_ fun _ => rfl
      cases hm : (v.innermost.matcher.readChild? (.ofContent gr.anyContent) true).value with
      | none => exact .refl
      | some m => exact Matcher.succeeds_of_read? hm

def Ended (p : Option OpenElement × Validation) : Prop :=
  match p with
  | (none, v) => v.Orderly
  | (some e, v) => Ends e v ∧ v.innermost.matcher.state.IsReduced

theorem ended_ended (hP : Stable P) (hreduced : ∀ e, P e → e.IsReduced) (hv : v.All P)
    (h : v.Orderly) : Ended v.ended.value := by
  have hall := (flush_keeps hP hv : (v.flush true).Keeps P (All P)).value
  have horderly : (v.flush true).value.Orderly := flush_orderly h
  unfold ended
  split
  . exact h.report (by simp)
  . rw [Plan.value_bind]
    generalize (v.flush true).value = w at hall horderly
    obtain ⟨document, elements, scope, text, errors⟩ := w
    cases elements with
    | nil => exact horderly
    | cons e elements =>
      let w : Validation :=
        { document, elements, scope := scope.drop e.declared, text, errors }
      have hw : w.Orderly := ⟨horderly.nested.2, horderly.accepted⟩
      obtain ⟨he, helements⟩ := List.forall_mem_cons.1 hall.elements
      have hall := checkComplete_all he (⟨hall.document, helements⟩ : w.All P)
      exact ⟨checkComplete_ends horderly.nested.1 hw, hreduced _ hall.2.innermost.state⟩

theorem endElement_orderly (hP : Stable P) (hreduced : ∀ e, P e → e.IsReduced) (hv : v.All P)
    (h : v.Orderly) : (v.endElement gr).value.Orderly := by
  have hended := ended_ended hP hreduced hv h
  rw [endElement_eq, Plan.value_bind]
  generalize v.ended.value = p at hended
  obtain ⟨e?, w⟩ := p
  cases e? with
  | none => exact hended
  | some e => exact leave_orderly hended.2 hended.1

theorem endDocument_orderly (h : v.Orderly) : v.endDocument.value.Orderly := by
  unfold endDocument
  split
  . exact h.report (by simp)
  . rw [Plan.value_bind]
    split
    . exact flush_orderly h
    . exact (flush_orderly h).report (by simp)

/--
Whatever event comes, the open elements are nested, and no child is rejected.
-/
theorem take_orderly (event : Event) (hP : Stable P) (hreduced : ∀ e, P e → e.IsReduced)
    (hv : v.All P) (h : v.Orderly) :
    ∀ w ∈ (v.take gr event).run.value, w.Orderly := by
  cases event with
  | startElement tag => exact (startElement_orderly h).value
  | characters text =>
    rintro _ ⟨⟩
    exact h.withText
  | endElement =>
    rintro _ ⟨⟩
    exact endElement_orderly hP hreduced hv h
  | endDocument =>
    rintro _ ⟨⟩
    exact endDocument_orderly h

def followed (v : Validation) : List (List ExprId) :=
  v.elements.map (·.matcher.owners)

theorem followed_withInnermost (h : v.innermost.matcher.Succeeds e.matcher) :
    (v.withInnermost e).followed = v.followed := by
  obtain ⟨document, elements⟩ := v
  cases elements with
  | nil => rfl
  | cons child parents => exact congrArg (· :: _) h.owners

theorem followed_flush : (v.flush closing).value.followed = v.followed := by
  unfold flush
  dsimp only
  split
  . rfl
  . rw [Plan.value_bind]
    split
    . next m hm => exact followed_withInnermost (Matcher.succeeds_of_read? hm)
    . exact followed_withInnermost .refl

theorem followed_declare : (v.declare tag).followed = v.followed :=
  followed_withInnermost (v := { v with scope := v.scope.declare tag.declarations }) .refl

theorem elements_enter : (v.enter gr tag).value.2.elements = v.elements := by
  unfold enter
  dsimp only
  rw [Plan.value_bind]
  split <;> rfl

theorem elements_readAttributes (attributes : List Attribute) (p : OpenElement × Validation) :
    (readAttributes attributes p).value.2.elements = p.2.elements := by
  induction attributes generalizing p with
  | nil => rfl
  | cons a attributes ih =>
    obtain ⟨e, v⟩ := p
    rw [readAttributes, Plan.value_bind]
    split <;> exact ih _

theorem elements_of_reportMissing {w : Validation} (hw : (reportMissing e v).run.value = some w) :
    w.elements = v.elements := by
  unfold reportMissing at hw
  split at hw
  . cases hw
    rfl
  . rw [Plan.value_attempt] at hw
    obtain ⟨missing, -, hw⟩ := Option.bind_eq_some_iff.1 hw
    cases hw
    rfl

theorem elements_of_endAttributes {p q : OpenElement × Validation}
    (hq : (endAttributes p).run.value = some q) : q.2.elements = p.2.elements := by
  obtain ⟨e, v⟩ := p
  rw [endAttributes, Plan.value_attempt, Plan.value_lift, Option.bind_some] at hq
  split at hq
  . cases hq
    rfl
  . rw [Plan.value_attempt] at hq
    obtain ⟨w, hw, hq⟩ := Option.bind_eq_some_iff.1 hq
    cases hq
    exact elements_of_reportMissing hw

theorem followed_of_startElement {w : Validation} (hw : (v.startElement gr tag).run.value = some w) :
    ∃ owners, w.followed = owners :: v.followed := by
  simp only [startElement, Plan.value_attempt, Plan.value_lift, Option.bind_some] at hw
  obtain ⟨q, hq, hw⟩ := Option.bind_eq_some_iff.1 hw
  cases hw
  have helements : q.2.elements = ((v.flush false).value.declare tag).elements := by
    rw [elements_of_endAttributes hq, elements_readAttributes, elements_enter]
  refine ⟨q.1.matcher.owners, ?_⟩
  rw [followed, List.map_cons, helements]
  exact congrArg (_ :: ·) (followed_declare.trans followed_flush)

theorem followed_checkComplete : (v.checkComplete e).2.followed = v.followed := by
  unfold checkComplete
  split <;> rfl

theorem followed_leave : (v.leave gr e).value.followed = v.followed := by
  unfold leave
  dsimp only
  rw [Plan.value_bind]
  split
  . next m hm => exact followed_withInnermost (Matcher.succeeds_of_read? hm)
  . have hw : (if e.faulty then v else v.report (.childRejected e.name v.innermost.name)).followed =
        v.followed ∧ (if e.faulty then v else v.report (.childRejected e.name
          v.innermost.name)).innermost = v.innermost := by
      split <;> exact ⟨rfl, rfl⟩
    generalize (if e.faulty then v else _) = w at hw
    rw [← hw.1, ← hw.2, Plan.value_bind]
    split
    . next m hm => exact followed_withInnermost (Matcher.succeeds_of_read? hm)
    . rw [Plan.value_bind]
      refine followed_withInnermost ?_
      cases hm : (w.innermost.matcher.readChild? (.ofContent gr.anyContent) true).value with
      | none => exact .refl
      | some m => exact Matcher.succeeds_of_read? hm

theorem followed_ended : v.ended.value.2.followed = v.followed.tail := by
  unfold ended
  split
  . next hempty =>
    have hnone : v.followed = [] := List.map_eq_nil_iff.2 (List.isEmpty_iff.1 hempty)
    rw [hnone]
    exact hnone
  . have hflush : (v.flush true).value.followed = v.followed := followed_flush
    rw [Plan.value_bind, ← hflush]
    generalize (v.flush true).value = w
    obtain ⟨document, elements, scope, text, errors⟩ := w
    cases elements with
    | nil => rfl
    | cons e elements => exact followed_checkComplete

theorem followed_endElement : (v.endElement gr).value.followed = v.followed.tail := by
  rw [endElement_eq, Plan.value_bind, ← followed_ended]
  generalize v.ended.value = p
  obtain ⟨e?, w⟩ := p
  cases e? with
  | none => rfl
  | some e => exact followed_leave

theorem followed_endDocument : v.endDocument.value.followed = v.followed := by
  unfold endDocument
  split
  . rfl
  . rw [Plan.value_bind]
    split <;> exact followed_flush

end Validation

end Form

end TreeGrammar
