import TreeGrammar.Proofs.Anything
import TreeGrammar.Proofs.Documents

/-!
This module contains how a validation goes on after an element that was not expected: nothing is
reported until the element has ended, whatever there is in it.
-/

namespace TreeGrammar

/--
The events end the `n` innermost open elements, and besides them exactly the elements that they
start themselves.
-/
def Event.Closes : Nat → List Event → Prop
  | 0, [] => True
  | n + 1, .startElement _ :: events => Closes (n + 2) events
  | n + 1, .characters _ :: events => Closes (n + 1) events
  | n + 1, .endElement :: events => Closes n events
  | _, _ => False

namespace Form

structure Grammar.Recovers (gr : Grammar) (head : Head) : Prop where
  names : head.names = .any
  anyContent : Untouched head gr.anyContent
  contents : gr.contents head.content = gr.anyContent

structure OpenElement.Lenient (head : Head) (n : Nat) (e : OpenElement) : Prop where
  matcher : e.matcher = .single (anyChildren head) (if n = 0 then none else some head.id)
  faulty : n = 0 → e.faulty = true

/--
The outermost of the first `n` elements has not been expected.
-/
def Recovering (head : Head) : Nat → List OpenElement → Prop
  | 0, _ => True
  | _ + 1, [] => False
  | n + 1, e :: elements => e.Lenient head n ∧ Recovering head n elements

variable {head : Head} {gr : Grammar} {n : Nat} {e : OpenElement} {v w : Validation} {tag : StartTag}
variable {closing : Bool} {owner : Option ExprId} {token : Token} {state : Form}

namespace Matcher

theorem read?_of_derivative_eq (hstate : state ≠ .nullSet)
    (hderivative : (state.derivative token).value = state) :
    ((Matcher.single state owner).read? token).value = some (.single state owner) := by
  have hafter : (after token state state).value = state := by
    unfold after
    split
    . rw [Plan.choice, if_neg hstate, if_neg hstate, if_pos rfl]
      rfl
    . rfl
  rw [read?, Plan.value_bind, Matcher.state, hderivative, if_neg hstate, advance]
  simp only [Plan.value_bind, Plan.value_pure, hafter]

theorem read?_text_anyChildren (htext : token.isText) :
    ((Matcher.single (anyChildren head) owner).read? token).value =
      some (.single (anyChildren head) owner) :=
  read?_of_derivative_eq (by simp [anyChildren]) (derivative_text_anyChildren htext)

theorem read?_element_anyChildren (htoken : token.satisfies head.id) (htext : token.isText = false) :
    ((Matcher.single (anyChildren head) owner).read? token).value =
      some (.single (anyChildren head) owner) :=
  read?_of_derivative_eq (by simp [anyChildren]) (derivative_element_anyChildren htoken htext)

theorem child?_anyChildren (hgr : gr.Recovers head) {name : Name} :
    ((Matcher.single (anyChildren head) owner).child? gr.contents name).value =
      some (.single gr.anyContent (some head.id)) := by
  have hcandidates : candidates (anyChildren head) name = [head] := by
    have hcontains : head.names.contains name = true := by
      rw [hgr.names]
      rfl
    rw [candidates, heads_anyChildren]
    exact List.filter_cons_of_pos hcontains
  rw [child?, Matcher.state, hcandidates, ofHeads?, hgr.contents]
  rfl

theorem read?_attribute_untouched (h : Untouched head state) (name : Name) (value : String)
    (scope : Scope) : ((Matcher.single state owner).read? (.attribute name value scope)).value =
      some (.single (anything head) owner) := by
  rw [read?, Plan.value_bind, Matcher.state, h.derivative_attribute, if_neg (by simp [anything])]
  rfl

theorem endAttributes?_untouched (h : Untouched head state) :
    (Matcher.single state owner).endAttributes?.value = some (.single (anyChildren head) owner) := by
  rw [endAttributes?, Plan.value_bind, Matcher.state, h.discharge_missing,
    if_neg (by simp [anyChildren])]
  rfl

end Matcher

namespace Validation

theorem readAttributes_untouched (attributes : List Attribute) (h : Untouched head state)
    (he : e.matcher = .single state owner) : ∃ state', Untouched head state' ∧
      (readAttributes attributes (e, v)).value = ({ e with matcher := .single state' owner }, v) := by
  induction attributes generalizing e state with
  | nil =>
    refine ⟨state, h, ?_⟩
    rw [← he]
    rfl
  | cons a attributes ih =>
    obtain ⟨state', h', hread⟩ := ih (e := { e with matcher := .single (anything head) owner })
      .direct rfl
    refine ⟨state', h', ?_⟩
    rw [readAttributes, Plan.value_bind, he, Matcher.read?_attribute_untouched h]
    exact hread

theorem endAttributes_untouched (h : Untouched head state) (he : e.matcher = .single state owner) :
    (endAttributes (e, v)).run.value =
      some ({ e with matcher := .single (anyChildren head) owner }, v) := by
  rw [endAttributes, Plan.value_attempt, Plan.value_lift, he, Matcher.endAttributes?_untouched h]
  rfl

structure Quiet (head : Head) (n : Nat) (v w : Validation) : Prop where
  errors : w.errors = v.errors
  recovering : Recovering head n w.elements

theorem Quiet.trans {m : Nat} {u : Validation} (huv : Quiet head m u v) (hvw : Quiet head n v w) :
    Quiet head n u w :=
  ⟨hvw.errors.trans huv.errors, hvw.recovering⟩

theorem lenient_innermost (h : Recovering head (n + 1) v.elements) : v.innermost.Lenient head n := by
  obtain ⟨document, elements⟩ := v
  cases elements with
  | nil => exact h.elim
  | cons e elements => exact h.1

theorem quiet_withInnermost (h : Recovering head (n + 1) v.elements) (he : e.Lenient head n) :
    Quiet head (n + 1) v (v.withInnermost e) := by
  obtain ⟨document, elements⟩ := v
  cases elements with
  | nil => exact h.elim
  | cons e elements => exact ⟨rfl, he, h.2⟩

theorem flush_quiet (h : Recovering head (n + 1) v.elements) :
    Quiet head (n + 1) v (v.flush closing).value := by
  have he := lenient_innermost h
  unfold flush
  dsimp only
  split
  . exact ⟨rfl, h⟩
  . rw [Plan.value_bind, he.matcher, Matcher.read?_text_anyChildren rfl]
    have hquiet := quiet_withInnermost h (e := { v.innermost with
      matcher := .single (anyChildren head) (if n = 0 then none else some head.id)
      hasContent := true }) ⟨rfl, he.faulty⟩
    exact ⟨hquiet.errors, hquiet.recovering⟩

theorem declare_quiet (tag : StartTag) (h : Recovering head (n + 1) v.elements) :
    Quiet head (n + 1) v (v.declare tag) := by
  have he := lenient_innermost h
  have hscope : Recovering head (n + 1)
    ({ v with scope := v.scope.declare tag.declarations } : Validation).elements := h
  have hquiet := quiet_withInnermost hscope (e := { v.innermost with hasContent := true })
    ⟨he.matcher, he.faulty⟩
  exact ⟨hquiet.errors, hquiet.recovering⟩

theorem startElement_of_enter {u : Validation} (hstate : Untouched head state)
    (henter : (((v.flush false).value.declare tag).enter gr tag).value = (e, u))
    (he : e.matcher = .single state owner) :
    (v.startElement gr tag).run.value = some { u with
      elements := { e with matcher := .single (anyChildren head) owner } :: u.elements } := by
  obtain ⟨state', hstate', hread⟩ := readAttributes_untouched tag.attributes hstate he (v := u)
  rw [startElement]
  simp only [Plan.value_attempt, Plan.value_lift, Option.bind_some]
  rw [henter, hread, endAttributes_untouched hstate' rfl]
  rfl

theorem startElement_quiet (tag : StartTag) (hgr : gr.Recovers head)
    (h : Recovering head (n + 1) v.elements) :
    ∃ w, (v.startElement gr tag).run.value = some w ∧ Quiet head (n + 2) v w := by
  have hflush : Quiet head (n + 1) v (v.flush false).value := flush_quiet h
  have hdeclare := hflush.trans (declare_quiet tag hflush.recovering)
  have hmatcher := (lenient_innermost hdeclare.recovering).matcher
  refine ⟨_, startElement_of_enter hgr.anyContent (e := {
      matcher := .single gr.anyContent (some head.id)
      name := toString tag.name
      declared := tag.declarations.length }) ?_ rfl, hdeclare.errors, ⟨rfl, by simp⟩, ?_⟩
  . rw [enter, Plan.value_bind, hmatcher, Matcher.child?_anyChildren hgr]
    rfl
  . exact hdeclare.recovering

theorem ended_quiet (h : Recovering head (n + 1) v.elements) :
    ∃ e w, v.ended.value = (some e, w) ∧ e.Lenient head n ∧ Quiet head n v w := by
  have hflush : Quiet head (n + 1) v (v.flush true).value := flush_quiet h
  have hopen : v.elements.isEmpty = false := by
    cases hv : v.elements with
    | nil =>
      rw [hv] at h
      exact h.elim
    | cons => rfl
  rw [ended, hopen]
  simp only [Bool.false_eq_true, if_false, Plan.value_bind]
  generalize (v.flush true).value = u at hflush
  obtain ⟨document, elements, scope, text, errors⟩ := u
  obtain ⟨herrors, hrecovering⟩ := hflush
  cases elements with
  | nil => exact hrecovering.elim
  | cons e elements =>
    obtain ⟨he, hrest⟩ := hrecovering
    have hnullable : e.matcher.state.nullable = true := by
      rw [he.matcher]
      rfl
    refine ⟨e, { document, elements, scope := scope.drop e.declared, text, errors }, ?_, he, herrors,
      hrest⟩
    simp only [checkComplete, hnullable, Bool.true_or, if_true]
    rfl

@[simp]
theorem errors_withInnermost : (v.withInnermost e).errors = v.errors := by
  unfold withInnermost
  split <;> rfl

theorem errors_leave (he : e.faulty = true) : (v.leave gr e).value.errors = v.errors := by
  unfold leave
  dsimp only
  rw [Plan.value_bind, he, if_pos rfl]
  split
  . exact errors_withInnermost
  . rw [Plan.value_bind]
    split
    . exact errors_withInnermost
    . rw [Plan.value_bind]
      exact errors_withInnermost

theorem leave_quiet (he : e.Lenient head n) (h : Recovering head n v.elements) :
    Quiet head n v (v.leave gr e).value := by
  cases n with
  | zero => exact ⟨errors_leave (he.faulty rfl), trivial⟩
  | succ n =>
    have hparent := lenient_innermost h
    have htoken : (e.matcher.token e.faulty).satisfies head.id = true ∧
        (e.matcher.token e.faulty).isText = false := by
      rw [he.matcher]
      simp [Matcher.token, Token.satisfies, Token.isText]
    have hread : (v.innermost.matcher.readChild? e.matcher e.faulty).value =
        some v.innermost.matcher := by
      rw [hparent.matcher, Matcher.readChild?]
      exact Matcher.read?_element_anyChildren htoken.1 htoken.2
    have hleave : (v.leave gr e).value = v.withInnermost v.innermost := by
      rw [leave, Plan.value_bind, hread]
      rfl
    rw [hleave]
    exact quiet_withInnermost h hparent

theorem endElement_quiet (h : Recovering head (n + 1) v.elements) :
    Quiet head n v (v.endElement gr).value := by
  obtain ⟨e, w, hended, he, hquiet⟩ := ended_quiet h
  rw [endElement_eq, Plan.value_bind, hended]
  exact hquiet.trans (leave_quiet he hquiet.recovering)

theorem take_quiet {event : Event} {events : List Event} (hgr : gr.Recovers head)
    (h : Recovering head n v.elements) (hcloses : Event.Closes n (event :: events)) :
    ∃ m w, Event.Closes m events ∧ (v.take gr event).run.value = some w ∧ Quiet head m v w := by
  cases n with
  | zero => exact hcloses.elim
  | succ n =>
    cases event with
    | startElement tag =>
      obtain ⟨w, hw, hquiet⟩ := startElement_quiet tag hgr h
      exact ⟨n + 2, w, hcloses, hw, hquiet⟩
    | characters text => exact ⟨n + 1, _, hcloses, rfl, rfl, h⟩
    | endElement => exact ⟨n, _, hcloses, rfl, endElement_quiet h⟩
    | endDocument => exact hcloses.elim

/--
No unexpected element has been reported in between.
-/
def Follows (v w : Validation) : Prop :=
  ∃ more, w.errors = v.errors ++ more ∧ ∀ label expected, .elementNotAllowed label expected ∉ more

variable {u : Validation} {error : ValidationError} {label expected : String}

namespace Follows

theorem of_eq (h : w.errors = v.errors) : v.Follows w :=
  ⟨[], by rw [h, List.append_nil], by simp⟩

theorem trans (huv : u.Follows v) (hvw : v.Follows w) : u.Follows w := by
  obtain ⟨more, hv, hmore⟩ := huv
  obtain ⟨more', hw, hmore'⟩ := hvw
  refine ⟨more ++ more', by rw [hw, hv, List.append_assoc], ?_⟩
  intro label expected hmem
  exact (List.mem_append.1 hmem).elim (hmore label expected) (hmore' label expected)

theorem report (herror : ∀ label expected, .elementNotAllowed label expected ≠ error) :
    v.Follows (v.report error) :=
  ⟨[error], rfl, fun label expected hmem => herror label expected (List.mem_singleton.1 hmem)⟩

theorem not_mem (h : v.Follows w) :
    .elementNotAllowed label expected ∉ w.errors.drop v.errors.length := by
  obtain ⟨more, hw, hmore⟩ := h
  rw [hw, List.drop_left]
  exact hmore label expected

end Follows

theorem readAttributes_follows (attributes : List Attribute) (p : OpenElement × Validation) :
    p.2.Follows (readAttributes attributes p).value.2 := by
  induction attributes generalizing p with
  | nil => exact .of_eq rfl
  | cons a attributes ih =>
    obtain ⟨e, v⟩ := p
    rw [readAttributes, Plan.value_bind]
    split
    . exact ih _
    . exact .trans (.report (by simp)) (ih _)

theorem reportMissing_follows (hw : w ∈ (reportMissing e v).run.value) : v.Follows w := by
  unfold reportMissing at hw
  split at hw
  . cases hw
    exact .of_eq rfl
  . rw [Plan.value_attempt] at hw
    obtain ⟨missing, -, hw⟩ := Option.bind_eq_some_iff.1 hw
    cases hw
    exact .report (by simp)

theorem endAttributes_follows {p q : OpenElement × Validation}
    (hq : q ∈ (endAttributes p).run.value) : p.2.Follows q.2 := by
  obtain ⟨e, v⟩ := p
  rw [endAttributes, Plan.value_attempt, Plan.value_lift, Option.bind_some] at hq
  split at hq
  . cases hq
    exact .of_eq rfl
  . rw [Plan.value_attempt] at hq
    obtain ⟨w, hw, hq⟩ := Option.bind_eq_some_iff.1 hq
    cases hq
    exact reportMissing_follows hw

theorem errors_flush : ∃ before, (v.flush false).value.errors = v.errors ++ before ∧
    before.length ≤ 1 ∧
      ∀ error ∈ before, ∃ parent expected, error = .textNotAllowed parent expected := by
  unfold flush
  dsimp only
  split
  . exact ⟨[], by simp⟩
  . rw [Plan.value_bind]
    split
    . exact ⟨[], by simp⟩
    . refine ⟨[_], congrArg (· ++ _) errors_withInnermost, le_rfl, ?_⟩
      simp

theorem startElement_unexpected (hgr : gr.Recovers head)
    (hw : (v.startElement gr tag).run.value = some w)
    (hmem : .elementNotAllowed label expected ∈ w.errors.drop v.errors.length) :
    ∃ before, w.errors = v.errors ++ (before ++ [.elementNotAllowed label expected]) ∧
      before.length ≤ 1 ∧
      (∀ error ∈ before, ∃ parent expected, error = .textNotAllowed parent expected) ∧
      Recovering head 1 w.elements := by
  obtain ⟨before, hbefore, hlength, htext⟩ := errors_flush (v := v)
  have hdeclare : ((v.flush false).value.declare tag).errors = v.errors ++ before := by
    rw [declare, errors_withInnermost]
    exact hbefore
  have hfollows : v.Follows ((v.flush false).value.declare tag) := by
    refine ⟨before, hdeclare, fun label expected hmem => ?_⟩
    obtain ⟨parent, expected', herror⟩ := htext _ hmem
    cases herror
  generalize hu : (v.flush false).value.declare tag = u at hdeclare hfollows
  cases hchild : (u.innermost.matcher.child? gr.contents tag.name).value with
  | some m =>
    have henter : (u.enter gr tag).value.2 = u := by
      rw [enter, Plan.value_bind, hchild]
      rfl
    rw [startElement] at hw
    simp only [Plan.value_attempt, Plan.value_lift, Option.bind_some, hu] at hw
    obtain ⟨q, hq, hw⟩ := Option.bind_eq_some_iff.1 hw
    cases hw
    have hread := readAttributes_follows tag.attributes (u.enter gr tag).value
    rw [henter] at hread
    exact absurd hmem (hfollows.trans (hread.trans (endAttributes_follows hq))).not_mem
  | none =>
    let e : OpenElement := {
      matcher := .ofContent gr.anyContent
      name := toString tag.name
      declared := tag.declarations.length
      faulty := true }
    let error := ValidationError.elementNotAllowed (toString tag.name)
      u.innermost.matcher.state.describeHeads
    have henter : (((v.flush false).value.declare tag).enter gr tag).value =
        (e, u.report error) := by
      rw [hu, enter, Plan.value_bind, hchild]
      rfl
    rw [startElement_of_enter hgr.anyContent henter rfl] at hw
    cases hw
    have herrors : (u.report error).errors = v.errors ++ (before ++ [error]) := by
      rw [report, hdeclare, List.append_assoc]
    rw [herrors, List.drop_left] at hmem
    have herror : .elementNotAllowed label expected = error := by
      rcases List.mem_append.1 hmem with hmem | hmem
      . obtain ⟨parent, expected', herror⟩ := htext _ hmem
        cases herror
      . exact List.mem_singleton.1 hmem
    exact ⟨before, herror ▸ herrors, hlength, htext, ⟨rfl, fun _ => rfl⟩, trivial⟩

end Validation

end Form

namespace Session

variable {s t : Session} {name : String} {gr : Grammar} {v : Validation} {v' : Form.Validation}
variable {head : Head} {n depth : Nat} {events : List Event} {answers : List Answer}
variable {result : Except Halt Session} {tag : StartTag} {errors : List ValidationError}
variable {label expected : String}

theorem exists_recovers (hs : s.Sound) (hgr : s.grammar = some gr) :
    ∃ head, (s.grammarForm gr).Recovers head := by
  obtain ⟨r, e, hany⟩ := (hs.grammar gr hgr).anything
  refine ⟨⟨e, .any, gr.anyContent⟩, rfl, ?_, rfl⟩
  have hform : (s.grammarForm gr).anyContent = _ := hany.form_eq
  rw [hform]
  exact .reference r

theorem run_quiet (hs : s.Sound) (hgr : s.grammar = some gr)
    (hrecovers : (s.grammarForm gr).Recovers head) (hst : s.Continues t)
    (hv : t.validations[name]? = some v) (hviews : s.Views t.schema.graph.store v v')
    (h : Form.Recovering head n v'.elements) (hcloses : Event.Closes n events)
    (hrun : run (events.map (.take name)) t = (answers, result)) :
    (∀ answer ∈ answers, ∃ depth, answer = .progress [] depth) ∧
      ∀ halt, result = .error halt → ∃ limit, halt = .fault (.limitExceeded limit) := by
  induction events generalizing t v v' n answers with
  | nil =>
    cases hrun
    simp
  | cons event events ih =>
    obtain ⟨m, w, hcloses, hw, hquiet⟩ := Form.Validation.take_quiet hrecovers h hcloses
    rw [List.map_cons, run, StateT.run] at hrun
    split at hrun
    . next halt hperform =>
      cases hrun
      refine ⟨by simp, ?_⟩
      rintro _ ⟨⟩
      rcases perform_take_error hs hgr hst hv hviews hperform with ⟨hlimit, -⟩ | hnone
      . exact hlimit
      . rw [hw] at hnone
        cases hnone
    . next answer u hperform =>
      obtain ⟨w', hw', rfl, htook⟩ := perform_take_ok hs hgr hst hv hviews hperform
      rw [hw] at hw'
      cases hw'
      obtain ⟨w', hw', hviews⟩ := htook.get
      cases hrun
      obtain ⟨hanswers, hresult⟩ := ih htook.continues hw' hviews hquiet.recovering hcloses rfl
      refine ⟨?_, hresult⟩
      rw [List.forall_mem_cons]
      exact ⟨⟨_, by rw [hquiet.errors, List.drop_length]⟩, hanswers⟩

/--
An element that has not been expected costs exactly one mistake: nothing else is reported of its
tag, and whatever events come until it ends, nothing is reported of them. Besides, the text before
the tag can be reported.
-/
theorem unexpected_subtree (hs : s.Reachable)
    (hstart : perform (.take name (.startElement tag)) s = .ok (.progress errors depth, t))
    (hunexpected : .elementNotAllowed label expected ∈ errors) :
    (∃ before, errors = before ++ [.elementNotAllowed label expected] ∧ before.length ≤ 1 ∧
      ∀ error ∈ before, ∃ parent expected, error = .textNotAllowed parent expected) ∧
    ∀ events answers result, Event.Closes 1 events →
      run (events.map (.take name)) t = (answers, result) →
        (∀ answer ∈ answers, ∃ depth, answer = .progress [] depth) ∧
        ∀ halt, result = .error halt → ∃ limit, halt = .fault (.limitExceeded limit) := by
  have hsound := hs.sound
  obtain ⟨gr, v, hgr, hv⟩ := exists_of_perform_take hstart
  obtain ⟨head, hrecovers⟩ := exists_recovers hsound hgr
  obtain ⟨w, hw, hanswer, htook⟩ :=
    perform_take_ok hsound hgr (.refl hsound) hv (views_form hsound hv) hstart
  cases hanswer
  obtain ⟨before, herrors, hlength, htext, hrecovering⟩ :=
    Form.Validation.startElement_unexpected hrecovers hw hunexpected
  refine ⟨⟨before, ?_, hlength, htext⟩, ?_⟩
  . rw [herrors, List.drop_left]
  . intro events answers result hcloses hrun
    obtain ⟨v', hv', hviews⟩ := htook.get
    exact run_quiet hsound hgr hrecovers htook.continues hv' hviews hrecovering hcloses hrun

/--
The unexpected element has attributes, text and another element in it.
-/
theorem unexpected_subtree_nested :
    let tag (label : String) : StartTag := ⟨⟨"", label⟩, [⟨⟨"", "at"⟩, "value"⟩], []⟩
    let events : List Event :=
      [.characters "text", .startElement (tag "y"), .endElement, .characters "text", .endElement]
    ∃ (s t : Session) (errors : List ValidationError) (depth : Nat) (label expected : String),
      s.Reachable ∧
      perform (.take "w" (.startElement (tag "x"))) s = .ok (.progress errors depth, t) ∧
      .elementNotAllowed label expected ∈ errors ∧ Event.Closes 1 events ∧
      (∃ before, errors = before ++ [.elementNotAllowed label expected] ∧ before.length ≤ 1 ∧
        ∀ error ∈ before, ∃ parent expected, error = .textNotAllowed parent expected) ∧
      ∀ answer ∈ (run (events.map (.take "w")) t).1, ∃ depth, answer = .progress [] depth := by
  intro tag events
  let element (label : String) : Term → Term := .element (.only ⟨"", label⟩)
  obtain ⟨s, hs, hp⟩ := Reachable.of_leadsTo (fun _ => .string)
    [.createGrammar (element "a" (element "b" .epsilon)), .createValidation "w",
      .take "w" (.startElement { name := ⟨"", "a"⟩ })]
    (fun s => yields (.take "w" (.startElement (tag "x"))) s fun answer t =>
      answer = .progress [.elementNotAllowed "x" "Element b"] 2 &&
        (run (events.map (.take "w")) t).2.isOk)
    (by simp [Command.isLawful]) (by decide +kernel)
  simp only [yields_iff, Bool.and_eq_true, decide_eq_true_eq] at hp
  obtain ⟨_, t, hstart, rfl, -⟩ := hp
  have hunexpected : ValidationError.elementNotAllowed "x" "Element b" ∈
      [ValidationError.elementNotAllowed "x" "Element b"] := List.mem_singleton_self _
  have hcloses : Event.Closes 1 events := trivial
  obtain ⟨herrors, hevents⟩ := unexpected_subtree hs hstart hunexpected
  exact ⟨s, t, _, 2, "x", "Element b", hs, hstart, hunexpected, hcloses, herrors,
    (hevents events _ _ hcloses rfl).1⟩

end Session

end TreeGrammar
