import Mathlib.Algebra.Order.BigOperators.Group.List
import TreeGrammar.Proofs.Validity
import TreeGrammar.Proofs.Verdicts

/-!
This module contains the namespace declarations that are in force in a validation: those of the open
elements and no others, whatever has been reported. The datatypes judge every text and every value of
an attribute by the declarations of the elements around it.
-/

namespace TreeGrammar

/--
The events end exactly the elements that they start.
-/
inductive Event.Balanced : List Event → Prop where
  | nil : Balanced []
  | characters (text : String) : Balanced [.characters text]
  | endDocument : Balanced [.endDocument]
  | element (tag : StartTag) {events : List Event} :
    Balanced events → Balanced (.startElement tag :: (events ++ [.endElement]))
  | append {before after : List Event} : Balanced before → Balanced after → Balanced (before ++ after)

/--
What the events up to a place of a document say of it.
-/
structure Surroundings where
  /--
  What each open element declares, the innermost first.
  -/
  declarations : List (List Declaration) := []
  text : String := ""

namespace Surroundings

/--
An end tag that ends no element is passed over, and so is the end of the document while elements are
open.
-/
def after : Surroundings → Event → Surroundings
  | c, .startElement tag => ⟨tag.declarations :: c.declarations, ""⟩
  | c, .characters text => { c with text := c.text ++ text }
  | ⟨_ :: declarations, _⟩, .endElement => ⟨declarations, ""⟩
  | ⟨[], text⟩, .endElement => ⟨[], text⟩
  | ⟨[], _⟩, .endDocument => ⟨[], ""⟩
  | ⟨own :: outer, text⟩, .endDocument => ⟨own :: outer, text⟩

def ofEvents (events : List Event) : Surroundings :=
  events.foldl after {}

def stack (c : Surroundings) : List Declaration :=
  c.declarations.reverse.flatten

def scope (c : Surroundings) : Scope :=
  c.stack.reverse

/--
The innermost element that declares the short name declares it last for the URI.
-/
def Declares (c : Surroundings) (short uri : String) : Prop :=
  ∃ inner before after outer,
    c.declarations = inner ++ (before ++ ⟨short, uri⟩ :: after) :: outer ∧
    (∀ own ∈ inner, ∀ d ∈ own, d.short ≠ short) ∧ ∀ d ∈ after, d.short ≠ short

/--
The text that has not been read, with the declarations of the elements around it. An empty text
counts only if it is `needed`.
-/
def letters (c : Surroundings) (needed : Bool) : List Letter :=
  if c.text.isEmpty && !needed then [] else [.text c.text c.scope]

variable {c : Surroundings}

theorem declarations_foldl_of_balanced {events : List Event} (h : Event.Balanced events) :
    (events.foldl after c).declarations = c.declarations := by
  induction h generalizing c with
  | nil => rfl
  | characters => rfl
  | endDocument =>
    cases c with
    | mk declarations text => cases declarations <;> rfl
  | element tag _ ih =>
    rw [List.foldl_cons, List.foldl_append]
    generalize hd : List.foldl after (c.after (.startElement tag)) _ = d at ih ⊢
    have hdeclarations : d.declarations = tag.declarations :: c.declarations := by
      rw [← hd, ih]
      rfl
    cases d with
    | mk declarations text =>
      dsimp only at hdeclarations
      rw [hdeclarations]
      rfl
  | append _ _ ihbefore ihafter => rw [List.foldl_append, ihafter, ihbefore]

theorem scope_cons {own : List Declaration} {outer : List (List Declaration)} {text : String} :
    scope ⟨own :: outer, text⟩ = (scope ⟨outer, text⟩).declare own := by
  simp [scope, stack, Scope.declare]

theorem resolve?_scope {short uri : String} :
    c.scope.resolve? short = some uri ↔ c.Declares short uri := by
  have hlatest : c.scope = (c.declarations.map List.reverse).flatten := by
    rw [scope, stack, List.reverse_flatten, List.map_reverse, List.reverse_reverse]
  rw [hlatest, Scope.resolve?, Option.map_eq_some_iff]
  simp only [List.find?_flatten_eq_some_iff]
  constructor
  . rintro ⟨⟨_, _⟩, ⟨hshort, inner, after, before, outer, heq, hinner, hafter⟩, rfl⟩
    refine ⟨inner.map List.reverse, before.reverse, after.reverse, outer.map List.reverse, ?_, ?_, ?_⟩
    . have hreversed := congrArg (List.map List.reverse) heq
      simp at hshort
      simpa [Function.comp_def, hshort] using hreversed
    . rw [List.forall_mem_map]
      simpa using hinner
    . simpa using hafter
  . rintro ⟨inner, before, after, outer, heq, hinner, hafter⟩
    refine ⟨⟨short, uri⟩, ⟨by simp, inner.map List.reverse, after.reverse, before.reverse,
      outer.map List.reverse, ?_, ?_, ?_⟩, rfl⟩
    . simp [heq]
    . rw [List.forall_mem_map]
      simpa using hinner
    . simpa using hafter

end Surroundings

namespace Validation

open TreeGrammar.Graph (Ends)

structure Bears (scope : Scope) (counts : List Nat) (text : String) (v : Validation) : Prop where
  scope : v.scope = scope
  counts : v.elements.map (·.declared) = counts
  text : v.text = text

variable {gr : Grammar} {defs : Definitions} {v w : Validation} {e : OpenElement} {tag : StartTag}
variable {scope : Scope} {counts : List Nat} {text : String} {n : Nat} {closing : Bool}
variable {c : Surroundings} {event : Event} {events : List Event}

namespace Bears

theorem report {error : ValidationError} (h : v.Bears scope counts text) :
    (v.report error).Bears scope counts text :=
  ⟨h.scope, h.counts, h.text⟩

theorem withInnermost (h : v.Bears scope counts text) (he : e.declared = v.innermost.declared) :
    (v.withInnermost e).Bears scope counts text := by
  refine ⟨scope_withInnermost.trans h.scope, ?_, text_withInnermost.trans h.text⟩
  rw [← h.counts]
  unfold Validation.withInnermost
  unfold innermost at he
  cases helements : v.elements with
  | nil => rfl
  | cons parent elements =>
    rw [helements] at he
    simpa using he

theorem read {errors : List ValidationError} (h : v.Bears scope counts text)
    (he : e.declared = v.innermost.declared) :
    ({ v.withInnermost e with text := "", errors } : Validation).Bears scope counts "" :=
  ⟨(h.withInnermost he).scope, (h.withInnermost he).counts, rfl⟩

end Bears

theorem flush_bears (h : v.Bears scope counts text) :
    Ends (v.flush defs closing) (Bears scope counts "") := by
  unfold flush
  dsimp only
  split
  . next hskip =>
    apply Ends.pure
    have htext : v.text = "" := by
      simp at hskip
      exact hskip.1
    exact ⟨h.scope, h.counts, htext⟩
  . apply Ends.trivial.bind
    intro r _
    cases r with
    | some p =>
      apply Ends.pure
      apply h.read
      rfl
    | none =>
      apply Ends.trivial.bind
      intro expected _
      apply Ends.pure
      apply h.read
      rfl

theorem enter_bears (h : v.Bears scope counts text) :
    Ends (v.enter gr defs tag) fun p =>
      p.1.declared = tag.declarations.length ∧ p.2.Bears scope counts text := by
  unfold enter
  apply Ends.trivial.bind
  intro r _
  cases r with
  | some matcher => exact .pure ⟨rfl, h⟩
  | none =>
    apply Ends.trivial.bind
    intro expected _
    exact .pure ⟨rfl, h.report⟩

theorem readAttributes_bears (attributes : List Attribute) (p : OpenElement × Validation)
    (hdeclared : p.1.declared = n) (h : p.2.Bears scope counts text) :
    Ends (readAttributes defs attributes p) fun q =>
      q.1.declared = n ∧ q.2.Bears scope counts text := by
  induction attributes generalizing p with
  | nil => exact .pure ⟨hdeclared, h⟩
  | cons a attributes ih =>
    rw [readAttributes]
    apply Ends.trivial.bind
    intro r _
    cases r with
    | some matcher => exact ih _ hdeclared h
    | none => exact ih _ hdeclared h.report

theorem endAttributes_bears {p : OpenElement × Validation} (hdeclared : p.1.declared = n)
    (h : p.2.Bears scope counts text) :
    Ends (endAttributes defs p) fun q => q.1.declared = n ∧ q.2.Bears scope counts text := by
  cases p with
  | mk e v =>
    rw [endAttributes]
    apply Ends.trivial.bind
    intro r _
    cases r with
    | some matcher => exact .pure ⟨hdeclared, h⟩
    | none =>
      have hgrant : ∀ w : Validation, w.Bears scope counts text →
          Ends (do
            let matcher ← e.matcher.grantAttributes defs
            return ({ e with matcher, faulty := true }, w))
            fun q => q.1.declared = n ∧ q.2.Bears scope counts text := by
        intro w hw
        apply Ends.trivial.bind
        intro matcher _
        exact .pure ⟨hdeclared, hw⟩
      dsimp only
      split
      . rw [pure_bind]
        exact hgrant v h
      . apply Ends.trivial.bind
        intro missing _
        apply Ends.trivial.bind
        intro g _
        rw [pure_bind]
        exact hgrant _ h.report

theorem startElement_bears (h : v.Bears scope counts text) :
    Ends (v.startElement gr defs tag)
      (Bears (scope.declare tag.declarations) (tag.declarations.length :: counts) "") := by
  rw [startElement_eq]
  unfold openTag
  rw [bind_assoc]
  apply (flush_bears h).bind
  intro u hu
  have htag : (u.atTag tag).Bears (scope.declare tag.declarations) counts "" := by
    have hdeclare : ({ u with scope := u.scope.declare tag.declarations } : Validation).Bears
        (scope.declare tag.declarations) counts "" := by
      refine ⟨?_, hu.counts, hu.text⟩
      rw [← hu.scope]
    exact hdeclare.withInnermost rfl
  rw [bind_assoc]
  apply (enter_bears htag).bind
  intro p hp
  apply (readAttributes_bears tag.attributes p hp.1 hp.2).bind
  intro q hq
  apply (endAttributes_bears hq.1 hq.2).bind
  intro r hr
  apply Ends.pure
  refine ⟨hr.2.scope, ?_, hr.2.text⟩
  rw [push, List.map_cons, hr.1, hr.2.counts]

theorem checkComplete_bears (h : v.Bears scope counts text) :
    Ends (v.checkComplete defs e) fun q => q.2.Bears scope counts text := by
  unfold checkComplete
  apply Ends.trivial.bind
  intro accepting _
  split
  . exact .pure h
  . apply Ends.trivial.bind
    intro expected _
    exact .pure h.report

theorem leave_bears (h : v.Bears scope counts text) :
    Ends (v.leave gr defs e) (Bears scope counts text) := by
  unfold leave
  apply Ends.trivial.bind
  intro r _
  cases r with
  | some matcher => exact .pure (h.withInnermost rfl)
  | none =>
    dsimp only
    generalize hw : (if e.faulty = true then v else
      v.report (.childRejected e.name v.innermost.name)) = w
    have hbears : w.Bears scope counts text := by
      rw [← hw]
      split
      . exact h
      . exact h.report
    have hinnermost : w.innermost = v.innermost := by
      rw [← hw]
      split <;> rfl
    apply Ends.trivial.bind
    intro r _
    cases r with
    | some matcher => exact .pure (hbears.withInnermost (by rw [hinnermost]))
    | none =>
      apply Ends.trivial.bind
      intro r _
      exact .pure (hbears.withInnermost (by rw [hinnermost]))

def IsAt (c : Surroundings) (v : Validation) : Prop :=
  v.Bears c.scope (c.declarations.map List.length) c.text

theorem IsAt.isEmpty_iff (h : v.IsAt c) : v.elements.isEmpty = c.declarations.isEmpty := by
  have hlength := congrArg List.length h.counts
  rw [List.length_map, List.length_map] at hlength
  rw [Bool.eq_iff_iff, List.isEmpty_iff_length_eq_zero, List.isEmpty_iff_length_eq_zero, hlength]

theorem Bears.pop {elements : List OpenElement}
    (h : v.Bears c.scope (c.declarations.map List.length) "") (helements : v.elements = e :: elements) :
    ({ v with elements, scope := v.scope.drop e.declared } : Validation).IsAt
      (c.after .endElement) := by
  have hcounts := h.counts
  rw [helements, List.map_cons] at hcounts
  cases c with
  | mk declarations text =>
    cases declarations with
    | nil => contradiction
    | cons own outer =>
      rw [List.map_cons, List.cons.injEq] at hcounts
      refine ⟨?_, hcounts.2, h.text⟩
      dsimp only
      rw [h.scope, hcounts.1, Surroundings.scope_cons, Scope.declare, ← List.length_reverse,
        List.drop_left]
      rfl

theorem endElement_isAt (h : v.IsAt c) :
    Ends (v.endElement gr defs) (IsAt (c.after .endElement)) := by
  unfold endElement
  rw [h.isEmpty_iff]
  cases hdeclarations : c.declarations with
  | nil =>
    have hafter : c.after .endElement = c := by
      cases c
      cases hdeclarations
      rfl
    rw [hafter]
    exact .pure h.report
  | cons own outer =>
    apply (flush_bears h).bind
    intro u hu
    cases helements : u.elements with
    | nil =>
      have hcounts := hu.counts
      rw [helements, hdeclarations] at hcounts
      contradiction
    | cons e elements =>
      apply (checkComplete_bears (hu.pop helements)).bind
      intro p hp
      exact leave_bears hp

theorem endDocument_isAt (h : v.IsAt c) :
    Ends (v.endDocument defs) (IsAt (c.after .endDocument)) := by
  unfold endDocument
  rw [h.isEmpty_iff]
  cases hdeclarations : c.declarations with
  | cons own outer =>
    have hafter : c.after .endDocument = c := by
      cases c
      cases hdeclarations
      rfl
    rw [hafter]
    exact .pure h.report
  | nil =>
    have hafter : c.after .endDocument = ⟨c.declarations, ""⟩ := by
      cases c
      cases hdeclarations
      rfl
    rw [hafter]
    apply (flush_bears h).bind
    intro u hu
    apply Ends.trivial.bind
    intro accepting _
    split
    . exact .pure hu
    . apply Ends.trivial.bind
      intro expected _
      exact .pure hu.report

theorem take_isAt (h : v.IsAt c) : Ends (v.take gr defs event) (IsAt (c.after event)) := by
  cases event with
  | startElement tag =>
    rw [take]
    unfold IsAt Surroundings.after
    rw [Surroundings.scope_cons]
    exact startElement_bears h
  | characters text =>
    apply Ends.pure
    exact ⟨h.scope, h.counts, by rw [characters, h.text]; rfl⟩
  | endElement => exact endElement_isAt h
  | endDocument => exact endDocument_isAt h

/--
The validation has taken the events from its beginning, whatever the graph and the definitions have
been at each of them.
-/
inductive Reached (gr : Grammar) : List Event → Validation → Prop where
  | create : Reached gr [] (create gr)
  | take {events : List Event} {event : Event} {v w : Validation} {defs : Definitions} {g h : Graph} :
    Reached gr events v → v.take gr defs event g = .ok (w, h) → Reached gr (events ++ [event]) w

theorem Reached.isAt (h : Reached gr events v) : v.IsAt (.ofEvents events) := by
  induction h with
  | create => exact ⟨rfl, rfl, rfl⟩
  | take _ htake ih =>
    unfold Surroundings.ofEvents
    rw [List.foldl_concat]
    exact (take_isAt ih).of_run _ _ _ htake

/--
The verdict on an event at a place: `v` becomes `w`, and what can come next decides by the declarations
around it. For text these are the declarations in force before the event, and for attributes those in
force after it. An end tag or an end of the document that is not read in order leaves the text alone.
-/
def Judges (s : Store) (defs : Definitions) (gr : Grammar) (c : Surroundings) (v w : Validation) :
    Event → Prop
  | .startElement tag => ∃ e parent start rest refused rejected,
    w.elements.head? = some e ∧ w.outer.head? = some parent ∧
    JudgesText s defs (c.letters false) v w refused parent.matcher.state ∧
    JudgesAttributes s defs gr tag (c.after (.startElement tag)).scope v w e start rest rejected
  | .characters _ => w.errors = v.errors
  | .endElement =>
    if c.declarations.isEmpty then w.errors = v.errors ++ [.unexpectedEndTag]
    else ∃ rest refused,
      JudgesText s defs (c.letters !v.innermost.hasContent) v w refused rest ∧
      ((w.errorsSince v).filter (·.isIncompleteContent) = [] ↔
        v.innermost.faulty = true ∨ refused ≠ [] ∨ [] ∈ s.language defs rest)
  | .endDocument =>
    if c.declarations.isEmpty then ∃ rest refused,
      JudgesText s defs (c.letters false) v w refused rest ∧
      ((w.errorsSince v).filter (·.isIncompleteContent) = [] ↔ [] ∈ s.language defs rest)
    else w.errors = v.errors ++ [.unclosedElements v.depth]

theorem IsAt.unread_eq (h : v.IsAt c) :
    v.unread closing = c.letters (closing && !v.innermost.hasContent) := by
  rw [unread, Surroundings.letters, h.text, h.scope]

theorem take_judges {g : Graph} (hg : g.Sound defs) (hv : v.IsVetted g.store defs)
    (hany : Vetted g.store defs gr.anyContent) (h : v.IsAt c) :
    Graph.Returns defs g (v.take gr defs event) (fun _ => True) fun w k =>
      Judges k.store defs gr c v w event := by
  cases event with
  | startElement tag =>
    have hjudges := startElement_judges tag hg hv hany
    have hscope : v.scope.declare tag.declarations = (c.after (.startElement tag)).scope := by
      rw [h.scope]
      exact Surroundings.scope_cons.symm
    rw [h.unread_eq, hscope] at hjudges
    exact hjudges
  | characters text => exact .pure hg rfl
  | endElement =>
    simp only [Judges, ← h.isEmpty_iff]
    by_cases hempty : v.elements.isEmpty
    . simp only [if_pos hempty, take, endElement]
      exact .pure hg rfl
    . simp only [if_neg hempty]
      have hjudges := endElement_judges hg hv hany (by simpa using hempty)
      rw [h.unread_eq] at hjudges
      exact hjudges
  | endDocument =>
    simp only [Judges, ← h.isEmpty_iff]
    by_cases hempty : v.elements.isEmpty
    . simp only [if_pos hempty]
      have hjudges := endDocument_judges hg hv (by simpa using hempty)
      rw [h.unread_eq] at hjudges
      exact hjudges
    . simp only [take, endDocument, hempty]
      exact .pure hg rfl

end Validation

/--
Whatever a session has a validation take, the validation has been reached by.
-/
theorem Session.Takes.reached {name : String} {gr : Grammar} {v : Validation} {s t : Session}
    {before events : List Event} (h : Takes name s events t) (hs : Stands name gr v s)
    (hv : Validation.Reached gr before v) :
    ∃ w, Stands name gr w t ∧ Validation.Reached gr (before ++ events) w := by
  induction h generalizing before v with
  | nil => exact ⟨v, hs, by rwa [List.append_nil]⟩
  | aside hc hname hperform _ ih => exact ih (hs.aside hc hname hperform).2 hv
  | take hperform _ ih =>
    obtain ⟨u, htake, -, ht⟩ := hs.take hperform
    obtain ⟨w, hw, hreached⟩ := ih ht (hv.take htake)
    rw [List.append_cons]
    exact ⟨w, hw, hreached⟩

namespace Validation

open TreeGrammar.Session

variable {gr : Grammar} {v : Validation} {e : OpenElement} {events : List Event} {c : Surroundings}

/--
The declarations of a validation that has taken the events.
-/
structure WellScoped (gr : Grammar) (events : List Event) (v : Validation) : Prop where
  /--
  In force is what the open elements declare, the outermost first.
  -/
  stack : v.scope.reverse = (Surroundings.ofEvents events).stack
  /--
  Each open element knows how many of them are its own.
  -/
  counts : v.elements.map (·.declared) = (Surroundings.ofEvents events).declarations.map List.length
  /--
  Never are more of them taken away than there are.
  -/
  enough : ∀ e ∈ v.elements, e.declared ≤ v.scope.length
  /--
  An element leaves them as they have been before it.
  -/
  restored : ∀ tag inside w, Event.Balanced inside →
    Reached gr (events ++ .startElement tag :: (inside ++ [.endElement])) w → w.scope = v.scope
  /--
  A short name stands for what the innermost element that declares it has declared last for it.
  -/
  resolves : ∀ short uri,
    v.scope.resolve? short = some uri ↔ (Surroundings.ofEvents events).Declares short uri
  /--
  The datatypes judge texts and attributes by the declarations of the elements around them.
  -/
  judges : ∀ name s event answer t w, Stands name gr v s →
    perform (.take name event) s = .ok (answer, t) → t.validations[name]? = some w →
    Judges t.schema.graph.store t.schema.definitions gr (.ofEvents events) v w event

theorem IsAt.declared_le (h : v.IsAt c) (he : e ∈ v.elements) : e.declared ≤ v.scope.length := by
  have hmem : e.declared ∈ c.declarations.map List.length := by
    rw [← h.counts]
    exact List.mem_map_of_mem he
  rw [h.scope, Surroundings.scope, Surroundings.stack, List.length_reverse, List.length_flatten,
    List.map_reverse, List.sum_reverse]
  exact List.le_sum_of_mem hmem

/--
Whatever events there have been, the declarations in force are those of the open elements.
-/
theorem wellScoped (h : Reached gr events v) : WellScoped gr events v where
  stack := by
    rw [h.isAt.scope, Surroundings.scope, List.reverse_reverse]
  counts := h.isAt.counts
  enough e he := h.isAt.declared_le he
  restored := by
    intro tag inside w hinside hw
    rw [hw.isAt.scope, h.isAt.scope, Surroundings.scope, Surroundings.scope, Surroundings.stack,
      Surroundings.stack]
    unfold Surroundings.ofEvents
    rw [List.foldl_append,
      Surroundings.declarations_foldl_of_balanced (Event.Balanced.element tag hinside)]
  resolves := by
    intro short uri
    rw [h.isAt.scope]
    exact Surroundings.resolve?_scope
  judges := by
    intro name s event answer t w hs hperform hw
    obtain ⟨u, htake, hdefs, ht⟩ := hs.take hperform
    obtain rfl : u = w := Option.some.inj (ht.validation.symm.trans hw)
    rw [hdefs]
    have hsound := hs.reachable.sound.graph
    exact ((take_judges hsound hs.vetted hs.anyContent h.isAt).ok _ _ htake).2.2

/--
A text and two values of attributes are the same short name, which is declared by both of the elements
around them. The text comes before the inner tag and belongs to the outer element. Of the attributes
one demands what the inner element declares, and the other what the outer element declares.
-/
theorem wellScoped_nested :
    let before : List Event := [.endElement,
      .startElement ⟨⟨"", "a"⟩, [], [⟨"x", "urn:first"⟩, ⟨"x", "urn:outer"⟩]⟩, .characters "x"]
    let tag : StartTag :=
      ⟨⟨"", "b"⟩, [⟨⟨"", "own"⟩, "x"⟩, ⟨⟨"", "around"⟩, "x"⟩], [⟨"x", "urn:inner"⟩]⟩
    ∃ s t u gr v w, Stands "w" gr v s ∧ Reached gr before v ∧ WellScoped gr before v ∧
      perform (.take "w" (.startElement tag)) s =
        .ok (.progress [.attributeNotAllowed "b" "around"] 2, t) ∧
      t.validations["w"]? = some w ∧
      Judges t.schema.graph.store t.schema.definitions gr (.ofEvents before) v w
        (.startElement tag) ∧
      v.scope.resolve? "x" = some "urn:outer" ∧ w.scope.resolve? "x" = some "urn:inner" ∧
      (s.schema.definitions.types 0).accepts v.scope "x" = true ∧
      (t.schema.definitions.types 0).accepts w.scope "x" = false ∧
      (t.schema.definitions.types 1).accepts w.scope "x" = true ∧
      Reached gr (before ++ [.startElement tag, .endElement]) u ∧ u.scope = v.scope := by
  intro before tag
  let uri (number : Nat) : String := if number = 0 then "urn:outer" else "urn:inner"
  obtain ⟨q, hq, hp⟩ := Reachable.of_leadsTo
    (fun number => ⟨"", "", fun resolve? literal => resolve? literal = some (uri number)⟩)
    [.createGrammar (.element (.only ⟨"", "a"⟩) (.sequence (.typedString 0)
      (.element (.only ⟨"", "b"⟩) (.sequence (.attribute (.only ⟨"", "own"⟩) (.typedString 1))
        (.attribute (.only ⟨"", "around"⟩) (.typedString 0))))))]
    (fun q => q.grammar.isSome && yields (.createValidation "w") q fun _ r =>
      (run (before.map (.take "w")) r).2.toOption.any fun s =>
        s.validations["w"]?.any (fun v => (s.schema.definitions.types 0).accepts v.scope "x") &&
        yields (.take "w" (.startElement tag)) s fun answer t =>
          answer = .progress [.attributeNotAllowed "b" "around"] 2 &&
          t.validations["w"]?.any (fun w =>
            (t.schema.definitions.types 0).accepts w.scope "x" = false &&
            (t.schema.definitions.types 1).accepts w.scope "x") &&
          yields (.take "w" .endElement) t fun _ _ => true)
    (by simp [Command.isLawful]) (by decide +kernel)
  simp only [Bool.and_eq_true, Option.isSome_iff_exists, yields_iff] at hp
  obtain ⟨⟨gr, hgr⟩, answer, r, hcreate, hp⟩ := hp
  obtain ⟨s, hrun, hp⟩ := exists_of_any_toOption hp
  have hr : Stands "w" gr (create gr) r := by
    have hreachable := hq.perform (c := .createValidation "w") rfl hcreate
    rw [perform_createValidation hgr] at hcreate
    cases hcreate
    exact ⟨hreachable, hgr, Std.TreeMap.getElem?_insert_self⟩
  simp only [yields_iff, Bool.and_eq_true, decide_eq_true_eq] at hp
  obtain ⟨htext, _, t, htag, ⟨rfl, hvalues⟩, _, t', hend, -⟩ := hp
  obtain ⟨v, hs, hv⟩ := (Takes.of_run (Prod.ext rfl hrun)).reached hr .create
  have htakes : Takes "w" s [.startElement tag] t := .take htag .nil
  obtain ⟨w, ht, hw⟩ := htakes.reached hs hv
  obtain ⟨u, -, hu⟩ := (Takes.take htag (.take hend .nil)).reached hs hv
  have hscoped := wellScoped hv
  rw [hs.validation, Option.any_some] at htext
  rw [ht.validation, Option.any_some, Bool.and_eq_true, decide_eq_true_eq] at hvalues
  refine ⟨s, t, u, gr, v, w, hs, hv, hscoped, htag, ht.validation,
    hscoped.judges "w" s _ _ t w hs htag ht.validation, ?_, ?_, htext, hvalues.1, hvalues.2, hu, ?_⟩
  . rw [hscoped.resolves]
    exact ⟨[], [⟨"x", "urn:first"⟩], [], [], rfl, by simp, by simp⟩
  . rw [(wellScoped hw).resolves]
    exact ⟨[], [], [], _, rfl, by simp, by simp⟩
  . exact hscoped.restored tag [] u .nil hu

end Validation

end TreeGrammar
