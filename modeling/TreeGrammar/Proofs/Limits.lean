import TreeGrammar.Proofs.Sessions
import TreeGrammar.Proofs.Uniformity

/-!
This module contains that the limit makes no difference to what the requests to a session intern.
-/

namespace TreeGrammar

open StoreState

namespace Definitions

variable {defs defs' : Definitions} {r : RefId} {target : ExprId}

theorem size_define (h : defs.define r target = .ok defs') : defs'.size = defs.size := by
  unfold define at h
  split at h
  . cases h
    simp [size]
  . split at h
    . cases h
      rfl
    . cases h

theorem define_ne_limitExceeded {limit : Nat} :
    defs.define r target ≠ .error (.limitExceeded limit) := by
  unfold define
  split
  . simp
  . split <;> simp

end Definitions

namespace Schema

variable {α : Type} {name : String} {id target : ExprId}

theorem onGraph_apply (work : Definitions → GraphM α) (s : Schema) : onGraph work s =
    (work s.definitions s.graph).map fun p => (p.1, { s with graph := p.2 }) := by
  unfold onGraph StateT.run
  cases work s.definitions s.graph <;> rfl

theorem onGraph_uniform {work : Definitions → GraphM α} (hwork : ∀ defs, IsUniform (work defs)) :
    IsUniform (onGraph work) := by
  intro s
  obtain ⟨nodes, result, h⟩ := hwork s.definitions s.graph
  refine ⟨nodes, _, h.embed (fun graph => { s with graph }) id rfl ?_ (fun _ _ _ => rfl)
    (fun _ => rfl) (fun _ _ h => h) (fun _ _ => le_rfl) ?_⟩
  . intro limit
    rw [onGraph_apply]
    change Except.map _ (work s.definitions (put s.graph limit (store s.graph))) = _
    cases work s.definitions (put s.graph limit (store s.graph)) <;> rfl
  . intro g r
    simp only [references]
    omega

theorem reference_apply (name : String) (s : Schema) : reference name s =
    (s.graph.store.intern s.graph.settings.limit (.reference ⟨s.definitions.size⟩)).map fun p =>
      (p.1, { graph := { s.graph with store := p.2 },
              definitions := (s.definitions.declare name).2 }) := by
  let declared : Schema := { s with definitions := (s.definitions.declare name).2 }
  have hrun : reference name s =
      onGraph (fun _ => Graph.intern (.reference ⟨s.definitions.size⟩)) declared := rfl
  rw [hrun, onGraph_apply, Graph.intern_apply]
  change Except.map _ (Except.map _ (s.graph.store.intern s.graph.settings.limit _)) = _
  cases s.graph.store.intern s.graph.settings.limit (.reference ⟨s.definitions.size⟩) <;> rfl

theorem reference_uniform : IsUniform (reference name) := by
  intro s
  let n : Node := .reference ⟨s.definitions.size⟩
  let declared : Schema := { s with definitions := (s.definitions.declare name).2 }
  have hsize : (s.definitions.declare name).2.size = s.definitions.size + 1 := by
    simp [Definitions.declare, Definitions.size]
  refine ⟨[n], _, .of_intern (t := declared) ?_ ?_ ?_⟩
  . intro limit
    rw [reference_apply]
    change Except.map _ (s.graph.store.intern limit n) =
      (Except.map _ (s.graph.store.intern limit n)).mapError _
    cases s.graph.store.intern limit n <;> rfl
  . change s.definitions.size ≤ (s.definitions.declare name).2.size
    omega
  . rintro ⟨i⟩
    change _ ↔ s.definitions.size ≤ i ∧ i < (s.definitions.declare name).2.size
    rw [Node.reference.injEq, RefId.mk.injEq, hsize]
    omega

theorem define_uniform : IsUniform (define id target) := by
  intro s
  by_cases hn : ∃ r, s.graph.store.node id = .reference r
  . obtain ⟨r, hn⟩ := hn
    refine ⟨[], (s.definitions.define r target).map fun definitions => ((), { s with definitions }),
      .of_quiet ?_ ?_ ?_⟩
    . intro limit
      rw [define_of_reference (s := put s limit (store s)) hn]
      change Except.map _ (s.definitions.define r target) = _
      cases s.definitions.define r target <;> rfl
    . intro limit h
      cases hdefine : s.definitions.define r target with
      | ok definitions =>
        rw [hdefine] at h
        cases h
      | error f =>
        rw [hdefine] at h
        cases h
        exact Definitions.define_ne_limitExceeded hdefine
    . intro _ t h
      cases hdefine : s.definitions.define r target with
      | ok definitions =>
        rw [hdefine] at h
        cases h
        exact Definitions.size_define hdefine
      | error f =>
        rw [hdefine] at h
        cases h
  . rw [not_exists] at hn
    refine ⟨[], .error (.notReference ((s.graph.store.node id).spellOut s.definitions.types) id),
      .of_quiet ?_ ?_ ?_⟩
    . exact fun limit => define_of_ne_reference (s := put s limit (store s)) hn
    . rintro limit ⟨⟩
    . rintro _ _ ⟨⟩

end Schema

theorem Grammar.create_uniform (start : ExprId) : IsUniform (Grammar.create start) := by
  refine .get (fun _ _ => rfl) fun s => ?_
  split
  . exact .pure _
  . refine .bind Schema.reference_uniform fun anyContent => ?_
    refine .bind (Schema.onGraph_uniform fun _ => ?_) fun content => ?_
    . refine .bind (Graph.intern_uniform (by simp)) fun anyElement => ?_
      refine .bind (Graph.intern_uniform (by simp)) fun anyAttribute => ?_
      refine .bind (Graph.choice_uniform anyAttribute anyElement) fun either => ?_
      exact .bind (Graph.zeroOrMore_uniform either) fun content => Graph.mixed_uniform content
    . exact .bind Schema.define_uniform fun _ => .pure _

namespace Session

variable {α : Type} {name : String} {id : ExprId}

theorem onSchema_uniform {work : SchemaM α} (hwork : IsUniform work) : IsUniform (onSchema work) := by
  intro s
  obtain ⟨nodes, result, h⟩ := hwork s.schema
  refine ⟨nodes, _, h.embed (fun schema => { s with schema }) .fault rfl ?_ (fun _ _ _ => rfl)
    (fun _ => rfl) (fun _ _ => Halt.fault.inj) (fun _ h => h) (fun _ _ => Iff.rfl)⟩
  intro limit
  unfold onSchema StateT.run
  cases work (put s.schema limit (store s.schema)) <;> rfl

theorem onGraph_uniform {work : Definitions → GraphM α} (hwork : ∀ defs, IsUniform (work defs)) :
    IsUniform (onGraph work) :=
  onSchema_uniform (Schema.onGraph_uniform hwork)

theorem found_uniform {a? : Option α} {otherwise : Misuse} : IsUniform (found a? otherwise) := by
  cases a? with
  | some a => exact .pure a
  | none => exact .throw (by rintro _ ⟨⟩)

theorem variableNamed_uniform : IsUniform (variableNamed name) :=
  .get (fun _ _ => rfl) fun _ => found_uniform
theorem matcherNamed_uniform : IsUniform (matcherNamed name) :=
  .get (fun _ _ => rfl) fun _ => found_uniform

theorem pickerNamed_uniform : IsUniform (pickerNamed name) :=
  .get (fun _ _ => rfl) fun _ => found_uniform

theorem validationNamed_uniform : IsUniform (validationNamed name) :=
  .get (fun _ _ => rfl) fun _ => found_uniform

theorem theGrammar_uniform : IsUniform theGrammar :=
  .get (fun _ _ => rfl) fun _ => found_uniform

theorem bind_uniform : IsUniform (bind name id) :=
  .modify (fun _ _ => rfl) fun _ => rfl

theorem putMatcher_uniform {m : Matcher} : IsUniform (putMatcher name m) :=
  .modify (fun _ _ => rfl) fun _ => rfl

theorem putPicker_uniform {results : Results} : IsUniform (putPicker name results) :=
  .modify (fun _ _ => rfl) fun _ => rfl

theorem putValidation_uniform {v : Validation} : IsUniform (putValidation name v) :=
  .modify (fun _ _ => rfl) fun _ => rfl

theorem size_uniform : IsUniform size :=
  .get (fun _ _ => rfl) fun _ => .pure _

theorem build_uniform (e : Term) : IsUniform e.build := by
  induction e with
  | «variable» name => exact variableNamed_uniform
  | epsilon | nullSet | anyString => exact .pure _
  | choice a b iha ihb =>
    exact .bind iha fun a => .bind ihb fun b => onGraph_uniform fun _ => Graph.choice_uniform a b
  | sequence a b iha ihb =>
    exact .bind iha fun a => .bind ihb fun b => onGraph_uniform fun _ => Graph.sequence_uniform a b
  | interleave a b iha ihb =>
    exact .bind iha fun a => .bind ihb fun b => onGraph_uniform fun _ => Graph.interleave_uniform a b
  | oneOrMore a ih => exact .bind ih fun a => onGraph_uniform fun _ => Graph.oneOrMore_uniform a
  | zeroOrMore a ih => exact .bind ih fun a => onGraph_uniform fun _ => Graph.zeroOrMore_uniform a
  | optional a ih => exact .bind ih fun a => onGraph_uniform fun _ => Graph.choice_uniform a .epsilon
  | mixed a ih => exact .bind ih fun a => onGraph_uniform fun _ => Graph.mixed_uniform a
  | «attribute» names content ih | element names content ih =>
    exact .bind ih fun _ => onGraph_uniform fun _ => Graph.intern_uniform (by simp)
  | typedString number =>
    exact onGraph_uniform fun _ => Graph.intern_uniform (by simp)
  | reference name => exact onSchema_uniform Schema.reference_uniform

theorem buildAll_uniform (es : List Term) : IsUniform (es.mapM Term.build) := by
  induction es with
  | nil => exact .pure _
  | cons e es ih =>
    rw [List.mapM_cons]
    exact .bind (build_uniform e) fun _ => .bind ih fun _ => .pure _

theorem buildToken_uniform (token : TokenTerm) : IsUniform token.build := by
  cases token with
  | element declarations => exact .bind (buildAll_uniform declarations) fun _ => .pure _
  | _ => exact .pure _

theorem asReference_uniform (id : ExprId) : IsUniform (asReference id) := by
  refine .get (fun _ _ => rfl) fun s => ?_
  dsimp only
  split
  . exact .pure _
  . exact .throw (by rintro _ ⟨⟩)

theorem advance_uniform {read? : Definitions → Matcher → GraphM (Option Matcher)}
    (hread : ∀ defs m, IsUniform (read? defs m)) : IsUniform (advance name read?) := by
  refine .bind matcherNamed_uniform fun m => ?_
  refine .bind (onGraph_uniform fun defs => hread defs m) fun m? => ?_
  exact .bind putMatcher_uniform fun _ => .pure _

theorem readText_uniform (name literal : String) (scope : Scope) (previous : Option Nat) :
    IsUniform (readText name literal scope previous) := by
  refine .bind matcherNamed_uniform fun m => ?_
  refine .bind (onGraph_uniform fun _ => Matcher.read?_uniform m _) fun result => ?_
  cases result with
  | none => exact .pure _
  | some => exact .bind putMatcher_uniform fun _ => .pure _

theorem enterChild_uniform (parent : String) (name : Name) (child : String) :
    IsUniform (enterChild parent name child) := by
  refine .bind matcherNamed_uniform fun m => ?_
  refine .bind (onGraph_uniform fun _ => Matcher.child?_uniform m name) fun m? => ?_
  cases m? with
  | none => exact .pure _
  | some m => exact .bind putMatcher_uniform fun _ => .pure _

theorem listSatisfied_uniform (name : String) : IsUniform (listSatisfied name) := by
  refine .bind matcherNamed_uniform fun m => ?_
  cases m with
  | single => exact .pure _
  | several state slots =>
    exact .bind (onGraph_uniform fun _ => Matcher.satisfied_uniform slots) fun _ => .pure _

theorem createGrammar_uniform (start : Term) : IsUniform (createGrammar start) := by
  refine .bind (build_uniform start) fun id => .get (fun _ _ => rfl) fun s => ?_
  dsimp only
  split
  . exact .throw (by rintro _ ⟨⟩)
  . refine .bind (onSchema_uniform (Grammar.create_uniform id)) fun result => ?_
    cases result with
    | error e => exact .throw (by rintro _ ⟨⟩)
    | ok gr =>
      refine .bind (.modify (fun _ _ => rfl) fun _ => rfl) fun _ => ?_
      exact .bind size_uniform fun _ => .pure _

theorem derive_uniform (e : Term) (token : TokenTerm) (name : Option String) :
    IsUniform (derive e token name) := by
  refine .bind (build_uniform e) fun id => .bind (buildToken_uniform token) fun token => ?_
  refine .bind (onGraph_uniform fun _ => Graph.derivative_uniform token id) fun d => ?_
  cases name with
  | none => exact .bind size_uniform fun _ => .pure _
  | some name => exact .bind bind_uniform fun _ => .bind size_uniform fun _ => .pure _

theorem pick_uniform (picker : String) (e : Term) (name : Option String) :
    IsUniform (pick picker e name) := by
  refine .bind (build_uniform e) fun id => .bind pickerNamed_uniform fun results => ?_
  refine .bind (onGraph_uniform fun _ => Graph.requiredFrom_uniform [] id results) fun found => ?_
  refine .bind putPicker_uniform fun _ => ?_
  cases name with
  | none => exact .bind size_uniform fun _ => .pure _
  | some name => exact .bind bind_uniform fun _ => .bind size_uniform fun _ => .pure _

theorem take_uniform (event : Event) : IsUniform (take name event) := by
  refine .bind theGrammar_uniform fun gr => .bind validationNamed_uniform fun earlier => ?_
  refine .bind (onGraph_uniform fun _ => Validation.take_uniform event earlier) fun v => ?_
  exact .bind putValidation_uniform fun _ => .pure _

theorem perform_uniform (c : Command) (hc : c ≠ .settings) : IsUniform (perform c) := by
  -- a request is put together from uniform parts, and only this one answers with the limit
  cases c with
  | settings => exact absurd rfl hc
  | bind name e =>
    refine .bind (build_uniform e) fun _ => .bind bind_uniform fun _ => ?_
    exact .bind size_uniform fun _ => .pure _
  | define reference target =>
    refine .bind (build_uniform reference) fun _ => .bind (build_uniform target) fun _ => ?_
    exact .bind (onSchema_uniform Schema.define_uniform) fun _ => .pure _
  | inspect e =>
    refine .bind (build_uniform e) fun id => .get (fun _ _ => rfl) fun s => ?_
    dsimp only
    split <;> exact .pure _
  | follow reference =>
    refine .bind (build_uniform reference) fun id => .bind (asReference_uniform id) fun r => ?_
    refine .bind (onGraph_uniform fun _ => ?_) fun _ => .pure _
    exact .bind (Graph.follow_uniform r) fun _ => .pure _
  | isNullable e =>
    refine .bind (build_uniform e) fun id => ?_
    exact .bind (onGraph_uniform fun _ => Graph.isNullable_uniform id) fun _ => .pure _
  | outline e | describeAttributes e =>
    exact .bind (build_uniform e) fun _ => .get (fun _ _ => rfl) fun _ => .pure _
  | size => exact .bind size_uniform fun _ => .pure _
  | lookUp e element =>
    refine .bind (build_uniform e) fun _ => .bind (build_uniform element) fun _ => ?_
    exact .bind (onGraph_uniform fun _ => .get (fun _ _ => rfl) fun _ => .pure _) fun _ => .pure _
  | remember e element derivative =>
    refine .bind (build_uniform e) fun _ => .bind (build_uniform element) fun _ => ?_
    refine .bind (build_uniform derivative) fun _ => ?_
    exact .bind (onGraph_uniform fun _ => Graph.remember_uniform) fun _ => .pure _
  | check e =>
    refine .bind (build_uniform e) fun id => .get (fun _ _ => rfl) fun s => ?_
    split <;> exact .pure _
  | classify token => exact .bind (buildToken_uniform token) fun _ => .pure _
  | derive e token name => exact derive_uniform e token name
  | createPicker => exact .bind putPicker_uniform fun _ => .pure _
  | pick picker e name => exact pick_uniform picker e name
  | describeHeads e =>
    refine .bind (build_uniform e) fun id => ?_
    exact .bind (onGraph_uniform fun _ => Graph.describeHeads_uniform id) fun _ => .pure _
  | createMatcher name content =>
    exact .bind (build_uniform content) fun _ => .bind putMatcher_uniform fun _ => .pure _
  | enterChild parent name child => exact enterChild_uniform parent name child
  | readChild parent child recovering =>
    refine .bind matcherNamed_uniform fun m => ?_
    exact advance_uniform fun _ _ => Matcher.readChild?_uniform _ m recovering
  | readText m literal scope previous => exact readText_uniform m literal scope previous
  | readAttribute m name value scope =>
    exact advance_uniform fun _ _ => .bind (Matcher.read?_uniform _ _) fun _ => .pure _
  | endAttributes m => exact advance_uniform fun _ _ => Matcher.endAttributes?_uniform _
  | grantAttributes m =>
    exact advance_uniform fun _ _ => .bind (Matcher.grantAttributes_uniform _) fun _ => .pure _
  | showMatcher m => exact .bind matcherNamed_uniform fun _ => .pure _
  | isAccepting m =>
    refine .bind matcherNamed_uniform fun m => ?_
    exact .bind (onGraph_uniform fun _ => Graph.isNullable_uniform m.state) fun _ => .pure _
  | listSatisfied name => exact listSatisfied_uniform name
  | createGrammar start => exact createGrammar_uniform start
  | createValidation name =>
    exact .bind theGrammar_uniform fun _ => .bind putValidation_uniform fun _ => .pure _
  | take name event => exact take_uniform event
  | diagnose name located => exact .bind validationNamed_uniform fun _ => .pure _

end Session

end TreeGrammar
