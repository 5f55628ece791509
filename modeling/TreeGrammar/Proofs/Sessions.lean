import TreeGrammar.Proofs.Anything
import TreeGrammar.Proofs.Validating
import TreeGrammar.Session.Run

/-!
This module contains what is asked of all work on a session: that its schema only grows, that all it
speaks of is in the schema, and that the work does not depend on the derivatives that are remembered.
-/

namespace TreeGrammar

instance : Preorder Schema where
  le a b := a.definitions ≤ b.definitions ∧ a.graph ≤ b.graph
  le_refl _ := ⟨le_rfl, le_rfl⟩
  le_trans _ _ _ hab hbc := ⟨le_trans hab.1 hbc.1, le_trans hab.2 hbc.2⟩

namespace Schema

variable {s : Schema} {r : RefId} {id target : ExprId}

theorem define_of_reference (hn : s.graph.store.node id = .reference r) : define id target s =
    (s.definitions.define r target).map fun definitions => ((), { s with definitions }) := by
  have hrun (next : Schema → SchemaM Unit) : (get >>= next) s = next s s := rfl
  rw [define, hrun, hn]
  dsimp only
  cases s.definitions.define r target <;> rfl

theorem define_of_ne_reference (hn : ∀ r, s.graph.store.node id ≠ .reference r) :
    define id target s =
      .error (.notReference ((s.graph.store.node id).spellOut s.definitions.types) id) := by
  have hrun (next : Schema → SchemaM Unit) : (get >>= next) s = next s s := rfl
  rw [define, hrun]
  generalize s.graph.store.node id = n at hn
  cases n with
  | reference r => exact absurd rfl (hn r)
  | _ => rfl

end Schema

structure Grammar.IsVetted (s : Store) (defs : Definitions) (gr : Grammar) : Prop where
  start : Vetted s defs gr.start
  anyContent : Vetted s defs gr.anyContent
  anything : s.ShowsAnything defs gr.anyContent

theorem Grammar.IsVetted.of_le {s t : Store} {defs defs' : Definitions} {gr : Grammar}
    (h : gr.IsVetted s defs) (hst : s ≤ t) (hdefs : defs ≤ defs') (hwithin : defs.Within s) :
    gr.IsVetted t defs' where
  start := h.start.of_le hst hdefs hwithin
  anyContent := h.anyContent.of_le hst hdefs hwithin
  anything := h.anything.of_le hst hdefs

namespace Session

def forgetful (s : Session) : Session :=
  { s with schema := { s.schema with graph := s.schema.graph.forgetful } }

def Has (s : Session) (id : ExprId) : Prop :=
  id ∈ s.schema.graph.store

/--
All that the graph of the session remembers is true, and all that the session speaks of is in the
graph.
-/
structure Sound (s : Session) : Prop where
  graph : s.schema.graph.Sound s.schema.definitions
  bindings : ∀ (name : String) (id : ExprId), s.bindings[name]? = some id → s.Has id
  matchers : ∀ (name : String) (m : Matcher), s.matchers[name]? = some m →
    m.Within s.schema.graph.store
  pickers : ∀ (name : String) (results : Results), s.pickers[name]? = some results →
    results.Within s.schema.graph.store
  grammar : ∀ gr, s.grammar = some gr →
    gr.IsVetted s.schema.graph.store s.schema.definitions
  validations : ∀ (name : String) (v : Validation), s.validations[name]? = some v →
    v.IsVetted s.schema.graph.store s.schema.definitions

def Extends (s t : Session) : Prop :=
  t = { s with schema := t.schema }

/--
What is asked of work that starts from a session. If it ends with a fault, then with one of `E`;
otherwise the schema has grown and the session is sound, and the result satisfies `Q`. If it is
`neutral` it takes no notice of the derivatives that are remembered.
-/
structure Returns {α : Type} (neutral : Prop) (s : Session) (work : SessionM α) (E : Fault → Prop)
    (Q : α → Session → Prop) : Prop where
  forgetful : neutral → work s.forgetful = (work s).map (Prod.map id Session.forgetful)
  error : ∀ f, work s = .error (.fault f) → E f
  ok : ∀ a t, work s = .ok (a, t) → s.schema ≤ t.schema ∧ t.Sound ∧ Q a t

variable {α β : Type} {s t u : Session} {neutral : Prop} {E E' : Fault → Prop} {id a b : ExprId}

theorem Has.of_le (h : s.Has id) (hle : s.schema ≤ t.schema) : t.Has id :=
  Store.mem_of_le (Graph.store_le hle.2) h

theorem Extends.refl : s.Extends s := rfl

theorem Extends.trans (hst : s.Extends t) (htu : t.Extends u) : s.Extends u := by
  rw [Extends] at hst htu ⊢
  rw [htu, hst]

namespace Sound

theorem of_schema {schema : Schema} (hs : s.Sound) (hle : s.schema ≤ schema)
    (hschema : schema.graph.Sound schema.definitions) : { s with schema : Session }.Sound where
  graph := hschema
  bindings name id h := Has.of_le (t := { s with schema }) (hs.bindings name id h) hle
  matchers name m h := (hs.matchers name m h).of_le (Graph.store_le hle.2)
  pickers name results h := (hs.pickers name results h).of_le (Graph.store_le hle.2)
  grammar gr h := (hs.grammar gr h).of_le (Graph.store_le hle.2) hle.1 hs.graph.within
  validations name v h :=
    (hs.validations name v h).of_le (Graph.store_le hle.2) hle.1 hs.graph.within

theorem bind {name : String} (hs : s.Sound) (hid : s.Has id) :
    { s with bindings := s.bindings.insert name id : Session }.Sound where
  graph := hs.graph
  bindings := forall_getElem?_insert hs.bindings hid
  matchers := hs.matchers
  pickers := hs.pickers
  grammar := hs.grammar
  validations := hs.validations

theorem putMatcher {name : String} {m : Matcher} (hs : s.Sound)
    (hm : m.Within s.schema.graph.store) :
    { s with matchers := s.matchers.insert name m : Session }.Sound where
  graph := hs.graph
  bindings := hs.bindings
  matchers := forall_getElem?_insert hs.matchers hm
  pickers := hs.pickers
  grammar := hs.grammar
  validations := hs.validations

theorem putPicker {name : String} {results : Results} (hs : s.Sound)
    (hresults : results.Within s.schema.graph.store) :
    { s with pickers := s.pickers.insert name results : Session }.Sound where
  graph := hs.graph
  bindings := hs.bindings
  matchers := hs.matchers
  pickers := forall_getElem?_insert hs.pickers hresults
  grammar := hs.grammar
  validations := hs.validations

theorem putValidation {name : String} {v : Validation} (hs : s.Sound)
    (hv : v.IsVetted s.schema.graph.store s.schema.definitions) :
    { s with validations := s.validations.insert name v : Session }.Sound where
  graph := hs.graph
  bindings := hs.bindings
  matchers := hs.matchers
  pickers := hs.pickers
  grammar := hs.grammar
  validations := forall_getElem?_insert hs.validations hv

end Sound

theorem bind_apply (work : SessionM α) (next : α → SessionM β) (s : Session) :
    (work >>= next) s = (work s).bind fun p => next p.1 p.2 := rfl

theorem bind_eq_ok {work : SessionM α} {next : α → SessionM β} {b : β}
    (h : (work >>= next) s = .ok (b, u)) : ∃ a t, work s = .ok (a, t) ∧ next a t = .ok (b, u) := by
  rw [bind_apply] at h
  cases hwork : work s with
  | error => simp [hwork, Except.bind] at h
  | ok p =>
    rw [hwork] at h
    exact ⟨p.1, p.2, rfl, h⟩

theorem bind_eq_error {work : SessionM α} {next : α → SessionM β} {h : Halt}
    (hrun : (work >>= next) s = .error h) :
    work s = .error h ∨ ∃ a t, work s = .ok (a, t) ∧ next a t = .error h := by
  rw [bind_apply] at hrun
  cases hwork : work s with
  | error h' =>
    rw [hwork] at hrun
    cases hrun
    exact Or.inl rfl
  | ok p =>
    rw [hwork] at hrun
    exact Or.inr ⟨p.1, p.2, rfl, hrun⟩

theorem bind_of_ok {work : SessionM α} {next : α → SessionM β} {a : α} (h : work s = .ok (a, t)) :
    (work >>= next) s = next a t := by
  rw [bind_apply, h, Except.bind]

namespace Returns

variable {work : SessionM α} {next : α → SessionM β} {Q : α → Session → Prop}
variable {R : β → Session → Prop}

theorem pure {x : α} (hs : s.Sound) (hx : Q x s) : Returns neutral s (Pure.pure x) E Q where
  forgetful _ := rfl
  error := by
    intro f hf
    cases hf
  ok := by
    rintro _ _ ⟨⟩
    exact ⟨le_rfl, hs, hx⟩

theorem throw {h : Halt} (hh : ∀ f, h = .fault f → E f) :
    Returns neutral s (throw h : SessionM α) E Q where
  forgetful _ := rfl
  error := by
    rintro f ⟨⟩
    exact hh f rfl
  ok := by
    intro a t heq
    cases heq

theorem bind (hwork : Returns neutral s work E Q)
    (hnext : ∀ a t, s.schema ≤ t.schema → t.Sound → Q a t → Returns neutral t (next a) E R) :
    Returns neutral s (work >>= next) E R := by
  cases hw : work s with
  | error h =>
    refine ⟨?_, ?_, ?_⟩
    . intro hneutral
      rw [bind_apply, bind_apply, hwork.forgetful hneutral, hw]
      rfl
    . intro f hf
      rw [bind_apply, hw] at hf
      cases hf
      exact hwork.error f hw
    . intro b u hu
      rw [bind_apply, hw] at hu
      cases hu
  | ok p =>
    obtain ⟨x, t⟩ := p
    obtain ⟨hst, ht, hx⟩ := hwork.ok x t hw
    have hn := hnext x t hst ht hx
    refine ⟨?_, ?_, ?_⟩
    . intro hneutral
      rw [bind_apply, bind_apply, hwork.forgetful hneutral, hw]
      exact hn.forgetful hneutral
    . intro f hf
      rw [bind_apply, hw] at hf
      exact hn.error f hf
    . intro b u hu
      rw [bind_apply, hw] at hu
      obtain ⟨htu, hu, hb⟩ := hn.ok b u hu
      exact ⟨le_trans hst htu, hu, hb⟩

theorem mono {Q' : α → Session → Prop} (hwork : Returns neutral s work E Q)
    (hE : ∀ f, E f → E' f) (hQ : ∀ a t, s.schema ≤ t.schema → t.Sound → Q a t → Q' a t) :
    Returns neutral s work E' Q' where
  forgetful := hwork.forgetful
  error f hf := hE f (hwork.error f hf)
  ok := by
    intro a t heq
    obtain ⟨hst, ht, ha⟩ := hwork.ok a t heq
    exact ⟨hst, ht, hQ a t hst ht ha⟩

theorem get {next : Session → SessionM β} (hforgetful : neutral → next s.forgetful = next s)
    (hnext : Returns neutral s (next s) E R) :
    Returns neutral s (MonadState.get >>= next) E R where
  forgetful := by
    intro hneutral
    have hrun (s : Session) : (MonadState.get >>= next) s = next s s := rfl
    rw [hrun, hrun, hforgetful hneutral]
    exact hnext.forgetful hneutral
  error := hnext.error
  ok := hnext.ok

theorem modify {f : Session → Session} {Q : Unit → Session → Prop}
    (hforgetful : f s.forgetful = (f s).forgetful) (hle : s.schema ≤ (f s).schema)
    (hf : (f s).Sound) (hQ : Q () (f s)) : Returns neutral s (modify f : SessionM Unit) E Q where
  forgetful _ := congrArg (fun s => Except.ok ((), s)) hforgetful
  error := by
    intro f hf
    cases hf
  ok := by
    rintro _ _ ⟨⟩
    exact ⟨hle, hf, hQ⟩

theorem after {work' : SessionM α} (hrun : work s = work' t)
    (hrun' : work s.forgetful = work' t.forgetful) (hle : s.schema ≤ t.schema)
    (hwork' : Returns neutral t work' E Q) : Returns neutral s work E Q where
  forgetful := by
    intro hneutral
    rw [hrun, hrun', hwork'.forgetful hneutral]
  error := by
    rw [hrun]
    exact hwork'.error
  ok := by
    rw [hrun]
    intro a u hu
    obtain ⟨htu, hu, ha⟩ := hwork'.ok a u hu
    exact ⟨le_trans hle htu, hu, ha⟩

end Returns

theorem onGraph_apply (work : Definitions → GraphM α) (s : Session) :
    onGraph work s = match work s.schema.definitions s.schema.graph with
      | .ok (a, graph) => .ok (a, { s with schema := { s.schema with graph } })
      | .error f => .error (.fault f) := by
  simp only [onGraph, onSchema, Schema.onGraph, StateT.run]
  cases work s.schema.definitions s.schema.graph <;> rfl

theorem exists_fault_of_onGraph {work : Definitions → GraphM α} {h : Halt}
    (hwork : onGraph work s = .error h) : ∃ f, h = .fault f := by
  rw [onGraph_apply] at hwork
  split at hwork
  . cases hwork
  . cases hwork
    exact ⟨_, rfl⟩

theorem onGraph_returns {work : Definitions → GraphM α} {Q : α → Graph → Prop} (hs : s.Sound)
    (hwork : Graph.Returns s.schema.definitions s.schema.graph (work s.schema.definitions) E Q) :
    Returns neutral s (onGraph work) E fun a t =>
      Q a t.schema.graph ∧ s.Extends t ∧ t.schema.definitions = s.schema.definitions := by
  refine ⟨?_, ?_, ?_⟩
  . intro _
    rw [onGraph_apply, onGraph_apply]
    have hforgetful := hwork.forgetful
    unfold Session.forgetful
    dsimp only
    rw [hforgetful]
    cases work s.schema.definitions s.schema.graph <;> rfl
  . intro f hf
    rw [onGraph_apply] at hf
    split at hf
    . cases hf
    . next herror =>
      cases hf
      exact hwork.error f herror
  . intro a t ht
    rw [onGraph_apply] at ht
    split at ht
    . next hok =>
      cases ht
      obtain ⟨hle, hsound, ha⟩ := hwork.ok _ _ hok
      exact ⟨⟨le_rfl, hle⟩, hs.of_schema ⟨le_rfl, hle⟩ hsound, ha, rfl, rfl⟩
    . cases ht

structure Makes (s : Session) (id : ExprId) (t : Session) : Prop where
  only : s.Extends t
  has : t.Has id

theorem Makes.trans (hst : s.Extends t) (h : t.Makes id u) : s.Makes id u :=
  ⟨hst.trans h.only, h.has⟩

theorem composed_returns {work : Definitions → GraphM ExprId} {operands : List ExprId}
    {P : ExprId → Graph → Prop} (hs : s.Sound) (hoperands : ∀ a ∈ operands, s.Has a)
    (hwork : Graph.Yields s.schema.definitions s.schema.graph work (Fault.Admissible True)
      fun r h => P r h ∧ Composed s.schema.definitions s.schema.graph.store h.store operands r) :
    Returns neutral s (onGraph work) (fun _ => True) s.Makes := by
  have hmem : Graph.Returns s.schema.definitions s.schema.graph (work s.schema.definitions)
      (fun _ => True) fun r h => r ∈ h.store := by
    refine hwork.returns.mono (fun _ _ => trivial) ?_
    rintro r h hgh _ ⟨_, hr⟩
    exact hr.mem hs.graph.within (Graph.store_le hgh) hoperands
  refine (onGraph_returns hs hmem).mono (fun _ hf => hf) ?_
  rintro r t _ _ ⟨hr, hextends, _⟩
  exact ⟨hextends, hr⟩

theorem intern_returns {n : Node} (hs : s.Sound) (hn : ∀ c ∈ n.children, s.Has c)
    (hcompound : n.isCompound = false) :
    Returns neutral s (onGraph fun _ => Graph.intern n) (fun _ => True) fun r t =>
      s.Makes r t ∧ t.schema.graph.store.node r = n ∧
        t.schema.definitions = s.schema.definitions := by
  have hintern := (Graph.intern_yields hs.graph hn (by simp [hcompound])).returns
  refine (onGraph_returns hs hintern).mono (fun _ _ => trivial) ?_
  rintro r t _ _ ⟨⟨hr, hnode⟩, hextends, hdefs⟩
  exact ⟨⟨hextends, hr⟩, hnode, hdefs⟩

theorem found_returns {x? : Option α} {otherwise : Misuse} (hs : s.Sound) :
    Returns neutral s (found x? otherwise) E fun x t => t = s ∧ x? = some x := by
  unfold found
  cases x? with
  | none => exact .throw (by rintro f ⟨⟩)
  | some x => exact .pure hs ⟨rfl, rfl⟩

theorem variableNamed_returns {name : String} (hs : s.Sound) :
    Returns neutral s (variableNamed name) E s.Makes := by
  refine Returns.get (fun _ => rfl) ?_
  refine (found_returns hs).mono (fun _ hf => hf) ?_
  rintro id _ _ _ ⟨rfl, hid⟩
  exact ⟨.refl, hs.bindings name id hid⟩

theorem reference_returns {name : String} (hs : s.Sound) :
    Returns neutral s (onSchema (Schema.reference name)) (fun _ => True) fun id t =>
      s.Makes id t ∧ ∃ r, t.schema.graph.store.node id = .reference r ∧
        r.index < t.schema.definitions.size := by
  let definitions := (s.schema.definitions.declare name).2
  let t : Session := { s with schema := { s.schema with definitions } }
  have hle : s.schema ≤ t.schema := ⟨Definitions.le_declare, le_rfl⟩
  have hwithin : definitions.Within s.schema.graph.store := hs.graph.within.declare
  have ht : t.Sound := hs.of_schema hle (hs.graph.of_le Definitions.le_declare hwithin)
  have hextends : s.Extends t := rfl
  have hintern : Returns neutral t
      (onGraph fun _ => Graph.intern (.reference ⟨s.schema.definitions.size⟩)) (fun _ => True)
      fun id u => t.Makes id u ∧
        u.schema.graph.store.node id = .reference ⟨s.schema.definitions.size⟩ ∧
        u.schema.definitions = definitions :=
      intern_returns ht (by simp [Node.children]) rfl
  refine Returns.after (t := t) rfl rfl hle (hintern.mono (fun _ hf => hf) ?_)
  rintro id u _ _ ⟨hu, hnode, hdefs⟩
  refine ⟨hu.trans hextends, _, hnode, ?_⟩
  rw [hdefs]
  simp [definitions, Definitions.declare, Definitions.size]

theorem buildBinary_returns {a b : Term} {op : ExprId → ExprId → GraphM ExprId}
    {f : Language Letter → Language Letter → Language Letter}
    (hop : ∀ {defs : Definitions} {g : Graph} {a b : ExprId}, g.Sound defs → a ∈ g.store →
      b ∈ g.store → Graph.Yields defs g (fun _ => op a b) (Fault.Admissible True) fun r h =>
        (∀ t, h.store ≤ t → t.language defs r = f (t.language defs a) (t.language defs b)) ∧
          Composed defs g.store h.store [a, b] r)
    (ha : ∀ s : Session, s.Sound → Returns neutral s a.build (fun _ => True) s.Makes)
    (hb : ∀ s : Session, s.Sound → Returns neutral s b.build (fun _ => True) s.Makes)
    (hs : s.Sound) :
    Returns neutral s (do
      let a ← a.build
      let b ← b.build
      onGraph fun _ => op a b) (fun _ => True) s.Makes := by
  refine Returns.bind (ha s hs) ?_
  intro i t _ ht hi
  refine Returns.bind (hb t ht) ?_
  intro j u htu hu hj
  have hi' := hi.has.of_le htu
  refine (composed_returns hu (by simp [hi', hj.has]) (hop hu.graph hi' hj.has)).mono
    (fun _ hf => hf) ?_
  exact fun r v _ _ hr => (hr.trans hj.only).trans hi.only

theorem buildUnary_returns {a : Term} {op : ExprId → GraphM ExprId}
    {f : Language Letter → Language Letter}
    (hop : ∀ {defs : Definitions} {g : Graph} {a : ExprId}, g.Sound defs → a ∈ g.store →
      Graph.Yields defs g (fun _ => op a) (Fault.Admissible True) fun r h =>
        (∀ t, h.store ≤ t → t.language defs r = f (t.language defs a)) ∧
          Composed defs g.store h.store [a] r)
    (ha : ∀ s : Session, s.Sound → Returns neutral s a.build (fun _ => True) s.Makes)
    (hs : s.Sound) :
    Returns neutral s (do
      let a ← a.build
      onGraph fun _ => op a) (fun _ => True) s.Makes := by
  refine Returns.bind (ha s hs) ?_
  intro i t _ ht hi
  refine (composed_returns ht (by simp [hi.has]) (hop ht.graph hi.has)).mono (fun _ hf => hf) ?_
  exact fun r v _ _ hr => hr.trans hi.only

theorem build_returns (e : Term) (s : Session) (hs : s.Sound) :
    Returns neutral s e.build (fun _ => True) s.Makes := by
  induction e generalizing s with
  | «variable» name => exact variableNamed_returns hs
  | epsilon => exact .pure hs ⟨.refl, s.schema.graph.store.epsilon_mem⟩
  | nullSet => exact .pure hs ⟨.refl, s.schema.graph.store.nullSet_mem⟩
  | anyString => exact .pure hs ⟨.refl, s.schema.graph.store.anyString_mem⟩
  | choice a b iha ihb => exact buildBinary_returns Graph.choice_yields iha ihb hs
  | sequence a b iha ihb => exact buildBinary_returns Graph.sequence_yields iha ihb hs
  | interleave a b iha ihb => exact buildBinary_returns Graph.interleave_yields iha ihb hs
  | oneOrMore a ih =>
    exact buildUnary_returns (f := fun l => l * KStar.kstar l) Graph.oneOrMore_yields ih hs
  | zeroOrMore a ih => exact buildUnary_returns Graph.zeroOrMore_yields ih hs
  | optional a ih => exact buildUnary_returns (f := (· + 1)) Graph.optional_yields ih hs
  | mixed a ih => exact buildUnary_returns Graph.mixed_yields ih hs
  | «attribute» names content ih | element names content ih =>
    refine Returns.bind (ih s hs) ?_
    intro i t _ ht hi
    refine (intern_returns ht (by simpa [Node.children] using hi.has) rfl).mono (fun _ hf => hf) ?_
    exact fun r u _ _ hr => hr.1.trans hi.only
  | typedString number =>
    refine (intern_returns hs (by simp [Node.children]) rfl).mono (fun _ hf => hf) ?_
    exact fun _ _ _ _ hr => hr.1
  | reference name => exact (reference_returns hs).mono (fun _ hf => hf) fun _ _ _ _ hr => hr.1

theorem buildAll_returns (es : List Term) (s : Session) (hs : s.Sound) :
    Returns neutral s (es.mapM Term.build) (fun _ => True) fun ids t =>
      s.Extends t ∧ ∀ id ∈ ids, t.Has id := by
  induction es generalizing s with
  | nil => exact .pure hs ⟨.refl, by simp⟩
  | cons e es ih =>
    rw [List.mapM_cons]
    refine Returns.bind (build_returns e s hs) ?_
    intro id t _ ht hid
    refine Returns.bind (ih t ht) ?_
    rintro ids u htu hu ⟨hextends, hids⟩
    refine .pure hu ⟨hid.only.trans hextends, ?_⟩
    intro a ha
    rcases List.mem_cons.1 ha with rfl | ha
    . exact hid.has.of_le htu
    . exact hids a ha

theorem buildToken_returns (token : TokenTerm) (hs : s.Sound) :
    Returns neutral s token.build (fun _ => True) fun _ t => s.Extends t := by
  cases token with
  | element declarations =>
    refine Returns.bind (buildAll_returns declarations s hs) ?_
    exact fun ids t _ ht hids => .pure ht hids.1
  | _ => exact .pure hs .refl

theorem define_returns (hs : s.Sound) (hb : s.Has b) :
    Returns neutral s (onSchema (Schema.define a b)) (fun _ => True) fun _ t => s.Extends t ∧
      ∀ r, s.schema.graph.store.node a = .reference r → r.index < s.schema.definitions.size →
        t.schema.definitions.target? r = some b := by
  have hreference {s : Session} {r : RefId} (hn : s.schema.graph.store.node a = .reference r) :
      onSchema (Schema.define a b) s = ((s.schema.definitions.define r b).map fun definitions =>
        ((), ({ s with schema := { s.schema with definitions } } : Session))).mapError .fault := by
    unfold onSchema StateT.run
    rw [Schema.define_of_reference hn]
    cases s.schema.definitions.define r b <;> rfl
  have hother {s : Session} (hn : ∀ r, s.schema.graph.store.node a ≠ .reference r) :
      onSchema (Schema.define a b) s =
        .error (.fault (.notReference
          ((s.schema.graph.store.node a).spellOut s.schema.definitions.types) a)) := by
    unfold onSchema StateT.run
    rw [Schema.define_of_ne_reference hn]
  by_cases hn : ∃ r, s.schema.graph.store.node a = .reference r
  . obtain ⟨r, hn⟩ := hn
    refine ⟨?_, fun _ _ => trivial, ?_⟩
    . intro _
      rw [hreference hn, hreference (s := s.forgetful) hn]
      unfold Session.forgetful
      dsimp only
      cases s.schema.definitions.define r b <;> rfl
    . intro _ t ht
      rw [hreference hn] at ht
      cases hdefine : s.schema.definitions.define r b with
      | error f =>
        rw [hdefine] at ht
        cases ht
      | ok definitions =>
        rw [hdefine] at ht
        cases ht
        have hle := Definitions.le_define hdefine
        have hwithin := hs.graph.within.define hb hdefine
        refine ⟨⟨hle, le_rfl⟩, hs.of_schema ⟨hle, le_rfl⟩ (hs.graph.of_le hle hwithin), rfl, ?_⟩
        intro q hq hsize
        rw [hn] at hq
        cases hq
        exact Definitions.target?_define_self hdefine hsize
  . rw [not_exists] at hn
    refine ⟨?_, fun _ _ => trivial, ?_⟩
    . intro _
      rw [hother hn, hother (s := s.forgetful) hn]
      rfl
    . intro _ t ht
      rw [hother hn] at ht
      cases ht

end Session

end TreeGrammar
