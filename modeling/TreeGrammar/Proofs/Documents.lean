import TreeGrammar.Proofs.Faults
import TreeGrammar.Proofs.Vetting

/-!
This module contains sessions in which documents are validated and nothing else is done: which events
fail, what they are answered with, and what they add to the graph, all in terms of forms.
-/

namespace TreeGrammar

def Command.document? : Command → Option String
  | .createValidation name | .take name _ | .diagnose name _ => some name
  | _ => none

namespace Session

structure Continues (s t : Session) : Prop where
  graph : t.schema.graph.Sound s.schema.definitions
  le : s.schema.graph ≤ t.schema.graph
  definitions : t.schema.definitions = s.schema.definitions
  grammar : t.grammar = s.grammar

noncomputable def grammarForm (s : Session) (gr : Grammar) : Form.Grammar :=
  gr.form s.schema.graph.store s.schema.definitions

def Proper (s : Session) (e : Form) : Prop :=
  e.Proper (Head.IsVetted s.schema.graph.store s.schema.definitions)

structure Views (s : Session) (t : Store) (v : Validation) (v' : Form.Validation) : Prop where
  shows : t.ShowsValidation s.schema.definitions v v'
  proper : v'.All s.Proper

structure Took (s t u : Session) (name : String) (w : Form.Validation) (built : List Form) : Prop where
  continues : s.Continues u
  le : t.schema.graph ≤ u.schema.graph
  grows : Store.GrowsBy s.schema.definitions t.schema.graph.store u.schema.graph.store built
  validation : ∃ v, u.validations = t.validations.insert name v ∧ s.Views u.schema.graph.store v w

variable {s t u : Session} {name other : String} {event : Event} {gr : Grammar} {v : Validation}
variable {v' w : Form.Validation} {answer : Answer} {built : List Form}

theorem Continues.refl (hs : s.Sound) : s.Continues s :=
  ⟨hs.graph, le_rfl, rfl, rfl⟩

theorem Views.of_le {a b : Store} (h : s.Views a v v') (hab : a ≤ b) : s.Views b v v' :=
  ⟨h.shows.of_le hab, h.proper⟩

theorem Took.get (h : s.Took t u name w built) :
    ∃ v, u.validations[name]? = some v ∧ s.Views u.schema.graph.store v w := by
  obtain ⟨v, hu, hv⟩ := h.validation
  refine ⟨v, ?_, hv⟩
  rw [hu]
  exact Std.TreeMap.getElem?_insert_self

theorem Took.get_other (h : s.Took t u name w built) (hother : other ≠ name) :
    u.validations[other]? = t.validations[other]? := by
  obtain ⟨v, hu, -⟩ := h.validation
  rw [hu, getElem?_insert, if_neg hother.symm]

theorem keeps_proper (hs : s.Sound) (hgr : s.grammar = some gr) :
    (s.grammarForm gr).Keeps s.Proper :=
  Grammar.keeps_proper hs.graph.within hs.graph.reduced (hs.grammar gr hgr).2

theorem views_form (hs : s.Sound) (hv : s.validations[name]? = some v) :
    s.Views s.schema.graph.store v (v.form s.schema.graph.store s.schema.definitions) where
  shows := (hs.validations name v hv).shows hs.graph.within
  proper := (hs.validations name v hv).proper hs.graph.within hs.graph.reduced

theorem views_create (hs : s.Sound) (hgr : s.grammar = some gr) :
    s.Views s.schema.graph.store (.create gr)
      (.create (s.schema.graph.store.form s.schema.definitions gr.start)) := by
  have hstart := (hs.grammar gr hgr).1
  refine ⟨⟨⟨⟨hstart.shows hs.graph.within, rfl⟩, rfl, rfl, rfl, rfl⟩, .nil, rfl, rfl, rfl⟩, ?_⟩
  exact ⟨hstart.proper hs.graph.within hs.graph.reduced, by simp [Form.Validation.create]⟩

theorem take_carries (event : Event) (hs : s.Sound) (hgr : s.grammar = some gr) (hst : s.Continues t)
    (hv : s.Views t.schema.graph.store v v') :
    Graph.Carries s.schema.definitions t.schema.graph (v.take gr s.schema.definitions event)
      (v'.take (s.grammarForm gr) event).run
      (Graph.Yielded (Store.ShowsValidation · s.schema.definitions)) Graph.Refused := by
  have hflush : (v'.flush false).value.All s.Proper :=
    (Form.Validation.flush_keeps (keeps_proper hs hgr).stable hv.proper).value
  refine Validation.take_carries event hst.graph hv.shows ?_
  exact Grammar.shows_form hs.graph.within (hs.grammar gr hgr).2 (Graph.store_le hst.le)
    hflush.innermost.state.declarations

/--
An event fails if the attributes of the null set have to be described, and else only if there is no
room for all forms.
-/
theorem perform_take_error {h : Halt} (hs : s.Sound) (hgr : s.grammar = some gr)
    (hst : s.Continues t) (hv : t.validations[name]? = some v)
    (hviews : s.Views t.schema.graph.store v v') (herror : perform (.take name event) t = .error h) :
    (∃ limit, h = .fault (.limitExceeded limit)) ∧ t.schema.graph.Overflows s.schema.definitions
        (v'.take (s.grammarForm gr) event).run.built ∨
      (v'.take (s.grammarForm gr) event).run.value = none := by
  have hcarries := take_carries event hs hgr hst hviews
  rw [perform_take (hst.grammar.trans hgr) hv, hst.definitions] at herror
  split at herror
  . cases herror
  . next f hrun =>
    cases herror
    rcases hcarries.error f hrun with ⟨⟨limit, rfl⟩, hfull⟩ | ⟨-, hnone⟩
    . exact Or.inl ⟨⟨limit, rfl⟩, hfull⟩
    . exact Or.inr hnone

theorem exists_of_perform_take (hok : perform (.take name event) t = .ok (answer, u)) :
    ∃ gr v, t.grammar = some gr ∧ t.validations[name]? = some v := by
  have hperform : perform (.take name event) t = take name event t := rfl
  have hgrammar : theGrammar t = found t.grammar .noGrammar t := rfl
  have hvalidation : validationNamed name t =
      found t.validations[name]? (.unknownValidation name) t := rfl
  rw [hperform, take, bind_apply] at hok
  cases hgr : t.grammar with
  | none =>
    rw [hgrammar, hgr] at hok
    cases hok
  | some gr =>
    cases hv : t.validations[name]? with
    | some v => exact ⟨gr, v, rfl, rfl⟩
    | none =>
      rw [theGrammar_apply hgr, Except.bind, bind_apply, hvalidation, hv] at hok
      cases hok

theorem perform_take_ok (hs : s.Sound) (hgr : s.grammar = some gr) (hst : s.Continues t)
    (hv : t.validations[name]? = some v) (hviews : s.Views t.schema.graph.store v v')
    (hok : perform (.take name event) t = .ok (answer, u)) :
    ∃ w, (v'.take (s.grammarForm gr) event).run.value = some w ∧
      answer = .progress (w.errors.drop v'.errors.length) w.elements.length ∧
      s.Took t u name w (v'.take (s.grammarForm gr) event).run.built := by
  have hcarries := take_carries event hs hgr hst hviews
  have hproper := (Form.Validation.take_keeps event (keeps_proper hs hgr) hviews.proper).value
  rw [perform_take (hst.grammar.trans hgr) hv, hst.definitions] at hok
  split at hok
  . next w graph hrun =>
    cases hok
    obtain ⟨hle, hsound, ⟨w', hw', hshows⟩, hgrows⟩ := hcarries.ok _ _ hrun
    refine ⟨w', hw', ?_, ?_⟩
    . rw [Validation.errorsSince, Validation.depth, hshows.errors, hviews.shows.errors,
        hshows.elements.length_eq]
    . exact ⟨⟨hsound, le_trans hst.le hle, hst.definitions, hst.grammar⟩, hle, hgrows, w, rfl, hshows,
        hproper w' hw'⟩
  . cases hok

theorem exists_of_perform_createValidation
    (hok : perform (.createValidation name) s = .ok (answer, t)) : ∃ gr, s.grammar = some gr := by
  have hperform : perform (.createValidation name) s =
      (theGrammar >>= fun gr => putValidation name (.create gr) >>= fun _ => pure .done) s := rfl
  have hgrammar : theGrammar s = found s.grammar .noGrammar s := rfl
  cases hgr : s.grammar with
  | none =>
    rw [hperform, bind_apply, hgrammar, hgr] at hok
    cases hok
  | some gr => exact ⟨gr, rfl⟩

theorem took_createValidation (hs : s.Sound) (hgr : s.grammar = some gr) (hst : s.Continues t) :
    s.Took t { t with validations := t.validations.insert name (.create gr) } name
      (.create (s.schema.graph.store.form s.schema.definitions gr.start)) [] where
  continues := ⟨hst.graph, hst.le, hst.definitions, hst.grammar⟩
  le := le_rfl
  grows := .of_knows (by simp)
  validation := ⟨_, rfl, (views_create hs hgr).of_le (Graph.store_le hst.le)⟩

theorem perform_diagnose {located : Bool} :
    perform (.diagnose name located) s = match s.validations[name]? with
      | some v => .ok (.diagnoses (v.errors.map (·.diagnostics located)), s)
      | none => .error (.misuse (.unknownValidation name)) := by
  have hperform : perform (.diagnose name located) s = (validationNamed name >>= fun v =>
      pure (.diagnoses (v.errors.map (·.diagnostics located)))) s := rfl
  have hvalidation : validationNamed name s =
      found s.validations[name]? (.unknownValidation name) s := rfl
  rw [hperform, bind_apply, hvalidation]
  cases s.validations[name]? <;> rfl

end Session

end TreeGrammar
