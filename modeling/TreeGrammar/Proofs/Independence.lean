import Mathlib.Combinatorics.Enumerative.DoubleCounting
import TreeGrammar.Proofs.Documents

/-!
This module contains that documents which are validated against one grammar do not influence each
other. They share a graph, where each of them finds its expressions under other numbers than it would
on its own, and finds some of them made already; but their forms are the same.
-/

namespace TreeGrammar

namespace Store

def CoveredBy (s : Store) (defs : Definitions) (u t : Store) : Prop :=
  ∀ id ∈ u, id ∈ s ∨ ∃ e, u.Shows defs id e ∧ t.Knows defs e

def Corresponds (s : Store) (defs : Definitions) (u t : Store) (i j : ExprId) : Prop :=
  i ∈ s ∧ i = j ∨ ∃ e, u.Shows defs i e ∧ t.Shows defs j e

variable {s t u : Store} {defs : Definitions} {e : Form} {i i' j : ExprId} {built : List Form}

theorem Corresponds.shows (h : Corresponds s defs u t i j) (hsu : s ≤ u) (hst : s ≤ t)
    (hwithin : defs.Within s) (hj : t.Shows defs j e) : u.Shows defs i e := by
  rcases h with ⟨hi, rfl⟩ | ⟨e', hi, hj'⟩
  . exact (hj.of_ge hst hwithin hi).of_le hsu le_rfl
  . rwa [hj.unique hj']

theorem Corresponds.injective (h : Corresponds s defs u t i j) (h' : Corresponds s defs u t i' j)
    (hsu : s ≤ u) (hst : s ≤ t) (hwithin : defs.Within s) : i = i' := by
  rcases h with ⟨hi, rfl⟩ | ⟨e, hi, hj⟩
  . rcases h' with ⟨_, rfl⟩ | ⟨e, hi', hj⟩
    . rfl
    . exact (Corresponds.shows (Or.inl ⟨hi, rfl⟩) hsu hst hwithin hj).injective hi'
  . exact hi.injective (h'.shows hsu hst hwithin hj)

theorem CoveredBy.size_lt (h : CoveredBy s defs u t) (hsu : s ≤ u) (hst : s ≤ t)
    (hwithin : defs.Within s) (he : t.Knows defs e) (hmissing : ¬ u.Knows defs e) :
    u.size < t.size := by
  obtain ⟨k, hk⟩ := he
  let r (i j : Nat) : Prop := Corresponds s defs u t ⟨i⟩ ⟨j⟩
  have hcard : (Finset.range u.size).card ≤ ((Finset.range t.size).erase k.index).card := by
    refine Finset.card_le_card_of_forall_subsingleton r ?_ ?_
    . intro i hi
      have hcorresponds : ∃ j ∈ t, Corresponds s defs u t ⟨i⟩ j := by
        rcases h ⟨i⟩ (Finset.mem_range.1 hi) with his | ⟨e, hie, j, hj⟩
        . exact ⟨⟨i⟩, mem_of_le hst his, Or.inl ⟨his, rfl⟩⟩
        . exact ⟨j, hj.mem, Or.inr ⟨e, hie, hj⟩⟩
      obtain ⟨j, hj, hij⟩ := hcorresponds
      refine ⟨j.index, Finset.mem_erase.2 ⟨?_, Finset.mem_range.2 hj⟩, hij⟩
      intro hjk
      cases j
      cases k
      cases hjk
      exact hmissing ⟨⟨i⟩, hij.shows hsu hst hwithin hk⟩
    . rintro j - i ⟨-, hi⟩ i' ⟨-, hi'⟩
      exact congrArg ExprId.index (Corresponds.injective hi hi' hsu hst hwithin)
  have hpos : 0 < t.size := Nat.lt_of_le_of_lt (Nat.zero_le _) hk.mem
  rw [Finset.card_range, Finset.card_erase_of_mem (Finset.mem_range.2 hk.mem),
    Finset.card_range] at hcard
  omega

end Store

namespace Session

def answersTo (name : String) (commands : List Command) (answers : List Answer) : List Answer :=
  ((commands.zip answers).filter (·.1.document? = some name)).map (·.2)

/--
In `t` several documents are validated, in `u` one of them. Both have come of `s`. The graph of `u`
is covered by that of `t`, and the document is in the same state.
-/
structure Mirrors (s : Session) (name : String) (t u : Session) : Prop where
  all : s.Continues t
  alone : s.Continues u
  covered : s.schema.graph.store.CoveredBy s.schema.definitions u.schema.graph.store
    t.schema.graph.store
  views : ∀ (other : String) (v : Validation), t.validations[other]? = some v →
    ∃ v', s.Views t.schema.graph.store v v'
  document : Option.Rel (fun v w => ∃ v', s.Views t.schema.graph.store v v' ∧
    s.Views u.schema.graph.store w v') t.validations[name]? u.validations[name]?

variable {s t t' u u' : Session} {name other : String} {event : Event} {gr : Grammar}
variable {v w : Validation} {v' : Form.Validation} {answer : Answer} {built : List Form}
variable {commands : List Command} {answers : List Answer}

namespace Mirrors

theorem refl (hs : s.Sound) : s.Mirrors name s s where
  all := .refl hs
  alone := .refl hs
  covered _ hid := Or.inl hid
  views _ _ hv := ⟨_, views_form hs hv⟩
  document := by
    cases hv : s.validations[name]? with
    | none => exact .none
    | some v => exact .some ⟨_, views_form hs hv, views_form hs hv⟩

theorem views_of_took (h : s.Mirrors name t u) (ht' : s.Took t t' other v' built) (name : String)
    (v : Validation) (hv : t'.validations[name]? = some v) :
    ∃ v', s.Views t'.schema.graph.store v v' := by
  by_cases hname : name = other
  . obtain ⟨w, hw, hviews⟩ := ht'.get
    rw [hname, hw] at hv
    cases hv
    exact ⟨v', hviews⟩
  . rw [ht'.get_other hname] at hv
    obtain ⟨v', hviews⟩ := h.views name v hv
    exact ⟨v', hviews.of_le (Graph.store_le ht'.le)⟩

theorem not_overflows (h : s.Mirrors name t u) (hs : s.Sound) (ht' : s.Took t t' other v' built) :
    ¬ u.schema.graph.Overflows s.schema.definitions built := by
  rintro ⟨x, hux, hnew, hfull, e, he, hmissing⟩
  have htt' := Graph.store_le ht'.le
  have hsu := Graph.store_le h.alone.le
  have hcovered : s.schema.graph.store.CoveredBy s.schema.definitions x t'.schema.graph.store := by
    intro id hid
    rcases hnew id hid with hid | ⟨e, he, hid⟩
    . refine (h.covered id hid).imp_right ?_
      rintro ⟨e, hid, hknown⟩
      exact ⟨e, hid.of_le hux le_rfl, hknown.of_le htt'⟩
    . exact Or.inr ⟨e, hid, ht'.grows.knows e he⟩
  have hlt := hcovered.size_lt (le_trans hsu hux) (Graph.store_le ht'.continues.le) hs.graph.within
    (ht'.grows.knows e he) hmissing
  have hroom := ht'.continues.graph.room
  rw [Graph.limit_eq ht'.continues.le] at hroom
  rw [Graph.limit_eq h.alone.le] at hfull
  omega

theorem turn_other (h : s.Mirrors name t u) (ht' : s.Took t t' other v' built) (hother : name ≠ other) :
    s.Mirrors name t' u where
  all := ht'.continues
  alone := h.alone
  covered id hid := (h.covered id hid).imp_right fun ⟨e, hid, hknown⟩ =>
    ⟨e, hid, hknown.of_le (Graph.store_le ht'.le)⟩
  views := h.views_of_took ht'
  document := by
    have hdocument := h.document
    rw [ht'.get_other hother]
    generalize t.validations[name]? = v?, u.validations[name]? = w? at hdocument
    cases hdocument with
    | none => exact .none
    | some hviews =>
      obtain ⟨v', hv, hw⟩ := hviews
      exact .some ⟨v', hv.of_le (Graph.store_le ht'.le), hw⟩

theorem turn_own (h : s.Mirrors name t u) (ht' : s.Took t t' name v' built)
    (hu' : s.Took u u' name v' built) : s.Mirrors name t' u' where
  all := ht'.continues
  alone := hu'.continues
  covered := by
    intro id hid
    rcases hu'.grows.new id hid with hid | ⟨e, he, hid⟩
    . refine (h.covered id hid).imp_right fun ⟨e, hid, hknown⟩ => ⟨e, ?_, ?_⟩
      . exact hid.of_le (Graph.store_le hu'.le) le_rfl
      . exact hknown.of_le (Graph.store_le ht'.le)
    . exact Or.inr ⟨e, hid, ht'.grows.knows e he⟩
  views := h.views_of_took ht'
  document := by
    obtain ⟨v, hv, hviews⟩ := ht'.get
    obtain ⟨w, hw, hwViews⟩ := hu'.get
    rw [hv, hw]
    exact .some ⟨v', hviews, hwViews⟩

theorem exists_alone (h : s.Mirrors name t u) (hv : t.validations[name]? = some v) :
    ∃ w v', u.validations[name]? = some w ∧ s.Views t.schema.graph.store v v' ∧
      s.Views u.schema.graph.store w v' := by
  have hdocument := h.document
  rw [hv] at hdocument
  cases hw : u.validations[name]? with
  | none =>
    rw [hw] at hdocument
    cases hdocument
  | some w =>
    rw [hw] at hdocument
    cases hdocument with | some hviews =>
    obtain ⟨v', hviews, hwViews⟩ := hviews
    exact ⟨w, v', rfl, hviews, hwViews⟩

theorem step_own {c : Command} (h : s.Mirrors name t u) (hs : s.Sound) (hgr : s.grammar = some gr)
    (hc : c.document? = some name) (hok : perform c t = .ok (answer, t')) :
    ∃ u', perform c u = .ok (answer, u') ∧ s.Mirrors name t' u' := by
  cases c with
  | createValidation other =>
    cases hc
    rw [perform_createValidation (h.all.grammar.trans hgr)] at hok
    cases hok
    refine ⟨_, perform_createValidation (h.alone.grammar.trans hgr), ?_⟩
    exact h.turn_own (took_createValidation hs hgr h.all) (took_createValidation hs hgr h.alone)
  | take other event =>
    cases hc
    obtain ⟨-, v, -, hv⟩ := exists_of_perform_take hok
    obtain ⟨w, v', hw, hviews, hwViews⟩ := h.exists_alone hv
    obtain ⟨w', hw', rfl, ht'⟩ := perform_take_ok hs hgr h.all hv hviews hok
    cases hu : perform (.take name event) u with
    | error halt =>
      rcases perform_take_error hs hgr h.alone hw hwViews hu with ⟨-, hfull⟩ | hnone
      . exact absurd hfull (h.not_overflows hs ht')
      . rw [hw'] at hnone
        cases hnone
    | ok p =>
      obtain ⟨answer, u'⟩ := p
      obtain ⟨w'', hw'', rfl, hu'⟩ := perform_take_ok hs hgr h.alone hw hwViews hu
      rw [hw'] at hw''
      cases hw''
      exact ⟨u', rfl, h.turn_own ht' hu'⟩
  | diagnose other located =>
    cases hc
    rw [perform_diagnose] at hok ⊢
    cases hv : t.validations[name]? with
    | none =>
      rw [hv] at hok
      cases hok
    | some v =>
      rw [hv] at hok
      cases hok
      obtain ⟨w, v', hw, hviews, hwViews⟩ := h.exists_alone hv
      refine ⟨u, ?_, h⟩
      rw [hw]
      dsimp only
      rw [hviews.shows.errors, hwViews.shows.errors]
  | _ => cases hc

/--
What is asked of other documents makes no difference to this one.
-/
theorem step_other {c : Command} (h : s.Mirrors name t u) (hs : s.Sound)
    (hgr : s.grammar = some gr) (hc : c.document?.isSome) (hname : c.document? ≠ some name)
    (hok : perform c t = .ok (answer, t')) : s.Mirrors name t' u := by
  cases c with
  | createValidation other =>
    have hother : name ≠ other := fun heq => hname (congrArg some heq.symm)
    rw [perform_createValidation (h.all.grammar.trans hgr)] at hok
    cases hok
    exact h.turn_other (took_createValidation hs hgr h.all) hother
  | take other event =>
    have hother : name ≠ other := fun heq => hname (congrArg some heq.symm)
    obtain ⟨-, v, -, hv⟩ := exists_of_perform_take hok
    obtain ⟨v', hviews⟩ := h.views other v hv
    obtain ⟨w', -, -, ht'⟩ := perform_take_ok hs hgr h.all hv hviews hok
    exact h.turn_other ht' hother
  | diagnose other located =>
    rw [perform_diagnose] at hok
    split at hok
    . cases hok
      exact h
    . cases hok
  | _ => cases hc

theorem run (h : s.Mirrors name t u) (hs : s.Sound) (hgr : s.grammar = some gr)
    (hcommands : ∀ c ∈ commands, c.document?.isSome)
    (hrun : run commands t = (answers, .ok t')) :
    ∃ u', Session.run (commands.filter (·.document? = some name)) u =
      (answersTo name commands answers, .ok u') ∧ s.Mirrors name t' u' := by
  induction commands generalizing t u answers with
  | nil =>
    cases hrun
    exact ⟨u, rfl, h⟩
  | cons c commands ih =>
    rw [List.forall_mem_cons] at hcommands
    unfold Session.run StateT.run at hrun
    split at hrun
    . cases hrun
    . next answer t₁ hok =>
      obtain ⟨rest, hrest⟩ : ∃ rest, Session.run commands t₁ = (rest, .ok t') :=
        ⟨_, Prod.ext rfl (Prod.mk.inj hrun).2⟩
      obtain rfl : answer :: rest = answers := by
        rw [hrest] at hrun
        exact (Prod.mk.inj hrun).1
      by_cases hname : c.document? = some name
      . obtain ⟨u₁, hu, h₁⟩ := h.step_own hs hgr hname hok
        obtain ⟨u', hu', h'⟩ := ih h₁ hcommands.2 hrest
        refine ⟨u', ?_, h'⟩
        rw [List.filter_cons_of_pos (by simpa using hname), Session.run, StateT.run, hu]
        dsimp only
        rw [hu']
        simp [answersTo, hname]
      . obtain ⟨u', hu', h'⟩ := ih (h.step_other hs hgr hcommands.1 hname hok) hcommands.2 hrest
        refine ⟨u', ?_, h'⟩
        rw [List.filter_cons_of_neg (by simpa using hname), hu']
        simp [answersTo, hname]

end Mirrors

/--
Documents that are validated against one grammar do not influence each other: if any requests about
documents are carried out, in any order, then those about one of them could be carried out without
the others, with the same answers, and would leave the document with the same mistakes and depth.
-/
theorem run_alone (hs : s.Reachable) (hgr : s.grammar = some gr)
    (hcommands : ∀ c ∈ commands, c.document?.isSome) (hrun : run commands s = (answers, .ok t)) :
    ∃ u, run (commands.filter (·.document? = some name)) s =
        (answersTo name commands answers, .ok u) ∧
      (u.validations[name]?.map fun v => (v.errors, v.depth)) =
        t.validations[name]?.map fun v => (v.errors, v.depth) := by
  obtain ⟨u, hu, h⟩ := Mirrors.run (.refl hs.sound) hs.sound hgr hcommands hrun
  refine ⟨u, hu, ?_⟩
  have hdocument := h.document
  generalize t.validations[name]? = v?, u.validations[name]? = w? at hdocument
  cases hdocument with
  | none => rfl
  | some hviews =>
    obtain ⟨v', hv, hw⟩ := hviews
    rw [Option.map_some, Option.map_some, hv.shows.errors, hw.shows.errors, Validation.depth,
      Validation.depth, hv.shows.elements.length_eq, hw.shows.elements.length_eq]

/--
The second document comes to the elements in the other order, before the first one does.
-/
theorem run_alone_interleaved :
    let tag (label : String) : Event := .startElement { name := ⟨"", label⟩ }
    let commands : List Command := [.createValidation "v", .createValidation "w",
      .take "v" (tag "a"), .take "w" (tag "a"), .take "w" (tag "c"), .take "w" .endElement,
      .take "v" (tag "b"), .take "v" (.characters "text"), .take "v" .endElement, .diagnose "w" true,
      .take "v" (tag "d"), .take "v" .endElement, .diagnose "v" true]
    ∃ s t u gr answers, s.Reachable ∧ s.grammar = some gr ∧
      (∀ c ∈ commands, c.document?.isSome) ∧ run commands s = (answers, .ok t) ∧
      run (commands.filter (·.document? = some "v")) s = (answersTo "v" commands answers, .ok u) ∧
      (u.validations["v"]?.map fun v => (v.errors, v.depth)) =
        t.validations["v"]?.map fun v => (v.errors, v.depth) := by
  intro tag commands
  let element (label : String) : Term := .element (.only ⟨"", label⟩) .anyString
  let grammar : Term := .element (.only ⟨"", "a"⟩) (.interleave (element "b") (element "c"))
  obtain ⟨s, hs, hp⟩ := Reachable.of_leadsTo (fun _ => .string) [.createGrammar grammar]
    (fun s => s.grammar.isSome && (run commands s).2.isOk) (by simp [Command.isLawful])
    (by decide +kernel)
  simp only [Bool.and_eq_true, Option.isSome_iff_exists] at hp
  obtain ⟨⟨gr, hgr⟩, hok⟩ := hp
  have hcommands : ∀ c ∈ commands, c.document?.isSome := by
    simp [commands, Command.document?]
  cases hrun : (run commands s).2 with
  | error h =>
    rw [hrun] at hok
    cases hok
  | ok t =>
    have hrun : run commands s = ((run commands s).1, .ok t) := Prod.ext rfl hrun
    obtain ⟨u, hu⟩ := run_alone hs hgr hcommands hrun
    exact ⟨s, t, u, gr, _, hs, hgr, hcommands, hrun, hu⟩

end Session

end TreeGrammar
