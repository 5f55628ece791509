import TreeGrammar.Proofs.Attributes
import TreeGrammar.Proofs.Calculation
import TreeGrammar.Proofs.Operations

/-!
This module contains what the end of a start tag makes of what has to follow. Pending attributes are
discharged in all that a matcher may have to read next, and nothing else changes: without them it stands
for what it has stood for, it is the same expression if there are none, and there are none from then on.
-/

namespace TreeGrammar

open Relation StoreState

namespace Form.Matcher

theorem value_endAttributes? (m : Matcher) : m.endAttributes?.value =
    if (m.state.discharge .missing).value = .nullSet then none
    else some (m.discharge .missing (m.state.discharge .missing).value).value := by
  rw [endAttributes?, Plan.value_bind]
  split <;> rfl

end Form.Matcher

namespace Matcher

variable {s t : Store} {defs defs' : Definitions} {m r : Matcher} {m' : Form.Matcher}
variable {pending : Pending} {rel : ExprId → ExprId → Prop}

theorem becomes_of_discharge (hm : s.ShowsMatcher defs m m')
    (hr : t.ShowsMatcher defs' r
      (m'.discharge pending (m'.state.discharge pending).value).value)
    (hrel : ∀ id e i, s.Shows defs id e → t.Shows defs' i (e.discharge pending).value → rel id i) :
    m.Becomes rel r := by
  have hstate (i : ExprId) := hrel _ _ i hm.state
  cases m' with
  | single state' owner =>
    cases m with
    | several => exact hm.elim
    | single state _ =>
      obtain ⟨-, rfl⟩ := hm
      cases r with
      | several => exact hr.elim
      | single rest _ =>
        obtain ⟨hrest, rfl⟩ := hr
        have hstate := hstate rest hrest
        refine ⟨hstate, ?_⟩
        cases ‹Option ExprId› with
        | none => exact .nil
        | some owner => exact .cons ⟨rfl, hstate⟩ .nil
  | several state' slots' =>
    cases m with
    | single => exact hm.elim
    | several state slots =>
      obtain ⟨-, hslots⟩ := hm
      cases r with
      | single => exact hr.elim
      | several rest slots'' =>
        obtain ⟨hrest, hrests⟩ := hr
        refine ⟨hstate rest hrest, ?_⟩
        rw [Plan.value_mapM] at hrests
        clear hstate hrest
        induction hslots generalizing slots'' with
        | nil =>
          cases hrests
          exact .nil
        | cons hslot _ ih =>
          cases hrests with
          | cons hrest hrests =>
            exact .cons ⟨hrest.1.trans hslot.1.symm, hrel _ _ _ hslot.2 hrest.2⟩ (ih _ hrests)

end Matcher

namespace Graph

theorem run_discharge_carries {defs : Definitions} {g : Graph} {id : ExprId} {e : Form}
    {pending : Pending} (hg : g.Sound defs) (h : g.store.Shows defs id e) :
    Carries defs g ((discharge defs pending id).run' ∅) (e.discharge pending)
      (Store.Shows · defs) := by
  rw [StateT.run'_eq, map_eq_pure_bind]
  exact (discharge_carries hg h .empty).wrap fun _ _ _ _ hr => hr.1

end Graph

namespace Session

def discharge (pending : Pending) (id : ExprId) : SessionM ExprId :=
  onGraph fun defs => (Graph.discharge defs pending id).run' ∅

/--
All that the matcher may have to read next passes the check.
-/
structure Checks (s : Session) (m : Matcher) : Prop where
  state : s.schema.check m.state = .ok ()
  slots : ∀ slot ∈ m.slots, s.schema.check slot.content = .ok ()

/--
In the session `t`, `r` is what is left of the expression when its pending attributes have been
discharged.
-/
structure Discharges (s : Session) (pending : Pending) (id r : ExprId) (t : Session) : Prop where
  has : t.Has r
  language : ∃ e, s.Shows id e ∧ s.language id = e.language ∧
    ∀ u, t.Develops u → u.language r = e.languageWith fun _ _ => pending.language
  bare : pending = .missing → ∀ u, t.Develops u → u.language r = Language.bare (s.language id)
  eq_iff : r = id ↔ ¬ ExposesAttribute s.schema.graph.store s.schema.definitions id
  again : ∀ u, t.Develops u → ∀ other, ∃ v, discharge other r u = .ok (r, v) ∧
    v.schema.graph.store.size = u.schema.graph.store.size

/--
At the end of the start tag the matcher `m` is found to be what `t` has under its name.
-/
structure EndsStartTag (s : Session) (name : String) (m : Matcher) (answer : Answer) (t : Session) :
    Prop where
  refused_iff : ∀ u, s.Develops u → u.Completes (discharge .missing m.state) fun r _ =>
    answer.fits = false ↔ r = .nullSet
  others : ∀ other, name ≠ other → t.matchers[other]? = s.matchers[other]?
  keeps : answer.fits = false → t.matchers[name]? = some m
  discharges : answer.fits = true → ∃ m', t.matchers[name]? = some m' ∧
    m.Becomes (fun id r => s.Discharges .missing id r t) m'

/--
Whatever attributes the matcher has had to wait for, it is not refused.
-/
structure GrantsStartTag (s : Session) (name : String) (m : Matcher) (answer : Answer) (t : Session) :
    Prop where
  fits : answer.fits = true
  others : ∀ other, name ≠ other → t.matchers[other]? = s.matchers[other]?
  discharges : ∃ m', t.matchers[name]? = some m' ∧
    m.Becomes (fun id r => s.Discharges .granted id r t) m'

def ShowsMatcher (s : Session) (m : Matcher) (m' : Form.Matcher) : Prop :=
  s.schema.graph.store.ShowsMatcher s.schema.definitions m m'

variable {α : Type} {s t : Session} {id r : ExprId} {e : Form} {m : Matcher} {m' : Form.Matcher}
variable {pending : Pending} {name : String} {h : Halt}

theorem exists_fault_of_advance {read? : Definitions → Matcher → GraphM (Option Matcher)}
    (hm : s.matchers[name]? = some m) (hadvance : advance name read? s = .error h) :
    ∃ f, h = .fault f := by
  unfold advance at hadvance
  rw [bind_of_ok (matcherNamed_apply hm)] at hadvance
  rcases bind_eq_error hadvance with hrun | ⟨_, _, _, hkeep⟩
  . exact exists_fault_of_onGraph hrun
  . cases hkeep

theorem Checks.isVetted (h : s.Checks m) (hm : m.Within s.schema.graph.store) :
    m.IsVetted s.schema.graph.store s.schema.definitions where
  state := Or.inr (.base ⟨hm.state, Schema.check_ok h.state⟩)
  slots slot hslot := ⟨(hm.slots slot hslot).1,
    Or.inr (.base ⟨(hm.slots slot hslot).2, Schema.check_ok (h.slots slot hslot)⟩)⟩

theorem Checks.shows (h : s.Checks m) (hs : s.Sound) (hm : s.matchers[name]? = some m) :
    s.ShowsMatcher m (m.form s.schema.graph.store s.schema.definitions) :=
  (h.isVetted (hs.matchers name m hm)).shows hs.graph.within

theorem advance_completes {read? : Definitions → Matcher → GraphM (Option Matcher)} {o : Operation}
    (hs : s.Sound) (hm : s.matchers[name]? = some m)
    (hread : Graph.Returns s.schema.definitions s.schema.graph (read? s.schema.definitions m)
      (Fault.Admissible True) fun m? g =>
      Matcher.Operated s.schema.definitions o s.schema.graph.store g.store m m?)
    (huniform : IsUniform (advance name read?)) :
    s.Completes (advance name read?) fun answer t => s.schema ≤ t.schema ∧ t.Sound ∧
      Alters (name = ·) (fun _ => False) s t ∧ ∃ m?,
        Option.Rel t.ShowsMatcher m?
          ((m.form s.schema.graph.store s.schema.definitions).operate? o).value ∧
        answer.fits = m?.isSome ∧ t.matchers[name]? = some (m?.getD m) := by
  have hunique {m₀ : Matcher} (hm₀ : s.matchers[name]? = some m₀) : m₀ = m :=
    Option.some.inj (hm₀.symm.trans hm)
  let P (_ : Matcher) (m? : Option Matcher) (g : Graph) : Prop :=
    Matcher.Operated s.schema.definitions o s.schema.graph.store g.store m m?
  have hadvance : Returns True s (advance name read?) (Fault.Admissible True)
      (Advances name P s) := by
    refine advance_returns hs ?_ ?_
    . rintro m₀ hm₀
      rw [hunique hm₀]
      exact hread
    . exact fun _ r g _ _ hP => (hP.vetted r rfl).within
  refine ⟨?_, exists_room huniform s, ?_⟩
  . intro h hrun
    obtain ⟨f, rfl⟩ := exists_fault_of_advance hm hrun
    obtain ⟨limit, rfl⟩ := (hadvance.error f hrun).exists_limit
    exact ⟨limit, rfl⟩
  . intro answer t hrun
    obtain ⟨hst, ht, hadvances⟩ := hadvance.ok answer t hrun
    obtain ⟨m₀, m?, hm₀, hP, hfits, hname⟩ := hadvances.read
    rw [hunique hm₀] at hname
    have hrel := hP.rel (hadvances.definitions ▸ ht.graph.within) le_rfl hst.1
    exact ⟨hst, ht, hadvances.alters, m?, hrel, hfits, hname⟩

theorem discharge_completes (hs : s.Sound) (h : s.Shows id e) :
    s.Completes (discharge pending id) fun r t =>
      s.schema ≤ t.schema ∧ t.Sound ∧ t.Shows r (e.discharge pending).value := by
  have hcompletes : s.Completes (discharge pending id) _ :=
    .of_carries hs (Graph.run_discharge_carries hs.graph h) fun _ =>
      (Graph.dischargeFrom_uniform [] id).run' ∅
  refine hcompletes.imp fun r t _ hr => ?_
  obtain ⟨hst, ht, hdefs, hr⟩ := hr
  exact ⟨hst, ht, by rwa [Shows, hdefs]⟩

theorem exists_discharge (hs : s.Sound) (h : s.Shows id e) (hnone : e.attributes = []) :
    ∃ t, discharge pending id s = .ok (id, t) ∧
      t.schema.graph.store.size = s.schema.graph.store.size := by
  have hcarries : Graph.Carries s.schema.definitions s.schema.graph _ (e.discharge pending) _ :=
    Graph.run_discharge_carries hs.graph h
  rw [Form.discharge_of_attributes_eq_nil hnone] at hcarries
  obtain ⟨r, g, hrun, hle, _, hr, hsize⟩ := hcarries.exists_of_built_eq_nil rfl
  obtain rfl : r = id := hr.injective (Store.Shows.of_le h (Graph.store_le hle) le_rfl)
  refine ⟨{ s with schema := { s.schema with graph := g } }, ?_, hsize⟩
  rw [discharge, onGraph_apply, hrun]

theorem Discharges.of_shows (h : s.Shows id e) (ht : t.Sound) (hst : s.schema ≤ t.schema)
    (hr : t.Shows r (e.discharge pending).value) : s.Discharges pending id r t := by
  have hlanguage : s.language id = e.language := Store.Shows.language_eq h
  have hrLanguage (u : Session) (htu : t.Develops u) :
      u.language r = e.languageWith fun _ _ => pending.language :=
    (Store.Shows.language_eq (hr.of_le (htu.le_and_sound ht).1)).trans Form.languageWith_discharge
  refine ⟨hr.mem, ⟨e, h, hlanguage, hrLanguage⟩, ?_, ?_, ?_⟩
  . rintro rfl u htu
    rw [hrLanguage u htu, hlanguage, Form.bare_language]
    rfl
  . rw [Store.Shows.eq_iff hr (h.of_le hst), Form.discharge_eq_self_iff,
      Store.Shows.attributes_eq_nil_iff h]
  . intro u htu other
    obtain ⟨hle, hu⟩ := htu.le_and_sound ht
    exact exists_discharge hu (hr.of_le hle) Form.attributes_discharge

theorem endAttributes_planned (hs : s.Sound) (hm : s.matchers[name]? = some m)
    (hchecks : s.Checks m) :
    s.Completes (perform (.endAttributes name)) fun answer t => s.EndsStartTag name m answer t ∧
      (answer.fits = false ↔ ((m.form s.schema.graph.store s.schema.definitions).state.discharge
        .missing).value = .nullSet) := by
  have hshows := hchecks.shows hs hm
  have hvetted := hchecks.isVetted (hs.matchers name m hm)
  have hcompletes : s.Completes (perform (.endAttributes name)) _ :=
    advance_completes hs hm (Matcher.endAttributes?_operated hs.graph hvetted)
      (perform_uniform (.endAttributes name) (by simp))
  refine hcompletes.imp ?_
  rintro answer t - ⟨hst, ht, halters, m?, hrel, hfits, hname⟩
  rw [Form.Matcher.operate?, Form.Matcher.value_endAttributes?] at hrel
  have hrefused : answer.fits = false ↔ ((m.form s.schema.graph.store
      s.schema.definitions).state.discharge .missing).value = .nullSet := by
    rw [hfits]
    split at hrel
    . next hnull =>
      cases hrel
      exact iff_of_true rfl hnull
    . next hnull =>
      cases hrel
      exact iff_of_false (by simp) hnull
  refine ⟨⟨fun u hsu => ?_, halters.matchers, fun hnone => ?_, fun hsome => ?_⟩, hrefused⟩
  . obtain ⟨hle, hu⟩ := hsu.le_and_sound hs
    refine (discharge_completes hu (hshows.state.of_le (Graph.store_le hle.2) hle.1)).imp ?_
    rintro r v - ⟨-, -, hr⟩
    rw [hrefused, Store.Shows.eq_nullSet_iff hr]
  . rw [hfits, Option.isSome_eq_false_iff, Option.isNone_iff_eq_none] at hnone
    rw [hname, hnone, Option.getD_none]
  . rw [if_neg (mt hrefused.2 (by simp [hsome]))] at hrel
    cases hrel with
    | some hr =>
      exact ⟨_, hname, Matcher.becomes_of_discharge hshows hr fun _ _ _ hid hi =>
        Discharges.of_shows hid ht hst hi⟩

theorem grantAttributes_completes (hs : s.Sound) (hm : s.matchers[name]? = some m)
    (hchecks : s.Checks m) :
    s.Completes (perform (.grantAttributes name)) (s.GrantsStartTag name m) := by
  have hshows := hchecks.shows hs hm
  have hvetted := hchecks.isVetted (hs.matchers name m hm)
  have hgrants := Matcher.grantAttributes_operated hs.graph hvetted
  have hcompletes : s.Completes (perform (.grantAttributes name)) _ :=
    advance_completes hs hm (Graph.Returns.bind hgrants fun _ _ _ hh hr => .pure hh hr)
      (perform_uniform (.grantAttributes name) (by simp))
  refine hcompletes.imp ?_
  rintro answer t - ⟨hst, ht, halters, m?, hrel, hfits, hname⟩
  obtain ⟨m', rfl, hr⟩ : ∃ m', m? = some m' ∧ t.ShowsMatcher m' _ := by
    cases hrel with
    | some hr => exact ⟨_, rfl, hr⟩
  exact ⟨hfits, halters.matchers, m', hname, Matcher.becomes_of_discharge hshows hr
    fun _ _ _ hid hi => Discharges.of_shows hid ht hst hi⟩

/--
Discharging the attributes of a checked expression does what it is meant to do: missing attributes
are read as nothing and granted ones as no content. At the end of a start tag that is what becomes
of all that the matcher may have to read next, and the start tag is refused exactly if nothing is
left then. That the matcher `Checks` asks the check of its state and of every slot.
-/
theorem attributes_discharged (hs : s.Arises) :
    (∀ pending id, s.Has id → s.schema.check id = .ok () →
      s.Completes (discharge pending id) (s.Discharges pending id)) ∧
    ∀ name m, s.matchers[name]? = some m → s.Checks m →
      s.Completes (perform (.endAttributes name)) (s.EndsStartTag name m) ∧
        s.Completes (perform (.grantAttributes name)) (s.GrantsStartTag name m) := by
  have hs := hs.sound
  refine ⟨fun pending id hid hcheck => ?_, fun name m hm hchecks =>
    ⟨(endAttributes_planned hs hm hchecks).imp fun _ _ _ h => h.1,
      grantAttributes_completes hs hm hchecks⟩⟩
  have hshows := shows_of_check hs hid hcheck
  refine (discharge_completes hs hshows).imp ?_
  rintro r t - ⟨hst, ht, hr⟩
  exact .of_shows hshows ht hst hr

/--
An attribute is optional, and another one is an alternative to a child element behind a reference.
Where a third one is required besides, the start tag is refused.
-/
theorem attributes_discharged_reference :
    ∃ s id r t m answer u, s.Arises ∧ s.Has id ∧ s.schema.check id = .ok () ∧
      discharge .missing id s = .ok (r, t) ∧ r ≠ id ∧ r ≠ .nullSet ∧
      s.Discharges .missing id r t ∧
      s.matchers["m"]? = some m ∧ s.Checks m ∧ perform (.endAttributes "m") s = .ok (answer, u) ∧
      answer.fits = false ∧ s.EndsStartTag "m" m answer u := by
  let a : Term := .attribute .any .anyString
  obtain ⟨s, hs, hp⟩ := Reachable.of_leadsTo (fun _ => .string)
    [.bind "x" (.element .any .epsilon), .bind "r" (.reference "r"),
      .define (.variable "r") (.choice a (.variable "x")),
      .bind "e" (.interleave (.optional a) (.variable "r")),
      .createMatcher "m" (.sequence a (.variable "e"))]
    (fun s => s.bindings["e"]?.any fun id => s.matchers["m"]?.any fun m =>
      s.schema.check id = .ok () && s.schema.check m.state = .ok () && m.slots.isEmpty &&
        (discharge .missing id s).toOption.any (fun p => p.1 ≠ id && p.1 ≠ .nullSet) &&
        yields (.endAttributes "m") s fun answer _ => !answer.fits)
    (by simp [Command.isLawful]) (by decide +kernel)
  obtain ⟨id, hid, hp⟩ := (Option.any_eq_true _ _).1 hp
  obtain ⟨m, hm, hp⟩ := (Option.any_eq_true _ _).1 hp
  simp only [Bool.and_eq_true, decide_eq_true_eq, List.isEmpty_iff] at hp
  obtain ⟨⟨⟨⟨hcheck, hstate⟩, hslots⟩, hdischarge⟩, hyields⟩ := hp
  have hid := hs.sound.bindings _ id hid
  have hchecks : s.Checks m := ⟨hstate, by simp [hslots]⟩
  obtain ⟨⟨r, t⟩, hrun, hr⟩ := exists_of_any_toOption hdischarge
  obtain ⟨answer, u, hperform, hrefused⟩ := yields_iff.1 hyields
  simp only [Bool.and_eq_true, decide_eq_true_eq] at hr
  obtain ⟨hdischarges, hmatchers⟩ := attributes_discharged hs.arises
  exact ⟨s, id, r, t, m, answer, u, hs.arises, hid, hcheck, hrun, hr.1, hr.2,
    (hdischarges .missing id hid hcheck).ok r t hrun, hm, hchecks, hperform, by simpa using hrefused,
    (hmatchers "m" m hm hchecks).1.ok answer u hperform⟩

end Session

end TreeGrammar
