import TreeGrammar.Proofs.Operations

/-!
This module contains what the check of a schema protects from: whatever is done with matchers that have
begun with a checked expression, no reference is followed that has no definition, or that leads back to
itself before anything has been consumed.
-/

namespace TreeGrammar

open Relation

/--
The fault is that a reference has no definition, or that it leads back to itself before anything has
been consumed.
-/
def Fault.IsOfReference : Fault → Prop
  | .undefinedReference _ | .unguardedReference _ => True
  | _ => False

theorem Fault.Admissible.not_isOfReference {f : Fault} (h : f.Admissible True) :
    ¬ f.IsOfReference := by
  cases f with
  | undefinedReference | unguardedReference => exact absurd trivial h
  | _ => exact id

namespace Graph

/--
The work does not end with a fault of a reference.
-/
def Spares {α : Type} (g : Graph) (work : GraphM α) : Prop :=
  ∀ f, work g = .error f → ¬ f.IsOfReference

variable {α : Type} {g : Graph} {defs : Definitions} {s : Store} {work : GraphM α} {p : Prop}
variable {Q : α → Graph → Prop} {pending : Pending} {results : Results} {ids : List ExprId}
variable {id : ExprId}

theorem Returns.spares (h : Returns defs g work (Fault.Admissible p) Q) (hp : p) : g.Spares work :=
  fun f hf => ((h.error f hf).mono fun _ => hp).not_isOfReference

theorem Demanding.not_isOfReference {f : Fault} (h : Demanding s defs id f)
    (hid : Guarded s defs id) : ¬ f.IsOfReference := by
  rcases h with h | ⟨rfl, -⟩
  . exact (h.mono fun _ => hid).not_isOfReference
  . exact fun h => h

theorem dischargeAll_returns (pending : Pending) (hwithin : defs.Within s) (hg : g.Sound defs)
    (hs : s ≤ g.store) (hids : ∀ id ∈ ids, id ∈ s ∧ Guarded s defs id)
    (hresults : Consistent defs (IsBare defs False) g.store results) :
    Returns defs g ((ids.mapM (discharge defs pending)).run results) (Fault.Admissible True)
      fun _ _ => True := by
  induction ids generalizing g results with
  | nil => exact .pure hg trivial
  | cons id ids ih =>
    obtain ⟨⟨hid, hguarded⟩, hids⟩ := List.forall_mem_cons.1 hids
    have hdischarge : Returns defs g ((discharge defs pending id).run results) _ _ :=
      dischargeFrom_returns False.elim s hwithin [] id results hg hs hid False.elim hresults
    rw [List.mapM_cons, StateT.run_bind]
    refine Returns.bind (hdischarge.admissible fun _ => hguarded) ?_
    rintro ⟨_, found⟩ h hgh hh hfound
    rw [StateT.run_bind]
    refine Returns.bind (ih hh (le_trans hs (store_le hgh)) hids hfound.results) ?_
    exact fun _ _ _ hk _ => .pure hk trivial

theorem requireAll_returns (hwithin : defs.Within s) (hg : g.Sound defs) (hs : s ≤ g.store)
    (hids : ∀ id ∈ ids, id ∈ s ∧ Guarded s defs id)
    (hresults : Searched s defs [] results g.store) :
    Returns defs g ((ids.mapM (required defs)).run results) (¬ Fault.IsOfReference ·)
      fun _ _ => True := by
  induction ids generalizing g results with
  | nil => exact .pure hg trivial
  | cons id ids ih =>
    obtain ⟨⟨hid, hguarded⟩, hids⟩ := List.forall_mem_cons.1 hids
    have hrequired := required_returns s hwithin hg hs hid hresults
    rw [List.mapM_cons, StateT.run_bind]
    refine Returns.bind (hrequired.mono (fun f hf => hf.not_isOfReference hguarded)
      fun _ _ _ _ h => h) ?_
    rintro ⟨_, found⟩ h hgh hh ⟨hfound, -⟩
    rw [StateT.run_bind]
    refine Returns.bind (ih hh (le_trans hs (store_le hgh)) hids hfound) ?_
    exact fun _ _ _ hk _ => .pure hk trivial

end Graph

namespace Session

def Precedes : Session → Session → Prop :=
  ReflTransGen fun s t => ∃ c answer, c.isLawful ∧ perform c s = .ok (answer, t)

/--
The matcher under the name has begun with an expression that passed the check in `checked`, or with
a child of such a matcher, and things have been done to it since then.
-/
inductive Explored (checked : Session) : Session → String → Prop where
  | start {s name root} : checked.Precedes s → checked.schema.check root = .ok () →
    root ∈ checked.schema.graph.store → s.matchers[name]? = some (.ofContent root) →
    Explored checked s name
  | aside {s t c answer name} : Explored checked s name → c.isLawful →
    perform c s = .ok (answer, t) → t.matchers[name]? = s.matchers[name]? → Explored checked t name
  | operate {s t c answer name} : Explored checked s name → c.Addresses name →
    perform c s = .ok (answer, t) → Explored checked t name
  | enter {s t answer parent label child} : Explored checked s parent →
    perform (.enterChild parent label child) s = .ok (answer, t) → answer.fits →
    Explored checked t child

/--
The expression is what such a matcher has to read next, by one of its declarations or in all.
-/
def Faces (checked s : Session) (id : ExprId) : Prop :=
  ∃ name m, checked.Explored s name ∧ s.matchers[name]? = some m ∧
    (id = m.state ∨ ∃ slot ∈ m.slots, id = slot.content)

/--
The request is to do something with such a matcher.
-/
def Handles (checked s : Session) : Command → Prop
  | .readText m .. | .readAttribute m .. | .endAttributes m | .grantAttributes m | .enterChild m .. |
    .showMatcher m | .isAccepting m | .listSatisfied m => checked.Explored s m
  | .readChild m child _ => checked.Explored s m ∧ checked.Explored s child
  | _ => False

variable {checked s t : Session} {name : String} {id : ExprId} {c : Command} {f : Fault}
variable {answer : Answer} {m : Matcher}

namespace Precedes

theorem perform (h : checked.Precedes s) (hc : c.isLawful) (hperform : perform c s = .ok (answer, t)) :
    checked.Precedes t :=
  .tail h ⟨c, answer, hc, hperform⟩

theorem reachable (h : s.Precedes t) (hs : s.Reachable) : t.Reachable := by
  induction h with
  | refl => exact hs
  | tail _ hstep ih =>
    obtain ⟨c, answer, hc, hperform⟩ := hstep
    exact ih.perform hc hperform

theorem le (h : s.Precedes t) (hs : s.Reachable) : s.schema ≤ t.schema := by
  induction h with
  | refl => exact le_rfl
  | tail hst hstep ih =>
    obtain ⟨c, answer, hc, hperform⟩ := hstep
    exact le_trans ih ((perform_returns c hc (reachable hst hs).sound).ok _ _ hperform).1

end Precedes

theorem Explored.vets (h : checked.Explored s name) (hchecked : checked.Reachable) :
    checked.Precedes s ∧ s.Vets name := by
  -- what is vetted stays so in every later session, so each step has to answer only for what it changes
  induction h with
  | @start s name root hs hcheck hroot hm =>
    have hwithin := hchecked.sound.graph.within
    have hle := hs.le hchecked
    refine ⟨hs, _, hm, .ofContent ?_⟩
    exact Vetted.of_le ⟨hroot, Schema.check_ok hcheck⟩ (Graph.store_le hle.2) hle.1 hwithin
  | aside _ hc hperform hsame ih =>
    obtain ⟨hs, m, hm, hvetted⟩ := ih
    have hsound := (hs.reachable hchecked).sound
    obtain ⟨hst, -, -⟩ := (perform_returns _ hc hsound).ok _ _ hperform
    exact ⟨hs.perform hc hperform, m, hsame.trans hm,
      hvetted.of_le (Graph.store_le hst.2) hst.1 hsound.graph.within⟩
  | operate _ hc hperform ih =>
    obtain ⟨hs, m, hm, hvetted⟩ := ih
    obtain ⟨-, m', -, -, hm', hvetted', -⟩ :=
      operate_ok (hs.reachable hchecked).sound hm hvetted hc hperform
    exact ⟨hs.perform (isLawful_of_addresses hc) hperform, m', hm', hvetted'⟩
  | @enter s t answer parent label child _ hperform hfits ih =>
    obtain ⟨hs, m, hm, hvetted⟩ := ih
    have hsound := (hs.reachable hchecked).sound
    have henter : Returns True s (Session.perform (.enterChild parent label child)) _ _ :=
      enterChild_entered hsound hm hvetted
    obtain ⟨hst, -, hentered⟩ := henter.ok _ _ hperform
    obtain ⟨m', hm', hentered⟩ := hentered hfits
    refine ⟨hs.perform rfl hperform, m', hm', ?_⟩
    exact hentered.vetted.of_le le_rfl hst.1 (hsound.graph.within.of_le (Graph.store_le hst.2))

theorem Faces.guarded (h : checked.Faces s id) (hchecked : checked.Reachable) :
    id ∈ s.schema.graph.store ∧ Guarded s.schema.graph.store s.schema.definitions id := by
  obtain ⟨name, m, hexplored, hm, hid⟩ := h
  obtain ⟨-, m', hm', hvetted⟩ := hexplored.vets hchecked
  obtain rfl : m' = m := Option.some.inj (hm'.symm.trans hm)
  rcases hid with rfl | ⟨slot, hslot, rfl⟩
  . exact ⟨hvetted.within.state, hvetted.isGuarded.state⟩
  . exact ⟨(hvetted.within.slots slot hslot).2, hvetted.isGuarded.slots slot hslot⟩

theorem Handles.not_isOfReference (h : checked.Handles s c) (hchecked : checked.Reachable)
    (hperform : perform c s = .error (.fault f)) : ¬ f.IsOfReference := by
  have hvets {name : String} (h : checked.Explored s name) : s.Sound ∧ s.Vets name :=
    ⟨((h.vets hchecked).1.reachable hchecked).sound, (h.vets hchecked).2⟩
  have hoperate {name : String} (h : checked.Explored s name) (hc : c.Addresses name)
      (hguarded : s.ReadsGuarded c) : ¬ f.IsOfReference := by
    obtain ⟨hs, m, hm, hvetted⟩ := hvets h
    have hreturns : Returns True s (perform c) _ _ := operate_returns hs hm hvetted hc
    exact ((hreturns.error f hperform).mono fun _ => hguarded).not_isOfReference
  cases c with
  | readText | readAttribute | endAttributes | grantAttributes => exact hoperate h rfl trivial
  | readChild m child recovering =>
    -- the child has been explored too, so it can be told what it satisfies
    refine hoperate h.1 rfl fun m' hm' => ?_
    obtain ⟨-, m'', hm'', hvetted⟩ := hvets h.2
    obtain rfl : m'' = m' := Option.some.inj (hm''.symm.trans hm')
    exact hvetted.isGuarded
  | enterChild parent label child =>
    obtain ⟨hs, m, hm, hvetted⟩ := hvets h
    have henter : Returns True s (perform (.enterChild parent label child)) _ _ :=
      enterChild_entered hs hm hvetted
    exact (henter.error f hperform).not_isOfReference
  | showMatcher name =>
    obtain ⟨hs, m, hm, -⟩ := hvets h
    have hshow : perform (.showMatcher name) s = .ok (.matcher m, s) :=
      bind_of_ok (matcherNamed_apply hm)
    rw [hshow] at hperform
    cases hperform
  | isAccepting name =>
    obtain ⟨hs, m, hm, hvetted⟩ := hvets h
    obtain ⟨limit, hlimit⟩ := (perform_isAccepting hs hm hvetted).1 _ hperform
    cases hlimit
    exact id
  | listSatisfied name =>
    obtain ⟨hs, m, hm, hvetted⟩ := hvets h
    have hlist : Returns True s (listSatisfied name) _ _ := listSatisfied_returns hs
    refine ((hlist.error f hperform).mono fun _ m' hm' => ?_).not_isOfReference
    obtain rfl : m' = m := Option.some.inj (hm'.symm.trans hm)
    exact hvetted.isGuarded
  | _ => exact h.elim

/--
Once an expression has passed the check, matchers that begin with it never come across a reference
without a definition or one that leads back to itself: neither in what is done with the expressions
that they have to read next, nor in any request that is about them.
-/
theorem no_fault_of_reference (hchecked : checked.Reachable) (hs : checked.Precedes s) :
    let g := s.schema.graph
    let defs := s.schema.definitions
    (∀ id, checked.Faces s id →
      (∀ token, g.Spares (Graph.derivative defs token id)) ∧ g.Spares (Graph.isNullable defs id) ∧
        (∀ label, g.Spares (Graph.candidates defs id label)) ∧
        g.Spares (Graph.describeHeads defs id)) ∧
      (∀ ids : List ExprId, (∀ id ∈ ids, checked.Faces s id) →
        (∀ pending, g.Spares ((ids.mapM (Graph.discharge defs pending)).run' ∅)) ∧
          g.Spares ((ids.mapM (Graph.required defs)).run' ∅)) ∧
      ∀ c, checked.Handles s c → ∀ f, perform c s = .error (.fault f) → ¬ f.IsOfReference := by
  intro g defs
  have hg := (hs.reachable hchecked).sound.graph
  refine ⟨fun id hid => ?_, fun ids hids => ?_, fun c hc f => hc.not_isOfReference hchecked⟩
  . obtain ⟨hmem, hguarded⟩ := hid.guarded hchecked
    refine ⟨fun token => ?_, ?_, fun label => ?_, ?_⟩
    . exact (Graph.derivative_returns hg hmem).spares hguarded
    . exact (Graph.isNullable_yields hg hmem).returns.spares hguarded
    . exact (Graph.candidates_returns hg hmem).spares hguarded
    . exact (Graph.describeHeads_returns hg hmem).spares hguarded
  . have hids (id : ExprId) (hid : id ∈ ids) := (hids id hid).guarded hchecked
    refine ⟨fun pending => ?_, ?_⟩
    . rw [StateT.run'_eq]
      have hdischarge := Graph.dischargeAll_returns pending hg.within hg le_rfl hids .empty
      exact (hdischarge.map (R := fun _ _ => True) fun _ _ _ _ _ => trivial).spares trivial
    . rw [StateT.run'_eq]
      have hrequire := Graph.requireAll_returns hg.within hg le_rfl hids .empty
      exact (hrequire.map (R := fun _ _ => True) fun _ _ _ _ _ => trivial).error

/--
Elements that contain nothing or an element of the same kind: the reference by which they do so can
be followed in the content of a child.
-/
theorem no_fault_of_reference_recursion :
    ∃ (checked s : Session) (id : ExprId) (r : RefId), checked.Reachable ∧ checked.Precedes s ∧
      checked.Faces s id ∧ s.schema.graph.store.node id = .reference r ∧
      (∀ token, s.schema.graph.Spares (Graph.derivative s.schema.definitions token id)) ∧
      ∀ f, perform (.endAttributes "c") s = .error (.fault f) → ¬ f.IsOfReference := by
  let content : Term := .choice .epsilon (.element .any (.variable "r"))
  obtain ⟨s, hs, hp⟩ := Reachable.of_leadsTo (fun _ => .string)
    [.bind "r" (.reference "r"), .define (.variable "r") content, .createMatcher "m" (.variable "r")]
    (fun s => s.matchers["m"]?.any fun m => m = .ofContent m.state &&
      s.schema.check m.state = .ok () &&
      yields (.enterChild "m" ⟨"", "a"⟩ "c") s fun answer t => answer.fits &&
        t.matchers["c"]?.any fun child => t.schema.graph.store.node child.state = .reference ⟨0⟩)
    (by simp [Command.isLawful]) (by decide +kernel)
  simp only [yields_iff, Option.any_eq_true, Bool.and_eq_true, decide_eq_true_eq] at hp
  obtain ⟨m, hm, ⟨hcontent, hcheck⟩, answer, t, hperform, hfits, child, hchild, hn⟩ := hp
  have hid : m.state ∈ s.schema.graph.store := (hs.sound.matchers "m" _ hm).state
  rw [hcontent] at hm
  have hexplored : s.Explored t "c" := .enter (.start .refl hcheck hid hm) hperform hfits
  have hfaces : s.Faces t child.state := ⟨"c", child, hexplored, hchild, Or.inl rfl⟩
  have hst : s.Precedes t := (hexplored.vets hs).1
  obtain ⟨hexpressions, -, hrequests⟩ := no_fault_of_reference hs hst
  exact ⟨s, t, child.state, ⟨0⟩, hs, hst, hfaces, hn, (hexpressions child.state hfaces).1,
    hrequests (.endAttributes "c") hexplored⟩

end Session

end TreeGrammar
