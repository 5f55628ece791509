import Mathlib.Data.Fin.VecNotation
import TreeGrammar.Proofs.Abreast
import TreeGrammar.Proofs.Protection

/-!
This module contains that a matcher that follows several declarations does what the matchers of the
single declarations do side by side: it goes on as long as one of them does, and it has kept what is
left by each of them that has gone on with it.
-/

namespace TreeGrammar

theorem Store.Shows.mem_alternatives_iff {s : Store} {defs : Definitions} {id x : ExprId} {e : Form}
    (h : s.Shows defs id e) :
    x ∈ s.alternatives id ↔ ∃ e' ∈ e.alternatives, s.Shows defs x e' := by
  have hall := h.alternatives
  generalize s.alternatives id = ids, e.alternatives = forms at hall
  induction hall with
  | nil => simp
  | cons hy _ ih =>
    rw [List.mem_cons, List.exists_mem_cons_iff]
    exact or_congr ⟨fun hx => hx ▸ hy, fun hx => hx.injective hy⟩ ih

namespace Matcher

variable {s : Store} {defs : Definitions} {m : Matcher} {e state : Form} {owner : Option ExprId}
variable {n : Nat} {owners : Fin n → ExprId} {contents : Fin n → Form}

theorem eq_single_of_form (hm : s.ShowsMatcher defs m (.single e owner)) :
    ∃ id, m = .single id owner ∧ s.Shows defs id e := by
  cases m with
  | single id owner' =>
    obtain ⟨hid, rfl⟩ := hm
    exact ⟨id, rfl, hid⟩
  | several => exact hm.elim

theorem eq_several_of_form (hm : s.ShowsMatcher defs m (.abreast state owners contents)) :
    ∃ (id : ExprId) (ids : Fin n → ExprId),
      m = .several id (List.ofFn fun i => ⟨owners i, ids i⟩) ∧ s.Shows defs id state ∧
        ∀ i, s.Shows defs (ids i) (contents i) := by
  cases m with
  | single => exact hm.elim
  | several id slots =>
    obtain ⟨hid, hslots⟩ := hm
    obtain ⟨hlength, hget⟩ := List.forall₂_iff_get.1 hslots
    rw [List.length_ofFn] at hlength
    subst hlength
    have hslot (i : Fin slots.length) : s.ShowsSlot defs slots[i] ⟨owners i, contents i⟩ := by
      simpa using hget i i.2 (by simp)
    refine ⟨id, fun i => slots[i].content, ?_, hid, fun i => (hslot i).2⟩
    congr 1
    apply List.ext_getElem
    . simp
    . intro i hi _
      have howner : slots[i].owner = owners ⟨i, hi⟩ := (hslot ⟨i, hi⟩).1
      rw [List.getElem_ofFn, ← howner]
      rfl

end Matcher

namespace Session

/--
The matcher under the name has just been made for a child for which several declarations are
possible.
-/
def Joined (checked s : Session) (name : String) (slots : List Slot) : Prop :=
  ∃ before answer parent label state, checked.Explored before parent ∧
    perform (.enterChild parent label name) before = .ok (answer, s) ∧ answer.fits ∧
    s.matchers[name]? = some (.several state slots)

/--
The matcher under the name has just been made for the content of the declaration.
-/
def Starts (checked s : Session) (owner : ExprId) (name : String) : Prop :=
  checked.Precedes s ∧ ∃ names content owner?,
    s.schema.graph.store.node owner = .element names content ∧
    s.matchers[name]? = some (.single content owner?)

/--
Operations are done to the matcher of the name one after the other, and `fits` tells which of them
fit. Nothing else is done to the matcher.
-/
inductive Undergoes (name : String) : Session → List Operation → List Bool → Session → Prop where
  | nil {s} : Undergoes name s [] [] s
  | aside {s t u c answer ops fits} : c.isLawful → ¬ c.Replaces name →
    perform c s = .ok (answer, t) → Undergoes name t ops fits u → Undergoes name s ops fits u
  | operate {s t u c o answer ops fits} : s.Operates name c o → perform c s = .ok (answer, t) →
    Undergoes name t ops fits u → Undergoes name s (o :: ops) (answer.fits :: fits) u

structure Outlasts (s : Session) (name : String) (form : Form.Matcher) (ops : List Operation)
    (fits : List Bool) (m : Matcher) : Prop where
  tried : fits = form.tried ops
  get : s.matchers[name]? = some m
  vetted : m.IsVetted s.schema.graph.store s.schema.definitions
  rest : m.form s.schema.graph.store s.schema.definitions = form.rest ops

/--
The matcher of the name, which follows several declarations, has done what the matchers that follow
one of them each have done side by side. `fits` and `own` tell which operations have fitted.
-/
structure IsProduct {n : Nat} (s : Session) (name : String) (owners : Fin n → ExprId)
    (single : Fin n → String) (fits : List Bool) (own : Fin n → List Bool) : Prop where
  fits_iff : ∀ k < fits.length, fits[k]? = some true ↔
    ∃ i, KeepsUp fits (own i) k ∧ (own i)[k]? = some true
  contents : ∃ (state : ExprId) (contents : Fin n → ExprId),
    s.matchers[name]? = some (.several state (List.ofFn fun i => ⟨owners i, contents i⟩)) ∧
      (∀ i, ∃ rest owner?, s.matchers[single i]? = some (.single rest owner?) ∧
        contents i = if KeepsUp fits (own i) fits.length then rest else .nullSet) ∧
      ∀ x, x ∈ s.schema.graph.store.alternatives state ↔
        ∃ i, x ∈ s.schema.graph.store.alternatives (contents i)
  accepting_iff : ∀ accepting declarations t u,
    perform (.isAccepting name) s = .ok (.accepting accepting, t) →
    perform (.listSatisfied name) s = .ok (.satisfied declarations, u) →
    (accepting = true ↔ declarations ≠ [])
  satisfied : ∀ declarations t,
    perform (.listSatisfied name) s = .ok (.satisfied declarations, t) →
    ∀ accepting : Fin n → Bool,
      (∀ i, ∃ t, perform (.isAccepting (single i)) s = .ok (.accepting (accepting i), t)) →
      declarations = ((List.finRange n).filter fun i =>
        KeepsUp fits (own i) fits.length ∧ accepting i = true).map owners
  faults : ∀ m, m = name ∨ (∃ i, m = single i) →
    (∀ c f, c.Addresses m → perform c s = .error (.fault f) → f.Admissible (s.ReadsGuarded c)) ∧
      ∀ c ∈ [.isAccepting m, .listSatisfied m], ∀ h, perform c s = .error h →
        ∃ limit, h = .fault (.limitExceeded limit)

variable {checked s t : Session} {name : String} {m : Matcher} {o : Operation} {c : Command}
variable {ops : List Operation} {fits : List Bool} {slots : List Slot} {owner id : ExprId}

theorem eq_of_carries {α : Type} {work : Definitions → GraphM α} {a b : α} (hwork : Graph.Carries
      s.schema.definitions s.schema.graph (work s.schema.definitions) (pure b : Plan α)
      fun _ a b => a = b)
    (hrun : onGraph work s = .ok (a, t)) : a = b := by
  rw [onGraph_apply] at hrun
  split at hrun
  . next heq =>
    cases hrun
    exact (hwork.ok _ _ heq).2.2.1
  . cases hrun

def SticksTo (checked s : Session) (m : Matcher) : Prop :=
  (m.form s.schema.graph.store s.schema.definitions).All
    (Form.Proper (Head.IsVetted checked.schema.graph.store checked.schema.definitions))

theorem form_of_vetted (hchecked : checked.Sound) (hle : checked.schema ≤ s.schema)
    (hid : Vetted checked.schema.graph.store checked.schema.definitions id) :
    s.schema.graph.store.form s.schema.definitions id =
      checked.schema.graph.store.form checked.schema.definitions id :=
  ((hid.shows hchecked.graph.within).of_le (Graph.store_le hle.2) hle.1).form_eq

theorem proper_of_vetted (hchecked : checked.Sound) (hle : checked.schema ≤ s.schema)
    (hid : Vetted checked.schema.graph.store checked.schema.definitions id) :
    (s.schema.graph.store.form s.schema.definitions id).Proper
      (Head.IsVetted checked.schema.graph.store checked.schema.definitions) := by
  rw [form_of_vetted hchecked hle hid]
  exact hid.proper hchecked.graph.within hchecked.graph.reduced

theorem Explored.sticksTo (h : checked.Explored s name) (hchecked : checked.Reachable)
    (hm : s.matchers[name]? = some m) : checked.SticksTo s m := by
  have hsound := hchecked.sound
  have hP := Form.stable_proper (Head.IsVetted checked.schema.graph.store checked.schema.definitions)
  -- by how the matcher has come about: whatever is made of proper forms is proper
  induction h generalizing m with
  | @start s name root hs hcheck hroot hm' =>
    obtain rfl := Option.some.inj (hm'.symm.trans hm)
    have hvetted := Schema.check_ok hcheck
    exact proper_of_vetted hsound (hs.le hchecked) ⟨hroot, hvetted⟩
  | @aside s t c answer name hexplored hc hperform hsame ih =>
    obtain ⟨hs, m', hm', hvetted⟩ := hexplored.vets hchecked
    obtain rfl : m' = m := Option.some.inj (hm'.symm.trans (hsame.symm.trans hm))
    have hs := (hs.reachable hchecked).sound
    obtain ⟨hst, -, -⟩ := (perform_returns _ hc hs).ok _ _ hperform
    rw [SticksTo, hvetted.form_of_le hs.graph.within (Graph.store_le hst.2) hst.1]
    exact ih hm'
  | @operate s t c answer name hexplored hc hperform ih =>
    obtain ⟨hs, m', hm', hvetted⟩ := hexplored.vets hchecked
    obtain ⟨o, r, -, -, hr, -, hform⟩ :=
      operate_ok (hs.reachable hchecked).sound hm' hvetted hc hperform
    obtain rfl : r = m := Option.some.inj (hr.symm.trans hm)
    rw [SticksTo, hform]
    exact Form.Matcher.all_step hP (ih hm') o
  | @enter s t answer parent label child hexplored hperform hfits ih =>
    obtain ⟨hs, m', hm', hvetted⟩ := hexplored.vets hchecked
    have hle := hs.le hchecked
    have hs := (hs.reachable hchecked).sound
    have henter : Returns True s (Session.perform (.enterChild parent label child)) _ _ :=
      enterChild_entered hs hm' hvetted
    obtain ⟨hst, -, hentered⟩ := henter.ok _ _ hperform
    obtain ⟨r, hr, hentered⟩ := hentered hfits
    obtain rfl : r = m := Option.some.inj (hr.symm.trans hm)
    have hheads := (ih hm').state.declarations.heads
    have hkeeps : Plan.Keeps _ ((m'.form s.schema.graph.store s.schema.definitions).child?
        (s.schema.graph.store.form s.schema.definitions) label) _ :=
      Form.Matcher.child?_keeps hP fun head hhead => proper_of_vetted hsound hle (hheads head hhead)
    have hall := hkeeps.value _ hentered.form
    have hwithin := hs.graph.within.of_le (Graph.store_le hst.2)
    rwa [SticksTo, hentered.vetted.form_of_le hwithin le_rfl hst.1]

theorem Undergoes.precedes (h : Undergoes name s ops fits t) : s.Precedes t := by
  induction h with
  | nil => exact .refl
  | aside hc _ hperform _ ih => exact .head ⟨_, _, hc, hperform⟩ ih
  | operate ho hperform _ ih => exact .head ⟨_, _, isLawful_of_addresses ho.addresses, hperform⟩ ih

theorem Undergoes.outlasts (h : Undergoes name s ops fits t) (hs : s.Reachable)
    (hm : s.matchers[name]? = some m)
    (hvetted : m.IsVetted s.schema.graph.store s.schema.definitions) :
    ∃ m', t.Outlasts name (m.form s.schema.graph.store s.schema.definitions) ops fits m' := by
  induction h generalizing m with
  | nil => exact ⟨m, rfl, hm, hvetted, rfl⟩
  | aside hc hname hperform _ ih =>
    obtain ⟨hst, hsame⟩ := matchers_of_not_replaces hs.sound hc hname hperform
    have hwithin := hs.sound.graph.within
    have hst' := Graph.store_le hst.2
    rw [← hvetted.form_of_le hwithin hst' hst.1]
    exact ih (hs.perform hc hperform) (hsame.trans hm) (hvetted.of_le hst' hst.1 hwithin)
  | operate ho hperform _ ih =>
    have hc := ho.addresses
    obtain ⟨o, m', ho', hfits, hm', hvetted', hform⟩ := operate_ok hs.sound hm hvetted hc hperform
    obtain rfl := ho'.unique ho
    obtain ⟨r, hr⟩ := ih (hs.perform (isLawful_of_addresses hc) hperform) hm' hvetted'
    rw [hform] at hr
    refine ⟨r, ?_, hr.get, hr.vetted, hr.rest⟩
    rw [hfits, hr.tried]
    rfl

theorem Joined.vetted (h : checked.Joined s name slots) (hchecked : checked.Reachable) :
    checked.Precedes s ∧ ∃ state, s.matchers[name]? = some (.several state slots) ∧
      (Matcher.several state slots).IsVetted s.schema.graph.store s.schema.definitions ∧
      ((Matcher.several state slots).form s.schema.graph.store s.schema.definitions).IsJoint ∧
      checked.SticksTo s (.several state slots) ∧
      ∀ slot ∈ slots, (∃ names, s.schema.graph.store.node slot.owner = .element names slot.content) ∧
        Vetted checked.schema.graph.store checked.schema.definitions slot.content := by
  obtain ⟨before, answer, parent, label, state, hexplored, hperform, hfits, hm⟩ := h
  obtain ⟨hbefore, m, hparent, hvetted⟩ := hexplored.vets hchecked
  have hsound := (hbefore.reachable hchecked).sound
  have henter : Returns True before (Session.perform (.enterChild parent label name)) _ _ :=
    enterChild_entered hsound hparent hvetted
  obtain ⟨hle, hs, hentered⟩ := henter.ok _ _ hperform
  obtain ⟨m', hm', hentered⟩ := hentered hfits
  obtain rfl : m' = .several state slots := Option.some.inj (hm'.symm.trans hm)
  have hexplored' : checked.Explored s name := .enter hexplored hperform hfits
  have hwithin := hsound.graph.within.of_le (Graph.store_le hle.2)
  have hform := hentered.vetted.form_of_le hwithin le_rfl hle.1
  obtain ⟨-, hjoint, howners⟩ := Form.Matcher.of_child? hentered.form
  rw [← hform] at hjoint howners
  refine ⟨(hexplored'.vets hchecked).1, state, hm, ?_, hjoint, hexplored'.sticksTo hchecked hm, ?_⟩
  . exact hentered.vetted.of_le le_rfl hle.1 hwithin
  . intro slot hslot
    obtain ⟨names, hn⟩ := hentered.contents slot hslot
    refine ⟨⟨names, hn⟩, ?_⟩
    have howner : slot.owner ∈ ((Matcher.several state slots).form s.schema.graph.store
        s.schema.definitions).owners := by
      simpa [Matcher.form, Form.Matcher.owners, Slot.form] using ⟨slot, hslot, rfl⟩
    obtain ⟨head, hhead, hid⟩ := howners _ howner
    -- the declaration is one of those that the parent had to read next
    have hshows := ((hvetted.shows hsound.graph.within).state.head hhead).1
    have hnode := Store.node_eq_of_find? (Store.find?_of_le (Graph.store_le hle.2) hshows)
    rw [hid, hn] at hnode
    rw [(Node.element.inj hnode).2]
    exact (hexplored.sticksTo hchecked hparent).state.declarations.heads head hhead

theorem isAccepting_ok (hs : s.Sound) (hm : s.matchers[name]? = some m)
    (hvetted : m.IsVetted s.schema.graph.store s.schema.definitions) {accepting : Bool}
    (hperform : perform (.isAccepting name) s = .ok (.accepting accepting, t)) :
    accepting = (m.form s.schema.graph.store s.schema.definitions).state.nullable := by
  rw [isAccepting_apply hm] at hperform
  cases hrun : onGraph (fun defs => m.isAccepting defs) s with
  | error h =>
    rw [hrun] at hperform
    cases hperform
  | ok p =>
    rw [hrun] at hperform
    cases hperform
    exact eq_of_carries (Matcher.isAccepting_carries hs.graph (hvetted.shows hs.graph.within)) hrun

theorem listSatisfied_ok (hs : s.Sound) (hm : s.matchers[name]? = some m)
    (hvetted : m.IsVetted s.schema.graph.store s.schema.definitions) {declarations : List ExprId}
    (hperform : perform (.listSatisfied name) s = .ok (.satisfied declarations, t)) :
    declarations = (m.form s.schema.graph.store s.schema.definitions).satisfiedOwners := by
  have hlist : listSatisfied name s = .ok (.satisfied declarations, t) := hperform
  unfold listSatisfied at hlist
  rw [bind_of_ok (matcherNamed_apply hm)] at hlist
  cases m with
  | single =>
    cases hlist
    rfl
  | several state slots =>
    obtain ⟨found, u, hrun, hpure⟩ := bind_eq_ok hlist
    cases hpure
    have hslots := (hvetted.shows hs.graph.within).2
    exact eq_of_carries (Matcher.satisfied_carries hs.graph hslots) hrun

theorem listSatisfied_error (hs : s.Sound) (hm : s.matchers[name]? = some m)
    (hvetted : m.IsVetted s.schema.graph.store s.schema.definitions) {h : Halt}
    (hperform : perform (.listSatisfied name) s = .error h) :
    ∃ limit, h = .fault (.limitExceeded limit) := by
  have hlist : listSatisfied name s = .error h := hperform
  obtain ⟨f, rfl⟩ : ∃ f, h = .fault f := by
    unfold listSatisfied at hlist
    rw [bind_of_ok (matcherNamed_apply hm)] at hlist
    cases m with
    | single => cases hlist
    | several state slots =>
      rcases bind_eq_error hlist with hrun | ⟨_, _, _, hpure⟩
      . exact exists_fault_of_onGraph hrun
      . cases hpure
  have hreturns : Returns True s (listSatisfied name) _ _ := listSatisfied_returns hs
  have hadmissible := (hreturns.error f hlist).mono (q := True) fun _ m' hm' => by
    obtain rfl : m' = m := Option.some.inj (hm'.symm.trans hm)
    exact hvetted.isGuarded
  obtain ⟨limit, rfl⟩ := hadmissible.exists_limit
  exact ⟨limit, rfl⟩

theorem form_several (state : ExprId) (hchecked : checked.Sound) (hle : checked.schema ≤ s.schema)
    (hslots : ∀ slot ∈ slots,
      Vetted checked.schema.graph.store checked.schema.definitions slot.content) :
    (Matcher.several state slots).form s.schema.graph.store s.schema.definitions =
      Form.Matcher.abreast (s.schema.graph.store.form s.schema.definitions state)
        (fun i : Fin slots.length => slots[i].owner) fun i =>
          checked.schema.graph.store.form checked.schema.definitions slots[i].content := by
  rw [Matcher.form, Form.Matcher.abreast]
  congr 1
  apply List.ext_getElem
  . simp
  . intro i hi _
    have hi : i < slots.length := by simpa using hi
    simp only [List.getElem_map, List.getElem_ofFn, Fin.getElem_fin, Slot.form]
    rw [form_of_vetted hchecked hle (hslots _ (List.getElem_mem hi))]

theorem Starts.form {names : NameClass} (h : checked.Starts s owner name)
    (hchecked : checked.Reachable) (hst : s.Precedes t)
    (hn : t.schema.graph.store.node owner = .element names id)
    (hid : Vetted checked.schema.graph.store checked.schema.definitions id) :
    ∃ owner?, s.matchers[name]? = some (.single id owner?) ∧
      (Matcher.single id owner?).IsVetted s.schema.graph.store s.schema.definitions ∧
      (Matcher.single id owner?).form s.schema.graph.store s.schema.definitions =
        .single (checked.schema.graph.store.form checked.schema.definitions id) owner? := by
  obtain ⟨hs, names', content, owner?, hn', hm⟩ := h
  have hreachable := hs.reachable hchecked
  have hle := hs.le hchecked
  have howner : owner ∈ s.schema.graph.store := Store.mem_of_node_ne (by simp [hn'])
  rw [Store.node_of_le (Graph.store_le (hst.le hreachable).2) howner, hn'] at hn
  obtain ⟨-, rfl⟩ := Node.element.inj hn
  have hvetted := hid.of_le (Graph.store_le hle.2) hle.1 hchecked.sound.graph.within
  refine ⟨owner?, hm, ⟨Or.inr (.base hvetted), fun slot hslot => ?_⟩, ?_⟩
  . refine ⟨((hreachable.sound.matchers name _ hm).slots slot hslot).1, ?_⟩
    cases owner? with
    | none => cases hslot
    | some => exact List.mem_singleton.1 hslot ▸ Or.inr (.base hvetted)
  . rw [Matcher.form, form_of_vetted hchecked.sound hle hid]

section Product

variable {n : Nat} {owners : Fin n → ExprId} {owner : Fin n → Option ExprId} {single : Fin n → String}
variable {own : Fin n → List Bool} {p : Head → Prop} {state : Form} {contents simple : Fin n → Form}
variable {ms : Fin n → Matcher}

theorem contents_of_inStep (owner : Fin n → Option ExprId) (hm : s.matchers[name]? = some m)
    (hshows : s.schema.graph.store.ShowsMatcher s.schema.definitions m
      (.abreast state owners contents))
    (hms : ∀ i, s.matchers[single i]? = some (ms i))
    (hsimple : ∀ i, s.schema.graph.store.ShowsMatcher s.schema.definitions (ms i)
      (.single (simple i) (owner i)))
    (h : Form.InStep p (fun i => KeepsUp fits (own i) fits.length) state contents simple) :
    ∃ (state : ExprId) (contents : Fin n → ExprId),
      s.matchers[name]? = some (.several state (List.ofFn fun i => ⟨owners i, contents i⟩)) ∧
        (∀ i, ∃ rest owner?, s.matchers[single i]? = some (.single rest owner?) ∧
          contents i = if KeepsUp fits (own i) fits.length then rest else .nullSet) ∧
        ∀ x, x ∈ s.schema.graph.store.alternatives state ↔
          ∃ i, x ∈ s.schema.graph.store.alternatives (contents i) := by
  obtain ⟨id, ids, rfl, hid, hids⟩ := Matcher.eq_several_of_form hshows
  refine ⟨id, ids, hm, fun i => ?_, fun x => ?_⟩
  . obtain ⟨rest, hrest, hshown⟩ := Matcher.eq_single_of_form (hsimple i)
    refine ⟨rest, owner i, (hms i).trans (congrArg some hrest), ?_⟩
    split
    . next hkeeps => exact (hids i).injective (h.followed i hkeeps ▸ hshown)
    . next hkeeps => exact (hids i).eq_nullSet_iff.2 (h.dropped i hkeeps)
  . simp only [hid.mem_alternatives_iff, (hids _).mem_alternatives_iff, h.join _]
    constructor
    . rintro ⟨e, ⟨i, he⟩, hx⟩
      exact ⟨i, e, he, hx⟩
    . rintro ⟨i, e, he, hx⟩
      exact ⟨e, ⟨i, he⟩, hx⟩

theorem isProduct_of_inStep (hs : s.Sound)
    (h : Form.InStep p (fun _ => True) state contents contents)
    (hwhole : s.Outlasts name (.abreast state owners contents) ops fits m)
    (hown : ∀ i, s.Outlasts (single i) (.single (contents i) (owner i)) ops (own i) (ms i)) :
    s.IsProduct name owners single fits own := by
  have hwithin := hs.graph.within
  have hlength : fits.length = ops.length := by rw [hwhole.tried, Form.Matcher.length_tried]
  obtain ⟨state', contents', simple', hrest, hrests, h'⟩ :=
    Form.Matcher.rest_abreast owners owner h ops
  simp only [true_and, ← hwhole.tried, ← (hown _).tried, ← hlength] at h'
  have hm : m.form _ _ = _ := hwhole.rest.trans hrest
  have hms (i : Fin n) : (ms i).form _ _ = _ := (hown i).rest.trans (hrests i)
  constructor
  . intro k hk
    rw [hlength] at hk
    have hiff := Form.Matcher.tried_abreast_iff owners owner h hk
    simpa only [true_and, ← hwhole.tried, ← (hown _).tried] using hiff
  . refine contents_of_inStep owner hwhole.get ?_ (fun i => (hown i).get) (fun i => ?_) h'
    . exact hm ▸ hwhole.vetted.shows hwithin
    . exact hms i ▸ (hown i).vetted.shows hwithin
  . intro accepting declarations u v haccepting hdeclarations
    rw [isAccepting_ok hs hwhole.get hwhole.vetted haccepting,
      listSatisfied_ok hs hwhole.get hwhole.vetted hdeclarations, hm]
    exact Form.Matcher.nullable_iff_satisfiedOwners h'
  . intro declarations u hdeclarations accepting hasked
    have haccepting (i : Fin n) : accepting i = (simple' i).nullable := by
      obtain ⟨u, hperform⟩ := hasked i
      rw [isAccepting_ok hs (hown i).get (hown i).vetted hperform, hms]
      rfl
    simp only [haccepting]
    rw [listSatisfied_ok hs hwhole.get hwhole.vetted hdeclarations, hm,
      Form.Matcher.satisfiedOwners_abreast h']
  . intro other hother
    obtain ⟨m', hm', hvetted⟩ : s.Vets other := by
      rcases hother with rfl | ⟨i, rfl⟩
      . exact ⟨m, hwhole.get, hwhole.vetted⟩
      . exact ⟨ms i, (hown i).get, (hown i).vetted⟩
    constructor
    . intro c f hc hperform
      have hreturns : Returns True s (perform c) _ _ := operate_returns hs hm' hvetted hc
      exact hreturns.error f hperform
    . intro c hc h hperform
      rcases List.mem_pair.1 hc with rfl | rfl
      . exact (perform_isAccepting hs hm' hvetted).1 h hperform
      . exact listSatisfied_error hs hm' hvetted hperform

end Product

/--
Whatever is done to a matcher that follows several declarations, and likewise to matchers that
follow one of them each, the whole does what they do side by side.
-/
theorem isProduct_of_undergoes {start : Fin slots.length → Session} {single : Fin slots.length → String}
    {own : Fin slots.length → List Bool} (hchecked : checked.Reachable)
    (hjoined : checked.Joined s name slots)
    (hstarts : ∀ i, checked.Starts (start i) slots[i].owner (single i))
    (hwhole : Undergoes name s ops fits t)
    (hown : ∀ i, Undergoes (single i) (start i) ops (own i) t) :
    t.IsProduct name (fun i => slots[i].owner) single fits own := by
  obtain ⟨hs, state, hm, hvetted, hjoint, hsticks, hslots⟩ := hjoined.vetted hchecked
  have hreachable := hs.reachable hchecked
  have hst := hwhole.precedes
  have hform := form_several state hchecked.sound (hs.le hchecked) fun slot hslot =>
    (hslots slot hslot).2
  obtain ⟨m, hm⟩ := hwhole.outlasts hreachable hm hvetted
  -- both sides begin with the forms that the contents had in `checked`
  have hsingle (i : Fin slots.length) : ∃ owner? m, t.Outlasts (single i)
      (.single (checked.schema.graph.store.form checked.schema.definitions slots[i].content) owner?)
      ops (own i) m := by
    obtain ⟨⟨names, hn⟩, hcontent⟩ := hslots slots[i] (List.getElem_mem i.2)
    have howner := (hvetted.slots slots[i] (List.getElem_mem i.2)).1
    rw [← Store.node_of_le (Graph.store_le (hst.le hreachable).2) howner] at hn
    obtain ⟨owner?, hm, hvetted, hform⟩ :=
      (hstarts i).form hchecked (hown i).precedes hn hcontent
    refine ⟨owner?, ?_⟩
    rw [← hform]
    exact (hown i).outlasts ((hstarts i).1.reachable hchecked) hm hvetted
  choose owner ms hsingle using hsingle
  rw [SticksTo] at hsticks
  rw [hform] at hm hjoint hsticks
  exact isProduct_of_inStep (hst.reachable hreachable).sound
    (Form.Matcher.inStep_of_isJoint hjoint hsticks) hm hsingle

/--
An element contains a text or has an attribute. When a text is read, only the first goes on.
-/
theorem isProduct_of_undergoes_text :
    ∃ (checked s t : Session) (slots : List Slot) (single : Fin slots.length → String)
      (own : Fin slots.length → List Bool), checked.Reachable ∧ checked.Joined s "c" slots ∧
      (∀ i, checked.Starts checked slots[i].owner (single i)) ∧
      Undergoes "c" s [.read (.text "x" [])] [true] t ∧
      (∀ i, Undergoes (single i) checked [.read (.text "x" [])] (own i) t) ∧
      List.ofFn own = [[true], [false]] ∧
      t.IsProduct "c" (fun i => slots[i].owner) single [true] own := by
  let name : NameClass := .only ⟨"", "a"⟩
  let read (m : String) : Command := .readText m "x" [] none
  have hreads (s : Session) (m : String) : s.Operates m (read m) (.read (.text "x" [])) :=
    ⟨rfl, rfl⟩
  -- the contents of the two elements, and the elements with them
  let x : ExprId := ⟨2⟩
  let y : ExprId := ⟨3⟩
  let a : Slot := { owner := ⟨4⟩, content := x }
  let b : Slot := { owner := ⟨5⟩, content := y }
  obtain ⟨checked, hchecked, hp⟩ := Reachable.of_leadsTo (fun _ => .string)
    [.bind "p" .anyString, .bind "q" (.attribute .any .anyString),
      .createMatcher "p" (.variable "p"), .createMatcher "q" (.variable "q"),
      .createMatcher "m" (.choice (.element name (.variable "p")) (.element name (.variable "q")))]
    (fun checked => checked.matchers["m"]?.any fun m => m = .ofContent m.state &&
      checked.schema.check m.state = .ok () && checked.matchers["p"]? = some (.single x none) &&
      checked.matchers["q"]? = some (.single y none) &&
      yields (.enterChild "m" ⟨"", "a"⟩ "c") checked fun entered s => entered.fits &&
        s.matchers["c"]? = some (.several ⟨7⟩ [a, b]) &&
        checked.schema.graph.store.node a.owner = .element name x &&
        checked.schema.graph.store.node b.owner = .element name y &&
        yields (read "c") s fun whole s₁ => whole.fits &&
          yields (read "p") s₁ fun first s₂ => first.fits &&
            yields (read "q") s₂ fun second _ => !second.fits)
    (by simp [Command.isLawful]) (by decide +kernel)
  simp only [yields_iff, Option.any_eq_true, Bool.and_eq_true, decide_eq_true_eq,
    Bool.not_eq_true'] at hp
  obtain ⟨m, hm, ⟨⟨⟨hcontent, hcheck⟩, hx⟩, hy⟩, entered, s, henter, ⟨⟨⟨hentered, hc⟩, ha⟩, hb⟩,
    whole, s₁, hwhole, hwholeFits, first, s₂, hfirst, hfirstFits, second, t, hsecond, hsecondFits⟩ := hp
  have hroot : m.state ∈ checked.schema.graph.store := (hchecked.sound.matchers "m" _ hm).state
  rw [hcontent] at hm
  have hjoined : checked.Joined s "c" [a, b] :=
    ⟨checked, entered, "m", _, _, .start .refl hcheck hroot hm, henter, hentered, hc⟩
  have hthe : Undergoes "c" s [.read (.text "x" [])] [whole.fits] t :=
    .operate (hreads s "c") hwhole (.aside rfl (by simp [read, Command.Replaces]) hfirst
      (.aside rfl (by simp [read, Command.Replaces]) hsecond .nil))
  have hp : Undergoes "p" checked [.read (.text "x" [])] [first.fits] t :=
    .aside rfl (by simp [Command.Replaces]) henter
      (.aside rfl (by simp [read, Command.Replaces]) hwhole (.operate (hreads s₁ "p") hfirst
        (.aside rfl (by simp [read, Command.Replaces]) hsecond .nil)))
  have hq : Undergoes "q" checked [.read (.text "x" [])] [second.fits] t :=
    .aside rfl (by simp [Command.Replaces]) henter
      (.aside rfl (by simp [read, Command.Replaces]) hwhole
        (.aside rfl (by simp [read, Command.Replaces]) hfirst (.operate (hreads s₂ "q") hsecond .nil)))
  rw [hwholeFits] at hthe
  rw [hfirstFits] at hp
  rw [hsecondFits] at hq
  have hstarts : ∀ i : Fin 2, checked.Starts checked [a, b][i].owner (!["p", "q"] i) :=
    Fin.forall_fin_two.2 ⟨⟨.refl, name, x, none, ha, hx⟩, .refl, name, y, none, hb, hy⟩
  have hown : ∀ i : Fin 2, Undergoes (!["p", "q"] i) checked [.read (.text "x" [])]
      (![[true], [false]] i) t :=
    Fin.forall_fin_two.2 ⟨hp, hq⟩
  exact ⟨checked, s, t, [a, b], !["p", "q"], ![[true], [false]], hchecked, hjoined,
    hstarts, hthe, hown, rfl, isProduct_of_undergoes hchecked hjoined hstarts hthe hown⟩

end Session

end TreeGrammar
