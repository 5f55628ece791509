import TreeGrammar.Proofs.Required
import TreeGrammar.Proofs.Taking
import TreeGrammar.Proofs.Tracking

/-!
This module contains the correctness of the steps of a validation: each of them leaves the outer
elements alone and takes no reported mistake back, and as long as there is no mistake the innermost
element is tracked. Once there is one, nothing that the element could hold would still be accepted.
-/

namespace TreeGrammar

open Relation

namespace OpenElement

/--
The element is tracked, and no mistake has been found in it.
-/
structure Tracks (s : Store) (defs : Definitions) (t : Store) (defs' : Definitions)
    (e : OpenElement) (ys : List ExprId) (l : Language Letter) (ls : ExprId → Language Letter) :
    Prop where
  flawless : e.faulty = false
  matcher : e.matcher.Tracks s defs t defs' l ls
  owners : e.matcher.owners = ys

/--
As long as no mistake has been reported the element is tracked. Afterwards there is nothing that it
could still accept.
-/
structure Follows (s : Store) (defs : Definitions) (t : Store) (defs' : Definitions)
    (errors : List ValidationError) (e : OpenElement) (ys : List ExprId) (l : Language Letter)
    (ls : ExprId → Language Letter) : Prop where
  tracks : errors = [] → e.Tracks s defs t defs' ys l ls
  nothing : errors ≠ [] → l = 0

variable {s t u : Store} {defs defs' defs'' : Definitions} {e e' : OpenElement} {ys : List ExprId}
variable {l : Language Letter} {ls : ExprId → Language Letter}
variable {errors errors' : List ValidationError}

theorem Tracks.of_le (h : e.Tracks s defs t defs' ys l ls) (hwithin : defs'.Within t) (htu : t ≤ u)
    (hdefs : defs' ≤ defs'') : e.Tracks s defs u defs'' ys l ls where
  flawless := h.flawless
  matcher := h.matcher.of_le hwithin htu hdefs
  owners := h.owners

theorem Follows.of_le (h : e.Follows s defs t defs' errors ys l ls) (hwithin : defs'.Within t)
    (htu : t ≤ u) (hdefs : defs' ≤ defs'') : e.Follows s defs u defs'' errors ys l ls where
  tracks herrors := (h.tracks herrors).of_le hwithin htu hdefs
  nothing := h.nothing

theorem Follows.step {f : Language Letter → Language Letter}
    (h : e.Follows s defs t defs' errors ys l ls) (herrors : errors <+: errors') (hzero : f 0 = 0)
    (hstep : e.Tracks s defs t defs' ys l ls → errors' = errors ∧
      e'.Tracks s defs u defs' ys (f l) (fun y => f (ls y)) ∨ errors' ≠ [] ∧ f l = 0) :
    e'.Follows s defs u defs' errors' ys (f l) fun y => f (ls y) where
  tracks := by
    rintro rfl
    have hnil := List.prefix_nil.1 herrors
    rcases hstep (h.tracks hnil) with ⟨_, htracks⟩ | ⟨hne, _⟩
    . exact htracks
    . exact absurd rfl hne
  nothing := by
    intro hne
    by_cases hnil : errors = []
    . rcases hstep (h.tracks hnil) with ⟨heq, _⟩ | ⟨_, hnothing⟩
      . exact absurd (heq.trans hnil) hne
      . exact hnothing
    . rw [h.nothing hnil, hzero]

end OpenElement

namespace Validation

/--
The open elements around the innermost one, and the document. There are none outside of all
elements.
-/
def outer (v : Validation) : List OpenElement :=
  match v.elements with
  | [] => []
  | _ :: elements => elements ++ [v.document]

/--
All that the validation speaks of has been put together from expressions that are vetted.
-/
structure IsVetted (s : Store) (defs : Definitions) (v : Validation) : Prop where
  innermost : v.innermost.matcher.IsVetted s defs
  outer : ∀ e ∈ v.outer, e.matcher.IsVetted s defs

theorem IsVetted.of_le {v : Validation} {s t : Store} {defs defs' : Definitions}
    (hv : v.IsVetted s defs) (hst : s ≤ t) (hdefs : defs ≤ defs') (hwithin : defs.Within s) :
    v.IsVetted t defs' where
  innermost := hv.innermost.of_le hst hdefs hwithin
  outer e he := (hv.outer e he).of_le hst hdefs hwithin

theorem isVetted_create {gr : Grammar} {s : Store} {defs : Definitions}
    (h : Vetted s defs gr.start) : (create gr).IsVetted s defs where
  innermost := .ofContent h
  outer := by simp [create, outer]

structure Keeps (v v' : Validation) : Prop where
  outer : v'.outer = v.outer
  scope : v'.scope = v.scope
  declared : v'.innermost.declared = v.innermost.declared
  errors : v.errors <+: v'.errors

def unread (closing : Bool) (v : Validation) : List Letter :=
  if v.text.isEmpty && !(closing && !v.innermost.hasContent) then [] else [.text v.text v.scope]

variable {v v' : Validation} {e : OpenElement} {s t : Store} {defs defs' : Definitions} {g h : Graph}

@[simp]
theorem innermost_withInnermost : (v.withInnermost e).innermost = e := by
  unfold withInnermost innermost
  cases v.elements <;> rfl

@[simp]
theorem outer_withInnermost : (v.withInnermost e).outer = v.outer := by
  unfold withInnermost outer
  cases h : v.elements <;> simp

@[simp]
theorem scope_withInnermost : (v.withInnermost e).scope = v.scope := by
  unfold withInnermost
  cases v.elements <;> rfl

@[simp]
theorem errors_withInnermost : (v.withInnermost e).errors = v.errors := by
  unfold withInnermost
  cases v.elements <;> rfl

@[simp]
theorem text_withInnermost : (v.withInnermost e).text = v.text := by
  unfold withInnermost
  cases v.elements <;> rfl

theorem outer_push : ({ v with elements := e :: v.elements } : Validation).outer =
    v.innermost :: v.outer := by
  unfold outer innermost
  cases v.elements <;> rfl

@[simp]
theorem errors_report {error : ValidationError} : (v.report error).errors = v.errors ++ [error] :=
  rfl

/--
What is asked of a step that reads something with the innermost element: `f` says what that does to
a language.
-/
structure Steps (defs : Definitions) (s t : Store) (f : Language Letter → Language Letter)
    (v v' : Validation) : Prop where
  vetted : v'.IsVetted t defs
  keeps : v.Keeps v'
  follows : ∀ s₀ defs₀ ys l ls, v.innermost.Follows s₀ defs₀ s defs v.errors ys l ls →
    v'.innermost.Follows s₀ defs₀ t defs v'.errors ys (f l) fun y => f (ls y)

theorem Steps.of_innermost {f : Language Letter → Language Letter} {text : String}
    {errors : List ValidationError} (hzero : f 0 = 0) (hwithin : defs.Within s)
    (hv : v.IsVetted s defs) (hst : s ≤ t)
    (he : e.matcher.IsVetted t defs) (hdeclared : e.declared = v.innermost.declared)
    (herrors : v.errors <+: errors)
    (hstep : ∀ s₀ defs₀ ys l ls, v.innermost.Tracks s₀ defs₀ s defs ys l ls →
      errors = v.errors ∧ e.Tracks s₀ defs₀ t defs ys (f l) (fun y => f (ls y)) ∨
        errors ≠ [] ∧ f l = 0) :
    Steps defs s t f v { v.withInnermost e with text, errors } := by
  have hinnermost : ({ v.withInnermost e with text, errors } : Validation).innermost = e :=
    innermost_withInnermost
  have houter : ({ v.withInnermost e with text, errors } : Validation).outer = v.outer :=
    outer_withInnermost
  refine ⟨⟨?_, ?_⟩, ⟨houter, scope_withInnermost, ?_, herrors⟩, ?_⟩
  . rw [hinnermost]
    exact he
  . rw [houter]
    intro e he
    exact (hv.outer e he).of_le hst le_rfl hwithin
  . rw [hinnermost]
    exact hdeclared
  . intro s₀ defs₀ ys l ls hfollows
    rw [hinnermost]
    exact hfollows.step herrors hzero (hstep s₀ defs₀ ys l ls)

theorem flush_returns {closing : Bool} (hg : g.Sound defs) (hv : v.IsVetted g.store defs) :
    Graph.Returns defs g (v.flush defs closing) (Fault.Admissible True) fun v' h =>
      Steps defs g.store h.store ((v.unread closing).foldl Language.advance ·) v v' ∧
      v'.text = "" ∧
      v'.innermost.hasContent = (v.innermost.hasContent || !(v.unread closing).isEmpty) := by
  unfold flush unread
  dsimp only
  split
  . next hskip =>
    have htext : v.text = "" := by
      simp at hskip
      exact hskip.1
    refine .pure hg ⟨⟨hv, ⟨rfl, rfl, rfl, List.prefix_rfl⟩, ?_⟩, htext, by simp⟩
    exact fun _ _ _ _ _ hfollows => hfollows
  . have hread := Matcher.readText?_returns v.text v.scope hg hv.innermost.within
    refine Graph.Returns.bind (hread.admissible fun _ => hv.innermost.isGuarded) ?_
    intro r h hgh hh hr
    have hgh := Graph.store_le hgh
    cases r with
    | some p =>
      have hinnermost {e : OpenElement} :
          ({ v.withInnermost e with text := "" } : Validation).innermost = e :=
        innermost_withInnermost
      refine .pure hh ⟨?_, rfl, by rw [hinnermost]; simp⟩
      refine .of_innermost Language.advance_zero hg.within hv hgh
        (hv.innermost.read hg.within hgh hr) rfl (errors_withInnermost ▸ List.prefix_rfl) ?_
      intro s₀ defs₀ ys l ls htracks
      obtain ⟨hmatcher, howners⟩ := htracks.matcher.read hg.within hgh hr
      exact Or.inl ⟨errors_withInnermost, htracks.flawless, hmatcher,
        howners.trans htracks.owners⟩
    | none =>
      have hinnermost {e : OpenElement} {error : ValidationError} :
          ({ (v.withInnermost e).report error with text := "" } : Validation).innermost = e :=
        innermost_withInnermost
      have hm := hv.innermost.of_le hgh le_rfl hg.within
      have hdescribe := Graph.describeHeads_returns hh hm.within.state
      refine Graph.Returns.bind (hdescribe.admissible fun _ => hm.isGuarded.state) ?_
      intro expected k hhk hk _
      have hgk := le_trans hgh (Graph.store_le hhk)
      refine .pure hk ⟨?_, rfl, by rw [hinnermost]; simp⟩
      refine .of_innermost Language.advance_zero hg.within hv hgk
        (hv.innermost.of_le hgk le_rfl hg.within) rfl
        (errors_withInnermost ▸ List.prefix_append _ _) ?_
      intro s₀ defs₀ ys l ls htracks
      exact Or.inr ⟨by simp, htracks.matcher.not_read hg.within hgh hr⟩

structure TagSteps (defs : Definitions) (s t : Store) (f : Language Letter → Language Letter)
    (p q : OpenElement × Validation) : Prop where
  vetted : q.1.matcher.IsVetted t defs
  owners : q.1.matcher.owners = p.1.matcher.owners
  hasContent : q.1.hasContent = p.1.hasContent
  declared : q.1.declared = p.1.declared
  errors : p.2.errors <+: q.2.errors
  rest : q.2 = { p.2 with errors := q.2.errors }
  follows : ∀ s₀ defs₀ ys l ls, p.1.Follows s₀ defs₀ s defs p.2.errors ys l ls →
    q.1.Follows s₀ defs₀ t defs q.2.errors ys (f l) fun y => f (ls y)

theorem TagSteps.trans {u : Store} {f f' : Language Letter → Language Letter}
    {p q r : OpenElement × Validation} (h : TagSteps defs s t f p q)
    (h' : TagSteps defs t u f' q r) : TagSteps defs s u (fun l => f' (f l)) p r where
  vetted := h'.vetted
  owners := h'.owners.trans h.owners
  hasContent := h'.hasContent.trans h.hasContent
  declared := h'.declared.trans h.declared
  errors := h.errors.trans h'.errors
  rest := by
    rw [h'.rest, h.rest]
  follows s₀ defs₀ ys l ls hfollows := h'.follows s₀ defs₀ ys _ _ (h.follows s₀ defs₀ ys l ls hfollows)

def attributeLetters (attributes : List Attribute) (scope : Scope) : List Letter :=
  attributes.map fun a => .attribute a.name a.value scope

theorem readAttributes_returns (attributes : List Attribute) (p : OpenElement × Validation)
    {g : Graph} (hg : g.Sound defs) (hp : p.1.matcher.IsVetted g.store defs) :
    Graph.Returns defs g (readAttributes defs attributes p) (Fault.Admissible True) fun q h =>
      TagSteps defs g.store h.store
        ((attributeLetters attributes p.2.scope).foldl Language.advance ·) p q := by
  induction attributes generalizing p g with
  | nil =>
    exact .pure hg ⟨hp, rfl, rfl, rfl, List.prefix_rfl, rfl, fun _ _ _ _ _ hfollows => hfollows⟩
  | cons a attributes ih =>
    obtain ⟨e, v⟩ := p
    unfold readAttributes
    have hread := Matcher.readAttribute?_returns a.name a.value v.scope hg hp.within
    refine Graph.Returns.bind (hread.admissible fun _ => hp.isGuarded) ?_
    intro r h hgh hh hr
    have hgh := Graph.store_le hgh
    let x : Letter := .attribute a.name a.value v.scope
    have hzero : Language.advance 0 x = 0 := Language.advance_zero
    cases r with
    | some m' =>
      have hm' := hp.read hg.within hgh hr
      have hstep : TagSteps defs g.store h.store (Language.advance · x) (e, v)
          ({ e with matcher := m' }, v) := by
        refine ⟨hm', hr.owners, rfl, rfl, List.prefix_rfl, rfl, ?_⟩
        intro s₀ defs₀ ys l ls hfollows
        refine hfollows.step (f := (Language.advance · x)) List.prefix_rfl hzero ?_
        intro htracks
        obtain ⟨hmatcher, howners⟩ := htracks.matcher.read hg.within hgh hr
        exact Or.inl ⟨rfl, htracks.flawless, hmatcher, howners.trans htracks.owners⟩
      refine (ih ({ e with matcher := m' }, v) hh hm').mono (fun _ hf => hf) ?_
      exact fun q k _ _ hq => hstep.trans hq
    | none =>
      have hm := hp.of_le hgh le_rfl hg.within
      have hstep (error : ValidationError) : TagSteps defs g.store h.store (Language.advance · x)
          (e, v) ({ e with faulty := true }, v.report error) := by
        refine ⟨hm, rfl, rfl, rfl, List.prefix_append _ _, rfl, ?_⟩
        intro s₀ defs₀ ys l ls hfollows
        refine hfollows.step (f := (Language.advance · x)) (List.prefix_append _ _) hzero ?_
        intro htracks
        exact Or.inr ⟨by simp, htracks.matcher.not_read hg.within hgh hr⟩
      refine (ih ({ e with faulty := true }, v.report _) hh hm).mono (fun _ hf => hf) ?_
      exact fun q k _ _ hq => (hstep _).trans hq

def Undescribed (defs : Definitions) (g : Graph) (e : OpenElement) : Prop :=
  e.faulty = false ∧ ∃ h, e.matcher.endAttributes? defs g = .ok (none, h) ∧
    ExposesNullSet h.store defs e.matcher.state

def Fails (p : Prop) (f : Fault) : Prop :=
  f.Admissible True ∨ f = .attributesOfNullSet ∧ p

theorem grant_returns (hg : g.Sound defs) (he : e.matcher.IsVetted g.store defs) :
    Graph.Returns defs g (do
      let matcher ← e.matcher.grantAttributes defs
      return ({ e with matcher, faulty := true }, v)) (Fault.Admissible True) fun q h =>
      q.1.matcher.IsVetted h.store defs ∧ q.1.matcher.owners = e.matcher.owners ∧
        q.1.hasContent = e.hasContent ∧ q.1.declared = e.declared ∧ q.2 = v := by
  have hgrant := Matcher.grantAttributes_returns hg he.within
  refine Graph.Returns.bind (hgrant.admissible fun _ => he.isGuarded) ?_
  intro m' h hgh hh hm'
  exact .pure hh ⟨he.becomes hg.within (Graph.store_le hgh) hm', hm'.owners, rfl, rfl, rfl⟩

theorem endAttributes_returns (p : OpenElement × Validation) (hg : g.Sound defs)
    (hp : p.1.matcher.IsVetted g.store defs) :
    Graph.Returns defs g (endAttributes defs p) (Fails (Undescribed defs g p.1)) fun q h =>
      TagSteps defs g.store h.store Language.bare p q := by
  obtain ⟨e, v⟩ := p
  have hpops := Matcher.endAttributes?_returns hg hp.within
  unfold endAttributes
  refine Graph.Returns.bind (hpops.exact.mono
    (fun f hf => Or.inl (hf.mono fun _ => hp.isGuarded)) fun _ _ _ _ h => h) ?_
  rintro r h hgh hh ⟨hr, hrun⟩
  have hgh := Graph.store_le hgh
  have hm := hp.of_le hgh le_rfl hg.within
  cases r with
  | some m' =>
    refine .pure hh ⟨hp.becomes hg.within hgh hr, hr.owners, rfl, rfl, List.prefix_rfl, rfl, ?_⟩
    intro s₀ defs₀ ys l ls hfollows
    refine hfollows.step (f := Language.bare) List.prefix_rfl Language.bare_zero ?_
    intro htracks
    obtain ⟨hmatcher, howners⟩ := htracks.matcher.ends hg.within hgh hr
    exact Or.inl ⟨rfl, htracks.flawless, hmatcher, howners.trans htracks.owners⟩
  | none =>
    -- it is reported unless there has been a mistake before
    have hgranted {k : Graph} {v' : Validation} (hk : k.Sound defs) (hhk : h ≤ k)
        (hrest : v' = { v with errors := v'.errors }) (herrors : v.errors <+: v'.errors)
        (hreported : e.faulty = false → v'.errors ≠ []) :
        Graph.Returns defs k (do
          let matcher ← e.matcher.grantAttributes defs
          return ({ e with matcher, faulty := true }, v')) (Fails (Undescribed defs g e)) fun q l =>
          TagSteps defs g.store l.store Language.bare (e, v) q := by
      have hm := hm.of_le (Graph.store_le hhk) le_rfl hh.within
      refine (grant_returns hk hm).mono (fun _ hf => Or.inl hf) ?_
      rintro ⟨e', _⟩ l _ _ ⟨hm', howners, hcontent, hdeclared, rfl⟩
      refine ⟨hm', howners, hcontent, hdeclared, herrors, hrest, ?_⟩
      intro s₀ defs₀ ys l ls hfollows
      refine hfollows.step (f := Language.bare) herrors Language.bare_zero ?_
      intro htracks
      exact Or.inr ⟨hreported htracks.flawless, htracks.matcher.not_ends hg.within hgh hr⟩
    dsimp only
    split
    . next hfaulty => exact hgranted hh le_rfl rfl List.prefix_rfl (by simp [hfaulty])
    . next hflawless =>
      have hrequired := Graph.run_required_returns hh hm.within.state
      have hfails (f : Fault) (hf : Graph.Demanding h.store defs e.matcher.state f) :
          Fails (Undescribed defs g e) f := by
        rcases hf with hf | ⟨rfl, hexposes⟩
        . exact Or.inl (hf.mono fun _ => hm.isGuarded.state)
        . exact Or.inr ⟨rfl, by simpa using hflawless, h, hrun, hexposes⟩
      refine Graph.Returns.bind (hrequired.mono hfails fun _ _ _ _ h => h) ?_
      intro missing k hhk hk _
      apply Graph.Returns.get rfl
      exact hgranted hk hhk rfl (List.prefix_append _ _) (by simp)

structure Children (s : Store) (defs : Definitions) (name : Name) (zs : List ExprId)
    (l whole : Language Letter) : Prop where
  covers : ∀ w, w ∈ l ↔ ∃ z ∈ zs, w ∈ s.contentLanguage defs z
  allows : ∀ z ∈ zs, s.Allows name z
  heeds : Heeds whole (s.Allows name) zs

theorem Children.nil {name : Name} {l : Language Letter} (h : Heeds l (s.Allows name) []) :
    Children s defs name [] 0 l where
  covers w := iff_of_false (Language.notMem_zero w) (by simp)
  allows := by simp
  heeds := h

structure Enters (defs : Definitions) (s t : Store) (tag : StartTag) (v : Validation)
    (p : OpenElement × Validation) : Prop where
  vetted : p.1.matcher.IsVetted t defs
  hasContent : p.1.hasContent = false
  declared : p.1.declared = tag.declarations.length
  errors : v.errors <+: p.2.errors
  rest : p.2 = { v with errors := p.2.errors }
  follows : ∀ s₀ defs₀ ys l ls, v.innermost.Follows s₀ defs₀ s defs v.errors ys l ls →
    ∃ zs le, Children s₀ defs₀ tag.name zs le l ∧
      (p.2.errors = [] → ∀ y ∈ ys, Heeds (ls y) (s₀.Allows tag.name) zs) ∧
      p.1.Follows s₀ defs₀ t defs p.2.errors zs le (s₀.contentLanguage defs₀)

theorem enter_returns {gr : Grammar} {tag : StartTag} (hg : g.Sound defs) (hv : v.IsVetted g.store defs)
    (hany : Vetted g.store defs gr.anyContent) :
    Graph.Returns defs g (v.enter gr defs tag) (Fault.Admissible True) fun p h =>
      Enters defs g.store h.store tag v p := by
  have hchild := Matcher.child?_returns tag.name hg hv.innermost.within.state
  unfold enter
  refine Graph.Returns.bind (hchild.admissible fun _ => hv.innermost.isGuarded.state) ?_
  intro r h hgh hh hr
  have hgh := Graph.store_le hgh
  cases r with
  | some m =>
    obtain ⟨found, hne, hfound, hjoins⟩ := hr
    have hm := hv.innermost.joins hg.within hgh (fun slot hslot => (hfound slot).1 hslot) hjoins
    have howners {slot : Slot} : slot ∈ found → slot.owner ∈ m.owners := by
      rw [Matcher.owners, hjoins.slots]
      exact List.mem_map_of_mem
    refine .pure hh ⟨hm, rfl, rfl, List.prefix_rfl, rfl, ?_⟩
    intro s₀ defs₀ ys l ls hfollows
    by_cases herrors : v.errors = []
    . obtain ⟨_, htracks, rfl⟩ := hfollows.tracks herrors
      have hmTracks := htracks.joins hgh (fun slot hslot => (hfound slot).1 hslot) hjoins
      have hheeds : Heeds l (s₀.Allows tag.name) m.owners :=
        htracks.heeds fun slot hslot => howners ((hfound slot).2 hslot)
      refine ⟨m.owners, _, ⟨hmTracks.total ?_, ?_, hheeds⟩, ?_, fun _ => ⟨rfl, hmTracks, rfl⟩, ?_⟩
      . obtain ⟨slot, hslot⟩ := List.exists_mem_of_ne_nil found hne
        exact List.ne_nil_of_mem (howners hslot)
      . intro z hz
        rw [Matcher.owners, hjoins.slots] at hz
        obtain ⟨slot, hslot, rfl⟩ := List.mem_map.1 hz
        exact (htracks.vetted_of_isCandidate ((hfound slot).1 hslot)).1
      . exact fun _ y hy => htracks.heeds_of_mem_owners hheeds hy
      . exact fun hne => absurd herrors hne
    . rw [hfollows.nothing herrors]
      exact ⟨[], 0, .nil .zero, fun h => absurd h herrors, fun h => absurd h herrors, fun _ => rfl⟩
  | none =>
    have hm := hv.innermost.of_le hgh le_rfl hg.within
    have hdescribe := Graph.describeHeads_returns hh hm.within.state
    refine Graph.Returns.bind (hdescribe.admissible fun _ => hm.isGuarded.state) ?_
    intro expected k hhk hk _
    have hany := hany.of_le (le_trans hgh (Graph.store_le hhk)) le_rfl hg.within
    refine .pure hk ⟨.ofContent hany, rfl, rfl, List.prefix_append _ _, rfl, ?_⟩
    intro s₀ defs₀ ys l ls hfollows
    refine ⟨[], 0, .nil ?_, by simp, by simp, fun _ => rfl⟩
    by_cases herrors : v.errors = []
    . exact (hfollows.tracks herrors).matcher.heeds fun slot hslot => absurd hslot (hr slot)
    . rw [hfollows.nothing herrors]
      exact .zero

def atTag (tag : StartTag) (v : Validation) : Validation :=
  ({ v with scope := v.scope.declare tag.declarations } : Validation).withInnermost
    { v.innermost with hasContent := true }

def openTag (gr : Grammar) (defs : Definitions) (tag : StartTag) (v : Validation) :
    GraphM (OpenElement × Validation) := do
  let v ← v.flush defs false
  readAttributes defs tag.attributes (← (v.atTag tag).enter gr defs tag)

def push (v : Validation) (e : OpenElement) : Validation :=
  { v with elements := e :: v.elements }

theorem startElement_eq {gr : Grammar} {tag : StartTag} : v.startElement gr defs tag =
    (do
      let q ← endAttributes defs (← v.openTag gr defs tag)
      return q.2.push q.1) := by
  unfold startElement openTag
  simp only [bind_assoc]
  rfl

@[simp]
theorem innermost_atTag {tag : StartTag} :
    (v.atTag tag).innermost = { v.innermost with hasContent := true } :=
  innermost_withInnermost

@[simp]
theorem outer_atTag {tag : StartTag} : (v.atTag tag).outer = v.outer :=
  outer_withInnermost

@[simp]
theorem errors_atTag {tag : StartTag} : (v.atTag tag).errors = v.errors :=
  errors_withInnermost

theorem IsVetted.atTag {tag : StartTag} (h : v.IsVetted s defs) : (v.atTag tag).IsVetted s defs where
  innermost := by
    rw [innermost_atTag]
    exact h.innermost
  outer := by
    rw [outer_atTag]
    exact h.outer

structure Begins (defs : Definitions) (s t : Store) (tag : StartTag)
    (f : Language Letter → Language Letter) (v : Validation) (q : OpenElement × Validation) :
    Prop where
  vetted : q.1.matcher.IsVetted t defs
  around : q.2.IsVetted t defs
  outer : q.2.outer = v.outer
  scope : q.2.scope = v.scope.declare tag.declarations
  text : q.2.text = ""
  hasContent : q.1.hasContent = false
  declared : q.1.declared = tag.declarations.length
  errors : v.errors <+: q.2.errors
  parent_hasContent : q.2.innermost.hasContent = true
  parent_declared : q.2.innermost.declared = v.innermost.declared
  follows : ∀ s₀ defs₀ ys l ls, v.innermost.Follows s₀ defs₀ s defs v.errors ys l ls →
    let read (l : Language Letter) := (v.unread false).foldl Language.advance l
    ∃ zs le, Children s₀ defs₀ tag.name zs le (read l) ∧
      q.1.Follows s₀ defs₀ t defs q.2.errors zs (f le) (fun y => f (s₀.contentLanguage defs₀ y)) ∧
      (q.2.errors = [] → q.2.innermost.Tracks s₀ defs₀ t defs ys (read l) (fun y => read (ls y)) ∧
        ∀ y ∈ ys, Heeds (read (ls y)) (s₀.Allows tag.name) zs)

theorem Begins.step {u : Store} {tag : StartTag} {f f' : Language Letter → Language Letter}
    {q r : OpenElement × Validation} (h : Begins defs s t tag f v q) (hwithin : defs.Within t)
    (htu : t ≤ u) (hstep : TagSteps defs t u f' q r) :
    Begins defs s u tag (fun l => f' (f l)) v r := by
  obtain ⟨e, w⟩ := r
  obtain ⟨errors, rfl⟩ : ∃ errors, w = { q.2 with errors } := ⟨_, hstep.rest⟩
  refine ⟨hstep.vetted, ⟨h.around.innermost.of_le htu le_rfl hwithin, ?_⟩, h.outer, h.scope,
    h.text, ?_, ?_, ?_, h.parent_hasContent, h.parent_declared, ?_⟩
  . intro e he
    exact (h.around.outer e he).of_le htu le_rfl hwithin
  . exact hstep.hasContent.trans h.hasContent
  . exact hstep.declared.trans h.declared
  . exact h.errors.trans hstep.errors
  . intro s₀ defs₀ ys l ls hfollows
    obtain ⟨zs, le, hchildren, hchild, hparent⟩ := h.follows s₀ defs₀ ys l ls hfollows
    refine ⟨zs, le, hchildren, hstep.follows _ _ _ _ _ hchild, ?_⟩
    intro hnil
    have hbefore : q.2.errors = [] := by
      have hprefix := hstep.errors
      rw [hnil] at hprefix
      exact List.prefix_nil.1 hprefix
    obtain ⟨htracks, hheeds⟩ := hparent hbefore
    exact ⟨htracks.of_le hwithin htu le_rfl, hheeds⟩

theorem openTag_returns {gr : Grammar} (tag : StartTag) (hg : g.Sound defs)
    (hv : v.IsVetted g.store defs)
    (hany : Vetted g.store defs gr.anyContent) :
    Graph.Returns defs g (v.openTag gr defs tag) (Fault.Admissible True) fun q h =>
      Begins defs g.store h.store tag
        ((attributeLetters tag.attributes (v.scope.declare tag.declarations)).foldl
          Language.advance ·) v q := by
  unfold openTag
  refine Graph.Returns.bind (flush_returns hg hv) ?_
  rintro v₁ h hgh hh ⟨hsteps, htext, _⟩
  have hgh := Graph.store_le hgh
  have hvetted : (v₁.atTag tag).IsVetted h.store defs := hsteps.vetted.atTag
  refine Graph.Returns.bind (enter_returns hh hvetted (hany.of_le hgh le_rfl hg.within)) ?_
  rintro ⟨e, w⟩ k hhk hk henters
  have hhk := Graph.store_le hhk
  obtain ⟨errors, rfl⟩ : ∃ errors, w = { v₁.atTag tag with errors } := ⟨_, henters.rest⟩
  have hscope : (v₁.atTag tag).scope = v.scope.declare tag.declarations := by
    rw [atTag, scope_withInnermost, hsteps.keeps.scope]
  have hbegins : Begins defs g.store k.store tag (fun l => l) v
      (e, { v₁.atTag tag with errors }) := by
    refine ⟨henters.vetted, ⟨hvetted.innermost.of_le hhk le_rfl hh.within, ?_⟩, ?_, hscope, ?_,
      henters.hasContent, henters.declared, ?_, ?_, ?_, ?_⟩
    . intro e he
      exact (hvetted.outer e he).of_le hhk le_rfl hh.within
    . exact outer_atTag.trans hsteps.keeps.outer
    . exact text_withInnermost.trans htext
    . refine hsteps.keeps.errors.trans ?_
      have herrors := henters.errors
      rw [errors_atTag] at herrors
      exact herrors
    . exact congrArg OpenElement.hasContent innermost_atTag
    . exact (congrArg OpenElement.declared innermost_atTag).trans hsteps.keeps.declared
    . intro s₀ defs₀ ys l ls hfollows
      have hparent := hsteps.follows s₀ defs₀ ys l ls hfollows
      have hparent : (v₁.atTag tag).innermost.Follows s₀ defs₀ h.store defs (v₁.atTag tag).errors ys
          ((v.unread false).foldl Language.advance l)
          fun y => (v.unread false).foldl Language.advance (ls y) := by
        rw [innermost_atTag, errors_atTag]
        refine ⟨fun herrors => ?_, hparent.nothing⟩
        obtain ⟨hflawless, hmatcher, howners⟩ := hparent.tracks herrors
        exact ⟨hflawless, hmatcher, howners⟩
      obtain ⟨zs, le, hchildren, hheeds, hchild⟩ := henters.follows s₀ defs₀ ys _ _ hparent
      refine ⟨zs, le, hchildren, hchild, ?_⟩
      intro hnil
      have hbefore : (v₁.atTag tag).errors = [] := by
        have hprefix := henters.errors
        rw [hnil] at hprefix
        exact List.prefix_nil.1 hprefix
      exact ⟨(hparent.tracks hbefore).of_le hh.within hhk le_rfl, hheeds hnil⟩
  have hread := readAttributes_returns tag.attributes (e, { v₁.atTag tag with errors }) hk
    henters.vetted
  refine hread.mono (fun _ hf => hf) ?_
  intro q l hkl _ hq
  have hstep := hbegins.step hk.within (Graph.store_le hkl) hq
  rw [hscope] at hstep
  exact hstep

theorem startElement_returns {gr : Grammar} {tag : StartTag} (hg : g.Sound defs)
    (hv : v.IsVetted g.store defs) (hany : Vetted g.store defs gr.anyContent) :
    Graph.Returns defs g (v.startElement gr defs tag)
      (Fails (∃ q h, v.openTag gr defs tag g = .ok (q, h) ∧ Undescribed defs h q.1)) fun v' h =>
      ∃ q, v' = q.2.push q.1 ∧ Begins defs g.store h.store tag
        (fun l => Language.bare ((attributeLetters tag.attributes
          (v.scope.declare tag.declarations)).foldl Language.advance l)) v q := by
  rw [startElement_eq]
  have hopen := openTag_returns tag hg hv hany
  refine Graph.Returns.bind (hopen.exact.mono (fun _ hf => Or.inl hf) fun _ _ _ _ h => h) ?_
  rintro q h _ hh ⟨hq, hrun⟩
  have hpops := endAttributes_returns q hh hq.vetted
  have hfails (f : Fault) (hf : Fails (Undescribed defs h q.1) f) :
      Fails (∃ q h, v.openTag gr defs tag g = .ok (q, h) ∧ Undescribed defs h q.1) f :=
    hf.imp_right fun ⟨heq, hundescribed⟩ => ⟨heq, q, h, hrun, hundescribed⟩
  refine Graph.Returns.bind (hpops.mono hfails fun _ _ _ _ h => h) ?_
  intro r k hhk hk hr
  exact .pure hk ⟨r, rfl, hq.step hh.within (Graph.store_le hhk) hr⟩

theorem checkComplete_returns (hg : g.Sound defs) (he : e.matcher.IsVetted g.store defs) :
    Graph.Returns defs g (v.checkComplete defs e) (Fault.Admissible True) fun p _ =>
      p.1.matcher = e.matcher ∧ p.2 = { v with errors := p.2.errors } ∧
        v.errors <+: p.2.errors ∧ (e.faulty = false →
          p.2.errors = v.errors ∧ p.1.faulty = false ∧
            [] ∈ g.store.language defs e.matcher.state ∨
          p.2.errors ≠ [] ∧ [] ∉ g.store.language defs e.matcher.state) := by
  have haccepting := Matcher.isNullable_returns hg he.within.state
  unfold checkComplete
  refine Graph.Returns.bind (haccepting.admissible fun _ => he.isGuarded.state) ?_
  intro accepting h hgh hh hnil
  split
  . next hskip =>
    refine .pure hh ⟨rfl, rfl, List.prefix_rfl, ?_⟩
    intro hflawless
    rw [hflawless, Bool.or_false] at hskip
    exact Or.inl ⟨rfl, hflawless, hnil.1 hskip⟩
  . next hskip =>
    have he := he.of_le (Graph.store_le hgh) le_rfl hg.within
    have hdescribe := Graph.describeHeads_returns hh he.within.state
    refine Graph.Returns.bind (hdescribe.admissible fun _ => he.isGuarded.state) ?_
    intro expected k _ hk _
    refine .pure hk ⟨rfl, rfl, List.prefix_append _ _, ?_⟩
    intro _
    refine Or.inr ⟨by simp, ?_⟩
    rw [← hnil]
    intro haccepting
    simp [haccepting] at hskip

structure Leaves (defs : Definitions) (s t : Store) (e : OpenElement) (v v' : Validation) :
    Prop where
  vetted : v'.IsVetted t defs
  outer : v'.outer = v.outer
  scope : v'.scope = v.scope
  text : v'.text = v.text
  declared : v'.innermost.declared = v.innermost.declared
  hasContent : v'.innermost.hasContent = v.innermost.hasContent
  errors : v.errors <+: v'.errors
  reads : e.faulty = false →
    v'.errors = v.errors ∧ v'.innermost.faulty = v.innermost.faulty ∧
      Matcher.Reads defs (e.matcher.letter s defs false) s t v.innermost.matcher
        (some v'.innermost.matcher) ∨
    v'.errors ≠ [] ∧
      Matcher.Reads defs (e.matcher.letter s defs false) s t v.innermost.matcher none

theorem Leaves.of_innermost {w : Validation} {m : Matcher} {faulty : Bool} (hwithin : defs.Within s)
    (hv : v.IsVetted s defs) (hst : s ≤ t) (hm : m.IsVetted t defs)
    (hw : w = { v with errors := w.errors })
    (herrors : v.errors <+: w.errors)
    (hreads : e.faulty = false →
      w.errors = v.errors ∧ faulty = v.innermost.faulty ∧
        Matcher.Reads defs (e.matcher.letter s defs false) s t v.innermost.matcher (some m) ∨
      w.errors ≠ [] ∧
        Matcher.Reads defs (e.matcher.letter s defs false) s t v.innermost.matcher none) :
    Leaves defs s t e v (w.withInnermost { v.innermost with matcher := m, faulty }) := by
  have houter : w.outer = v.outer := by
    rw [hw]
    rfl
  refine ⟨⟨?_, ?_⟩, ?_, ?_, ?_, ?_, ?_, ?_, ?_⟩
  . rw [innermost_withInnermost]
    exact hm
  . rw [outer_withInnermost, houter]
    intro e he
    exact (hv.outer e he).of_le hst le_rfl hwithin
  . rw [outer_withInnermost, houter]
  . rw [scope_withInnermost, hw]
  . rw [text_withInnermost, hw]
  . rw [innermost_withInnermost]
  . rw [innermost_withInnermost]
  . rw [errors_withInnermost]
    exact herrors
  . rw [errors_withInnermost, innermost_withInnermost]
    exact hreads

theorem leave_returns {gr : Grammar} (hg : g.Sound defs) (hv : v.IsVetted g.store defs)
    (he : e.matcher.IsVetted g.store defs) (hany : Vetted g.store defs gr.anyContent) :
    Graph.Returns defs g (v.leave gr defs e) (Fault.Admissible True) fun v' h =>
      Leaves defs g.store h.store e v v' := by
  have hread := Matcher.readChild?_returns e.matcher e.faulty hg hv.innermost.within he.within
  unfold leave
  refine Graph.Returns.bind (hread.admissible fun _ => ⟨hv.innermost.isGuarded, he.isGuarded⟩) ?_
  intro r h hgh hh hr
  have hgh := Graph.store_le hgh
  have hm := hv.innermost.of_le hgh le_rfl hg.within
  cases r with
  | some m =>
    refine .pure hh (.of_innermost hg.within hv hgh (hv.innermost.read hg.within hgh hr) rfl
      List.prefix_rfl ?_)
    intro hflawless
    rw [hflawless] at hr
    exact Or.inl ⟨rfl, rfl, hr⟩
  | none =>
    dsimp only
    generalize hw : (if e.faulty = true then v
      else v.report (.childRejected e.name v.innermost.name)) = w
    have hrest : w = { v with errors := w.errors } := by
      rw [← hw]
      split <;> rfl
    have herrors : v.errors <+: w.errors := by
      rw [← hw]
      split
      . exact List.prefix_rfl
      . exact List.prefix_append _ _
    have hreads (hflawless : e.faulty = false) : w.errors ≠ [] ∧
        Matcher.Reads defs (e.matcher.letter g.store defs false) g.store h.store
          v.innermost.matcher none := by
      rw [hflawless] at hr
      rw [← hw, hflawless]
      exact ⟨by simp, hr⟩
    have hreads {k : Graph} (hhk : h ≤ k) {m : Matcher} (hm : m.IsVetted k.store defs) :
        Leaves defs g.store k.store e v
          (w.withInnermost { v.innermost with matcher := m, faulty := true }) := by
      refine .of_innermost hg.within hv (le_trans hgh (Graph.store_le hhk)) hm hrest herrors ?_
      intro hflawless
      obtain ⟨hne, hr⟩ := hreads hflawless
      exact Or.inr ⟨hne, fun u hu => hr u (le_trans (Graph.store_le hhk) hu)⟩
    have he := he.of_le hgh le_rfl hg.within
    have hrecover := Matcher.readChild?_returns e.matcher true hh hm.within he.within
    refine Graph.Returns.bind (hrecover.admissible fun _ => ⟨hm.isGuarded, he.isGuarded⟩) ?_
    intro r k hhk hk hr
    have hhk' := Graph.store_le hhk
    cases r with
    | some m => exact .pure hk (hreads hhk (hm.read hh.within hhk' hr))
    | none =>
      have hm := hm.of_le hhk' le_rfl hh.within
      have hany := Matcher.IsVetted.ofContent (hany.of_le (le_trans hgh hhk') le_rfl hg.within)
      have hstray := Matcher.readChild?_returns _ true hk hm.within hany.within
      refine Graph.Returns.bind (hstray.admissible fun _ => ⟨hm.isGuarded, hany.isGuarded⟩) ?_
      intro r l hkl hl hr
      have hkl' := Graph.store_le hkl
      refine .pure hl (hreads (le_trans hhk hkl) ?_)
      cases r with
      | some m => exact hm.read hk.within hkl' hr
      | none => exact hm.of_le hkl' le_rfl hk.within

theorem outer_pop {elements : List OpenElement} (h : v.elements = e :: elements) :
    v.outer = ({ v with elements } : Validation).innermost ::
      ({ v with elements } : Validation).outer := by
  unfold outer innermost
  rw [h]
  cases elements <;> rfl

/--
A child is read as one that matches those of the declarations `zs` that its content `ls` ends.
-/
theorem Leaves.follows {s₀ u : Store} {defs₀ : Definitions} {ys zs : List ExprId}
    {l lc : Language Letter} {ls lsc : ExprId → Language Letter} {allowed : ExprId → Prop}
    (h : Leaves defs t u e v v') (hwithin : defs.Within t) (htu : t ≤ u)
    (hparent : v.errors = [] → v.innermost.Tracks s₀ defs₀ t defs ys l ls)
    (hchild : v.errors = [] → e.Tracks s₀ defs₀ t defs zs lc lsc ∧ [] ∈ lc)
    (hnothing : v.errors ≠ [] → ∀ z ∈ zs, [] ∉ lsc z)
    (hcovers : ∀ w, w ∈ lc ↔ ∃ z ∈ zs, w ∈ lsc z) (hheeds : Heeds l allowed zs) :
    v'.innermost.Follows s₀ defs₀ u defs v'.errors ys
      (Language.advance l (.element fun z => z ∈ zs ∧ [] ∈ lsc z))
      fun y => Language.advance (ls y) (.element fun z => z ∈ zs ∧ [] ∈ lsc z) := by
  have hreads (hnil : v.errors = []) : e.faulty = false ∧
      e.matcher.letter t defs false = .element fun z => z ∈ zs ∧ [] ∈ lsc z := by
    obtain ⟨⟨hflawless, hmatcher, rfl⟩, hempty⟩ := hchild hnil
    obtain ⟨z, hz, _⟩ := (hcovers []).1 hempty
    exact ⟨hflawless, hmatcher.letter_eq (List.ne_nil_of_mem hz) hempty⟩
  constructor
  . intro hnil'
    have hnil : v.errors = [] := by
      have hprefix := h.errors
      rw [hnil'] at hprefix
      exact List.prefix_nil.1 hprefix
    obtain ⟨hflawless, hletter⟩ := hreads hnil
    obtain ⟨hparentFlawless, hmatcher, rfl⟩ := hparent hnil
    rcases h.reads hflawless with ⟨_, hfaulty, hread⟩ | ⟨hne, _⟩
    . rw [hletter] at hread
      obtain ⟨htracks, howners⟩ := hmatcher.read hwithin htu hread
      exact ⟨hfaulty.trans hparentFlawless, htracks, howners⟩
    . exact absurd hnil' hne
  . intro hne
    by_cases hnil : v.errors = []
    . obtain ⟨hflawless, hletter⟩ := hreads hnil
      rcases h.reads hflawless with ⟨heq, _, _⟩ | ⟨_, hread⟩
      . exact absurd (heq.trans hnil) hne
      . rw [hletter] at hread
        exact (hparent hnil).matcher.not_read hwithin htu hread
    . exact hheeds.advance_eq_zero fun z hz => hnothing hnil z hz.1 hz.2

structure Pops (defs : Definitions) (s t : Store) (v : Validation) (parent : OpenElement)
    (rest : List OpenElement) (e : OpenElement) (w : Validation) : Prop where
  vetted : w.IsVetted t defs
  child : e.matcher.IsVetted t defs
  innermost : w.innermost = parent
  outer : w.outer = rest
  scope : w.scope = v.scope.drop v.innermost.declared
  text : w.text = ""
  errors : v.errors <+: w.errors
  tracks : ∀ s₀ defs₀ zs lc lsc, v.innermost.Follows s₀ defs₀ s defs v.errors zs lc lsc →
    w.errors = [] → e.Tracks s₀ defs₀ t defs zs ((v.unread true).foldl Language.advance lc)
      (fun z => (v.unread true).foldl Language.advance (lsc z)) ∧
        [] ∈ (v.unread true).foldl Language.advance lc
  nothing : ∀ s₀ defs₀ zs lc lsc, v.innermost.Follows s₀ defs₀ s defs v.errors zs lc lsc →
    w.errors ≠ [] → [] ∉ (v.unread true).foldl Language.advance lc

theorem exists_elements {parent : OpenElement} {rest : List OpenElement}
    (h : v.outer = parent :: rest) : ∃ elements, v.elements = v.innermost :: elements := by
  unfold outer at h
  unfold innermost
  cases hn : v.elements with
  | nil => simp [hn] at h
  | cons e elements => exact ⟨elements, rfl⟩

theorem ended_returns {parent : OpenElement} {rest : List OpenElement} (hg : g.Sound defs)
    (hv : v.IsVetted g.store defs) (hparent : v.outer = parent :: rest) :
    Graph.Returns defs g (v.ended defs) (Fault.Admissible True) fun p h =>
      ∃ e, p.1 = some e ∧ Pops defs g.store h.store v parent rest e p.2 := by
  unfold ended
  obtain ⟨elements, helements⟩ := exists_elements hparent
  rw [if_neg (by simp [helements])]
  refine Graph.Returns.bind (flush_returns hg hv) ?_
  rintro v₁ h hgh hh ⟨hsteps, htext, _⟩
  have houter := hsteps.keeps.outer.trans hparent
  obtain ⟨elements, helements⟩ := exists_elements houter
  rw [helements]
  have hpop := outer_pop helements
  rw [houter] at hpop
  obtain ⟨hinnermost, hrest⟩ := List.cons.inj hpop
  dsimp only
  generalize hw : ({ v₁ with elements, scope := v₁.scope.drop v₁.innermost.declared } : Validation) = w
  have hwInnermost : w.innermost = parent := by
    rw [← hw]
    exact hinnermost.symm
  have hwOuter : w.outer = rest := by
    rw [← hw]
    exact hrest.symm
  have hwErrors : w.errors = v₁.errors := by
    rw [← hw]
  have hwVetted : w.IsVetted h.store defs := by
    have hparents := hsteps.vetted.outer
    rw [houter] at hparents
    refine ⟨?_, ?_⟩
    . rw [hwInnermost]
      exact hparents parent List.mem_cons_self
    . rw [hwOuter]
      exact fun e he => hparents e (List.mem_cons_of_mem _ he)
  refine Graph.Returns.bind (checkComplete_returns hh hsteps.vetted.innermost) ?_
  rintro ⟨e, w'⟩ k hhk hk ⟨hmatcher, hw', herrors, hcomplete⟩
  have hhk := Graph.store_le hhk
  obtain ⟨errors, rfl⟩ : ∃ errors, w' = { w with errors } := ⟨_, hw'⟩
  dsimp only at hmatcher herrors hcomplete
  rw [hwErrors] at herrors hcomplete
  have hwVetted' := hwVetted.of_le hhk le_rfl hh.within
  -- the element was complete exactly if nothing has been reported by now
  have complete {s₀ defs₀ zs lc lsc} (hchild : v₁.innermost.Follows s₀ defs₀ h.store defs v₁.errors zs
      ((v.unread true).foldl Language.advance lc) lsc) (hnil : v₁.errors = []) :
      errors = v₁.errors ∧ e.faulty = false ∧ [] ∈ (v.unread true).foldl Language.advance lc ∨
        errors ≠ [] ∧ [] ∉ (v.unread true).foldl Language.advance lc := by
    obtain ⟨hflawless, htracks, _⟩ := hchild.tracks hnil
    rw [← htracks.language]
    exact hcomplete hflawless
  refine .pure hk ⟨e, rfl, ⟨hwVetted'.innermost, hwVetted'.outer⟩, ?_, hwInnermost, hwOuter, ?_, ?_, ?_,
    ?_, ?_⟩
  . rw [hmatcher]
    exact hsteps.vetted.innermost.of_le hhk le_rfl hh.within
  . rw [← hsteps.keeps.declared, ← hsteps.keeps.scope, ← hw]
  . rw [← htext, ← hw]
  . exact hsteps.keeps.errors.trans herrors
  . intro s₀ defs₀ zs lc lsc hchild hnone
    have hchild := hsteps.follows s₀ defs₀ zs lc lsc hchild
    have hnil : v₁.errors = [] := List.prefix_nil.1 (hnone ▸ herrors)
    rcases complete hchild hnil with ⟨_, hflawless, hempty⟩ | ⟨hne, _⟩
    . obtain ⟨_, htracks, howners⟩ := hchild.tracks hnil
      rw [← hmatcher] at htracks howners
      exact ⟨⟨hflawless, htracks.of_le hh.within hhk le_rfl, howners⟩, hempty⟩
    . exact absurd hnone hne
  . intro s₀ defs₀ zs lc lsc hchild hsome hempty
    have hchild := hsteps.follows s₀ defs₀ zs lc lsc hchild
    by_cases hnil : v₁.errors = []
    . rcases complete hchild hnil with ⟨heq, _⟩ | ⟨_, hnot⟩
      . exact hsome (heq.trans hnil)
      . exact hnot hempty
    . rw [hchild.nothing hnil] at hempty
      exact Language.notMem_zero _ hempty

/--
What is asked of an end tag, where `parent` is the element around the one that ends.
-/
structure Closes (defs : Definitions) (s t : Store) (v : Validation) (parent : OpenElement)
    (rest : List OpenElement) (v' : Validation) : Prop where
  vetted : v'.IsVetted t defs
  outer : v'.outer = rest
  scope : v'.scope = v.scope.drop v.innermost.declared
  text : v'.text = ""
  declared : v'.innermost.declared = parent.declared
  hasContent : v'.innermost.hasContent = parent.hasContent
  errors : v.errors <+: v'.errors
  follows : ∀ s₀ defs₀ zs lc lsc ys l ls allowed,
    v.innermost.Follows s₀ defs₀ s defs v.errors zs lc lsc →
    (∀ w, w ∈ lc ↔ ∃ z ∈ zs, w ∈ lsc z) →
    (v.errors = [] → parent.Tracks s₀ defs₀ s defs ys l ls) → Heeds l allowed zs →
    let child : Letter :=
      .element fun z => z ∈ zs ∧ [] ∈ (v.unread true).foldl Language.advance (lsc z)
    v'.innermost.Follows s₀ defs₀ t defs v'.errors ys (Language.advance l child)
      fun y => Language.advance (ls y) child

theorem endElement_returns {gr : Grammar} {parent : OpenElement} {rest : List OpenElement}
    (hg : g.Sound defs) (hv : v.IsVetted g.store defs) (hany : Vetted g.store defs gr.anyContent)
    (hparent : v.outer = parent :: rest) :
    Graph.Returns defs g (v.endElement gr defs) (Fault.Admissible True) fun v' h =>
      Closes defs g.store h.store v parent rest v' := by
  rw [endElement_eq]
  refine Graph.Returns.bind (ended_returns hg hv hparent) ?_
  rintro ⟨_, w⟩ h hgh hh ⟨e, rfl, hpops⟩
  have hgh := Graph.store_le hgh
  have hany := hany.of_le hgh le_rfl hg.within
  refine (leave_returns hh hpops.vetted hpops.child hany).mono (fun _ hf => hf) ?_
  intro v' k hhk _ hleaves
  refine ⟨hleaves.vetted, hleaves.outer.trans hpops.outer, hleaves.scope.trans hpops.scope,
    hleaves.text.trans hpops.text, ?_, ?_, hpops.errors.trans hleaves.errors, ?_⟩
  . exact hleaves.declared.trans (congrArg OpenElement.declared hpops.innermost)
  . exact hleaves.hasContent.trans (congrArg OpenElement.hasContent hpops.innermost)
  . intro s₀ defs₀ zs lc lsc ys l ls allowed hchild hcovers hparent hheeds
    have hcovers' := pointwise_foldl_advance (v.unread true) lc lsc zs hcovers
    refine hleaves.follows hh.within (Graph.store_le hhk) ?_ (hpops.tracks s₀ defs₀ zs lc lsc hchild) ?_
      hcovers' hheeds
    . intro hnone
      have hbefore := hpops.errors
      rw [hnone] at hbefore
      rw [hpops.innermost]
      exact (hparent (List.prefix_nil.1 hbefore)).of_le hg.within hgh le_rfl
    . intro hsome z hz hempty
      exact hpops.nothing s₀ defs₀ zs lc lsc hchild hsome ((hcovers' []).2 ⟨z, hz, hempty⟩)

structure Finishes (defs : Definitions) (s : Store) (v v' : Validation) : Prop where
  errors : v.errors <+: v'.errors
  follows : ∀ s₀ defs₀ ys l ls, v.innermost.Follows s₀ defs₀ s defs v.errors ys l ls →
    (v'.errors = [] ↔ [] ∈ (v.unread false).foldl Language.advance l)

theorem innermost_eq_document (h : v.outer = []) : v.elements = [] ∧ v.innermost = v.document := by
  unfold outer at h
  unfold innermost
  cases hn : v.elements with
  | nil => exact ⟨rfl, rfl⟩
  | cons e elements => simp [hn] at h

theorem endDocument_returns (hg : g.Sound defs) (hv : v.IsVetted g.store defs) :
    Graph.Returns defs g (v.endDocument defs) (Fault.Admissible True) fun v' h =>
      v'.IsVetted h.store defs ∧ (v.outer = [] → Finishes defs g.store v v') := by
  unfold endDocument
  split
  . next hopen =>
    refine .pure hg ⟨⟨hv.innermost, hv.outer⟩, ?_⟩
    intro houter
    simp [(innermost_eq_document houter).1] at hopen
  . next hopen =>
    have houter : v.outer = [] := by
      unfold outer
      cases hn : v.elements with
      | nil => rfl
      | cons e elements => simp [hn] at hopen
    refine Graph.Returns.bind (flush_returns hg hv) ?_
    rintro v₁ h hgh hh ⟨hsteps, htext, _⟩
    have hdocument := (innermost_eq_document (hsteps.keeps.outer.trans houter)).2
    have hdocumentVetted := hsteps.vetted.innermost
    rw [hdocument] at hdocumentVetted
    have haccepting := Matcher.isNullable_returns hh hdocumentVetted.within.state
    refine Graph.Returns.bind (haccepting.admissible fun _ => hdocumentVetted.isGuarded.state) ?_
    intro accepting k hhk hk hnil
    have hfollows {s₀ : Store} {defs₀ : Definitions} {ys : List ExprId} {l : Language Letter}
        {ls : ExprId → Language Letter}
        (hfollows : v.innermost.Follows s₀ defs₀ g.store defs v.errors ys l ls) :
        v₁.errors = [] ∧ (accepting = true ↔ [] ∈ (v.unread false).foldl Language.advance l) ∨
          v₁.errors ≠ [] ∧ [] ∉ (v.unread false).foldl Language.advance l := by
      have hdone := hsteps.follows s₀ defs₀ ys l ls hfollows
      rw [hdocument] at hdone
      by_cases hbefore : v₁.errors = []
      . rw [hnil, (hdone.tracks hbefore).matcher.language]
        exact Or.inl ⟨hbefore, Iff.rfl⟩
      . have hzero := hdone.nothing hbefore
        rw [hzero]
        exact Or.inr ⟨hbefore, Language.notMem_zero _⟩
    have hvetted := hsteps.vetted.of_le (Graph.store_le hhk) le_rfl hh.within
    split
    . next haccepted =>
      refine .pure hk ⟨hvetted, fun _ => ⟨hsteps.keeps.errors, ?_⟩⟩
      intro s₀ defs₀ ys l ls h
      rcases hfollows h with ⟨hbefore, hiff⟩ | ⟨hbefore, hnot⟩
      . exact iff_of_true hbefore (hiff.1 haccepted)
      . exact iff_of_false hbefore hnot
    . next haccepted =>
      have hm := hdocumentVetted.of_le (Graph.store_le hhk) le_rfl hh.within
      have hdescribe := Graph.describeHeads_returns hk hm.within.state
      refine Graph.Returns.bind (hdescribe.admissible fun _ => hm.isGuarded.state) ?_
      intro expected l hkl hl _
      have hvetted := hvetted.of_le (Graph.store_le hkl) le_rfl hk.within
      refine .pure hl ⟨⟨hvetted.innermost, hvetted.outer⟩, fun _ => ⟨?_, ?_⟩⟩
      . exact hsteps.keeps.errors.trans (List.prefix_append _ _)
      . intro s₀ defs₀ ys l ls h
        refine iff_of_false (by simp) ?_
        rcases hfollows h with ⟨_, hiff⟩ | ⟨_, hnot⟩
        . exact fun hempty => haccepted (hiff.2 hempty)
        . exact hnot

/--
The event is a start tag that lacks attributes which cannot be described.
-/
def Undescribable (gr : Grammar) (defs : Definitions) (g : Graph) (v : Validation) : Event → Prop
  | .startElement tag => ∃ q h, v.openTag gr defs tag g = .ok (q, h) ∧ Undescribed defs h q.1
  | _ => False

theorem take_returns {gr : Grammar} (event : Event) (hg : g.Sound defs)
    (hv : v.IsVetted g.store defs) (hany : Vetted g.store defs gr.anyContent) :
    Graph.Returns defs g (v.take gr defs event) (Fails (v.Undescribable gr defs g event))
      fun v' h => v'.IsVetted h.store defs := by
  cases event with
  | startElement tag =>
    refine (startElement_returns hg hv hany).mono (fun _ hf => hf) ?_
    rintro v' h _ _ ⟨q, rfl, hq⟩
    refine ⟨hq.vetted, ?_⟩
    unfold push
    rw [outer_push]
    intro e he
    rcases List.mem_cons.1 he with rfl | he
    . exact hq.around.innermost
    . exact hq.around.outer e he
  | characters text => exact .pure hg ⟨hv.innermost, hv.outer⟩
  | endElement =>
    cases houter : v.outer with
    | nil =>
      unfold take endElement
      rw [(innermost_eq_document houter).1]
      exact .pure hg ⟨hv.innermost, hv.outer⟩
    | cons parent rest =>
      refine (endElement_returns hg hv hany houter).mono (fun _ hf => Or.inl hf) ?_
      exact fun v' h _ _ hcloses => hcloses.vetted
  | endDocument =>
    refine (endDocument_returns hg hv).mono (fun _ hf => Or.inl hf) ?_
    exact fun v' h _ _ hv' => hv'.1

theorem endAttributes_of_undescribed {p : OpenElement × Validation} (hg : g.Sound defs)
    (hp : p.1.matcher.IsVetted g.store defs) (h : Undescribed defs g p.1) :
    ∃ f, endAttributes defs p g = .error f := by
  obtain ⟨e, v⟩ := p
  obtain ⟨hflawless, k, hpops, hexposes⟩ := h
  dsimp only at hflawless hpops hexposes
  obtain ⟨hgk, hk, _⟩ := (Matcher.endAttributes?_returns hg hp.within).ok _ _ hpops
  have hm := hp.of_le (Graph.store_le hgk) le_rfl hg.within
  have hrequired := Graph.run_required_returns hk hm.within.state
  cases hrun : (Graph.required defs e.matcher.state).run' ∅ k with
  | error f =>
    refine ⟨f, ?_⟩
    unfold endAttributes
    simp only [bind, StateT.bind, hpops, hflawless, Bool.false_eq_true, if_false, Except.bind]
    rw [hrun]
  | ok q => exact absurd hexposes (hrequired.ok _ _ hrun).2.2

theorem take_of_undescribable {gr : Grammar} {event : Event} (hg : g.Sound defs)
    (hv : v.IsVetted g.store defs) (hany : Vetted g.store defs gr.anyContent)
    (h : v.Undescribable gr defs g event) : ∃ f, v.take gr defs event g = .error f := by
  cases event with
  | startElement tag =>
    obtain ⟨q, k, hopen, hundescribed⟩ := h
    obtain ⟨_, hk, hq⟩ := (openTag_returns tag hg hv hany).ok _ _ hopen
    obtain ⟨f, hf⟩ := endAttributes_of_undescribed hk hq.vetted hundescribed
    refine ⟨f, ?_⟩
    have htake : v.take gr defs (.startElement tag) = v.startElement gr defs tag := rfl
    rw [htake, startElement_eq]
    simp only [bind, StateT.bind, hopen, Except.bind, hf]
  | _ => cases h

end Validation

end TreeGrammar
