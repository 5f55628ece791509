import TreeGrammar.Proofs.Starts
import TreeGrammar.Proofs.Validating
import TreeGrammar.Validation.Event

/-!
This module contains the verdicts of a validation on texts and on attributes. Exactly those are
reported that nothing that can come next accepts, and the others leave of the content what may follow
them.
-/

namespace TreeGrammar

namespace ValidationError

def isTextNotAllowed : ValidationError → Bool
  | .textNotAllowed .. => true
  | _ => false

def isAttributeNotAllowed : ValidationError → Bool
  | .attributeNotAllowed .. => true
  | _ => false

def isIncompleteContent : ValidationError → Bool
  | .incompleteContent .. => true
  | _ => false

end ValidationError

namespace Store

/--
The letter is neither blank text nor anything that the expression can start with.
-/
def Refuses (s : Store) (defs : Definitions) (x : Letter) (id : ExprId) : Prop :=
  x.isIgnorable = false ∧ ¬ s.StartsWith defs x id

/--
`Reads s defs id w refused rest` says that the letters `w` are read one after the other, from `id` on.
Those in `refused` are passed over, and `rest` is what is left in the end.
-/
inductive Reads (s : Store) (defs : Definitions) :
    ExprId → List Letter → List Letter → ExprId → Prop where
  | nil {id} : Reads s defs id [] [] id
  | accept {id next rest x w refused} : ¬ s.Refuses defs x id → IsAdvance defs x s id next →
      Reads s defs next w refused rest → Reads s defs id (x :: w) refused rest
  | refuse {id rest x w refused} : s.Refuses defs x id → Reads s defs id w refused rest →
      Reads s defs id (x :: w) (x :: refused) rest

/--
The content of an element that follows the declarations. If there are none, it is any.
-/
def contentOf (s : Store) (defs : Definitions) (gr : Grammar) (owners : List ExprId) :
    Language Letter :=
  ({w | owners = [] ∧ w ∈ s.language defs gr.anyContent ∨
    ∃ y ∈ owners, w ∈ s.contentLanguage defs y} : Set (List Letter))

theorem contentOf_nil {s : Store} {defs : Definitions} {gr : Grammar} :
    s.contentOf defs gr [] = s.language defs gr.anyContent := by
  ext w
  exact (or_iff_left (by simp)).trans (and_iff_right rfl)

end Store

namespace Graph

variable {α β : Type} {work : GraphM α} {next : α → GraphM β} {P : α → Prop} {Q : β → Prop}

structure Ends (work : GraphM α) (P : α → Prop) : Prop where
  of_run : ∀ g a h, work g = .ok (a, h) → P a

theorem Ends.trivial : Ends work fun _ => True := ⟨fun _ _ _ _ => True.intro⟩

theorem Ends.pure {a : α} (ha : P a) : Ends (Pure.pure a) P where
  of_run := by
    intro g b h heq
    cases heq
    exact ha

theorem Ends.bind (hwork : Ends work P) (hnext : ∀ a, P a → Ends (next a) Q) :
    Ends (work >>= next) Q where
  of_run := by
    intro g b k heq
    have hrun : (work >>= next) g = (work g).bind fun p => next p.1 p.2 := rfl
    rw [hrun] at heq
    cases hw : work g with
    | error f =>
      rw [hw] at heq
      contradiction
    | ok p =>
      rw [hw] at heq
      exact (hnext p.1 (hwork.of_run g p.1 p.2 hw)).of_run p.2 b k heq

theorem Ends.and {defs : Definitions} {g : Graph} {E : Fault → Prop} {R : α → Graph → Prop}
    (hwork : Ends work P) (hreturns : Returns defs g work E R) :
    Returns defs g work E fun a h => R a h ∧ P a := by
  refine hreturns.exact.mono (fun _ hf => hf) ?_
  rintro a h _ _ ⟨ha, hrun⟩
  exact ⟨ha, hwork.of_run g a h hrun⟩

end Graph

namespace Form.Matcher

variable {m : Matcher} {token : Token}

theorem read?_eq_none_iff (hm : m.state.IsReduced) : (m.read? token).value = none ↔
    token.isIgnorable = false ∧ ¬ m.state.StartsWith token := by
  rw [read?, Plan.value_bind, ← derivative_eq_nullSet_iff hm]
  split
  . next hnull => cases htoken : token.isIgnorable <;> simp [hnull]
  . next hne => exact iff_of_false nofun fun h => hne h.2

end Form.Matcher

namespace Matcher

variable {defs : Definitions} {g : Graph} {s t : Store} {m m' : Matcher} {token : Token} {x : Letter}

def Judges (defs : Definitions) (x : Letter) (t : Store) (m : Matcher) : Option Matcher → Prop
  | none => t.Refuses defs x m.state
  | some m' => ¬ t.Refuses defs x m.state ∧ IsAdvance defs x t m.state m'.state

theorem read?_judges (token : Token) (hg : g.Sound defs) (hm : m.IsVetted g.store defs) :
    Graph.Returns defs g (m.read? defs token) (fun _ => True) fun r h =>
      Reads defs token.letter g.store h.store m (r.map (·.1)) ∧
        ∀ t, h.store ≤ t → m.Judges defs token.letter t (r.map (·.1)) := by
  have hreads := (read?_returns token rfl hg hm.within).mono (fun _ _ => trivial) fun _ _ _ _ h => h
  have hshows := hm.shows hg.within
  refine (hreads.and (read?_carries hg hshows)).mono (fun _ hf => hf) ?_
  rintro r h hgh hh ⟨hr, hrel, -⟩
  refine ⟨hr, fun t ht => ?_⟩
  have hstate := hshows.state.of_le (le_trans (Graph.store_le hgh) ht) le_rfl
  have hrefuses : ((m.form g.store defs).read? token).value = none ↔
      t.Refuses defs token.letter m.state := by
    rw [Form.Matcher.read?_eq_none_iff (hshows.state.isReduced hg.reduced), hstate.startsWith_iff,
      Store.Refuses, Token.isIgnorable_letter]
  generalize r.map (·.1) = r at hr hrel
  generalize ((m.form g.store defs).read? token).value = r' at hrel hrefuses
  cases hrel with
  | none => exact hrefuses.1 rfl
  | some => exact ⟨fun h => (nofun : some _ ≠ none) (hrefuses.2 h), hr.isAdvance ht⟩

theorem readAttribute?_judges (name : Name) (value : String) (scope : Scope) (hg : g.Sound defs)
    (hm : m.IsVetted g.store defs) :
    Graph.Returns defs g (m.readAttribute? defs name value scope) (fun _ => True) fun r h =>
      Reads defs (.attribute name value scope) g.store h.store m r ∧
        ∀ t, h.store ≤ t → m.Judges defs (.attribute name value scope) t r :=
  (read?_judges (.attribute name value scope) hg hm).map fun _ _ _ _ h => h

end Matcher

namespace Validation

open TreeGrammar.Graph (Ends Returns)
open TreeGrammar.ValidationError (isTextNotAllowed isAttributeNotAllowed isIncompleteContent)

def Silent (errors : List ValidationError) : Prop :=
  ∀ error ∈ errors, error.isTextNotAllowed = false ∧ error.isAttributeNotAllowed = false ∧
    error.isIncompleteContent = false

/--
The text before an event is read where the innermost element is, as `letters`. What can be read of
it leaves `rest`, and what cannot is reported.
-/
structure JudgesText (s : Store) (defs : Definitions) (letters : List Letter) (v w : Validation)
    (refused : List Letter) (rest : ExprId) : Prop where
  reads : s.Reads defs v.innermost.matcher.state letters refused rest
  reported : ∃ expected, (w.errorsSince v).filter (·.isTextNotAllowed) =
    refused.map fun _ => .textNotAllowed v.innermost.name expected

/--
The attributes of the tag are read in the scope, where the content is that of the element that the
tag starts. Those that cannot be read are reported.
-/
structure JudgesAttributes (s : Store) (defs : Definitions) (gr : Grammar) (tag : StartTag)
    (scope : Scope) (v w : Validation) (e : OpenElement) (start rest : ExprId)
    (rejected : List Attribute) : Prop where
  content : s.language defs start = s.contentOf defs gr e.matcher.owners
  reads : s.Reads defs start (attributeLetters tag.attributes scope)
    (attributeLetters rejected scope) rest
  reported : (w.errorsSince v).filter (·.isAttributeNotAllowed) =
    rejected.map fun a => .attributeNotAllowed (toString tag.name) (toString a.name)

variable {defs : Definitions} {g : Graph} {gr : Grammar} {v w : Validation} {e : OpenElement}
variable {tag : StartTag} {closing : Bool} {errors : List ValidationError} {refused : List Letter}
variable {expected : String}

theorem errorsSince_eq (h : w.errors = v.errors ++ errors) : w.errorsSince v = errors := by
  rw [errorsSince, h, List.drop_left]

theorem Silent.nil : Silent [] := by
  simp [Silent]

theorem filter_before {p : ValidationError → Bool} {kept after : List ValidationError}
    (hkept : ∀ error ∈ kept, p error = true) (hafter : ∀ error ∈ after, p error = false) :
    (kept ++ after).filter p = kept := by
  rw [List.filter_append, List.filter_eq_self.2 hkept,
    List.filter_eq_nil_iff.2 (by simpa using hafter), List.append_nil]

theorem filter_between {p : ValidationError → Bool} {before kept after : List ValidationError}
    (hbefore : ∀ error ∈ before, p error = false) (hkept : ∀ error ∈ kept, p error = true)
    (hafter : ∀ error ∈ after, p error = false) : (before ++ (kept ++ after)).filter p = kept := by
  rw [List.filter_append, List.filter_eq_nil_iff.2 (by simpa using hbefore), List.nil_append,
    filter_before hkept hafter]

theorem flush_judges (hg : g.Sound defs) (hv : v.IsVetted g.store defs) :
    Returns defs g (v.flush defs closing) (fun _ => True) fun u h => ∃ refused expected,
      (∀ t, h.store ≤ t → t.Reads defs v.innermost.matcher.state (v.unread closing) refused
        u.innermost.matcher.state) ∧
      u.errors = v.errors ++ refused.map (fun _ => .textNotAllowed v.innermost.name expected) ∧
      u.innermost.faulty = (v.innermost.faulty || !refused.isEmpty) := by
  unfold flush unread
  dsimp only
  split
  . exact .pure hg ⟨[], "", fun _ _ => .nil, by simp, by simp⟩
  . have hread := Matcher.read?_judges (.text v.text v.scope) hg hv.innermost
    refine Returns.bind hread ?_
    rintro r h hgh hh ⟨-, hjudges⟩
    cases r with
    | some p =>
      have hinnermost {e : OpenElement} :
          ({ v.withInnermost e with text := "" } : Validation).innermost = e :=
        innermost_withInnermost
      refine .pure hh ⟨[], "", fun t ht => ?_, by simp, by rw [hinnermost]; simp⟩
      rw [hinnermost]
      exact .accept (hjudges t ht).1 (hjudges t ht).2 .nil
    | none =>
      have hinnermost {e : OpenElement} {error : ValidationError} :
          ({ (v.withInnermost e).report error with text := "" } : Validation).innermost = e :=
        innermost_withInnermost
      have hmem := Store.mem_of_le (Graph.store_le hgh) hv.innermost.within.state
      refine Returns.bind ((Graph.describeHeads_returns hh hmem).mono (fun _ _ => trivial)
        fun _ _ _ _ h => h) ?_
      intro expected k hhk hk _
      refine .pure hk ⟨[.text v.text v.scope], expected, fun t ht => ?_, by simp, by
        rw [hinnermost]; simp⟩
      rw [hinnermost]
      exact .refuse (hjudges t (le_trans (Graph.store_le hhk) ht)) .nil

theorem readAttributes_judges (attributes : List Attribute) (p : OpenElement × Validation) {g : Graph}
    (hg : g.Sound defs) (hp : p.1.matcher.IsVetted g.store defs) :
    Returns defs g (readAttributes defs attributes p) (fun _ => True) fun q h =>
      ∃ rejected, (∀ t, h.store ≤ t → t.Reads defs p.1.matcher.state
        (attributeLetters attributes p.2.scope) (attributeLetters rejected p.2.scope)
        q.1.matcher.state) ∧
        q.2 = { p.2 with errors := p.2.errors ++ rejected.map fun a =>
          .attributeNotAllowed p.1.name (toString a.name) } := by
  induction attributes generalizing p g with
  | nil => exact .pure hg ⟨[], fun _ _ => .nil, by simp⟩
  | cons a attributes ih =>
    obtain ⟨e, v⟩ := p
    unfold readAttributes
    refine Returns.bind (Matcher.readAttribute?_judges a.name a.value v.scope hg hp) ?_
    rintro r h hgh hh ⟨hreads, hjudges⟩
    cases r with
    | some m =>
      have hm := hp.read hg.within (Graph.store_le hgh) hreads
      refine (ih ({ e with matcher := m }, v) hh hm).mono (fun _ hf => hf) ?_
      rintro q k hhk _ ⟨rejected, hrest, herrors⟩
      refine ⟨rejected, fun t ht => ?_, herrors⟩
      obtain ⟨haccepts, hadvance⟩ := hjudges t (le_trans (Graph.store_le hhk) ht)
      exact .accept haccepts hadvance (hrest t ht)
    | none =>
      have hm := hp.of_le (Graph.store_le hgh) le_rfl hg.within
      refine (ih ({ e with faulty := true }, v.report _) hh hm).mono (fun _ hf => hf) ?_
      rintro q k hhk _ ⟨rejected, hrest, herrors⟩
      refine ⟨a :: rejected, fun t ht => ?_, ?_⟩
      . exact .refuse (hjudges t (le_trans (Graph.store_le hhk) ht)) (hrest t ht)
      . rw [herrors]
        simp [report]

theorem enter_judges (hg : g.Sound defs) (hv : v.IsVetted g.store defs) :
    Returns defs g (v.enter gr defs tag) (fun _ => True) fun p h =>
      (∀ t, h.store ≤ t →
        t.language defs p.1.matcher.state = t.contentOf defs gr p.1.matcher.owners) ∧
      p.1.name = toString tag.name ∧ ∃ unknown, Silent unknown ∧
        p.2 = { v with errors := v.errors ++ unknown } := by
  have hchild := (Matcher.child?_returns tag.name hg hv.innermost.within.state).mono
    (fun _ _ => trivial) fun _ _ _ _ h => h
  unfold enter
  refine Returns.bind hchild ?_
  intro r h hgh hh hr
  have hgh := Graph.store_le hgh
  cases r with
  | some m =>
    obtain ⟨found, hne, hfound, hjoins⟩ := hr
    refine .pure hh ⟨fun t ht => ?_, rfl, [], .nil, by simp⟩
    have hcontent (slot : Slot) (hslot : slot ∈ found) :
        t.contentLanguage defs slot.owner = t.language defs slot.content := by
      obtain ⟨names, hn, -⟩ := (hfound slot).1 hslot
      rw [Store.contentLanguage, Store.node_of_le (le_trans hgh ht) ((hfound slot).1 hslot).mem.1, hn]
    ext w
    rw [hjoins.language t ht, Matcher.owners, hjoins.slots]
    constructor
    . rintro ⟨slot, hslot, hw⟩
      exact Or.inr ⟨slot.owner, List.mem_map_of_mem hslot, hcontent slot hslot ▸ hw⟩
    . rintro (⟨hnone, -⟩ | ⟨_, howner, hw⟩)
      . exact absurd (List.map_eq_nil_iff.1 hnone) hne
      . obtain ⟨slot, hslot, rfl⟩ := List.mem_map.1 howner
        exact ⟨slot, hslot, hcontent slot hslot ▸ hw⟩
  | none =>
    have hmem := Store.mem_of_le hgh hv.innermost.within.state
    refine Returns.bind ((Graph.describeHeads_returns hh hmem).mono (fun _ _ => trivial)
      fun _ _ _ _ h => h) ?_
    intro expected k _ hk _
    refine .pure hk ⟨fun _ _ => Store.contentOf_nil.symm, rfl, [_], ?_, rfl⟩
    simp [Silent, isTextNotAllowed, isAttributeNotAllowed, isIncompleteContent]

theorem endAttributes_silent (p : OpenElement × Validation) :
    Ends (endAttributes defs p) fun q =>
      ∃ missing, Silent missing ∧ q.2.errors = p.2.errors ++ missing := by
  obtain ⟨e, v⟩ := p
  have hgrant (w : Validation) (missing : List ValidationError) (hmissing : Silent missing)
      (hw : w.errors = v.errors ++ missing) : Ends (do
        let matcher ← e.matcher.grantAttributes defs
        return ({ e with matcher, faulty := true }, w)) fun q =>
      ∃ missing, Silent missing ∧ q.2.errors = v.errors ++ missing :=
    Ends.trivial.bind fun _ _ => .pure ⟨missing, hmissing, hw⟩
  rw [endAttributes]
  refine Ends.trivial.bind fun r _ => ?_
  cases r with
  | some matcher => exact .pure ⟨[], .nil, by simp⟩
  | none =>
    dsimp only
    split
    . rw [pure_bind]
      exact hgrant v [] .nil (by simp)
    . refine Ends.trivial.bind fun missing _ => Ends.trivial.bind fun g _ => ?_
      rw [pure_bind]
      refine hgrant _ [_] ?_ rfl
      simp [Silent, isTextNotAllowed, isAttributeNotAllowed, isIncompleteContent]

theorem leave_silent : Ends (v.leave gr defs e) fun w =>
    ∃ rejected, Silent rejected ∧ w.errors = v.errors ++ rejected := by
  unfold leave
  refine Ends.trivial.bind fun r _ => ?_
  cases r with
  | some matcher => exact .pure ⟨[], .nil, by simp⟩
  | none =>
    dsimp only
    generalize hw : (if e.faulty = true then v else
      v.report (.childRejected e.name v.innermost.name)) = w
    have hrejected : ∃ rejected, Silent rejected ∧ w.errors = v.errors ++ rejected := by
      rw [← hw]
      split
      . exact ⟨[], .nil, by simp⟩
      . refine ⟨[_], ?_, rfl⟩
        simp [Silent, isTextNotAllowed, isAttributeNotAllowed, isIncompleteContent]
    refine Ends.trivial.bind fun r _ => ?_
    cases r with
    | some matcher => exact .pure (by simpa using hrejected)
    | none => exact Ends.trivial.bind fun r _ => .pure (by simpa using hrejected)

theorem checkComplete_judges (hg : g.Sound defs) (he : e.matcher.state ∈ g.store) :
    Returns defs g (v.checkComplete defs e) (fun _ => True) fun p _ => ∃ early,
      p.2 = { v with errors := v.errors ++ early } ∧
      (early = [] ↔ e.faulty = true ∨ [] ∈ g.store.language defs e.matcher.state) ∧
      ∀ error ∈ early, ∃ label expected, error = .incompleteContent label expected := by
  unfold checkComplete
  refine Returns.bind ((Matcher.isNullable_returns hg he).mono (fun _ _ => trivial)
    fun _ _ _ _ h => h) ?_
  intro accepting h hgh hh haccepting
  split
  . next hskip =>
    rw [Bool.or_eq_true, haccepting, or_comm] at hskip
    exact .pure hh ⟨[], by simp, iff_of_true rfl hskip, by simp⟩
  . next hskip =>
    rw [Bool.or_eq_true, haccepting, or_comm] at hskip
    have hmem := Store.mem_of_le (Graph.store_le hgh) he
    refine Returns.bind ((Graph.describeHeads_returns hh hmem).mono (fun _ _ => trivial)
      fun _ _ _ _ h => h) ?_
    intro expected k _ hk _
    exact .pure hk ⟨[_], rfl, iff_of_false (by simp) hskip, by simp⟩

theorem startElement_judges (tag : StartTag) (hg : g.Sound defs) (hv : v.IsVetted g.store defs)
    (hany : Vetted g.store defs gr.anyContent) :
    Returns defs g (v.startElement gr defs tag) (fun _ => True) fun w h =>
      ∃ e parent start rest refused rejected,
        w.elements.head? = some e ∧ w.outer.head? = some parent ∧
        JudgesText h.store defs (v.unread false) v w refused parent.matcher.state ∧
        JudgesAttributes h.store defs gr tag (v.scope.declare tag.declarations) v w e start rest
          rejected := by
  rw [startElement_eq, openTag, bind_assoc]
  refine Returns.bind ((flush_judges hg hv).and (flush_returns hg hv)) ?_
  rintro u g₁ hg₁ hs₁ ⟨⟨refused, expected, hreads, htexts, -⟩, hsteps, -, -⟩
  have hu : (u.atTag tag).IsVetted g₁.store defs := hsteps.vetted.atTag
  have hany := hany.of_le (Graph.store_le hg₁) le_rfl hg.within
  rw [bind_assoc]
  refine Returns.bind ((enter_judges hs₁ hu).and (enter_returns hs₁ hu hany)) ?_
  rintro ⟨e, u₂⟩ g₂ hg₂ hs₂ ⟨⟨hcontent, hname, unknown, hunknown, rfl⟩, henters⟩
  refine Returns.bind ((readAttributes_judges tag.attributes _ hs₂ henters.vetted).and
    (readAttributes_returns tag.attributes _ hs₂ henters.vetted)) ?_
  rintro ⟨e₃, u₃⟩ g₃ hg₃ hs₃ ⟨⟨rejected, hattributes, rfl⟩, hread⟩
  refine Returns.bind ((endAttributes_silent _).and ((endAttributes_returns _ hs₃ hread.vetted).mono
    (fun _ _ => trivial) fun _ _ _ _ h => h)) ?_
  rintro ⟨e₄, u₄⟩ g₄ hg₄ hs₄ ⟨hended, missing, hmissing, herrors⟩
  have hle₃ := Graph.store_le hg₄
  have hle₂ := le_trans (Graph.store_le hg₃) hle₃
  have hle₁ := le_trans (Graph.store_le hg₂) hle₂
  have hrest : u₄ = { u.atTag tag with errors := u₄.errors } := hended.rest
  have hsince : (u₄.push e₄).errorsSince v =
      refused.map (fun _ => .textNotAllowed v.innermost.name expected) ++ (unknown ++
        (rejected.map (fun a => .attributeNotAllowed e.name (toString a.name)) ++ missing)) :=
    errorsSince_eq (by simpa [push, htexts] using herrors)
  have hinnermost : u₄.innermost.matcher = u.innermost.matcher := by
    rw [hrest]
    exact congrArg (·.matcher) innermost_atTag
  have hscope : (u.atTag tag).scope = v.scope.declare tag.declarations := by
    rw [atTag, scope_withInnermost, hsteps.keeps.scope]
  refine .pure hs₄ ⟨e₄, u₄.innermost, e.matcher.state, e₃.matcher.state, refused, rejected, rfl, ?_,
    ⟨?_, expected, ?_⟩, ⟨?_, ?_, ?_⟩⟩
  . exact congrArg List.head? outer_push
  . rw [hinnermost]
    exact hreads g₄.store hle₁
  . rw [hsince]
    refine filter_before (by simp [isTextNotAllowed]) ?_
    simp only [List.forall_mem_append]
    exact ⟨fun error h => (hunknown error h).1, by simp [isTextNotAllowed], fun error h =>
      (hmissing error h).1⟩
  . rw [hcontent g₄.store hle₂, hended.owners, hread.owners]
  . rw [← hscope]
    exact hattributes g₄.store hle₃
  . rw [hsince, ← hname, ← List.append_assoc]
    refine filter_between ?_ (by simp [isAttributeNotAllowed]) fun error h => (hmissing error h).2.1
    simp only [List.forall_mem_append]
    exact ⟨by simp [isAttributeNotAllowed], fun error h => (hunknown error h).2.1⟩

theorem ended_judges (hg : g.Sound defs) (hv : v.IsVetted g.store defs) (hopen : v.elements ≠ []) :
    Returns defs g (v.ended defs) (fun _ => True) fun p h => ∃ rest refused expected early,
      (∀ t, h.store ≤ t → t.Reads defs v.innermost.matcher.state (v.unread true) refused rest) ∧
      p.2.errors = v.errors ++
        (refused.map (fun _ => .textNotAllowed v.innermost.name expected) ++ early) ∧
      (∀ error ∈ early, error.isTextNotAllowed = false ∧ error.isIncompleteContent = true) ∧
      ∀ t, h.store ≤ t → (early = [] ↔
        v.innermost.faulty = true ∨ refused ≠ [] ∨ [] ∈ t.language defs rest) := by
  unfold ended
  rw [if_neg (by simpa using hopen)]
  refine Returns.bind ((flush_judges hg hv).and (flush_returns hg hv)) ?_
  rintro u g₁ hg₁ hs₁ ⟨⟨refused, expected, hreads, htexts, hfaulty⟩, hsteps, -, -⟩
  have hvetted := hsteps.vetted.innermost
  cases helements : u.elements with
  | nil =>
    refine .pure hs₁ ?_
    have houter := hsteps.keeps.outer
    unfold outer at houter
    rw [helements] at houter
    cases hv : v.elements with
    | nil => exact absurd hv hopen
    | cons e elements => simp [hv] at houter
  | cons e elements =>
    have he : u.innermost = e := by
      rw [innermost, helements]
      rfl
    rw [he] at hreads hfaulty hvetted
    refine Returns.bind (checkComplete_judges hs₁ hvetted.within.state) ?_
    rintro ⟨e₂, u₂⟩ g₂ hg₂ hs₂ ⟨early, rfl, hearly, hincomplete⟩
    have hle := Graph.store_le hg₂
    refine .pure hs₂ ⟨e.matcher.state, refused, expected, early, fun t ht =>
      hreads t (le_trans hle ht), ?_, ?_, fun t ht => ?_⟩
    . rw [← List.append_assoc, ← htexts]
    . intro error herror
      obtain ⟨label, expected, rfl⟩ := hincomplete error herror
      exact ⟨rfl, rfl⟩
    . rw [hearly, hfaulty, Store.language_of_le (le_trans hle ht) hs₁.within hvetted.within.state,
        Bool.or_eq_true, or_assoc]
      simp

theorem endElement_judges (hg : g.Sound defs) (hv : v.IsVetted g.store defs)
    (hany : Vetted g.store defs gr.anyContent) (hopen : v.elements ≠ []) :
    Returns defs g (v.endElement gr defs) (fun _ => True) fun w h => ∃ rest refused,
      JudgesText h.store defs (v.unread true) v w refused rest ∧
      ((w.errorsSince v).filter (·.isIncompleteContent) = [] ↔
        v.innermost.faulty = true ∨ refused ≠ [] ∨ [] ∈ h.store.language defs rest) := by
  obtain ⟨parent, others, houter⟩ := List.exists_cons_of_ne_nil
    (mt (fun h => (innermost_eq_document h).1) hopen)
  rw [endElement_eq]
  refine Returns.bind ((ended_judges hg hv hopen).and (ended_returns hg hv houter)) ?_
  rintro ⟨-, u⟩ g₁ hg₁ hs₁
    ⟨⟨rest, refused, expected, early, hreads, hended, hearly, hiff⟩, e, rfl, hpops⟩
  have hany := hany.of_le (Graph.store_le hg₁) le_rfl hg.within
  refine (leave_silent.and ((leave_returns hs₁ hpops.vetted hpops.child hany).mono
    (fun _ _ => trivial) fun _ _ _ _ h => h)).mono (fun _ hf => hf) ?_
  rintro w g₂ hg₂ hs₂ ⟨-, rejected, hrejected, herrors⟩
  have hsince : w.errorsSince v = refused.map (fun _ => .textNotAllowed v.innermost.name expected) ++
      (early ++ rejected) := by
    apply errorsSince_eq
    rw [herrors, hended, List.append_assoc, List.append_assoc]
  have hle := Graph.store_le hg₂
  refine ⟨rest, refused, ⟨hreads g₂.store hle, expected, ?_⟩, ?_⟩
  . rw [hsince]
    refine filter_before (by simp [isTextNotAllowed]) ?_
    simp only [List.forall_mem_append]
    exact ⟨fun error h => (hearly error h).1, fun error h => (hrejected error h).1⟩
  . rw [hsince, ← hiff g₂.store hle]
    rw [filter_between (by simp [isIncompleteContent]) (fun error h => (hearly error h).2)
      fun error h => (hrejected error h).2.2]

theorem endDocument_judges (hg : g.Sound defs) (hv : v.IsVetted g.store defs)
    (hopen : v.elements = []) :
    Returns defs g (v.endDocument defs) (fun _ => True) fun w h => ∃ rest refused,
      JudgesText h.store defs (v.unread false) v w refused rest ∧
      ((w.errorsSince v).filter (·.isIncompleteContent) = [] ↔ [] ∈ h.store.language defs rest) := by
  unfold endDocument
  rw [if_neg (by simpa using hopen)]
  refine Returns.bind ((flush_judges hg hv).and (flush_returns hg hv)) ?_
  rintro u g₁ hg₁ hs₁ ⟨⟨refused, expected, hreads, htexts, -⟩, hsteps, -, -⟩
  have hdocument : u.innermost = u.document :=
    (innermost_eq_document (hsteps.keeps.outer.trans (by rw [outer, hopen]))).2
  have hmem := hsteps.vetted.innermost.within.state
  rw [hdocument] at hreads hmem
  refine Returns.bind ((Matcher.isNullable_returns hs₁ hmem).mono (fun _ _ => trivial)
    fun _ _ _ _ h => h) ?_
  intro accepting g₂ hg₂ hs₂ haccepting
  have hle := Graph.store_le hg₂
  split
  . next haccepted =>
    have hsince : u.errorsSince v =
        refused.map fun _ => .textNotAllowed v.innermost.name expected := errorsSince_eq htexts
    refine .pure hs₂ ⟨u.document.matcher.state, refused, ⟨hreads g₂.store hle, expected, ?_⟩, ?_⟩
    . rw [hsince]
      exact List.filter_eq_self.2 (by simp [isTextNotAllowed])
    . rw [hsince, Store.language_of_le hle hs₁.within hmem, ← haccepting]
      exact iff_of_true (by simp [isIncompleteContent]) haccepted
  . next hincomplete =>
    have hmem₂ := Store.mem_of_le hle hmem
    refine Returns.bind ((Graph.describeHeads_returns hs₂ hmem₂).mono (fun _ _ => trivial)
      fun _ _ _ _ h => h) ?_
    intro label g₃ hg₃ hs₃ _
    have hle := le_trans hle (Graph.store_le hg₃)
    have hsince : (u.report (.incompleteContent u.document.name label)).errorsSince v =
        refused.map (fun _ => .textNotAllowed v.innermost.name expected) ++
          [.incompleteContent u.document.name label] :=
      errorsSince_eq (by simp [htexts])
    refine .pure hs₃ ⟨u.document.matcher.state, refused, ⟨hreads g₃.store hle, expected, ?_⟩, ?_⟩
    . rw [hsince]
      exact filter_before (by simp [isTextNotAllowed]) (by simp [isTextNotAllowed])
    . rw [hsince, Store.language_of_le hle hs₁.within hmem, ← haccepting]
      exact iff_of_false (by simp [isIncompleteContent]) hincomplete

end Validation

end TreeGrammar
