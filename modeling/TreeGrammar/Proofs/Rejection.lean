import TreeGrammar.Proofs.Leaves
import TreeGrammar.Proofs.Recognition

/-!
This module contains what is refused by the matchers of expressions that are put together from elements
and text, without attributes, typed strings and references: nothing that could still be continued, and
everything that could not.
-/

namespace TreeGrammar

open Computability StoreState

def IsElement (s : Store) (id : ExprId) : Prop :=
  ∃ names content, s.node id = .element names content

def Letter.anyElement : Letter := .element fun _ => True

theorem Shuffle.append {α : Type} (u v : List α) : Shuffle u v (u ++ v) := by
  induction u with
  | nil => exact Language.shuffle_nil_left.2 rfl
  | cons x u ih => exact .left ih

variable {s t : Store} {defs : Definitions} {g : Graph} {id : ExprId} {x : Letter} {m : Matcher}

theorem IsElement.of_le (h : IsElement s id) (hst : s ≤ t) : IsElement t id := by
  obtain ⟨names, content, hn⟩ := h
  exact ⟨names, content, (Store.node_of_le hst (Store.mem_of_node_ne (by simp [hn]))).trans hn⟩

theorem IsElement.mem (h : IsElement s id) : id ∈ s := by
  obtain ⟨names, content, hn⟩ := h
  exact Store.mem_of_node_ne (by simp [hn])

theorem closed_isElement : Closed s defs (IsElement s) where
  mem id hid := hid.mem
  part a id hid ha := by
    obtain ⟨names, content, hn⟩ := hid
    rcases ha with ⟨helement, _⟩ | ⟨hr, _⟩
    . exact absurd hn (helement names content)
    . simp [hn] at hr

theorem IsElement.guarded (h : IsElement s id) : Guarded s defs id := by
  obtain ⟨names, content, hn⟩ := h
  refine .intro (by simp [hn]) fun a ha => ?_
  rcases ha with ⟨helement, _⟩ | ⟨hr, _⟩
  . exact absurd hn (helement names content)
  . simp [hn] at hr

theorem Built.exists_replicate_mem (h : Built s (IsElement s) id) :
    ∃ n, List.replicate n .anyElement ∈ s.language defs id := by
  induction h with
  | base hid =>
    obtain ⟨names, content, hn⟩ := hid
    exact ⟨1, (Store.mem_language_of_element hn).2 ⟨.anyElement, trivial, rfl⟩⟩
  | epsilon => exact ⟨0, by simp⟩
  | anyString => exact ⟨0, (Store.mem_language_of_anyString s.node_anyString).2 (by simp)⟩
  | @compound id hn _ ih =>
    generalize hnode : s.node id = n at hn ih
    cases n with
    | choice a b =>
      obtain ⟨n, hn⟩ := ih a (by simp [Node.children])
      refine ⟨n, ?_⟩
      rw [Store.language_of_choice hnode]
      exact Or.inl hn
    | sequence a b =>
      obtain ⟨n, hn⟩ := ih a (by simp [Node.children])
      obtain ⟨k, hk⟩ := ih b (by simp [Node.children])
      refine ⟨n + k, ?_⟩
      rw [Store.language_of_sequence hnode, List.replicate_add]
      exact Language.append_mem_mul hn hk
    | interleave a b =>
      obtain ⟨n, hn⟩ := ih a (by simp [Node.children])
      obtain ⟨k, hk⟩ := ih b (by simp [Node.children])
      refine ⟨n + k, ?_⟩
      rw [Store.language_of_interleave hnode, List.replicate_add]
      exact ⟨_, hn, _, hk, .append _ _⟩
    | oneOrMore a =>
      obtain ⟨n, hn⟩ := ih a (by simp [Node.children])
      refine ⟨n, ?_⟩
      rw [Store.language_of_oneOrMore hnode]
      exact ⟨_, hn, [], Language.nil_mem_kstar _, List.append_nil _⟩
    | mixed a =>
      obtain ⟨n, hn⟩ := ih a (by simp [Node.children])
      refine ⟨n, ?_⟩
      rw [Store.language_of_mixed hnode, Language.mem_mixed,
        List.filter_replicate_of_pos (by simp [Letter.anyElement, Letter.isText])]
      exact hn
    | _ => cases hn

namespace Language

variable {l : Language Letter} {u v w : List Letter}

theorem append_mem_loose : u ++ v ∈ loose l ↔ v ∈ loose (u.foldl advance l) := by
  rw [mem_loose_iff_foldl, mem_loose_iff_foldl, List.foldl_append]

theorem mem_loose_of_mem (h : w ∈ l) : w ∈ loose l := by
  refine ⟨w, ?_, h⟩
  induction w generalizing l with
  | nil => exact .nil
  | cons x w ih => exact .keep (ih (l := l.leftQuotient [x]) h)

theorem notMem_loose_zero : w ∉ loose 0 := by
  rintro ⟨_, -, h⟩
  exact Language.notMem_zero _ h

end Language

namespace Session

/--
The expression is put together from elements and text.
-/
def IsPlain (s : Session) (id : ExprId) : Prop :=
  Made s.schema.graph.store (IsElement s.schema.graph.store) id

end Session

/--
The term puts an expression together from elements and text.
-/
def Term.IsPlain (s : Session) : Term → Prop
  | .epsilon | .nullSet | .anyString | .element .. => True
  | .choice a b | .sequence a b | .interleave a b => a.IsPlain s ∧ b.IsPlain s
  | .oneOrMore a | .zeroOrMore a | .optional a | .mixed a => a.IsPlain s
  | .variable name => ∀ id, s.bindings[name]? = some id → s.IsPlain id
  | .attribute .. | .typedString _ | .reference _ => False

namespace Session

/--
The word is what a matcher has accepted, one request after the other. What it has rejected is left
out.
-/
inductive Accepts (name : String) : Session → List Letter → Session → Prop where
  | nil {s : Session} : Accepts name s [] s
  | aside {s t u : Session} {c : Command} {answer : Answer} {word : List Letter} :
    c.isLawful → ¬ c.Replaces name → perform c s = .ok (answer, t) → Accepts name t word u →
    Accepts name s word u
  | read {s t u : Session} {c : Command} {x : Letter} {answer : Answer} {word : List Letter} :
    s.letter? name c = some x → perform c s = .ok (answer, t) → Accepts name t word u →
    Accepts name s (if answer.fits then x :: word else word) u

structure Awaits (s : Session) (name : String) (m : Matcher) (l : Language Letter) : Prop where
  matcher : s.matchers[name]? = some m
  slots : m.slots = []
  built : Built s.schema.graph.store (IsElement s.schema.graph.store) m.state
  language : s.language m.state = l

variable {s t u : Session} {name : String} {c : Command} {x : Letter} {answer : Answer}
variable {word : List Letter} {id : ExprId} {m : Matcher} {l : Language Letter}

theorem IsPlain.of_le (h : s.IsPlain id) (hst : s.schema ≤ t.schema) : t.IsPlain id :=
  (Made.of_le h (Graph.store_le hst.2)).mono fun _ hid => hid.of_le (Graph.store_le hst.2)

theorem isPlain_of_isElement (h : IsElement s.schema.graph.store id) : s.IsPlain id :=
  Or.inr (.base h)

end Session

namespace Term

variable {s t : Session} {e a b : Term}

theorem IsPlain.of_extends (h : e.IsPlain s) (hst : s.schema ≤ t.schema) (honly : s.Extends t) :
    e.IsPlain t := by
  induction e with
  | epsilon | nullSet | anyString | element => trivial
  | choice a b iha ihb | sequence a b iha ihb | interleave a b iha ihb =>
    exact ⟨iha h.1, ihb h.2⟩
  | oneOrMore a ih | zeroOrMore a ih | optional a ih | mixed a ih => exact ih h
  | «variable» name =>
    intro id hid
    rw [honly] at hid
    exact (h id hid).of_le hst
  | «attribute» | typedString | reference => exact h.elim

theorem isPlain_of_composed {work : Definitions → GraphM ExprId} {operands : List ExprId}
    {P : ExprId → Graph → Prop} (hs : s.Sound) (hoperands : ∀ a ∈ operands, s.IsPlain a)
    (hwork : Graph.Yields s.schema.definitions s.schema.graph work (Fault.Admissible True)
      fun r h => P r h ∧ Composed s.schema.definitions s.schema.graph.store h.store operands r)
    (h : Session.onGraph work s = .ok (id, t)) : t.IsPlain id := by
  have hreturns : Session.Returns True s (Session.onGraph work) _ _ :=
    Session.onGraph_returns hs hwork.returns
  obtain ⟨hst, _, ⟨_, hcomposed⟩, _⟩ := hreturns.ok id t h
  refine (hcomposed _ closed_isElement hoperands).mono ?_
  exact fun _ hid => hid.of_le (Graph.store_le hst.2)

def BuildsPlain (e : Term) : Prop :=
  ∀ s : Session, s.Sound → e.IsPlain s → ∀ id t, e.build s = .ok (id, t) → t.IsPlain id

theorem buildsPlain_binary {op : ExprId → ExprId → GraphM ExprId}
    {f : Language Letter → Language Letter → Language Letter}
    (hop : ∀ {defs : Definitions} {g : Graph} {a b : ExprId}, g.Sound defs → a ∈ g.store →
      b ∈ g.store → Graph.Yields defs g (fun _ => op a b) (Fault.Admissible True) fun r h =>
        (∀ t, h.store ≤ t → t.language defs r = f (t.language defs a) (t.language defs b)) ∧
          Composed defs g.store h.store [a, b] r)
    (ha : a.BuildsPlain) (hb : b.BuildsPlain) (hs : s.Sound) (hplain : a.IsPlain s ∧ b.IsPlain s)
    (h : (a.build >>= fun i => b.build >>= fun j => Session.onGraph fun _ => op i j) s =
      .ok (id, t)) : t.IsPlain id := by
  obtain ⟨i, v, hi, h⟩ := Session.bind_eq_ok h
  obtain ⟨j, w, hj, h⟩ := Session.bind_eq_ok h
  obtain ⟨hsv, hv, himakes⟩ := Session.makes_of_build hs hi
  obtain ⟨hvw, hw, hjmakes⟩ := Session.makes_of_build hv hj
  have hiPlain := (ha s hs hplain.1 i v hi).of_le hvw
  have hjPlain := hb v hv (hplain.2.of_extends hsv himakes.only) j w hj
  exact isPlain_of_composed hw (by simp [hiPlain, hjPlain])
    (hop hw.graph (himakes.has.of_le hvw) hjmakes.has) h

theorem buildsPlain_unary {op : ExprId → GraphM ExprId} {f : Language Letter → Language Letter}
    (hop : ∀ {defs : Definitions} {g : Graph} {a : ExprId}, g.Sound defs → a ∈ g.store →
      Graph.Yields defs g (fun _ => op a) (Fault.Admissible True) fun r h =>
        (∀ t, h.store ≤ t → t.language defs r = f (t.language defs a)) ∧
          Composed defs g.store h.store [a] r)
    (ha : a.BuildsPlain) (hs : s.Sound) (hplain : a.IsPlain s)
    (h : (a.build >>= fun i => Session.onGraph fun _ => op i) s = .ok (id, t)) : t.IsPlain id := by
  obtain ⟨i, v, hi, h⟩ := Session.bind_eq_ok h
  obtain ⟨_, hv, himakes⟩ := Session.makes_of_build hs hi
  exact isPlain_of_composed hv (by simp [ha s hs hplain i v hi]) (hop hv.graph himakes.has) h

theorem buildsPlain (e : Term) : e.BuildsPlain := by
  induction e with
  | epsilon =>
    rintro s _ _ _ _ ⟨⟩
    exact Or.inr .epsilon
  | nullSet =>
    rintro s _ _ _ _ ⟨⟩
    exact Or.inl rfl
  | anyString =>
    rintro s _ _ _ _ ⟨⟩
    exact Or.inr .anyString
  | choice a b iha ihb =>
    exact fun s hs he id t h => buildsPlain_binary Graph.choice_yields iha ihb hs he h
  | sequence a b iha ihb =>
    exact fun s hs he id t h => buildsPlain_binary Graph.sequence_yields iha ihb hs he h
  | interleave a b iha ihb =>
    exact fun s hs he id t h => buildsPlain_binary Graph.interleave_yields iha ihb hs he h
  | oneOrMore a ih =>
    exact fun s hs he id t h =>
      buildsPlain_unary (f := fun l => l * l∗) Graph.oneOrMore_yields ih hs he h
  | zeroOrMore a ih => exact fun s hs he id t h => buildsPlain_unary Graph.zeroOrMore_yields ih hs he h
  | optional a ih =>
    exact fun s hs he id t h => buildsPlain_unary (f := (· + 1)) Graph.optional_yields ih hs he h
  | mixed a ih => exact fun s hs he id t h => buildsPlain_unary Graph.mixed_yields ih hs he h
  | element names content =>
    intro s hs _ id t h
    obtain ⟨i, v, hi, h⟩ := Session.bind_eq_ok h
    obtain ⟨_, hv, himakes⟩ := Session.makes_of_build hs hi
    have hintern : Session.Returns True v
        (Session.onGraph fun _ => Graph.intern (.element names i)) _ _ :=
      Session.intern_returns hv (by simpa [Node.children] using himakes.has) rfl
    obtain ⟨_, _, _, hnode, _⟩ := hintern.ok id t h
    exact Session.isPlain_of_isElement ⟨names, i, hnode⟩
  | «variable» name =>
    intro s hs he id t h
    have hfound : Session.Returns True s (Session.found s.bindings[name]? (.unknownVariable name))
        (fun _ => True) _ := Session.found_returns hs
    obtain ⟨_, _, rfl, hid⟩ := hfound.ok id t h
    exact he id hid
  | «attribute» | typedString | reference => exact fun _ _ he => he.elim

end Term

namespace Session

variable {s t u : Session} {name : String} {c : Command} {x : Letter} {answer : Answer}
variable {word : List Letter} {id : ExprId} {m : Matcher} {l : Language Letter}

namespace Awaits

theorem guarded (h : s.Awaits name m l) :
    Guarded s.schema.graph.store s.schema.definitions m.state :=
  h.built.guarded fun _ hid => hid.guarded

theorem isGuarded (h : s.Awaits name m l) :
    m.IsGuarded s.schema.graph.store s.schema.definitions :=
  ⟨h.guarded, by simp [h.slots]⟩

theorem exists_replicate_mem (h : s.Awaits name m l) : ∃ n, List.replicate n .anyElement ∈ l := by
  rw [← h.language]
  exact h.built.exists_replicate_mem

theorem ne_nullSet (h : s.Awaits name m l) : m.state ≠ .nullSet := by
  intro hnull
  obtain ⟨n, hn⟩ := h.exists_replicate_mem
  rw [← h.language, Session.language, hnull, Store.language_nullSet] at hn
  exact Language.notMem_zero _ hn

theorem of_le (h : s.Awaits name m l) (hs : s.Sound) (hst : s.schema ≤ t.schema)
    (hname : t.matchers[name]? = some m) : t.Awaits name m l where
  matcher := hname
  slots := h.slots
  built := (h.built.of_le (Graph.store_le hst.2)).mono fun _ hid => hid.of_le (Graph.store_le hst.2)
  language := by
    rw [← h.language]
    exact h.guarded.language_of_le (Graph.store_le hst.2) hst.1 hs.graph.within
      (hs.matchers name m h.matcher).state

theorem language_of_le {g : Graph} (h : s.Awaits name m l) (hs : s.Sound)
    (hsg : s.schema.graph ≤ g) : g.store.language s.schema.definitions m.state = l := by
  rw [← h.language]
  exact Store.language_of_le (Graph.store_le hsg) hs.graph.within
    (hs.matchers name m h.matcher).state

theorem next {r : Matcher} {g : Graph} (h : s.Awaits name m l) (hs : s.Sound)
    (hsg : s.schema.graph ≤ g)
    (hread : m.Reads s.schema.definitions x s.schema.graph.store g.store (some r))
    (hne : r.state ≠ .nullSet) :
    r.slots = [] ∧ Built g.store (IsElement s.schema.graph.store) r.state ∧
      g.store.language s.schema.definitions r.state = Language.advance l x := by
  have hsame := h.language_of_le hs hsg
  rcases hread with hbecomes | ⟨rfl, hignorable, hzero⟩
  . have hslots := hbecomes.slots
    rw [h.slots] at hslots
    have hlanguage : g.store.language s.schema.definitions r.state = Language.advance l x := by
      rw [← hsame]
      exact hbecomes.state.related _ le_rfl
    have hm : Made s.schema.graph.store (IsElement s.schema.graph.store) m.state := Or.inr h.built
    have hr := hbecomes.state.composed _ closed_isElement (by simpa using hm)
    exact ⟨List.forall₂_nil_left_iff.1 hslots, hr.built hne, hlanguage⟩
  . refine ⟨h.slots, h.built.of_le (Graph.store_le hsg), ?_⟩
    rw [Language.advance, if_pos hignorable, hsame, ← hsame, hzero _ le_rfl, add_zero]

theorem returns (h : s.Awaits name m l) (hs : s.Sound) (hx : s.letter? name c = some x) :
    Returns True s (perform c) (Fault.Admissible (s.ReadsGuarded c)) fun answer t =>
      ∃ m', t.Awaits name m' (if answer.fits then Language.advance l x else l) ∧
        (answer.fits = false → m' = m ∧ Language.advance l x = 0) := by
  have hwithin := hs.graph.within
  have hm := hs.matchers name m h.matcher
  let P (m : Matcher) (m? : Option Matcher) (g : Graph) : Prop :=
    m.Reads s.schema.definitions x s.schema.graph.store g.store m? ∧
      ∀ r ∈ m?, r.state ≠ .nullSet
  have hguarded {r : Matcher} {g : Graph} (hg : s.schema.graph ≤ g)
      (hr : Built g.store (IsElement s.schema.graph.store) r.state) :
      Guarded g.store s.schema.definitions r.state :=
    hr.guarded fun _ hid => (hid.of_le (Graph.store_le hg)).guarded
  have hreading : Returns True s (perform c) (Fault.Admissible (s.ReadsGuarded c))
      (Advances name P s) := by
    refine reading_returns hs h.matcher hx ?_ ?_
    . intro token g hg hgSound htoken
      have hm := hm.of_le (Graph.store_le hg)
      have hguarded := h.isGuarded.of_le (hs.matchers name m h.matcher) hwithin (Graph.store_le hg)
      have hread := (Matcher.read?_returns token htoken hgSound hm).admissible
        (q := True) fun _ => hguarded
      have hne := Matcher.read?_ne_nullSet token hgSound hm h.ne_nullSet
      refine (hread.and hne).mono (fun _ hf => hf) ?_
      rintro r k _ _ ⟨hread, hne⟩
      refine ⟨hread.of_ge (Graph.store_le hg), fun m' hm' => ?_⟩
      obtain ⟨p, hp, rfl⟩ := Option.map_eq_some_iff.1 hm'
      exact hne p hp
    . intro r g hg hP
      exact hP.1.within hm hwithin (Graph.store_le hg)
  refine hreading.mono (fun _ hf => hf) ?_
  rintro answer t hst ht hadvances
  obtain ⟨m₀, m?, hm₀, ⟨hread, hne⟩, hfits, hname⟩ := hadvances.read
  obtain rfl : m₀ = m := Option.some.inj (hm₀.symm.trans h.matcher)
  rw [hfits]
  cases m? with
  | none =>
    refine ⟨m₀, h.of_le hs hst hname, fun _ => ⟨rfl, ?_⟩⟩
    rw [← h.language_of_le hs hst.2]
    exact hread _ le_rfl
  | some r =>
    obtain ⟨hslots, hr, hlanguage⟩ := h.next hs hst.2 hread (hne r rfl)
    refine ⟨r, ⟨hname, hslots, ?_, ?_⟩, by simp⟩
    . exact hr.mono fun _ hid => hid.of_le (Graph.store_le hst.2)
    . rw [Option.isSome_some, if_pos rfl, ← hlanguage, ← hadvances.definitions]
      rfl

end Awaits

theorem Accepts.awaits (h : Accepts name s word t) (hs : s.Reachable) (hm : s.Awaits name m l) :
    t.Reachable ∧ ∃ m', t.Awaits name m' (word.foldl Language.advance l) := by
  induction h generalizing m l with
  | nil => exact ⟨hs, m, hm⟩
  | aside hc hname hperform _ ih =>
    obtain ⟨hst, hsame⟩ := matchers_of_not_replaces hs.sound hc hname hperform
    exact ih (hs.perform hc hperform) (hm.of_le hs.sound hst (hsame.trans hm.matcher))
  | @read s t u c x answer word hx hperform _ ih =>
    obtain ⟨_, _, m', hm', -⟩ := (hm.returns hs.sound hx).ok _ _ hperform
    have hrest := ih (hs.perform (isLawful_of_letter? hx) hperform) hm'
    split
    . next hfits =>
      rw [hfits, if_pos rfl] at hrest
      exact hrest
    . next hfits =>
      rw [if_neg hfits] at hrest
      exact hrest

/--
The matcher of an expression that is put together from elements and text, unless nothing satisfies
it, refuses a letter exactly if no continuation of what it has accepted begins with the letter, and
then it stays as it is. What it has accepted can always be continued, if only by child elements.
-/
theorem fits_iff_exists_continuation (hs : s.Reachable) :
    (∀ (e : Term) id t, e.IsPlain s → e.build s = .ok (id, t) → t.IsPlain id) ∧
      ∀ name id, s.matchers[name]? = some (.ofContent id) → s.IsPlain id → id ≠ .nullSet →
        ∀ word t, Accepts name s word t →
          (∃ n, word ++ List.replicate n .anyElement ∈ Language.loose (s.language id)) ∧
          (∀ h, perform (.isAccepting name) t = .error h →
            ∃ limit, h = .fault (.limitExceeded limit)) ∧
          (∀ accepting u, perform (.isAccepting name) t = .ok (.accepting accepting, u) →
            (accepting = true ↔ word ∈ Language.loose (s.language id))) ∧
          ∀ c x, t.letter? name c = some x →
            (∀ f, perform c t = .error (.fault f) → f.Admissible (t.ReadsGuarded c)) ∧
            ∀ answer u, perform c t = .ok (answer, u) →
              (answer.fits = true ↔
                ∃ rest, word ++ x :: rest ∈ Language.loose (s.language id)) ∧
              (answer.fits = false → u.matchers[name]? = t.matchers[name]?) := by
  refine ⟨fun e id t he h => e.buildsPlain s hs.sound he id t h, ?_⟩
  intro name id hm hplain hne word t haccepts
  have hstart : s.Awaits name (.ofContent id) (s.language id) := ⟨hm, rfl, hplain.built hne, rfl⟩
  obtain ⟨ht, m, hm⟩ := haccepts.awaits hs hstart
  obtain ⟨herror, haccepting⟩ := perform_isAccepting_of_isGuarded ht.sound hm.matcher hm.isGuarded
  refine ⟨?_, herror, ?_, ?_⟩
  . obtain ⟨n, hn⟩ := hm.exists_replicate_mem
    exact ⟨n, Language.append_mem_loose.2 (Language.mem_loose_of_mem hn)⟩
  . intro accepting u hperform
    rw [haccepting accepting u hperform, Language.mem_loose_iff_foldl, ← hm.language]
    rfl
  . intro c x hx
    have hreturns := hm.returns ht.sound hx
    refine ⟨hreturns.error, ?_⟩
    intro answer u hperform
    obtain ⟨_, _, m', hm', hrefused⟩ := hreturns.ok answer u hperform
    cases hfits : answer.fits with
    | false =>
      obtain ⟨rfl, hzero⟩ := hrefused hfits
      refine ⟨iff_of_false (by simp) ?_, fun _ => hm'.matcher.trans hm.matcher.symm⟩
      rintro ⟨rest, hrest⟩
      rw [Language.append_mem_loose, Language.cons_mem_loose, hzero] at hrest
      exact Language.notMem_loose_zero hrest
    | true =>
      rw [hfits, if_pos rfl] at hm'
      obtain ⟨n, hn⟩ := hm'.exists_replicate_mem
      refine ⟨iff_of_true rfl ⟨List.replicate n .anyElement, ?_⟩, by simp⟩
      rw [Language.append_mem_loose, Language.cons_mem_loose]
      exact Language.mem_loose_of_mem hn

/--
Where a child element is to be followed by text and another one in any order, text is refused at
first.
-/
theorem fits_iff_exists_continuation_interleave :
    let text : Letter := .text "x" []
    ∃ s t id, s.Reachable ∧ s.matchers["m"]? = some (.ofContent id) ∧ s.IsPlain id ∧
      id ≠ .nullSet ∧ Accepts "m" s [.anyElement] t ∧
      (∀ rest, text :: rest ∉ Language.loose (s.language id)) ∧
      ∃ rest, .anyElement :: text :: rest ∈ Language.loose (s.language id) := by
  intro text
  let content : Term := .sequence (.element .any .epsilon)
    (.interleave (.element (.only ⟨"", "a"⟩) (.reference "r")) .anyString)
  let read : Command := .readText "m" "x" [] none
  obtain ⟨s₀, hs₀, hp⟩ := Reachable.of_leadsTo (fun _ => .string) [.createMatcher "c" .epsilon]
    (fun s₀ => yields (.bind "e" content) s₀ fun _ s₁ => s₁.bindings["e"]?.any fun id =>
      yields (.createMatcher "m" (.variable "e")) s₁ fun _ s =>
        s.matchers["m"]? = some (.ofContent id) && id ≠ .nullSet &&
        yields read s fun a t => !a.fits && t.matchers["c"]? = some (.ofContent .epsilon) &&
          yields (.readChild "m" "c" false) t fun b u => b.fits && yields read u fun c _ => c.fits)
    (by simp [Command.isLawful]) (by decide +kernel)
  simp only [yields_iff, Option.any_eq_true, Bool.and_eq_true, decide_eq_true_eq] at hp
  obtain ⟨_, s₁, hbind, id, hid, _, s, hcreate, ⟨hm, hne⟩, a, t, hread, ⟨ha, hchild⟩, b, u, hchildRead,
    hb, c, v, hreadAgain, hc⟩ := hp
  have hs₁ : s₁.Reachable := hs₀.perform rfl hbind
  have hs : s.Reachable := hs₁.perform rfl hcreate
  have hplain : s.IsPlain id := by
    obtain ⟨built, after, hbuild, hrest⟩ := bind_eq_ok hbind
    cases hrest
    obtain rfl : built = id := by simpa using hid
    have hplain : after.IsPlain built := (fits_iff_exists_continuation hs₀).1 content built after
      (by simp [content, Term.IsPlain]) hbuild
    exact hplain.of_le ((perform_returns _ rfl hs₁.sound).ok _ _ hcreate).1
  have hletter : t.letter? "m" (.readChild "m" "c" false) = some .anyElement := by
    simp [letter?, hchild, Matcher.letter, Matcher.ofContent, Letter.anyElement]
  have hrefused : Accepts "m" s (if a.fits then [text] else []) t := .read rfl hread .nil
  have haccepts : Accepts "m" s (if a.fits then _ else if b.fits then _ else _) u :=
    .read rfl hread (.read hletter hchildRead .nil)
  rw [Bool.not_eq_true'] at ha
  rw [ha, if_neg (by simp), hb, if_pos rfl] at haccepts
  obtain ⟨_, hstart⟩ := fits_iff_exists_continuation hs
  obtain ⟨_, _, _, hfirst⟩ := hstart "m" id hm hplain hne [] s .nil
  obtain ⟨_, _, _, hsecond⟩ := hstart "m" id hm hplain hne _ u haccepts
  have hnever := ((hfirst read text rfl).2 a t hread).1
  have hlater := ((hsecond read text rfl).2 c v hreadAgain).1
  exact ⟨s, u, id, hs, hm, hplain, hne, haccepts, by simpa [ha] using hnever, hlater.1 hc⟩

end Session

end TreeGrammar
