import TreeGrammar.Proofs.Pool
import TreeGrammar.Proofs.Vetting

/-!
This module contains what the operations on expressions mean: the derivative by a token is what the
token leaves of the language, and simplifying while an expression is built does not change what it
stands for.
-/

namespace TreeGrammar

open Computability StoreState

def Language.attribute (names : NameClass) (l : Language Letter) : Language Letter :=
  ({w | ∃ name value scope, names.contains name ∧
    ([.text value scope] ∈ l ∨ Text.isBlank value ∧ [] ∈ l) ∧
      w = [.attribute name value scope]} : Set (List Letter))

theorem Store.language_of_attribute {s : Store} {defs : Definitions} {id content : ExprId}
    {names : NameClass} (h : s.node id = .attribute names content) :
    s.language defs id = Language.attribute names (s.language defs content) := by
  ext w
  rw [Store.mem_language_of_attribute h]
  constructor
  . rintro ⟨_, ⟨name, value, scope, hname, hvalue, rfl⟩, rfl⟩
    exact ⟨name, value, scope, hname, hvalue, rfl⟩
  . rintro ⟨name, value, scope, hname, hvalue, rfl⟩
    exact ⟨_, ⟨name, value, scope, hname, hvalue, rfl⟩, rfl⟩

namespace Session

def language (s : Session) (id : ExprId) : Language Letter :=
  s.schema.graph.store.language s.schema.definitions id

/--
The work comes to a result of which `Q` holds, unless the limit is exceeded.
-/
structure Completes {α : Type} (s : Session) (work : SessionM α) (Q : α → Session → Prop) : Prop where
  error : ∀ h, work s = .error h → ∃ limit, h = .fault (.limitExceeded limit)
  room : ∃ nodes, ∀ limit l, s.schema.graph.store.size ≤ limit + 1 →
    (work (s.withLimit limit) = .error (.fault (.limitExceeded l)) ↔
      l = limit ∧ s.schema.graph.store.Overruns limit nodes)
  ok : ∀ a t, work s = .ok (a, t) → Q a t

/--
The operation makes an expression that has the language for good, whatever is asked of the session
from then on.
-/
def Expresses (s : Session) (work : GraphM ExprId) (l : Session → Language Letter) : Prop :=
  s.Completes (onGraph fun _ => work) fun id t => ∀ u, t.Develops u → u.language id = l u

end Session

namespace Term

def built (e : Term) (s : Session) : ExprId :=
  (e.build s).toOption.elim .nullSet (·.1)

def after (e : Term) (s : Session) : Session :=
  (e.build s).toOption.elim s (·.2)

/--
The language in `u` of the term as it stands, without any simplification, when it is built in `s`.
Only expressions that have been built before, new references and elements are known by the number
they get.
-/
def language (u : Session) : Term → Session → Language Letter
  | .epsilon, _ => 1
  | .nullSet, _ => 0
  | .anyString, _ => ({w | ∀ x ∈ w, x.isText} : Set (List Letter))
  | .typedString number, s => ({w | ∃ literal scope,
      (s.schema.definitions.types number).accepts scope literal ∧ w = [.text literal scope]} :
        Set (List Letter))
  | .attribute names content, s => Language.attribute names (content.language u s)
  | .choice a b, s => a.language u s + b.language u (a.after s)
  | .sequence a b, s => a.language u s * b.language u (a.after s)
  | .interleave a b, s => Language.shuffle (a.language u s) (b.language u (a.after s))
  | .oneOrMore a, s => a.language u s * (a.language u s)∗
  | .zeroOrMore a, s => (a.language u s)∗
  | .optional a, s => a.language u s + 1
  | .mixed a, s => Language.mixed (a.language u s)
  | .variable name, s => u.language ((Term.variable name).built s)
  | .element names content, s => u.language ((Term.element names content).built s)
  | .reference name, s => u.language ((Term.reference name).built s)

end Term

namespace Session

variable {α : Type} {s t u : Session} {id a b : ExprId} {guarded : Prop}

theorem exists_room {work : SessionM α} (hwork : IsUniform work) (s : Session) :
    ∃ nodes, ∀ limit l, s.schema.graph.store.size ≤ limit + 1 →
      (work (s.withLimit limit) = .error (.fault (.limitExceeded l)) ↔
        l = limit ∧ s.schema.graph.store.Overruns limit nodes) := by
  obtain ⟨nodes, result, hinterns⟩ := hwork s
  exact ⟨nodes, fun _ _ => limitExceeded_iff hinterns⟩

theorem Completes.of_returns {work : Definitions → GraphM α} {P : α → Graph → Prop}
    {Q : α → Session → Prop} (hs : s.Sound)
    (hwork : Graph.Returns s.schema.definitions s.schema.graph (work s.schema.definitions)
      (Fault.Admissible guarded) P) (hguarded : guarded) (huniform : ∀ defs, IsUniform (work defs))
    (hQ : ∀ a t, s.schema ≤ t.schema → t.Sound → t.schema.definitions = s.schema.definitions →
      P a t.schema.graph → Q a t) : s.Completes (onGraph work) Q where
  error h heq := by
    have hreturns := hwork.admissible fun _ : True => hguarded
    rw [onGraph_apply] at heq
    split at heq
    . cases heq
    . next herror =>
      cases heq
      obtain ⟨limit, rfl⟩ := (hreturns.error _ herror).exists_limit
      exact ⟨limit, rfl⟩
  room := exists_room (onGraph_uniform huniform) s
  ok a t heq := by
    have hreturns : Returns True s (onGraph work) _ _ := onGraph_returns hs hwork
    obtain ⟨hst, ht, ha, _, hdefs⟩ := hreturns.ok a t heq
    exact hQ a t hst ht hdefs ha

theorem Completes.imp {work : SessionM α} {P Q : α → Session → Prop} (h : s.Completes work P)
    (hPQ : ∀ a t, work s = .ok (a, t) → P a t → Q a t) : s.Completes work Q :=
  ⟨h.error, h.room, fun a t hrun => hPQ a t hrun (h.ok a t hrun)⟩

theorem Completes.pure {a : α} {Q : α → Session → Prop} (ha : Q a s) :
    s.Completes (pure a) Q where
  error h heq := by cases heq
  room := exists_room (.pure a) s
  ok b t heq := by
    cases heq
    exact ha

theorem Completes.bind {β : Type} {work : SessionM α} {next : α → SessionM β}
    {P : α → Session → Prop} {Q : β → Session → Prop} (hwork : s.Completes work P)
    (huniform : IsUniform (work >>= next)) (hnext : ∀ a t, P a t → t.Completes (next a) Q) :
    s.Completes (work >>= next) Q where
  error h heq := by
    rw [bind_apply] at heq
    cases hrun : work s with
    | error => exact hwork.error h (by simpa [hrun, Except.bind] using heq)
    | ok p =>
      rw [hrun] at heq
      exact (hnext _ _ (hwork.ok _ _ hrun)).error h heq
  room := exists_room huniform s
  ok b u heq := by
    obtain ⟨a, t, ha, hb⟩ := bind_eq_ok heq
    exact (hnext a t (hwork.ok a t ha)).ok b u hb

/--
In every schema that comes of the session the operation makes an expression that has the language.
-/
def Means (s : Session) (work : GraphM ExprId) (l : Definitions → Store → Language Letter) : Prop :=
  ∀ u : Session, s.schema ≤ u.schema → u.Sound →
    Graph.Yields u.schema.definitions u.schema.graph (fun _ => work) (Fault.Admissible True)
      fun r h => ∀ t, h.store ≤ t → t.language u.schema.definitions r = l u.schema.definitions t

namespace Means

variable {work : GraphM ExprId} {l : Definitions → Store → Language Letter}

theorem binary {op : ExprId → ExprId → GraphM ExprId}
    {f : Language Letter → Language Letter → Language Letter}
    (hop : ∀ {defs : Definitions} {g : Graph} {a b : ExprId}, g.Sound defs → a ∈ g.store →
      b ∈ g.store → Graph.Yields defs g (fun _ => op a b) (Fault.Admissible True) fun r h =>
        (∀ t, h.store ≤ t → t.language defs r = f (t.language defs a) (t.language defs b)) ∧
          Composed defs g.store h.store [a, b] r) (ha : s.Has a) (hb : s.Has b) :
    s.Means (op a b) fun defs t => f (t.language defs a) (t.language defs b) :=
  fun _ hsu hu => (hop hu.graph (ha.of_le hsu) (hb.of_le hsu)).mono (fun _ hf => hf)
    fun _ _ _ _ hr => hr.1

theorem unary {op : ExprId → GraphM ExprId} {f : Language Letter → Language Letter}
    (hop : ∀ {defs : Definitions} {g : Graph} {a : ExprId}, g.Sound defs → a ∈ g.store →
      Graph.Yields defs g (fun _ => op a) (Fault.Admissible True) fun r h =>
        (∀ t, h.store ≤ t → t.language defs r = f (t.language defs a)) ∧
          Composed defs g.store h.store [a] r) (ha : s.Has a) :
    s.Means (op a) fun defs t => f (t.language defs a) :=
  fun _ hsu hu => (hop hu.graph (ha.of_le hsu)).mono (fun _ hf => hf) fun _ _ _ _ hr => hr.1

theorem language (h : s.Means work l) (hs : s.Sound)
    (hrun : onGraph (fun _ => work) s = .ok (id, t)) (htu : t.schema ≤ u.schema) (hu : u.Sound) :
    s.schema ≤ t.schema ∧ u.language id = l u.schema.definitions u.schema.graph.store := by
  have hyields := h s le_rfl hs
  rw [onGraph_apply] at hrun
  split at hrun
  . next hok =>
    cases hrun
    have hle := (hyields.returns.ok _ _ hok).1
    have hagain := hyields.again hok htu.1 htu.2
    have hsu : s.schema ≤ u.schema := ⟨htu.1, le_trans hle htu.2⟩
    exact ⟨⟨le_rfl, hle⟩, ((h u hsu hu).returns.ok _ _ hagain).2.2 _ le_rfl⟩
  . cases hrun

theorem expresses (h : s.Means work l) (hs : s.Sound) (huniform : IsUniform work) :
    s.Expresses work fun u => l u.schema.definitions u.schema.graph.store := by
  have hcompletes : s.Completes (onGraph fun _ => work) fun _ t => t.Sound :=
    .of_returns hs (h s le_rfl hs).returns trivial (fun _ => huniform) fun _ _ _ ht _ _ => ht
  refine hcompletes.imp fun id t hrun ht u htu => ?_
  obtain ⟨htu, hu⟩ := htu.le_and_sound ht
  exact (h.language hs hrun htu hu).2

end Means

theorem isNullable_ok {b : Bool} (hs : s.Sound) (hid : s.Has id)
    (h : onGraph (Graph.isNullable · id) s = .ok (b, t)) : b = true ↔ [] ∈ s.language id := by
  have hreturns : Returns True s (onGraph (Graph.isNullable · id)) _ _ :=
    onGraph_returns hs (Graph.isNullable_yields hs.graph hid).returns
  obtain ⟨hst, _, hb, _⟩ := hreturns.ok b t h
  rw [hb _ _ le_rfl le_rfl, Store.language_of_le (Graph.store_le hst.2) hs.graph.within hid]
  rfl

/--
The form of the expression in the session.
-/
def Shows (s : Session) (id : ExprId) (e : Form) : Prop :=
  s.schema.graph.store.Shows s.schema.definitions id e

theorem Shows.of_le {e : Form} (h : s.Shows id e) (hst : s.schema ≤ t.schema) : t.Shows id e :=
  Store.Shows.of_le h (Graph.store_le hst.2) hst.1

theorem shows_of_check (hs : s.Sound) (hid : s.Has id) (hcheck : s.schema.check id = .ok ()) :
    s.Shows id (s.schema.graph.store.form s.schema.definitions id) :=
  Vetted.shows ⟨hid, Schema.check_ok hcheck⟩ hs.graph.within

theorem exists_ok_of_carries {work : Definitions → GraphM α} {a : α}
    (hwork : Graph.Carries s.schema.definitions s.schema.graph (work s.schema.definitions)
      (pure a : Plan α) fun _ found a => found = a) : ∃ t, onGraph work s = .ok (a, t) := by
  obtain ⟨h, hrun⟩ := hwork.exists_ok
  rw [onGraph_apply, hrun]
  exact ⟨_, rfl⟩

theorem isNullable_of_shows {e : Form} (hs : s.Sound) (h : s.Shows id e) :
    ∃ t, onGraph (Graph.isNullable · id) s = .ok (e.nullable, t) :=
  exists_ok_of_carries (Graph.isNullable_carries hs.graph h)

theorem exists_isNullable (hs : s.Sound) (hid : s.Has id) (hcheck : s.schema.check id = .ok ()) :
    ∃ b t, onGraph (Graph.isNullable · id) s = .ok (b, t) := by
  obtain ⟨t, ht⟩ := isNullable_of_shows hs (shows_of_check hs hid hcheck)
  exact ⟨_, t, ht⟩

/--
The derivative of a checked expression has exactly the words that the expression has after the
token, and whether a checked expression accepts no content is found out for certain.
-/
theorem mem_language_derivative_iff (hs : s.Arises) (hid : s.Has id)
    (hcheck : s.schema.check id = .ok ()) (token : Token) :
    (∃ b t, onGraph (Graph.isNullable · id) s = .ok (b, t) ∧ (b = true ↔ [] ∈ s.language id)) ∧
      s.Completes (onGraph fun defs => Graph.derivative defs token id) fun d t =>
        t.Has d.rest ∧ ∀ u, t.Develops u → u.language id = s.language id ∧
          ∀ w, w ∈ u.language d.rest ↔ token.letter :: w ∈ s.language id := by
  have hs := hs.sound
  have hwithin := hs.graph.within
  have hguarded : Guarded s.schema.graph.store s.schema.definitions id :=
    (Schema.check_ok hcheck).guarded
  refine ⟨?_, .of_returns hs (Graph.derivative_returns hs.graph hid) hguarded
    (fun _ => Graph.derivative_uniform token id) ?_⟩
  . obtain ⟨b, t, hb⟩ := exists_isNullable hs hid hcheck
    exact ⟨b, t, hb, isNullable_ok hs hid hb⟩
  . intro d t hst ht hdefs hd
    have hrest := hd.mem hwithin hid (Graph.store_le hst.2)
    have hrestGuarded := hd.composed.guarded hwithin (Graph.store_le hst.2)
      (by simpa using ⟨hid, hguarded⟩)
    rw [← hdefs] at hrestGuarded
    have hquotient : t.language d.rest =
        (t.schema.graph.store.language s.schema.definitions id).leftQuotient [token.letter] := by
      unfold language
      rw [hdefs]
      exact hd.related _ le_rfl
    refine ⟨hrest, fun u htu => ?_⟩
    have htuLe := (htu.le_and_sound ht).1
    -- nothing that is guarded changes with what is defined later
    have hsame : u.language id = s.language id :=
      hguarded.language_of_le (Graph.store_le (le_trans hst htuLe).2) (le_trans hst htuLe).1 hwithin hid
    have hrestSame : u.language d.rest = t.language d.rest :=
      hrestGuarded.language_of_le (Graph.store_le htuLe.2) htuLe.1 ht.graph.within hrest
    refine ⟨hsame, fun w => ?_⟩
    rw [hrestSame, hquotient, Store.language_of_le (Graph.store_le hst.2) hwithin hid]
    rfl

/--
A child element is read where a reference, text and an attribute are expected in any order.
-/
theorem mem_language_derivative_iff_reference :
    ∃ s id x d t, s.Arises ∧ s.Has id ∧ s.schema.check id = .ok () ∧
      onGraph (fun defs => Graph.derivative defs (.element [x]) id) s = .ok (d, t) ∧
      d.rest ≠ .nullSet ∧
      ∀ w, w ∈ t.language d.rest ↔ Letter.element (· ∈ [x]) :: w ∈ s.language id := by
  obtain ⟨s, hs, hp⟩ := Reachable.of_leadsTo (fun _ => .string)
    [.bind "r" (.reference "r"), .bind "x" (.element .any (.variable "r")),
      .define (.variable "r") (.optional (.variable "x")),
      .bind "e" (.interleave (.attribute .any .anyString)
        (.sequence (.variable "r") (.mixed (.variable "x"))))]
    (fun s => s.bindings["e"]?.any fun id => s.bindings["x"]?.any fun x =>
      s.schema.check id = .ok () &&
        (onGraph (fun defs => Graph.derivative defs (.element [x]) id) s).toOption.any fun p =>
          p.1.rest ≠ .nullSet)
    (by simp [Command.isLawful]) (by decide +kernel)
  obtain ⟨id, hid, hp⟩ := (Option.any_eq_true _ _).1 hp
  obtain ⟨x, hx, hp⟩ := (Option.any_eq_true _ _).1 hp
  simp only [Bool.and_eq_true, decide_eq_true_eq] at hp
  obtain ⟨hcheck, hp⟩ := hp
  have hid := hs.sound.bindings _ id hid
  obtain ⟨⟨d, t⟩, hrun, hp⟩ := exists_of_any_toOption hp
  rw [decide_eq_true_eq] at hp
  obtain ⟨_, hderivative⟩ := mem_language_derivative_iff hs.arises hid hcheck (.element [x])
  obtain ⟨_, hlanguage⟩ := hderivative.ok d t hrun
  exact ⟨s, id, x, d, t, hs.arises, hid, hcheck, hrun, hp, (hlanguage t .refl).2⟩

theorem built_of_ok {e : Term} (h : e.build s = .ok (id, t)) : e.built s = id := by
  simp [Term.built, h, Except.toOption]

theorem after_of_ok {e : Term} (h : e.build s = .ok (id, t)) : e.after s = t := by
  simp [Term.after, h, Except.toOption]

def IsLiteral (e : Term) : Prop :=
  ∀ s : Session, s.Sound → ∀ id t, e.build s = .ok (id, t) → ∀ u : Session, t.schema ≤ u.schema →
    u.Sound → u.language id = e.language u s

theorem buildBinary_language {e e' : Term} {op : ExprId → ExprId → GraphM ExprId}
    {f : Language Letter → Language Letter → Language Letter}
    (hop : ∀ {s : Session} {a b : ExprId}, s.Has a → s.Has b →
      s.Means (op a b) fun defs t => f (t.language defs a) (t.language defs b))
    (he : IsLiteral e) (he' : IsLiteral e') (hs : s.Sound)
    (h : (e.build >>= fun a => e'.build >>= fun b => onGraph fun _ => op a b) s = .ok (id, t))
    (htu : t.schema ≤ u.schema) (hu : u.Sound) :
    u.language id = f (e.language u s) (e'.language u (e.after s)) := by
  obtain ⟨a, v, ha, h⟩ := bind_eq_ok h
  obtain ⟨b, w, hb, h⟩ := bind_eq_ok h
  obtain ⟨hsv, hv, haHas⟩ := makes_of_build hs ha
  obtain ⟨hvw, hw, hbHas⟩ := makes_of_build hv hb
  obtain ⟨hwt, hlanguage⟩ := (hop (haHas.has.of_le hvw) hbHas.has).language hw h htu hu
  have hwu := le_trans hwt htu
  rw [after_of_ok ha, ← he s hs a v ha u (le_trans hvw hwu) hu, ← he' v hv b w hb u hwu hu]
  exact hlanguage

theorem buildUnary_language {e : Term} {op : ExprId → GraphM ExprId}
    {f : Language Letter → Language Letter}
    (hop : ∀ {s : Session} {a : ExprId}, s.Has a →
      s.Means (op a) fun defs t => f (t.language defs a))
    (he : IsLiteral e) (hs : s.Sound)
    (h : (e.build >>= fun a => onGraph fun _ => op a) s = .ok (id, t))
    (htu : t.schema ≤ u.schema) (hu : u.Sound) : u.language id = f (e.language u s) := by
  obtain ⟨a, v, ha, h⟩ := bind_eq_ok h
  obtain ⟨hsv, hv, haHas⟩ := makes_of_build hs ha
  obtain ⟨hvt, hlanguage⟩ := (hop haHas.has).language hv h htu hu
  rw [← he s hs a v ha u (le_trans hvt htu) hu]
  exact hlanguage

theorem attribute_language {names : NameClass} {e : Term} (he : IsLiteral e) (hs : s.Sound)
    (h : (Term.attribute names e).build s = .ok (id, t)) (htu : t.schema ≤ u.schema) (hu : u.Sound) :
    u.language id = Language.attribute names (e.language u s) := by
  obtain ⟨a, v, ha, h⟩ := bind_eq_ok h
  obtain ⟨hsv, hv, haHas⟩ := makes_of_build hs ha
  have hintern : Returns True v (onGraph fun _ => Graph.intern (.attribute names a)) _ _ :=
    intern_returns hv (by simpa [Node.children] using haHas.has) rfl
  obtain ⟨hvt, ht, hmakes, hnode, _⟩ := hintern.ok id t h
  have hnode := (Store.node_of_le (Graph.store_le htu.2) hmakes.has).trans hnode
  rw [← he s hs a v ha u (le_trans hvt htu) hu]
  exact Store.language_of_attribute hnode

theorem typedString_language {number : Nat} (hs : s.Sound)
    (h : (Term.typedString number).build s = .ok (id, t)) (htu : t.schema ≤ u.schema) :
    u.language id = (Term.typedString number).language u s := by
  have hintern : Returns True s (onGraph fun _ => Graph.intern (.typedString number)) _ _ :=
    intern_returns hs (by simp [Node.children]) rfl
  obtain ⟨hst, ht, hmakes, hnode, _⟩ := hintern.ok id t h
  have hnode := (Store.node_of_le (Graph.store_le htu.2) hmakes.has).trans hnode
  have htypes : u.schema.definitions.types = s.schema.definitions.types :=
    Definitions.types_eq (le_trans hst htu).1
  ext w
  unfold language
  rw [Store.mem_language_of_typedString hnode, htypes]
  constructor
  . rintro ⟨_, ⟨literal, scope, haccepts, rfl⟩, rfl⟩
    exact ⟨literal, scope, haccepts, rfl⟩
  . rintro ⟨literal, scope, haccepts, rfl⟩
    exact ⟨_, ⟨literal, scope, haccepts, rfl⟩, rfl⟩

theorem isLiteral (e : Term) : IsLiteral e := by
  induction e with
  | epsilon =>
    rintro s hs _ _ ⟨⟩ u _ _
    exact Store.language_epsilon
  | nullSet =>
    rintro s hs _ _ ⟨⟩ u _ _
    exact Store.language_nullSet
  | anyString =>
    rintro s hs _ _ ⟨⟩ u _ _
    ext w
    exact Store.mem_language_of_anyString u.schema.graph.store.node_anyString
  | typedString number => exact fun s hs id t h u htu _ => typedString_language hs h htu
  | «attribute» names content ih =>
    exact fun s hs id t h u htu hu => attribute_language ih hs h htu hu
  | choice a b iha ihb =>
    exact fun s hs id t h u htu hu =>
      buildBinary_language (.binary Graph.choice_yields) iha ihb hs h htu hu
  | sequence a b iha ihb =>
    exact fun s hs id t h u htu hu =>
      buildBinary_language (.binary Graph.sequence_yields) iha ihb hs h htu hu
  | interleave a b iha ihb =>
    exact fun s hs id t h u htu hu =>
      buildBinary_language (.binary Graph.interleave_yields) iha ihb hs h htu hu
  | oneOrMore a ih =>
    let f (l : Language Letter) := l * l∗
    exact fun s hs id t h u htu hu =>
      buildUnary_language (f := f) (.unary (f := f) Graph.oneOrMore_yields) ih hs h htu hu
  | zeroOrMore a ih =>
    exact fun s hs id t h u htu hu =>
      buildUnary_language (.unary Graph.zeroOrMore_yields) ih hs h htu hu
  | optional a ih =>
    let f (l : Language Letter) := l + 1
    exact fun s hs id t h u htu hu =>
      buildUnary_language (f := f) (.unary (f := f) Graph.optional_yields) ih hs h htu hu
  | mixed a ih =>
    exact fun s hs id t h u htu hu =>
      buildUnary_language (.unary Graph.mixed_yields) ih hs h htu hu
  | «variable» | element | reference =>
    intro s hs id t h u htu _
    rw [Term.language, built_of_ok h]

/--
With all that the operations simplify, they make what they stand for, and a term has the language
that it has as it stands, references that are defined only later included.
-/
theorem operations_express (hs : s.Arises) (ha : s.Has a) (hb : s.Has b) :
    s.Expresses (Graph.choice a b) (fun u => u.language a + u.language b) ∧
      s.Expresses (Graph.sequence a b) (fun u => u.language a * u.language b) ∧
      s.Expresses (Graph.interleave a b) (fun u =>
        Language.shuffle (u.language a) (u.language b)) ∧
      s.Expresses (Graph.oneOrMore a) (fun u => u.language a * (u.language a)∗) ∧
      s.Expresses (Graph.zeroOrMore a) (fun u => (u.language a)∗) ∧
      s.Expresses (Graph.optional a) (fun u => u.language a + 1) ∧
      s.Expresses (Graph.mixed a) (fun u => Language.mixed (u.language a)) ∧
      ∀ (e : Term) id t, e.build s = .ok (id, t) → ∀ u, t.Develops u →
        u.language id = e.language u s ∧
          (∀ b v, onGraph (Graph.isNullable · id) u = .ok (b, v) →
            (b = true ↔ [] ∈ e.language u s)) ∧
          (u.schema.check id = .ok () → ∃ b v, onGraph (Graph.isNullable · id) u = .ok (b, v)) := by
  have hs := hs.sound
  refine ⟨(Means.binary Graph.choice_yields ha hb).expresses hs (Graph.choice_uniform a b),
    (Means.binary Graph.sequence_yields ha hb).expresses hs (Graph.sequence_uniform a b),
    (Means.binary Graph.interleave_yields ha hb).expresses hs (Graph.interleave_uniform a b),
    (Means.unary (f := fun l => l * l∗) Graph.oneOrMore_yields ha).expresses hs
      (Graph.oneOrMore_uniform a),
    (Means.unary Graph.zeroOrMore_yields ha).expresses hs (Graph.zeroOrMore_uniform a),
    (Means.unary (f := (· + 1)) Graph.optional_yields ha).expresses hs
      (Graph.choice_uniform a .epsilon),
    (Means.unary Graph.mixed_yields ha).expresses hs (Graph.mixed_uniform a), ?_⟩
  intro e id t he u htu
  obtain ⟨_, ht, hid⟩ := makes_of_build hs he
  obtain ⟨htu, hu⟩ := htu.le_and_sound ht
  have hid := hid.has.of_le htu
  have hlanguage := isLiteral e s hs id t he u htu hu
  refine ⟨hlanguage, ?_, exists_isNullable hu hid⟩
  intro b v hrun
  rw [isNullable_ok hu hid hrun, hlanguage]

/--
A choice of a reference or nothing and of nothing or a child element: one alternative is dropped.
-/
theorem operations_express_overlap :
    ∃ s a b c t, s.Arises ∧ s.Has a ∧ s.Has b ∧
      onGraph (fun _ => Graph.choice a b) s = .ok (c, t) ∧
      (∃ d, t.schema.graph.store.node c = .choice a d ∧ d ≠ b) ∧
      ∀ u, t.Develops u → u.language c = u.language a + u.language b := by
  obtain ⟨s, hs, hp⟩ := Reachable.of_leadsTo (fun _ => .string)
    [.bind "a" (.choice (.reference "r") .epsilon),
      .bind "b" (.choice .epsilon (.element .any .epsilon))]
    (fun s => s.bindings["a"]?.any fun a => s.bindings["b"]?.any fun b =>
      (onGraph (fun _ => Graph.choice a b) s).toOption.any fun p =>
        let node := p.2.schema.graph.store.node p.1
        node.children.any fun d => node = .choice a d && d ≠ b)
    (by simp [Command.isLawful]) (by decide +kernel)
  obtain ⟨a, ha, hp⟩ := (Option.any_eq_true _ _).1 hp
  obtain ⟨b, hb, hp⟩ := (Option.any_eq_true _ _).1 hp
  have ha := hs.sound.bindings _ a ha
  have hb := hs.sound.bindings _ b hb
  obtain ⟨⟨c, t⟩, hrun, hp⟩ := exists_of_any_toOption hp
  refine ⟨s, a, b, c, t, hs.arises, ha, hb, hrun, ?_, ?_⟩
  . obtain ⟨d, -, hd⟩ := List.any_eq_true.1 hp
    exact ⟨d, by simpa using hd⟩
  . exact (operations_express hs.arises ha hb).1.ok c t hrun

end Session

end TreeGrammar
