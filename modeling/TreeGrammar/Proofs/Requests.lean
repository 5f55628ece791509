import TreeGrammar.Proofs.Restrictions
import TreeGrammar.Proofs.Sessions

/-!
This module contains what the requests to a session have in common: that they keep a session sound,
and which of the things that have a name they leave alone.
-/

namespace TreeGrammar

namespace Command

/--
The request leaves it to the graph what is remembered of derivatives.
-/
def isLawful : Command → Bool
  | .remember .. => false
  | _ => true

/--
The answer to the request is not about what is remembered of derivatives.
-/
def isNeutral : Command → Bool
  | .remember .. | .lookUp .. | .settings => false
  | _ => true

theorem isLawful_of_isNeutral {c : Command} (h : c.isNeutral) : c.isLawful := by
  cases c with
  | remember => cases h
  | _ => rfl

def Replaces (c : Command) (name : String) : Prop :=
  match c with
  | .createMatcher m _ | .enterChild _ _ m | .readChild m .. | .readText m .. | .readAttribute m .. |
    .endAttributes m | .grantAttributes m => m = name
  | .createGrammar _ => True
  | _ => False

def Revises (c : Command) (name : String) : Prop :=
  match c with
  | .createValidation v | .take v _ => v = name
  | _ => False

end Command

def Answer.fits : Answer → Bool
  | .read fits | .readText fits _ => fits
  | _ => false

namespace Session

structure Alters (ms vs : String → Prop) (s t : Session) : Prop where
  matchers : ∀ name, ¬ ms name → t.matchers[name]? = s.matchers[name]?
  validations : ∀ name, ¬ vs name → t.validations[name]? = s.validations[name]?
  grammar : ∀ gr, s.grammar = some gr → t.grammar = some gr

variable {α : Type} {s t u : Session} {neutral : Prop} {E : Fault → Prop} {ms vs : String → Prop}
variable {id : ExprId} {name : String} {m : Matcher}

namespace Alters

theorem refl : Alters ms vs s s :=
  ⟨fun _ _ => rfl, fun _ _ => rfl, fun _ h => h⟩

theorem trans (hst : Alters ms vs s t) (htu : Alters ms vs t u) : Alters ms vs s u where
  matchers name h := (htu.matchers name h).trans (hst.matchers name h)
  validations name h := (htu.validations name h).trans (hst.validations name h)
  grammar gr h := htu.grammar gr (hst.grammar gr h)

theorem of_extends (h : s.Extends t) : Alters ms vs s t := by
  rw [h]
  exact ⟨fun _ _ => rfl, fun _ _ => rfl, fun _ h => h⟩

theorem bind : Alters ms vs s { s with bindings := s.bindings.insert name id } :=
  ⟨fun _ _ => rfl, fun _ _ => rfl, fun _ h => h⟩

theorem putPicker {results : Results} :
    Alters ms vs s { s with pickers := s.pickers.insert name results } :=
  ⟨fun _ _ => rfl, fun _ _ => rfl, fun _ h => h⟩

theorem putMatcher (hname : ms name) :
    Alters ms vs s { s with matchers := s.matchers.insert name m } where
  matchers := by
    intro other hother
    dsimp only
    rw [getElem?_insert, if_neg]
    rintro rfl
    exact hother hname
  validations _ _ := rfl
  grammar _ h := h

theorem putValidation {v : Validation} (hname : vs name) :
    Alters ms vs s { s with validations := s.validations.insert name v } where
  matchers _ _ := rfl
  validations := by
    intro other hother
    dsimp only
    rw [getElem?_insert, if_neg]
    rintro rfl
    exact hother hname
  grammar _ h := h

end Alters

theorem size_returns (hs : s.Sound) : Returns neutral s size E fun _ t => t = s :=
  Returns.get (fun _ => rfl) (.pure hs rfl)

theorem bind_returns (hs : s.Sound) (hid : s.Has id) :
    Returns neutral s (Session.bind name id) E fun _ t =>
      t = { s with bindings := s.bindings.insert name id } :=
  .modify rfl le_rfl (hs.bind hid) rfl

theorem putMatcher_returns (hs : s.Sound) (hm : m.Within s.schema.graph.store) :
    Returns neutral s (putMatcher name m) E fun _ t =>
      t = { s with matchers := s.matchers.insert name m } :=
  .modify rfl le_rfl (hs.putMatcher hm) rfl

theorem putPicker_returns {results : Results} (hs : s.Sound)
    (hresults : results.Within s.schema.graph.store) :
    Returns neutral s (putPicker name results) E fun _ t =>
      t = { s with pickers := s.pickers.insert name results } :=
  .modify rfl le_rfl (hs.putPicker hresults) rfl

theorem putValidation_returns {v : Validation} (hs : s.Sound)
    (hv : v.IsVetted s.schema.graph.store s.schema.definitions) :
    Returns neutral s (putValidation name v) E fun _ t =>
      t = { s with validations := s.validations.insert name v } :=
  .modify rfl le_rfl (hs.putValidation hv) rfl

theorem matcherNamed_returns (hs : s.Sound) :
    Returns neutral s (matcherNamed name) E fun m t => t = s ∧ s.matchers[name]? = some m :=
  Returns.get (fun _ => rfl) (found_returns hs)

theorem pickerNamed_returns (hs : s.Sound) :
    Returns neutral s (pickerNamed name) E fun results t =>
      t = s ∧ s.pickers[name]? = some results :=
  Returns.get (fun _ => rfl) (found_returns hs)

theorem validationNamed_returns (hs : s.Sound) :
    Returns neutral s (validationNamed name) E fun v t => t = s ∧ s.validations[name]? = some v :=
  Returns.get (fun _ => rfl) (found_returns hs)

theorem theGrammar_returns (hs : s.Sound) :
    Returns neutral s theGrammar E fun gr t => t = s ∧ s.grammar = some gr :=
  Returns.get (fun _ => rfl) (found_returns hs)

theorem matcherNamed_apply (h : s.matchers[name]? = some m) : matcherNamed name s = .ok (m, s) := by
  have hfound : matcherNamed name s = found s.matchers[name]? (.unknownMatcher name) s := rfl
  rw [hfound, h]
  rfl

theorem validationNamed_apply {v : Validation} (h : s.validations[name]? = some v) :
    validationNamed name s = .ok (v, s) := by
  have hfound : validationNamed name s = found s.validations[name]? (.unknownValidation name) s :=
    rfl
  rw [hfound, h]
  rfl

theorem theGrammar_apply {gr : Grammar} (h : s.grammar = some gr) : theGrammar s = .ok (gr, s) := by
  have hfound : theGrammar s = found s.grammar .noGrammar s := rfl
  rw [hfound, h]
  rfl

structure Advances (name : String) (P : Matcher → Option Matcher → Graph → Prop) (s : Session)
    (answer : Answer) (t : Session) : Prop where
  alters : Alters (name = ·) (fun _ => False) s t
  definitions : t.schema.definitions = s.schema.definitions
  read : ∃ m m?, s.matchers[name]? = some m ∧ P m m? t.schema.graph ∧ answer.fits = m?.isSome ∧
    t.matchers[name]? = some (m?.getD m)

section Advance

variable {P : Matcher → Option Matcher → Graph → Prop}
variable {read? : Definitions → Matcher → GraphM (Option Matcher)}

theorem Advances.put {answer : Answer} {m? : Option Matcher} (hm : s.matchers[name]? = some m)
    (hst : s.Extends t) (hdefs : t.schema.definitions = s.schema.definitions)
    (hP : P m m? t.schema.graph) (hfits : answer.fits = m?.isSome) :
    Advances name P s answer { t with matchers := t.matchers.insert name (m?.getD m) } :=
  ⟨.trans (.of_extends hst) (.putMatcher rfl), hdefs, m, m?, hm, hP, hfits,
    Std.TreeMap.getElem?_insert_self⟩

theorem advance_returns (hs : s.Sound)
    (hread : ∀ m, s.matchers[name]? = some m → Graph.Returns s.schema.definitions s.schema.graph
      (read? s.schema.definitions m) E (P m))
    (hwithin : ∀ m m' g, s.matchers[name]? = some m → s.schema.graph ≤ g → P m (some m') g →
      m'.Within g.store) :
    Returns neutral s (advance name read?) E (Advances name P s) := by
  unfold advance
  refine Returns.bind (matcherNamed_returns hs) ?_
  rintro m _ _ _ ⟨rfl, hm⟩
  refine Returns.bind (onGraph_returns hs (hread m hm)) ?_
  rintro m? t hle ht ⟨hP, hextends, hdefs⟩
  have hm' : (m?.getD m).Within t.schema.graph.store := by
    cases m? with
    | none => exact (hs.matchers name m hm).of_le (Graph.store_le hle.2)
    | some m' => exact hwithin m m' _ hm hle.2 hP
  refine Returns.bind (putMatcher_returns ht hm') ?_
  rintro _ _ _ hu rfl
  exact .pure hu (.put hm hextends hdefs hP rfl)

theorem readText_returns {literal : String} {scope : Scope} {previous : Option Nat} (hs : s.Sound)
    (hread : ∀ m, s.matchers[name]? = some m → Graph.Returns s.schema.definitions s.schema.graph
      (m.readText? s.schema.definitions literal scope) E fun r g => P m (r.map (·.1)) g)
    (hwithin : ∀ m m' g, s.matchers[name]? = some m → s.schema.graph ≤ g → P m (some m') g →
      m'.Within g.store) :
    Returns neutral s (readText name literal scope previous) E (Advances name P s) := by
  unfold readText
  refine Returns.bind (matcherNamed_returns hs) ?_
  rintro m _ _ _ ⟨rfl, hm⟩
  refine Returns.bind (onGraph_returns hs (hread m hm)) ?_
  rintro r t hle ht ⟨hP, hextends, hdefs⟩
  cases r with
  | none =>
    refine .pure ht ⟨.of_extends hextends, hdefs, m, none, hm, hP, rfl, ?_⟩
    rw [hextends]
    exact hm
  | some p =>
    refine Returns.bind (putMatcher_returns ht (hwithin m p.1 _ hm hle.2 hP)) ?_
    rintro _ _ _ hu rfl
    exact .pure hu (.put hm hextends hdefs hP rfl)

end Advance

theorem onGraph_extends {work : Definitions → GraphM α} {Q : α → Graph → Prop} (hs : s.Sound)
    (hwork : Graph.Returns s.schema.definitions s.schema.graph (work s.schema.definitions) E Q) :
    Returns neutral s (onGraph work) (fun _ => True) fun _ t => s.Extends t :=
  (onGraph_returns hs hwork).mono (fun _ _ => trivial) fun _ _ _ _ h => h.2.1

theorem remembered?_returns {element : ExprId} (hs : s.Sound) (hneutral : ¬ neutral) :
    Returns neutral s (onGraph fun _ => Graph.remembered? id element) E fun _ t => t = s where
  forgetful h := absurd h hneutral
  error := by
    rintro f ⟨⟩
  ok := by
    rintro a t ⟨⟩
    exact ⟨le_rfl, hs, rfl⟩

theorem advance_alters {read? : Definitions → Matcher → GraphM (Option Matcher)} (hs : s.Sound)
    (hread : ∀ m, m.Within s.schema.graph.store →
      Graph.Returns s.schema.definitions s.schema.graph (read? s.schema.definitions m)
        (fun _ => True) fun m? g => ∀ m', m? = some m' → m'.Within g.store) :
    Returns neutral s (advance name read?) (fun _ => True) fun _ t =>
      Alters (name = ·) (fun _ => False) s t := by
  have hadvance : Returns neutral s (advance name read?) (fun _ => True) (Advances name _ s) :=
    advance_returns hs (fun m hm => hread m (hs.matchers name m hm)) fun _ m' _ _ _ h => h m' rfl
  exact hadvance.mono (fun _ hf => hf) fun _ _ _ _ h => h.alters

theorem enterChild_returns {parent child : String} {label : Name} (hs : s.Sound) :
    Returns neutral s (enterChild parent label child) (fun _ => True) fun _ t =>
      Alters (child = ·) (fun _ => False) s t := by
  unfold enterChild
  refine Returns.bind (matcherNamed_returns hs) ?_
  rintro m _ _ _ ⟨rfl, hm⟩
  have hmWithin := hs.matchers parent m hm
  have hchild := Matcher.child?_returns label hs.graph hmWithin.state
  refine Returns.bind ((onGraph_returns hs hchild).mono (fun _ _ => trivial) fun _ _ _ _ h => h) ?_
  rintro r t hle ht ⟨hr, hextends, _⟩
  cases r with
  | none => exact .pure ht (.of_extends hextends)
  | some m' =>
    obtain ⟨found, _, hfound, hjoins⟩ := hr
    have hm' := hjoins.within hs.graph.within (Graph.store_le hle.2) fun slot hslot =>
      ((hfound slot).1 hslot).mem
    refine Returns.bind (putMatcher_returns ht hm') ?_
    rintro _ _ _ hu rfl
    exact .pure hu (.trans (.of_extends hextends) (.putMatcher rfl))

theorem inspect_returns (hs : s.Sound) :
    Returns neutral s (inspect id) E fun _ t => t = s := by
  refine Returns.get (fun _ => rfl) ?_
  dsimp only
  split
  . exact .pure hs rfl
  . exact .pure hs rfl

theorem asReference_returns (hs : s.Sound) :
    Returns neutral s (asReference id) (fun _ => True) fun _ t => t = s := by
  refine Returns.get (fun _ => rfl) ?_
  dsimp only
  split
  . exact .pure hs rfl
  . exact .throw fun _ _ => trivial

theorem follow_returns {r : RefId} (hs : s.Sound) :
    Returns neutral s (onGraph fun defs => return (← defs.follow r).val) (fun _ => True)
      fun _ t => s.Extends t := by
  refine (onGraph_returns (E := fun _ => True) (Q := fun _ _ => True) hs ?_).mono
    (fun _ hf => hf) fun _ _ _ _ h => h.2.1
  exact .follow (fun _ => trivial) fun _ _ => .pure hs.graph trivial

theorem derive_returns {e : Term} {token : TokenTerm} {name : Option String} (hs : s.Sound) :
    Returns neutral s (derive e token name) (fun _ => True) fun _ t => Alters ms vs s t := by
  unfold derive
  refine Returns.bind (build_returns e s hs) ?_
  intro id t _ ht hid
  refine Returns.bind (buildToken_returns token ht) ?_
  intro token u htu hu hextends
  have hid' := hid.has.of_le htu
  have hderive : Graph.Returns u.schema.definitions u.schema.graph
      (Graph.derivative u.schema.definitions token id) _ _ :=
    Graph.derivative_returns hu.graph hid'
  refine Returns.bind ((onGraph_returns hu hderive).mono (fun _ _ => trivial)
    fun _ _ _ _ h => h) ?_
  rintro d v huv hv ⟨hd, hextends', _⟩
  have hall : s.Extends v := (hid.only.trans hextends).trans hextends'
  have hrest : v.Has d.rest := hd.mem hu.graph.within hid' (Graph.store_le huv.2)
  have hshow {w : Session} (hw : w.Sound) (hvw : Alters ms vs v w) :
      Returns neutral w (do return Answer.derived d.rest (← size) (d.matched.map (·.number)))
        (fun _ => True) fun _ t => Alters ms vs s t := by
    refine Returns.bind (size_returns hw) ?_
    rintro _ _ _ hw rfl
    exact .pure hw (.trans (.of_extends hall) hvw)
  cases name with
  | none => exact hshow hv .refl
  | some name =>
    refine Returns.bind (bind_returns hv hrest) ?_
    rintro _ _ _ hw rfl
    exact hshow hw .bind

theorem pick_returns {picker : String} {e : Term} {name : Option String} (hs : s.Sound) :
    Returns neutral s (pick picker e name) (fun _ => True) fun answer t =>
      Alters ms vs s t ∧ ∃ id size, answer = .picked id size ∧ t.Has id := by
  unfold pick
  refine Returns.bind (build_returns e s hs) ?_
  intro id t _ ht hid
  refine Returns.bind (pickerNamed_returns ht) ?_
  rintro results _ _ _ ⟨rfl, hresults⟩
  have hrequired := Graph.requiredFrom_within [] id ht.graph hid.has (ht.pickers picker _ hresults)
  refine Returns.bind (onGraph_returns ht hrequired) ?_
  rintro ⟨attributes, results⟩ u _ hu ⟨⟨hattributes, hresults⟩, hextends, _⟩
  refine Returns.bind (putPicker_returns hu hresults) ?_
  rintro _ v _ hv rfl
  have hall := hid.only.trans hextends
  have hshow {w : Session} (hw : w.Sound) (huw : Alters ms vs u w) (hmem : w.Has attributes) :
      Returns neutral w (do return Answer.picked attributes (← size)) (fun _ => True)
        fun answer t => Alters ms vs s t ∧ ∃ id size, answer = .picked id size ∧ t.Has id := by
    refine Returns.bind (size_returns hw) ?_
    rintro size _ _ hw rfl
    exact .pure hw ⟨.trans (.of_extends hall) huw, attributes, size, rfl, hmem⟩
  cases name with
  | none => exact hshow hv .putPicker hattributes
  | some name =>
    refine Returns.bind (bind_returns hv hattributes) ?_
    rintro _ _ _ hw rfl
    exact hshow hw (.trans .putPicker .bind) hattributes

theorem isAccepting_returns (hs : s.Sound) (hm : m.Within s.schema.graph.store) :
    Returns neutral s (onGraph fun defs => m.isAccepting defs)
      (Fault.Admissible (Guarded s.schema.graph.store s.schema.definitions m.state)) fun b t =>
      s.Extends t ∧ (b = true ↔
        [] ∈ s.schema.graph.store.language s.schema.definitions m.state) := by
  let Q (b : Bool) : Prop :=
    b = true ↔ [] ∈ s.schema.graph.store.language s.schema.definitions m.state
  refine (onGraph_returns (Q := fun b _ => Q b) hs ?_).mono (fun _ hf => hf) ?_
  . exact Matcher.isNullable_returns hs.graph hm.state
  . exact fun b t _ _ ⟨hQ, hextends, _⟩ => ⟨hextends, hQ⟩

theorem listSatisfied_returns (hs : s.Sound) :
    Returns neutral s (listSatisfied name) (Fault.Admissible (∀ m, s.matchers[name]? = some m →
      m.IsGuarded s.schema.graph.store s.schema.definitions)) fun _ t => s.Extends t := by
  unfold listSatisfied
  refine Returns.bind (matcherNamed_returns hs) ?_
  rintro m _ _ hs ⟨rfl, hm⟩
  cases m with
  | single => exact .pure hs .refl
  | several state slots =>
    have hsatisfied := Matcher.satisfied_returns slots hs.graph fun slot hslot =>
      ((hs.matchers name _ hm).slots slot hslot).2
    refine Returns.bind (onGraph_returns hs (hsatisfied.admissible fun h => (h _ hm).slots)) ?_
    exact fun _ _ _ ht h => .pure ht h.2.1

theorem onSchema_bind {α β : Type} (work : SchemaM α) (next : α → SchemaM β) :
    onSchema (work >>= next) = onSchema work >>= fun a => onSchema (next a) := by
  funext s
  have hrun : (work >>= next) s.schema = (work s.schema).bind fun p => next p.1 p.2 := rfl
  have hrun' : (onSchema work >>= fun a => onSchema (next a)) s =
      (onSchema work s).bind fun p => onSchema (next p.1) p.2 := rfl
  rw [hrun']
  unfold onSchema StateT.run
  rw [hrun]
  cases work s.schema <;> rfl

theorem anyContent_returns {any : ExprId} (hs : s.Sound) (hany : s.Has any) :
    Returns neutral s (onGraph fun _ => Graph.anything any) (fun _ => True) fun content t =>
      s.Makes content t ∧ t.schema.definitions = s.schema.definitions ∧
        (∃ x e, t.schema.graph.store.node x = .attribute .any .anyString ∧
          t.schema.graph.store.node e = .element .any any ∧
          Made t.schema.graph.store (Ingredient x e) content) ∧
        ∃ e, t.schema.graph.store.Shows s.schema.definitions content
          (Form.anything ⟨e, .any, any⟩) := by
  have hany : any ∈ s.schema.graph.store := hany
  have hmem {g h : Graph} {operands : List ExprId} {r : ExprId} (hg : g.Sound s.schema.definitions)
      (hgh : g ≤ h) (hoperands : ∀ a ∈ operands, a ∈ g.store)
      (hr : Composed s.schema.definitions g.store h.store operands r) : r ∈ h.store :=
    hr.mem hg.within (Graph.store_le hgh) hoperands
  let Q (r : ExprId) (g : Graph) : Prop := r ∈ g.store ∧
    ∃ x e, g.store.node x = .attribute .any .anyString ∧ g.store.node e = .element .any any ∧
      Made g.store (Ingredient x e) r
  let R (r : ExprId) (g : Graph) : Prop :=
    ∃ e, g.store.Shows s.schema.definitions r (Form.anything ⟨e, .any, any⟩)
  have hanything := Graph.anything_returns hs.graph hany
  suffices hQ : Graph.Returns s.schema.definitions s.schema.graph _ (fun _ => True) Q from
    (onGraph_returns (E := fun _ => True) (Q := fun r g => Q r g ∧ R r g) hs
      (hQ.and hanything)).mono (fun _ hf => hf) fun r t _ _ ⟨hr, hextends, hdefs⟩ =>
        ⟨⟨hextends, hr.1.1⟩, hdefs, hr.1.2, hr.2⟩
  have helement := (Graph.intern_yields (n := .element .any any) hs.graph
    (by simpa [Node.children] using hany) (by simp [Node.isCompound])).returns
  refine Graph.Returns.bind (helement.mono (fun _ _ => trivial) fun _ _ _ _ h => h) ?_
  rintro e g _ hg ⟨he, heNode⟩
  have hattribute := (Graph.intern_yields (n := .attribute .any .anyString) hg
    (by simp [Node.children, Store.anyString_mem]) (by simp [Node.isCompound])).returns
  refine Graph.Returns.bind (hattribute.mono (fun _ _ => trivial) fun _ _ _ _ h => h) ?_
  rintro x h hgh hh ⟨hx, hxNode⟩
  rw [← Store.node_of_le (Graph.store_le hgh) he] at heNode
  have he := Store.mem_of_le (Graph.store_le hgh) he
  have hchoice := (Graph.choice_yields hh hx he).returns
  refine Graph.Returns.bind (hchoice.mono (fun _ _ => trivial) fun _ _ _ _ h => h) ?_
  rintro either k hhk hk ⟨_, heither⟩
  have heitherMem := hmem hh hhk (by simp [hx, he]) heither
  have hmany := (Graph.zeroOrMore_yields hk heitherMem).returns
  refine Graph.Returns.bind (hmany.mono (fun _ _ => trivial) fun _ _ _ _ h => h) ?_
  rintro many l hkl hl ⟨_, hmany⟩
  have hmanyMem := hmem hk hkl (by simp [heitherMem]) hmany
  refine (Graph.mixed_yields hl hmanyMem).returns.mono (fun _ _ => trivial) ?_
  rintro r u hlu _ ⟨_, hr⟩
  have hhk := Graph.store_le hhk
  have hkl := Graph.store_le hkl
  have hhu := le_trans (le_trans hhk hkl) (Graph.store_le hlu)
  have hclosed : Closed h.store s.schema.definitions (Ingredient x e) := .ingredient hxNode heNode
  refine ⟨hmem hl hlu (by simp [hmanyMem]) hr, x, e, ?_, ?_, ?_⟩
  . rw [Store.node_of_le hhu hx, hxNode]
  . rw [Store.node_of_le hhu he, heNode]
  . have hoperand {a : ExprId} (ha : Ingredient x e a) : Made h.store (Ingredient x e) a :=
      Or.inr (.base ha)
    have heither := heither _ hclosed
      (by simpa using ⟨hoperand (Or.inl rfl), hoperand (Or.inr (Or.inl rfl))⟩)
    have hmany := hmany _ (hclosed.of_le hhk) (by simpa using heither)
    exact hr _ (hclosed.of_le (le_trans hhk hkl)) (by simpa using hmany)

def acceptGrammar (id : ExprId) : SessionM (Except SchemaError Grammar) := do
  let any ← onSchema (Schema.reference "any-content")
  let content ← onGraph fun _ => Graph.anything any
  onSchema (Schema.define any content)
  return .ok { start := id, anyContent := any }

theorem newGrammar_eq (id : ExprId) (s : Session) : onSchema (Grammar.create id) s =
    match s.schema.check id with
    | .error e => .ok (.error e, s)
    | .ok () => acceptGrammar id s := by
  have hget (next : Schema → SessionM (Except SchemaError Grammar)) :
      (onSchema get >>= next) s = next s.schema s := rfl
  unfold Grammar.create
  rw [onSchema_bind, hget]
  cases s.schema.check id with
  | error e => rfl
  | ok _ =>
    dsimp only
    simp only [onSchema_bind]
    rfl

theorem acceptGrammar_returns (hs : s.Sound) (hvetted : Vetted s.schema.graph.store
    s.schema.definitions id) :
    Returns neutral s (acceptGrammar id) (fun _ => True) fun r t =>
      s.Extends t ∧ ∀ gr, r = .ok gr →
        gr.IsVetted t.schema.graph.store t.schema.definitions := by
  refine Returns.bind (reference_returns hs) ?_
  rintro any t hst ht ⟨hany, r, hr, hsize⟩
  refine Returns.bind (anyContent_returns ht hany.has) ?_
  rintro content u htu hu ⟨hcontent, hdefs, ⟨x, e, hx, he, hmade⟩, i, hanything⟩
  refine Returns.bind (define_returns hu hcontent.has) ?_
  rintro _ v huv hv ⟨hextends, hdefine⟩
  refine .pure hv ⟨(hany.only.trans hcontent.only).trans hextends, ?_⟩
  rintro _ ⟨⟩
  have hle := le_trans (le_trans hst htu) huv
  have hanyMem := hany.has.of_le (le_trans htu huv)
  have hru : u.schema.graph.store.node any = .reference r := by
    rw [Store.node_of_le (Graph.store_le htu.2) hany.has, hr]
  have htarget := hdefine r hru (hdefs ▸ hsize)
  have hnode {a : ExprId} (ha : u.schema.graph.store.node a ≠ .nullSet) :
      v.schema.graph.store.node a = u.schema.graph.store.node a :=
    Store.node_of_le (Graph.store_le huv.2) (Store.mem_of_node_ne ha)
  rw [← hnode (by simp [hx])] at hx
  rw [← hnode (by simp [he])] at he
  rw [← hnode (by simp [hru])] at hru
  exact {
    start := hvetted.of_le (Graph.store_le hle.2) hle.1 hs.graph.within
    anyContent := ⟨hanyMem, .of_any hru htarget hx he (hmade.of_le (Graph.store_le huv.2))⟩
    anything := ⟨r, i, hru ▸ Store.find?_node hanyMem, content, htarget,
      hanything.of_le (Graph.store_le huv.2) (le_trans htu huv).1⟩ }

theorem newGrammar_returns (hs : s.Sound) (hid : s.Has id) :
    Returns neutral s (onSchema (Grammar.create id)) (fun _ => True) fun r t =>
      s.Extends t ∧ ∀ gr, r = .ok gr →
        gr.IsVetted t.schema.graph.store t.schema.definitions := by
  have hrun := newGrammar_eq id s
  have hforgetful := newGrammar_eq id s.forgetful
  -- what passes the check does not depend on what the session remembers
  rw [show s.forgetful.schema.check id = s.schema.check id from rfl] at hforgetful
  cases hcheck : s.schema.check id with
  | error e =>
    rw [hcheck] at hrun hforgetful
    have hrefuse : Returns neutral s (pure (.error e) : SessionM (Except SchemaError Grammar))
        (fun _ => True) fun r t => s.Extends t ∧ ∀ gr, r = .ok gr →
          gr.IsVetted t.schema.graph.store t.schema.definitions :=
      .pure hs ⟨.refl, by simp⟩
    exact Returns.after hrun hforgetful le_rfl hrefuse
  | ok _ =>
    rw [hcheck] at hrun hforgetful
    exact Returns.after hrun hforgetful le_rfl
      (acceptGrammar_returns hs ⟨hid, Schema.check_ok hcheck⟩)

theorem createGrammar_returns (start : Term) (hs : s.Sound) :
    Returns neutral s (createGrammar start) (fun _ => True) fun _ t =>
      Alters (fun _ => True) (fun _ => False) s t := by
  unfold createGrammar
  refine Returns.bind (build_returns start s hs) ?_
  intro id t _ ht hid
  refine Returns.get (fun _ => rfl) ?_
  split
  . exact .throw (by rintro f ⟨⟩)
  . next hnone =>
    refine Returns.bind (newGrammar_returns ht hid.has) ?_
    rintro r u _ hu ⟨hextends, hr⟩
    have hextends := hid.only.trans hextends
    cases r with
    | error e => exact .throw (by rintro f ⟨⟩)
    | ok gr =>
      have hset : { u with grammar := some gr, matchers := ∅, pickers := ∅ : Session }.Sound := by
        refine ⟨hu.graph, hu.bindings, ?_, ?_, ?_, hu.validations⟩
        . intro name m hm
          simp at hm
        . intro name results hresults
          simp at hresults
        . rintro _ ⟨⟩
          exact hr gr rfl
      have hmodify : Returns neutral u
          (modify fun u => { u with grammar := some gr, matchers := ∅, pickers := ∅ } : SessionM Unit)
          (fun _ => True) fun _ v =>
            v = { u with grammar := some gr, matchers := ∅, pickers := ∅ } :=
        .modify rfl le_rfl hset rfl
      refine Returns.bind hmodify ?_
      rintro _ _ _ hv rfl
      refine Returns.bind (size_returns hv) ?_
      rintro _ _ _ hv rfl
      refine .pure hv ⟨fun _ h => absurd trivial h, ?_, ?_⟩
      . intro name _
        rw [hextends]
      . intro gr' hgr'
        rw [hid.only] at hnone
        simp [hgr'] at hnone

theorem validationTake_returns (event : Event) (hs : s.Sound) :
    Returns neutral s (take name event) (fun _ => True) fun _ t =>
      Alters (fun _ => False) (name = ·) s t := by
  unfold take
  refine Returns.bind (theGrammar_returns hs) ?_
  rintro gr _ _ _ ⟨rfl, hgr⟩
  refine Returns.bind (validationNamed_returns hs) ?_
  rintro earlier _ _ _ ⟨rfl, hearlier⟩
  have htake := Validation.take_returns event hs.graph (hs.validations name earlier hearlier)
    (hs.grammar gr hgr).2
  refine Returns.bind ((onGraph_returns hs htake).mono (fun _ _ => trivial) fun _ _ _ _ h => h) ?_
  rintro v t _ ht ⟨hv, hextends, hdefs⟩
  rw [← hdefs] at hv
  refine Returns.bind (putValidation_returns ht hv) ?_
  rintro _ _ _ hu rfl
  exact .pure hu (.trans (.of_extends hextends) (.putValidation rfl))

theorem build_alters {next : ExprId → SessionM Answer} (e : Term) (hs : s.Sound)
    (hnext : ∀ id t, t.Sound → t.Has id →
      Returns neutral t (next id) (fun _ => True) fun _ u => Alters ms vs t u) :
    Returns neutral s (e.build >>= next) (fun _ => True) fun _ u => Alters ms vs s u := by
  refine Returns.bind (build_returns e s hs) ?_
  intro id t _ ht hid
  refine (hnext id t ht hid.has).mono (fun _ hf => hf) ?_
  exact fun _ u _ _ h => .trans (.of_extends hid.only) h

section Requests

variable {e element target : Term}

theorem performBind_returns (hs : s.Sound) :
    Returns neutral s (perform (.bind name e)) (fun _ => True) fun _ t => Alters ms vs s t := by
  refine build_alters e hs fun id t ht hid => ?_
  refine Returns.bind (bind_returns ht hid) ?_
  rintro _ _ _ hu rfl
  refine Returns.bind (size_returns hu) ?_
  rintro _ _ _ hu rfl
  exact .pure hu .bind

theorem performDefine_returns (hs : s.Sound) :
    Returns neutral s (perform (.define e target)) (fun _ => True) fun _ t => Alters ms vs s t := by
  refine build_alters e hs fun id t ht _ => build_alters target ht fun id' u hu hid' => ?_
  refine Returns.bind (define_returns hu hid') ?_
  exact fun _ v _ hv h => .pure hv (.of_extends h.1)

theorem performInspect_returns (hs : s.Sound) :
    Returns neutral s (perform (.inspect e)) (fun _ => True) fun _ t => Alters ms vs s t := by
  refine build_alters e hs fun id t ht _ => (inspect_returns ht).mono (fun _ hf => hf) ?_
  rintro _ _ _ _ rfl
  exact .refl

theorem performFollow_returns (hs : s.Sound) :
    Returns neutral s (perform (.follow e)) (fun _ => True) fun _ t => Alters ms vs s t := by
  refine build_alters e hs fun id t ht _ => ?_
  refine Returns.bind (asReference_returns ht) ?_
  rintro r _ _ ht rfl
  refine Returns.bind (follow_returns ht) ?_
  exact fun _ u _ hu h => .pure hu (.of_extends h)

theorem performIsNullable_returns (hs : s.Sound) :
    Returns neutral s (perform (.isNullable e)) (fun _ => True) fun _ t => Alters ms vs s t := by
  refine build_alters e hs fun id t ht hid => ?_
  have hnullable := (Graph.isNullable_yields ht.graph hid).returns
  refine Returns.bind (onGraph_extends ht hnullable) ?_
  exact fun _ u _ hu h => .pure hu (.of_extends h)

theorem performSize_returns (hs : s.Sound) :
    Returns neutral s (perform .size) (fun _ => True) fun _ t => Alters ms vs s t := by
  refine Returns.bind (size_returns hs) ?_
  rintro _ _ _ hs rfl
  exact .pure hs .refl

theorem performLookUp_returns (hs : s.Sound) (hneutral : ¬ neutral) :
    Returns neutral s (perform (.lookUp e element)) (fun _ => True) fun _ t => Alters ms vs s t := by
  refine build_alters e hs fun id t ht _ => build_alters element ht fun id' u hu _ => ?_
  refine Returns.bind (remembered?_returns hu hneutral) ?_
  rintro _ _ _ hu rfl
  exact .pure hu .refl

theorem performCheck_returns (hs : s.Sound) :
    Returns neutral s (perform (.check e)) (fun _ => True) fun _ t => Alters ms vs s t := by
  refine build_alters e hs fun id t ht _ => Returns.get (fun _ => rfl) ?_
  split
  . exact .pure ht .refl
  . exact .pure ht .refl

theorem performDescribeHeads_returns (hs : s.Sound) :
    Returns neutral s (perform (.describeHeads e)) (fun _ => True) fun _ t => Alters ms vs s t := by
  refine build_alters e hs fun id t ht hid => ?_
  refine Returns.bind (onGraph_extends ht (Graph.describeHeads_returns ht.graph hid)) ?_
  exact fun _ u _ hu h => .pure hu (.of_extends h)

theorem performCreateMatcher_returns (hs : s.Sound) (hname : ms name) :
    Returns neutral s (perform (.createMatcher name e)) (fun _ => True) fun _ t =>
      Alters ms vs s t := by
  unfold perform
  refine Returns.bind (build_returns e s hs) ?_
  intro id t _ ht hid
  refine Returns.bind (putMatcher_returns ht (Matcher.within_ofContent hid.has)) ?_
  rintro _ _ _ hu rfl
  exact .pure hu (.trans (.of_extends hid.only) (.putMatcher hname))

theorem performReadChild_returns {parent child : String} {recovering : Bool} (hs : s.Sound) :
    Returns neutral s (perform (.readChild parent child recovering)) (fun _ => True) fun _ t =>
      Alters (parent = ·) (fun _ => False) s t := by
  refine Returns.bind (matcherNamed_returns hs) ?_
  rintro c _ _ hs ⟨rfl, hchild⟩
  refine advance_alters hs fun m hm => ?_
  have hread := Matcher.readChild?_returns c recovering hs.graph hm (hs.matchers child c hchild)
  refine hread.mono (fun _ _ => trivial) ?_
  rintro _ g hg _ hr m' rfl
  exact hr.within hm hs.graph.within (Graph.store_le hg)

theorem performReadText_returns {literal : String} {scope : Scope} {previous : Option Nat}
    (hs : s.Sound) :
    Returns neutral s (perform (.readText name literal scope previous)) (fun _ => True) fun _ t =>
      Alters (name = ·) (fun _ => False) s t := by
  let P (m : Matcher) (m? : Option Matcher) (g : Graph) : Prop :=
    Matcher.Reads s.schema.definitions (.text literal scope) s.schema.graph.store g.store m m?
  refine (readText_returns (P := P) (E := fun _ => True) hs ?_ ?_).mono (fun _ hf => hf)
    fun _ _ _ _ h => h.alters
  . intro m hm
    exact (Matcher.readText?_returns literal scope hs.graph (hs.matchers name m hm)).mono
      (fun _ _ => trivial) fun _ _ _ _ h => h
  . intro m m' g hm hg hr
    exact hr.within (hs.matchers name m hm) hs.graph.within (Graph.store_le hg)

theorem performReadAttribute_returns {label : Name} {value : String} {scope : Scope}
    (hs : s.Sound) :
    Returns neutral s (perform (.readAttribute name label value scope)) (fun _ => True) fun _ t =>
      Alters (name = ·) (fun _ => False) s t := by
  refine advance_alters hs fun m hm => ?_
  refine (Matcher.readAttribute?_returns label value scope hs.graph hm).mono (fun _ _ => trivial) ?_
  rintro _ g hg _ hr m' rfl
  exact hr.within hm hs.graph.within (Graph.store_le hg)

theorem performEndAttributes_returns (hs : s.Sound) :
    Returns neutral s (perform (.endAttributes name)) (fun _ => True) fun _ t =>
      Alters (name = ·) (fun _ => False) s t := by
  refine advance_alters hs fun m hm => ?_
  refine (Matcher.endAttributes?_returns hs.graph hm).mono (fun _ _ => trivial) ?_
  rintro _ g hg _ hr m' rfl
  exact hr.within hm hs.graph.within (Graph.store_le hg)

theorem performGrantAttributes_returns (hs : s.Sound) :
    Returns neutral s (perform (.grantAttributes name)) (fun _ => True) fun _ t =>
      Alters (name = ·) (fun _ => False) s t := by
  refine advance_alters hs fun m hm => ?_
  have hgrant := Matcher.grantAttributes_returns hs.graph hm
  refine Graph.Returns.bind (hgrant.mono (fun _ _ => trivial) fun _ _ _ _ h => h) ?_
  intro m' g hg hgSound hm'
  refine .pure hgSound ?_
  rintro _ ⟨⟩
  exact hm'.within hm hs.graph.within (Graph.store_le hg)

theorem performIsAccepting_returns (hs : s.Sound) :
    Returns neutral s (perform (.isAccepting name)) (fun _ => True) fun _ t =>
      Alters ms vs s t := by
  refine Returns.bind (matcherNamed_returns hs) ?_
  rintro m _ _ _ ⟨rfl, hm⟩
  refine Returns.bind ((isAccepting_returns hs (hs.matchers _ m hm)).mono (fun _ _ => trivial)
    fun _ _ _ _ h => h) ?_
  exact fun _ t _ ht h => .pure ht (.of_extends h.1)

theorem performCreateValidation_returns (hs : s.Sound) :
    Returns neutral s (perform (.createValidation name)) (fun _ => True) fun _ t =>
      Alters (fun _ => False) (name = ·) s t := by
  refine Returns.bind (theGrammar_returns hs) ?_
  rintro gr _ _ hs ⟨rfl, hgr⟩
  have hvetted := Validation.isVetted_create (hs.grammar gr hgr).1
  refine Returns.bind (putValidation_returns hs hvetted) ?_
  rintro _ _ _ ht rfl
  exact .pure ht (.putValidation rfl)

end Requests

/--
A request keeps a session sound, and only what it speaks of is changed.
-/
theorem perform_returns (c : Command) (hc : c.isLawful) (hs : s.Sound) :
    Returns c.isNeutral s (perform c) (fun _ => True) fun _ t =>
      Alters c.Replaces c.Revises s t := by
  cases c with
  | remember => cases hc
  | bind => exact performBind_returns hs
  | define => exact performDefine_returns hs
  | inspect => exact performInspect_returns hs
  | follow => exact performFollow_returns hs
  | isNullable => exact performIsNullable_returns hs
  | outline e | describeAttributes e =>
    exact build_alters e hs fun id t ht _ => Returns.get (fun _ => rfl) (.pure ht .refl)
  | size => exact performSize_returns hs
  | settings => exact Returns.get (by simp [Command.isNeutral]) (.pure hs .refl)
  | lookUp => exact performLookUp_returns hs (by simp [Command.isNeutral])
  | check => exact performCheck_returns hs
  | classify token =>
    refine Returns.bind (buildToken_returns token hs) ?_
    exact fun _ t _ ht h => .pure ht (.of_extends h)
  | derive => exact derive_returns hs
  | createPicker =>
    refine Returns.bind (putPicker_returns hs .empty) ?_
    rintro _ _ _ ht rfl
    exact .pure ht .putPicker
  | pick => exact (pick_returns hs).mono (fun _ hf => hf) fun _ _ _ _ h => h.1
  | describeHeads => exact performDescribeHeads_returns hs
  | createMatcher => exact performCreateMatcher_returns hs rfl
  | enterChild => exact enterChild_returns hs
  | readChild => exact performReadChild_returns hs
  | readText => exact performReadText_returns hs
  | readAttribute => exact performReadAttribute_returns hs
  | endAttributes => exact performEndAttributes_returns hs
  | grantAttributes => exact performGrantAttributes_returns hs
  | showMatcher =>
    refine Returns.bind (matcherNamed_returns hs) ?_
    rintro m _ _ hs ⟨rfl, _⟩
    exact .pure hs .refl
  | isAccepting => exact performIsAccepting_returns hs
  | listSatisfied =>
    exact (listSatisfied_returns hs).mono (fun _ _ => trivial) fun _ _ _ _ h => .of_extends h
  | createGrammar start => exact createGrammar_returns start hs
  | createValidation => exact performCreateValidation_returns hs
  | take name event => exact validationTake_returns event hs
  | diagnose =>
    refine Returns.bind (validationNamed_returns hs) ?_
    rintro v _ _ hs ⟨rfl, _⟩
    exact .pure hs .refl

end Session

end TreeGrammar
