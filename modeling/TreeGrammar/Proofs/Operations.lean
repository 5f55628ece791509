import TreeGrammar.Proofs.Recognition
import TreeGrammar.Proofs.Vetting

/-!
This module contains what can be done to a matcher, and what becomes of its form then. The matcher stays
put together from what is vetted, whatever is done to it.
-/

namespace TreeGrammar

inductive Operation where
  | read (token : Token)
  | endAttributes
  | grantAttributes

noncomputable def Form.Matcher.operate? (m : Matcher) : Operation → Plan (Option Matcher)
  | .read token => m.read? token
  | .endAttributes => m.endAttributes?
  | .grantAttributes => return some (← m.grantAttributes)

namespace Matcher

variable {defs defs' : Definitions} {s t u : Store} {g : Graph} {m c : Matcher} {m? : Option Matcher}
variable {o : Operation} {token : Token}

theorem IsVetted.form_of_le (hm : m.IsVetted s defs) (hwithin : defs.Within s) (hst : s ≤ t)
    (hdefs : defs ≤ defs') : m.form t defs' = m.form s defs :=
  ((hm.shows hwithin).imp fun _ _ hid => hid.of_le hst hdefs).form_eq

structure Operated (defs : Definitions) (o : Operation) (s t : Store) (m : Matcher)
    (m? : Option Matcher) : Prop where
  vetted : ∀ m' ∈ m?, m'.IsVetted t defs
  form : m?.map (·.form t defs) = ((m.form s defs).operate? o).value

theorem Operated.getD (h : Operated defs o s t m m?) (hm : m.IsVetted s defs)
    (hwithin : defs.Within s) (hst : s ≤ t) : (m?.getD m).IsVetted t defs ∧
      (m?.getD m).form t defs = ((m.form s defs).operate? o).value.getD (m.form s defs) := by
  rw [← h.form]
  cases m? with
  | none => exact ⟨hm.of_le hst le_rfl hwithin, hm.form_of_le hwithin hst le_rfl⟩
  | some m' => exact ⟨h.vetted m' rfl, rfl⟩

theorem Operated.rel (h : Operated defs o s t m m?) (hwithin : defs.Within t) (htu : t ≤ u)
    (hdefs : defs ≤ defs') :
    Option.Rel (u.ShowsMatcher defs') m? ((m.form s defs).operate? o).value := by
  rw [← h.form]
  cases m? with
  | none => exact .none
  | some m' =>
    have hm' := (h.vetted m' rfl).shows hwithin
    exact .some (hm'.imp fun _ _ hid => hid.of_le htu hdefs)

theorem Operated.of_ge (h : Operated defs o t u m m?) (hm : m.IsVetted s defs)
    (hwithin : defs.Within s) (hst : s ≤ t) : Operated defs o s u m m? :=
  ⟨h.vetted, h.form.trans (by rw [hm.form_of_le hwithin hst le_rfl])⟩

theorem form_eq_of_rel {m'? : Option Form.Matcher} (h : Option.Rel (s.ShowsMatcher defs) m? m'?) :
    m?.map (·.form s defs) = m'? := by
  cases h with
  | none => rfl
  | some h => exact congrArg some h.form_eq

theorem read?_operated (token : Token) (hg : g.Sound defs) (hm : m.IsVetted g.store defs) :
    Graph.Returns defs g (m.read? defs token) (Fault.Admissible True) fun r h =>
      Operated defs (.read token) g.store h.store m (r.map (·.1)) := by
  have hread := (read?_returns token rfl hg hm.within).admissible fun _ : True => hm.isGuarded
  have hcarries : Graph.Carries defs g (m.read? defs token) _ _ :=
    read?_carries hg (hm.shows hg.within)
  refine (hread.and hcarries).mono (fun _ hf => hf) ?_
  rintro r h hgh _ ⟨hread, hrel, -⟩
  refine ⟨fun m' hm' => ?_, form_eq_of_rel hrel⟩
  rw [Option.mem_def.1 hm'] at hread
  exact hm.read hg.within (Graph.store_le hgh) hread

theorem endAttributes?_operated (hg : g.Sound defs) (hm : m.IsVetted g.store defs) :
    Graph.Returns defs g (m.endAttributes? defs) (Fault.Admissible True) fun m? h =>
      Operated defs .endAttributes g.store h.store m m? := by
  have hends := (endAttributes?_returns hg hm.within).admissible fun _ : True => hm.isGuarded
  refine (hends.and (endAttributes?_carries hg (hm.shows hg.within))).mono (fun _ hf => hf) ?_
  rintro m? h hgh _ ⟨hends, hrel, -⟩
  refine ⟨fun m' hm' => ?_, form_eq_of_rel hrel⟩
  rw [Option.mem_def.1 hm'] at hends
  exact hm.becomes hg.within (Graph.store_le hgh) hends

theorem grantAttributes_operated (hg : g.Sound defs) (hm : m.IsVetted g.store defs) :
    Graph.Returns defs g (m.grantAttributes defs) (Fault.Admissible True) fun m' h =>
      Operated defs .grantAttributes g.store h.store m (some m') := by
  have hgrants := (grantAttributes_returns hg hm.within).admissible fun _ : True => hm.isGuarded
  refine (hgrants.and (grantAttributes_carries hg (hm.shows hg.within))).mono (fun _ hf => hf) ?_
  rintro m' h hgh _ ⟨hgrants, hshows, -⟩
  refine ⟨?_, congrArg some hshows.form_eq⟩
  rintro _ ⟨⟩
  exact hm.becomes hg.within (Graph.store_le hgh) hgrants

theorem readChild?_operated (recovering : Bool) (hg : g.Sound defs) (hm : m.IsVetted g.store defs)
    (hc : c.Within g.store) : Graph.Returns defs g (m.readChild? defs c recovering)
      (Fault.Admissible (c.IsGuarded g.store defs)) fun m? h =>
      ∃ token k, c.token defs recovering g = .ok (token, k) ∧
        Operated defs (.read token) g.store h.store m m? := by
  refine Graph.Returns.bind (token_returns hg hc).exact ?_
  rintro token k hgk hk ⟨-, htoken⟩
  have hgk := Graph.store_le hgk
  have hread := read?_operated token hk (hm.of_le hgk le_rfl hg.within)
  refine Graph.Returns.bind (hread.admissible fun _ => trivial) ?_
  intro r h _ hh hr
  exact .pure hh ⟨token, k, htoken, hr.of_ge hm hg.within hgk⟩

structure Entered (defs : Definitions) (label : Name) (s t : Store) (m m' : Matcher) : Prop where
  vetted : m'.IsVetted t defs
  form : ((m.form s defs).child? (s.form defs) label).value = some (m'.form t defs)
  contents : ∀ slot ∈ m'.slots, ∃ names, t.node slot.owner = .element names slot.content

theorem Entered.of_le {label : Name} {m' : Matcher} (h : Entered defs label s t m m')
    (hwithin : defs.Within t) (htu : t ≤ u) : Entered defs label s u m m' where
  vetted := h.vetted.of_le htu le_rfl hwithin
  form := by rw [h.form, h.vetted.form_of_le hwithin htu le_rfl]
  contents slot hslot := by
    obtain ⟨names, hn⟩ := h.contents slot hslot
    exact ⟨names, (Store.node_of_le htu (h.vetted.slots slot hslot).1).trans hn⟩

theorem child?_entered (label : Name) (hg : g.Sound defs) (hm : m.IsVetted g.store defs) :
    Graph.Returns defs g (m.child? defs label) (Fault.Admissible True) fun m? h =>
      ∀ m' ∈ m?, Entered defs label g.store h.store m m' := by
  have hguarded := hm.isGuarded.state
  have hchild := (child?_returns label hg hm.within.state).admissible fun _ : True => hguarded
  have hcontents : g.store.ShowsContents defs (g.store.form defs) (m.form g.store defs).state.heads := by
    have hstate := (hm.shows hg.within).state.declarations hg.within hm.state
    exact fun head hhead => Vetted.shows (hstate.heads head hhead) hg.within
  have hcarries : Graph.Carries defs g (m.child? defs label) _ _ :=
    child?_carries hg (hm.shows hg.within) hcontents
  refine (hchild.and hcarries).mono (fun _ hf => hf) ?_
  rintro m? h hgh _ ⟨hjoins, hrel, -⟩ m' hm'
  obtain rfl := Option.mem_def.1 hm'
  obtain ⟨found, -, hfound, hjoins⟩ := hjoins
  have hgh := Graph.store_le hgh
  refine ⟨hm.joins hg.within hgh (fun slot hslot => (hfound slot).1 hslot) hjoins, ?_, ?_⟩
  . rw [← form_eq_of_rel hrel]
    rfl
  . rw [hjoins.slots]
    intro slot hslot
    obtain ⟨names, hn, -⟩ := (hfound slot).1 hslot
    exact ⟨names, (Store.node_of_le hgh ((hfound slot).1 hslot).mem.1).trans hn⟩

end Matcher

def Command.Addresses (c : Command) (name : String) : Prop :=
  match c with
  | .readChild m .. | .readText m .. | .readAttribute m .. | .endAttributes m | .grantAttributes m =>
    m = name
  | _ => False

namespace Session

def Operates (s : Session) (name : String) (c : Command) (o : Operation) : Prop :=
  match c with
  | .readText m literal scope _ => m = name ∧ o = .read (.text literal scope)
  | .readAttribute m label value scope => m = name ∧ o = .read (.attribute label value scope)
  | .readChild parent child recovering => parent = name ∧ ∃ m token g,
    s.matchers[child]? = some m ∧
    m.token s.schema.definitions recovering s.schema.graph = .ok (token, g) ∧ o = .read token
  | .endAttributes m => m = name ∧ o = .endAttributes
  | .grantAttributes m => m = name ∧ o = .grantAttributes
  | _ => False

variable {s t : Session} {name : String} {c : Command} {o o' : Operation} {m : Matcher}
variable {answer : Answer} {neutral : Prop}

theorem Operates.unique (h : s.Operates name c o) (h' : s.Operates name c o') : o = o' := by
  cases c with
  | readChild =>
    obtain ⟨-, m, token, g, hm, htoken, rfl⟩ := h
    obtain ⟨-, m', token', g', hm', htoken', rfl⟩ := h'
    rw [hm] at hm'
    cases hm'
    rw [htoken] at htoken'
    cases htoken'
    rfl
  | readText | readAttribute | endAttributes | grantAttributes =>
    obtain ⟨-, rfl⟩ := h
    exact h'.2.symm
  | _ => cases h

theorem Operates.addresses (h : s.Operates name c o) : c.Addresses name := by
  cases c with
  | readChild | readText | readAttribute | endAttributes | grantAttributes => exact h.1
  | _ => cases h

theorem isLawful_of_addresses (h : c.Addresses name) : c.isLawful := by
  cases c with
  | remember => cases h
  | _ => rfl

theorem operate_returns (hs : s.Sound) (hm : s.matchers[name]? = some m)
    (hvetted : m.IsVetted s.schema.graph.store s.schema.definitions) (hc : c.Addresses name) :
    Returns neutral s (perform c) (Fault.Admissible (s.ReadsGuarded c))
      (Advances name (fun m m? g => ∃ o, s.Operates name c o ∧
        m.Operated s.schema.definitions o s.schema.graph.store g.store m?) s) := by
  have hunique {m' : Matcher} (hm' : s.matchers[name]? = some m') : m' = m :=
    Option.some.inj (hm'.symm.trans hm)
  -- what all these requests have in common; they differ in what they do to the matcher
  let P (m : Matcher) (m? : Option Matcher) (g : Graph) : Prop := ∃ o, s.Operates name c o ∧
    m.Operated s.schema.definitions o s.schema.graph.store g.store m?
  have hwithin (m' r : Matcher) (g : Graph) (_ : s.matchers[name]? = some m')
      (_ : s.schema.graph ≤ g) (hP : P m' (some r) g) : r.Within g.store := by
    obtain ⟨o, -, hoperated⟩ := hP
    exact (hoperated.vetted r rfl).within
  have hg := hs.graph
  cases c with
  | readText name' literal scope previous =>
    cases hc
    refine readText_returns (P := P) hs ?_ hwithin
    intro m' hm'
    rw [hunique hm']
    refine ((Matcher.read?_operated _ hg hvetted).admissible fun _ => trivial).mono (fun _ hf => hf) ?_
    exact fun r h _ _ hr => ⟨_, ⟨rfl, rfl⟩, hr⟩
  | readAttribute name' label value scope =>
    cases hc
    refine advance_returns (P := P) hs ?_ hwithin
    intro m' hm'
    rw [hunique hm']
    refine Graph.Returns.bind ((Matcher.read?_operated _ hg hvetted).admissible fun _ => trivial) ?_
    exact fun r h _ hh hr => .pure hh ⟨_, ⟨rfl, rfl⟩, hr⟩
  | readChild name' child recovering =>
    cases hc
    refine Returns.bind (matcherNamed_returns hs) ?_
    rintro r _ _ hs ⟨rfl, hr⟩
    refine advance_returns (P := P) hs ?_ hwithin
    intro m' hm'
    rw [hunique hm']
    -- nothing is known of the child, so telling what it satisfies can raise a fault of its own
    have hread := Matcher.readChild?_operated recovering hg hvetted (hs.matchers child r hr)
    refine (hread.admissible fun hguarded => hguarded r hr).mono (fun _ hf => hf) ?_
    rintro m? h _ _ ⟨token, k, htoken, hoperated⟩
    exact ⟨_, ⟨rfl, r, token, k, hr, htoken, rfl⟩, hoperated⟩
  | endAttributes name' =>
    cases hc
    refine advance_returns (P := P) hs ?_ hwithin
    intro m' hm'
    rw [hunique hm']
    refine ((Matcher.endAttributes?_operated hg hvetted).admissible fun _ => trivial).mono
      (fun _ hf => hf) ?_
    exact fun r h _ _ hr => ⟨_, ⟨rfl, rfl⟩, hr⟩
  | grantAttributes name' =>
    cases hc
    refine advance_returns (P := P) hs ?_ hwithin
    intro m' hm'
    rw [hunique hm']
    refine Graph.Returns.bind
      ((Matcher.grantAttributes_operated hg hvetted).admissible fun _ => trivial) ?_
    exact fun r h _ hh hr => .pure hh ⟨_, ⟨rfl, rfl⟩, hr⟩
  | _ => exact hc.elim

theorem operate_ok (hs : s.Sound) (hm : s.matchers[name]? = some m)
    (hvetted : m.IsVetted s.schema.graph.store s.schema.definitions) (hc : c.Addresses name)
    (hperform : perform c s = .ok (answer, t)) :
    let form := m.form s.schema.graph.store s.schema.definitions
    ∃ o m', s.Operates name c o ∧ answer.fits = (form.operate? o).value.isSome ∧
      t.matchers[name]? = some m' ∧ m'.IsVetted t.schema.graph.store t.schema.definitions ∧
      m'.form t.schema.graph.store t.schema.definitions = (form.operate? o).value.getD form := by
  have hreturns : Returns True s (perform c) _ _ := operate_returns hs hm hvetted hc
  obtain ⟨hst, -, -, hdefs, m', m?, hm', ⟨o, ho, hoperated⟩, hfits, hname⟩ :=
    hreturns.ok answer t hperform
  obtain rfl : m' = m := Option.some.inj (hm'.symm.trans hm)
  obtain ⟨hget, hform⟩ := hoperated.getD hvetted hs.graph.within (Graph.store_le hst.2)
  refine ⟨o, _, ho, ?_, hname, hdefs ▸ hget, hdefs ▸ hform⟩
  rw [hfits, ← hoperated.form, Option.isSome_map]

theorem enterChild_entered {parent child : String} {label : Name} (hs : s.Sound)
    (hm : s.matchers[parent]? = some m)
    (hvetted : m.IsVetted s.schema.graph.store s.schema.definitions) :
    Returns neutral s (perform (.enterChild parent label child)) (Fault.Admissible True)
      fun answer t => answer.fits → ∃ m', t.matchers[child]? = some m' ∧
        m.Entered s.schema.definitions label s.schema.graph.store t.schema.graph.store m' := by
  refine Returns.bind (matcherNamed_returns hs) ?_
  rintro m' _ _ hs ⟨rfl, hm'⟩
  obtain rfl : m' = m := Option.some.inj (hm'.symm.trans hm)
  refine Returns.bind (onGraph_returns hs (Matcher.child?_entered label hs.graph hvetted)) ?_
  rintro m? t _ ht ⟨hentered, -, hdefs⟩
  cases m? with
  | none => exact .pure ht (by simp [Answer.fits])
  | some m' =>
    have hentered := hentered m' rfl
    refine Returns.bind (putMatcher_returns ht hentered.vetted.within) ?_
    rintro _ _ _ hu rfl
    exact .pure hu fun _ => ⟨m', Std.TreeMap.getElem?_insert_self, hentered⟩

end Session

end TreeGrammar
