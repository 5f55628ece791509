import TreeGrammar.Matcher
import TreeGrammar.Proofs.Check
import TreeGrammar.Proofs.Discharge

/-!
This module contains the correctness of matchers: what a matcher accepts after a token is what may
follow the token in what it has accepted before, for each of the declarations that it follows.
-/

namespace TreeGrammar

open Relation

def IsAdvance (defs : Definitions) (x : Letter) (t : Store) (id r : ExprId) : Prop :=
  t.language defs r = Language.advance (t.language defs id) x

namespace Matcher

def slots : Matcher → List Slot
  | .single _ none => []
  | .single state (some owner) => [{ owner, content := state }]
  | .several _ slots => slots

structure Within (s : Store) (m : Matcher) : Prop where
  state : m.state ∈ s
  slots : ∀ slot ∈ m.slots, slot.owner ∈ s ∧ slot.content ∈ s

structure IsGuarded (s : Store) (defs : Definitions) (m : Matcher) : Prop where
  state : Guarded s defs m.state
  slots : ∀ slot ∈ m.slots, Guarded s defs slot.content

def SlotBecomes (rel : ExprId → ExprId → Prop) (slot slot' : Slot) : Prop :=
  slot'.owner = slot.owner ∧ rel slot.content slot'.content

/--
The matcher still follows the same declarations, and what is left of each is as `rel` says.
-/
structure Becomes (rel : ExprId → ExprId → Prop) (m m' : Matcher) : Prop where
  state : rel m.state m'.state
  slots : List.Forall₂ (SlotBecomes rel) m.slots m'.slots

end Matcher

namespace Matcher

variable {defs : Definitions} {s t : Store} {g h : Graph} {token : Token} {m m' : Matcher}
variable {id rest : ExprId}

theorem IsGuarded.of_le (h : m.IsGuarded s defs) (hm : m.Within s) (hwithin : defs.Within s)
    (hst : s ≤ t) : m.IsGuarded t defs where
  state := h.state.of_le hst le_rfl hwithin hm.state
  slots slot hslot :=
    (h.slots slot hslot).of_le hst le_rfl hwithin (hm.slots slot hslot).2

theorem Within.of_le (hm : m.Within s) (hst : s ≤ t) : m.Within t where
  state := Store.mem_of_le hst hm.state
  slots slot hslot :=
    ⟨Store.mem_of_le hst (hm.slots slot hslot).1, Store.mem_of_le hst (hm.slots slot hslot).2⟩

theorem Becomes.owners {rel : ExprId → ExprId → Prop} (h : m.Becomes rel m') :
    m'.slots.map (·.owner) = m.slots.map (·.owner) := by
  have hslots := h.slots
  generalize m.slots = old, m'.slots = new at hslots ⊢
  induction hslots with
  | nil => rfl
  | cons hslot _ ih => rw [List.map_cons, List.map_cons, hslot.1, ih]

theorem Becomes.exists_slot {rel : ExprId → ExprId → Prop} (h : m.Becomes rel m') {slot' : Slot}
    (hslot' : slot' ∈ m'.slots) : ∃ slot ∈ m.slots, SlotBecomes rel slot slot' := by
  have hslots := h.slots
  generalize m.slots = old, m'.slots = new at hslots hslot' ⊢
  induction hslots with
  | nil => cases hslot'
  | cons hslot _ ih =>
    rcases List.mem_cons.1 hslot' with rfl | hslot'
    . exact ⟨_, List.mem_cons_self, hslot⟩
    . obtain ⟨other, hother, hbecomes⟩ := ih hslot'
      exact ⟨other, List.mem_cons_of_mem _ hother, hbecomes⟩

theorem Becomes.within {rel : Store → ExprId → ExprId → Prop}
    (h : m.Becomes (Outcome defs rel s t) m') (hm : m.Within s) (hwithin : defs.Within s)
    (hst : s ≤ t) : m'.Within t where
  state := h.state.mem hwithin hm.state hst
  slots := by
    intro slot' hslot'
    obtain ⟨slot, hslot, howner, hcontent⟩ := h.exists_slot hslot'
    have hmem := hm.slots slot hslot
    rw [howner]
    exact ⟨Store.mem_of_le hst hmem.1, hcontent.mem hwithin hmem.2 hst⟩

theorem within_ofContent (hid : id ∈ s) : (ofContent id).Within s where
  state := hid
  slots := by simp [ofContent, slots]

theorem after_returns {x : Letter} (hx : token.letter = x) (hs : s ≤ g.store)
    (hwithin : defs.Within s) (hg : g.Sound defs) (hid : id ∈ s)
    (hrest : Outcome defs (IsQuotient defs x) s g.store id rest) :
    Graph.Returns defs g (after token id rest) (Fault.Admissible True) fun r h =>
      Outcome defs (IsAdvance defs x) s h.store id r := by
  have hrestMem := hrest.mem hwithin hid hs
  unfold after IsAdvance Language.advance
  rw [← hx, Token.isIgnorable_letter]
  split
  . refine (Graph.choice_yields hg (Store.mem_of_le hs hid) hrestMem).returns.mono
      (fun _ hf => hf) ?_
    rintro r h hgh _ ⟨hr, hcomposed⟩
    have hgh := Graph.store_le hgh
    refine ⟨?_, hcomposed.trans hs ?_⟩
    . intro t ht
      have hquotient : t.language defs rest = _ := hrest.related t (le_trans hgh ht)
      rw [hr t ht, hquotient, hx]
    . simp only [List.mem_cons, List.not_mem_nil, or_false, forall_eq_or_imp, forall_eq]
      exact ⟨.operand hs List.mem_cons_self, hrest.composed⟩
  . refine .pure hg ⟨?_, hrest.composed⟩
    intro t ht
    rw [hx]
    exact hrest.related t ht

theorem advanceSlots_returns {x : Letter} (hx : token.letter = x) (slots : List Slot) {g : Graph}
    (hg : g.Sound defs) (hslots : ∀ slot ∈ slots, slot.content ∈ g.store) :
    Graph.Returns defs g (advanceSlots defs token slots)
      (Fault.Admissible (∀ slot ∈ slots, Guarded g.store defs slot.content)) fun slots' h =>
      List.Forall₂ (SlotBecomes (Outcome defs (IsAdvance defs x) g.store h.store)) slots slots' := by
  induction slots generalizing g with
  | nil => exact .pure hg .nil
  | cons slot slots ih =>
    have hslot := hslots slot List.mem_cons_self
    unfold advanceSlots
    refine Graph.Returns.bind ((Graph.derivative_returns hg hslot).admissible ?_) ?_
    . intro hguarded
      exact hguarded slot List.mem_cons_self
    . intro d h hgh hh hd
      rw [hx] at hd
      refine Graph.Returns.bind ((after_returns hx (Graph.store_le hgh) hg.within hh hslot
        hd).admissible fun _ => trivial) ?_
      intro content k hhk hk hcontent
      have hgk := Graph.store_le (le_trans hgh hhk)
      have hrest := ih hk fun slot hslot =>
        Store.mem_of_le hgk (hslots slot (List.mem_cons_of_mem _ hslot))
      refine Graph.Returns.bind (hrest.admissible ?_) ?_
      . intro hguarded other hother
        have hother := List.mem_cons_of_mem slot hother
        exact (hguarded other hother).of_le hgk le_rfl hg.within (hslots other hother)
      . intro slots' l hkl hl hslots'
        refine .pure hl (.cons ⟨rfl, hcontent.of_le (Graph.store_le hkl)⟩ ?_)
        exact hslots'.imp fun _ _ h => ⟨h.1, h.2.of_ge hgk⟩

theorem advance_returns {x : Letter} (hx : token.letter = x) (hs : s ≤ g.store)
    (hwithin : defs.Within s) (hg : g.Sound defs) (hm : m.Within s)
    (hrest : Outcome defs (IsQuotient defs x) s g.store m.state rest) :
    Graph.Returns defs g (m.advance defs token rest) (Fault.Admissible (m.IsGuarded s defs))
      fun m' h => m.Becomes (Outcome defs (IsAdvance defs x) s h.store) m' := by
  have hafter := after_returns hx hs hwithin hg hm.state hrest
  unfold advance
  cases m with
  | single state owner =>
    refine Graph.Returns.bind (hafter.admissible fun _ => trivial) ?_
    intro r h _ hh hr
    refine .pure hh ⟨hr, ?_⟩
    cases owner with
    | none => exact .nil
    | some owner => exact .cons ⟨rfl, hr⟩ .nil
  | several state slots =>
    refine Graph.Returns.bind (hafter.admissible fun _ => trivial) ?_
    intro r h hgh hh hr
    have hsh := le_trans hs (Graph.store_le hgh)
    have hslots := advanceSlots_returns hx slots hh fun slot hslot =>
      Store.mem_of_le hsh (hm.slots slot hslot).2
    refine Graph.Returns.bind (hslots.admissible ?_) ?_
    . intro hguarded slot hslot
      exact (hguarded.slots slot hslot).of_le hsh le_rfl hwithin (hm.slots slot hslot).2
    . intro slots' k hhk hk hslots'
      refine .pure hk ⟨hr.of_le (Graph.store_le hhk), ?_⟩
      exact hslots'.imp fun _ _ h => ⟨h.1, h.2.of_ge hsh⟩

/--
What is asked of a matcher after a token. A token that does not fit leaves nothing, and blank text
that does not fit is passed over.
-/
def Reads (defs : Definitions) (x : Letter) (s t : Store) (m : Matcher) : Option Matcher → Prop
  | none => ∀ u, t ≤ u → Language.advance (u.language defs m.state) x = 0
  | some m' => m.Becomes (Outcome defs (IsAdvance defs x) s t) m' ∨
      m' = m ∧ x.isIgnorable ∧ ∀ u, t ≤ u → (u.language defs m.state).leftQuotient [x] = 0

theorem Reads.of_ge {x : Letter} {u : Store} {r : Option Matcher} (h : Reads defs x t u m r)
    (hst : s ≤ t) : Reads defs x s u m r := by
  cases r with
  | none => exact h
  | some m' =>
    refine h.imp_left ?_
    rintro ⟨hstate, hslots⟩
    exact ⟨hstate.of_ge hst, hslots.imp fun _ _ h => ⟨h.1, h.2.of_ge hst⟩⟩

theorem Reads.isAdvance {x : Letter} {u : Store} (h : Reads defs x s t m (some m')) (hu : t ≤ u) :
    IsAdvance defs x u m.state m'.state := by
  rcases h with hbecomes | ⟨rfl, hignorable, hquotient⟩
  . exact hbecomes.state.related u hu
  . rw [IsAdvance, Language.advance, if_pos hignorable, hquotient u hu, add_zero]

theorem Reads.within {x : Letter} (h : Reads defs x s t m (some m')) (hm : m.Within s)
    (hwithin : defs.Within s) (hst : s ≤ t) : m'.Within t := by
  rcases h with hbecomes | ⟨rfl, _⟩
  . exact hbecomes.within hm hwithin hst
  . exact hm.of_le hst

theorem read?_returns (token : Token) {x : Letter} (hx : token.letter = x) (hg : g.Sound defs)
    (hm : m.Within g.store) :
    Graph.Returns defs g (m.read? defs token) (Fault.Admissible (m.IsGuarded g.store defs))
      fun r h => Reads defs x g.store h.store m (r.map (·.1)) := by
  unfold read?
  refine Graph.Returns.bind ((Graph.derivative_returns hg hm.state).admissible (·.state)) ?_
  intro d h hgh hh hd
  rw [hx] at hd
  split
  . next hnull =>
    have hquotient (u : Store) (hu : h.store ≤ u) :
        (u.language defs m.state).leftQuotient [x] = 0 := by
      have hd : u.language defs d.rest = _ := hd.related u hu
      rw [← hd, hnull, Store.language_nullSet]
    refine .pure hh ?_
    split
    . next hignorable =>
      rw [← Token.isIgnorable_letter, hx] at hignorable
      exact Or.inr ⟨rfl, hignorable, hquotient⟩
    . next hignorable =>
      rw [← Token.isIgnorable_letter, hx] at hignorable
      intro u hu
      unfold Language.advance
      rw [if_neg hignorable, hquotient u hu]
  . refine Graph.Returns.bind (advance_returns hx (Graph.store_le hgh) hg.within hh hm hd) ?_
    intro m' k _ hk hm'
    exact .pure hk (Or.inl hm')

def letter (s : Store) (defs : Definitions) (recovering : Bool) : Matcher → Letter
  | .single _ none => .element fun _ => True
  | .single _ (some owner) => .element (· = owner)
  | .several _ slots => .element fun y =>
    ∃ slot ∈ slots, slot.owner = y ∧ (recovering ∨ [] ∈ s.language defs slot.content)

theorem isNullable_returns (hg : g.Sound defs) (hid : id ∈ g.store) :
    Graph.Returns defs g (Graph.isNullable defs id) (Fault.Admissible (Guarded g.store defs id))
      fun b _ => b = true ↔ [] ∈ g.store.language defs id := by
  refine (Graph.isNullable_yields hg hid).returns.mono (fun _ hf => hf) ?_
  intro b h hgh _ hb
  rw [hb h.store defs le_rfl le_rfl, Store.language_of_le (Graph.store_le hgh) hg.within hid]

theorem satisfied_returns (slots : List Slot) {g : Graph} (hg : g.Sound defs)
    (hslots : ∀ slot ∈ slots, slot.content ∈ g.store) :
    Graph.Returns defs g (satisfied defs slots)
      (Fault.Admissible (∀ slot ∈ slots, Guarded g.store defs slot.content)) fun found _ =>
      ∀ y, y ∈ found ↔ ∃ slot ∈ slots, slot.owner = y ∧ [] ∈ g.store.language defs slot.content := by
  induction slots generalizing g with
  | nil =>
    refine .pure hg ?_
    simp
  | cons slot slots ih =>
    have hslot := hslots slot List.mem_cons_self
    unfold satisfied
    refine Graph.Returns.bind ((isNullable_returns hg hslot).admissible ?_) ?_
    . intro hguarded
      exact hguarded slot List.mem_cons_self
    intro b h hgh hh hb
    have hgh := Graph.store_le hgh
    have hrest := ih hh fun other hother =>
      Store.mem_of_le hgh (hslots other (List.mem_cons_of_mem _ hother))
    have hrest : Graph.Returns defs h (satisfied defs slots)
        (Fault.Admissible (∀ other ∈ slot :: slots, Guarded g.store defs other.content))
        fun found _ => ∀ y, y ∈ found ↔
          ∃ other ∈ slots, other.owner = y ∧ [] ∈ g.store.language defs other.content := by
      refine (hrest.admissible ?_).mono (fun _ hf => hf) ?_
      . intro hguarded other hother
        have hother := List.mem_cons_of_mem slot hother
        exact (hguarded other hother).of_le hgh le_rfl hg.within (hslots other hother)
      . intro found _ _ _ hfound y
        rw [hfound]
        refine exists_congr fun other => and_congr_right fun hother => and_congr_right fun _ => ?_
        rw [Store.language_of_le hgh hg.within (hslots other (List.mem_cons_of_mem _ hother))]
    split
    . next hsatisfied =>
      refine hrest.map ?_
      intro found k _ _ hfound y
      rw [List.mem_cons, hfound, List.exists_mem_cons_iff, ← hb]
      refine or_congr_left ?_
      rw [and_iff_left hsatisfied, eq_comm]
    . next hsatisfied =>
      refine hrest.mono (fun _ hf => hf) ?_
      intro found k _ _ hfound y
      rw [hfound, List.exists_mem_cons_iff, ← hb]
      exact (or_iff_right fun h => hsatisfied h.2).symm

theorem token_returns {recovering : Bool} (hg : g.Sound defs) (hm : m.Within g.store) :
    Graph.Returns defs g (m.token defs recovering) (Fault.Admissible (m.IsGuarded g.store defs))
      fun token _ => token.letter = m.letter g.store defs recovering := by
  cases m with
  | single state owner =>
    cases owner with
    | none => exact .pure hg rfl
    | some owner =>
      refine .pure hg ?_
      simp [Token.letter, letter]
  | several state slots =>
    unfold token
    cases recovering with
    | true =>
      refine .pure hg ?_
      simp [Token.letter, letter]
    | false =>
      have hfound := satisfied_returns slots hg fun slot hslot => (hm.slots slot hslot).2
      refine (hfound.admissible (·.slots)).map ?_
      intro found _ _ _ hfound
      simp [Token.letter, letter, hfound]

theorem readText?_returns (literal : String) (scope : Scope) (hg : g.Sound defs)
    (hm : m.Within g.store) :
    Graph.Returns defs g (m.readText? defs literal scope)
      (Fault.Admissible (m.IsGuarded g.store defs)) fun r h =>
      Reads defs (.text literal scope) g.store h.store m (r.map (·.1)) :=
  read?_returns (.text literal scope) rfl hg hm

theorem readAttribute?_returns (name : Name) (value : String) (scope : Scope) (hg : g.Sound defs)
    (hm : m.Within g.store) :
    Graph.Returns defs g (m.readAttribute? defs name value scope)
      (Fault.Admissible (m.IsGuarded g.store defs)) fun r h =>
      Reads defs (.attribute name value scope) g.store h.store m r := by
  have hread := read?_returns (.attribute name value scope) rfl hg hm
  refine Graph.Returns.bind hread ?_
  intro r h _ hh hr
  exact .pure hh hr

theorem readChild?_returns (child : Matcher) (recovering : Bool) (hg : g.Sound defs)
    (hm : m.Within g.store) (hchild : child.Within g.store) :
    Graph.Returns defs g (m.readChild? defs child recovering)
      (Fault.Admissible (m.IsGuarded g.store defs ∧ child.IsGuarded g.store defs)) fun r h =>
      Reads defs (child.letter g.store defs recovering) g.store h.store m r := by
  refine Graph.Returns.bind ((token_returns hg hchild).admissible (·.2)) ?_
  intro token h hgh hh htoken
  have hgh := Graph.store_le hgh
  have hread := read?_returns token htoken hh (hm.of_le hgh)
  refine Graph.Returns.bind (hread.admissible fun h => h.1.of_le hm hg.within hgh) ?_
  intro r k _ hk hr
  exact .pure hk (hr.of_ge hgh)

section Discharge

variable {p : Prop} {pending : Pending} {results : Results} {state : ExprId}

theorem dischargeSlots_returns (hp : p → pending = .missing) (hwithin : defs.Within s)
    (slots : List Slot) (results : Results) {g : Graph} (hg : g.Sound defs) (hs : s ≤ g.store)
    (hslots : ∀ slot ∈ slots, slot.content ∈ s)
    (hguarded : p → ∀ slot ∈ slots, Guarded s defs slot.content)
    (hresults : Consistent defs (Graph.IsBare defs p) g.store results) :
    Graph.Returns defs g ((dischargeSlots defs pending slots).run results)
      (Fault.Admissible (∀ slot ∈ slots, Guarded s defs slot.content)) fun q h =>
      List.Forall₂ (SlotBecomes (Outcome defs (Graph.IsBare defs p) g.store h.store)) slots q.1 := by
  induction slots generalizing g results with
  | nil => exact .pure hg .nil
  | cons slot slots ih =>
    have hcontent := Graph.dischargeFrom_returns hp s hwithin [] slot.content results hg hs
      (hslots slot List.mem_cons_self) (fun hp => ⟨hguarded hp slot List.mem_cons_self, .nil⟩)
      hresults
    unfold dischargeSlots
    rw [StateT.run_bind]
    refine Graph.Returns.bind (hcontent.admissible fun h => h slot List.mem_cons_self) ?_
    rintro ⟨content, found⟩ h hgh hh hq
    have hgh := Graph.store_le hgh
    have hrest := ih found hh (le_trans hs hgh)
      (fun other hother => hslots other (List.mem_cons_of_mem slot hother))
      (fun hp other hother => hguarded hp other (List.mem_cons_of_mem slot hother)) hq.results
    rw [StateT.run_bind]
    refine Graph.Returns.bind (hrest.admissible ?_) ?_
    . intro h other hother
      exact h other (List.mem_cons_of_mem slot hother)
    . rintro ⟨slots', found'⟩ k hhk hk hslots'
      refine .pure hk (.cons ⟨rfl, ?_⟩ ?_)
      . exact ⟨fun u hu => hq.related u (le_trans (Graph.store_le hhk) hu),
          hq.composed.of_le (Graph.store_le hhk)⟩
      . exact hslots'.imp fun _ _ h => ⟨h.1, h.2.of_ge hgh⟩

theorem discharge_returns (hp : p → pending = .missing) (hwithin : defs.Within s)
    (hg : g.Sound defs) (hs : s ≤ g.store) (hm : m.Within s) (hguarded : p → m.IsGuarded s defs)
    (hstate : Outcome defs (Graph.IsBare defs p) s g.store m.state state)
    (hresults : Consistent defs (Graph.IsBare defs p) g.store results) :
    Graph.Returns defs g ((m.discharge defs pending state).run results)
      (Fault.Admissible (m.IsGuarded s defs)) fun q h =>
      m.Becomes (Outcome defs (Graph.IsBare defs p) s h.store) q.1 ∧ q.1.state = state := by
  cases m with
  | single before owner =>
    refine .pure hg ⟨⟨hstate, ?_⟩, rfl⟩
    cases owner with
    | none => exact .nil
    | some owner => exact .cons ⟨rfl, hstate⟩ .nil
  | several before slots =>
    have hslots := dischargeSlots_returns hp hwithin slots results hg hs
      (fun slot hslot => (hm.slots slot hslot).2) (fun hp => (hguarded hp).slots) hresults
    unfold discharge
    rw [StateT.run_bind]
    refine Graph.Returns.bind (hslots.admissible (·.slots)) ?_
    rintro ⟨slots', found⟩ h hgh hh hslots'
    refine .pure hh ⟨⟨hstate.of_le (Graph.store_le hgh), ?_⟩, rfl⟩
    exact hslots'.imp fun _ _ h => ⟨h.1, h.2.of_ge hs⟩

theorem discharged_returns {α : Type} {work : ExprId → MemoM α} {Q : α → Graph → Prop}
    (hp : p → pending = .missing) (hg : g.Sound defs) (hm : m.Within g.store)
    (hguarded : p → m.IsGuarded g.store defs)
    (hwork : ∀ state found h, g ≤ h → h.Sound defs →
      Outcome defs (Graph.IsBare defs p) g.store h.store m.state state →
      Consistent defs (Graph.IsBare defs p) h.store found →
      Graph.Returns defs h ((work state).run found) (Fault.Admissible (m.IsGuarded g.store defs))
        fun q k => Q q.1 k) :
    Graph.Returns defs g ((do work (← Graph.discharge defs pending m.state) : MemoM α).run' ∅)
      (Fault.Admissible (m.IsGuarded g.store defs)) Q := by
  have hstate := Graph.dischargeFrom_returns hp g.store hg.within [] m.state ∅ hg le_rfl hm.state
    (fun hp => ⟨(hguarded hp).state, .nil⟩) .empty
  rw [StateT.run'_eq, StateT.run_bind]
  refine Graph.Returns.map (Q := fun q k => Q q.1 k) ?_ fun _ _ _ _ hq => hq
  refine Graph.Returns.bind (hstate.admissible (·.state)) ?_
  rintro ⟨state, found⟩ h hgh hh hq
  exact hwork state found h hgh hh ⟨hq.related, hq.composed⟩ hq.results

def Ends (defs : Definitions) (s t : Store) (m : Matcher) : Option Matcher → Prop
  | none => ∀ u, t ≤ u → m.IsGuarded s defs → Language.bare (u.language defs m.state) = 0
  | some m' => m.Becomes (Outcome defs (Graph.IsBare defs (m.IsGuarded s defs)) s t) m'

theorem endAttributes?_returns (hg : g.Sound defs) (hm : m.Within g.store) :
    Graph.Returns defs g (m.endAttributes? defs) (Fault.Admissible (m.IsGuarded g.store defs))
      fun r h => Ends defs g.store h.store m r := by
  refine discharged_returns (p := m.IsGuarded g.store defs) (fun _ => rfl) hg hm id ?_
  intro state found h hgh hh hstate hfound
  split
  . next hnull =>
    refine .pure hh ?_
    intro u hu hguarded
    rw [← hstate.related u hu hguarded, hnull, Store.language_nullSet]
  . have hdischarge := discharge_returns (fun _ => rfl) hg.within hh (Graph.store_le hgh) hm id
      hstate hfound
    rw [StateT.run_bind]
    refine Graph.Returns.bind hdischarge ?_
    rintro ⟨m', _⟩ k _ hk ⟨hm', _⟩
    exact .pure hk hm'

theorem grantAttributes_returns (hg : g.Sound defs) (hm : m.Within g.store) :
    Graph.Returns defs g (m.grantAttributes defs) (Fault.Admissible (m.IsGuarded g.store defs))
      fun m' h => m.Becomes (Outcome defs (Graph.IsBare defs False) g.store h.store) m' := by
  refine discharged_returns (p := False) False.elim hg hm False.elim ?_
  intro state found h hgh hh hstate hfound
  refine (discharge_returns False.elim hg.within hh (Graph.store_le hgh) hm False.elim hstate
    hfound).mono (fun _ hf => hf) ?_
  exact fun _ _ _ _ hq => hq.1

end Discharge

section Children

def IsCandidate (s : Store) (defs : Definitions) (name : Name) (id : ExprId) (slot : Slot) : Prop :=
  ∃ names, s.node slot.owner = .element names slot.content ∧
    ReflTransGen (Opens s defs) slot.owner id ∧ names.contains name

structure Joins (defs : Definitions) (s t : Store) (found : List Slot) (m : Matcher) : Prop where
  slots : m.slots = found
  language : ∀ u, t ≤ u → ∀ w, w ∈ u.language defs m.state ↔
    ∃ slot ∈ found, w ∈ u.language defs slot.content
  composed : Composed defs s t (found.map (·.content)) m.state

theorem IsCandidate.mem {name : Name} {slot : Slot} (h : IsCandidate s defs name id slot) :
    slot.owner ∈ s ∧ slot.content ∈ s := by
  obtain ⟨names, hn, _⟩ := h
  have howner : slot.owner ∈ s := Store.mem_of_node_ne (by simp [hn])
  exact ⟨howner, Store.mem_of_mem_children howner (by simp [hn, Node.children])⟩

theorem Joins.within {found : List Slot} (h : Joins defs s t found m) (hwithin : defs.Within s)
    (hst : s ≤ t) (hfound : ∀ slot ∈ found, slot.owner ∈ s ∧ slot.content ∈ s) : m.Within t where
  state := by
    refine h.composed.mem hwithin hst ?_
    intro a ha
    obtain ⟨slot, hslot, rfl⟩ := List.mem_map.1 ha
    exact (hfound slot hslot).2
  slots := by
    rw [h.slots]
    intro slot hslot
    exact ⟨Store.mem_of_le hst (hfound slot hslot).1, Store.mem_of_le hst (hfound slot hslot).2⟩

theorem choices_returns (heads : List Head) (start : ExprId) {g : Graph} (hg : g.Sound defs)
    (hstart : start ∈ g.store) (hheads : ∀ head ∈ heads, head.content ∈ g.store) :
    Graph.Returns defs g (heads.foldlM (fun state head => Graph.choice state head.content) start)
      (Fault.Admissible True) fun r h =>
      (∀ u, h.store ≤ u → ∀ w, w ∈ u.language defs r ↔
        w ∈ u.language defs start ∨ ∃ head ∈ heads, w ∈ u.language defs head.content) ∧
      Composed defs g.store h.store (start :: heads.map (·.content)) r := by
  induction heads generalizing start g with
  | nil =>
    refine .pure hg ⟨?_, .operand le_rfl List.mem_cons_self⟩
    simp
  | cons head heads ih =>
    have hhead := hheads head List.mem_cons_self
    rw [List.foldlM_cons]
    refine Graph.Returns.bind (Graph.choice_yields hg hstart hhead).returns ?_
    rintro c h hgh hh ⟨hc, hcomposed⟩
    have hgh := Graph.store_le hgh
    have hcMem := hcomposed.mem hg.within hgh (by simp [hstart, hhead])
    have hrest := ih c hh hcMem fun other hother =>
      Store.mem_of_le hgh (hheads other (List.mem_cons_of_mem head hother))
    refine hrest.mono (fun _ hf => hf) ?_
    rintro r k hhk _ ⟨hr, hrComposed⟩
    refine ⟨?_, hrComposed.trans hgh ?_⟩
    . intro u hu w
      rw [hr u hu, hc u (le_trans (Graph.store_le hhk) hu), Language.mem_add, or_assoc,
        List.exists_mem_cons_iff]
    . intro a ha
      rcases List.mem_cons.1 ha with rfl | ha
      . refine hcomposed.trans le_rfl ?_
        simp only [List.mem_cons, List.not_mem_nil, or_false, forall_eq_or_imp, forall_eq]
        exact ⟨.operand le_rfl (by simp), .operand le_rfl (by simp)⟩
      . exact .operand hgh (by simp [ha])

theorem ofHeads?_returns (heads : List Head) (hg : g.Sound defs)
    (hheads : ∀ head ∈ heads, head.content ∈ g.store) :
    Graph.Returns defs g (ofHeads? heads) (Fault.Admissible True) fun r h => match r with
      | none => heads = []
      | some m => heads ≠ [] ∧
        Joins defs g.store h.store (heads.map fun head => ⟨head.id, head.content⟩) m := by
  match heads with
  | [] => exact .pure hg rfl
  | [head] =>
    refine .pure hg ⟨by simp, rfl, ?_, .operand le_rfl (by simp [state])⟩
    simp [state]
  | head :: next :: heads =>
    unfold ofHeads?
    refine Graph.Returns.bind (choices_returns _ _ hg g.store.nullSet_mem hheads) ?_
    rintro r h hgh hh ⟨hr, hcomposed⟩
    refine .pure hh ⟨by simp, rfl, ?_, ?_⟩
    . intro u hu w
      rw [state, hr u hu, Store.language_nullSet]
      simp [Language.notMem_zero]
    . refine hcomposed.trans le_rfl ?_
      intro a ha
      rcases List.mem_cons.1 ha with rfl | ha
      . exact .nullSet
      . refine .operand le_rfl ?_
        simpa using ha

theorem child?_returns (name : Name) (hg : g.Sound defs) (hid : m.state ∈ g.store) :
    Graph.Returns defs g (m.child? defs name) (Fault.Admissible (Guarded g.store defs m.state))
      fun r h => match r with
      | none => ∀ slot, ¬ IsCandidate g.store defs name m.state slot
      | some m' => ∃ slots, slots ≠ [] ∧
        (∀ slot, slot ∈ slots ↔ IsCandidate g.store defs name m.state slot) ∧
        Joins defs g.store h.store slots m' := by
  unfold child?
  refine Graph.Returns.bind (Graph.candidates_returns hg hid) ?_
  intro found h hgh hh hfound
  have hslot (slot : Slot) : slot ∈ found.map (fun head => (⟨head.id, head.content⟩ : Slot)) ↔
      IsCandidate g.store defs name m.state slot := by
    rw [List.mem_map]
    constructor
    . rintro ⟨head, hhead, rfl⟩
      exact ⟨head.names, (hfound head).1 hhead⟩
    . rintro ⟨names, hn⟩
      exact ⟨⟨slot.owner, names, slot.content⟩, (hfound _).2 hn, rfl⟩
  refine ((ofHeads?_returns found hh ?_).admissible fun _ => trivial).mono (fun _ hf => hf) ?_
  . intro head hhead
    have hcandidate := (hslot ⟨head.id, head.content⟩).1 (List.mem_map_of_mem hhead)
    exact Store.mem_of_le (Graph.store_le hgh) hcandidate.mem.2
  . intro r k hhk _ hr
    cases r with
    | none =>
      intro slot hcandidate
      rw [← hslot, hr] at hcandidate
      cases hcandidate
    | some m' =>
      obtain ⟨hne, hjoins⟩ := hr
      refine ⟨_, by simpa using hne, hslot, hjoins.slots, hjoins.language, ?_⟩
      exact hjoins.composed.trans (Graph.store_le hgh) fun a ha => .operand (Graph.store_le hgh) ha

end Children

end Matcher

end TreeGrammar
