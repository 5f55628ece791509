import TreeGrammar.Matcher
import TreeGrammar.Proofs.HeadOrder
import TreeGrammar.Proofs.Searches

/-!
This module contains matchers on forms, and that a matcher on expressions does what a matcher on their
forms plans to do.
-/

namespace TreeGrammar

noncomputable section

namespace Form

structure Slot where
  owner : ExprId
  content : Form

inductive Matcher where
  | single (state : Form) (owner : Option ExprId)
  | several (state : Form) (slots : List Slot)

def after (token : Token) (before rest : Form) : Plan Form :=
  if token.isIgnorable then Plan.choice before rest else pure rest

namespace Slot

def advance (token : Token) (slot : Slot) : Plan Slot := do
  let rest ← slot.content.derivative token
  return { slot with content := ← after token slot.content rest }

def discharge (pending : Pending) (slot : Slot) : Plan Slot :=
  return { slot with content := ← slot.content.discharge pending }

end Slot

namespace Matcher

def ofContent (content : Form) : Matcher := .single content none

def state : Matcher → Form
  | .single state _ | .several state _ => state

def satisfied (slots : List Slot) : List ExprId :=
  (slots.filter (·.content.nullable)).map (·.owner)

def advance (token : Token) (rest : Form) : Matcher → Plan Matcher
  | .single state owner => return .single (← after token state rest) owner
  | .several state slots => do
    let state ← after token state rest
    return .several state (← slots.mapM (Slot.advance token))

def read? (m : Matcher) (token : Token) : Plan (Option Matcher) := do
  let rest ← m.state.derivative token
  if rest = .nullSet then
    return if token.isIgnorable then some m else none
  else
    return some (← m.advance token rest)

def token (recovering : Bool) : Matcher → Token
  | .single _ none => .anyElement
  | .single _ (some owner) => .element [owner]
  | .several _ slots => .element (if recovering then slots.map (·.owner) else satisfied slots)

def readChild? (m child : Matcher) (recovering : Bool) : Plan (Option Matcher) :=
  m.read? (child.token recovering)

def discharge (pending : Pending) (state : Form) : Matcher → Plan Matcher
  | .single _ owner => return .single state owner
  | .several _ slots => return .several state (← slots.mapM (Slot.discharge pending))

def endAttributes? (m : Matcher) : Plan (Option Matcher) := do
  let state ← m.state.discharge .missing
  if state = .nullSet then return none
  return some (← m.discharge .missing state)

def grantAttributes (m : Matcher) : Plan Matcher := do
  let state ← m.state.discharge .granted
  m.discharge .granted state

def ofHeads? (contents : ExprId → Form) : List Head → Plan (Option Matcher)
  | [] => return none
  | [head] => return some (.single (contents head.content) (some head.id))
  | heads => do
    let state ← heads.foldlM (fun state head => Plan.choice state (contents head.content)) .nullSet
    return some (.several state (heads.map fun head => ⟨head.id, contents head.content⟩))

def candidates (e : Form) (name : Name) : List Head :=
  e.heads.eraseDups.filter (·.names.contains name)

def child? (contents : ExprId → Form) (m : Matcher) (name : Name) : Plan (Option Matcher) :=
  ofHeads? contents (candidates m.state name)

end Matcher

end Form

namespace Store

def ShowsSlot (s : Store) (defs : Definitions) (slot : Slot) (slot' : Form.Slot) : Prop :=
  slot.owner = slot'.owner ∧ s.Shows defs slot.content slot'.content

def ShowsMatcher (s : Store) (defs : Definitions) : Matcher → Form.Matcher → Prop
  | .single state owner, .single state' owner' => s.Shows defs state state' ∧ owner = owner'
  | .several state slots, .several state' slots' =>
    s.Shows defs state state' ∧ List.Forall₂ (s.ShowsSlot defs) slots slots'
  | _, _ => False

def ShowsContents (s : Store) (defs : Definitions) (contents : ExprId → Form) (heads : List Head) :
    Prop :=
  ∀ head ∈ heads, s.Shows defs head.content (contents head.content)

variable {s t : Store} {defs : Definitions} {m : Matcher} {m' : Form.Matcher} {slot : Slot}
variable {slot' : Form.Slot} {contents : ExprId → Form} {heads : List Head}

section Imp

variable {defs' : Definitions} (himp : ∀ id e, s.Shows defs id e → t.Shows defs' id e)

include himp

theorem ShowsSlot.imp (h : s.ShowsSlot defs slot slot') : t.ShowsSlot defs' slot slot' :=
  ⟨h.1, himp _ _ h.2⟩

theorem ShowsMatcher.imp (h : s.ShowsMatcher defs m m') : t.ShowsMatcher defs' m m' := by
  cases m <;> cases m'
  . exact ⟨himp _ _ h.1, h.2⟩
  . exact h
  . exact h
  . exact ⟨himp _ _ h.1, h.2.imp fun _ _ hslot => hslot.imp himp⟩

end Imp

theorem ShowsSlot.of_le (h : s.ShowsSlot defs slot slot') (hst : s ≤ t) :
    t.ShowsSlot defs slot slot' :=
  h.imp fun _ _ hid => hid.of_le hst le_rfl

theorem ShowsMatcher.of_le (h : s.ShowsMatcher defs m m') (hst : s ≤ t) :
    t.ShowsMatcher defs m m' :=
  h.imp fun _ _ hid => hid.of_le hst le_rfl

theorem ShowsMatcher.state (h : s.ShowsMatcher defs m m') : s.Shows defs m.state m'.state := by
  cases m <;> cases m'
  . exact h.1
  . exact h.elim
  . exact h.elim
  . exact h.1

theorem ShowsContents.of_le (h : s.ShowsContents defs contents heads) (hst : s ≤ t) :
    t.ShowsContents defs contents heads :=
  fun head hhead => (h head hhead).of_le hst le_rfl

end Store

namespace Matcher

open TreeGrammar.Graph

variable {defs : Definitions} {g : Graph} {i j : ExprId} {a b : Form} {token : Token}
variable {m c : Matcher} {m' c' : Form.Matcher} {pending : Pending} {results : Results}
variable {contents : ExprId → Form} {heads : List Head} {slots : List Slot} {slots' : List Form.Slot}

theorem after_carries (hg : g.Sound defs) (hi : g.store.Shows defs i a)
    (hj : g.store.Shows defs j b) :
    Carries defs g (after token i j) (Form.after token a b) (Store.Shows · defs) :=
  Carries.ite Iff.rfl (fun _ => choice_carries hg hi hj) fun _ => .pure hg hj

theorem advanceSlots_carries {g : Graph} (hg : g.Sound defs)
    (hslots : List.Forall₂ (g.store.ShowsSlot defs) slots slots') :
    Carries defs g (advanceSlots defs token slots) (slots'.mapM (Form.Slot.advance token))
      fun s => List.Forall₂ (s.ShowsSlot defs) := by
  induction slots generalizing g slots' with
  | nil =>
    cases hslots
    exact .pure hg .nil
  | cons slot slots ih =>
    obtain _ | ⟨hslot, hslots⟩ := hslots
    rw [advanceSlots, List.mapM_cons, Form.Slot.advance, bind_assoc]
    refine Carries.bind (derivative_carries hg hslot.2) fun d h hgh hh ⟨hd, _⟩ => ?_
    rw [bind_assoc]
    refine Carries.bind (after_carries hh (hslot.2.of_le (store_le hgh) le_rfl) hd)
      fun content k hhk hk hcontent => ?_
    rw [pure_bind]
    have hgk := store_le (le_trans hgh hhk)
    refine Carries.bind (ih hk (hslots.imp fun _ _ h => h.of_le hgk)) fun rest l hkl hl hrest => ?_
    exact .pure hl (.cons ⟨hslot.1, hcontent.of_le (store_le hkl) le_rfl⟩ hrest)

theorem advance_carries (hg : g.Sound defs) (hm : g.store.ShowsMatcher defs m m')
    (hj : g.store.Shows defs j b) :
    Carries defs g (m.advance defs token j) (m'.advance token b) (Store.ShowsMatcher · defs) := by
  cases m <;> cases m'
  . obtain ⟨hi, rfl⟩ := hm
    refine Carries.bind (after_carries hg hi hj) fun r h _ hh hr => ?_
    exact .pure hh ⟨hr, rfl⟩
  . exact hm.elim
  . exact hm.elim
  . obtain ⟨hi, hslots⟩ := hm
    refine Carries.bind (after_carries hg hi hj) fun r h hgh hh hr => ?_
    have hslots := hslots.imp fun _ _ h => h.of_le (store_le hgh)
    refine Carries.bind (advanceSlots_carries hh hslots) fun rest k hhk hk hrest => ?_
    exact .pure hk ⟨hr.of_le (store_le hhk) le_rfl, hrest⟩

theorem read?_carries (hg : g.Sound defs) (hm : g.store.ShowsMatcher defs m m') :
    Carries defs g (m.read? defs token) (m'.read? token) fun s r =>
      Option.Rel (s.ShowsMatcher defs) (r.map (·.1)) := by
  refine Carries.bind (derivative_carries hg hm.state) fun d h hgh hh ⟨hd, _⟩ => ?_
  have hm := hm.of_le (store_le hgh)
  refine Carries.ite hd.eq_nullSet_iff (fun _ => .pure hh ?_) fun _ => ?_
  . split
    . exact .some hm
    . exact .none
  . refine Carries.bind (advance_carries hh hm hd) fun r k _ hk hr => ?_
    exact .pure hk (.some hr)

theorem readText?_carries {literal : String} {scope : Scope} (hg : g.Sound defs)
    (hm : g.store.ShowsMatcher defs m m') :
    Carries defs g (m.readText? defs literal scope) (m'.read? (.text literal scope)) fun s r =>
      Option.Rel (s.ShowsMatcher defs) (r.map (·.1)) :=
  read?_carries hg hm

theorem readAttribute?_carries {name : Name} {value : String} {scope : Scope} (hg : g.Sound defs)
    (hm : g.store.ShowsMatcher defs m m') :
    Carries defs g (m.readAttribute? defs name value scope) (m'.read? (.attribute name value scope))
      fun s => Option.Rel (s.ShowsMatcher defs) :=
  (read?_carries hg hm).wrap fun _ _ _ _ hr => hr

theorem isAccepting_carries (hg : g.Sound defs) (hm : g.store.ShowsMatcher defs m m') :
    Carries defs g (m.isAccepting defs) (Pure.pure m'.state.nullable : Plan Bool)
      fun _ b c => b = c :=
  isNullable_carries hg hm.state

theorem satisfied_carries {g : Graph} (hg : g.Sound defs)
    (hslots : List.Forall₂ (g.store.ShowsSlot defs) slots slots') :
    Carries defs g (satisfied defs slots)
      (Pure.pure (Form.Matcher.satisfied slots') : Plan (List ExprId))
      fun _ found found' => found = found' := by
  induction slots generalizing g slots' with
  | nil =>
    cases hslots
    exact .pure hg rfl
  | cons slot slots ih =>
    cases hslots with | @cons _ slot' _ slots' hslot hslots =>
    obtain ⟨howner, hcontent⟩ := hslot
    unfold satisfied
    refine Carries.ask (isNullable_carries hg hcontent) ?_
    rintro _ h hgh hh rfl
    have hrest := ih hh (hslots.imp fun _ _ h => h.of_le (store_le hgh))
    have hsatisfied : Form.Matcher.satisfied (slot' :: slots') = if slot'.content.nullable then
        slot'.owner :: Form.Matcher.satisfied slots' else Form.Matcher.satisfied slots' := by
      unfold Form.Matcher.satisfied
      rw [List.filter_cons]
      split <;> rfl
    rw [hsatisfied]
    split
    . refine Carries.ask hrest ?_
      rintro _ k _ hk rfl
      exact .pure hk (by rw [howner])
    . exact hrest

theorem token_carries {recovering : Bool} (hg : g.Sound defs)
    (hm : g.store.ShowsMatcher defs m m') :
    Carries defs g (m.token defs recovering) (Pure.pure (m'.token recovering) : Plan Token)
      fun _ token token' => token = token' := by
  cases m with
  | single state owner =>
    cases m' with
    | several => exact hm.elim
    | single state' owner' =>
      obtain ⟨-, rfl⟩ := hm
      cases owner with
      | none => exact .pure hg rfl
      | some owner => exact .pure hg rfl
  | several state slots =>
    cases m' with
    | single => exact hm.elim
    | several state' slots' =>
      obtain ⟨-, hslots⟩ := hm
      cases recovering with
      | true =>
        have howners : slots.map (·.owner) = slots'.map (·.owner) := by
          rw [← List.forall₂_eq_eq_eq, List.forall₂_map_left_iff, List.forall₂_map_right_iff]
          exact hslots.imp fun _ _ h => h.1
        exact .pure hg (by simp [Form.Matcher.token, howners])
      | false =>
        have htoken : Matcher.token defs (.several state slots) false =
            satisfied defs slots >>= fun found => pure (.element found) := rfl
        rw [htoken]
        refine Carries.ask (satisfied_carries hg hslots) ?_
        rintro _ h _ hh rfl
        exact .pure hh rfl

theorem readChild?_carries {recovering : Bool} (hg : g.Sound defs)
    (hm : g.store.ShowsMatcher defs m m') (hc : g.store.ShowsMatcher defs c c') :
    Carries defs g (m.readChild? defs c recovering) (m'.readChild? c' recovering)
      fun s => Option.Rel (s.ShowsMatcher defs) := by
  refine Carries.ask (token_carries hg hc) ?_
  rintro _ h hgh hh rfl
  exact (read?_carries hh (hm.of_le (store_le hgh))).wrap fun _ _ _ _ hr => hr

theorem dischargeSlots_carries {g : Graph} (hg : g.Sound defs)
    (hslots : List.Forall₂ (g.store.ShowsSlot defs) slots slots')
    (hresults : Recorded defs (Store.Shows · defs) (Form.discharge pending) g.store results) :
    Carries defs g ((dischargeSlots defs pending slots).run results)
      (slots'.mapM (Form.Slot.discharge pending))
      fun s p => List.Forall₂ (s.ShowsSlot defs) p.1 := by
  induction slots generalizing g slots' results with
  | nil =>
    cases hslots
    exact .pure hg .nil
  | cons slot slots ih =>
    obtain _ | ⟨hslot, hslots⟩ := hslots
    rw [dischargeSlots, List.mapM_cons, Form.Slot.discharge, bind_assoc, StateT.run_bind]
    refine Carries.bind (Graph.discharge_carries hg hslot.2 hresults) ?_
    rintro ⟨content, results⟩ h hgh hh ⟨hcontent, hresults⟩
    have hrest := ih hh (hslots.imp fun _ _ h => h.of_le (store_le hgh)) hresults
    rw [pure_bind, StateT.run_bind]
    refine Carries.bind hrest ?_
    rintro ⟨rest, _⟩ k hhk hk hrest
    exact .pure hk (.cons ⟨hslot.1, hcontent.of_le (store_le hhk) le_rfl⟩ hrest)

theorem discharge_carries (hg : g.Sound defs) (hm : g.store.ShowsMatcher defs m m')
    (hi : g.store.Shows defs i a)
    (hresults : Recorded defs (Store.Shows · defs) (Form.discharge pending) g.store results) :
    Carries defs g ((m.discharge defs pending i).run results) (m'.discharge pending a)
      fun s p => s.ShowsMatcher defs p.1 := by
  cases m <;> cases m'
  . exact .pure hg ⟨hi, hm.2⟩
  . exact hm.elim
  . exact hm.elim
  . unfold discharge
    rw [StateT.run_bind]
    refine Carries.bind (dischargeSlots_carries hg hm.2 hresults) ?_
    rintro ⟨slots, _⟩ h hgh hh hslots
    exact .pure hh ⟨hi.of_le (store_le hgh) le_rfl, hslots⟩

theorem endAttributes?_carries (hg : g.Sound defs) (hm : g.store.ShowsMatcher defs m m') :
    Carries defs g (m.endAttributes? defs) m'.endAttributes?
      fun s => Option.Rel (s.ShowsMatcher defs) := by
  rw [endAttributes?, endAttributes?.go, StateT.run'_eq, StateT.run_bind, map_bind]
  refine Carries.bind (Graph.discharge_carries hg hm.state .empty) ?_
  rintro ⟨state, results⟩ h hgh hh ⟨hstate, hresults⟩
  by_cases hnull : (m'.state.discharge .missing).value = .nullSet
  . rw [if_pos hnull]
    have hnull := hstate.eq_nullSet_iff.2 hnull
    dsimp only at hnull ⊢
    rw [if_pos hnull]
    exact .pure hh .none
  . rw [if_neg hnull]
    have hnull := mt hstate.eq_nullSet_iff.1 hnull
    dsimp only at hnull ⊢
    rw [if_neg hnull, StateT.run_bind, map_bind]
    have hm := hm.of_le (store_le hgh)
    refine Carries.bind (discharge_carries hh hm hstate hresults) ?_
    rintro ⟨r, _⟩ k _ hk hr
    exact .pure hk (.some hr)

theorem grantAttributes_carries (hg : g.Sound defs) (hm : g.store.ShowsMatcher defs m m') :
    Carries defs g (m.grantAttributes defs) m'.grantAttributes (Store.ShowsMatcher · defs) := by
  rw [grantAttributes, grantAttributes.go, StateT.run'_eq, StateT.run_bind, map_bind]
  refine Carries.bind (Graph.discharge_carries hg hm.state .empty) ?_
  rintro ⟨state, results⟩ h hgh hh ⟨hstate, hresults⟩
  have hm := hm.of_le (store_le hgh)
  rw [map_eq_pure_bind]
  exact (discharge_carries hh hm hstate hresults).wrap fun _ _ _ _ hr => hr

theorem choices_carries {g : Graph} (hg : g.Sound defs)
    (hcontents : g.store.ShowsContents defs contents heads) (hi : g.store.Shows defs i a) :
    Carries defs g (heads.foldlM (fun state head => Graph.choice state head.content) i)
      (heads.foldlM (fun state head => Plan.choice state (contents head.content)) a)
      (Store.Shows · defs) := by
  induction heads generalizing g i a with
  | nil => exact .pure hg hi
  | cons head heads ih =>
    rw [List.foldlM_cons, List.foldlM_cons]
    have hhead := hcontents head List.mem_cons_self
    refine Carries.bind (choice_carries hg hi hhead) fun r h hgh hh hr => ?_
    exact ih hh (fun head hhead => (hcontents head (List.mem_cons_of_mem _ hhead)).of_le
      (store_le hgh) le_rfl) hr

theorem ofHeads?_carries (hg : g.Sound defs)
    (hcontents : g.store.ShowsContents defs contents heads) :
    Carries defs g (ofHeads? heads) (Form.Matcher.ofHeads? contents heads)
      fun s => Option.Rel (s.ShowsMatcher defs) := by
  match heads with
  | [] => exact .pure hg .none
  | [head] => exact .pure hg (.some ⟨hcontents head List.mem_cons_self, rfl⟩)
  | head :: next :: heads =>
    refine Carries.bind (choices_carries hg hcontents (.nullSet _)) fun r h hgh hh hr => ?_
    refine .pure hh (.some ⟨hr, ?_⟩)
    rw [List.forall₂_map_left_iff, List.forall₂_map_right_iff, List.forall₂_same]
    exact fun head hhead => ⟨rfl, (hcontents head hhead).of_le (store_le hgh) le_rfl⟩

theorem child?_carries {name : Name} (hg : g.Sound defs) (hm : g.store.ShowsMatcher defs m m')
    (hcontents : g.store.ShowsContents defs contents m'.state.heads) :
    Carries defs g (m.child? defs name) (m'.child? contents name)
      fun s => Option.Rel (s.ShowsMatcher defs) := by
  refine Carries.ask (candidates_carries hg hm.state) ?_
  rintro _ h hgh hh rfl
  refine ofHeads?_carries hh fun head hhead => ?_
  have hhead := List.mem_eraseDups.1 (List.mem_filter.1 hhead).1
  exact (hcontents head hhead).of_le (store_le hgh) le_rfl

end Matcher

end

end TreeGrammar
