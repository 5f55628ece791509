import TreeGrammar.Expr.Heads
import TreeGrammar.Proofs.Nullability

/-!
This module contains the correctness of the search for heads: it finds all declarations of elements
that can come next in an expression, and what can come next depends on nothing but these.
-/

namespace TreeGrammar

open Relation

/--
`Opens s defs a id` says that what comes first in `a` can come first in `id`.
-/
inductive Opens (s : Store) (defs : Definitions) : ExprId → ExprId → Prop where
  | operand {a id} : (s.node id).isCompound → (∀ b c, s.node id ≠ .sequence b c) →
      a ∈ (s.node id).children → Opens s defs a id
  | first {a b id} : s.node id = .sequence a b → Opens s defs a id
  | second {a b id} : s.node id = .sequence a b → [] ∈ s.language defs a → Opens s defs b id
  | target {a id r} : s.node id = .reference r → defs.target? r = some a → Opens s defs a id

inductive Fresh (s : Store) (defs : Definitions) (seen : ExprId → Prop) :
    ExprId → ExprId → Prop where
  | here {y} : ¬ seen y → Fresh s defs seen y y
  | step {a id y} : ¬ seen id → Opens s defs a id → Fresh s defs seen a y → Fresh s defs seen id y

namespace Visited

variable {v w : Visited} {id : ExprId}

theorem mem_seen_of_visit?_eq_none (h : v.visit? id = none) (hid : id.index < v.bound) :
    id ∈ v.seen := by
  unfold visit? at h
  split at h
  . cases h
  . next hnot =>
    simpa [hid] using hnot

theorem seen_of_visit? (h : v.visit? id = some w) :
    w.bound = v.bound ∧ ∀ a, a ∈ w.seen ↔ a ∈ v.seen ∨ a = id := by
  unfold visit? at h
  split at h
  . cases h
    refine ⟨rfl, ?_⟩
    intro a
    rw [Std.TreeSet.mem_insert, Std.LawfulEqOrd.compare_eq_iff_eq, or_comm, eq_comm]
  . cases h

theorem not_mem_seen_of_visit? (h : v.visit? id = some w) : id ∉ v.seen := by
  unfold visit? at h
  split at h
  . next hnew =>
    rw [Bool.and_eq_true, Bool.not_eq_true'] at hnew
    rw [Std.TreeSet.mem_iff_contains, hnew.2]
    simp
  . cases h

end Visited

variable {s t : Store} {defs : Definitions} {id a y : ExprId} {seen seen' : ExprId → Prop}

namespace Opens

theorem part (h : Opens s defs a id) : Part s defs a id := by
  cases h with
  | operand hn _ ha => exact (Part.iff_of_isCompound hn).2 ha
  | first hn => exact .operand (by simp [hn]) (by simp [hn, Node.children])
  | second hn _ => exact .operand (by simp [hn]) (by simp [hn, Node.children])
  | target hn htarget => exact .target hn htarget

theorem iff_of_isCompound (hn : (s.node id).isCompound) (hseq : ∀ b c, s.node id ≠ .sequence b c) :
    Opens s defs a id ↔ a ∈ (s.node id).children := by
  constructor
  . intro h
    exact (Part.iff_of_isCompound hn).1 h.part
  . exact .operand hn hseq

theorem iff_of_sequence {b c : ExprId} (hn : s.node id = .sequence b c) :
    Opens s defs a id ↔ a = b ∨ [] ∈ s.language defs b ∧ a = c := by
  constructor
  . intro h
    cases h <;> simp_all
  . rintro (rfl | ⟨hempty, rfl⟩)
    . exact .first hn
    . exact .second hn hempty

theorem iff_of_reference {r : RefId} {b : ExprId} (hn : s.node id = .reference r)
    (htarget : defs.target? r = some b) : Opens s defs a id ↔ a = b := by
  constructor
  . intro h
    cases h with
    | target hn' htarget' =>
      rw [hn] at hn'
      cases hn'
      rw [htarget] at htarget'
      cases htarget'
      rfl
    | operand hc => simp [hn, Node.isCompound] at hc
    | first hn' => simp [hn] at hn'
    | second hn' _ => simp [hn] at hn'
  . rintro rfl
    exact .target hn htarget

theorem not_of_leaf (hn : (s.node id).isCompound = false) (hr : ∀ r, s.node id ≠ .reference r) :
    ¬ Opens s defs a id := by
  rintro (⟨hc, -, -⟩ | hn' | ⟨hn', -⟩ | ⟨hn', -⟩)
  . rw [hn] at hc
    cases hc
  . simp [hn', Node.isCompound] at hn
  . simp [hn', Node.isCompound] at hn
  . exact hr _ hn'

end Opens

namespace Fresh

theorem not_seen (h : Fresh s defs seen id y) : ¬ seen id := by
  cases h <;> assumption

theorem of_reflTransGen (h : ReflTransGen (Opens s defs) y id) (hseen : ∀ z, ¬ seen z) :
    Fresh s defs seen id y := by
  induction h with
  | refl => exact .here (hseen _)
  | tail _ hopens ih => exact .step (hseen _) hopens ih

theorem insert {x : ExprId} (h : Fresh s defs seen id y) (hx : ∀ z, seen' z → seen z ∨ z = x) :
    Fresh s defs seen' id y ∨ y = x ∨ ∃ a, Opens s defs a x ∧ Fresh s defs seen' a y := by
  induction h with
  | @here y hy =>
    by_cases hyx : y = x
    . exact Or.inr (Or.inl hyx)
    . refine Or.inl (.here fun hseen => ?_)
      exact (hx y hseen).elim hy hyx
  | @step a id y hid hopens hfresh ih =>
    rcases ih with hfresh | hlater
    . by_cases hidx : id = x
      . subst hidx
        exact Or.inr (Or.inr ⟨a, hopens, hfresh⟩)
      . refine Or.inl (.step (fun hseen => ?_) hopens hfresh)
        exact (hx id hseen).elim hid hidx
    . exact Or.inr hlater

end Fresh

theorem Opens.of_node {n : Node} (hn : s.node id = n) (hcompound : n.isCompound)
    (hseq : ∀ b c, n ≠ .sequence b c) (ha : a ∈ n.children) : Opens s defs a id := by
  rw [← hn] at hcompound hseq ha
  exact .operand hcompound hseq ha

/--
One head of the expression reads the child element at the front of a word that goes on with `w`: the
child satisfies the head, and whatever does might stand in its place.
-/
def ReadsFirst (s : Store) (defs : Definitions) (p : ExprId → Prop) (id : ExprId) (w : List Letter) :
    Prop :=
  ∃ y names content, ReflTransGen (Opens s defs) y id ∧ s.node y = .element names content ∧ p y ∧
    ∀ q : ExprId → Prop, q y → Matches s defs id (.element q :: w)

theorem ReadsFirst.through {p : ExprId → Prop} {u w : List Letter} (h : ReadsFirst s defs p a u)
    (hopens : ReflTransGen (Opens s defs) a id)
    (hmatches : ∀ q, Matches s defs a (.element q :: u) → Matches s defs id (.element q :: w)) :
    ReadsFirst s defs p id w := by
  obtain ⟨y, names, content, hya, hy, hp, hall⟩ := h
  exact ⟨y, names, content, hya.trans hopens, hy, hp, fun q hq => hmatches q (hall q hq)⟩

theorem Matches.readsFirst {p : ExprId → Prop} {w : List Letter}
    (h : Matches s defs id (.element p :: w)) : ReadsFirst s defs p id w := by
  have operand {a id : ExprId} {n : Node} (hn : s.node id = n) (hcompound : n.isCompound = true)
      (hseq : ∀ a b, n ≠ .sequence a b) (ha : a ∈ n.children) : ReflTransGen (Opens s defs) a id :=
    .single (.of_node hn hcompound hseq ha)
  generalize hv : Letter.element p :: w = v at h
  induction h generalizing w with
  | epsilon => cases hv
  | anyString hn htext =>
    subst hv
    simp [Letter.isText] at htext
  | typedString => cases hv
  | fullAttribute => cases hv
  | blankAttribute => cases hv
  | element hn hp =>
    cases hv
    exact ⟨_, _, _, .refl, hn, hp, fun q hq => .element hn hq⟩
  | choiceLeft hn _ ih =>
    exact (ih hv).through (operand hn rfl (by simp) (by simp [Node.children])) fun q => .choiceLeft hn
  | choiceRight hn _ ih =>
    exact (ih hv).through (operand hn rfl (by simp) (by simp [Node.children])) fun q => .choiceRight hn
  | @sequence _ _ _ u _ hn hu hv' ihu ihv =>
    cases u with
    | nil => exact (ihv hv).through (.single (.second hn hu)) fun q => .sequence hn hu
    | cons _ u =>
      cases hv
      exact (ihu rfl).through (.single (.first hn)) fun q hq => .sequence hn hq hv'
  | interleave hn hu hv' hshuffle ihu ihv =>
    subst hv
    cases hshuffle with
    | left hshuffle =>
      exact (ihu rfl).through (operand hn rfl (by simp) (by simp [Node.children])) fun q hq =>
        .interleave hn hq hv' (.left hshuffle)
    | right hshuffle =>
      exact (ihv rfl).through (operand hn rfl (by simp) (by simp [Node.children])) fun q hq =>
        .interleave hn hu hq (.right hshuffle)
  | once hn _ ih =>
    exact (ih hv).through (operand hn rfl (by simp) (by simp [Node.children])) fun q => .once hn
  | @more _ _ u _ hn hu hv' ihu ihv =>
    cases u with
    | nil => exact (ihv hv).through .refl fun q => .more hn hu
    | cons _ u =>
      cases hv
      exact (ihu rfl).through (operand hn rfl (by simp) (by simp [Node.children])) fun q hq =>
        .more hn hq hv'
  | mixed hn _ ih =>
    subst hv
    exact (ih rfl).through (operand hn rfl (by simp) (by simp [Node.children])) fun q hq => .mixed hn hq
  | reference hn htarget _ ih =>
    exact (ih hv).through (.single (.target hn htarget)) fun q => .reference hn htarget

/--
`task.Offers s defs id` says that the task leads to a search of `id`.
-/
def HeadTask.Offers (s : Store) (defs : Definitions) : HeadTask → ExprId → Prop
  | .visit a, id => id = a
  | .after a b, id => [] ∈ s.language defs a ∧ id = b

def HeadTask.operands : HeadTask → List ExprId
  | .visit a => [a]
  | .after a b => [a, b]

/--
The declarations found are heads, and all heads are found that can be seen without what has been
searched before.
-/
structure FindsHeads (s : Store) (defs : Definitions) (seen : ExprId → Prop)
    (tasks : List HeadTask) (found : List Head) : Prop where
  sound : ∀ head ∈ found, s.node head.id = .element head.names head.content ∧
    ∃ task ∈ tasks, ∃ id, task.Offers s defs id ∧ ReflTransGen (Opens s defs) head.id id
  complete : ∀ task ∈ tasks, ∀ id y names content, task.Offers s defs id →
    Fresh s defs seen id y → s.node y = .element names content →
    { id := y, names, content : Head } ∈ found

namespace FindsHeads

variable {task : HeadTask} {tasks new : List HeadTask} {found : List Head}

theorem skip (h : FindsHeads s defs seen tasks found)
    (htask : ∀ id y, task.Offers s defs id → ¬ Fresh s defs seen id y) :
    FindsHeads s defs seen (task :: tasks) found where
  sound head hhead := by
    obtain ⟨hn, task', htask', hreach⟩ := h.sound head hhead
    exact ⟨hn, task', List.mem_cons_of_mem _ htask', hreach⟩
  complete := by
    intro task' htask' id y names content hoffers hfresh hn
    rcases List.mem_cons.1 htask' with rfl | htask'
    . exact absurd hfresh (htask id y hoffers)
    . exact h.complete task' htask' id y names content hoffers hfresh hn

theorem congr {task' : HeadTask} (h : FindsHeads s defs seen (task :: tasks) found)
    (htask : ∀ id, task'.Offers s defs id ↔ task.Offers s defs id) :
    FindsHeads s defs seen (task' :: tasks) found where
  sound := by
    intro head hhead
    obtain ⟨hn, task'', htask'', id, hoffers, hreach⟩ := h.sound head hhead
    refine ⟨hn, ?_⟩
    rcases List.mem_cons.1 htask'' with rfl | htask''
    . exact ⟨task', List.mem_cons_self, id, (htask id).2 hoffers, hreach⟩
    . exact ⟨task'', List.mem_cons_of_mem _ htask'', id, hoffers, hreach⟩
  complete := by
    intro task'' htask'' id y names content hoffers hfresh hn
    rcases List.mem_cons.1 htask'' with rfl | htask''
    . exact h.complete task List.mem_cons_self id y names content ((htask id).1 hoffers) hfresh hn
    . exact h.complete task'' (List.mem_cons_of_mem _ htask'') id y names content hoffers hfresh hn

theorem expand {own : List Head} (h : FindsHeads s defs seen' (new ++ tasks) found)
    (hseen : ∀ z, seen' z → seen z ∨ z = id) (hid : seen' id)
    (hnew : ∀ a, (∃ task ∈ new, task.Offers s defs a) ↔ Opens s defs a id)
    (hown : ∀ head, head ∈ own ↔ s.node id = .element head.names head.content ∧ head.id = id) :
    FindsHeads s defs seen (.visit id :: tasks) (own ++ found) where
  sound := by
    intro head hhead
    rcases List.mem_append.1 hhead with hhead | hhead
    . obtain ⟨hn, hheadId⟩ := (hown head).1 hhead
      rw [hheadId]
      exact ⟨hn, .visit id, List.mem_cons_self, id, rfl, .refl⟩
    . obtain ⟨hn, task, htask, a, hoffers, hreach⟩ := h.sound head hhead
      refine ⟨hn, ?_⟩
      rcases List.mem_append.1 htask with htask | htask
      . exact ⟨.visit id, List.mem_cons_self, id, rfl, hreach.tail ((hnew a).1 ⟨task, htask, hoffers⟩)⟩
      . exact ⟨task, List.mem_cons_of_mem _ htask, a, hoffers, hreach⟩
  complete := by
    have through {i y : ExprId} {names : NameClass} {content : ExprId}
        (hfresh : Fresh s defs seen i y) (hn : s.node y = .element names content)
        (hother : Fresh s defs seen' i y → { id := y, names, content : Head } ∈ own ++ found) :
        { id := y, names, content : Head } ∈ own ++ found := by
      rcases hfresh.insert hseen with hfresh | rfl | ⟨a, hopens, hfresh⟩
      . exact hother hfresh
      . exact List.mem_append_left _ ((hown _).2 ⟨hn, rfl⟩)
      . obtain ⟨task, htask, hoffers⟩ := (hnew a).2 hopens
        exact List.mem_append_right _
          (h.complete task (List.mem_append_left _ htask) a y names content hoffers hfresh hn)
    intro task htask i y names content hoffers hfresh hn
    refine through hfresh hn ?_
    intro hfresh'
    rcases List.mem_cons.1 htask with rfl | htask
    . cases hoffers
      exact absurd hid hfresh'.not_seen
    . exact List.mem_append_right _
        (h.complete task (List.mem_append_right _ htask) i y names content hoffers hfresh' hn)

end FindsHeads

/--
What an expression contributes to the search for heads when it is met: its declaration, if it is
one, and what remains to be searched because of it.
-/
structure Opening where
  own : List Head
  tasks : List HeadTask
  weight_le : (tasks.map HeadTask.weight).sum ≤ 3

structure Opening.Of (s : Store) (defs : Definitions) (id : ExprId) (o : Opening) : Prop where
  own : ∀ head, head ∈ o.own ↔ s.node id = .element head.names head.content ∧ head.id = id
  tasks : ∀ a, (∃ task ∈ o.tasks, task.Offers s defs a) ↔ Opens s defs a id
  parts : ∀ task ∈ o.tasks, ∀ a ∈ task.operands, Part s defs a id

namespace Graph

variable {g : Graph}

def opening (defs : Definitions) (id : ExprId) : GraphM Opening := do
  match (← read id).val with
  | .element names content => return ⟨[{ id, names, content }], [], by simp⟩
  | .choice a b | .interleave a b => return ⟨[], [.visit a, .visit b], by simp [HeadTask.weight]⟩
  | .sequence a b => return ⟨[], [.visit a, .after a b], by simp [HeadTask.weight]⟩
  | .oneOrMore a | .mixed a => return ⟨[], [.visit a], by simp [HeadTask.weight]⟩
  | .reference r =>
    let ⟨target, _⟩ ← defs.follow r
    return ⟨[], [.visit target], by simp [HeadTask.weight]⟩
  | .epsilon | .nullSet | .anyString | .typedString _ | .attribute .. => return ⟨[], [], by simp⟩

theorem headsFrom_visit {v w : Visited} (hvisit : v.visit? id = some w) (tasks : List HeadTask) :
    headsFrom defs v (.visit id :: tasks) = (do
      let o ← opening defs id
      return o.own ++ (← headsFrom defs w (o.tasks ++ tasks))) := by
  rw [headsFrom, opening, bind_assoc]
  split
  . next hnone =>
    rw [hvisit] at hnone
    cases hnone
  . next w' hsome =>
    obtain rfl := Option.some.inj (hvisit.symm.trans hsome)
    refine bind_congr fun p => ?_
    obtain ⟨n, below⟩ := p
    cases n <;> simp

theorem headsFrom_visited {v : Visited} (hvisit : v.visit? id = none) (tasks : List HeadTask) :
    headsFrom defs v (.visit id :: tasks) = headsFrom defs v tasks := by
  rw [headsFrom]
  split
  . rfl
  . next hsome =>
    rw [hvisit] at hsome
    cases hsome

theorem opening_returns (hg : g.Sound defs) (hs : s ≤ g.store) (hid : id ∈ s) :
    Returns defs g (opening defs id) (Fault.Admissible (Guarded s defs id))
      fun o _ => o.Of s defs id := by
  refine Returns.read fun n below hn => ?_
  rw [Store.node_of_le hs hid] at hn
  have operand {a : ExprId} (ha : a ∈ n.children)
      (helement : ∀ names content, n ≠ .element names content) : Part s defs a id := by
    rw [← hn] at ha helement
    exact .operand helement ha
  have leaf (hcompound : n.isCompound = false) (hr : ∀ r, n ≠ .reference r) (a : ExprId) :
      (∃ task ∈ ([] : List HeadTask), task.Offers s defs a) ↔ Opens s defs a id := by
    rw [← hn] at hcompound hr
    simp [Opens.not_of_leaf hcompound hr]
  cases n with
  | element names content =>
    refine .pure hg ⟨?_, leaf rfl (by simp), by simp⟩
    rintro ⟨i, names', content'⟩
    simp only [List.mem_singleton, Head.mk.injEq, hn, Node.element.injEq]
    constructor
    . rintro ⟨rfl, rfl, rfl⟩
      exact ⟨⟨rfl, rfl⟩, rfl⟩
    . rintro ⟨⟨rfl, rfl⟩, rfl⟩
      exact ⟨rfl, rfl, rfl⟩
  | choice a b | interleave a b =>
    have ha := operand (a := a) (by simp [Node.children]) (by simp)
    have hb := operand (a := b) (by simp [Node.children]) (by simp)
    refine .pure hg ⟨by simp [hn], ?_, by simp [HeadTask.operands, ha, hb]⟩
    intro c
    rw [Opens.iff_of_isCompound (by rw [hn]; rfl) (by simp [hn]), hn]
    simp [HeadTask.Offers, Node.children]
  | sequence a b =>
    have ha := operand (a := a) (by simp [Node.children]) (by simp)
    have hb := operand (a := b) (by simp [Node.children]) (by simp)
    refine .pure hg ⟨by simp [hn], ?_, by simp [HeadTask.operands, ha, hb]⟩
    intro c
    rw [Opens.iff_of_sequence hn]
    simp [HeadTask.Offers]
  | oneOrMore a | mixed a =>
    have ha := operand (a := a) (by simp [Node.children]) (by simp)
    refine .pure hg ⟨by simp [hn], ?_, by simp [HeadTask.operands, ha]⟩
    intro c
    rw [Opens.iff_of_isCompound (by rw [hn]; rfl) (by simp [hn]), hn]
    simp [HeadTask.Offers, Node.children]
  | reference r =>
    refine Returns.follow ?_ ?_
    . intro hnone hguarded
      have hdefined := hguarded.defined hn
      simp [hnone] at hdefined
    . intro target htarget
      refine .pure hg ⟨by simp [hn], ?_, ?_⟩
      . intro c
        rw [Opens.iff_of_reference hn htarget]
        simp [HeadTask.Offers]
      . simpa [HeadTask.operands] using Part.target hn htarget
  | epsilon | nullSet | anyString | typedString | «attribute» =>
    exact .pure hg ⟨by simp [hn], leaf rfl (by simp), by simp⟩

theorem headsFrom_returns (hwithin : defs.Within s) (v : Visited) (tasks : List HeadTask)
    {g : Graph} (hg : g.Sound defs) (hs : s ≤ g.store) (hbound : v.bound = s.size)
    (htasks : ∀ task ∈ tasks, ∀ a ∈ task.operands, a ∈ s) :
    Returns defs g (headsFrom defs v tasks)
      (Fault.Admissible (∀ task ∈ tasks, ∀ a ∈ task.operands, Guarded s defs a)) fun found _ =>
      FindsHeads s defs (· ∈ v.seen) tasks found := by
  match tasks with
  | [] =>
    unfold headsFrom
    exact .pure hg ⟨by simp, by simp⟩
  | .after first second :: tasks =>
    rw [headsFrom]
    have hfirst := htasks _ List.mem_cons_self first List.mem_cons_self
    have hsecond := htasks _ List.mem_cons_self second (List.mem_cons_of_mem _ List.mem_cons_self)
    have hrest := fun task (htask : task ∈ tasks) => htasks task (List.mem_cons_of_mem _ htask)
    have hnullable := isNullable_yields hg (Store.mem_of_le hs hfirst)
    refine Returns.bind (hnullable.returns.admissible ?_) ?_
    . intro hguarded
      exact (hguarded _ List.mem_cons_self first List.mem_cons_self).of_le hs le_rfl hwithin hfirst
    . intro b h hgh hh hb
      have hb := hb h.store defs le_rfl le_rfl
      rw [Store.language_of_le (le_trans hs (store_le hgh)) hwithin hfirst] at hb
      split
      . next hempty =>
        have hfound := headsFrom_returns hwithin v (.visit second :: tasks) hh
          (le_trans hs (store_le hgh)) hbound ?_
        . refine (hfound.admissible ?_).mono (fun _ hf => hf) ?_
          . intro hguarded task htask a ha
            rcases List.mem_cons.1 htask with rfl | htask
            . exact hguarded _ List.mem_cons_self a (List.mem_cons_of_mem _ ha)
            . exact hguarded task (List.mem_cons_of_mem _ htask) a ha
          . intro found _ _ _ hfound
            refine hfound.congr ?_
            intro id
            exact and_iff_right (hb.1 hempty)
        . intro task htask a ha
          rcases List.mem_cons.1 htask with rfl | htask
          . rw [List.mem_singleton.1 ha]
            exact hsecond
          . exact hrest task htask a ha
      . next hempty =>
        have hfound := headsFrom_returns hwithin v tasks hh (le_trans hs (store_le hgh)) hbound hrest
        refine (hfound.admissible ?_).mono (fun _ hf => hf) ?_
        . intro hguarded task htask
          exact hguarded task (List.mem_cons_of_mem _ htask)
        . intro found _ _ _ hfound
          refine hfound.skip ?_
          intro id y hoffers
          exact absurd (hb.2 hoffers.1) hempty
  | .visit id :: tasks =>
    have hid := htasks _ List.mem_cons_self id List.mem_cons_self
    have hrest := fun task (htask : task ∈ tasks) => htasks task (List.mem_cons_of_mem _ htask)
    cases hvisit : v.visit? id with
    | none =>
      rw [headsFrom_visited hvisit]
      have hfound := headsFrom_returns hwithin v tasks hg hs hbound hrest
      refine (hfound.admissible ?_).mono (fun _ hf => hf) ?_
      . intro hguarded task htask
        exact hguarded task (List.mem_cons_of_mem _ htask)
      . intro found _ _ _ hfound
        refine hfound.skip ?_
        rintro _ y rfl hfresh
        exact hfresh.not_seen (Visited.mem_seen_of_visit?_eq_none hvisit (by rwa [hbound]))
    | some w =>
      rw [headsFrom_visit hvisit]
      obtain ⟨hwbound, hwseen⟩ := Visited.seen_of_visit? hvisit
      -- the expression is met only once, which makes up for the tasks that take its place
      have hlt := Visited.remaining_lt_of_visit? hvisit
      refine Returns.bind ((opening_returns hg hs hid).admissible ?_) ?_
      . intro hguarded
        exact hguarded _ List.mem_cons_self id List.mem_cons_self
      . intro o h hgh hh ho
        have hweight := o.weight_le
        have hfound := headsFrom_returns hwithin w (o.tasks ++ tasks) hh
          (le_trans hs (store_le hgh)) (hwbound.trans hbound) ?_
        . refine (hfound.admissible ?_).map ?_
          . intro hguarded task htask a ha
            rcases List.mem_append.1 htask with htask | htask
            . exact (hguarded _ List.mem_cons_self id List.mem_cons_self).part
                (ho.parts task htask a ha)
            . exact hguarded task (List.mem_cons_of_mem _ htask) a ha
          . intro found _ _ _ hfound
            refine hfound.expand ?_ ((hwseen id).2 (Or.inr rfl)) ho.tasks ho.own
            intro z hz
            exact (hwseen z).1 hz
        . intro task htask a ha
          rcases List.mem_append.1 htask with htask | htask
          . exact (ho.parts task htask a ha).mem hwithin hid
          . exact hrest task htask a ha
termination_by 3 * v.remaining + (tasks.map HeadTask.weight).sum
decreasing_by
  all_goals
    simp only [List.map_cons, List.map_append, List.sum_cons, List.sum_append, HeadTask.weight]
    omega

/--
The search for heads finds exactly the declarations that can come next.
-/
theorem heads_returns (hg : g.Sound defs) (hid : id ∈ g.store) :
    Returns defs g (heads defs id) (Fault.Admissible (Guarded g.store defs id)) fun found _ =>
      ∀ head, head ∈ found ↔ g.store.node head.id = .element head.names head.content ∧
        ReflTransGen (Opens g.store defs) head.id id := by
  have hfound : Returns defs g (headsFrom defs { bound := g.store.size } [.visit id])
      (Fault.Admissible (Guarded g.store defs id)) fun found _ =>
        FindsHeads g.store defs (· ∈ (∅ : Std.TreeSet ExprId)) [.visit id] found := by
    refine (headsFrom_returns hg.within _ _ hg le_rfl rfl ?_).admissible ?_
    . simpa [HeadTask.operands] using hid
    . intro hguarded
      simpa [HeadTask.operands] using hguarded
  have hheads : Returns defs g (heads defs id) (Fault.Admissible (Guarded g.store defs id))
      fun found _ =>
        FindsHeads g.store defs (· ∈ (∅ : Std.TreeSet ExprId)) [.visit id] found :=
    .get rfl hfound
  refine hheads.mono (fun _ hf => hf) ?_
  intro found _ _ _ hfinds head
  constructor
  . intro hhead
    obtain ⟨hn, task, htask, i, hoffers, hreach⟩ := hfinds.sound head hhead
    rw [List.mem_singleton] at htask
    subst htask
    cases hoffers
    exact ⟨hn, hreach⟩
  . rintro ⟨hn, hreach⟩
    exact hfinds.complete _ List.mem_cons_self id head.id _ _ rfl
      (.of_reflTransGen hreach (by simp)) hn

theorem candidates_returns {name : Name} (hg : g.Sound defs) (hid : id ∈ g.store) :
    Returns defs g (candidates defs id name) (Fault.Admissible (Guarded g.store defs id))
      fun found _ => ∀ head, head ∈ found ↔
        g.store.node head.id = .element head.names head.content ∧
          ReflTransGen (Opens g.store defs) head.id id ∧ head.names.contains name := by
  refine (heads_returns hg hid).map ?_
  intro found _ _ _ hfound head
  rw [List.mem_filter, hfound, and_assoc]

theorem describeHeads_returns (hg : g.Sound defs) (hid : id ∈ g.store) :
    Returns defs g (describeHeads defs id) (Fault.Admissible (Guarded g.store defs id))
      fun _ _ => True := by
  refine Returns.bind (heads_returns hg hid) ?_
  intro found h _ hh _
  dsimp only
  split
  . exact .pure hh trivial
  . exact .pure hh trivial

end Graph

end TreeGrammar
