import TreeGrammar.Proofs.Distribution
import TreeGrammar.Proofs.Meaning

/-!
This module contains calculations with the expressions of a session. What a calculation comes to does
not depend on when its steps are done and on what else is asked in between, and two calculations of the
same form come to the same expression. That is how derivatives distribute over the operations that build
expressions.
-/

namespace TreeGrammar

open Relation StoreState

inductive Combination where
  | choice
  | sequence
  | interleave

namespace Combination

def work : Combination → ExprId → ExprId → GraphM ExprId
  | choice => Graph.choice
  | sequence => Graph.sequence
  | interleave => Graph.interleave

noncomputable def plan : Combination → Form → Form → Plan Form
  | choice => Plan.choice
  | sequence => Plan.sequence
  | interleave => Plan.interleave

variable {op : Combination} {defs : Definitions} {g : Graph} {i j : ExprId} {a b : Form}

theorem work_uniform (op : Combination) (i j : ExprId) : IsUniform (op.work i j) := by
  cases op with
  | choice => exact Graph.choice_uniform i j
  | sequence => exact Graph.sequence_uniform i j
  | interleave => exact Graph.interleave_uniform i j

theorem work_carries (hg : g.Sound defs) (hi : g.store.Shows defs i a)
    (hj : g.store.Shows defs j b) :
    Graph.Carries defs g (op.work i j) (op.plan a b) (Store.Shows · defs) := by
  cases op with
  | choice => exact Graph.choice_carries hg hi hj
  | sequence => exact Graph.sequence_carries hg hi hj
  | interleave => exact Graph.interleave_carries hg hi hj

end Combination

inductive Calculation where
  | given (id : ExprId)
  | combine (op : Combination) (a b : Calculation)
  | derivative (token : Token) (a : Calculation)

namespace Calculation

def sources : Calculation → List ExprId
  | given id => [id]
  | combine _ a b => a.sources ++ b.sources
  | derivative _ a => a.sources

def calculate : Calculation → SessionM ExprId
  | given id => return id
  | combine op a b => do
    let i ← a.calculate
    let j ← b.calculate
    Session.onGraph fun _ => op.work i j
  | derivative token a => do
    let i ← a.calculate
    let d ← Session.onGraph fun defs => Graph.derivative defs token i
    return d.rest

theorem calculate_uniform (e : Calculation) : IsUniform e.calculate := by
  induction e with
  | given id => exact .pure id
  | combine op a b iha ihb =>
    exact .bind iha fun i => .bind ihb fun j => Session.onGraph_uniform fun _ => op.work_uniform i j
  | derivative token a ih =>
    refine .bind ih fun i => .bind ?_ fun d => .pure d.rest
    exact Session.onGraph_uniform fun _ => Graph.derivative_uniform token i

noncomputable def form (f : ExprId → Form) : Calculation → Form
  | given id => f id
  | combine op a b => (op.plan (a.form f) (b.form f)).value
  | derivative token a => ((a.form f).derivative token).value

end Calculation

namespace Session

/--
An operation is carried out on expressions of the session.
-/
inductive Executes (s : Session) : Session → Prop where
  | combine {op a b id t} : s.Has a → s.Has b →
    onGraph (fun _ => Combination.work op a b) s = .ok (id, t) → s.Executes t
  | derivative {token a d t} : s.Has a →
    onGraph (fun defs => Graph.derivative defs token a) s = .ok (d, t) → s.Executes t
  | isNullable {a b t} : s.Has a → onGraph (Graph.isNullable · a) s = .ok (b, t) → s.Executes t

/--
One session becomes the other by whatever can be asked of it.
-/
def Proceeds : Session → Session → Prop :=
  ReflTransGen fun s t => s.Develops t ∨ s.Executes t

/--
From `s` on, the steps of the calculation have been done, in any order in which that is possible and
with anything else in between, and `id` is what it comes to.
-/
inductive Calculates (s : Session) : Calculation → ExprId → Session → Prop where
  | given {id t} : s.Proceeds t → s.Calculates (.given id) id t
  | combine {op a b i j id t u v} : s.Calculates a i t → s.Calculates b j t →
    onGraph (fun _ => op.work i j) t = .ok (id, u) → u.Proceeds v →
    s.Calculates (.combine op a b) id v
  | derivative {token a i d t u v} : s.Calculates a i t →
    onGraph (fun defs => Graph.derivative defs token i) t = .ok (d, u) → u.Proceeds v →
    s.Calculates (.derivative token a) d.rest v

/--
Both calculations can be done at any time, unless the limit is exceeded, and they come to the same
expression.
-/
structure Agrees (s : Session) (e e' : Calculation) : Prop where
  left : ∀ t, s.Proceeds t →
    t.Completes e.calculate fun id u => t.Proceeds u ∧ s.Calculates e id u
  right : ∀ t, s.Proceeds t →
    t.Completes e'.calculate fun id u => t.Proceeds u ∧ s.Calculates e' id u
  eq : ∀ t x y, s.Calculates e x t → s.Calculates e' y t → x = y

variable {s t u : Session} {id a b : ExprId} {e e' : Calculation} {f : ExprId → Form}

theorem Executes.le_and_sound (h : s.Executes t) (hs : s.Sound) : s.schema ≤ t.schema ∧ t.Sound := by
  have of_returns {α : Type} {work : Definitions → GraphM α} {guarded a Q}
      (hwork : Graph.Returns s.schema.definitions s.schema.graph (work s.schema.definitions)
        (Fault.Admissible guarded) Q) (hrun : onGraph work s = .ok (a, t)) :
      s.schema ≤ t.schema ∧ t.Sound := by
    have hreturns : Returns True s (onGraph work) _ _ := onGraph_returns hs hwork
    obtain ⟨hle, ht, _⟩ := hreturns.ok a t hrun
    exact ⟨hle, ht⟩
  cases h with
  | @combine op _ _ _ _ ha hb hrun =>
    cases op with
    | choice => exact of_returns (Graph.choice_yields hs.graph ha hb).returns hrun
    | sequence => exact of_returns (Graph.sequence_yields hs.graph ha hb).returns hrun
    | interleave => exact of_returns (Graph.interleave_yields hs.graph ha hb).returns hrun
  | derivative ha hrun => exact of_returns (Graph.derivative_returns hs.graph ha) hrun
  | isNullable ha hrun => exact of_returns (Graph.isNullable_yields hs.graph ha).returns hrun

theorem Proceeds.le_and_sound (h : s.Proceeds t) (hs : s.Sound) : s.schema ≤ t.schema ∧ t.Sound := by
  induction h with
  | refl => exact ⟨le_rfl, hs⟩
  | tail _ hstep ih =>
    obtain ⟨hle, ht⟩ := ih
    rcases hstep with hstep | hstep
    . exact (hstep.le_and_sound ht).imp_left (le_trans hle)
    . exact (hstep.le_and_sound ht).imp_left (le_trans hle)

theorem Completes.of_carries {α β : Type} {work : Definitions → GraphM α} {plan : Plan β}
    {R : Store → α → β → Prop} (hs : s.Sound)
    (hwork : Graph.Carries s.schema.definitions s.schema.graph (work s.schema.definitions) plan R)
    (huniform : ∀ defs, IsUniform (work defs)) :
    s.Completes (onGraph work) fun a t => s.schema ≤ t.schema ∧ t.Sound ∧
      t.schema.definitions = s.schema.definitions ∧ R t.schema.graph.store a plan.value := by
  have hreturns : Graph.Returns s.schema.definitions s.schema.graph (work s.schema.definitions)
      (Fault.Admissible True) fun a h => R h.store a plan.value := by
    refine Graph.Returns.mono hwork ?_ fun _ _ _ _ h => h.1
    rintro f (⟨⟨limit, rfl⟩, -⟩ | hf)
    . trivial
    . exact hf.elim
  exact .of_returns hs hreturns trivial huniform fun a t hle ht hdefs ha => ⟨hle, ht, hdefs, ha⟩

theorem combine_completes {op : Combination} {x y : Form} (hs : s.Sound) (ha : s.Shows a x)
    (hb : s.Shows b y) : s.Completes (onGraph fun _ => op.work a b) fun id t =>
      s.schema ≤ t.schema ∧ t.Sound ∧ t.Shows id (op.plan x y).value := by
  have hcompletes : s.Completes (onGraph fun _ => op.work a b) _ :=
    .of_carries hs (Combination.work_carries hs.graph ha hb) fun _ => op.work_uniform a b
  refine hcompletes.imp fun id t _ hid => ?_
  obtain ⟨hle, ht, hdefs, hid⟩ := hid
  exact ⟨hle, ht, by rwa [Shows, hdefs]⟩

theorem derivative_completes {token : Token} {x : Form} (hs : s.Sound) (ha : s.Shows a x) :
    s.Completes (onGraph fun defs => Graph.derivative defs token a) fun d t =>
      s.schema ≤ t.schema ∧ t.Sound ∧ t.Shows d.rest (x.derivative token).value ∧
        x.Marks token none d.matched := by
  have hcompletes : s.Completes (onGraph fun defs => Graph.derivative defs token a) _ :=
    .of_carries hs (Graph.derivative_carries hs.graph ha) fun _ => Graph.derivative_uniform token a
  refine hcompletes.imp fun d t _ hd => ?_
  obtain ⟨hle, ht, hdefs, hrest, hmarks⟩ := hd
  exact ⟨hle, ht, by rwa [Shows, hdefs], hmarks⟩

theorem Calculates.shows (h : s.Calculates e id t) (hs : s.Sound)
    (hf : ∀ a ∈ e.sources, s.Shows a (f a)) :
    s.schema ≤ t.schema ∧ t.Sound ∧ t.Shows id (e.form f) := by
  induction h with
  | given hst =>
    obtain ⟨hle, ht⟩ := hst.le_and_sound hs
    exact ⟨hle, ht, (hf _ List.mem_cons_self).of_le hle⟩
  | combine _ _ hrun huv iha ihb =>
    obtain ⟨hst, ht, ha⟩ := iha fun a ha => hf a (List.mem_append_left _ ha)
    obtain ⟨_, _, hb⟩ := ihb fun b hb => hf b (List.mem_append_right _ hb)
    obtain ⟨htu, hu, hid⟩ := (combine_completes ht ha hb).ok _ _ hrun
    obtain ⟨huv, hv⟩ := huv.le_and_sound hu
    exact ⟨le_trans hst (le_trans htu huv), hv, hid.of_le huv⟩
  | derivative _ hrun huv ih =>
    obtain ⟨hst, ht, ha⟩ := ih hf
    obtain ⟨htu, hu, hid, _⟩ := (derivative_completes ht ha).ok _ _ hrun
    obtain ⟨huv, hv⟩ := huv.le_and_sound hu
    exact ⟨le_trans hst (le_trans htu huv), hv, hid.of_le huv⟩

theorem Calculates.later (h : s.Calculates e id t) (htu : t.Proceeds u) : s.Calculates e id u := by
  cases h with
  | given hst => exact .given (hst.trans htu)
  | combine ha hb hrun huv => exact .combine ha hb hrun (huv.trans htu)
  | derivative ha hrun huv => exact .derivative ha hrun (huv.trans htu)

theorem calculate_completes (hs : s.Sound) (hf : ∀ a ∈ e.sources, s.Shows a (f a))
    (hst : s.Proceeds t) :
    t.Completes e.calculate fun id u => t.Proceeds u ∧ s.Calculates e id u := by
  induction e generalizing t with
  | given id => exact .pure ⟨.refl, .given hst⟩
  | combine op a b iha ihb =>
    have hfa := fun x hx => hf x (List.mem_append_left _ hx)
    have hfb := fun x hx => hf x (List.mem_append_right _ hx)
    have hwork (i j : ExprId) : IsUniform (onGraph fun _ => op.work i j) :=
      onGraph_uniform fun _ => op.work_uniform i j
    refine (iha hfa hst).bind (.bind a.calculate_uniform fun i => .bind b.calculate_uniform (hwork i))
      fun i u hi => ?_
    obtain ⟨htu, hi⟩ := hi
    refine (ihb hfb (hst.trans htu)).bind (.bind b.calculate_uniform (hwork i)) fun j v hj => ?_
    obtain ⟨huv, hj⟩ := hj
    have hi := hi.later huv
    obtain ⟨_, hv, hiShows⟩ := hi.shows hs hfa
    obtain ⟨_, _, hjShows⟩ := hj.shows hs hfb
    refine (combine_completes hv hiShows hjShows).imp fun id w hrun _ => ⟨?_, ?_⟩
    . exact (htu.trans huv).tail (Or.inr (.combine hiShows.mem hjShows.mem hrun))
    . exact .combine hi hj hrun .refl
  | derivative token a ih =>
    have hwork (i : ExprId) : IsUniform (onGraph (fun defs => Graph.derivative defs token i) >>=
        fun d => pure d.rest) :=
      .bind (onGraph_uniform fun _ => Graph.derivative_uniform token i) fun d => .pure d.rest
    refine (ih hf hst).bind (.bind a.calculate_uniform hwork) fun i u hi => ?_
    obtain ⟨htu, hi⟩ := hi
    obtain ⟨_, hu, hiShows⟩ := hi.shows hs hf
    have hderivative : u.Completes (onGraph fun defs => Graph.derivative defs token i) fun d v =>
        t.Proceeds v ∧ s.Calculates (.derivative token a) d.rest v := by
      refine (derivative_completes hu hiShows).imp fun d v hrun _ => ⟨?_, ?_⟩
      . exact htu.tail (Or.inr (.derivative hiShows.mem hrun))
      . exact .derivative hi hrun .refl
    exact hderivative.bind (hwork i) fun d v hd => .pure hd

theorem Agrees.of_form (hs : s.Sound) (hf : ∀ a ∈ e.sources ++ e'.sources, s.Shows a (f a))
    (hform : e.form f = e'.form f) : s.Agrees e e' := by
  have hfe := fun x hx => hf x (List.mem_append_left _ hx)
  have hfe' := fun x hx => hf x (List.mem_append_right _ hx)
  refine ⟨fun _ => calculate_completes hs hfe, fun _ => calculate_completes hs hfe', ?_⟩
  intro t x y hx hy
  obtain ⟨_, _, hx⟩ := hx.shows hs hfe
  obtain ⟨_, _, hy⟩ := hy.shows hs hfe'
  rw [← hform] at hy
  exact Store.Shows.injective hx hy

/--
Derivatives distribute over choices, sequences and interleavings of checked expressions: both sides
come to the same expression.
-/
theorem derivative_distributes (hs : s.Arises) (ha : s.Has a) (hb : s.Has b)
    (haCheck : s.schema.check a = .ok ()) (hbCheck : s.schema.check b = .ok ()) (token : Token) :
    let x := Calculation.given a
    let y := Calculation.given b
    s.Agrees (.derivative token (.combine .choice x y))
        (.combine .choice (.derivative token x) (.derivative token y)) ∧
      (∃ nullable,
        (∀ t, s.Proceeds t → ∃ u, onGraph (Graph.isNullable · a) t = .ok (nullable, u)) ∧
        s.Agrees (.derivative token (.combine .sequence x y))
          (if nullable then
            .combine .choice (.combine .sequence (.derivative token x) y) (.derivative token y)
          else .combine .sequence (.derivative token x) y)) ∧
      s.Agrees (.derivative token (.combine .interleave x y))
        (.combine .choice (.combine .interleave (.derivative token x) y)
          (.combine .interleave x (.derivative token y))) := by
  have hs := hs.sound
  have hwithin := hs.graph.within
  let f := s.schema.graph.store.form s.schema.definitions
  have haVetted : Vetted s.schema.graph.store s.schema.definitions a :=
    ⟨ha, Schema.check_ok haCheck⟩
  have hbVetted : Vetted s.schema.graph.store s.schema.definitions b :=
    ⟨hb, Schema.check_ok hbCheck⟩
  have haShows : s.Shows a (f a) := haVetted.shows hwithin
  have hbShows : s.Shows b (f b) := hbVetted.shows hwithin
  have haProper := haVetted.proper hwithin hs.graph.reduced
  have hbProper := hbVetted.proper hwithin hs.graph.reduced
  have agrees {e e' : Calculation} (he : ∀ c ∈ e.sources ++ e'.sources, c = a ∨ c = b)
      (hform : e.form f = e'.form f) : s.Agrees e e' := by
    refine .of_form hs (fun c hc => ?_) hform
    rcases he c hc with rfl | rfl
    . exact haShows
    . exact hbShows
  refine ⟨?_, ⟨(f a).nullable, ?_, ?_⟩, ?_⟩
  . exact agrees (by simp [Calculation.sources]) (Form.derivative_choice haProper hbProper token)
  . intro t hst
    obtain ⟨hle, ht⟩ := hst.le_and_sound hs
    exact isNullable_of_shows ht (haShows.of_le hle)
  . have hsequence := Form.derivative_sequence (f a) (f b) token
    split
    . next hnullable =>
      rw [if_pos hnullable] at hsequence
      exact agrees (by simp [Calculation.sources]) hsequence
    . next hnullable =>
      rw [if_neg hnullable] at hsequence
      exact agrees (by simp [Calculation.sources]) hsequence
  . exact agrees (by simp [Calculation.sources]) (Form.derivative_interleave (f a) (f b) token)

/--
Both expressions are choices that have an alternative in common, of which a reference is left.
-/
theorem derivative_distributes_overlap :
    ∃ (s : Session) (a b : ExprId) (token : Token) (x : ExprId) (t : Session), s.Arises ∧
      s.Has a ∧ s.Has b ∧ s.schema.check a = .ok () ∧ s.schema.check b = .ok () ∧ a ≠ b ∧
      (∃ c ∈ s.schema.graph.store.alternatives a, c ∈ s.schema.graph.store.alternatives b) ∧
      s.Calculates (.derivative token (.combine .choice (.given a) (.given b))) x t ∧
      s.Calculates (.combine .choice (.derivative token (.given a)) (.derivative token (.given b)))
        x t ∧ x ≠ .nullSet := by
  let left (token : Token) (a b : ExprId) : Calculation :=
    .derivative token (.combine .choice (.given a) (.given b))
  let right (token : Token) (a b : ExprId) : Calculation :=
    .combine .choice (.derivative token (.given a)) (.derivative token (.given b))
  obtain ⟨s, hs, hp⟩ := Reachable.of_leadsTo (fun _ => .string)
    [.bind "r" (.reference "r"), .bind "x" (.element .any .epsilon),
      .define (.variable "r") (.optional (.variable "x")),
      .bind "c" (.sequence (.variable "x") (.variable "r")),
      .bind "a" (.choice (.variable "c") .anyString),
      .bind "b" (.choice (.variable "c") (.mixed (.variable "x")))]
    (fun s => s.bindings["a"]?.any fun a => s.bindings["b"]?.any fun b =>
      s.bindings["x"]?.any fun x =>
        s.schema.check a = .ok () && s.schema.check b = .ok () && a ≠ b &&
          (s.schema.graph.store.alternatives a).any
            (· ∈ s.schema.graph.store.alternatives b) &&
          ((left (.element [x]) a b).calculate s).toOption.any fun p =>
            ((right (.element [x]) a b).calculate p.2).toOption.any fun _ => p.1 ≠ .nullSet)
    (by simp [Command.isLawful]) (by decide +kernel)
  obtain ⟨a, ha, hp⟩ := (Option.any_eq_true _ _).1 hp
  obtain ⟨b, hb, hp⟩ := (Option.any_eq_true _ _).1 hp
  obtain ⟨x, -, hp⟩ := (Option.any_eq_true _ _).1 hp
  simp only [Bool.and_eq_true, decide_eq_true_eq, List.any_eq_true] at hp
  obtain ⟨⟨⟨⟨haCheck, hbCheck⟩, hab⟩, hshared⟩, hp⟩ := hp
  have ha := hs.sound.bindings _ a ha
  have hb := hs.sound.bindings _ b hb
  obtain ⟨c, hca, hcb⟩ := hshared
  have hagrees := (derivative_distributes hs.arises ha hb haCheck hbCheck (.element [x])).1
  obtain ⟨⟨l, t⟩, hleft, hp⟩ := exists_of_any_toOption hp
  obtain ⟨⟨r, u⟩, hright, hp⟩ := exists_of_any_toOption hp
  rw [decide_eq_true_eq] at hp
  obtain ⟨hst, hl⟩ := (hagrees.left s .refl).ok l t hleft
  obtain ⟨htu, hr⟩ := (hagrees.right t hst).ok r u hright
  have hl := hl.later htu
  obtain rfl := hagrees.eq u l r hl hr
  exact ⟨s, a, b, .element [x], l, u, hs.arises, ha, hb, haCheck, hbCheck, hab, ⟨c, hca, hcb⟩,
    hl, hr, hp⟩

end Session

end TreeGrammar
