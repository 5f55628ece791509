import TreeGrammar.Proofs.Shown
import TreeGrammar.Proofs.Steps

/-!
This module contains what it means that work on a graph carries out a plan: it comes to the same
result, puts exactly the forms of the plan into the graph, and fails only if there is no room for one
of them.
-/

namespace TreeGrammar

namespace Graph

/--
The graph has no room for the forms in `built`: with some of them in it, it is full, and another one
is missing.
-/
def Overflows (defs : Definitions) (g : Graph) (built : List Form) : Prop :=
  ∃ t : Store, g.store ≤ t ∧ (∀ id ∈ t, id ∈ g.store ∨ ∃ e ∈ built, t.Shows defs id e) ∧
    g.settings.limit < t.size ∧ ∃ e ∈ built, ¬ t.Knows defs e

variable {α β γ δ : Type} {defs : Definitions} {g h : Graph} {built built' : List Form}
variable {id : ExprId} {e : Form}

namespace Overflows

theorem mono (hg : g.Overflows defs built) (hbuilt : built ⊆ built') : g.Overflows defs built' := by
  obtain ⟨t, hgt, hnew, hfull, e, he, hmissing⟩ := hg
  refine ⟨t, hgt, ?_, hfull, e, hbuilt he, hmissing⟩
  intro id hid
  exact (hnew id hid).imp_right fun ⟨e, he, hid⟩ => ⟨e, hbuilt he, hid⟩

theorem after (hh : h.Overflows defs built') (hgh : g ≤ h)
    (hgrows : Store.GrowsBy defs g.store h.store built) : g.Overflows defs (built ++ built') := by
  obtain ⟨t, hht, hnew, hfull, e, he, hmissing⟩ := hh
  rw [limit_eq hgh] at hfull
  refine ⟨t, le_trans (store_le hgh) hht, ?_, hfull, e, List.mem_append_right _ he, hmissing⟩
  intro id hid
  rcases hnew id hid with hid | ⟨e, he, hid⟩
  . rcases hgrows.new id hid with hid | ⟨e, he, hid⟩
    . exact Or.inl hid
    . exact Or.inr ⟨e, List.mem_append_left _ he, hid.of_le hht le_rfl⟩
  . exact Or.inr ⟨e, List.mem_append_right _ he, hid⟩

end Overflows

/--
The work carries out the plan, and its result is related to that of the plan by `R`. Apart from a
lack of room, it can end only with a fault that `E` allows for the result of the plan.
-/
def Carries (defs : Definitions) (g : Graph) (work : GraphM α) (plan : Plan β)
    (R : Store → α → β → Prop) (E : Fault → β → Prop := fun _ _ => False) : Prop :=
  Returns defs g work
    (fun f => (∃ limit, f = .limitExceeded limit) ∧ g.Overflows defs plan.built ∨ E f plan.value)
    fun a h => R h.store a plan.value ∧ Store.GrowsBy defs g.store h.store plan.built

namespace Carries

variable {work : GraphM α} {plan : Plan β} {R R' : Store → α → β → Prop} {E : Fault → β → Prop}
variable {S : Store → γ → δ → Prop} {E' : Fault → δ → Prop}

theorem known {a : α} (hg : g.Sound defs) (hknown : ∀ e ∈ plan.built, g.store.Knows defs e)
    (ha : R g.store a plan.value) : Carries defs g (Pure.pure a) plan R E :=
  Returns.pure hg ⟨ha, .of_knows hknown⟩

theorem pure {a : α} {b : β} (hg : g.Sound defs) (hab : R g.store a b) :
    Carries defs g (Pure.pure a) (Pure.pure b : Plan β) R E :=
  .known hg (by simp) hab

theorem bind_of {next : α → GraphM γ} {next' : β → Plan δ} (hwork : Carries defs g work plan R E)
    (hE : ∀ f, E f plan.value → E' f (next' plan.value).value)
    (hnext : ∀ a h, g ≤ h → h.Sound defs → R h.store a plan.value →
      Carries defs h (next a) (next' plan.value) S E') :
    Carries defs g (work >>= next) (plan >>= next') S E' := by
  refine Returns.bind (Returns.mono hwork ?_ fun _ _ _ _ ha => ha) ?_
  . rintro f (⟨hf, hfull⟩ | hf)
    . exact Or.inl ⟨hf, hfull.mono (List.subset_append_left _ _)⟩
    . exact Or.inr (hE f hf)
  . intro a h hgh hh ⟨ha, hgrows⟩
    refine Returns.mono (hnext a h hgh hh ha) ?_ ?_
    . rintro f (⟨hf, hfull⟩ | hf)
      . exact Or.inl ⟨hf, hfull.after hgh hgrows⟩
      . exact Or.inr hf
    . intro c k hhk _ ⟨hc, hgrows'⟩
      exact ⟨hc, hgrows.trans hgrows' (store_le hhk)⟩

theorem bind {next : α → GraphM γ} {next' : β → Plan δ} (hwork : Carries defs g work plan R)
    (hnext : ∀ a h, g ≤ h → h.Sound defs → R h.store a plan.value →
      Carries defs h (next a) (next' plan.value) S E') :
    Carries defs g (work >>= next) (plan >>= next') S E' :=
  hwork.bind_of (fun _ hf => hf.elim) hnext

theorem get {next : Graph → GraphM α} (hforgetful : next g.forgetful = next g)
    (hnext : Carries defs g (next g) plan R E) :
    Carries defs g (MonadState.get >>= next) plan R E :=
  Returns.get hforgetful hnext

theorem mono (hwork : Carries defs g work plan R E)
    (hR : ∀ a h, g ≤ h → h.Sound defs → R h.store a plan.value → R' h.store a plan.value) :
    Carries defs g work plan R' E :=
  Returns.mono hwork (fun _ hf => hf) fun a h hgh hh ha => ⟨hR a h hgh hh ha.1, ha.2⟩

theorem also {F : Fault → Prop} {P : α → Store → Prop} (hwork : Carries defs g work plan R E)
    (hreturns : Returns defs g work F fun a h => P a h.store) :
    Carries defs g work plan (fun s a b => R s a b ∧ P a s) E :=
  (Returns.and hwork hreturns).mono (fun _ hf => hf) fun _ _ _ _ ha => ⟨⟨ha.1.1, ha.2⟩, ha.1.2⟩

theorem knows (hwork : Carries defs g work plan R E) :
    Carries defs g work plan (fun s a b => R s a b ∧ ∀ e ∈ plan.built, s.Knows defs e) E :=
  Returns.mono hwork (fun _ hf => hf) fun _ _ _ _ ha => ⟨⟨ha.1, ha.2.knows⟩, ha.2⟩

theorem read {next : { n : Node // n.Below id } → GraphM α}
    (hnext : ∀ n (below : n.Below id), g.store.node id = n →
      Carries defs g (next ⟨n, below⟩) plan R E) :
    Carries defs g (Graph.read id >>= next) plan R E :=
  Returns.read hnext

theorem follow {r : RefId} {target : ExprId}
    {next : { a : ExprId // defs.target? r = some a } → GraphM α}
    (htarget : defs.target? r = some target)
    (hnext : Carries defs g (next ⟨target, htarget⟩) plan R E) :
    Carries defs g (liftM (defs.follow r) >>= next) plan R E := by
  refine Returns.follow (fun hnone => ?_) fun a ha => ?_
  . simp [htarget] at hnone
  . obtain rfl : target = a := Option.some.inj (htarget.symm.trans ha)
    exact hnext

theorem ask {next : α → GraphM γ} {plan' : Plan δ} {b : β}
    (hwork : Carries defs g work (Pure.pure b : Plan β) R)
    (hnext : ∀ a h, g ≤ h → h.Sound defs → R h.store a b → Carries defs h (next a) plan' S E') :
    Carries defs g (work >>= next) plan' S E' := by
  rw [← pure_bind b fun _ => plan']
  exact hwork.bind hnext

theorem wrap {f : α → γ} {S : Store → γ → β → Prop} (hwork : Carries defs g work plan R E)
    (hS : ∀ a h, g ≤ h → h.Sound defs → R h.store a plan.value → S h.store (f a) plan.value) :
    Carries defs g (work >>= fun a => Pure.pure (f a)) plan S E := by
  rw [← bind_pure plan]
  refine hwork.bind_of (fun _ hf => hf) ?_
  intro a h hgh hh ha
  exact .pure hh (hS a h hgh hh ha)

theorem ite {c c' : Prop} [Decidable c] [Decidable c'] {other : GraphM α} {other' : Plan β}
    (hc : c ↔ c') (htrue : c' → Carries defs g work plan R E)
    (hfalse : ¬ c' → Carries defs g other other' R E) :
    Carries defs g (if c then work else other) (if c' then plan else other') R E := by
  by_cases h : c'
  . rw [if_pos h, if_pos (hc.2 h)]
    exact htrue h
  . rw [if_neg h, if_neg (mt hc.1 h)]
    exact hfalse h

theorem exists_of_built_eq_nil (hwork : Carries defs g work plan R) (hbuilt : plan.built = []) :
    ∃ a h, work g = .ok (a, h) ∧ g ≤ h ∧ h.Sound defs ∧ R h.store a plan.value ∧
      h.store.size = g.store.size := by
  cases hrun : work g with
  | ok p =>
    obtain ⟨a, h⟩ := p
    obtain ⟨hgh, hh, ha, hgrows⟩ := hwork.ok a h hrun
    rw [hbuilt] at hgrows
    exact ⟨a, h, rfl, hgh, hh, ha, hgrows.size_eq (store_le hgh)⟩
  | error f =>
    obtain ⟨-, _, -, -, -, e, he, -⟩ | hf := hwork.error f hrun
    . rw [hbuilt] at he
      cases he
    . exact hf.elim

theorem exists_ok {a : α}
    (hwork : Carries defs g work (Pure.pure a : Plan α) fun _ found a => found = a) :
    ∃ h, work g = .ok (a, h) := by
  obtain ⟨_, h, hrun, _, _, rfl, _⟩ := hwork.exists_of_built_eq_nil rfl
  exact ⟨h, hrun⟩

theorem of_returns {F : Fault → Prop} {Q : α → Graph → Prop} {b : β}
    (hwork : Returns defs g work F Q) (herror : ∀ f, work g ≠ .error f)
    (hok : ∀ a h, work g = .ok (a, h) → h.store = g.store ∧ (Q a h → R h.store a b)) :
    Carries defs g work (Pure.pure b : Plan β) R where
  forgetful := hwork.forgetful
  error f hf := absurd hf (herror f)
  ok a h heq := by
    obtain ⟨hgh, hh, ha⟩ := hwork.ok a h heq
    obtain ⟨hsame, hR⟩ := hok a h heq
    refine ⟨hgh, hh, hR ha, ?_⟩
    rw [hsame]
    exact .of_knows (by simp)

end Carries

def Quiet (work : GraphM α) : Prop :=
  ∀ g, (∀ limit, work g ≠ .error (.limitExceeded limit)) ∧
    ∀ a h, work g = .ok (a, h) → h.store = g.store

namespace Quiet

theorem pure (a : α) : Quiet (Pure.pure a : GraphM α) := by
  intro g
  refine ⟨by rintro limit ⟨⟩, ?_⟩
  rintro _ _ ⟨⟩
  rfl

theorem bind {work : GraphM α} {next : α → GraphM γ} (hwork : Quiet work)
    (hnext : ∀ a, Quiet (next a)) : Quiet (work >>= next) := by
  intro g
  have hrun : (work >>= next) g = (work g).bind fun p => next p.1 p.2 := rfl
  obtain ⟨herror, hok⟩ := hwork g
  rw [hrun]
  cases hw : work g with
  | error f =>
    refine ⟨?_, by rintro _ _ ⟨⟩⟩
    rintro limit ⟨⟩
    exact herror limit hw
  | ok p =>
    obtain ⟨herror', hok'⟩ := hnext p.1 p.2
    refine ⟨herror', ?_⟩
    intro c k hk
    rw [hok' c k hk, hok p.1 p.2 hw]

theorem read (id : ExprId) : Quiet (Graph.read id) := by
  intro g
  refine ⟨by rintro limit ⟨⟩, ?_⟩
  rintro _ _ ⟨⟩
  rfl

theorem follow (r : RefId) : Quiet (liftM (defs.follow r) : GraphM _) := by
  rcases Option.eq_none_or_eq_some (defs.target? r) with htarget | ⟨a, htarget⟩
  . rw [Definitions.follow_of_target?_eq_none htarget]
    exact fun g => ⟨by rintro limit ⟨⟩, by rintro _ _ ⟨⟩⟩
  . rw [Definitions.follow_of_target? htarget]
    exact .pure _

theorem settled {work : GraphM NullableAnswer} (hwork : Quiet work) : Quiet (settled id work) := by
  intro g
  obtain ⟨herror, hok⟩ := hwork g
  rw [settled_apply]
  cases g.nullable[id]? with
  | some value =>
    refine ⟨by rintro limit ⟨⟩, ?_⟩
    rintro _ _ ⟨⟩
    rfl
  | none =>
    cases hw : work g with
    | error f =>
      refine ⟨?_, by rintro _ _ ⟨⟩⟩
      rintro limit ⟨⟩
      exact herror limit hw
    | ok p =>
      refine ⟨by rintro limit ⟨⟩, ?_⟩
      rintro _ _ ⟨⟩
      have hsame := hok p.1 p.2 hw
      dsimp only
      split <;> exact hsame

end Quiet

theorem examines_quiet : Examines defs Quiet where
  pure := .pure
  bind := .bind
  read := .read
  follow := .follow
  settled _ := .settled

theorem isNullable_quiet (id : ExprId) : Quiet (isNullable defs id) := examines_quiet.isNullable id

theorem isNullable_carries (hg : g.Sound defs) (h : g.store.Shows defs id e) :
    Carries defs g (isNullable defs id) (Pure.pure e.nullable : Plan Bool) fun _ b c => b = c := by
  have hnullable := (isNullable_yields hg h.mem).returns
  have hquiet : Quiet (isNullable defs id) := isNullable_quiet id
  obtain ⟨hroom, hsame⟩ := hquiet g
  refine .of_returns hnullable ?_ ?_
  . intro f hf
    have hadmissible := hnullable.error f hf
    cases f with
    | limitExceeded limit => exact hroom limit hf
    | undefinedReference => exact hadmissible h.guarded
    | unguardedReference => exact hadmissible h.guarded
    | _ => exact hadmissible
  . intro b k hk
    have hsame := hsame b k hk
    refine ⟨hsame, fun hdecided => ?_⟩
    rw [Bool.eq_iff_iff, hdecided k.store defs le_rfl le_rfl, hsame, ← Empties.iff_nil_mem_language,
      h.empties_iff]

theorem intern_carries {n : Node} (hg : g.Sound defs) (hn : ∀ c ∈ n.children, c ∈ g.store)
    (hsimplified : n.isCompound → g.store.Simplified n)
    (hshows : ∀ t, g.store ≤ t → ∀ id, t.find? n = some id ↔ t.Shows defs id e) :
    Carries defs g (intern n) (Plan.intern e) (Store.Shows · defs) := by
  have hintern := (intern_yields hg hn hsimplified).returns
  refine ⟨hintern.forgetful, ?_, ?_⟩
  . intro f hf
    rw [intern_apply] at hf
    cases hs : g.store.intern g.settings.limit n with
    | ok p =>
      rw [hs] at hf
      cases hf
    | error f' =>
      rw [hs] at hf
      cases hf
      obtain ⟨rfl, hmissing, hfull⟩ := Store.intern_eq_error hs hn
      refine Or.inl ⟨⟨_, rfl⟩, g.store, le_rfl, fun id hid => Or.inl hid, hfull, e,
        by simp [Plan.intern], ?_⟩
      rintro ⟨id, hid⟩
      rw [← hshows g.store le_rfl, hmissing] at hid
      cases hid
  . intro id h heq
    obtain ⟨hgh, hh, hid, hnode⟩ := hintern.ok id h heq
    have hshown : h.store.Shows defs id e := by
      rw [← hshows h.store (store_le hgh), ← hnode]
      exact Store.find?_node hid
    refine ⟨hgh, hh, hshown, ?_, ?_⟩
    . simpa [Plan.intern] using ⟨id, hshown⟩
    . intro i hi
      rw [intern_apply] at heq
      cases hs : g.store.intern g.settings.limit n with
      | error f =>
        rw [hs] at heq
        cases heq
      | ok p =>
        rw [hs] at heq
        cases heq
        rcases Store.intern_grows hs with hsame | ⟨_, _, hnew⟩
        . exact Or.inl (hsame ▸ hi)
        . refine (hnew i hi).imp_right ?_
          rintro rfl
          exact ⟨e, by simp [Plan.intern], hshown⟩

variable {i j : ExprId} {a b : Form}

theorem pair_carries {make : ExprId → ExprId → Node} (hg : g.Sound defs)
    (hi : g.store.Shows defs i a) (hj : g.store.Shows defs j b)
    (hsimplified : g.store.Simplified (make i j)) (hchildren : (make i j).children = [i, j])
    (he : ∀ (t : Store) id, t.Shows defs id e ↔
      ∃ i j, t.find? (make i j) = some id ∧ t.Shows defs i a ∧ t.Shows defs j b) :
    Carries defs g (intern (make i j)) (Plan.intern e) (Store.Shows · defs) := by
  refine intern_carries hg (by simp [hchildren, hi.mem, hj.mem]) (fun _ => hsimplified) ?_
  intro t hgt id
  have hi := hi.of_le hgt le_rfl
  have hj := hj.of_le hgt le_rfl
  rw [he]
  constructor
  . exact fun hid => ⟨i, j, hid, hi, hj⟩
  . rintro ⟨i', j', hid, hi', hj'⟩
    rwa [hi.injective hi', hj.injective hj']

theorem only_carries {make : ExprId → Node} (hg : g.Sound defs) (hi : g.store.Shows defs i a)
    (hsimplified : g.store.Simplified (make i)) (hchildren : (make i).children = [i])
    (he : ∀ (t : Store) id, t.Shows defs id e ↔ ∃ i, t.find? (make i) = some id ∧ t.Shows defs i a) :
    Carries defs g (intern (make i)) (Plan.intern e) (Store.Shows · defs) := by
  refine intern_carries hg (by simp [hchildren, hi.mem]) (fun _ => hsimplified) ?_
  intro t hgt id
  have hi := hi.of_le hgt le_rfl
  rw [he]
  constructor
  . exact fun hid => ⟨i, hid, hi⟩
  . rintro ⟨i', hid, hi'⟩
    rwa [hi.injective hi']

theorem contains_iff {seen : List ExprId} {seen' : List Form} {s : Store}
    (hseen : List.Forall₂ (s.Shows defs) seen seen') (h : s.Shows defs id e) :
    seen.contains id = true ↔ e ∈ seen' := by
  induction hseen with
  | nil => simp
  | cons hx _ ih =>
    rw [List.contains_cons, Bool.or_eq_true, beq_iff_eq, h.eq_iff hx, ih, List.mem_cons]

theorem without_carries {seen : List ExprId} {seen' : List Form} {c : ExprId} (hg : g.Sound defs)
    (hc : c ∈ g.store) (hsaw : g.store.alternatives c = seen)
    (hseen : List.Forall₂ (g.store.Shows defs) seen seen') (h : g.store.Shows defs id e) :
    Carries defs g (without seen id) (Plan.without seen' e)
      fun s => Option.Rel (s.Shows defs) := by
  induction e using Form.alternatives_induction generalizing g id with
  | choice a b iha ihb =>
    have ⟨i, j, hid, hi, hj⟩ := h
    rw [without, Plan.without_choice]
    refine .ite (contains_iff hseen h) (fun _ => .pure hg .none) fun _ => ?_
    refine Carries.read fun n below hn => ?_
    obtain rfl : n = .choice i j := hn.symm.trans (Store.node_eq_of_find? hid)
    have hwithout := (iha hg hc hsaw hseen hi).also
      (P := fun i? t => Remainder defs g.store t seen i i?)
      (without_yields i hg hc hsaw hi.mem).returns
    refine Carries.bind hwithout fun i? m hgm hm hi? => ?_
    obtain ⟨hi?, hleft⟩ := hi?
    have hcm := Store.mem_of_le (store_le hgm) hc
    have hsaw := (Store.alternatives_of_le (store_le hgm) hc).trans hsaw
    have hseen := hseen.imp fun _ _ hx => hx.of_le (store_le hgm) le_rfl
    have hjm := hj.of_le (store_le hgm) le_rfl
    have hwithout := (ihb hm hcm hsaw hseen hjm).also
      (P := fun j? t => Remainder defs m.store t seen j j?)
      (without_yields j hm hcm hsaw hjm.mem).returns
    refine Carries.bind hwithout fun j? k hmk hk hj? => ?_
    obtain ⟨hj?, hright⟩ := hj?
    have hgk := store_le (le_trans hgm hmk)
    generalize (Plan.without seen' a).value = a? at hi?
    generalize (Plan.without seen' b).value = b? at hj?
    cases hi? with
    | none =>
      cases hj? with
      | none => exact .pure hk .none
      | some hj' => exact .pure hk (.some hj')
    | some hi' =>
      have hi' := hi'.of_le (store_le hmk) le_rfl
      cases hj? with
      | none => exact .pure hk (.some hi')
      | some hj' =>
        refine .ite (and_congr (hi'.eq_iff (hi.of_le hgk le_rfl)) (hj'.eq_iff (hj.of_le hgk le_rfl)))
          (fun _ => .pure hk (.some (h.of_le hgk le_rfl))) fun _ => ?_
        have hsimplified :=
          hleft.simplified hright h.mem hn (store_le hgm) (store_le hmk) hg.normal
        refine Carries.bind (pair_carries hk hi' hj' hsimplified rfl fun _ _ => Iff.rfl) ?_
        exact fun r l _ hl hr => .pure hl (.some hr)
  | other e hchoice =>
    have hcontains := contains_iff hseen h
    rw [without, Plan.without_of_ne hchoice]
    by_cases hmem : e ∈ seen'
    . rw [if_pos hmem, if_pos (hcontains.2 hmem)]
      exact .pure hg .none
    . rw [if_neg hmem, if_neg (mt hcontains.1 hmem)]
      refine Carries.read fun n below hn => ?_
      cases n with
      | choice i j =>
        obtain ⟨a, b, he, -⟩ := h.eq_choice hn
        exact absurd he (hchoice a b)
      | _ => exact .pure hg (.some h)

theorem choice_carries (hg : g.Sound defs) (hi : g.store.Shows defs i a)
    (hj : g.store.Shows defs j b) :
    Carries defs g (choice i j) (Plan.choice a b) (Store.Shows · defs) := by
  unfold choice Plan.choice
  refine .ite hi.eq_nullSet_iff (fun _ => .pure hg hj) fun ha => ?_
  refine .ite hj.eq_nullSet_iff (fun _ => .pure hg hi) fun hb => ?_
  refine .ite (hi.eq_iff hj) (fun _ => .pure hg hi) fun _ => ?_
  have hwithout := (without_carries hg hi.mem rfl hi.alternatives hj).also
    (P := fun j? t => Remainder defs g.store t (g.store.alternatives i) j j?)
    (without_yields j hg hi.mem rfl hj.mem).returns
  refine .get rfl (Carries.bind hwithout fun j? k hgk hk hj? => ?_)
  obtain ⟨hj?, hleft⟩ := hj?
  have hiMem := hi.mem
  have hi := hi.of_le (store_le hgk) le_rfl
  generalize (Plan.without a.alternatives b).value = b? at hj?
  cases hj? with
  | none => exact .pure hk hi
  | some hj' =>
    have hsimplified := hleft.simplified_after (store_le hgk) hiMem (mt hi.eq_nullSet_iff.1 ha)
      (mt hj.eq_nullSet_iff.1 hb) hg.normal
    exact pair_carries hk hi hj' hsimplified rfl fun _ _ => Iff.rfl

theorem joined_carries {make : ExprId → ExprId → Node} (hg : g.Sound defs)
    (hi : g.store.Shows defs i a) (hj : g.store.Shows defs j b)
    (hsimplified : (i ≠ .nullSet ∧ j ≠ .nullSet) → (i ≠ .epsilon ∧ j ≠ .epsilon) →
      g.store.Simplified (make i j)) (hchildren : (make i j).children = [i, j])
    (he : ∀ (t : Store) id, t.Shows defs id e ↔
      ∃ i j, t.find? (make i j) = some id ∧ t.Shows defs i a ∧ t.Shows defs j b) :
    Carries defs g
      (if i = .nullSet ∨ j = .nullSet then pure .nullSet else
        if i = .epsilon then pure j else if j = .epsilon then pure i else intern (make i j))
      (if a = .nullSet ∨ b = .nullSet then pure .nullSet else
        if a = .epsilon then pure b else if b = .epsilon then pure a else Plan.intern e)
      (Store.Shows · defs) := by
  refine .ite (or_congr hi.eq_nullSet_iff hj.eq_nullSet_iff) (fun _ => .pure hg (.nullSet _)) ?_
  intro hab
  refine .ite hi.eq_epsilon_iff (fun _ => .pure hg hj) fun ha => ?_
  refine .ite hj.eq_epsilon_iff (fun _ => .pure hg hi) fun hb => ?_
  rw [← hi.eq_nullSet_iff, ← hj.eq_nullSet_iff, not_or] at hab
  rw [← hi.eq_epsilon_iff] at ha
  rw [← hj.eq_epsilon_iff] at hb
  exact pair_carries hg hi hj (hsimplified hab ⟨ha, hb⟩) hchildren he

theorem sequence_carries (hg : g.Sound defs) (hi : g.store.Shows defs i a)
    (hj : g.store.Shows defs j b) :
    Carries defs g (sequence i j) (Plan.sequence a b) (Store.Shows · defs) :=
  joined_carries hg hi hj .intro rfl fun _ _ => Iff.rfl

theorem interleave_carries (hg : g.Sound defs) (hi : g.store.Shows defs i a)
    (hj : g.store.Shows defs j b) :
    Carries defs g (interleave i j) (Plan.interleave a b) (Store.Shows · defs) :=
  joined_carries hg hi hj .intro rfl fun _ _ => Iff.rfl

theorem oneOrMore_carries (hg : g.Sound defs) (hi : g.store.Shows defs i a) :
    Carries defs g (oneOrMore i) (Plan.oneOrMore a) (Store.Shows · defs) := by
  unfold oneOrMore Plan.oneOrMore
  refine .ite (or_congr hi.eq_nullSet_iff hi.eq_epsilon_iff) (fun _ => .pure hg hi) fun ha => ?_
  rw [← hi.eq_nullSet_iff, ← hi.eq_epsilon_iff, not_or] at ha
  refine Carries.read fun n below hn => ?_
  cases n with
  | oneOrMore j =>
    obtain ⟨b, rfl, -⟩ := hi.eq_oneOrMore hn
    exact .pure hg hi
  | _ =>
    dsimp only
    split
    . obtain ⟨j, hid, -⟩ := hi
      simp [Store.node_eq_of_find? hid] at hn
    . exact only_carries hg hi ⟨ha, by simp [hn]⟩ rfl fun _ _ => Iff.rfl

theorem zeroOrMore_carries (hg : g.Sound defs) (hi : g.store.Shows defs i a) :
    Carries defs g (zeroOrMore i) (Plan.zeroOrMore a) (Store.Shows · defs) :=
  Carries.bind (oneOrMore_carries hg hi) fun _ _ _ hh hr => choice_carries hh hr (.epsilon _)

theorem mixed_carries (hg : g.Sound defs) (hi : g.store.Shows defs i a) :
    Carries defs g (mixed i) (Plan.mixed a) (Store.Shows · defs) := by
  unfold mixed Plan.mixed
  refine .ite hi.eq_nullSet_iff (fun _ => .pure hg hi) fun hnull => ?_
  refine .ite hi.eq_epsilon_iff (fun _ => .pure hg (.anyString _)) fun heps => ?_
  rw [← hi.eq_nullSet_iff] at hnull
  rw [← hi.eq_epsilon_iff] at heps
  refine Carries.read fun n below hn => ?_
  cases n with
  | mixed j =>
    obtain ⟨b, rfl, -⟩ := hi.eq_mixed hn
    exact .pure hg hi
  | _ =>
    dsimp only
    split
    . obtain ⟨j, hid, -⟩ := hi
      simp [Store.node_eq_of_find? hid] at hn
    . exact only_carries hg hi ⟨⟨hnull, heps⟩, by simp [hn]⟩ rfl fun _ _ => Iff.rfl

end Graph

end TreeGrammar
