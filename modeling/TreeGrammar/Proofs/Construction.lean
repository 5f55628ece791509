import TreeGrammar.Proofs.Nullability

/-!
This module contains the correctness of the operations that build expressions: with all that they
simplify, the result stands for the language that the operation stands for, and is put together from
the operands.
-/

namespace TreeGrammar

open Computability

namespace Store

variable {s : Store} {defs : Definitions} {id : ExprId} {w : List Letter}

theorem mem_language_iff_alternatives :
    w ∈ s.language defs id ↔ ∃ x ∈ s.alternatives id, w ∈ s.language defs x := by
  induction id using s.alternatives_induction with
  | choice id a b hn iha ihb =>
    rw [alternatives_of_choice hn, language_of_choice hn, Language.mem_add, iha, ihb]
    simp only [List.mem_append, or_and_right, exists_or]
  | other id hn =>
    by_cases hnull : s.node id = .nullSet
    . simp [alternatives_of_nullSet hnull, language_of_nullSet hnull, Language.notMem_zero]
    . simp [alternatives_of_ne hn hnull]

end Store

namespace Graph

variable {defs : Definitions} {g : Graph} {a b id : ExprId}

theorem internCompound_yields {n : Node} (hg : g.Sound defs) (hn : ∀ c ∈ n.children, c ∈ g.store)
    (hsimplified : g.store.Simplified n) (hc : n.isCompound) :
    Yields defs g (fun _ => intern n) (Fault.Admissible True) fun r h =>
      (∀ t, h.store ≤ t → t.node r = n) ∧ Composed defs g.store h.store n.children r := by
  refine (intern_yields hg hn fun _ => hsimplified).mono (fun _ hf => hf) ?_
  rintro r h hgh _ ⟨hr, hnode⟩
  refine ⟨?_, ?_⟩
  . intro t ht
    rw [Store.node_of_le ht hr, hnode]
  . refine .compound (store_le hgh) (by rwa [hnode]) ?_
    intro c hmem
    rw [hnode] at hmem
    exact ⟨hmem, fun h => hsimplified.nullSet_not_mem hc (h ▸ hmem)⟩

structure Remainder (defs : Definitions) (s t : Store) (seen : List ExprId) (id : ExprId)
    (r? : Option ExprId) : Prop where
  covers : ∀ u w, t ≤ u → w ∈ u.language defs id →
    (∃ x ∈ seen, w ∈ u.language defs x) ∨ ∃ kept, r? = some kept ∧ w ∈ u.language defs kept
  below : ∀ kept, r? = some kept → ∀ u w, t ≤ u → w ∈ u.language defs kept →
    w ∈ u.language defs id
  built : ∀ kept, r? = some kept → ∀ base, Closed s defs base → Built s base id →
    Built t base kept
  ne_nullSet : id ≠ .nullSet → ∀ kept, r? = some kept → kept ≠ .nullSet
  alternatives : ∀ u, t ≤ u →
    r?.elim [] u.alternatives = (s.alternatives id).filter (· ∉ seen)

namespace Remainder

variable {s t u : Store} {seen : List ExprId} {a? b? : Option ExprId}

theorem self (hid : id ∈ s) (hn : ∀ a b, s.node id ≠ .choice a b) (hseen : id ∉ seen) :
    Remainder defs s s seen id (some id) where
  covers _ _ _ hw := Or.inr ⟨id, rfl, hw⟩
  below := by
    rintro _ ⟨⟩ _ _ _ hw
    exact hw
  built := by
    rintro _ ⟨⟩ _ _ hid
    exact hid
  ne_nullSet := by
    rintro hid _ ⟨⟩
    exact hid
  alternatives u hu := by
    rw [Option.elim_some, Store.alternatives_of_le hu hid]
    by_cases hnull : s.node id = .nullSet
    . rw [Store.alternatives_of_nullSet hnull, List.filter_nil]
    . rw [Store.alternatives_of_ne hn hnull]
      simp [hseen]

theorem none (hn : ∀ a b, s.node id ≠ .choice a b) (hseen : id ∈ seen) :
    Remainder defs s s seen id .none where
  covers _ _ _ hw := Or.inl ⟨id, hseen, hw⟩
  below := by simp
  built := by simp
  ne_nullSet := by simp
  alternatives _ _ := by
    by_cases hnull : s.node id = .nullSet
    . rw [Store.alternatives_of_nullSet hnull, List.filter_nil, Option.elim_none]
    . rw [Store.alternatives_of_ne hn hnull]
      simp [hseen]

theorem mem (h : Remainder defs s t seen id a?) (hwithin : defs.Within s) (hid : id ∈ s)
    (hst : s ≤ t) {kept : ExprId} (hkept : a? = some kept) : kept ∈ t :=
  (h.built kept hkept (· ∈ s) (.of_within hwithin) (.base hid)).mem fun _ hx =>
    Store.mem_of_le hst hx

theorem of_le (h : Remainder defs s t seen id a?) (htu : t ≤ u) :
    Remainder defs s u seen id a? where
  covers v w hv := h.covers v w (le_trans htu hv)
  below kept hkept v w hv := h.below kept hkept v w (le_trans htu hv)
  built kept hkept base hclosed hid := (h.built kept hkept base hclosed hid).of_le htu
  ne_nullSet := h.ne_nullSet
  alternatives v hv := h.alternatives v (le_trans htu hv)

theorem choice {r? : Option ExprId} (ha : Remainder defs s t seen a a?)
    (hb : Remainder defs t u seen b b?) (hid : id ∈ s) (hn : s.node id = .choice a b) (hst : s ≤ t)
    (htu : t ≤ u)
    (hr : ∀ v w, u ≤ v → ((∃ kept, r? = some kept ∧ w ∈ v.language defs kept) ↔
      (∃ kept, a? = some kept ∧ w ∈ v.language defs kept) ∨
        ∃ kept, b? = some kept ∧ w ∈ v.language defs kept))
    (hbuilt : ∀ kept, r? = some kept → ∀ base, (∀ c, a? = some c → Built u base c) →
      (∀ c, b? = some c → Built u base c) → Built u base kept)
    (hnull : ∀ kept, r? = some kept → a? = some kept ∨ b? = some kept ∨ kept ≠ .nullSet)
    (halternatives : ∀ v, u ≤ v →
      r?.elim [] v.alternatives = a?.elim [] v.alternatives ++ b?.elim [] v.alternatives)
    (hs : s.IsReduced) : Remainder defs s u seen id r? := by
  have hcompound : (s.node id).isCompound := by
    rw [hn]
    rfl
  have language {v : Store} (hv : u ≤ v) :
      v.language defs id = v.language defs a + v.language defs b :=
    Store.language_of_choice ((Store.node_of_le (le_trans (le_trans hst htu) hv) hid).trans hn)
  have hpart {c : ExprId} (hc : c = a ∨ c = b) : Part s defs c id := by
    rw [Part.iff_of_isCompound hcompound]
    simpa [hn, Node.children] using hc
  refine ⟨?_, ?_, ?_, ?_, ?_⟩
  . intro v w hv hw
    rw [hr v w hv]
    rw [language hv, Language.mem_add] at hw
    rcases hw with hw | hw
    . exact (ha.covers v w (le_trans htu hv) hw).imp_right Or.inl
    . exact (hb.covers v w hv hw).imp_right Or.inr
  . intro kept hkept v w hv hw
    rw [language hv, Language.mem_add]
    rcases (hr v w hv).1 ⟨kept, hkept, hw⟩ with ⟨c, hc, hw⟩ | ⟨c, hc, hw⟩
    . exact Or.inl (ha.below c hc v w (le_trans htu hv) hw)
    . exact Or.inr (hb.below c hc v w hv hw)
  . intro kept hkept base hclosed hidBuilt
    refine hbuilt kept hkept base ?_ ?_
    . intro c hc
      exact (ha.built c hc base hclosed (hidBuilt.part hclosed (hpart (Or.inl rfl)))).of_le htu
    . intro c hc
      have hbBuilt := (hidBuilt.part hclosed (hpart (Or.inr rfl))).of_le hst
      exact hb.built c hc base (hclosed.of_le hst) hbBuilt
  . intro _ kept hkept
    rcases hnull kept hkept with hc | hc | hc
    . exact ha.ne_nullSet (hs.ne_nullSet hcompound (by simp [hn, Node.children])) kept hc
    . exact hb.ne_nullSet (hs.ne_nullSet hcompound (by simp [hn, Node.children])) kept hc
    . exact hc
  . intro v hv
    have hbMem : b ∈ s := Store.mem_of_mem_children hid (by simp [hn, Node.children])
    rw [halternatives v hv, ha.alternatives v (le_trans htu hv), hb.alternatives v hv,
      Store.alternatives_of_choice hn, Store.alternatives_of_le hst hbMem, List.filter_append]

theorem rejoined {a' b' r : ExprId} (ha : Remainder defs s t seen a (some a'))
    (hb : Remainder defs t u seen b (some b')) (hid : id ∈ s) (hn : s.node id = .choice a b)
    (hst : s ≤ t) (htu : t ≤ u) (hr : ∀ v, u ≤ v → v.node r = .choice a' b') (hs : s.IsReduced) :
    Remainder defs s u seen id (some r) := by
  have hnode := hr u le_rfl
  refine ha.choice hb hid hn hst htu ?_ ?_ ?_ ?_ hs
  . intro v w hv
    simp only [Option.some.injEq, exists_eq_left']
    rw [Store.language_of_choice (hr v hv)]
    exact Language.mem_add _ _ w
  . rintro _ ⟨⟩ base ha' hb'
    refine .compound (by rw [hnode]; rfl) ?_
    simp [hnode, Node.children, ha', hb']
  . rintro _ ⟨⟩
    refine Or.inr (Or.inr ?_)
    rintro rfl
    simp at hnode
  . intro v hv
    exact Store.alternatives_of_choice (hr v hv)

theorem simplified {a' b' : ExprId} (ha : Remainder defs s t seen a (some a'))
    (hb : Remainder defs t u seen b (some b')) (hid : id ∈ s) (hn : s.node id = .choice a b)
    (hst : s ≤ t) (htu : t ≤ u) (hs : s.IsNormal) : u.Simplified (.choice a' b') := by
  have hsimplified := hs id
  rw [hn] at hsimplified
  obtain ⟨⟨haNe, hbNe⟩, hnodup⟩ := hsimplified
  have hbMem : b ∈ s := Store.mem_of_mem_children hid (by simp [hn, Node.children])
  have ha' : u.alternatives a' = _ := ha.alternatives u htu
  have hb' : u.alternatives b' = _ := hb.alternatives u le_rfl
  refine ⟨⟨ha.ne_nullSet haNe a' rfl, hb.ne_nullSet hbNe b' rfl⟩, ?_⟩
  rw [ha', hb', Store.alternatives_of_le hst hbMem, ← List.filter_append]
  exact hnodup.filter _

theorem simplified_after {c kept : ExprId} (h : Remainder defs s t (s.alternatives c) id (some kept))
    (hst : s ≤ t) (hc : c ∈ s) (hcNe : c ≠ .nullSet) (hidNe : id ≠ .nullSet) (hs : s.IsNormal) :
    t.Simplified (.choice c kept) := by
  have hkept : t.alternatives kept = _ := h.alternatives t le_rfl
  refine ⟨⟨hcNe, h.ne_nullSet hidNe kept rfl⟩, ?_⟩
  rw [hkept, Store.alternatives_of_le hst hc]
  refine (hs.nodup_alternatives c).append ((hs.nodup_alternatives id).filter _) ?_
  intro x hx hx'
  exact absurd hx (of_decide_eq_true (List.mem_filter.1 hx').2)

end Remainder

theorem without_yields {c : ExprId} (id : ExprId) {g : Graph} (hg : g.Sound defs) (hc : c ∈ g.store)
    {seen : List ExprId} (hseen : g.store.alternatives c = seen) (hid : id ∈ g.store) :
    Yields defs g (fun _ => without seen id) (Fault.Admissible True) fun r? h =>
      Remainder defs g.store h.store seen id r? := by
  rw [without]
  split
  . next hmem =>
    have hmem : id ∈ seen := by simpa using hmem
    exact .pure hg (.none (Store.ne_choice_of_mem_alternatives (hseen ▸ hmem)) hmem)
  . next hmem =>
    apply Yields.read hid
    intro n below hn
    cases n with
    | choice a b =>
      have ha : a ∈ g.store := Store.mem_of_mem_children hid (by simp [hn, Node.children])
      have hb : b ∈ g.store := Store.mem_of_mem_children hid (by simp [hn, Node.children])
      have hlta := below a (by simp [Node.children])
      have hltb := below b (by simp [Node.children])
      refine Yields.bind (without_yields a hg hc hseen ha) ?_
      intro a? h hgh hh ha?
      have hb := Store.mem_of_le (store_le hgh) hb
      have hseen' := (Store.alternatives_of_le (store_le hgh) hc).trans hseen
      refine Yields.bind (without_yields b hh (Store.mem_of_le (store_le hgh) hc) hseen' hb) ?_
      intro b? k hhk hk hb?
      cases a? with
      | none =>
        cases b? with
        | none =>
          refine .pure hk (ha?.choice hb? hid hn (store_le hgh) (store_le hhk) ?_ ?_
            (by simp) ?_ hg.reduced)
          all_goals simp
        | some b' =>
          refine .pure hk (ha?.choice hb? hid hn (store_le hgh) (store_le hhk) ?_ ?_
            (by simp) ?_ hg.reduced)
          all_goals simp
      | some a' =>
        cases b? with
        | none =>
          refine .pure hk (ha?.choice hb? hid hn (store_le hgh) (store_le hhk) ?_ ?_
            (by simp) ?_ hg.reduced)
          all_goals simp
        | some b' =>
          dsimp only
          split
          . next hsame =>
            obtain ⟨rfl, rfl⟩ := hsame
            refine .pure hk (ha?.rejoined hb? hid hn (store_le hgh) (store_le hhk) ?_ hg.reduced)
            intro v hv
            exact (Store.node_of_le (le_trans (store_le (le_trans hgh hhk)) hv) hid).trans hn
          . have ha' := Store.mem_of_le (store_le hhk) (ha?.mem hg.within ha (store_le hgh) rfl)
            have hb' := hb?.mem hh.within hb (store_le hhk) rfl
            have hsimplified := ha?.simplified hb? hid hn (store_le hgh) (store_le hhk) hg.normal
            refine Yields.bind (internCompound_yields hk ?_ hsimplified rfl) ?_
            . simp [Node.children, ha', hb']
            . rintro r l hkl hl ⟨hnode, _⟩
              exact .pure hl (ha?.rejoined (hb?.of_le (store_le hkl)) hid hn (store_le hgh)
                (le_trans (store_le hhk) (store_le hkl)) hnode hg.reduced)
    | _ => exact .pure hg (.self hid (by simp [hn]) (by simpa using hmem))
termination_by id.index

theorem Yields.alternatives {β : Type} {E : Fault → Prop} {R : β → Graph → Prop}
    (next : Definitions → List ExprId → GraphM β) (ha : a ∈ g.store)
    (hnext : Yields defs g (next · (g.store.alternatives a)) E R) :
    Yields defs g (fun defs => get >>= fun g => next defs (g.store.alternatives a)) E R := by
  refine ⟨hnext.forgetful, hnext.error, ?_⟩
  intro b k hk
  obtain ⟨hgk, hkSound, hb, hagain⟩ := hnext.ok b k hk
  refine ⟨hgk, hkSound, hb, ?_⟩
  intro defs' u hdefs hku
  have hsame := Store.alternatives_of_le (store_le (le_trans hgk hku)) ha
  calc ((get : GraphM Graph) >>= fun g => next defs' (g.store.alternatives a)) u
    _ = next defs' (u.store.alternatives a) u := rfl
    _ = next defs' (g.store.alternatives a) u := by rw [hsame]
    _ = .ok (b, u) := hagain defs' u hdefs hku

/--
From `t` on `r` stands for `l`, and it has been put together from parts of `whole`.
-/
structure StandsFor (defs : Definitions) (s t : Store) (whole : ExprId) (l : Store → Language Letter)
    (r : ExprId) : Prop where
  language : ∀ u, t ≤ u → u.language defs r = l u
  composed : Composed defs s t [whole] r

namespace StandsFor

variable {s t u : Store} {whole r : ExprId} {l l' : Store → Language Letter}

theorem of_le (h : StandsFor defs s t whole l r) (htu : t ≤ u) : StandsFor defs s u whole l r :=
  ⟨fun v hv => h.language v (le_trans htu hv), h.composed.of_le htu⟩

theorem mem (h : StandsFor defs s t whole l r) (hwithin : defs.Within s) (hst : s ≤ t)
    (hwhole : whole ∈ s) : r ∈ t :=
  h.composed.mem hwithin hst (by simpa using hwhole)

theorem child (hn : (s.node whole).isCompound) (ha : a ∈ (s.node whole).children) (hst : s ≤ t) :
    StandsFor defs s t whole (·.language defs a) a :=
  ⟨fun _ _ => rfl, .part hst List.mem_cons_self ((Part.iff_of_isCompound hn).2 ha)⟩

theorem epsilon : StandsFor defs s t whole (fun _ => 1) .epsilon :=
  ⟨fun _ _ => Store.language_epsilon, .epsilon⟩

variable (hwithin : defs.Within s) (hs : s ≤ g.store) (hwhole : whole ∈ s) (hg : g.Sound defs)

include hwithin hs hwhole hg

theorem binary {op : ExprId → ExprId → GraphM ExprId}
    {f : Language Letter → Language Letter → Language Letter}
    (hop : ∀ {g : Graph} {a b : ExprId}, g.Sound defs → a ∈ g.store → b ∈ g.store →
      Yields defs g (fun _ => op a b) (Fault.Admissible True) fun r h =>
        (∀ t, h.store ≤ t → t.language defs r = f (t.language defs a) (t.language defs b)) ∧
          Composed defs g.store h.store [a, b] r)
    (ha : StandsFor defs s g.store whole l a) (hb : StandsFor defs s g.store whole l' b) :
    Yields defs g (fun _ => op a b) (Fault.Admissible True) fun r h =>
      StandsFor defs s h.store whole (fun u => f (l u) (l' u)) r := by
  refine (hop hg (ha.mem hwithin hs hwhole) (hb.mem hwithin hs hwhole)).mono (fun _ hf => hf) ?_
  rintro r h hgh _ ⟨hr, hcomposed⟩
  refine ⟨fun u hu => ?_, hcomposed.trans hs (by simp [ha.composed, hb.composed])⟩
  have hgu := le_trans (store_le hgh) hu
  rw [hr u hu, ha.language u hgu, hb.language u hgu]

theorem unary {op : ExprId → GraphM ExprId} {f : Language Letter → Language Letter}
    (hop : ∀ {g : Graph} {a : ExprId}, g.Sound defs → a ∈ g.store →
      Yields defs g (fun _ => op a) (Fault.Admissible True) fun r h =>
        (∀ t, h.store ≤ t → t.language defs r = f (t.language defs a)) ∧
          Composed defs g.store h.store [a] r)
    (ha : StandsFor defs s g.store whole l a) :
    Yields defs g (fun _ => op a) (Fault.Admissible True) fun r h =>
      StandsFor defs s h.store whole (fun u => f (l u)) r := by
  refine (hop hg (ha.mem hwithin hs hwhole)).mono (fun _ hf => hf) ?_
  rintro r h hgh _ ⟨hr, hcomposed⟩
  refine ⟨fun u hu => ?_, hcomposed.trans hs (by simp [ha.composed])⟩
  rw [hr u hu, ha.language u (le_trans (store_le hgh) hu)]

end StandsFor

theorem choice_yields (hg : g.Sound defs) (ha : a ∈ g.store) (hb : b ∈ g.store) :
    Yields defs g (fun _ => choice a b) (Fault.Admissible True) fun r h =>
      (∀ t, h.store ≤ t → t.language defs r = t.language defs a + t.language defs b) ∧
        Composed defs g.store h.store [a, b] r := by
  unfold choice
  split
  . next hnull =>
    refine .pure hg ⟨?_, .operand le_rfl (by simp)⟩
    simp [hnull]
  . next hanull =>
    split
    . next hnull =>
      refine .pure hg ⟨?_, .operand le_rfl (by simp)⟩
      simp [hnull]
    . next hbnull =>
      split
      . next hsame =>
        refine .pure hg ⟨?_, .operand le_rfl (by simp)⟩
        simp [hsame]
      . refine Yields.alternatives (fun _ seen => without seen b >>= _) ha ?_
        refine Yields.bind (without_yields b hg ha rfl hb) ?_
        intro r? h hgh hh hr?
        have covered {t : Store} (ht : h.store ≤ t) (w : List Letter) :
            (∃ x ∈ g.store.alternatives a, w ∈ t.language defs x) ↔ w ∈ t.language defs a := by
          rw [← Store.alternatives_of_le (le_trans (store_le hgh) ht) ha]
          exact Store.mem_language_iff_alternatives.symm
        cases r? with
        | none =>
          refine .pure hh ⟨?_, .operand (store_le hgh) (by simp)⟩
          intro t ht
          ext w
          rw [Language.mem_add]
          constructor
          . exact Or.inl
          . rintro (hw | hw)
            . exact hw
            . rcases hr?.covers t w ht hw with hw | ⟨_, ⟨⟩, _⟩
              exact (covered ht w).1 hw
        | some b' =>
          have ha' := Store.mem_of_le (store_le hgh) ha
          have hb' := hr?.mem hg.within hb (store_le hgh) rfl
          have hsimplified := hr?.simplified_after (store_le hgh) ha hanull hbnull hg.normal
          refine (internCompound_yields hh ?_ hsimplified rfl).mono (fun _ hf => hf) ?_
          . simp [Node.children, ha', hb']
          . rintro r k hhk _ ⟨hnode, _⟩
            have hrNode := hnode k.store le_rfl
            refine ⟨?_, ?_⟩
            . intro t ht
              have hht := le_trans (store_le hhk) ht
              rw [Store.language_of_choice (hnode t ht)]
              ext w
              simp only [Language.mem_add]
              constructor
              . exact Or.imp_right fun hw => hr?.below b' rfl t w hht hw
              . rintro (hw | hw)
                . exact Or.inl hw
                . rcases hr?.covers t w hht hw with hw | ⟨_, ⟨⟩, hw⟩
                  . exact Or.inl ((covered hht w).1 hw)
                  . exact Or.inr hw
            . intro base hclosed hmade
              have haBuilt := (hmade a (by simp)).built hanull
              have hbBuilt := (hmade b (by simp)).built hbnull
              refine Or.inr (.compound (by rw [hrNode]; rfl) ?_)
              simp only [hrNode, Node.children, List.mem_cons, List.not_mem_nil, or_false]
              rintro c (rfl | rfl)
              . exact haBuilt.of_le (le_trans (store_le hgh) (store_le hhk))
              . exact (hr?.built c rfl base hclosed hbBuilt).of_le (store_le hhk)

theorem joined_yields {make : ExprId → ExprId → Node}
    {op : Language Letter → Language Letter → Language Letter}
    (hzero : ∀ l, op 0 l = 0 ∧ op l 0 = 0) (hone : ∀ l, op 1 l = l ∧ op l 1 = l)
    (hlanguage : ∀ {t : Store} {id : ExprId}, t.node id = make a b →
      t.language defs id = op (t.language defs a) (t.language defs b))
    (hsimplified : (a ≠ .nullSet ∧ b ≠ .nullSet) → (a ≠ .epsilon ∧ b ≠ .epsilon) →
      g.store.Simplified (make a b)) (hchildren : (make a b).children = [a, b])
    (hcompound : (make a b).isCompound) (hg : g.Sound defs) (ha : a ∈ g.store) (hb : b ∈ g.store) :
    Yields defs g
      (fun _ => if a = .nullSet ∨ b = .nullSet then pure .nullSet else
        if a = .epsilon then pure b else if b = .epsilon then pure a else intern (make a b))
      (Fault.Admissible True) fun r h =>
      (∀ t, h.store ≤ t → t.language defs r = op (t.language defs a) (t.language defs b)) ∧
        Composed defs g.store h.store [a, b] r := by
  split
  . next hnull =>
    refine .pure hg ⟨?_, .nullSet⟩
    intro t _
    rcases hnull with rfl | rfl <;> simp [hzero]
  . next hnull =>
    rw [not_or] at hnull
    split
    . next heps =>
      refine .pure hg ⟨?_, .operand le_rfl (by simp)⟩
      simp [heps, hone]
    . next ha' =>
      split
      . next heps =>
        refine .pure hg ⟨?_, .operand le_rfl (by simp)⟩
        simp [heps, hone]
      . next hb' =>
        have hnode := internCompound_yields hg (by simp [hchildren, ha, hb])
          (hsimplified hnull ⟨ha', hb'⟩) hcompound
        rw [hchildren] at hnode
        exact hnode.mono (fun _ hf => hf) fun r h _ _ hr =>
          ⟨fun t ht => hlanguage (hr.1 t ht), hr.2⟩

theorem sequence_yields (hg : g.Sound defs) (ha : a ∈ g.store) (hb : b ∈ g.store) :
    Yields defs g (fun _ => sequence a b) (Fault.Admissible True) fun r h =>
      (∀ t, h.store ≤ t → t.language defs r = t.language defs a * t.language defs b) ∧
        Composed defs g.store h.store [a, b] r :=
  joined_yields (fun l => ⟨zero_mul l, mul_zero l⟩) (fun l => ⟨one_mul l, mul_one l⟩)
    Store.language_of_sequence .intro rfl rfl hg ha hb

theorem interleave_yields (hg : g.Sound defs) (ha : a ∈ g.store) (hb : b ∈ g.store) :
    Yields defs g (fun _ => interleave a b) (Fault.Admissible True) fun r h =>
      (∀ t, h.store ≤ t →
        t.language defs r = Language.shuffle (t.language defs a) (t.language defs b)) ∧
        Composed defs g.store h.store [a, b] r :=
  joined_yields (fun _ => ⟨Language.zero_shuffle, Language.shuffle_zero⟩)
    (fun _ => ⟨Language.one_shuffle, Language.shuffle_one⟩) Store.language_of_interleave .intro
    rfl rfl hg ha hb

theorem oneOrMore_yields (hg : g.Sound defs) (ha : a ∈ g.store) :
    Yields defs g (fun _ => oneOrMore a) (Fault.Admissible True) fun r h =>
      (∀ t, h.store ≤ t → t.language defs r = t.language defs a * (t.language defs a)∗) ∧
        Composed defs g.store h.store [a] r := by
  unfold oneOrMore
  split
  . next hsame =>
    refine .pure hg ⟨?_, .operand le_rfl (by simp)⟩
    intro t _
    rcases hsame with rfl | rfl <;> simp
  . next hsame =>
    rw [not_or] at hsame
    apply Yields.read ha
    intro n below hn
    cases n with
    | oneOrMore b =>
      refine .pure hg ⟨?_, .operand le_rfl (by simp)⟩
      intro t ht
      have hnode := (Store.node_of_le ht ha).trans hn
      rw [Store.language_of_oneOrMore hnode, Language.mul_kstar_mul_kstar]
    | _ =>
      refine (internCompound_yields hg ?_ ?_ rfl).mono (fun _ hf => hf) ?_
      . simp [Node.children, ha]
      . exact ⟨hsame, by simp [hn]⟩
      . intro r h _ _ hr
        exact ⟨fun t ht => Store.language_of_oneOrMore (hr.1 t ht), hr.2⟩

theorem zeroOrMore_yields (hg : g.Sound defs) (ha : a ∈ g.store) :
    Yields defs g (fun _ => zeroOrMore a) (Fault.Admissible True) fun r h =>
      (∀ t, h.store ≤ t → t.language defs r = (t.language defs a)∗) ∧
        Composed defs g.store h.store [a] r := by
  refine Yields.bind (oneOrMore_yields hg ha) ?_
  intro more h hgh hh hmore
  refine (StandsFor.binary hg.within (store_le hgh) ha hh choice_yields ⟨hmore.1, hmore.2⟩
    .epsilon).mono (fun _ hf => hf) ?_
  intro r k _ _ hr
  refine ⟨fun t ht => ?_, hr.composed⟩
  rw [hr.language t ht, add_comm]
  exact Language.one_add_self_mul_kstar_eq_kstar _

theorem optional_yields (hg : g.Sound defs) (ha : a ∈ g.store) :
    Yields defs g (fun _ => optional a) (Fault.Admissible True) fun r h =>
      (∀ t, h.store ≤ t → t.language defs r = t.language defs a + 1) ∧
        Composed defs g.store h.store [a] r := by
  have hself : StandsFor defs g.store g.store a (·.language defs a) a :=
    ⟨fun _ _ => rfl, .operand le_rfl List.mem_cons_self⟩
  refine (StandsFor.binary hg.within le_rfl ha hg choice_yields hself .epsilon).mono
    (fun _ hf => hf) ?_
  exact fun _ _ _ _ hr => ⟨hr.language, hr.composed⟩

theorem mixed_yields (hg : g.Sound defs) (ha : a ∈ g.store) :
    Yields defs g (fun _ => mixed a) (Fault.Admissible True) fun r h =>
      (∀ t, h.store ≤ t → t.language defs r = Language.mixed (t.language defs a)) ∧
        Composed defs g.store h.store [a] r := by
  unfold mixed
  split
  . next hnull =>
    refine .pure hg ⟨?_, .operand le_rfl (by simp)⟩
    intro t _
    simp [hnull, Language.mixed_zero]
  . next hnull =>
    split
    . next heps =>
      refine .pure hg ⟨?_, .anyString⟩
      intro t _
      ext w
      rw [heps, Store.language_epsilon, Language.mem_mixed_one]
      exact Store.mem_language_of_anyString t.node_anyString
    . next heps =>
      apply Yields.read ha
      intro n below hn
      cases n with
      | mixed b =>
        refine .pure hg ⟨?_, .operand le_rfl (by simp)⟩
        intro t ht
        have hnode := (Store.node_of_le ht ha).trans hn
        rw [Store.language_of_mixed hnode, Language.mixed_mixed]
      | _ =>
        refine (internCompound_yields hg ?_ ?_ rfl).mono (fun _ hf => hf) ?_
        . simp [Node.children, ha]
        . exact ⟨⟨hnull, heps⟩, by simp [hn]⟩
        . intro r h _ _ hr
          exact ⟨fun t ht => Store.language_of_mixed (hr.1 t ht), hr.2⟩

end Graph

end TreeGrammar
