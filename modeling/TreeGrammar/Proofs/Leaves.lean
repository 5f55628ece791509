import TreeGrammar.Proofs.Meaning

/-!
This module contains that there is nothing to simplify about any expression of a session, and that a
choice has exactly the alternatives of both operands, each of them once and in order. So a choice is the
null set only if both operands are, and reading with a matcher does not come to it.
-/

namespace TreeGrammar

namespace Graph

variable {defs : Definitions} {g : Graph} {a b : ExprId}

theorem alternatives_choice_returns (hg : g.Sound defs) (ha : a ∈ g.store) (hb : b ∈ g.store) :
    Returns defs g (choice a b) (Fault.Admissible True) fun r h =>
      h.store.alternatives r = g.store.alternatives a ++
        (g.store.alternatives b).filter (· ∉ g.store.alternatives a) ∧
      (a ≠ .nullSet → (r = a ↔ ∀ x ∈ g.store.alternatives b, x ∈ g.store.alternatives a)) := by
  have hnone {id : ExprId} (h : id = .nullSet) : g.store.alternatives id = [] := by
    rw [h]
    exact Store.alternatives_of_nullSet g.store.node_nullSet
  unfold choice
  split
  . next hnull =>
    refine .pure hg ⟨?_, absurd hnull⟩
    simp [hnone hnull]
  . split
    . next hnull =>
      refine .pure hg ⟨?_, fun _ => ?_⟩
      . simp [hnone hnull]
      . simp [hnone hnull]
    . next hbNe =>
      split
      . next hsame =>
        refine .pure hg ⟨?_, fun _ => ?_⟩
        . rw [hsame, List.filter_eq_nil_iff.2 (by simp), List.append_nil]
        . simp [hsame]
      . next haNe _ =>
        refine .get rfl (Returns.bind (without_yields b hg ha rfl hb).returns ?_)
        intro b? h hgh hh hb?
        have hremains := hb?.alternatives
        cases b? with
        | none =>
          have hnil := (hremains h.store le_rfl).symm
          refine .pure hh ⟨?_, fun _ => iff_of_true rfl ?_⟩
          . rw [hnil, Store.alternatives_of_le (store_le hgh) ha]
            exact (List.append_nil _).symm
          . simpa [List.filter_eq_nil_iff] using hnil
        | some b' =>
          have ha' := Store.mem_of_le (store_le hgh) ha
          have hb' := hb?.mem hg.within hb (store_le hgh) rfl
          have hsimplified := hb?.simplified_after (store_le hgh) ha haNe hbNe hg.normal
          have hrest := hh.reduced.alternatives_ne_nil hb' (hb?.ne_nullSet hbNe b' rfl)
          have hb'Eq : h.store.alternatives b' = _ := hremains h.store le_rfl
          refine (internCompound_yields hh ?_ hsimplified rfl).returns.mono (fun _ hf => hf) ?_
          . simp [Node.children, ha', hb']
          . rintro r k hhk _ ⟨hnode, _⟩
            have hr : k.store.alternatives r = g.store.alternatives a ++
                (g.store.alternatives b).filter (· ∉ g.store.alternatives a) := by
              rw [Store.alternatives_of_choice (hnode k.store le_rfl),
                Store.alternatives_of_le (store_le (le_trans hgh hhk)) ha,
                Store.alternatives_of_le (store_le hhk) hb', hb'Eq]
            -- something remains of the second operand, so the choice is a new one
            rw [hb'Eq] at hrest
            refine ⟨hr, fun _ => iff_of_false ?_ ?_⟩
            . rintro rfl
              rw [Store.alternatives_of_le (store_le (le_trans hgh hhk)) ha] at hr
              exact hrest (List.append_right_eq_self.1 hr.symm)
            . intro hall
              exact hrest (List.filter_eq_nil_iff.2 (by simpa using hall))

theorem choice_ne_nullSet (hg : g.Sound defs) (ha : a ∈ g.store) (hb : b ∈ g.store)
    (hne : b ≠ .nullSet) :
    Returns defs g (choice a b) (Fault.Admissible True) fun r _ => r ≠ .nullSet := by
  refine (alternatives_choice_returns hg ha hb).mono (fun _ hf => hf) ?_
  rintro _ h _ _ ⟨hr, _⟩ rfl
  rw [Store.alternatives_of_nullSet h.store.node_nullSet, eq_comm, List.append_eq_nil_iff] at hr
  obtain ⟨haNil, hbNil⟩ := hr
  refine hg.reduced.alternatives_ne_nil hb hne ?_
  simpa [haNil] using hbNil

end Graph

namespace Matcher

variable {defs : Definitions} {g : Graph} {token : Token} {before rest : ExprId} {m : Matcher}

theorem after_ne_nullSet (hg : g.Sound defs) (hbefore : before ∈ g.store) (hrest : rest ∈ g.store)
    (hne : rest ≠ .nullSet) :
    Graph.Returns defs g (after token before rest) (fun _ => True) fun r _ => r ≠ .nullSet := by
  unfold after
  split
  . exact (Graph.choice_ne_nullSet hg hbefore hrest hne).mono (fun _ _ => trivial) fun _ _ _ _ h => h
  . exact .pure hg hne

theorem advance_ne_nullSet (hg : g.Sound defs) (hm : m.Within g.store) (hrest : rest ∈ g.store)
    (hne : rest ≠ .nullSet) :
    Graph.Returns defs g (m.advance defs token rest) (fun _ => True)
      fun m' _ => m'.state ≠ .nullSet := by
  have hafter : Graph.Returns defs g (after token m.state rest) _ _ :=
    after_ne_nullSet hg hm.state hrest hne
  unfold advance
  cases m with
  | single state owner =>
    refine Graph.Returns.bind hafter ?_
    exact fun r h _ hh hr => .pure hh hr
  | several state slots =>
    refine Graph.Returns.bind hafter ?_
    intro r h hgh hh hr
    have hslots : Graph.Returns defs h (advanceSlots defs token slots) _ _ :=
      advanceSlots_returns rfl slots hh fun slot hslot =>
        Store.mem_of_le (Graph.store_le hgh) (hm.slots slot hslot).2
    refine Graph.Returns.bind (hslots.mono (fun _ _ => trivial) fun _ _ _ _ h => h) ?_
    exact fun _ _ _ hk _ => .pure hk hr

theorem read?_ne_nullSet (token : Token) (hg : g.Sound defs) (hm : m.Within g.store)
    (hne : m.state ≠ .nullSet) :
    Graph.Returns defs g (m.read? defs token) (fun _ => True)
      fun r _ => ∀ p ∈ r, p.1.state ≠ .nullSet := by
  unfold read?
  refine Graph.Returns.bind ((Graph.derivative_returns hg hm.state).mono (fun _ _ => trivial)
    fun _ _ _ _ h => h) ?_
  intro d h hgh hh hd
  have hrest := hd.mem hg.within hm.state (Graph.store_le hgh)
  split
  . refine .pure hh ?_
    split
    . rintro _ ⟨⟩
      exact hne
    . rintro _ ⟨⟩
  . next hrestNe =>
    refine Graph.Returns.bind
      (advance_ne_nullSet hh (hm.of_le (Graph.store_le hgh)) hrest hrestNe) ?_
    intro m' k _ hk hm'
    refine .pure hk ?_
    rintro _ ⟨⟩
    exact hm'

end Matcher

namespace Session

variable {s : Session}

/--
Whatever has been asked of a session, there is nothing to simplify about its expressions, and a
choice has the alternatives of the first operand and those that only the second has, so that it is
the first operand if there are none, and no alternative is lost.
-/
theorem isNormal_and_alternatives_choice (hs : s.Arises) :
    s.schema.graph.store.IsNormal ∧ ∀ a b, s.Has a → s.Has b →
      s.Completes (onGraph fun _ => Graph.choice a b) fun c t =>
        let alternatives := s.schema.graph.store.alternatives
        t.schema.graph.store.alternatives c =
            alternatives a ++ (alternatives b).filter (· ∉ alternatives a) ∧
          (a ≠ .nullSet → (c = a ↔ ∀ x ∈ alternatives b, x ∈ alternatives a)) ∧
          ∀ x, x ∈ t.schema.graph.store.alternatives c ↔ x ∈ alternatives a ∨ x ∈ alternatives b := by
  refine ⟨hs.sound.graph.normal, fun a b ha hb => ?_⟩
  refine .of_returns hs.sound (Graph.alternatives_choice_returns hs.sound.graph ha hb) trivial
    (fun _ => Graph.choice_uniform a b) ?_
  rintro c t _ _ _ ⟨hc, hsame⟩
  refine ⟨hc, hsame, fun x => ?_⟩
  rw [hc, List.mem_append, List.mem_filter, decide_eq_true_eq]
  tauto

/--
A reference is an alternative of both operands, and a child element only of the second.
-/
theorem isNormal_and_alternatives_choice_reference :
    ∃ s a b c r x t, s.Arises ∧ s.schema.graph.store.IsNormal ∧ s.Has a ∧ s.Has b ∧
      s.schema.graph.store.alternatives a = [r, .epsilon] ∧
      s.schema.graph.store.alternatives b = [x, r] ∧ x ∉ [r, .epsilon] ∧
      onGraph (fun _ => Graph.choice a b) s = .ok (c, t) ∧
      t.schema.graph.store.alternatives c = [r, .epsilon, x] ∧ c ≠ a := by
  let a : ExprId := ⟨5⟩
  let b : ExprId := ⟨6⟩
  obtain ⟨s, hs, hp⟩ := Reachable.of_leadsTo (fun _ => .string)
    [.bind "r" (.reference "r"), .bind "x" (.element .any .anyString),
      .bind "a" (.optional (.variable "r")), .bind "b" (.choice (.variable "x") (.variable "r"))]
    (fun s => s.schema.graph.store.size = 7 &&
      s.schema.graph.store.alternatives a = [⟨3⟩, .epsilon] &&
      s.schema.graph.store.alternatives b = [⟨4⟩, ⟨3⟩] &&
      (onGraph (fun _ => Graph.choice a b) s).toOption.any fun _ => true)
    (by simp [Command.isLawful]) (by decide +kernel)
  simp only [Bool.and_eq_true, decide_eq_true_eq] at hp
  obtain ⟨⟨⟨hsize, haLeaves⟩, hbLeaves⟩, hp⟩ := hp
  have hmem {id : ExprId} (hid : id.index < 7) : s.Has id := hid.trans_eq hsize.symm
  have ha : s.Has a := hmem (by decide)
  have hb : s.Has b := hmem (by decide)
  obtain ⟨⟨c, t⟩, hrun, -⟩ := exists_of_any_toOption hp
  obtain ⟨hnormal, hchoice⟩ := isNormal_and_alternatives_choice hs.arises
  obtain ⟨hc, hsame, _⟩ := (hchoice a b ha hb).ok c t hrun
  rw [haLeaves, hbLeaves] at hc hsame
  refine ⟨s, a, b, c, ⟨3⟩, ⟨4⟩, t, hs.arises, hnormal, ha, hb, haLeaves, hbLeaves, by decide, hrun,
    hc, ?_⟩
  exact mt (hsame (by decide)).1 (by decide)

end Session

end TreeGrammar
