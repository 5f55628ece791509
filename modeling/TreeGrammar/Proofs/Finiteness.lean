import Mathlib.Algebra.BigOperators.Group.Finset.Basic
import Mathlib.Algebra.Order.BigOperators.Group.Finset
import Mathlib.Data.Finite.Prod
import Mathlib.Data.Set.Finite.Lattice
import Mathlib.Order.Interval.Finset.Nat
import TreeGrammar.Proofs.Documents
import TreeGrammar.Proofs.Residues

/-!
This module contains that validation gets by with finitely many expressions. What a grammar is made of
has finitely many residues, and so there is a bound on the expressions that is the same for all documents
and for any number of them at once.
-/

namespace TreeGrammar

namespace Form

variable {K : Nat} {L : Set Form} {e x : Form}

theorem finite_choices (hL : L.Finite) (n : Nat) :
    {e : Form | e.IsReduced ∧ (∀ x ∈ e.alternatives, x ∈ L) ∧ e.alternatives.length ≤ n}.Finite := by
  induction n with
  | zero =>
    refine (Set.finite_singleton Form.nullSet).subset ?_
    rintro e ⟨he, -, hlength⟩
    by_contra hne
    exact alternatives_ne_nil he hne (List.length_eq_zero_iff.1 (Nat.le_zero.1 hlength))
  | succ n ih =>
    refine ((ih.union hL).union (ih.image2 .choice ih)).subset ?_
    rintro e ⟨he, hmem, hlength⟩
    by_cases hnull : e = .nullSet
    . exact Or.inl (Or.inl ⟨he, hmem, by simp [hnull]⟩)
    . cases e with
      | choice a b =>
        have ha := List.length_pos_of_ne_nil (alternatives_ne_nil he.2.1 he.1.1)
        have hb := List.length_pos_of_ne_nil (alternatives_ne_nil he.2.2 he.1.2)
        rw [alternatives_of_choice, List.length_append] at hlength
        refine Or.inr ⟨a, ⟨he.2.1, fun x hx => ?_, by omega⟩, b, ⟨he.2.2, fun x hx => ?_, by omega⟩, rfl⟩
        . exact hmem x (List.mem_append_left _ hx)
        . exact hmem x (List.mem_append_right _ hx)
      | _ =>
        refine Or.inl (Or.inr (hmem _ ?_))
        rw [alternatives_of_ne (by simp) hnull]
        exact List.mem_singleton_self _

theorem finite_drawn (hL : {x ∈ L | Form.IsReduced x}.Finite) (K : Nat) :
    {e : Form | e.Drawn K L ∧ e.IsReduced}.Finite := by
  refine (finite_choices hL (hL.toFinset.card * K)).subset ?_
  rintro e ⟨he, hreduced⟩
  have hmem : ∀ x ∈ e.alternatives, x ∈ {x ∈ L | x.IsReduced} := fun x hx =>
    ⟨he.mem x hx, isReduced_of_mem_alternatives hreduced hx⟩
  refine ⟨hreduced, hmem, ?_⟩
  have hsubset : e.alternatives.toFinset ⊆ hL.toFinset := by
    intro x hx
    exact hL.mem_toFinset.2 (hmem x (List.mem_toFinset.1 hx))
  calc e.alternatives.length
      = ∑ x ∈ e.alternatives.toFinset, e.alternatives.count x :=
        (List.sum_toFinset_count_eq_length _).symm
    _ ≤ e.alternatives.toFinset.card • K := Finset.sum_le_card_nsmul _ _ _ fun x _ => he.count x
    _ ≤ hL.toFinset.card * K := Nat.mul_le_mul_right _ (Finset.card_le_card hsubset)

theorem finite_residues (K : Nat) (e : Form) : {x ∈ residues K e | x.IsReduced}.Finite := by
  induction e with
  | epsilon | nullSet => exact (Set.finite_singleton _).subset fun _ h => h.1
  | anyString | typedString | element =>
    exact ((Set.finite_singleton _).union (Set.finite_singleton _)).subset fun _ h => h.1
  | «attribute» names a ih =>
    refine ((Set.finite_singleton (Form.attribute names a)).union ih).subset ?_
    rintro x ⟨hx | hx, hreduced⟩
    . exact Or.inl hx
    . exact Or.inr ⟨hx, hreduced⟩
  | reference r a ih =>
    refine ((Set.finite_singleton (Form.reference r a)).union ih).subset ?_
    rintro x ⟨hx | hx, hreduced⟩
    . exact Or.inl hx
    . exact Or.inr ⟨hx, hreduced⟩
  | choice a b iha ihb =>
    refine (iha.union ihb).subset ?_
    rintro x ⟨hx | hx, hreduced⟩
    . exact Or.inl ⟨hx, hreduced⟩
    . exact Or.inr ⟨hx, hreduced⟩
  | sequence a b iha ihb =>
    have hboth := (finite_drawn iha K).image2 Form.sequence (finite_drawn ihb K)
    refine (hboth.union (iha.union ihb)).subset ?_
    rintro x ⟨⟨y, hy, z, hz, rfl⟩ | hx | hx, hreduced⟩
    . exact Or.inl ⟨y, ⟨hy, hreduced.2.1⟩, z, ⟨hz, hreduced.2.2⟩, rfl⟩
    . exact Or.inr (Or.inl ⟨hx, hreduced⟩)
    . exact Or.inr (Or.inr ⟨hx, hreduced⟩)
  | interleave a b iha ihb =>
    have hboth := (finite_drawn iha K).image2 Form.interleave (finite_drawn ihb K)
    refine (hboth.union (iha.union ihb)).subset ?_
    rintro x ⟨⟨y, hy, z, hz, rfl⟩ | hx | hx, hreduced⟩
    . exact Or.inl ⟨y, ⟨hy, hreduced.2.1⟩, z, ⟨hz, hreduced.2.2⟩, rfl⟩
    . exact Or.inr (Or.inl ⟨hx, hreduced⟩)
    . exact Or.inr (Or.inr ⟨hx, hreduced⟩)
  | oneOrMore a ih =>
    have hmore : {x ∈ repetitions K (residues K a) | x.IsReduced}.Finite := by
      refine (((finite_drawn ih K).image Form.oneOrMore).union ih).subset ?_
      rintro x ⟨⟨y, hy, rfl⟩ | hx, hreduced⟩
      . exact Or.inl ⟨y, ⟨hy, hreduced.2⟩, rfl⟩
      . exact Or.inr ⟨hx, hreduced⟩
    refine (((finite_drawn ih K).image2 Form.sequence (finite_drawn hmore K)).union hmore).subset ?_
    rintro x ⟨⟨y, hy, z, hz, rfl⟩ | hx, hreduced⟩
    . exact Or.inl ⟨y, ⟨hy, hreduced.2.1⟩, z, ⟨hz, hreduced.2.2⟩, rfl⟩
    . exact Or.inr ⟨hx, hreduced⟩
  | mixed a ih =>
    refine (((finite_drawn ih K).image Form.mixed).union
      ((Set.finite_singleton .anyString).union ih)).subset ?_
    rintro x ⟨⟨y, hy, rfl⟩ | hx | hx, hreduced⟩
    . exact Or.inl ⟨y, ⟨hy, hreduced.2⟩, rfl⟩
    . exact Or.inr (Or.inl hx)
    . exact Or.inr (Or.inr ⟨hx, hreduced⟩)

end Form

namespace Store

variable {s : Store} {defs : Definitions} {e : Form} {K : Nat}

theorem finite_knows (s : Store) (defs : Definitions) : {e | s.Knows defs e}.Finite := by
  refine ((Set.finite_lt_nat s.size).image fun i => s.form defs ⟨i⟩).subset ?_
  rintro e ⟨id, hid⟩
  exact ⟨id.index, hid.mem, hid.form_eq⟩

theorem exists_size_le (s : Store) (defs : Definitions) :
    ∃ K, 0 < K ∧ ∀ e, s.Knows defs e → e.size ≤ K := by
  obtain ⟨K, hK⟩ := ((s.finite_knows defs).image Form.size).bddAbove
  refine ⟨K + 1, Nat.succ_pos K, fun e he => ?_⟩
  exact (hK ⟨e, he, rfl⟩).trans (Nat.le_succ K)

def residues (s : Store) (defs : Definitions) (K : Nat) : Set Form :=
  ⋃ e ∈ {e | s.Knows defs e}, Form.residues K e

theorem finite_residues (s : Store) (defs : Definitions) (K : Nat) :
    {x ∈ s.residues defs K | x.IsReduced}.Finite := by
  refine ((s.finite_knows defs).biUnion fun e _ => Form.finite_residues K e).subset ?_
  rintro x ⟨hx, hreduced⟩
  obtain ⟨e, he, hx⟩ := Set.mem_iUnion₂.1 hx
  exact Set.mem_biUnion he ⟨hx, hreduced⟩

theorem stable_drawn (hK : 0 < K) (hsize : ∀ e, s.Knows defs e → e.size ≤ K) :
    Form.Stable (Form.Drawn K (s.residues defs K)) :=
  Form.stable_drawn hK ⟨.epsilon, .epsilon, .epsilon s⟩ hsize

theorem Knows.drawn (h : s.Knows defs e) (hsize : ∀ e, s.Knows defs e → e.size ≤ K) :
    e.Drawn K (s.residues defs K) :=
  have hsubset : Form.residues K e ⊆ s.residues defs K := Set.subset_biUnion_of_mem h
  (Form.Covered.drawn ⟨hsize e h, hsubset⟩).mono hsubset

end Store

namespace Session

variable {s t u : Session} {gr : Grammar} {P : Form → Prop} {name : String} {answer : Answer}
variable {built : List Form} {w : Form.Validation} {commands : List Command} {answers : List Answer}
variable {c : Command}

structure Confined (s : Session) (P : Form → Prop) (t : Session) : Prop where
  continues : s.Continues t
  new : ∀ id ∈ t.schema.graph.store,
    s.Has id ∨ ∃ e, P e ∧ t.schema.graph.store.Shows s.schema.definitions id e
  validations : ∀ (name : String) (v : Validation), t.validations[name]? = some v →
    ∃ v', s.Views t.schema.graph.store v v' ∧ v'.All P

structure Confines (s : Session) (gr : Grammar) (P : Form → Prop) : Prop where
  keeps : (s.grammarForm gr).Keeps P
  made : ∀ id, Made s.schema.graph.store (Vetted s.schema.graph.store s.schema.definitions) id →
    P (s.schema.graph.store.form s.schema.definitions id)

theorem Took.confined (h : s.Took t u name w built) (ht : s.Confined P t)
    (hbuilt : ∀ e ∈ built, P e) (hw : w.All P) : s.Confined P u where
  continues := h.continues
  new := by
    intro id hid
    rcases h.grows.new id hid with hid | ⟨e, he, hid⟩
    . exact (ht.new id hid).imp_right fun ⟨e, he, hid⟩ =>
        ⟨e, he, hid.of_le (Graph.store_le h.le) le_rfl⟩
    . exact Or.inr ⟨e, hbuilt e he, hid⟩
  validations := by
    intro other v hv
    by_cases hother : other = name
    . subst hother
      obtain ⟨v', hv', hviews⟩ := h.get
      rw [hv] at hv'
      cases hv'
      exact ⟨w, hviews, hw⟩
    . rw [h.get_other hother] at hv
      obtain ⟨v', hviews, hall⟩ := ht.validations other v hv
      exact ⟨v', hviews.of_le (Graph.store_le h.le), hall⟩

namespace Confined

theorem refl (hs : s.Sound) (hP : s.Confines gr P) : s.Confined P s where
  continues := .refl hs
  new _ hid := Or.inl hid
  validations name v hv := ⟨_, views_form hs hv, (hs.validations name v hv).all hP.made⟩

theorem step (ht : s.Confined P t) (hs : s.Sound) (hgr : s.grammar = some gr)
    (hP : s.Confines gr P) (hc : c.document?.isSome) (hok : perform c t = .ok (answer, u)) :
    s.Confined P u := by
  cases c with
  | createValidation name =>
    rw [perform_createValidation (ht.continues.grammar.trans hgr)] at hok
    cases hok
    have hstart : P (s.schema.graph.store.form s.schema.definitions gr.start) :=
      hP.made gr.start (Or.inr (.base (hs.grammar gr hgr).start))
    exact (took_createValidation hs hgr ht.continues).confined ht (by simp)
      ⟨hstart, by simp [Form.Validation.create]⟩
  | take name event =>
    obtain ⟨-, v, -, hv⟩ := exists_of_perform_take hok
    obtain ⟨v', hviews, hall⟩ := ht.validations name v hv
    obtain ⟨w, hw, -, htook⟩ := perform_take_ok hs hgr ht.continues hv hviews hok
    have htake := Form.Validation.take_keeps event hP.keeps hall
    exact htook.confined ht htake.built (htake.value w hw)
  | diagnose name located =>
    rw [perform_diagnose] at hok
    split at hok
    . cases hok
      exact ht
    . cases hok
  | _ => cases hc

theorem run (ht : s.Confined P t) (hs : s.Sound) (hgr : s.grammar = some gr)
    (hP : s.Confines gr P) (hcommands : ∀ c ∈ commands, c.document?.isSome)
    (hrun : run commands t = (answers, .ok u)) : s.Confined P u := by
  induction commands generalizing t answers with
  | nil =>
    cases hrun
    exact ht
  | cons c commands ih =>
    rw [List.forall_mem_cons] at hcommands
    unfold Session.run StateT.run at hrun
    split at hrun
    . cases hrun
    . next answer t' hok =>
      have hrest : Session.run commands t' = (_, .ok u) := Prod.ext rfl (Prod.mk.inj hrun).2
      exact ih (ht.step hs hgr hP hcommands.1 hok) hcommands.2 hrest

theorem size_le (ht : s.Confined P t) {forms : Set Form} (hforms : forms.Finite)
    (hP : ∀ e, P e → e ∈ forms) :
    t.schema.graph.store.size ≤ s.schema.graph.store.size + hforms.toFinset.card := by
  have hnew {i : Nat} (hi : i ∈ Finset.Ico s.schema.graph.store.size t.schema.graph.store.size) :
      ∃ e ∈ forms, t.schema.graph.store.Shows s.schema.definitions ⟨i⟩ e := by
    rw [Finset.mem_Ico] at hi
    rcases ht.new ⟨i⟩ hi.2 with hold | ⟨e, he, hid⟩
    . exact absurd hold (Nat.not_lt.2 hi.1)
    . exact ⟨e, hP e he, hid⟩
  have hcard := Finset.card_le_card_of_injOn
    (fun i => t.schema.graph.store.form s.schema.definitions ⟨i⟩)
    (s := Finset.Ico s.schema.graph.store.size t.schema.graph.store.size) (t := hforms.toFinset)
    (fun i hi => ?_) fun i hi j hj hij => ?_
  . rw [Nat.card_Ico] at hcard
    omega
  . obtain ⟨e, he, hid⟩ := hnew hi
    rw [← hid.form_eq] at he
    exact hforms.mem_toFinset.2 he
  . obtain ⟨e, -, hi⟩ := hnew hi
    obtain ⟨e', -, hj⟩ := hnew hj
    dsimp only at hij
    rw [hi.form_eq, hj.form_eq] at hij
    subst hij
    exact congrArg ExprId.index (hi.injective hj)

end Confined

theorem confines_drawn {K : Nat} (hs : s.Sound) (hgr : s.grammar = some gr) (hK : 0 < K)
    (hsize : ∀ e, s.schema.graph.store.Knows s.schema.definitions e → e.size ≤ K) :
    s.Confines gr fun e =>
      s.Proper e ∧ e.Drawn K (s.schema.graph.store.residues s.schema.definitions K) := by
  have hmade (id : ExprId) (hid : Made s.schema.graph.store (Vetted s.schema.graph.store _) id) :=
    And.intro (hid.proper hs.graph.within hs.graph.reduced)
      (Store.Knows.drawn ⟨id, hid.shows hs.graph.within⟩ hsize)
  have hkeeps := keeps_proper hs hgr
  refine ⟨⟨hkeeps.stable.and (Store.stable_drawn hK hsize), ?_, ?_⟩, hmade⟩
  . exact hmade gr.anyContent (Or.inr (.base (hs.grammar gr hgr).anyContent))
  . exact fun e he head hhead => hmade head.content (Or.inr (.base (he.1.declarations.heads head hhead)))

/--
Validation gets by with finitely many expressions, whatever the documents: there are a bound on all
expressions and a finite set of forms such that no events lead to more expressions or to other
forms. Both depend on the expressions and definitions of the grammar only. In particular they are
independent of how many expressions are allowed.
-/
theorem finitely_many_expressions (store : Store) (defs : Definitions) :
    ∃ (bound : Nat) (forms : Set Form), forms.Finite ∧
      ∀ (s : Session) (gr : Grammar), s.Reachable → s.schema.graph.store = store →
        s.schema.definitions = defs → s.grammar = some gr →
        ∀ commands answers t, (∀ c ∈ commands, c.document?.isSome) →
          run commands s = (answers, .ok t) →
          t.schema.graph.store.size ≤ bound ∧
          (∀ id ∈ t.schema.graph.store,
            id ∈ store ∨ ∃ e ∈ forms, t.schema.graph.store.Shows defs id e) ∧
          ∀ (name : String) (v : Validation), t.validations[name]? = some v →
            ∃ v', t.schema.graph.store.ShowsValidation defs v v' ∧ v'.All (· ∈ forms) := by
  obtain ⟨K, hK, hsize⟩ := store.exists_size_le defs
  have hforms := Form.finite_drawn (store.finite_residues defs K) K
  refine ⟨store.size + hforms.toFinset.card, _, hforms, ?_⟩
  rintro s gr hs rfl rfl hgr commands answers t hcommands hrun
  have hdrawn := confines_drawn hs.sound hgr hK hsize
  have ht := (Confined.refl hs.sound hdrawn).run hs.sound hgr hdrawn hcommands hrun
  refine ⟨ht.size_le hforms fun e he => ⟨he.2, he.1.reduced⟩, fun id hid => ?_, fun name v hv => ?_⟩
  . exact (ht.new id hid).imp_right fun ⟨e, he, hid⟩ => ⟨e, ⟨he.2, he.1.reduced⟩, hid⟩
  . obtain ⟨v', hviews, hall⟩ := ht.validations name v hv
    exact ⟨v', hviews.shows, hall.mono fun e he => ⟨he.2, he.1.reduced⟩⟩

/--
Two elements come in any order, over and over again, and there are new expressions at first.
-/
theorem finitely_many_expressions_interleave :
    let tag (label : String) : Event := .startElement { name := ⟨"", label⟩ }
    let commands : List Command := [.createValidation "w", .take "w" (tag "a"), .take "w" (tag "b"),
      .take "w" .endElement, .take "w" (tag "c"), .take "w" .endElement, .take "w" (tag "c"),
      .take "w" .endElement, .createValidation "v", .take "v" (tag "d")]
    ∃ (s t : Session) (gr : Grammar) (answers : List Answer) (bound : Nat) (forms : Set Form),
      s.Reachable ∧ s.grammar = some gr ∧ (∀ c ∈ commands, c.document?.isSome) ∧
      run commands s = (answers, .ok t) ∧
      s.schema.graph.store.size < t.schema.graph.store.size ∧
      t.schema.graph.store.size ≤ bound ∧ forms.Finite ∧
      ∀ (name : String) (v : Validation), t.validations[name]? = some v →
        ∃ v', t.schema.graph.store.ShowsValidation s.schema.definitions v v' ∧ v'.All (· ∈ forms) := by
  intro tag commands
  let element (label : String) : Term := .element (.only ⟨"", label⟩) .anyString
  let either : Term := .interleave (element "b") (element "c")
  obtain ⟨s, hs, hp⟩ := Reachable.of_leadsTo (fun _ => .string)
    [.createGrammar (.element (.only ⟨"", "a"⟩) (.oneOrMore either))]
    (fun s => s.grammar.isSome && match (run commands s).2 with
      | .ok t => s.schema.graph.store.size < t.schema.graph.store.size
      | .error _ => false)
    (by simp [Command.isLawful]) (by decide +kernel)
  simp only [Bool.and_eq_true, Option.isSome_iff_exists] at hp
  obtain ⟨⟨gr, hgr⟩, hok⟩ := hp
  have hcommands : ∀ c ∈ commands, c.document?.isSome := by
    simp [commands, Command.document?]
  split at hok
  . next t hresult =>
    have hrun : run commands s = ((run commands s).1, .ok t) := Prod.ext rfl hresult
    obtain ⟨bound, forms, hforms, hall⟩ :=
      finitely_many_expressions s.schema.graph.store s.schema.definitions
    obtain ⟨hbound, -, hvalidations⟩ := hall s gr hs rfl rfl hgr commands _ t hcommands hrun
    exact ⟨s, t, gr, _, bound, forms, hs, hgr, hcommands, hrun, of_decide_eq_true hok, hbound, hforms,
      hvalidations⟩
  . cases hok

end Session

end TreeGrammar
