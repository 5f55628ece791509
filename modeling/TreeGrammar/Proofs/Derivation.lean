import TreeGrammar.Proofs.Construction
import TreeGrammar.Proofs.Memo

/-!
This module contains the correctness of derivatives: the derivative of an expression by a token
stands for what may follow the token, and it has been put together from parts of the expression.
-/

namespace TreeGrammar

open Relation

def IsQuotient (defs : Definitions) (x : Letter) (t : Store) (id r : ExprId) : Prop :=
  t.language defs r = (t.language defs id).leftQuotient [x]

/--
Each of the references leads to the expression by way of parts.
-/
def OnPath (s : Store) (defs : Definitions) (visiting : List RefId) (id : ExprId) : Prop :=
  ∀ r ∈ visiting, ∃ target, defs.target? r = some target ∧ ReflTransGen (Part s defs) id target

namespace OnPath

variable {s : Store} {defs : Definitions} {visiting : List RefId} {id a : ExprId}

theorem nil : OnPath s defs [] id := by
  simp [OnPath]

theorem part (h : OnPath s defs visiting id) (ha : Part s defs a id) :
    OnPath s defs visiting a := by
  intro r hr
  obtain ⟨target, htarget, hpath⟩ := h r hr
  exact ⟨target, htarget, .head ha hpath⟩

theorem cons {r : RefId} (h : OnPath s defs visiting id) (hn : s.node id = .reference r)
    (ha : defs.target? r = some a) : OnPath s defs (r :: visiting) a := by
  intro q hq
  rcases List.mem_cons.1 hq with rfl | hq
  . exact ⟨a, ha, .refl⟩
  . exact h.part (.target hn ha) q hq

theorem not_mem {r : RefId} (h : OnPath s defs visiting id) (hguarded : Guarded s defs id)
    (hn : s.node id = .reference r) : r ∉ visiting := by
  intro hr
  obtain ⟨target, htarget, hpath⟩ := h r hr
  exact hguarded.not_transGen (.tail' hpath (.target hn htarget))

end OnPath

namespace Graph

variable {defs : Definitions} {g : Graph} {token : Token} {id : ExprId}
variable {matched : Option DeclaredType} {results : Results}

theorem run_lift {α : Type} (work : GraphM α) :
    ((liftM work : DerivationM α).run matched).run results =
      work >>= fun a => pure ((a, matched), results) := by
  simp [liftM, monadLift, MonadLift.monadLift]

theorem run_lift_except {α : Type} (x : Except Fault α) :
    ((liftM x : DerivationM α).run matched).run results =
      (liftM x : GraphM α) >>= fun a => pure ((a, matched), results) := by
  simp [liftM, monadLift, MonadLift.monadLift]

theorem run_bind {α β : Type} (work : DerivationM α) (next : α → DerivationM β) :
    ((work >>= next).run matched).run results =
      (work.run matched).run results >>= fun p => ((next p.1.1).run p.1.2).run p.2 := rfl

def Tests (defs : Definitions) (token : Token) (fits : Definitions → ExprId → GraphM Bool) : Prop :=
  ∀ name value scope, token = .attribute name value scope →
    ∀ (g : Graph) (content : ExprId), g.Sound defs → content ∈ g.store →
      Yields defs g (fits · content) (Fault.Admissible (Guarded g.store defs content)) fun b h =>
        ∀ t, h.store ≤ t → (b = true ↔ t.AcceptsValue defs value scope content)

structure Derived (defs : Definitions) (token : Token) (matched : Option DeclaredType) (s : Store)
    (whole id : ExprId) (p : (ExprId × Option DeclaredType) × Results) (h : Graph) : Prop where
  related : ∀ t, h.store ≤ t → IsQuotient defs token.letter t id p.1.1
  composed : Composed defs s h.store [whole] p.1.1
  noted : token.isText = false → p.1.2 = matched
  results : Consistent defs (IsQuotient defs token.letter) h.store p.2

theorem derived_pure {E : Fault → Prop} {r whole : ExprId} {m : Option DeclaredType} {s : Store}
    (hg : g.Sound defs) (hresults : Consistent defs (IsQuotient defs token.letter) g.store results)
    (hm : token.isText = false → m = matched) (hr : Composed defs s g.store [whole] r)
    (hlanguage : ∀ t, g.store ≤ t →
      (t.language defs id).leftQuotient [token.letter] = t.language defs r) :
    Yields defs g (fun _ => pure ((r, m), results)) E (Derived defs token matched s whole id) :=
  .pure hg ⟨fun t ht => (hlanguage t ht).symm, hr, hm, hresults⟩

theorem derived_lift {whole : ExprId} {m : Option DeclaredType} {s : Store}
    {work : Definitions → GraphM ExprId} (hg : g.Sound defs)
    (hresults : Consistent defs (IsQuotient defs token.letter) g.store results)
    (hm : token.isText = false → m = matched)
    (hwork : Yields defs g work (Fault.Admissible True) fun r h =>
      (∀ t, h.store ≤ t → IsQuotient defs token.letter t id r) ∧
        Composed defs s h.store [whole] r) {p : Prop} :
    Yields defs g (fun defs => work defs >>= fun r => pure ((r, m), results)) (Fault.Admissible p)
      (Derived defs token matched s whole id) := by
  refine Yields.bind (hwork.admissible fun _ => trivial) ?_
  rintro r h hgh hh ⟨hrelated, hcomposed⟩
  exact .pure hh ⟨hrelated, hcomposed, hm, hresults.of_le hg.within (store_le hgh)⟩

theorem Derived.stands {s : Store} {whole : ExprId} {p : (ExprId × Option DeclaredType) × Results}
    {h : Graph} (hp : Derived defs token matched s whole id p h) :
    StandsFor defs s h.store whole (fun t => (t.language defs id).leftQuotient [token.letter]) p.1.1 :=
  ⟨hp.related, hp.composed⟩

theorem derived_of_stands {whole : ExprId} {m : Option DeclaredType} {s : Store} {p : Prop}
    {work : Definitions → GraphM ExprId} {l : Store → Language Letter} (hg : g.Sound defs)
    (hresults : Consistent defs (IsQuotient defs token.letter) g.store results)
    (hm : token.isText = false → m = matched)
    (hwork : Yields defs g work (Fault.Admissible True) fun r h => StandsFor defs s h.store whole l r)
    (hl : ∀ t, g.store ≤ t → (t.language defs id).leftQuotient [token.letter] = l t) :
    Yields defs g (fun defs => work defs >>= fun r => pure ((r, m), results)) (Fault.Admissible p)
      (Derived defs token matched s whole id) := by
  refine derived_lift hg hresults hm (hwork.mono (fun _ hf => hf) fun r h hgh _ hr => ?_)
  refine ⟨fun t ht => ?_, hr.composed⟩
  rw [IsQuotient, hr.language t ht, hl t (le_trans (store_le hgh) ht)]

theorem run_memoized_derivation (work : DerivationM ExprId) :
    ((memoized id work).run matched).run results = match results[id]? with
      | some r => pure ((r, matched), results)
      | none => do
        let p ← (work.run matched).run results
        return (p.1, p.2.insert id p.1.1) := by
  have hget : ((getThe Results : DerivationM Results).run matched).run results =
      pure ((results, matched), results) := rfl
  unfold memoized
  rw [run_bind, hget, pure_bind]
  cases results[id]? with
  | some r => rfl
  | none => rfl

theorem memoized_yields {work : Definitions → DerivationM ExprId} {E : Fault → Prop}
    (hg : g.Sound defs) (hid : id ∈ g.store)
    (hresults : Consistent defs (IsQuotient defs token.letter) g.store results)
    (hwork : Yields defs g (fun defs => ((work defs).run matched).run results) E
      (Derived defs token matched g.store id id)) :
    Yields defs g (fun defs => ((memoized id (work defs)).run matched).run results) E
      (Derived defs token matched g.store id id) := by
  simp only [run_memoized_derivation]
  cases hr : results[id]? with
  | some r =>
    obtain ⟨hrelated, hcomposed⟩ := (hresults id r hr).2
    exact .pure hg ⟨hrelated, hcomposed, fun _ => rfl, hresults⟩
  | none =>
    refine Yields.bind hwork ?_
    intro p h hgh hh hp
    have hid' := Store.mem_of_le (store_le hgh) hid
    have hr := Outcome.rebase ⟨hp.related, hp.composed⟩ hg.within hid (store_le hgh)
    exact .pure hh ⟨hp.related, hp.composed, hp.noted, hp.results.insert hid' hr⟩

section Letters

variable {P : Store → Letter → Prop} {E : Fault → Prop} {whole : ExprId} {s : Store}

theorem derived_misfit (hg : g.Sound defs)
    (hresults : Consistent defs (IsQuotient defs token.letter) g.store results)
    (hletters : ∀ t, g.store ≤ t → ∀ w, w ∈ t.language defs id ↔ ∃ x, P t x ∧ w = [x])
    (hmisfit : ∀ t, g.store ≤ t → ¬ P t token.letter) :
    Yields defs g (fun _ => pure ((.nullSet, matched), results)) E
      (Derived defs token matched s whole id) := by
  refine derived_pure hg hresults (fun _ => rfl) .nullSet ?_
  intro t ht
  rw [Store.language_nullSet]
  exact Language.leftQuotient_of_letters_eq_zero (hletters t ht) (hmisfit t ht)

theorem derived_fit {m : Option DeclaredType} (hg : g.Sound defs)
    (hresults : Consistent defs (IsQuotient defs token.letter) g.store results)
    (hm : token.isText = false → m = matched)
    (hletters : ∀ t, g.store ≤ t → ∀ w, w ∈ t.language defs id ↔ ∃ x, P t x ∧ w = [x])
    (hfit : ∀ t, g.store ≤ t → P t token.letter) :
    Yields defs g (fun _ => pure ((.epsilon, m), results)) E
      (Derived defs token matched s whole id) := by
  refine derived_pure hg hresults hm .epsilon ?_
  intro t ht
  rw [Store.language_epsilon]
  exact Language.leftQuotient_of_letters (hletters t ht) (hfit t ht)

end Letters

section Leaf

variable {fits : Definitions → ExprId → GraphM Bool} {p : Prop} {names : NameClass} {content : ExprId}

theorem deriveLeaf_of_le (hdefs : defs ≤ defs') (fits : ExprId → GraphM Bool) (n : Node) :
    deriveLeaf defs' token fits id n = deriveLeaf defs token fits id n := by
  unfold deriveLeaf Definitions.type
  rw [Definitions.types_eq hdefs]

theorem deriveAnyString_yields (hg : g.Sound defs) (hid : id ∈ g.store)
    (hn : g.store.node id = .anyString)
    (hresults : Consistent defs (IsQuotient defs token.letter) g.store results) :
    Yields defs g (fun _ => pure ((if token.isText then .anyString else .nullSet, matched), results))
      (Fault.Admissible p) (Derived defs token matched g.store id id) := by
  have hlanguage {t : Store} (ht : g.store ≤ t) (w : List Letter) :
      w ∈ (t.language defs id).leftQuotient [token.letter] ↔
        token.isText ∧ w ∈ t.language defs .anyString := by
    rw [Language.mem_leftQuotient, Store.mem_language_of_anyString ((Store.node_of_le ht hid).trans hn),
      Store.mem_language_of_anyString t.node_anyString]
    simp
  refine derived_pure hg hresults (fun _ => rfl) ?_ ?_
  . split
    . exact .anyString
    . exact .nullSet
  . intro t ht
    ext w
    rw [hlanguage ht]
    split
    . next htext => exact and_iff_right htext
    . next htext =>
      rw [Store.language_nullSet]
      exact iff_of_false (fun hw => htext hw.1) (Language.notMem_zero w)

theorem deriveTypedString_yields {number : Nat} (hg : g.Sound defs) (hid : id ∈ g.store)
    (hn : g.store.node id = .typedString number) (fits : ExprId → GraphM Bool)
    (hresults : Consistent defs (IsQuotient defs token.letter) g.store results) :
    Yields defs g
      (fun _ => ((deriveLeaf defs token fits id (.typedString number)).run matched).run results)
      (Fault.Admissible p) (Derived defs token matched g.store id id) := by
  have hletters (t : Store) (ht : g.store ≤ t) (w : List Letter) : w ∈ t.language defs id ↔ _ :=
    Store.mem_language_of_typedString ((Store.node_of_le ht hid).trans hn)
  cases token with
  | text literal scope =>
    dsimp only [deriveLeaf]
    split
    . next haccepts =>
      exact derived_fit hg hresults (by simp [Token.isText]) hletters fun _ _ =>
        ⟨literal, scope, haccepts, rfl⟩
    . next haccepts =>
      refine derived_misfit hg hresults hletters ?_
      rintro _ _ ⟨_, _, h, ⟨⟩⟩
      exact haccepts h
  | _ =>
    refine derived_misfit hg hresults hletters ?_
    rintro _ _ ⟨_, _, _, ⟨⟩⟩

theorem deriveAttribute_yields (hg : g.Sound defs) (hid : id ∈ g.store)
    (hn : g.store.node id = .attribute names content) (hguarded : p → Guarded g.store defs content)
    (hfits : Tests defs token fits)
    (hresults : Consistent defs (IsQuotient defs token.letter) g.store results) :
    Yields defs g (fun defs' =>
        ((deriveLeaf defs token (fits defs') id (.attribute names content)).run matched).run results)
      (Fault.Admissible p) (Derived defs token matched g.store id id) := by
  have hletters (t : Store) (ht : g.store ≤ t) (w : List Letter) : w ∈ t.language defs id ↔ _ :=
    Store.mem_language_of_attribute ((Store.node_of_le ht hid).trans hn)
  cases token with
  | «attribute» name value scope =>
    dsimp only [deriveLeaf]
    split
    . next hname =>
      have hcontent : content ∈ g.store :=
        Store.mem_of_mem_children hid (by simp [hn, Node.children])
      have hfits := (hfits name value scope rfl g content hg hcontent).admissible hguarded
      simp only [run_bind, run_lift, bind_assoc, pure_bind]
      refine Yields.bind hfits ?_
      intro b h hgh hh hb
      have hresults := hresults.of_le hg.within (store_le hgh)
      have hletters (t : Store) (ht : h.store ≤ t) := hletters t (le_trans (store_le hgh) ht)
      split
      . next hvalue =>
        exact derived_fit hh hresults (fun _ => rfl) hletters fun t ht =>
          ⟨name, value, scope, hname, (hb t ht).1 hvalue, rfl⟩
      . next hvalue =>
        refine derived_misfit hh hresults hletters ?_
        rintro t ht ⟨_, _, _, _, haccepts, ⟨⟩⟩
        exact hvalue ((hb t ht).2 haccepts)
    . next hname =>
      refine derived_misfit hg hresults hletters ?_
      rintro _ _ ⟨_, _, _, h, _, ⟨⟩⟩
      exact hname h
  | _ =>
    refine derived_misfit hg hresults hletters ?_
    rintro _ _ ⟨_, _, _, _, _, ⟨⟩⟩

theorem deriveElement_yields (hg : g.Sound defs) (hid : id ∈ g.store)
    (hn : g.store.node id = .element names content)
    (hresults : Consistent defs (IsQuotient defs token.letter) g.store results) :
    Yields defs g
      (fun _ => pure ((if token.satisfies id then .epsilon else .nullSet, matched), results))
      (Fault.Admissible p) (Derived defs token matched g.store id id) := by
  have hletters (t : Store) (ht : g.store ≤ t) (w : List Letter) : w ∈ t.language defs id ↔ _ :=
    Store.mem_language_of_element ((Store.node_of_le ht hid).trans hn)
  split
  . next hsatisfies =>
    exact derived_fit hg hresults (fun _ => rfl) hletters fun _ _ =>
      (token.satisfies_letter id).2 hsatisfies
  . next hsatisfies =>
    exact derived_misfit hg hresults hletters fun _ _ h =>
      hsatisfies ((token.satisfies_letter id).1 h)

theorem deriveLeaf_yields {n : Node} (hg : g.Sound defs) (hid : id ∈ g.store)
    (hn : g.store.node id = n) (hcompound : n.isCompound = false)
    (hreference : ∀ r, n ≠ .reference r) (hfits : Tests defs token fits)
    (hresults : Consistent defs (IsQuotient defs token.letter) g.store results) :
    Yields defs g (fun defs => ((deriveLeaf defs token (fits defs) id n).run matched).run results)
      (Fault.Admissible (Guarded g.store defs id)) (Derived defs token matched g.store id id) := by
  have node {t : Store} (hst : g.store ≤ t) : t.node id = n :=
    (Store.node_of_le hst hid).trans hn
  suffices Yields defs g
      (fun defs' => ((deriveLeaf defs token (fits defs') id n).run matched).run results)
      (Fault.Admissible (Guarded g.store defs id)) (Derived defs token matched g.store id id) from
    this.congr fun defs' hdefs => by rw [deriveLeaf_of_le hdefs]
  cases n with
  | epsilon =>
    refine derived_pure hg hresults (fun _ => rfl) .nullSet ?_
    intro t ht
    rw [Store.language_of_epsilon (node ht), Store.language_nullSet, Language.leftQuotient_one]
  | nullSet =>
    refine derived_pure hg hresults (fun _ => rfl) .nullSet ?_
    intro t ht
    rw [Store.language_of_nullSet (node ht), Store.language_nullSet, Language.leftQuotient_zero]
  | anyString => exact deriveAnyString_yields hg hid hn hresults
  | typedString number => exact deriveTypedString_yields hg hid hn (fits defs) hresults
  | «attribute» names content =>
    refine deriveAttribute_yields hg hid hn (fun h => h.part ?_) hfits hresults
    exact .operand (by simp [hn]) (by simp [hn, Node.children])
  | element names content => exact deriveElement_yields hg hid hn hresults
  | reference r => exact absurd rfl (hreference r)
  | _ => cases hcompound

end Leaf

/--
The work finds the derivative of a part of the expression `whole` in every graph that comes of `g`,
whatever results are remembered by then. It ends with a fault only if `p` does not hold.
-/
def DerivesPart (defs : Definitions) (token : Token) (matched : Option DeclaredType) (p : Prop)
    (g : Graph) (whole id : ExprId) (work : Definitions → DerivationM ExprId) : Prop :=
  ∀ {h : Graph} {m : Option DeclaredType} {results : Results}, g ≤ h → h.Sound defs →
    (token.isText = false → m = matched) →
    Consistent defs (IsQuotient defs token.letter) h.store results →
    Yields defs h (fun defs => ((work defs).run m).run results) (Fault.Admissible p)
      (Derived defs token matched g.store whole id)

section Parts

variable {p : Prop} {a b : ExprId} {work first second : Definitions → DerivationM ExprId}

theorem deriveChoice_yields (hg : g.Sound defs) (hid : id ∈ g.store)
    (hn : g.store.node id = .choice a b) (hfirst : DerivesPart defs token matched p g id a first)
    (hsecond : DerivesPart defs token matched p g id b second)
    (hresults : Consistent defs (IsQuotient defs token.letter) g.store results) :
    Yields defs g (fun defs => ((do
      let da ← first defs
      let db ← second defs
      choice da db : DerivationM ExprId).run matched).run results) (Fault.Admissible p)
      (Derived defs token matched g.store id id) := by
  simp only [run_bind, run_lift]
  refine Yields.bind (hfirst le_rfl hg (fun _ => rfl) hresults) ?_
  rintro ⟨⟨da, m⟩, results⟩ h hgh hh hda
  refine Yields.bind (hsecond hgh hh hda.noted hda.results) ?_
  rintro ⟨⟨db, m⟩, results⟩ k hhk hk hdb
  have hgk := store_le (le_trans hgh hhk)
  have hchoice := StandsFor.binary hg.within hgk hid hk choice_yields
    (hda.stands.of_le (store_le hhk)) hdb.stands
  refine derived_of_stands hk hdb.results hdb.noted hchoice fun t ht => ?_
  have hnode := (Store.node_of_le (le_trans hgk ht) hid).trans hn
  rw [Store.language_of_choice hnode, Language.leftQuotient_add]

theorem deriveSequence_yields (hg : g.Sound defs) (hid : id ∈ g.store)
    (hn : g.store.node id = .sequence a b) (hguarded : p → Guarded g.store defs a)
    (hfirst : DerivesPart defs token matched p g id a first)
    (hsecond : DerivesPart defs token matched p g id b second)
    (hresults : Consistent defs (IsQuotient defs token.letter) g.store results) :
    Yields defs g (fun defs => ((do
      let da ← first defs
      let inFirst ← sequence da b
      if ← isNullable defs a then
        let db ← second defs
        choice inFirst db
      else
        return inFirst : DerivationM ExprId).run matched).run results) (Fault.Admissible p)
      (Derived defs token matched g.store id id) := by
  have haMem : a ∈ g.store := Store.mem_of_mem_children hid (by simp [hn, Node.children])
  have hb {t : Store} (ht : g.store ≤ t) : StandsFor defs g.store t id (·.language defs b) b :=
    .child (by simp [hn, Node.isCompound]) (by simp [hn, Node.children]) ht
  simp only [run_bind, run_lift, bind_assoc, pure_bind]
  refine Yields.bind (hfirst le_rfl hg (fun _ => rfl) hresults) ?_
  rintro ⟨⟨da, m⟩, results⟩ h hgh hh hda
  have hsequence := StandsFor.binary hg.within (store_le hgh) hid hh sequence_yields hda.stands
    (hb (store_le hgh))
  refine Yields.bind (hsequence.admissible fun _ => trivial) ?_
  intro inFirst k hhk hk hinFirst
  have hgk := le_trans hgh hhk
  have hempty := isNullable_yields hk (Store.mem_of_le (store_le hgk) haMem)
  refine Yields.bind (hempty.admissible fun hp => ?_) ?_
  . exact (hguarded hp).of_le (store_le hgk) le_rfl hg.within haMem
  intro c l hkl hl hc
  have hgl := le_trans hgk hkl
  have language {t : Store} (ht : l.store ≤ t) :
      t.language defs id = t.language defs a * t.language defs b :=
    Store.language_of_sequence ((Store.node_of_le (le_trans (store_le hgl) ht) hid).trans hn)
  have hresults := hda.results.of_le hh.within (store_le (le_trans hhk hkl))
  split
  . next hempty =>
    rw [hempty] at hc
    simp only [run_bind, run_lift]
    refine Yields.bind (hsecond hgl hl hda.noted hresults) ?_
    rintro ⟨⟨db, m⟩, results⟩ v hlv hv hdb
    have hchoice := StandsFor.binary hg.within (store_le (le_trans hgl hlv)) hid hv choice_yields
      (hinFirst.of_le (store_le (le_trans hkl hlv))) hdb.stands
    refine derived_of_stands hv hdb.results hdb.noted hchoice fun t ht => ?_
    have hlt := le_trans (store_le hlv) ht
    rw [language hlt, Language.leftQuotient_mul_of_nil_mem ((hc t defs hlt le_rfl).1 rfl)]
  . next hempty =>
    refine derived_pure hl hresults hda.noted (hinFirst.composed.of_le (store_le hkl)) fun t ht => ?_
    rw [language ht, Language.leftQuotient_mul fun h => hempty ((hc t defs ht le_rfl).2 h),
      hinFirst.language t (le_trans (store_le hkl) ht)]

theorem deriveInterleave_yields (hg : g.Sound defs) (hid : id ∈ g.store)
    (hn : g.store.node id = .interleave a b)
    (hfirst : DerivesPart defs token matched p g id a first)
    (hsecond : DerivesPart defs token matched p g id b second)
    (hresults : Consistent defs (IsQuotient defs token.letter) g.store results) :
    Yields defs g (fun defs => ((do
      let da ← first defs
      let inFirst ← interleave da b
      let db ← second defs
      let inSecond ← interleave a db
      choice inFirst inSecond : DerivationM ExprId).run matched).run results) (Fault.Admissible p)
      (Derived defs token matched g.store id id) := by
  have operand {c : ExprId} (hc : c ∈ (g.store.node id).children) {t : Store} (ht : g.store ≤ t) :
      StandsFor defs g.store t id (·.language defs c) c :=
    .child (by simp [hn, Node.isCompound]) hc ht
  have ha {t : Store} (ht : g.store ≤ t) := operand (c := a) (by simp [hn, Node.children]) ht
  have hb {t : Store} (ht : g.store ≤ t) := operand (c := b) (by simp [hn, Node.children]) ht
  simp only [run_bind, run_lift, bind_assoc, pure_bind]
  refine Yields.bind (hfirst le_rfl hg (fun _ => rfl) hresults) ?_
  rintro ⟨⟨da, m⟩, results⟩ h hgh hh hda
  have hinterleave := StandsFor.binary hg.within (store_le hgh) hid hh interleave_yields hda.stands
    (hb (store_le hgh))
  refine Yields.bind (hinterleave.admissible fun _ => trivial) ?_
  intro inFirst k hhk hk hinFirst
  have hgk := le_trans hgh hhk
  refine Yields.bind (hsecond hgk hk hda.noted (hda.results.of_le hh.within (store_le hhk))) ?_
  rintro ⟨⟨db, m⟩, results⟩ l hkl hl hdb
  have hgl := store_le (le_trans hgk hkl)
  have hinterleave := StandsFor.binary hg.within hgl hid hl interleave_yields (ha hgl) hdb.stands
  refine Yields.bind (hinterleave.admissible fun _ => trivial) ?_
  intro inSecond v hlv hv hinSecond
  have hgv := le_trans hgl (store_le hlv)
  have hchoice := StandsFor.binary hg.within hgv hid hv choice_yields
    (hinFirst.of_le (store_le (le_trans hkl hlv))) hinSecond
  refine derived_of_stands hv (hdb.results.of_le hl.within (store_le hlv)) hdb.noted hchoice
    fun t ht => ?_
  have hnode := (Store.node_of_le (le_trans hgv ht) hid).trans hn
  rw [Store.language_of_interleave hnode, Language.leftQuotient_shuffle]

theorem deriveOneOrMore_yields (hg : g.Sound defs) (hid : id ∈ g.store)
    (hn : g.store.node id = .oneOrMore a) (hwork : DerivesPart defs token matched p g id a work)
    (hresults : Consistent defs (IsQuotient defs token.letter) g.store results) :
    Yields defs g (fun defs => ((do
      let da ← work defs
      let more ← zeroOrMore a
      sequence da more : DerivationM ExprId).run matched).run results) (Fault.Admissible p)
      (Derived defs token matched g.store id id) := by
  have ha {t : Store} (ht : g.store ≤ t) : StandsFor defs g.store t id (·.language defs a) a :=
    .child (by simp [hn, Node.isCompound]) (by simp [hn, Node.children]) ht
  simp only [run_bind, run_lift, bind_assoc, pure_bind]
  refine Yields.bind (hwork le_rfl hg (fun _ => rfl) hresults) ?_
  rintro ⟨⟨da, m⟩, results⟩ h hgh hh hda
  have hzeroOrMore := StandsFor.unary hg.within (store_le hgh) hid hh zeroOrMore_yields
    (ha (store_le hgh))
  refine Yields.bind (hzeroOrMore.admissible fun _ => trivial) ?_
  intro more k hhk hk hmore
  have hgk := le_trans (store_le hgh) (store_le hhk)
  have hsequence := StandsFor.binary hg.within hgk hid hk sequence_yields
    (hda.stands.of_le (store_le hhk)) hmore
  refine derived_of_stands hk (hda.results.of_le hh.within (store_le hhk)) hda.noted hsequence
    fun t ht => ?_
  have hnode := (Store.node_of_le (le_trans hgk ht) hid).trans hn
  rw [Store.language_of_oneOrMore hnode, Language.leftQuotient_mul_kstar]

theorem deriveMixed_yields (hg : g.Sound defs) (hid : id ∈ g.store)
    (hn : g.store.node id = .mixed a) (hwork : DerivesPart defs token matched p g id a work)
    (hresults : Consistent defs (IsQuotient defs token.letter) g.store results) :
    Yields defs g (fun defs => ((if token.isText then return id else do
      let da ← work defs
      mixed da : DerivationM ExprId).run matched).run results) (Fault.Admissible p)
      (Derived defs token matched g.store id id) := by
  have language {t : Store} (ht : g.store ≤ t) :
      t.language defs id = Language.mixed (t.language defs a) :=
    Store.language_of_mixed ((Store.node_of_le ht hid).trans hn)
  split
  . next htext =>
    refine derived_pure hg hresults (fun _ => rfl) (.operand le_rfl (by simp)) ?_
    intro t ht
    rw [language ht]
    exact Language.leftQuotient_mixed_of_isText (by simpa using htext)
  . next htext =>
    simp only [run_bind, run_lift]
    refine Yields.bind (hwork le_rfl hg (fun _ => rfl) hresults) ?_
    rintro ⟨⟨da, m⟩, results⟩ h hgh hh hda
    have hmixed := StandsFor.unary hg.within (store_le hgh) hid hh mixed_yields hda.stands
    refine derived_of_stands hh hda.results hda.noted hmixed fun t ht => ?_
    rw [language (le_trans (store_le hgh) ht), Language.leftQuotient_mixed (by simpa using htext)]

end Parts

theorem deriveFrom_yields {fits : Definitions → ExprId → GraphM Bool}
    (hfits : Tests defs token fits) (s : Store) (hwithin : defs.Within s) (visiting : List RefId)
    (id : ExprId) (matched : Option DeclaredType) (results : Results) {g : Graph}
    (hg : g.Sound defs) (hs : s ≤ g.store) (hid : id ∈ s)
    (hresults : Consistent defs (IsQuotient defs token.letter) g.store results) :
    Yields defs g
      (fun defs => ((deriveFrom defs token (fits defs) visiting id).run matched).run results)
      (Fault.Admissible (Guarded s defs id ∧ OnPath s defs visiting id))
      (Derived defs token matched g.store id id) := by
  have hidg := Store.mem_of_le hs hid
  simp only [deriveFrom.eq_def _ _ _ visiting id]
  apply memoized_yields hg hidg hresults
  simp only [run_bind, run_lift, bind_assoc, pure_bind]
  apply Yields.read hidg
  intro n below hn
  have hns := (Store.node_of_le hs hid).symm.trans hn
  have operand {a : ExprId} (ha : a ∈ n.children)
      (helement : ∀ names content, n ≠ .element names content) :
      DerivesPart defs token matched (Guarded s defs id ∧ OnPath s defs visiting id) g id a
        fun defs => deriveFrom defs token (fits defs) visiting a := by
    have hlt := below a ha
    have hpart : Part s defs a id := by
      rw [← hns] at ha helement
      exact .operand helement ha
    intro h m results hgh hh hm hresults
    have hfound := deriveFrom_yields hfits s hwithin visiting a m results hh
      (le_trans hs (store_le hgh)) (hpart.mem hwithin hid) hresults
    refine (hfound.admissible fun h => ⟨h.1.part hpart, h.2.part hpart⟩).mono (fun _ hf => hf) ?_
    intro p k hhk _ hp
    refine ⟨hp.related, hp.composed.trans (store_le hgh) ?_, ?_, hp.results⟩
    . simpa using .part (store_le hgh) List.mem_cons_self (hpart.of_le hs le_rfl hid)
    . intro htext
      exact (hp.noted htext).trans (hm htext)
  cases n with
  | epsilon | nullSet | anyString | typedString | «attribute» | element =>
    refine (deriveLeaf_yields hg hidg hn rfl (by simp) hfits hresults).admissible ?_
    intro hguarded
    exact hguarded.1.of_le hs le_rfl hwithin hid
  | choice a b =>
    exact deriveChoice_yields hg hidg hn (operand (by simp [Node.children]) (by simp))
      (operand (by simp [Node.children]) (by simp)) hresults
  | sequence a b =>
    have haPart : Part s defs a id := .operand (by simp [hns]) (by simp [hns, Node.children])
    refine deriveSequence_yields hg hidg hn (fun hp => ?_)
      (operand (by simp [Node.children]) (by simp)) (operand (by simp [Node.children]) (by simp))
      hresults
    exact (hp.1.part haPart).of_le hs le_rfl hwithin (haPart.mem hwithin hid)
  | interleave a b =>
    exact deriveInterleave_yields hg hidg hn (operand (by simp [Node.children]) (by simp))
      (operand (by simp [Node.children]) (by simp)) hresults
  | oneOrMore a =>
    exact deriveOneOrMore_yields hg hidg hn (operand (by simp [Node.children]) (by simp)) hresults
  | mixed a =>
    exact deriveMixed_yields hg hidg hn (operand (by simp [Node.children]) (by simp)) hresults
  | reference r =>
    dsimp only
    split
    . next hvisited =>
      refine Yields.throw ?_
      rintro ⟨hguarded, honPath⟩
      exact honPath.not_mem hguarded hns hvisited
    . next hnew =>
      simp only [run_bind, run_lift_except, bind_assoc, pure_bind]
      refine Yields.follow (fun defs target =>
        ((deriveFrom defs token (fits defs) (r :: visiting) target).run matched).run results) ?_ ?_
      . rintro hnone ⟨hguarded, -⟩
        have hdefined := hguarded.defined hns
        simp [hnone] at hdefined
      . intro target htarget
        have hpart : Part s defs target id := .target hns htarget
        have hfound := deriveFrom_yields hfits s hwithin (r :: visiting) target matched results hg
          hs (hwithin r target htarget) hresults
        refine (hfound.admissible fun h => ⟨h.1.part hpart, h.2.cons hns htarget⟩).mono
          (fun _ hf => hf) ?_
        intro p h hgh _ hp
        refine ⟨?_, hp.composed.trans le_rfl ?_, hp.noted, hp.results⟩
        . intro t ht
          have hnode := (Store.node_of_le (le_trans (store_le hgh) ht) hidg).trans hn
          unfold IsQuotient
          rw [Store.language_of_reference hnode htarget]
          exact hp.related t ht
        . intro c hc
          rw [List.mem_singleton.1 hc]
          exact .part le_rfl (by simp) (hpart.of_le hs le_rfl hid)
termination_by defs.reach visiting id
decreasing_by
  all_goals first
    | exact Definitions.reach_child_lt hlt
    | exact Definitions.reach_target_lt htarget (by assumption)

theorem derive_yields {fits : Definitions → ExprId → GraphM Bool} (hfits : Tests defs token fits)
    (hg : g.Sound defs) (hid : id ∈ g.store) :
    Yields defs g (fun defs => derive defs token (fits defs) id)
      (Fault.Admissible (Guarded g.store defs id)) fun d h =>
        Outcome defs (IsQuotient defs token.letter) g.store h.store id d.rest ∧
          (token.isText = false → d.matched = none) := by
  have hfrom := deriveFrom_yields hfits g.store hg.within [] id none ∅ hg le_rfl hid .empty
  have hrun (defs : Definitions) : derive defs token (fits defs) id =
      ((deriveFrom defs token (fits defs) [] id).run none).run ∅ >>= fun p =>
        pure { rest := p.1.1, matched := p.1.2 } := by
    unfold derive
    rw [StateT.run'_eq, bind_map_left]
  refine Yields.congr (Yields.bind (hfrom.admissible fun h => ⟨h, .nil⟩) ?_) fun _ _ => hrun _
  intro p h _ hh hp
  exact .pure hh ⟨⟨hp.related, hp.composed⟩, hp.noted⟩

theorem derivesEmpty_yields {value : String} {scope : Scope} (hg : g.Sound defs)
    (hid : id ∈ g.store) :
    Yields defs g (fun defs => do
      let d ← derive defs (.text value scope) (fun _ => return false) id
      isNullable defs d.rest) (Fault.Admissible (Guarded g.store defs id))
      fun b h => ∀ t, h.store ≤ t → (b = true ↔ [.text value scope] ∈ t.language defs id) := by
  have htests : Tests defs (.text value scope) fun _ _ => return false := by
    rintro _ _ _ ⟨⟩
  have hderive := derive_yields htests hg hid
  refine Yields.bind hderive ?_
  rintro d h hgh hh ⟨hd, -⟩
  have hmem := hd.mem hg.within hid (store_le hgh)
  refine ((isNullable_yields hh hmem).admissible ?_).mono (fun _ hf => hf) ?_
  . intro hguarded
    exact hd.composed.guarded hg.within (store_le hgh) (by simp [hid, hguarded])
  . intro b k hhk _ hb t ht
    rw [hb t defs ht le_rfl, hd.related t (le_trans (store_le hhk) ht)]
    rfl

theorem acceptsValue_yields {value : String} {scope : Scope} (hg : g.Sound defs)
    (hid : id ∈ g.store) :
    Yields defs g (acceptsValue · value scope id) (Fault.Admissible (Guarded g.store defs id))
      fun b h => ∀ t, h.store ≤ t → (b = true ↔ t.AcceptsValue defs value scope id) := by
  unfold acceptsValue
  split
  . next hany =>
    refine .pure hg ?_
    intro t _
    refine iff_of_true rfl (Or.inl ?_)
    rw [hany, Store.mem_language_of_anyString t.node_anyString]
    simp [Letter.isText]
  . split
    . next hblank =>
      refine Yields.bind (isNullable_yields hg hid) ?_
      intro b h hgh hh hb
      split
      . next hempty =>
        refine .pure hh ?_
        intro t ht
        exact iff_of_true rfl (Or.inr ⟨hblank, (hb t defs ht le_rfl).1 hempty⟩)
      . next hempty =>
        have hmem := Store.mem_of_le (store_le hgh) hid
        refine ((derivesEmpty_yields hh hmem).admissible ?_).mono (fun _ hf => hf) ?_
        . intro hguarded
          exact hguarded.of_le (store_le hgh) le_rfl hg.within hid
        . intro c k hhk _ hc t ht
          rw [hc t ht]
          refine (or_iff_left ?_).symm
          rintro ⟨_, hnil⟩
          exact hempty ((hb t defs (le_trans (store_le hhk) ht) le_rfl).2 hnil)
    . next hblank =>
      refine (derivesEmpty_yields hg hid).mono (fun _ hf => hf) ?_
      intro c k hhk _ hc t ht
      rw [hc t ht]
      exact (or_iff_left fun h => hblank h.1).symm

theorem tests_acceptsToken : Tests defs token (acceptsToken · token) := by
  rintro name value scope rfl g content hg hcontent
  exact acceptsValue_yields hg hcontent

theorem derivative_apply (x : ExprId) (g : Graph) :
    derivative defs (.element [x]) id g =
      match if g.settings.remembersDerivatives then g.derivatives[(id, x)]? else none with
      | some rest => .ok ({ rest }, g)
      | none => (derive defs (.element [x]) (acceptsToken defs (.element [x])) id g).map fun p =>
          (p.1, if p.2.settings.remembersDerivatives then
            { p.2 with derivatives := p.2.derivatives.insert (id, x) p.1.rest } else p.2) := by
  unfold derivative remembered? remember
  simp only [bind, StateT.bind, get, getThe, MonadStateOf.get, StateT.get, pure, Except.pure,
    Except.bind]
  generalize (if g.settings.remembersDerivatives then g.derivatives[(id, x)]? else none) = known
  cases known with
  | some rest => rfl
  | none =>
    dsimp only [StateT.bind, StateT.pure, bind, pure, Except.bind, Except.pure]
    cases derive defs (.element [x]) (acceptsToken defs (.element [x])) id g with
    | error f => rfl
    | ok p => rfl

theorem derive_of_derivative_eq_error {x : ExprId} {f : Fault}
    (hf : derivative defs (.element [x]) id g = .error f) :
    derive defs (.element [x]) (acceptsToken defs (.element [x])) id g = .error f := by
  rw [derivative_apply] at hf
  split at hf
  . cases hf
  . cases hd : derive defs (.element [x]) (acceptsToken defs (.element [x])) id g with
    | error f' =>
      rw [hd] at hf
      cases hf
      rfl
    | ok p =>
      rw [hd] at hf
      cases hf

theorem derive_of_derivative_eq_ok {x : ExprId} {d : Derivative} {h : Graph}
    (hok : derivative defs (.element [x]) id g = .ok (d, h)) :
    (∃ rest, g.derivatives[(id, x)]? = some rest ∧ d = { rest } ∧ h = g) ∨
      ∃ k, derive defs (.element [x]) (acceptsToken defs (.element [x])) id g = .ok (d, k) ∧
        h = if k.settings.remembersDerivatives then
          { k with derivatives := k.derivatives.insert (id, x) d.rest } else k := by
  rw [derivative_apply] at hok
  split at hok
  . next rest hrest =>
    cases hok
    refine Or.inl ⟨rest, ?_, rfl, rfl⟩
    split at hrest
    . exact hrest
    . cases hrest
  . cases hd : derive defs (.element [x]) (acceptsToken defs (.element [x])) id g with
    | error f =>
      rw [hd] at hok
      cases hok
    | ok p =>
      rw [hd] at hok
      cases hok
      exact Or.inr ⟨p.2, rfl, rfl⟩

theorem Sound.insert_derivative {x rest : ExprId} (hg : g.Sound defs) (hid : id ∈ g.store)
    (hderive : ∀ defs' u, defs ≤ defs' → g ≤ u →
      derive defs' (.element [x]) (acceptsToken defs' (.element [x])) id u = .ok ({ rest }, u)) :
    { g with derivatives := g.derivatives.insert (id, x) rest : Graph }.Sound defs where
  within := hg.within
  normal := hg.normal
  room := hg.room
  nullable := hg.nullable
  derivatives := by
    intro a y found hfound
    dsimp only at hfound
    rw [getElem?_insert] at hfound
    split at hfound
    . next heq =>
      cases heq
      cases hfound
      exact ⟨hid, hderive⟩
    . exact hg.derivatives a y found hfound

/--
Recalling a derivative is as good as taking it.
-/
theorem derivative_returns (hg : g.Sound defs) (hid : id ∈ g.store) :
    Returns defs g (derivative defs token id) (Fault.Admissible (Guarded g.store defs id))
      fun d h => Outcome defs (IsQuotient defs token.letter) g.store h.store id d.rest := by
  have hderive := derive_yields (tests_acceptsToken : Tests defs token _) hg hid
  have hplain := hderive.returns.mono (fun _ hf => hf) fun _ _ _ _ hd => hd.1
  match token with
  | .element [x] =>
    -- where the derivative is remembered, it would be found again without any effect
    have hrecall {rest : ExprId} (hrest : (if g.settings.remembersDerivatives then
        g.derivatives[(id, x)]? else none) = some rest) :
        derive defs (.element [x]) (acceptsToken defs (.element [x])) id g = .ok ({ rest }, g) := by
      split at hrest
      . exact (hg.derivatives id x rest hrest).2 defs g le_rfl le_rfl
      . cases hrest
    refine ⟨?_, ?_, ?_⟩
    . have hforgetful := hplain.forgetful
      have hmiss : (if g.forgetful.settings.remembersDerivatives then
          g.forgetful.derivatives[(id, x)]? else none) = none := rfl
      rw [derivative_apply, derivative_apply, hmiss, hforgetful]
      cases hrest : (if g.settings.remembersDerivatives then
          g.derivatives[(id, x)]? else none) with
      | some rest =>
        rw [hrecall hrest]
        rfl
      | none =>
        cases derive defs (.element [x]) (acceptsToken defs (.element [x])) id g with
        | error f => rfl
        | ok p =>
          obtain ⟨d, h⟩ := p
          cases hremembers : h.settings.remembersDerivatives <;>
            simp [Except.map, Graph.forgetful, hremembers]
    . intro f hf
      exact hplain.error f (derive_of_derivative_eq_error hf)
    . intro d h heq
      obtain ⟨rest, hrest, rfl, rfl⟩ | ⟨k, hd, rfl⟩ := derive_of_derivative_eq_ok heq
      . exact hplain.ok _ _ ((hg.derivatives id x rest hrest).2 defs _ le_rfl le_rfl)
      . obtain ⟨hgk, hk, ⟨hd', hmatched⟩, -⟩ := hderive.ok _ _ hd
        split
        . refine ⟨hgk, hk.insert_derivative (Store.mem_of_le (store_le hgk) hid) ?_, hd'⟩
          intro defs' u hdefs hu
          rw [hderive.again hd hdefs hu, ← hmatched rfl]
        . exact ⟨hgk, hk, hd'⟩
  | .element [] | .element (_ :: _ :: _) | .text .. | .attribute .. | .anyElement => exact hplain

end Graph

end TreeGrammar
