import TreeGrammar.Expr.Discharge
import TreeGrammar.Proofs.Derivation

/-!
This module contains the correctness of discharging attributes: where pending attributes count as
missing, what remains of an expression stands for its words without attributes.
-/

namespace TreeGrammar

namespace Language

open Computability

variable {l m : Language Letter} {w : List Letter}

def bare (l : Language Letter) : Language Letter :=
  ({w | w ∈ l ∧ ∀ x ∈ w, x.isAttribute = false} : Set (List Letter))

theorem mem_bare : w ∈ bare l ↔ w ∈ l ∧ ∀ x ∈ w, x.isAttribute = false := Iff.rfl

theorem bare_eq_self (h : ∀ w ∈ l, ∀ x ∈ w, x.isAttribute = false) : bare l = l := by
  ext w
  rw [mem_bare]
  exact and_iff_left_of_imp (h w)

theorem bare_eq_zero (h : ∀ w ∈ l, ∃ x ∈ w, x.isAttribute = true) : bare l = 0 := by
  ext w
  rw [mem_bare]
  refine iff_of_false ?_ (Language.notMem_zero w)
  rintro ⟨hw, hbare⟩
  obtain ⟨x, hx, hattribute⟩ := h w hw
  rw [hbare x hx] at hattribute
  cases hattribute

theorem bare_zero : bare 0 = 0 :=
  bare_eq_zero fun w hw => absurd hw (Language.notMem_zero w)

theorem bare_add : bare (l + m) = bare l + bare m := by
  ext w
  simp only [Language.mem_add, mem_bare, or_and_right]

theorem bare_mul : bare (l * m) = bare l * bare m := by
  ext w
  simp only [mem_bare, Language.mem_mul]
  constructor
  . rintro ⟨⟨u, hu, v, hv, rfl⟩, hbare⟩
    simp only [List.mem_append] at hbare
    exact ⟨u, ⟨hu, fun x hx => hbare x (Or.inl hx)⟩, v, ⟨hv, fun x hx => hbare x (Or.inr hx)⟩, rfl⟩
  . rintro ⟨u, ⟨hu, hubare⟩, v, ⟨hv, hvbare⟩, rfl⟩
    refine ⟨⟨u, hu, v, hv, rfl⟩, ?_⟩
    intro x hx
    rcases List.mem_append.1 hx with hx | hx
    . exact hubare x hx
    . exact hvbare x hx

theorem bare_kstar : bare (l∗) = (bare l)∗ := by
  ext w
  rw [mem_bare, Language.mem_kstar, Language.mem_kstar]
  constructor
  . rintro ⟨⟨rounds, rfl, hrounds⟩, hbare⟩
    refine ⟨rounds, rfl, ?_⟩
    intro round hround
    refine ⟨hrounds round hround, ?_⟩
    intro x hx
    exact hbare x (List.mem_flatten_of_mem hround hx)
  . rintro ⟨rounds, rfl, hrounds⟩
    refine ⟨⟨rounds, rfl, fun round hround => (hrounds round hround).1⟩, ?_⟩
    intro x hx
    obtain ⟨round, hround, hx⟩ := List.mem_flatten.1 hx
    exact (hrounds round hround).2 x hx

theorem bare_shuffle : bare (shuffle l m) = shuffle (bare l) (bare m) := by
  ext w
  simp only [mem_bare, mem_shuffle]
  constructor
  . rintro ⟨⟨u, hu, v, hv, huv⟩, hbare⟩
    exact ⟨u, ⟨hu, fun x hx => hbare x ((huv.mem_iff x).2 (Or.inl hx))⟩,
      v, ⟨hv, fun x hx => hbare x ((huv.mem_iff x).2 (Or.inr hx))⟩, huv⟩
  . rintro ⟨u, ⟨hu, hubare⟩, v, ⟨hv, hvbare⟩, huv⟩
    refine ⟨⟨u, hu, v, hv, huv⟩, ?_⟩
    intro x hx
    rcases (huv.mem_iff x).1 hx with hx | hx
    . exact hubare x hx
    . exact hvbare x hx

theorem bare_mixed : bare (mixed l) = mixed (bare l) := by
  ext w
  simp only [mem_bare, mem_mixed, List.mem_filter]
  refine and_congr_right fun _ => ?_
  constructor
  . intro hbare x hx
    exact hbare x hx.1
  . intro hbare x hx
    cases x with
    | «attribute» => exact hbare _ ⟨hx, rfl⟩
    | _ => rfl

end Language

theorem Store.isAttribute_eq_false {s : Store} {defs : Definitions} {id : ExprId} {w : List Letter}
    {x : Letter} (hleaf : (s.node id).isCompound = false)
    (hattribute : ∀ names content, s.node id ≠ .attribute names content)
    (hreference : ∀ r, s.node id ≠ .reference r) (hw : w ∈ s.language defs id) (hx : x ∈ w) :
    x.isAttribute = false := by
  cases hn : s.node id with
  | epsilon =>
    rw [language_of_epsilon hn, Language.mem_one] at hw
    simp [hw] at hx
  | nullSet =>
    rw [language_of_nullSet hn] at hw
    exact absurd hw (Language.notMem_zero w)
  | anyString =>
    have htext := (mem_language_of_anyString hn).1 hw x hx
    cases x with
    | text => rfl
    | _ => cases htext
  | typedString type =>
    obtain ⟨_, ⟨_, _, _, rfl⟩, rfl⟩ := (mem_language_of_typedString hn).1 hw
    rw [List.mem_singleton.1 hx]
    rfl
  | element names content =>
    obtain ⟨y, hy, rfl⟩ := (mem_language_of_element hn).1 hw
    rw [List.mem_singleton.1 hx]
    cases y with
    | element => rfl
    | _ => cases hy
  | «attribute» names content => exact absurd hn (hattribute names content)
  | reference r => exact absurd hn (hreference r)
  | choice | sequence | interleave | oneOrMore | mixed => simp [hn, Node.isCompound] at hleaf

namespace Graph

open Computability

variable {defs : Definitions} {g : Graph} {id : ExprId} {results : Results} {s : Store}
variable {p : Prop} {pending : Pending}

def IsBare (defs : Definitions) (p : Prop) (t : Store) (id r : ExprId) : Prop :=
  p → t.language defs r = Language.bare (t.language defs id)

structure Discharged (defs : Definitions) (p : Prop) (s : Store) (whole id : ExprId)
    (q : ExprId × Results) (h : Graph) : Prop where
  related : ∀ t, h.store ≤ t → IsBare defs p t id q.1
  composed : Composed defs s h.store [whole] q.1
  results : Consistent defs (IsBare defs p) h.store q.2

theorem discharged_rebuild {E : Prop} {same : Prop} [Decidable same] {work : GraphM ExprId}
    {whole : ExprId} (hg : g.Sound defs) (hresults : Consistent defs (IsBare defs p) g.store results)
    (hkept : Composed defs s g.store [whole] id)
    (hsame : same → ∀ t, g.store ≤ t → IsBare defs p t id id)
    (hwork : Returns defs g work (Fault.Admissible True) fun r h =>
      (∀ t, h.store ≤ t → IsBare defs p t id r) ∧ Composed defs s h.store [whole] r) :
    Returns defs g ((if same then pure id else liftM work : MemoM ExprId).run results)
      (Fault.Admissible E) (Discharged defs p s whole id) := by
  split
  . next h => exact .pure hg ⟨hsame h, hkept, hresults⟩
  . rw [run_lift_memo]
    refine Returns.bind (hwork.admissible fun _ => trivial) ?_
    rintro r h hgh hh ⟨hrelated, hcomposed⟩
    exact .pure hh ⟨hrelated, hcomposed, hresults.of_le hg.within (store_le hgh)⟩

theorem dischargeBinary_returns {a b : ExprId} {E : Prop} {first second : MemoM ExprId}
    {op : ExprId → ExprId → GraphM ExprId}
    {f : Language Letter → Language Letter → Language Letter}
    (hop : ∀ {g : Graph} {a b : ExprId}, g.Sound defs → a ∈ g.store → b ∈ g.store →
      Yields defs g (fun _ => op a b) (Fault.Admissible True) fun r h =>
        (∀ t, h.store ≤ t → t.language defs r = f (t.language defs a) (t.language defs b)) ∧
          Composed defs g.store h.store [a, b] r)
    (hbare : ∀ l m, Language.bare (f l m) = f (Language.bare l) (Language.bare m))
    (hg : g.Sound defs) (hid : id ∈ g.store)
    (hlanguage : ∀ t, g.store ≤ t →
      t.language defs id = f (t.language defs a) (t.language defs b))
    (hfirst : Returns defs g (first.run results) (Fault.Admissible E)
      (Discharged defs p g.store id a))
    (hsecond : ∀ h results, g ≤ h → h.Sound defs → Consistent defs (IsBare defs p) h.store results →
      Returns defs h (second.run results) (Fault.Admissible E)
        (Discharged defs p g.store id b)) :
    Returns defs g ((do
      let a' ← first
      let b' ← second
      if a' = a ∧ b' = b then return id else op a' b' : MemoM ExprId).run results)
      (Fault.Admissible E) (Discharged defs p g.store id id) := by
  simp only [StateT.run_bind]
  refine Returns.bind hfirst ?_
  rintro ⟨a', results⟩ h hgh hh ⟨ha, haComposed, hresults⟩
  refine Returns.bind (hsecond h results hgh hh hresults) ?_
  rintro ⟨b', results⟩ k hhk hk ⟨hb, hbComposed, hresults⟩
  have hgk := le_trans hgh hhk
  have haMem := haComposed.mem hg.within (store_le hgh) (by simpa using hid)
  have hbMem := hbComposed.mem hg.within (store_le hgk) (by simpa using hid)
  have hbareId {t : Store} (ht : k.store ≤ t) (hp : p) :
      f (t.language defs a') (t.language defs b') = Language.bare (t.language defs id) := by
    rw [hlanguage t (le_trans (store_le hgk) ht), hbare, ← ha t (le_trans (store_le hhk) ht) hp,
      ← hb t ht hp]
  refine discharged_rebuild hk hresults (.operand (store_le hgk) List.mem_cons_self) ?_ ?_
  . rintro ⟨rfl, rfl⟩ t ht hp
    rw [← hbareId ht hp]
    exact hlanguage t (le_trans (store_le hgk) ht)
  . have hwork := hop hk (Store.mem_of_le (store_le hhk) haMem) hbMem
    refine hwork.returns.mono (fun _ hf => hf) ?_
    rintro r l hkl _ ⟨hr, hrComposed⟩
    refine ⟨?_, hrComposed.trans (store_le hgk) ?_⟩
    . intro t ht hp
      rw [← hbareId (le_trans (store_le hkl) ht) hp]
      exact hr t ht
    . simp [haComposed.of_le (store_le hhk), hbComposed]

theorem dischargeUnary_returns {a : ExprId} {E : Prop} {work : MemoM ExprId}
    {op : ExprId → GraphM ExprId} {f : Language Letter → Language Letter}
    (hop : ∀ {g : Graph} {a : ExprId}, g.Sound defs → a ∈ g.store →
      Yields defs g (fun _ => op a) (Fault.Admissible True) fun r h =>
        (∀ t, h.store ≤ t → t.language defs r = f (t.language defs a)) ∧
          Composed defs g.store h.store [a] r)
    (hbare : ∀ l, Language.bare (f l) = f (Language.bare l))
    (hg : g.Sound defs) (hid : id ∈ g.store)
    (hlanguage : ∀ t, g.store ≤ t → t.language defs id = f (t.language defs a))
    (hwork : Returns defs g (work.run results) (Fault.Admissible E)
      (Discharged defs p g.store id a)) :
    Returns defs g ((do
      let a' ← work
      if a' = a then return id else op a' : MemoM ExprId).run results)
      (Fault.Admissible E) (Discharged defs p g.store id id) := by
  simp only [StateT.run_bind]
  refine Returns.bind hwork ?_
  rintro ⟨a', results⟩ h hgh hh ⟨ha, haComposed, hresults⟩
  have haMem := haComposed.mem hg.within (store_le hgh) (by simpa using hid)
  have hbareId {t : Store} (ht : h.store ≤ t) (hp : p) :
      f (t.language defs a') = Language.bare (t.language defs id) := by
    rw [hlanguage t (le_trans (store_le hgh) ht), hbare, ← ha t ht hp]
  refine discharged_rebuild hh hresults (.operand (store_le hgh) List.mem_cons_self) ?_ ?_
  . rintro rfl t ht hp
    rw [← hbareId ht hp]
    exact hlanguage t (le_trans (store_le hgh) ht)
  . refine (hop hh haMem).returns.mono (fun _ hf => hf) ?_
    rintro r l hhl _ ⟨hr, hrComposed⟩
    refine ⟨?_, hrComposed.trans (store_le hgh) (by simpa using haComposed)⟩
    intro t ht hp
    rw [← hbareId (le_trans (store_le hhl) ht) hp]
    exact hr t ht

theorem Discharged.reference {r : RefId} {target target' : ExprId} {h : Graph}
    (hq : Discharged defs p s target target (target', results) h) (hs : s ≤ h.store) (hid : id ∈ s)
    (hn : s.node id = .reference r) (htarget : defs.target? r = some target) :
    Discharged defs p s id id (if target' = target then id else target', results) h := by
  have language {t : Store} (ht : h.store ≤ t) : t.language defs id = t.language defs target :=
    Store.language_of_reference ((Store.node_of_le (le_trans hs ht) hid).trans hn) htarget
  refine ⟨?_, ?_, hq.results⟩
  . intro t ht hp
    have hbare := hq.related t ht hp
    rw [language ht]
    split
    . next hsame =>
      rw [language ht, ← hbare, hsame]
    . exact hbare
  . split
    . exact .operand hs List.mem_cons_self
    . refine hq.composed.trans le_rfl ?_
      simpa using Composed.part le_rfl List.mem_cons_self (Part.target hn htarget)

theorem Discharged.plain (hid : id ∈ g.store) (hleaf : (g.store.node id).isCompound = false)
    (hattribute : ∀ names content, g.store.node id ≠ .attribute names content)
    (hreference : ∀ r, g.store.node id ≠ .reference r)
    (hresults : Consistent defs (IsBare defs p) g.store results) :
    Discharged defs p g.store id id (id, results) g := by
  refine ⟨fun t ht _ => (Language.bare_eq_self fun w hw x hx => ?_).symm,
    .operand le_rfl List.mem_cons_self, hresults⟩
  rw [← Store.node_of_le ht hid] at hleaf hattribute hreference
  exact Store.isAttribute_eq_false hleaf hattribute hreference hw hx

theorem Discharged.attribute {names : NameClass} {content : ExprId} (hp : p → pending = .missing)
    (hid : id ∈ g.store) (hn : g.store.node id = .attribute names content)
    (hresults : Consistent defs (IsBare defs p) g.store results) :
    Discharged defs p g.store id id (pending.replacement, results) g := by
  refine ⟨?_, ?_, hresults⟩
  . intro t ht hp'
    rw [hp hp']
    refine Store.language_nullSet.trans (Language.bare_eq_zero ?_).symm
    intro w hw
    obtain ⟨_, ⟨_, _, _, _, _, rfl⟩, rfl⟩ :=
      (Store.mem_language_of_attribute ((Store.node_of_le ht hid).trans hn)).1 hw
    simp [Letter.isAttribute]
  . cases pending with
    | missing => exact .nullSet
    | granted => exact .epsilon

theorem Discharged.of_part {a : ExprId} {h : Graph} {work : GraphM (ExprId × Results)}
    (hs : s ≤ g.store) (hgh : g ≤ h) (hid : id ∈ s) (hpart : Part s defs a id)
    (hwork : Returns defs h work (Fault.Admissible (Guarded s defs a))
      (Discharged defs p h.store a a)) :
    Returns defs h work (Fault.Admissible (Guarded s defs id)) (Discharged defs p g.store id a) := by
  refine (hwork.admissible fun hguarded => hguarded.part hpart).mono (fun _ hf => hf) ?_
  intro q k _ _ hq
  refine ⟨hq.related, hq.composed.trans (store_le hgh) ?_, hq.results⟩
  simpa using Composed.part (store_le hgh) List.mem_cons_self (hpart.of_le hs le_rfl hid)

/--
A reference that is being followed already is not met on a path of guarded references.
-/
theorem dischargeReference_returns {r : RefId} {visiting : List RefId}
    (work : ∀ target, defs.target? r = some target → r ∉ visiting → MemoM ExprId)
    (hg : g.Sound defs) (hs : s ≤ g.store) (hid : id ∈ s) (hn : s.node id = .reference r)
    (hpath : p → Guarded s defs id ∧ OnPath s defs visiting id)
    (hresults : Consistent defs (IsBare defs p) g.store results)
    (hwork : ∀ target (htarget : defs.target? r = some target) (hnew : r ∉ visiting),
      Returns defs g ((work target htarget hnew).run results)
        (Fault.Admissible (Guarded s defs target)) (Discharged defs p g.store target target)) :
    Returns defs g ((if hnew : r ∈ visiting then return id else do
      let ⟨target, hdefined⟩ ← defs.follow r
      let target' ← work target hdefined hnew
      return if target' = target then id else target' : MemoM ExprId).run results)
      (Fault.Admissible (Guarded s defs id)) (Discharged defs p g.store id id) := by
  have hidg := Store.mem_of_le hs hid
  have hng := (Store.node_of_le hs hid).trans hn
  split
  . next hvisited =>
    refine .pure hg ⟨?_, .operand le_rfl List.mem_cons_self, hresults⟩
    intro t _ hp
    obtain ⟨hguarded, honPath⟩ := hpath hp
    exact absurd hvisited (honPath.not_mem hguarded hn)
  . next hnew =>
    rw [StateT.run_bind, run_lift_except_memo, bind_assoc]
    refine Returns.follow ?_ ?_
    . intro hnone hguarded
      have hdefined := hguarded.defined hn
      simp [hnone] at hdefined
    . intro target htarget
      rw [pure_bind, StateT.run_bind]
      refine Returns.bind ((hwork target htarget hnew).admissible fun h =>
        h.part (.target hn htarget)) ?_
      rintro ⟨target', results⟩ h hgh hh hq
      exact .pure hh (hq.reference (store_le hgh) hidg hng htarget)

theorem dischargeFrom_returns (hp : p → pending = .missing) (s : Store) (hwithin : defs.Within s)
    (visiting : List RefId) (id : ExprId) (results : Results) {g : Graph} (hg : g.Sound defs)
    (hs : s ≤ g.store) (hid : id ∈ s)
    (hpath : p → Guarded s defs id ∧ OnPath s defs visiting id)
    (hresults : Consistent defs (IsBare defs p) g.store results) :
    Returns defs g ((dischargeFrom defs pending visiting id).run results)
      (Fault.Admissible (Guarded s defs id)) (Discharged defs p g.store id id) := by
  have hidg := Store.mem_of_le hs hid
  rw [dischargeFrom]
  refine (memoized_returns hg hidg hresults ?_).mono (fun _ hf => hf)
    fun _ _ _ _ hq => ⟨hq.1.related, hq.1.composed, hq.2⟩
  suffices hfound : Returns defs g _ (Fault.Admissible (Guarded s defs id))
      (Discharged defs p g.store id id) from
    hfound.mono (fun _ hf => hf) fun _ _ _ _ hq => ⟨⟨hq.related, hq.composed⟩, hq.results⟩
  simp only [StateT.run_bind, run_lift_memo, bind_assoc, pure_bind]
  apply Returns.read
  intro n below hn
  have hns : s.node id = n := (Store.node_of_le hs hid).symm.trans hn
  have node {t : Store} (hst : g.store ≤ t) : t.node id = n :=
    (Store.node_of_le hst hidg).trans hn
  have operand {a : ExprId} (ha : a ∈ n.children)
      (helement : ∀ names content, n ≠ .element names content) (h : Graph) (results : Results)
      (hgh : g ≤ h) (hh : h.Sound defs)
      (hresults : Consistent defs (IsBare defs p) h.store results) :
      Returns defs h ((dischargeFrom defs pending visiting a).run results)
        (Fault.Admissible (Guarded s defs id)) (Discharged defs p g.store id a) := by
    have hlt := below a ha
    have hpart : Part s defs a id := by
      rw [← hns] at ha helement
      exact .operand helement ha
    exact Discharged.of_part hs hgh hid hpart (dischargeFrom_returns hp s hwithin visiting a results hh
      (le_trans hs (store_le hgh)) (hpart.mem hwithin hid)
      (fun hp => ⟨(hpath hp).1.part hpart, (hpath hp).2.part hpart⟩) hresults)
  cases n with
  | epsilon | nullSet | anyString | typedString | element =>
    exact .pure hg (.plain hidg (by rw [hn]; rfl) (by simp [hn]) (by simp [hn]) hresults)
  | «attribute» names content => exact .pure hg (.attribute hp hidg hn hresults)
  | choice a b =>
    exact dischargeBinary_returns choice_yields (fun _ _ => Language.bare_add) hg hidg
      (fun t ht => Store.language_of_choice (node ht))
      (operand (by simp [Node.children]) (by simp) g results le_rfl hg hresults)
      (operand (by simp [Node.children]) (by simp))
  | sequence a b =>
    exact dischargeBinary_returns sequence_yields (fun _ _ => Language.bare_mul) hg hidg
      (fun t ht => Store.language_of_sequence (node ht))
      (operand (by simp [Node.children]) (by simp) g results le_rfl hg hresults)
      (operand (by simp [Node.children]) (by simp))
  | interleave a b =>
    exact dischargeBinary_returns interleave_yields (fun _ _ => Language.bare_shuffle) hg hidg
      (fun t ht => Store.language_of_interleave (node ht))
      (operand (by simp [Node.children]) (by simp) g results le_rfl hg hresults)
      (operand (by simp [Node.children]) (by simp))
  | oneOrMore a =>
    refine dischargeUnary_returns (f := fun l => l * l∗) oneOrMore_yields ?_ hg hidg
      (fun t ht => Store.language_of_oneOrMore (node ht))
      (operand (by simp [Node.children]) (by simp) g results le_rfl hg hresults)
    intro l
    rw [Language.bare_mul, Language.bare_kstar]
  | mixed a =>
    exact dischargeUnary_returns mixed_yields (fun _ => Language.bare_mixed) hg hidg
      (fun t ht => Store.language_of_mixed (node ht))
      (operand (by simp [Node.children]) (by simp) g results le_rfl hg hresults)
  | reference r =>
    refine dischargeReference_returns
      (fun target _ _ => dischargeFrom defs pending (r :: visiting) target)
      hg hs hid hns hpath hresults ?_
    intro target htarget hnew
    have hpart : Part s defs target id := .target hns htarget
    exact dischargeFrom_returns hp s hwithin (r :: visiting) target results hg hs
      (hwithin r target htarget)
      (fun hp => ⟨(hpath hp).1.part hpart, (hpath hp).2.cons hns htarget⟩) hresults
termination_by defs.reach visiting id
decreasing_by
  all_goals first
    | exact Definitions.reach_child_lt hlt
    | exact Definitions.reach_target_lt htarget (by assumption)

end Graph

end TreeGrammar
