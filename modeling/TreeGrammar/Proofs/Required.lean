import TreeGrammar.Expr.Required
import TreeGrammar.Proofs.Memo
import TreeGrammar.Proofs.Nullability
import TreeGrammar.Proofs.Construction

/-!
This module contains what the search for the attributes that an expression demands comes down to: an
answer at once, the search through another expression, or the searches through two operands. It goes
wrong if the null set is somewhere in the expression, other than in an attribute or an element.
-/

namespace TreeGrammar

open Relation

/--
`Exposes s defs a id` says that `a` is one step into `id`, and not into an attribute or into the
content of an element.
-/
def Exposes (s : Store) (defs : Definitions) (a id : ExprId) : Prop :=
  Part s defs a id ∧ ∀ names content, s.node id ≠ .attribute names content

/--
The null set is in the expression, and not only in attributes and the contents of elements.
-/
def ExposesNullSet (s : Store) (defs : Definitions) (id : ExprId) : Prop :=
  ∃ z, ReflTransGen (Exposes s defs) z id ∧ s.node z = .nullSet

structure Searched (s : Store) (defs : Definitions) (visiting : List RefId) (results : Results)
    (t : Store) : Prop where
  composed : ∀ i r : ExprId, results[i]? = some r → Composed defs s t [i] r
  ne : ∀ i ∈ results, s.node i ≠ .nullSet
  parts : ∀ i ∈ results, ∀ a, Exposes s defs a i → a ∈ results ∨ ∃ q ∈ visiting, defs.target? q = some a

variable {s t u : Store} {defs : Definitions} {visiting : List RefId} {results : Results}
variable {id a r : ExprId}

theorem Exposes.of_isCompound (hn : (s.node id).isCompound) (ha : a ∈ (s.node id).children) :
    Exposes s defs a id := by
  refine ⟨(Part.iff_of_isCompound hn).2 ha, ?_⟩
  intro names content hn'
  simp [hn', Node.isCompound] at hn

theorem Exposes.target {q : RefId} (h : Exposes s defs a id) (hn : s.node id = .reference q) :
    defs.target? q = some a := by
  obtain ⟨⟨_, ha⟩ | ⟨hn', htarget⟩, _⟩ := h
  . simp [hn, Node.children] at ha
  . rw [hn] at hn'
    cases hn'
    exact htarget

theorem Exposes.ne_nullSet (h : Exposes s defs a id) : s.node id ≠ .nullSet := by
  intro hn
  refine absurd h.1 (Part.not_of_children_eq_nil ?_ ?_)
  . rw [hn]
    rfl
  . simp [hn]

theorem ExposesNullSet.part (h : ExposesNullSet s defs a) (ha : Exposes s defs a id) :
    ExposesNullSet s defs id := by
  obtain ⟨z, hz, hn⟩ := h
  exact ⟨z, hz.tail ha, hn⟩

namespace Searched

theorem empty : Searched s defs visiting ∅ t := by
  refine ⟨?_, ?_, ?_⟩
  . intro i r h
    simp at h
  . intro i h
    simp at h
  . intro i h
    simp at h

theorem of_le (h : Searched s defs visiting results t) (htu : t ≤ u) :
    Searched s defs visiting results u where
  composed i r hr := (h.composed i r hr).of_le htu
  ne := h.ne
  parts := h.parts

theorem cons {q : RefId} (h : Searched s defs visiting results t) :
    Searched s defs (q :: visiting) results t where
  composed := h.composed
  ne := h.ne
  parts := by
    intro i hi a ha
    refine (h.parts i hi a ha).imp_right ?_
    rintro ⟨p, hp, htarget⟩
    exact ⟨p, List.mem_cons_of_mem _ hp, htarget⟩

theorem of_cons {q : RefId} (h : Searched s defs (q :: visiting) results t)
    (hq : defs.target? q = some a) (ha : a ∈ results) : Searched s defs visiting results t where
  composed := h.composed
  ne := h.ne
  parts := by
    intro i hi b hb
    rcases h.parts i hi b hb with hb | ⟨p, hp, htarget⟩
    . exact Or.inl hb
    . rcases List.mem_cons.1 hp with rfl | hp
      . obtain rfl := Option.some.inj (hq.symm.trans htarget)
        exact Or.inl ha
      . exact Or.inr ⟨p, hp, htarget⟩

theorem insert (h : Searched s defs visiting results t) (hr : Composed defs s t [id] r)
    (hid : s.node id ≠ .nullSet)
    (hparts : ∀ a, Exposes s defs a id → a ∈ results ∨ ∃ q ∈ visiting, defs.target? q = some a) :
    Searched s defs visiting (results.insert id r) t where
  composed := forall_getElem?_insert h.composed hr
  ne := by
    intro i hi
    rcases Std.TreeMap.mem_insert.1 hi with hi | hi
    . rw [← Std.LawfulEqOrd.eq_of_compare hi]
      exact hid
    . exact h.ne i hi
  parts := by
    intro i hi a ha
    rw [Std.TreeMap.mem_insert, or_assoc]
    refine Or.inr ?_
    rcases Std.TreeMap.mem_insert.1 hi with hi | hi
    . rw [← Std.LawfulEqOrd.eq_of_compare hi] at ha
      exact hparts a ha
    . exact h.parts i hi a ha

theorem not_exposesNullSet (h : Searched s defs [] results t) (hid : id ∈ results) :
    ¬ ExposesNullSet s defs id := by
  rintro ⟨z, hz, hn⟩
  suffices hz : z ∈ results from h.ne z hz hn
  clear hn
  induction hz using ReflTransGen.head_induction_on with
  | refl => exact hid
  | head hab _ ih =>
    rcases h.parts _ ih _ hab with ha | ⟨q, hq, _⟩
    . exact ha
    . cases hq

end Searched

namespace Graph

variable {g : Graph}

inductive Junction where
  | every
  | either

/--
What there is to be found out for an expression.
-/
inductive Inquiry where
  | fault (f : Fault)
  | answer (r : ExprId)
  | other (visiting : List RefId) (a : ExprId)
  | operands (j : Junction) (a b : ExprId)

def Junction.conclude (defs : Definitions) (p q : ExprId) : Junction → GraphM ExprId
  | .every => do
    if !(← isNullable defs p) then
      return p
    else if !(← isNullable defs q) then
      return q
    else
      return .epsilon
  | .either => do
    if ← isNullable defs p then
      return .epsilon
    else if ← isNullable defs q then
      return .epsilon
    else
      choice p q

def inquiry (defs : Definitions) (visiting : List RefId) (id : ExprId) : Node → Inquiry
  | .nullSet => .fault .attributesOfNullSet
  | .epsilon | .anyString | .typedString _ | .element .. => .answer .epsilon
  | .attribute .. => .answer id
  | .oneOrMore a | .mixed a => .other visiting a
  | .sequence a b | .interleave a b => .operands .every a b
  | .choice a b => .operands .either a b
  | .reference r =>
    if r ∈ visiting then .answer .epsilon
    else match defs.target? r with
      | none => .fault (.undefinedReference (defs.name r))
      | some target => .other (r :: visiting) target

def pursue (defs : Definitions) (visiting : List RefId) : Inquiry → MemoM ExprId
  | .fault f => throw f
  | .answer r => return r
  | .other visiting a => requiredFrom defs visiting a
  | .operands j a b => do
    let p ← requiredFrom defs visiting a
    let q ← requiredFrom defs visiting b
    j.conclude defs p q

theorem requiredFrom_eq (defs : Definitions) (visiting : List RefId) (id : ExprId) :
    requiredFrom defs visiting id = memoized id (do
      let ⟨n, _⟩ ← Graph.read id
      pursue defs visiting (inquiry defs visiting id n)) := by
  rw [requiredFrom]
  refine congrArg _ (bind_congr fun p => ?_)
  obtain ⟨n, below⟩ := p
  cases n with
  | reference r =>
    dsimp only [inquiry]
    split
    . rfl
    . next hr =>
      split
      . next hnone =>
        rw [Definitions.follow_of_target?_eq_none hnone]
        rfl
      . next target hsome =>
        rw [Definitions.follow_of_target? hsome]
        rfl
  | choice a b | sequence a b | interleave a b =>
    dsimp only [inquiry, pursue, Junction.conclude]
    refine bind_congr fun _ => bind_congr fun _ => ?_
    simp only [liftM_bind]
    refine bind_congr fun _ => ?_
    split
    . rfl
    . rw [liftM_bind]
      refine bind_congr fun _ => ?_
      split <;> rfl
  | _ => rfl

def Demanding (s : Store) (defs : Definitions) (id : ExprId) (f : Fault) : Prop :=
  f.Admissible (Guarded s defs id) ∨ f = .attributesOfNullSet ∧ ExposesNullSet s defs id

structure SearchesOn (s : Store) (defs : Definitions) (visiting : List RefId) (before : Results)
    (id : ExprId) (p : ExprId × Results) (h : Graph) : Prop where
  composed : Composed defs s h.store [id] p.1
  searched : Searched s defs visiting p.2 h.store
  keeps : ∀ i ∈ before, i ∈ p.2

theorem Demanding.part {f : Fault} (h : Demanding s defs a f) (ha : Exposes s defs a id) :
    Demanding s defs id f := by
  rcases h with h | ⟨heq, h⟩
  . exact Or.inl (h.mono fun hid => hid.part ha.1)
  . exact Or.inr ⟨heq, h.part ha⟩

def Concludes (s : Store) (defs : Definitions) (id : ExprId) (g : Graph) (rest : MemoM ExprId) :
    Prop :=
  ∀ results, Returns defs g (rest.run results) (Demanding s defs id) fun p h =>
    Composed defs s h.store [id] p.1 ∧ p.2 = results

theorem Concludes.pure (hg : g.Sound defs) (hr : Composed defs s g.store [id] r) :
    Concludes s defs id g (pure r) :=
  fun _ => .pure hg ⟨hr, rfl⟩

section Concludes

variable (hwithin : defs.Within s) (hs : s ≤ g.store) (hid : id ∈ s) (hg : g.Sound defs)

include hwithin hs hid hg

theorem Concludes.test {rest : Bool → MemoM ExprId} (ha : Composed defs s g.store [id] a)
    (hrest : ∀ b h, g ≤ h → h.Sound defs → Concludes s defs id h (rest b)) :
    Concludes s defs id g (do rest (← isNullable defs a)) := by
  have hmem : a ∈ g.store := ha.mem hwithin hs (by simpa using hid)
  have htest := (isNullable_yields hg hmem).returns.admissible (q := Guarded s defs id) fun hguarded =>
    ha.guarded hwithin hs (by simpa using ⟨hid, hguarded⟩)
  intro results
  rw [StateT.run_bind, run_lift_memo, bind_assoc]
  refine Returns.bind (htest.mono (fun _ hf => Or.inl hf) fun _ _ _ _ h => h) ?_
  intro b h hgh hh _
  exact hrest b h hgh hh results

theorem Concludes.choice {b : ExprId} (ha : Composed defs s g.store [id] a)
    (hb : Composed defs s g.store [id] b) :
    Concludes s defs id g (liftM (Graph.choice a b)) := by
  have hmem {c : ExprId} (hc : Composed defs s g.store [id] c) : c ∈ g.store :=
    hc.mem hwithin hs (by simpa using hid)
  have hchoice := (choice_yields hg (hmem ha) (hmem hb)).returns
  intro results
  rw [run_lift_memo]
  refine Returns.bind (hchoice.mono (fun _ hf => Or.inl (hf.mono fun _ => trivial))
    fun _ _ _ _ h => h) ?_
  rintro c h _ hh ⟨_, hc⟩
  refine .pure hh ⟨hc.trans hs ?_, rfl⟩
  simpa using ⟨ha, hb⟩

theorem Concludes.conclude {p q : ExprId} (j : Junction) (hp : Composed defs s g.store [id] p)
    (hq : Composed defs s g.store [id] q) :
    Concludes s defs id g (liftM (j.conclude defs p q)) := by
  cases j with
  | every =>
    rw [Junction.conclude, liftM_bind]
    refine .test hwithin hs hid hg hp fun b h hgh hh => ?_
    have hgh := store_le hgh
    cases b with
    | false => exact .pure hh (hp.of_le hgh)
    | true =>
      simp only [Bool.not_true, Bool.false_eq_true, if_false, liftM_bind]
      refine .test hwithin (le_trans hs hgh) hid hh (hq.of_le hgh) fun b k hhk hk => ?_
      cases b with
      | false => exact .pure hk (hq.of_le (le_trans hgh (store_le hhk)))
      | true => exact .pure hk .epsilon
  | either =>
    rw [Junction.conclude, liftM_bind]
    refine .test hwithin hs hid hg hp fun b h hgh hh => ?_
    have hgh := store_le hgh
    cases b with
    | true => exact .pure hh .epsilon
    | false =>
      simp only [Bool.false_eq_true, if_false, liftM_bind]
      refine .test hwithin (le_trans hs hgh) hid hh (hq.of_le hgh) fun b k hhk hk => ?_
      have hgk := le_trans hgh (store_le hhk)
      cases b with
      | true => exact .pure hk .epsilon
      | false => exact .choice hwithin (le_trans hs hgk) hid hk (hp.of_le hgk) (hq.of_le hgk)

end Concludes

theorem searchBinary_returns {a b : ExprId} {first second : MemoM ExprId}
    {rest : ExprId → ExprId → MemoM ExprId} (hne : s.node id ≠ .nullSet)
    (hparts : ∀ c, Exposes s defs c id → c = a ∨ c = b)
    (hfirst : Returns defs g (first.run results) (Demanding s defs id) fun p h =>
      SearchesOn s defs visiting results id p h ∧ a ∈ p.2)
    (hsecond : ∀ h results, g ≤ h → h.Sound defs → Searched s defs visiting results h.store →
      Returns defs h (second.run results) (Demanding s defs id) fun p k =>
        SearchesOn s defs visiting results id p k ∧ b ∈ p.2)
    (hrest : ∀ p q h, g ≤ h → h.Sound defs → Composed defs s h.store [id] p →
      Composed defs s h.store [id] q → Concludes s defs id h (rest p q)) :
    Returns defs g ((do rest (← first) (← second) : MemoM ExprId).run results)
      (Demanding s defs id) fun p h =>
      SearchesOn s defs visiting results id p h ∧ s.node id ≠ .nullSet ∧
        ∀ a, Exposes s defs a id → a ∈ p.2 ∨ ∃ q ∈ visiting, defs.target? q = some a := by
  simp only [StateT.run_bind]
  refine Returns.bind hfirst ?_
  rintro ⟨p, found⟩ h hgh hh ⟨hp, ha⟩
  refine Returns.bind (hsecond h found hgh hh hp.searched) ?_
  rintro ⟨q, found'⟩ k hhk hk ⟨hq, hb⟩
  have hpComposed := hp.composed.of_le (store_le hhk)
  refine (hrest p q k (le_trans hgh hhk) hk hpComposed hq.composed found').mono
    (fun _ hf => hf) ?_
  rintro ⟨r, _⟩ l hkl _ ⟨hr, rfl⟩
  refine ⟨⟨hr, hq.searched.of_le (store_le hkl), ?_⟩, hne, ?_⟩
  . intro i hi
    exact hq.keeps i (hp.keeps i hi)
  . intro c hc
    rcases hparts c hc with rfl | rfl
    . exact Or.inl (hq.keeps _ ha)
    . exact Or.inl hb

inductive Inquires (s : Store) (defs : Definitions) (visiting : List RefId) (id : ExprId) :
    Inquiry → Prop where
  | nullSet : s.node id = .nullSet → Inquires s defs visiting id (.fault .attributesOfNullSet)
  | undefined {r : RefId} : s.node id = .reference r → defs.target? r = none →
    Inquires s defs visiting id (.fault (.undefinedReference (defs.name r)))
  | answer {r : ExprId} : s.node id ≠ .nullSet → r = .epsilon ∨ r = id →
    (∀ c, Exposes s defs c id → ∃ q ∈ visiting, defs.target? q = some c) →
    Inquires s defs visiting id (.answer r)
  | operand {a : ExprId} : Exposes s defs a id → (∀ c, Exposes s defs c id → c = a) →
    a.index < id.index →
    Inquires s defs visiting id (.other visiting a)
  | target {r : RefId} {a : ExprId} : Exposes s defs a id → (∀ c, Exposes s defs c id → c = a) →
    defs.target? r = some a → r ∉ visiting → Inquires s defs visiting id (.other (r :: visiting) a)
  | operands {j : Junction} {a b : ExprId} : Exposes s defs a id → Exposes s defs b id →
    (∀ c, Exposes s defs c id → c = a ∨ c = b) → a.index < id.index → b.index < id.index →
    Inquires s defs visiting id (.operands j a b)

theorem inquiry_inquires (s : Store) (defs : Definitions) (visiting : List RefId) (id : ExprId) :
    Inquires s defs visiting id (inquiry defs visiting id (s.node id)) := by
  have below := s.node_below id
  have leaf {r : ExprId} (hne : s.node id ≠ .nullSet) (hr : r = .epsilon ∨ r = id)
      (hnone : ∀ c, ¬ Exposes s defs c id) : Inquires s defs visiting id (.answer r) :=
    .answer hne hr fun c hc => absurd hc (hnone c)
  have exposes (hn : (s.node id).isCompound) (c : ExprId) :
      Exposes s defs c id ↔ c ∈ (s.node id).children :=
    ⟨fun hc => (Part.iff_of_isCompound hn).1 hc.1, .of_isCompound hn⟩
  cases hn : s.node id with
  | nullSet => exact .nullSet hn
  | epsilon | anyString | typedString =>
    refine leaf (by simp [hn]) (Or.inl rfl) fun c hc => ?_
    exact Part.not_of_children_eq_nil (by simp [hn, Node.children]) (by simp [hn]) hc.1
  | element names content =>
    refine leaf (by simp [hn]) (Or.inl rfl) ?_
    rintro c ⟨⟨helement, _⟩ | ⟨hr, _⟩, _⟩
    . exact absurd hn (helement names content)
    . simp [hn] at hr
  | «attribute» names content =>
    refine leaf (by simp [hn]) (Or.inr rfl) fun c hc => ?_
    exact absurd hn (hc.2 names content)
  | oneOrMore a | mixed a =>
    rw [hn] at exposes below
    simp only [Node.children, List.mem_singleton] at exposes
    exact .operand ((exposes rfl a).2 rfl) (fun c hc => (exposes rfl c).1 hc)
      (below a (by simp [Node.children]))
  | sequence a b | interleave a b | choice a b =>
    rw [hn] at exposes below
    simp only [Node.children, List.mem_cons, List.not_mem_nil, or_false] at exposes
    exact .operands ((exposes rfl a).2 (Or.inl rfl)) ((exposes rfl b).2 (Or.inr rfl))
      (fun c hc => (exposes rfl c).1 hc) (below a (by simp [Node.children]))
      (below b (by simp [Node.children]))
  | reference r =>
    by_cases hr : r ∈ visiting
    . rw [inquiry, if_pos hr]
      exact .answer (by simp [hn]) (Or.inl rfl) fun c hc => ⟨r, hr, hc.target hn⟩
    . rw [inquiry, if_neg hr]
      cases htarget : defs.target? r with
      | none => exact .undefined hn htarget
      | some a =>
        have ha : Exposes s defs a id := ⟨.target hn htarget, by simp [hn]⟩
        refine .target ha (fun c hc => ?_) htarget hr
        exact Option.some.inj ((hc.target hn).symm.trans htarget)

theorem requiredFrom_returns (s : Store) (hwithin : defs.Within s) (visiting : List RefId)
    (id : ExprId) (results : Results) {g : Graph} (hg : g.Sound defs) (hs : s ≤ g.store)
    (hid : id ∈ s) (hresults : Searched s defs visiting results g.store) :
    Returns defs g ((requiredFrom defs visiting id).run results) (Demanding s defs id) fun p h =>
      SearchesOn s defs visiting results id p h ∧ id ∈ p.2 := by
  rw [requiredFrom_eq, run_memoized]
  cases hr : results[id]? with
  | some r =>
    refine .pure hg ⟨⟨hresults.composed id r hr, hresults, fun _ hi => hi⟩, ?_⟩
    exact Std.TreeMap.mem_iff_isSome_getElem?.2 (by simp [hr])
  | none =>
    dsimp only
    suffices hfound : Returns defs g
        ((pursue defs visiting (inquiry defs visiting id (s.node id))).run results)
        (Demanding s defs id) fun p h =>
          SearchesOn s defs visiting results id p h ∧ s.node id ≠ .nullSet ∧
            ∀ a, Exposes s defs a id → a ∈ p.2 ∨ ∃ q ∈ visiting, defs.target? q = some a by
      rw [StateT.run_bind, run_lift_memo, bind_assoc]
      simp only [bind_assoc, pure_bind]
      refine Returns.read fun n below hn => ?_
      rw [Store.node_of_le hs hid] at hn
      subst hn
      refine Returns.bind hfound ?_
      rintro ⟨r, found⟩ h _ hh ⟨⟨hcomposed, hsearched, hkeeps⟩, hne, hparts⟩
      refine .pure hh ⟨⟨hcomposed, hsearched.insert hcomposed hne hparts, ?_⟩, ?_⟩
      . intro i hi
        exact Std.TreeMap.mem_insert.2 (Or.inr (hkeeps i hi))
      . exact Std.TreeMap.mem_insert_self
    have part {next : List RefId} {a : ExprId} (ha : Exposes s defs a id)
        (_hlt : defs.reach next a < defs.reach visiting id) (h : Graph) (results : Results)
        (hgh : g ≤ h) (hh : h.Sound defs) (hresults : Searched s defs next results h.store) :
        Returns defs h ((requiredFrom defs next a).run results) (Demanding s defs id)
          fun p k => SearchesOn s defs next results id p k ∧ a ∈ p.2 := by
      refine (requiredFrom_returns s hwithin next a results hh (le_trans hs (store_le hgh))
        (ha.1.mem hwithin hid) hresults).mono (fun _ hf => hf.part ha) ?_
      rintro p k _ _ ⟨hp, hmem⟩
      refine ⟨⟨hp.composed.trans le_rfl ?_, hp.searched, hp.keeps⟩, hmem⟩
      simpa using .part le_rfl List.mem_cons_self ha.1
    have hinquires := inquiry_inquires s defs visiting id
    generalize inquiry defs visiting id (s.node id) = i at hinquires ⊢
    cases hinquires with
    | nullSet hn => exact Returns.throw (Or.inr ⟨rfl, id, .refl, hn⟩)
    | undefined hn htarget =>
      refine Returns.throw (Or.inl fun hguarded => ?_)
      have hdefined := hguarded.defined hn
      simp [htarget] at hdefined
    | answer hne hr hparts =>
      refine .pure hg ⟨⟨?_, hresults, fun _ hi => hi⟩, hne, fun a ha => Or.inr (hparts a ha)⟩
      rcases hr with rfl | rfl
      . exact .epsilon
      . exact .operand hs List.mem_cons_self
    | operand ha honly hlt =>
      refine (part ha (Definitions.reach_child_lt hlt) g results le_rfl hg hresults).mono
        (fun _ hf => hf) ?_
      rintro p h _ _ ⟨hp, hmem⟩
      refine ⟨hp, ha.ne_nullSet, fun c hc => Or.inl ?_⟩
      rwa [honly c hc]
    | target ha honly htarget hnew =>
      refine (part ha (Definitions.reach_target_lt htarget hnew) g results le_rfl hg
        hresults.cons).mono (fun _ hf => hf) ?_
      rintro p h _ _ ⟨hp, hmem⟩
      refine ⟨⟨hp.composed, hp.searched.of_cons htarget hmem, hp.keeps⟩, ha.ne_nullSet, ?_⟩
      intro c hc
      refine Or.inl ?_
      rwa [honly c hc]
    | operands ha hb honly hlta hltb =>
      refine searchBinary_returns ha.ne_nullSet honly
        (part ha (Definitions.reach_child_lt hlta) g results le_rfl hg hresults)
        (part hb (Definitions.reach_child_lt hltb)) ?_
      intro p q h hgh hh hp hq
      exact .conclude hwithin (le_trans hs (store_le hgh)) hid hh _ hp hq
termination_by defs.reach visiting id
decreasing_by exact _hlt

/--
Where the search for the attributes of an expression ends well, the null set is not exposed.
-/
theorem required_returns (s : Store) (hwithin : defs.Within s) (hg : g.Sound defs)
    (hs : s ≤ g.store) (hid : id ∈ s) (hresults : Searched s defs [] results g.store) :
    Returns defs g ((required defs id).run results) (Demanding s defs id) fun p h =>
      Searched s defs [] p.2 h.store ∧ ¬ ExposesNullSet s defs id := by
  refine (requiredFrom_returns s hwithin [] id results hg hs hid hresults).mono (fun _ hf => hf) ?_
  rintro p h _ _ ⟨hp, hsearched⟩
  exact ⟨hp.searched, hp.searched.not_exposesNullSet hsearched⟩

section Within

theorem conclude_within {p q : ExprId} (j : Junction) (hg : g.Sound defs) (hp : p ∈ g.store)
    (hq : q ∈ g.store) :
    Returns defs g (j.conclude defs p q) (fun _ => True) fun r h => r ∈ h.store := by
  have test {a : ExprId} {g : Graph} (hg : g.Sound defs) (ha : a ∈ g.store) :
      Returns defs g (isNullable defs a) (fun _ => True) fun _ _ => True :=
    (isNullable_yields hg ha).returns.mono (fun _ _ => trivial) fun _ _ _ _ _ => trivial
  cases j with
  | every =>
    refine Returns.bind (test hg hp) fun b h hgh hh _ => ?_
    have hp := Store.mem_of_le (store_le hgh) hp
    have hq := Store.mem_of_le (store_le hgh) hq
    split
    . exact .pure hh hp
    . refine Returns.bind (test hh hq) fun b k hhk hk _ => ?_
      split
      . exact .pure hk (Store.mem_of_le (store_le hhk) hq)
      . exact .pure hk k.store.epsilon_mem
  | either =>
    refine Returns.bind (test hg hp) fun b h hgh hh _ => ?_
    have hp := Store.mem_of_le (store_le hgh) hp
    have hq := Store.mem_of_le (store_le hgh) hq
    split
    . exact .pure hh h.store.epsilon_mem
    . refine Returns.bind (test hh hq) fun b k hhk hk _ => ?_
      split
      . exact .pure hk k.store.epsilon_mem
      . have hp := Store.mem_of_le (store_le hhk) hp
        have hq := Store.mem_of_le (store_le hhk) hq
        refine (choice_yields hk hp hq).returns.mono (fun _ _ => trivial) ?_
        rintro r l hkl _ ⟨_, hr⟩
        exact hr.mem hk.within (store_le hkl) (by simp [hp, hq])

/--
The search may make use of results of which nothing is known but that they are in the graph, such as
those found before a reference was defined.
-/
theorem requiredFrom_within (visiting : List RefId) (id : ExprId) {g : Graph} {results : Results}
    (hg : g.Sound defs) (hid : id ∈ g.store) (hresults : results.Within g.store) :
    Returns defs g ((requiredFrom defs visiting id).run results) (fun _ => True) fun p h =>
      p.1 ∈ h.store ∧ p.2.Within h.store := by
  induction visiting, id using Definitions.search_induction defs generalizing g results with
  | step visiting id ihChild ihTarget =>
    rw [requiredFrom_eq, run_memoized]
    cases hr : results[id]? with
    | some r => exact .pure hg ⟨hresults id r hr, hresults⟩
    | none =>
      dsimp only
      rw [StateT.run_bind, run_lift_memo, bind_assoc]
      simp only [bind_assoc, pure_bind]
      refine Returns.read fun n below hn => ?_
      suffices hfound : Returns defs g ((pursue defs visiting (inquiry defs visiting id n)).run results)
          (fun _ => True) fun p h => p.1 ∈ h.store ∧ p.2.Within h.store by
        refine Returns.bind hfound ?_
        rintro ⟨r, found⟩ h _ hh ⟨hr, hfound⟩
        exact .pure hh ⟨hr, hfound.insert hr⟩
      have operand {a : ExprId} (ha : a ∈ n.children) : a ∈ g.store :=
        Store.mem_of_mem_children hid (by rwa [hn])
      cases n with
      | nullSet => exact Returns.throw trivial
      | epsilon | anyString | typedString | element => exact .pure hg ⟨g.store.epsilon_mem, hresults⟩
      | «attribute» => exact .pure hg ⟨hid, hresults⟩
      | oneOrMore a | mixed a =>
        exact ihChild a (below a (by simp [Node.children])) hg (operand (by simp [Node.children]))
          hresults
      | sequence a b | interleave a b | choice a b =>
        dsimp only [inquiry, pursue]
        rw [StateT.run_bind]
        refine Returns.bind (ihChild a (below a (by simp [Node.children])) hg
          (operand (by simp [Node.children])) hresults) ?_
        rintro ⟨p, results⟩ h hgh hh ⟨hp, hresults⟩
        have hb := Store.mem_of_le (store_le hgh) (operand (a := b) (by simp [Node.children]))
        rw [StateT.run_bind]
        refine Returns.bind (ihChild b (below b (by simp [Node.children])) hh hb hresults) ?_
        rintro ⟨q, results⟩ k hhk hk ⟨hq, hresults⟩
        rw [run_lift_memo]
        refine Returns.bind (conclude_within _ hk (Store.mem_of_le (store_le hhk) hp) hq) ?_
        exact fun r l hkl hl hr => .pure hl ⟨hr, hresults.of_le (store_le hkl)⟩
      | reference r =>
        dsimp only [inquiry]
        split
        . exact .pure hg ⟨g.store.epsilon_mem, hresults⟩
        . next new =>
          split
          . exact Returns.throw trivial
          . next target htarget =>
            exact ihTarget r target htarget new hg (hg.within r target htarget) hresults

end Within

theorem run_required_returns (hg : g.Sound defs) (hid : id ∈ g.store) :
    Returns defs g ((required defs id).run' ∅) (Demanding g.store defs id) fun _ _ =>
      ¬ ExposesNullSet g.store defs id := by
  rw [StateT.run'_eq]
  refine (required_returns g.store hg.within hg le_rfl hid .empty).map ?_
  exact fun _ _ _ _ h => h.2

end Graph

end TreeGrammar
