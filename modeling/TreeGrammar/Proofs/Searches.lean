import TreeGrammar.Proofs.Carrying
import TreeGrammar.Proofs.Derivation
import TreeGrammar.Proofs.Discharge
import TreeGrammar.Proofs.Required
import TreeGrammar.Proofs.TextTypes

/-!
This module contains that the searches through expressions carry out what is planned for their forms:
derivatives, the discharge of attributes, and the attributes that are demanded. What is remembered in a
search, or from one search to the next, does not show.
-/

namespace TreeGrammar

/--
The result `r` for a form is related to that of the plan by `R`, and all that the plan builds is
known.
-/
def Store.Settles {β : Type} (defs : Definitions) (R : Store → ExprId → β → Prop)
    (op : Form → Plan β) (s : Store) (e : Form) (r : ExprId) : Prop :=
  R s r (op e).value ∧ ∀ x ∈ (op e).built, s.Knows defs x

def Recorded {β : Type} (defs : Definitions) (R : Store → ExprId → β → Prop) (op : Form → Plan β)
    (s : Store) (results : Results) : Prop :=
  ∀ id r : ExprId, results[id]? = some r → ∃ e, s.Shows defs id e ∧ s.Settles defs R op e r

def Notes {β : Type} (defs : Definitions) (R : Store → ExprId → β → Prop) (op : Form → Plan β)
    (s : Store) (p : ExprId × Results) (b : β) : Prop :=
  R s p.1 b ∧ Recorded defs R op s p.2

variable {β : Type} {defs : Definitions} {R : Store → ExprId → β → Prop} {op : Form → Plan β}
variable {s t : Store} {id r : ExprId} {e : Form} {results : Results}

namespace Recorded

theorem empty : Recorded defs R op s ∅ := by
  intro id r h
  simp at h

theorem of_le (h : Recorded defs R op s results) (hst : s ≤ t)
    (hR : ∀ r b, R s r b → R t r b) : Recorded defs R op t results := by
  intro id r hr
  obtain ⟨e, he, hr, hbuilt⟩ := h id r hr
  exact ⟨e, he.of_le hst le_rfl, hR r _ hr, fun x hx => (hbuilt x hx).of_le hst⟩

theorem grow {op : Form → Plan Form} (h : Recorded defs (Store.Shows · defs) op s results)
    (hst : s ≤ t) : Recorded defs (Store.Shows · defs) op t results :=
  h.of_le hst fun _ _ hr => hr.of_le hst le_rfl

theorem insert (h : Recorded defs R op s results) (hid : s.Shows defs id e)
    (hr : s.Settles defs R op e r) : Recorded defs R op s (results.insert id r) :=
  forall_getElem?_insert h ⟨e, hid, hr⟩

theorem get (h : Recorded defs R op s results) (hid : s.Shows defs id e)
    (hr : results[id]? = some r) : s.Settles defs R op e r := by
  obtain ⟨e', he', hr⟩ := h id r hr
  rwa [hid.unique he']

end Recorded

def Recalls (defs : Definitions) (token : Token) (fits' : Form → Plan Bool) (s : Store)
    (matched : Option DeclaredType) (results : Results) : Prop :=
  ∀ id r : ExprId, results[id]? = some r → ∃ e, s.Shows defs id e ∧
    s.Settles defs (Store.Shows · defs) (Form.derive token fits') e r ∧ e.Marks token matched matched

structure Finds (defs : Definitions) (token : Token) (fits' : Form → Plan Bool) (e : Form)
    (matched : Option DeclaredType) (s : Store) (p : (ExprId × Option DeclaredType) × Results)
    (b : Form) : Prop where
  shows : s.Shows defs p.1.1 b
  marks : e.Marks token matched p.1.2
  recalls : Recalls defs token fits' s p.1.2 p.2

namespace Recalls

variable {token : Token} {fits' : Form → Plan Bool} {matched matched' : Option DeclaredType}

theorem empty : Recalls defs token fits' s matched ∅ := by
  intro id r h
  simp at h

theorem grow (h : Recalls defs token fits' s matched results) (hst : s ≤ t) :
    Recalls defs token fits' t matched results := by
  intro id r hr
  obtain ⟨e, he, ⟨hr, hbuilt⟩, hmarks⟩ := h id r hr
  exact ⟨e, he.of_le hst le_rfl, ⟨hr.of_le hst le_rfl, fun x hx => (hbuilt x hx).of_le hst⟩, hmarks⟩

theorem later (h : Recalls defs token fits' s matched results) (hm : matched.isSome → matched'.isSome) :
    Recalls defs token fits' s matched' results := by
  intro id r hr
  obtain ⟨e, he, hr, hmarks⟩ := h id r hr
  exact ⟨e, he, hr, hmarks.later hm⟩

theorem insert (h : Recalls defs token fits' s matched results) (hid : s.Shows defs id e)
    (hr : s.Settles defs (Store.Shows · defs) (Form.derive token fits') e r)
    (hmarks : e.Marks token matched matched) :
    Recalls defs token fits' s matched (results.insert id r) :=
  forall_getElem?_insert h ⟨e, hid, hr, hmarks⟩

theorem get (h : Recalls defs token fits' s matched results) (hid : s.Shows defs id e)
    (hr : results[id]? = some r) :
    s.Settles defs (Store.Shows · defs) (Form.derive token fits') e r ∧
      e.Marks token matched matched := by
  obtain ⟨e', he', hr⟩ := h id r hr
  rwa [hid.unique he']

end Recalls

namespace Graph

variable {g : Graph} {token : Token} {matched : Option DeclaredType} {pending : Pending}
variable {E : Fault → β → Prop} {fits' : Form → Plan Bool}

theorem memoized_carries {work : MemoM ExprId} (hg : g.Sound defs) (h : g.store.Shows defs id e)
    (hresults : Recorded defs R op g.store results)
    (hwork : Carries defs g (work.run results) (op e) (Notes defs R op) E) :
    Carries defs g ((memoized id work).run results) (op e) (Notes defs R op) E := by
  rw [run_memoized]
  cases hr : results[id]? with
  | some r =>
    obtain ⟨hshows, hknown⟩ := hresults.get h hr
    exact .known hg hknown ⟨hshows, hresults⟩
  | none =>
    refine hwork.knows.wrap ?_
    intro p k hgk _ ⟨⟨hp, hresults⟩, hbuilt⟩
    exact ⟨hp, hresults.insert (h.of_le (store_le hgk) le_rfl) ⟨hp, hbuilt⟩⟩

theorem memoized_derivation_carries {work : DerivationM ExprId} (hg : g.Sound defs)
    (h : g.store.Shows defs id e) (hresults : Recalls defs token fits' g.store matched results)
    (hwork : Carries defs g ((work.run matched).run results) (e.derive token fits')
      (Finds defs token fits' e matched)) :
    Carries defs g (((memoized id work).run matched).run results) (e.derive token fits')
      (Finds defs token fits' e matched) := by
  rw [run_memoized_derivation]
  cases hr : results[id]? with
  | some r =>
    obtain ⟨⟨hshows, hknown⟩, hmarks⟩ := hresults.get h hr
    exact .known hg hknown ⟨hshows, hmarks, hresults⟩
  | none =>
    refine hwork.knows.wrap ?_
    intro p k hgk _ ⟨⟨hp, hmarks, hresults⟩, hbuilt⟩
    have hid := h.of_le (store_le hgk) le_rfl
    exact ⟨hp, hmarks, hresults.insert hid ⟨hp, hbuilt⟩ (hmarks.later fun hm => hm)⟩

def Judges (defs : Definitions) (token : Token) (fits : ExprId → GraphM Bool)
    (fits' : Form → Plan Bool) : Prop :=
  ∀ name value scope, token = .attribute name value scope → ∀ (g : Graph) (id : ExprId) (e : Form),
    g.Sound defs → g.store.Shows defs id e →
      Carries defs g (fits id) (fits' e) fun _ b c => b = c

def Derives (defs : Definitions) (token : Token) (fits' : Form → Plan Bool) (g : Graph)
    (work : DerivationM ExprId) (e : Form) : Prop :=
  ∀ (h : Graph) (matched : Option DeclaredType) (results : Results), g ≤ h → h.Sound defs →
    Recalls defs token fits' h.store matched results →
    Carries defs h ((work.run matched).run results) (e.derive token fits')
      (Finds defs token fits' e matched)

namespace Derives

variable {work first second : DerivationM ExprId} {i j : ExprId} {a b : Form}

theorem leaf {fits : ExprId → GraphM Bool} {n : Node} (hfits : Judges defs token fits fits')
    (h : g.store.Shows defs id e) (hn : g.store.node id = n) (hcompound : n.isCompound = false)
    (hreference : ∀ r, n ≠ .reference r) :
    Derives defs token fits' g (deriveLeaf defs token fits id n) e := by
  intro k matched results hgk hk hresults
  cases e with
  | epsilon | nullSet =>
    obtain rfl := hn.symm.trans (Store.node_eq_of_find? h)
    exact .pure hk ⟨.nullSet _, .of_textTypes_eq_nil rfl, hresults⟩
  | anyString =>
    obtain rfl := hn.symm.trans (Store.node_eq_of_find? h)
    refine .pure hk ⟨?_, .of_textTypes_eq_nil rfl, hresults⟩
    split
    . exact .anyString _
    . exact .nullSet _
  | typedString type =>
    obtain ⟨hid, htype⟩ := h
    obtain rfl := hn.symm.trans (Store.node_eq_of_find? hid)
    generalize type.number = number at htype
    subst htype
    cases token with
    | text literal scope =>
      dsimp only [deriveLeaf, Form.derive, Definitions.type]
      split
      . next haccepts => exact .pure hk ⟨.epsilon _, .accept haccepts, hresults.later fun _ => rfl⟩
      . next haccepts =>
        refine .pure hk ⟨.nullSet _, .of_not_suits ?_, hresults⟩
        rintro ⟨_, htype, hsuits⟩
        rw [List.mem_singleton.1 htype] at hsuits
        exact haccepts hsuits
    | _ => exact .pure hk ⟨.nullSet _, .of_not_suits (by simp [Form.Suits, Token.suits]), hresults⟩
  | «attribute» names content =>
    obtain ⟨c, hid, hc⟩ := h
    obtain rfl := hn.symm.trans (Store.node_eq_of_find? hid)
    cases token with
    | «attribute» name value scope =>
      dsimp only [deriveLeaf, Form.derive]
      split
      . simp only [run_bind, run_lift, bind_assoc, pure_bind]
        have hc := hc.of_le (store_le hgk) le_rfl
        refine Carries.bind (hfits name value scope rfl k c content hk hc) ?_
        rintro b l hkl hl rfl
        split
        . exact .pure hl ⟨.epsilon _, .of_textTypes_eq_nil rfl, hresults.grow (store_le hkl)⟩
        . exact .pure hl ⟨.nullSet _, .of_textTypes_eq_nil rfl, hresults.grow (store_le hkl)⟩
      . exact .pure hk ⟨.nullSet _, .of_textTypes_eq_nil rfl, hresults⟩
    | _ => exact .pure hk ⟨.nullSet _, .of_textTypes_eq_nil rfl, hresults⟩
  | element head =>
    obtain ⟨hid, rfl⟩ := h
    obtain rfl := hn.symm.trans (Store.node_eq_of_find? hid)
    refine .pure hk ⟨?_, .of_textTypes_eq_nil rfl, hresults⟩
    split
    . exact .epsilon _
    . exact .nullSet _
  | reference r a =>
    exact absurd (hn.symm.trans (Store.node_eq_of_find? h.1)) (hreference r)
  | choice a b | sequence a b | interleave a b =>
    obtain ⟨i, j, hid, -⟩ := h
    obtain rfl := hn.symm.trans (Store.node_eq_of_find? hid)
    cases hcompound
  | oneOrMore a | mixed a =>
    obtain ⟨i, hid, -⟩ := h
    obtain rfl := hn.symm.trans (Store.node_eq_of_find? hid)
    cases hcompound

theorem choice (hfirst : Derives defs token fits' g first a)
    (hsecond : Derives defs token fits' g second b) :
    Derives defs token fits' g (do
      let da ← first
      let db ← second
      Graph.choice da db) (.choice a b) := by
  intro k matched results hgk hk hresults
  simp only [run_bind, run_lift]
  refine Carries.bind (hfirst k matched results hgk hk hresults) ?_
  rintro ⟨⟨di, m⟩, results⟩ l hkl hl ⟨hdi, hfirstMarks, hresults⟩
  refine Carries.bind (hsecond l m results (le_trans hgk hkl) hl hresults) ?_
  rintro ⟨⟨dj, m⟩, results⟩ v hlv hv ⟨hdj, hsecondMarks, hresults⟩
  refine (choice_carries hv (hdi.of_le (store_le hlv) le_rfl) hdj).wrap ?_
  exact fun r w hvw _ hr => ⟨hr, hfirstMarks.trans hsecondMarks rfl, hresults.grow (store_le hvw)⟩

theorem sequence (hi : g.store.Shows defs i a) (hj : g.store.Shows defs j b)
    (hfirst : Derives defs token fits' g first a) (hsecond : Derives defs token fits' g second b) :
    Derives defs token fits' g (do
      let da ← first
      let inFirst ← Graph.sequence da j
      if ← isNullable defs i then
        let db ← second
        Graph.choice inFirst db
      else
        return inFirst) (.sequence a b) := by
  intro k matched results hgk hk hresults
  simp only [run_bind, run_lift, bind_assoc, pure_bind]
  refine Carries.bind (hfirst k matched results hgk hk hresults) ?_
  rintro ⟨⟨di, m⟩, results⟩ l hkl hl ⟨hdi, hfirstMarks, hresults⟩
  have hgl := le_trans hgk hkl
  refine Carries.bind (sequence_carries hl hdi (hj.of_le (store_le hgl) le_rfl)) ?_
  intro inFirst v hlv hv hinFirst
  have hgv := le_trans hgl hlv
  refine Carries.ask (isNullable_carries hv (hi.of_le (store_le hgv) le_rfl)) ?_
  rintro _ w hvw hw rfl
  have hresults := hresults.grow (store_le (le_trans hlv hvw))
  split
  . next hnullable =>
    simp only [run_bind, run_lift]
    refine Carries.bind (hsecond w m results (le_trans hgv hvw) hw hresults) ?_
    rintro ⟨⟨dj, m⟩, results⟩ u hwu hu ⟨hdj, hsecondMarks, hresults⟩
    have hinFirst := hinFirst.of_le (store_le (le_trans hvw hwu)) le_rfl
    refine (choice_carries hu hinFirst hdj).wrap ?_
    have hmarks := hfirstMarks.trans hsecondMarks (e := .sequence a b)
      (by rw [Form.textTypes, if_pos hnullable])
    exact fun r t hut _ hr => ⟨hr, hmarks, hresults.grow (store_le hut)⟩
  . next hnullable =>
    have hmarks := hfirstMarks.congr (e := .sequence a b)
      (by rw [Form.textTypes, if_neg hnullable, List.append_nil])
    exact .pure hw ⟨hinFirst.of_le (store_le hvw) le_rfl, hmarks, hresults⟩

theorem interleave (hi : g.store.Shows defs i a) (hj : g.store.Shows defs j b)
    (hfirst : Derives defs token fits' g first a) (hsecond : Derives defs token fits' g second b) :
    Derives defs token fits' g (do
      let da ← first
      let inFirst ← Graph.interleave da j
      let db ← second
      let inSecond ← Graph.interleave i db
      Graph.choice inFirst inSecond) (.interleave a b) := by
  intro k matched results hgk hk hresults
  simp only [run_bind, run_lift, bind_assoc, pure_bind]
  refine Carries.bind (hfirst k matched results hgk hk hresults) ?_
  rintro ⟨⟨di, m⟩, results⟩ l hkl hl ⟨hdi, hfirstMarks, hresults⟩
  have hgl := le_trans hgk hkl
  refine Carries.bind (interleave_carries hl hdi (hj.of_le (store_le hgl) le_rfl)) ?_
  intro inFirst v hlv hv hinFirst
  have hgv := le_trans hgl hlv
  refine Carries.bind (hsecond v m results hgv hv (hresults.grow (store_le hlv))) ?_
  rintro ⟨⟨dj, m⟩, results⟩ w hvw hw ⟨hdj, hsecondMarks, hresults⟩
  have hi := hi.of_le (store_le (le_trans hgv hvw)) le_rfl
  refine Carries.bind (interleave_carries hw hi hdj) ?_
  intro inSecond u hwu hu hinSecond
  have hinFirst := hinFirst.of_le (store_le (le_trans hvw hwu)) le_rfl
  have hresults := hresults.grow (store_le hwu)
  refine (choice_carries hu hinFirst hinSecond).wrap ?_
  exact fun r t hut _ hr => ⟨hr, hfirstMarks.trans hsecondMarks rfl, hresults.grow (store_le hut)⟩

theorem oneOrMore (hi : g.store.Shows defs i a) (hwork : Derives defs token fits' g work a) :
    Derives defs token fits' g (do
      let da ← work
      let more ← zeroOrMore i
      Graph.sequence da more) (.oneOrMore a) := by
  intro k matched results hgk hk hresults
  simp only [run_bind, run_lift, bind_assoc, pure_bind]
  refine Carries.bind (hwork k matched results hgk hk hresults) ?_
  rintro ⟨⟨di, m⟩, results⟩ l hkl hl ⟨hdi, hmarks, hresults⟩
  have hi := hi.of_le (store_le (le_trans hgk hkl)) le_rfl
  refine Carries.bind (zeroOrMore_carries hl hi) ?_
  intro more v hlv hv hmore
  have hresults := hresults.grow (store_le hlv)
  refine (sequence_carries hv (hdi.of_le (store_le hlv) le_rfl) hmore).wrap ?_
  exact fun r w hvw _ hr => ⟨hr, hmarks.congr rfl, hresults.grow (store_le hvw)⟩

theorem mixed (h : g.store.Shows defs id (.mixed a)) (hwork : Derives defs token fits' g work a) :
    Derives defs token fits' g (if token.isText then return id else do
      let da ← work
      Graph.mixed da) (.mixed a) := by
  intro k matched results hgk hk hresults
  dsimp only [Form.derive]
  split
  . exact .pure hk ⟨h.of_le (store_le hgk) le_rfl, .of_textTypes_eq_nil rfl, hresults⟩
  . next htoken =>
    simp only [run_bind, run_lift]
    refine Carries.bind (hwork k matched results hgk hk hresults) ?_
    rintro ⟨⟨di, m⟩, results⟩ l hkl hl ⟨hdi, hmarks, hresults⟩
    have hmarks : (Form.mixed a).Marks token matched m := by
      have hm : m = matched := hmarks.eq_of_not_isText htoken
      rw [hm]
      exact .of_textTypes_eq_nil rfl
    refine (mixed_carries hl hdi).wrap ?_
    exact fun r v hlv _ hr => ⟨hr, hmarks, hresults.grow (store_le hlv)⟩

end Derives

theorem deriveFrom_carries {fits : ExprId → GraphM Bool} {fits' : Form → Plan Bool}
    (hfits : Judges defs token fits fits') {g : Graph} (hg : g.Sound defs) (hs : s ≤ g.store)
    (visiting : List RefId) {id : ExprId} (e : Form) (h : s.Shows defs id e)
    (hpath : OnPath s defs visiting id) {matched : Option DeclaredType} {results : Results}
    (hresults : Recalls defs token fits' g.store matched results) :
    Carries defs g (((deriveFrom defs token fits visiting id).run matched).run results)
      (e.derive token fits') (Finds defs token fits' e matched) := by
  have hshows := h.of_le hs le_rfl
  rw [deriveFrom]
  refine memoized_derivation_carries hg hshows hresults ?_
  simp only [run_bind, run_lift, bind_assoc, pure_bind]
  refine Carries.read fun n below hng => ?_
  have hn := hng
  rw [Store.node_of_le hs h.mem] at hn
  have derives {work : DerivationM ExprId} {e : Form} (hwork : Derives defs token fits' g work e) :=
    hwork g matched results le_rfl hg hresults
  have operand {i : ExprId} {a : Form} (hlt : sizeOf a < sizeOf e) (hi : s.Shows defs i a)
      (hchild : i ∈ n.children) (helement : ∀ names content, n ≠ .element names content) :
      Derives defs token fits' g (deriveFrom defs token fits visiting i) a := by
    have hpart : Part s defs i id := by
      rw [← hn] at hchild helement
      exact .operand helement hchild
    intro k matched results hgk hk hresults
    exact deriveFrom_carries hfits hk (le_trans hs (store_le hgk)) visiting a hi (hpath.part hpart)
      hresults
  cases e with
  | epsilon | nullSet | anyString =>
    obtain rfl := hn.symm.trans (Store.node_eq_of_find? h)
    exact derives (.leaf hfits hshows hng rfl (by simp))
  | typedString =>
    obtain rfl := hn.symm.trans (Store.node_eq_of_find? h.1)
    exact derives (.leaf hfits hshows hng rfl (by simp))
  | «attribute» names content =>
    obtain ⟨c, hid, hc⟩ := h
    obtain rfl := hn.symm.trans (Store.node_eq_of_find? hid)
    exact derives (.leaf hfits hshows hng rfl (by simp))
  | element head =>
    obtain rfl := hn.symm.trans (Store.node_eq_of_find? h.1)
    exact derives (.leaf hfits hshows hng rfl (by simp))
  | choice a b =>
    obtain ⟨i, j, hid, hi, hj⟩ := h
    obtain rfl := hn.symm.trans (Store.node_eq_of_find? hid)
    have hfirst := operand (by simp; omega) hi (by simp [Node.children]) (by simp)
    have hsecond := operand (by simp) hj (by simp [Node.children]) (by simp)
    exact derives (hfirst.choice hsecond)
  | sequence a b =>
    obtain ⟨i, j, hid, hi, hj⟩ := h
    obtain rfl := hn.symm.trans (Store.node_eq_of_find? hid)
    have hfirst := operand (by simp; omega) hi (by simp [Node.children]) (by simp)
    have hsecond := operand (by simp) hj (by simp [Node.children]) (by simp)
    exact derives (.sequence (hi.of_le hs le_rfl) (hj.of_le hs le_rfl) hfirst hsecond)
  | interleave a b =>
    obtain ⟨i, j, hid, hi, hj⟩ := h
    obtain rfl := hn.symm.trans (Store.node_eq_of_find? hid)
    have hfirst := operand (by simp; omega) hi (by simp [Node.children]) (by simp)
    have hsecond := operand (by simp) hj (by simp [Node.children]) (by simp)
    exact derives (.interleave (hi.of_le hs le_rfl) (hj.of_le hs le_rfl) hfirst hsecond)
  | oneOrMore a =>
    obtain ⟨i, hid, hi⟩ := h
    obtain rfl := hn.symm.trans (Store.node_eq_of_find? hid)
    have hwork := operand (by simp) hi (by simp [Node.children]) (by simp)
    exact derives (.oneOrMore (hi.of_le hs le_rfl) hwork)
  | mixed a =>
    obtain ⟨i, hid, hi⟩ := h
    obtain rfl := hn.symm.trans (Store.node_eq_of_find? hid)
    have hwork := operand (by simp) hi (by simp [Node.children]) (by simp)
    exact derives (.mixed hshows hwork)
  | reference r a =>
    have hnew := hpath.not_mem h.guarded (Store.node_eq_of_find? h.1)
    obtain ⟨hid, i, hr, hi⟩ := h
    have hnode := Store.node_eq_of_find? hid
    obtain rfl := hn.symm.trans hnode
    dsimp only
    rw [dif_neg hnew]
    simp only [run_bind, run_lift_except, bind_assoc, pure_bind]
    have hfound := deriveFrom_carries hfits hg hs (r :: visiting) a hi (hpath.cons hnode hr) hresults
    exact Carries.follow hr (hfound.mono fun _ _ _ _ h => ⟨h.shows, h.marks.congr rfl, h.recalls⟩)
termination_by sizeOf e
decreasing_by
  all_goals first
    | exact hlt
    | decreasing_tactic

theorem derive_carries {fits : ExprId → GraphM Bool} {fits' : Form → Plan Bool}
    (hfits : Judges defs token fits fits') (hg : g.Sound defs) (h : g.store.Shows defs id e) :
    Carries defs g (derive defs token fits id) (e.derive token fits')
      fun s d r => s.Shows defs d.rest r ∧ e.Marks token none d.matched := by
  have hrun : derive defs token fits id =
      ((deriveFrom defs token fits [] id).run none).run ∅ >>= fun p =>
        pure { rest := p.1.1, matched := p.1.2 } := by
    unfold derive
    rw [StateT.run'_eq, bind_map_left]
  rw [hrun]
  exact (deriveFrom_carries hfits hg le_rfl [] e h .nil .empty).wrap
    fun _ _ _ _ hp => ⟨hp.shows, hp.marks⟩

theorem acceptsValue_carries {value : String} {scope : Scope} (hg : g.Sound defs)
    (h : g.store.Shows defs id e) :
    Carries defs g (acceptsValue defs value scope id) (Form.acceptsValue value scope e)
      fun _ b c => b = c := by
  have hderive {k : Graph} (hk : k.Sound defs) (h : k.store.Shows defs id e) :
      Carries defs k (do
        let d ← derive defs (.text value scope) (fun _ => return false) id
        isNullable defs d.rest) (do
        let rest ← e.derive (.text value scope) fun _ => return false
        return rest.nullable) fun _ b c => b = c := by
    have hfits : Judges defs (.text value scope) (fun _ => return false) fun _ => return false := by
      rintro _ _ _ ⟨⟩
    refine Carries.bind (derive_carries hfits hk h) ?_
    exact fun d l _ hl hd => isNullable_carries hl hd.1
  unfold acceptsValue Form.acceptsValue
  refine .ite h.eq_anyString_iff (fun _ => .pure hg rfl) fun _ => ?_
  by_cases hblank : Text.isBlank value
  . rw [if_pos hblank]
    refine Carries.ask (isNullable_carries hg h) ?_
    rintro _ k hgk hk rfl
    cases hnullable : e.nullable with
    | true =>
      rw [if_pos rfl, if_pos (by simp [hblank])]
      exact .pure hk rfl
    | false =>
      rw [if_neg (by simp), if_neg (by simp)]
      exact hderive hk (h.of_le (store_le hgk) le_rfl)
  . rw [if_neg hblank, if_neg (by simp [hblank])]
    exact hderive hg h

theorem judges_acceptsToken :
    Judges defs token (acceptsToken defs token) (Form.acceptsToken token) := by
  rintro name value scope rfl g id e hg h
  exact acceptsValue_carries hg h

theorem derivative_carries (hg : g.Sound defs) (h : g.store.Shows defs id e) :
    Carries defs g (derivative defs token id) (e.derivative token)
      fun s d r => s.Shows defs d.rest r ∧ e.Marks token none d.matched := by
  have hderive := derive_carries (judges_acceptsToken : Judges defs token _ _) hg h
  have hreturns (token : Token) := @derivative_returns defs g token id hg h.mem
  match token with
  | .element [x] =>
    have hreturns := hreturns (.element [x])
    refine ⟨hreturns.forgetful, ?_, ?_⟩
    . intro f hf
      exact hderive.error f (derive_of_derivative_eq_error hf)
    . intro d k heq
      obtain ⟨hgk, hk, -⟩ := hreturns.ok d k heq
      refine ⟨hgk, hk, ?_⟩
      obtain ⟨rest, hrest, rfl, rfl⟩ | ⟨l, hd, rfl⟩ := derive_of_derivative_eq_ok heq
      . have hagain := (hg.derivatives id x rest hrest).2 defs _ le_rfl le_rfl
        exact (hderive.ok _ _ hagain).2.2
      . have hok := (hderive.ok _ _ hd).2.2
        split <;> exact hok
  | .element [] | .element (_ :: _ :: _) | .text .. | .attribute .. | .anyElement => exact hderive

theorem dischargedRebuild_carries {same same' : Prop} [Decidable same] [Decidable same']
    {work : GraphM ExprId} {plan : Plan Form} {op : Form → Plan Form} (hg : g.Sound defs)
    (h : g.store.Shows defs id e) (hsame : same ↔ same')
    (hresults : Recorded defs (Store.Shows · defs) op g.store results)
    (hwork : Carries defs g work plan (Store.Shows · defs)) :
    Carries defs g ((if same then pure id else liftM work : MemoM ExprId).run results)
      (if same' then pure e else plan) (Notes defs (Store.Shows · defs) op) := by
  have hrun : (if same then pure id else liftM work : MemoM ExprId).run results =
      if same then pure (id, results) else work >>= fun r => pure (r, results) := by
    split
    . rfl
    . exact run_lift_memo work results
  rw [hrun]
  refine .ite hsame (fun _ => .pure hg ⟨h, hresults⟩) fun _ => hwork.wrap ?_
  exact fun r k hgk _ hr => ⟨hr, hresults.grow (store_le hgk)⟩

theorem dischargeBinary_carries {i j : ExprId} {a b : Form} {first second : MemoM ExprId}
    {combine : ExprId → ExprId → GraphM ExprId} {combine' : Form → Form → Plan Form}
    {op : Form → Plan Form}
    (hcombine : ∀ {g : Graph} {i j : ExprId} {a b : Form}, g.Sound defs → g.store.Shows defs i a →
      g.store.Shows defs j b → Carries defs g (combine i j) (combine' a b) (Store.Shows · defs))
    (h : g.store.Shows defs id e) (hi : g.store.Shows defs i a)
    (hj : g.store.Shows defs j b)
    (hfirst : Carries defs g (first.run results) (op a) (Notes defs (Store.Shows · defs) op))
    (hsecond : ∀ k results, g ≤ k → k.Sound defs →
      Recorded defs (Store.Shows · defs) op k.store results →
        Carries defs k (second.run results) (op b) (Notes defs (Store.Shows · defs) op)) :
    Carries defs g ((do
      let i' ← first
      let j' ← second
      if i' = i ∧ j' = j then return id else combine i' j' : MemoM ExprId).run results) (do
      let a' ← op a
      let b' ← op b
      if a' = a ∧ b' = b then return e else combine' a' b')
      (Notes defs (Store.Shows · defs) op) := by
  simp only [StateT.run_bind]
  refine Carries.bind hfirst ?_
  rintro ⟨i', results⟩ k hgk hk ⟨hi', hresults⟩
  refine Carries.bind (hsecond k results hgk hk hresults) ?_
  rintro ⟨j', results⟩ l hkl hl ⟨hj', hresults⟩
  have hgl := store_le (le_trans hgk hkl)
  have hi' := hi'.of_le (store_le hkl) le_rfl
  refine dischargedRebuild_carries hl (h.of_le hgl le_rfl) ?_ hresults (hcombine hl hi' hj')
  exact and_congr (hi'.eq_iff (hi.of_le hgl le_rfl)) (hj'.eq_iff (hj.of_le hgl le_rfl))

theorem dischargeUnary_carries {i : ExprId} {a : Form} {work : MemoM ExprId}
    {combine : ExprId → GraphM ExprId} {combine' : Form → Plan Form} {op : Form → Plan Form}
    (hcombine : ∀ {g : Graph} {i : ExprId} {a : Form}, g.Sound defs → g.store.Shows defs i a →
      Carries defs g (combine i) (combine' a) (Store.Shows · defs))
    (h : g.store.Shows defs id e) (hi : g.store.Shows defs i a)
    (hwork : Carries defs g (work.run results) (op a) (Notes defs (Store.Shows · defs) op)) :
    Carries defs g ((do
      let i' ← work
      if i' = i then return id else combine i' : MemoM ExprId).run results) (do
      let a' ← op a
      if a' = a then return e else combine' a') (Notes defs (Store.Shows · defs) op) := by
  simp only [StateT.run_bind]
  refine Carries.bind hwork ?_
  rintro ⟨i', results⟩ k hgk hk ⟨hi', hresults⟩
  have hgk := store_le hgk
  refine dischargedRebuild_carries hk (h.of_le hgk le_rfl) ?_ hresults (hcombine hk hi')
  exact hi'.eq_iff (hi.of_le hgk le_rfl)

theorem dischargeFrom_carries {g : Graph} (hg : g.Sound defs) (hs : s ≤ g.store)
    (visiting : List RefId) {id : ExprId} (e : Form) (h : s.Shows defs id e)
    (hpath : OnPath s defs visiting id) {results : Results}
    (hresults : Recorded defs (Store.Shows · defs) (Form.discharge pending) g.store results) :
    Carries defs g ((dischargeFrom defs pending visiting id).run results) (e.discharge pending)
      (Notes defs (Store.Shows · defs) (Form.discharge pending)) := by
  have hg' := h.of_le hs le_rfl
  rw [dischargeFrom]
  refine memoized_carries hg hg' hresults ?_
  simp only [StateT.run_bind, run_lift_memo, bind_assoc, pure_bind]
  refine Carries.read fun n below hn => ?_
  rw [Store.node_of_le hs h.mem] at hn
  have operand {i : ExprId} {a : Form} (hlt : sizeOf a < sizeOf e) (hi : s.Shows defs i a)
      (hchild : i ∈ n.children) (helement : ∀ names content, n ≠ .element names content)
      (k : Graph) (results : Results) (hgk : g ≤ k) (hk : k.Sound defs)
      (hresults : Recorded defs (Store.Shows · defs) (Form.discharge pending) k.store results) :
      Carries defs k ((dischargeFrom defs pending visiting i).run results) (a.discharge pending)
        (Notes defs (Store.Shows · defs) (Form.discharge pending)) := by
    have hpart : Part s defs i id := by
      rw [← hn] at hchild helement
      exact .operand helement hchild
    exact dischargeFrom_carries hk (le_trans hs (store_le hgk)) visiting a hi (hpath.part hpart)
      hresults
  cases e with
  | epsilon | nullSet | anyString =>
    obtain rfl := hn.symm.trans (Store.node_eq_of_find? h)
    exact .pure hg ⟨hg', hresults⟩
  | typedString | element =>
    obtain rfl := hn.symm.trans (Store.node_eq_of_find? h.1)
    exact .pure hg ⟨hg', hresults⟩
  | «attribute» names content =>
    obtain ⟨c, hid, hc⟩ := h
    obtain rfl := hn.symm.trans (Store.node_eq_of_find? hid)
    refine .pure hg ⟨?_, hresults⟩
    cases pending with
    | missing => exact .nullSet _
    | granted => exact .epsilon _
  | choice a b =>
    obtain ⟨i, j, hid, hi, hj⟩ := h
    obtain rfl := hn.symm.trans (Store.node_eq_of_find? hid)
    exact dischargeBinary_carries choice_carries hg' (hi.of_le hs le_rfl) (hj.of_le hs le_rfl)
      (operand (by simp; omega) hi (by simp [Node.children]) (by simp) g results le_rfl hg hresults)
      (operand (by simp) hj (by simp [Node.children]) (by simp))
  | sequence a b =>
    obtain ⟨i, j, hid, hi, hj⟩ := h
    obtain rfl := hn.symm.trans (Store.node_eq_of_find? hid)
    exact dischargeBinary_carries sequence_carries hg' (hi.of_le hs le_rfl) (hj.of_le hs le_rfl)
      (operand (by simp; omega) hi (by simp [Node.children]) (by simp) g results le_rfl hg hresults)
      (operand (by simp) hj (by simp [Node.children]) (by simp))
  | interleave a b =>
    obtain ⟨i, j, hid, hi, hj⟩ := h
    obtain rfl := hn.symm.trans (Store.node_eq_of_find? hid)
    exact dischargeBinary_carries interleave_carries hg' (hi.of_le hs le_rfl) (hj.of_le hs le_rfl)
      (operand (by simp; omega) hi (by simp [Node.children]) (by simp) g results le_rfl hg hresults)
      (operand (by simp) hj (by simp [Node.children]) (by simp))
  | oneOrMore a =>
    obtain ⟨i, hid, hi⟩ := h
    obtain rfl := hn.symm.trans (Store.node_eq_of_find? hid)
    exact dischargeUnary_carries oneOrMore_carries hg' (hi.of_le hs le_rfl)
      (operand (by simp) hi (by simp [Node.children]) (by simp) g results le_rfl hg hresults)
  | mixed a =>
    obtain ⟨i, hid, hi⟩ := h
    obtain rfl := hn.symm.trans (Store.node_eq_of_find? hid)
    exact dischargeUnary_carries mixed_carries hg' (hi.of_le hs le_rfl)
      (operand (by simp) hi (by simp [Node.children]) (by simp) g results le_rfl hg hresults)
  | reference r a =>
    have hnew := hpath.not_mem h.guarded (Store.node_eq_of_find? h.1)
    obtain ⟨hid, i, hr, hi⟩ := h
    have hnode := Store.node_eq_of_find? hid
    obtain rfl := hn.symm.trans hnode
    dsimp only
    rw [dif_neg hnew, StateT.run_bind, run_lift_except_memo, bind_assoc]
    refine Carries.follow hr ?_
    rw [pure_bind, StateT.run_bind]
    refine Carries.bind (dischargeFrom_carries hg hs (r :: visiting) a hi (hpath.cons hnode hr)
      hresults) ?_
    rintro ⟨i', results⟩ k hgk hk ⟨hi', hresults⟩
    have hgk := store_le hgk
    have hsame := hi'.eq_iff ((hi.of_le hs le_rfl).of_le hgk le_rfl)
    refine .pure hk ⟨?_, hresults⟩
    by_cases h : (a.discharge pending).value = a
    . rw [if_pos h, if_pos (hsame.2 h)]
      exact hg'.of_le hgk le_rfl
    . rw [if_neg h, if_neg (mt hsame.1 h)]
      exact hi'
termination_by sizeOf e
decreasing_by
  all_goals first
    | exact hlt
    | decreasing_tactic

theorem discharge_carries (hg : g.Sound defs) (h : g.store.Shows defs id e)
    (hresults : Recorded defs (Store.Shows · defs) (Form.discharge pending) g.store results) :
    Carries defs g ((discharge defs pending id).run results) (e.discharge pending)
      (Notes defs (Store.Shows · defs) (Form.discharge pending)) :=
  dischargeFrom_carries hg le_rfl [] e h .nil hresults

def Yielded {α β : Type} (R : Store → α → β → Prop) (s : Store) (a : α) (b? : Option β) : Prop :=
  ∃ b, b? = some b ∧ R s a b

def Refused {β : Type} (f : Fault) (b? : Option β) : Prop :=
  f = .attributesOfNullSet ∧ b? = none

section Attempts

variable {α γ δ : Type} {work : GraphM α} {R : Store → α → β → Prop} {S : Store → γ → δ → Prop}

theorem Carries.attempt {plan : OptionT Plan β} {next : α → GraphM γ} {next' : β → OptionT Plan δ}
    (hwork : Carries defs g work plan.run (Yielded R) Refused)
    (hnext : ∀ a b h, g ≤ h → h.Sound defs → R h.store a b →
      Carries defs h (next a) (next' b).run (Yielded S) Refused) :
    Carries defs g (work >>= next) (plan >>= next').run (Yielded S) Refused := by
  rw [Plan.run_attempt]
  refine hwork.bind_of ?_ ?_
  . rintro f ⟨rfl, hnone⟩
    rw [hnone]
    exact ⟨rfl, rfl⟩
  . rintro a h hgh hh ⟨b, hb, hab⟩
    rw [hb]
    exact hnext a b h hgh hh hab

theorem Carries.attempted {plan : Plan β} (hwork : Carries defs g work plan R) :
    Carries defs g work (liftM plan : OptionT Plan β).run (Yielded R) Refused := by
  have hrun : (liftM plan : OptionT Plan β).run = plan >>= fun b => Pure.pure (some b) := rfl
  rw [hrun, ← bind_pure work]
  refine hwork.bind ?_
  exact fun a h _ hh ha => .pure hh ⟨_, rfl, ha⟩

theorem Carries.lift {plan : Plan β} {next : α → GraphM γ} {next' : β → OptionT Plan δ}
    (hwork : Carries defs g work plan R)
    (hnext : ∀ a h, g ≤ h → h.Sound defs → R h.store a plan.value →
      Carries defs h (next a) (next' plan.value).run (Yielded S) Refused) :
    Carries defs g (work >>= next) ((liftM plan : OptionT Plan β) >>= next').run (Yielded S)
      Refused := by
  have hrun : ((liftM plan : OptionT Plan β) >>= next').run = plan >>= fun b => (next' b).run := by
    simp
  rw [hrun]
  exact hwork.bind hnext

end Attempts

abbrev Demanded (defs : Definitions) : Store → Results → Prop :=
  Recorded defs (Yielded (Store.Shows · defs)) fun e => e.required.run

theorem Demanded.grow {k l : Graph} (h : Demanded defs k.store results) (hkl : k ≤ l) :
    Demanded defs l.store results :=
  h.of_le (store_le hkl) fun _ _ ⟨d, hd, hr⟩ => ⟨d, hd, hr.of_le (store_le hkl) le_rfl⟩

/--
The work finds the attributes that the form demands in every graph that comes of `g`, whatever
results are remembered by then.
-/
def Demands (defs : Definitions) (g : Graph) (work : MemoM ExprId) (e : Form) : Prop :=
  ∀ (h : Graph) (results : Results), g ≤ h → h.Sound defs → Demanded defs h.store results →
    Carries defs h (work.run results) e.required.run
      (Yielded fun s p d => s.Shows defs p.1 d ∧ Demanded defs s p.2) Refused

noncomputable def Junction.demand (p q : Form) : Junction → Plan Form
  | .every => return if !p.nullable then p else if !q.nullable then q else .epsilon
  | .either => if p.nullable || q.nullable then return .epsilon else Plan.choice p q

theorem required_choice (a b : Form) : (Form.choice a b).required = (do
    let p ← a.required
    let q ← b.required
    liftM (Junction.either.demand p q)) := by
  rw [Form.required]
  refine bind_congr fun p => bind_congr fun q => ?_
  dsimp only [Junction.demand]
  split <;> rfl

theorem conclude_carries {i j : ExprId} {p q : Form} (junction : Junction) (hg : g.Sound defs)
    (hi : g.store.Shows defs i p) (hj : g.store.Shows defs j q) :
    Carries defs g (junction.conclude defs i j) (junction.demand p q) (Store.Shows · defs) := by
  cases junction with
  | every =>
    refine Carries.ask (isNullable_carries hg hi) ?_
    rintro _ h hgh hh rfl
    have hgh := store_le hgh
    dsimp only [Junction.demand]
    cases p.nullable with
    | false => exact .pure hh (hi.of_le hgh le_rfl)
    | true =>
      refine Carries.ask (isNullable_carries hh (hj.of_le hgh le_rfl)) ?_
      rintro _ k hhk hk rfl
      cases q.nullable with
      | false => exact .pure hk (hj.of_le (le_trans hgh (store_le hhk)) le_rfl)
      | true => exact .pure hk (.epsilon _)
  | either =>
    refine Carries.ask (isNullable_carries hg hi) ?_
    rintro _ h hgh hh rfl
    have hgh := store_le hgh
    dsimp only [Junction.demand]
    cases p.nullable with
    | true => exact .pure hh (.epsilon _)
    | false =>
      refine Carries.ask (isNullable_carries hh (hj.of_le hgh le_rfl)) ?_
      rintro _ k hhk hk rfl
      have hgk := le_trans hgh (store_le hhk)
      cases q.nullable with
      | true => exact .pure hk (.epsilon _)
      | false => exact choice_carries hk (hi.of_le hgk le_rfl) (hj.of_le hgk le_rfl)

theorem Demands.operands {first second : MemoM ExprId} {a b e : Form} (j : Junction)
    (hfirst : Demands defs g first a) (hsecond : Demands defs g second b)
    (he : e.required = (do
      let p ← a.required
      let q ← b.required
      liftM (j.demand p q))) :
    Demands defs g (do
      let p ← first
      let q ← second
      j.conclude defs p q) e := by
  intro k results hgk hk hresults
  rw [he]
  simp only [StateT.run_bind, run_lift_memo]
  refine Carries.attempt (hfirst k results hgk hk hresults) ?_
  rintro ⟨p, results⟩ p' l hkl hl ⟨hp, hresults⟩
  refine Carries.attempt (hsecond l results (le_trans hgk hkl) hl hresults) ?_
  rintro ⟨q, results⟩ q' u hlu hu ⟨hq, hresults⟩
  have hconclude := conclude_carries j hu (hp.of_le (store_le hlu) le_rfl) hq
  refine Carries.attempted (hconclude.wrap ?_)
  exact fun r t hut _ hr => ⟨hr, hresults.grow hut⟩

theorem requiredFrom_carries {g : Graph} (hg : g.Sound defs) (hs : s ≤ g.store)
    (visiting : List RefId) {id : ExprId} (e : Form) (h : s.Shows defs id e)
    (hpath : OnPath s defs visiting id) {results : Results}
    (hresults : Demanded defs g.store results) :
    Carries defs g ((requiredFrom defs visiting id).run results) e.required.run
      (Notes defs (Yielded (Store.Shows · defs)) fun e => e.required.run) Refused := by
  have hg' := h.of_le hs le_rfl
  rw [requiredFrom_eq]
  let op (e : Form) : Plan (Option Form) := e.required.run
  refine (memoized_carries hg hg' hresults ?_ : Carries defs g _ (op e) _ _)
  simp only [StateT.run_bind, run_lift_memo, bind_assoc, pure_bind]
  refine Carries.read fun n below hn => ?_
  rw [Store.node_of_le hs h.mem] at hn
  have demands {work : MemoM ExprId} {e : Form} (hwork : Demands defs g work e) :
      Carries defs g (work.run results) e.required.run
        (Notes defs (Yielded (Store.Shows · defs)) fun e => e.required.run) Refused := by
    refine (hwork g results le_rfl hg hresults).mono ?_
    rintro p k _ _ ⟨d, hd, hp, hresults⟩
    exact ⟨⟨d, hd, hp⟩, hresults⟩
  have operand {i : ExprId} {a : Form} (hlt : sizeOf a < sizeOf e) (hi : s.Shows defs i a)
      (hchild : i ∈ n.children) (helement : ∀ names content, n ≠ .element names content) :
      Demands defs g (requiredFrom defs visiting i) a := by
    have hpart : Part s defs i id := by
      rw [← hn] at hchild helement
      exact .operand helement hchild
    intro k results hgk hk hresults
    refine (requiredFrom_carries hk (le_trans hs (store_le hgk)) visiting a hi (hpath.part hpart)
      hresults).mono ?_
    rintro p l _ _ ⟨⟨d, hd, hp⟩, hresults⟩
    exact ⟨d, hd, hp, hresults⟩
  cases e with
  | nullSet =>
    obtain rfl := hn.symm.trans (Store.node_eq_of_find? h)
    exact Returns.throw (Or.inr ⟨rfl, rfl⟩)
  | epsilon | anyString =>
    obtain rfl := hn.symm.trans (Store.node_eq_of_find? h)
    exact .pure hg ⟨⟨_, rfl, .epsilon _⟩, hresults⟩
  | typedString | element =>
    obtain rfl := hn.symm.trans (Store.node_eq_of_find? h.1)
    exact .pure hg ⟨⟨_, rfl, .epsilon _⟩, hresults⟩
  | «attribute» names content =>
    obtain ⟨c, hid, hc⟩ := h
    obtain rfl := hn.symm.trans (Store.node_eq_of_find? hid)
    exact .pure hg ⟨⟨_, rfl, hg'⟩, hresults⟩
  | oneOrMore a | mixed a =>
    obtain ⟨i, hid, hi⟩ := h
    obtain rfl := hn.symm.trans (Store.node_eq_of_find? hid)
    have hwork := operand (by simp) hi (by simp [Node.children]) (by simp)
    exact demands hwork
  | sequence a b | interleave a b =>
    obtain ⟨i, j, hid, hi, hj⟩ := h
    obtain rfl := hn.symm.trans (Store.node_eq_of_find? hid)
    have hfirst := operand (by simp; omega) hi (by simp [Node.children]) (by simp)
    have hsecond := operand (by simp) hj (by simp [Node.children]) (by simp)
    exact demands (hfirst.operands .every hsecond rfl)
  | choice a b =>
    obtain ⟨i, j, hid, hi, hj⟩ := h
    obtain rfl := hn.symm.trans (Store.node_eq_of_find? hid)
    have hfirst := operand (by simp; omega) hi (by simp [Node.children]) (by simp)
    have hsecond := operand (by simp) hj (by simp [Node.children]) (by simp)
    exact demands (hfirst.operands .either hsecond (required_choice a b))
  | reference r a =>
    have hnew := hpath.not_mem h.guarded (Store.node_eq_of_find? h.1)
    obtain ⟨hid, i, hr, hi⟩ := h
    have hnode := Store.node_eq_of_find? hid
    obtain rfl := hn.symm.trans hnode
    dsimp only [inquiry]
    rw [if_neg hnew, hr]
    exact requiredFrom_carries hg hs (r :: visiting) a hi (hpath.cons hnode hr) hresults
termination_by sizeOf e
decreasing_by
  all_goals first
    | exact hlt
    | decreasing_tactic

theorem required_carries (hg : g.Sound defs) (h : g.store.Shows defs id e) :
    Carries defs g ((required defs id).run' ∅) e.required.run (Yielded (Store.Shows · defs))
      Refused := by
  rw [StateT.run'_eq, map_eq_pure_bind]
  exact (requiredFrom_carries hg le_rfl [] e h .nil .empty).wrap fun _ _ _ _ hp => hp.1

theorem describeAttributes_eq (h : s.Shows defs id e) :
    s.describeAttributes id = e.describeAttributes := by
  unfold Store.describeAttributes Form.describeAttributes
  have hjoin {i : ExprId} {a : Form} (text : String) (ha : s.Shows defs i a) :
      Store.describeAttributes.join text (s.node i) = Form.describeAttributes.join text a := by
    cases a with
    | epsilon | nullSet | anyString => rw [Store.node_eq_of_find? ha]; rfl
    | typedString | element | reference => rw [Store.node_eq_of_find? ha.1]; rfl
    | «attribute» | oneOrMore | mixed => rw [Store.node_eq_of_find? ha.choose_spec.1]; rfl
    | choice | sequence | interleave =>
      rw [Store.node_eq_of_find? ha.choose_spec.choose_spec.1]
      rfl
  have hfold (text : String) (ids : List ExprId) (forms : List Form)
      (hforms : List.Forall₂ (s.Shows defs) ids forms) :
      ids.foldl (fun text a => Store.describeAttributes.join text (s.node a)) text =
        forms.foldl (fun text a => Form.describeAttributes.join text a) text := by
    induction hforms generalizing text with
    | nil => rfl
    | cons ha _ ih => rw [List.foldl_cons, List.foldl_cons, hjoin text ha, ih]
  exact hfold "" _ _ h.alternatives

end Graph

end TreeGrammar
