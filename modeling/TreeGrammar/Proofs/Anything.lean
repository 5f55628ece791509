import TreeGrammar.Proofs.Alternatives
import TreeGrammar.Proofs.Carrying

/-!
This module contains the form of the content that an unexpected element has: any attributes, elements
and text, where the elements have such content too. It is left behind by no attribute, text or element.
-/

namespace TreeGrammar

namespace Form

/--
Any attributes, any text, and any elements that the declaration is one of.
-/
def anything (head : Head) : Form :=
  .mixed (.choice (.oneOrMore (.choice (.attribute .any .anyString) (.element head))) .epsilon)

def anyChildren (head : Head) : Form :=
  .mixed (.choice (.oneOrMore (.element head)) .epsilon)

/--
All attributes are still acceptable.
-/
inductive Untouched (head : Head) : Form → Prop where
  | direct : Untouched head (anything head)
  | reference (r : RefId) : Untouched head (.reference r (anything head))

variable {head : Head} {e : Form} {token : Token}

theorem zeroOrMore_value (a : Form) (hnullSet : a ≠ .nullSet) (hepsilon : a ≠ .epsilon)
    (honce : ∀ b, a ≠ .oneOrMore b) :
    (Plan.zeroOrMore a).value = .choice (.oneOrMore a) .epsilon := by
  have hmore : (Plan.oneOrMore a).value = .oneOrMore a := by
    unfold Plan.oneOrMore
    rw [if_neg (not_or.2 ⟨hnullSet, hepsilon⟩)]
    split
    . exact absurd rfl (honce _)
    . rfl
  rw [Plan.zeroOrMore, Plan.value_bind, hmore]
  simp [Plan.choice, Plan.without, Plan.intern, alternatives]

theorem Untouched.derivative_attribute (h : Untouched head e) (name : Name) (value : String)
    (scope : Scope) : (e.derivative (.attribute name value scope)).value = anything head := by
  have hmore := zeroOrMore_value (.choice (.attribute .any .anyString) (.element head)) (by simp)
    (by simp) (by simp)
  cases h <;> simp [derivative, derive, anything, acceptsToken, acceptsValue, NameClass.contains,
    Token.isText, Token.satisfies, Plan.choice, Plan.sequence, Plan.mixed, Plan.intern, hmore]

theorem Untouched.discharge_missing (h : Untouched head e) :
    (e.discharge .missing).value = anyChildren head := by
  cases h <;> simp [discharge, anything, anyChildren, Pending.form, Plan.choice, Plan.oneOrMore,
    Plan.mixed, Plan.intern, Plan.without, alternatives]

theorem derivative_text_anyChildren (htext : token.isText) :
    ((anyChildren head).derivative token).value = anyChildren head := by
  rw [derivative, anyChildren, derive, if_pos htext]
  rfl

theorem derivative_element_anyChildren (htoken : token.satisfies head.id)
    (htext : token.isText = false) :
    ((anyChildren head).derivative token).value = anyChildren head := by
  have hmore := zeroOrMore_value (.element head) (by simp) (by simp) (by simp)
  simp [derivative, derive, anyChildren, htext, htoken, Plan.choice, Plan.sequence, Plan.mixed,
    Plan.intern, hmore]

noncomputable def makeAnything (head : Head) : Plan Form := do
  let anyAttribute ← Plan.intern (.attribute .any .anyString)
  Plan.mixed (← Plan.zeroOrMore (← Plan.choice anyAttribute (.element head)))

theorem value_makeAnything : (makeAnything head).value = anything head := by
  have hmore := zeroOrMore_value (.choice (.attribute .any .anyString) (.element head)) (by simp)
    (by simp) (by simp)
  simp [makeAnything, anything, Plan.choice, Plan.mixed, Plan.intern, Plan.without, alternatives,
    hmore]

theorem heads_anyChildren : (anyChildren head).heads = [head] := rfl

end Form

def Store.ShowsAnything (s : Store) (defs : Definitions) (id : ExprId) : Prop :=
  ∃ r e, s.Shows defs id (.reference r (Form.anything ⟨e, .any, id⟩))

theorem Store.ShowsAnything.of_le {s t : Store} {defs defs' : Definitions} {id : ExprId}
    (h : s.ShowsAnything defs id) (hst : s ≤ t) (hdefs : defs ≤ defs') : t.ShowsAnything defs' id := by
  obtain ⟨r, e, h⟩ := h
  exact ⟨r, e, h.of_le hst hdefs⟩

def Graph.anything (any : ExprId) : GraphM ExprId := do
  let anyElement ← elementNamed .any any
  let anyAttribute ← attributeNamed .any .anyString
  mixed (← zeroOrMore (← choice anyAttribute anyElement))

/--
What is made for the content of unexpected elements.
-/
theorem Graph.anything_returns {defs : Definitions} {g : Graph} {any : ExprId} (hg : g.Sound defs)
    (hany : any ∈ g.store) :
    Returns defs g (anything any) (fun _ => True) fun content h =>
      ∃ e, h.store.Shows defs content (Form.anything ⟨e, .any, any⟩) := by
  have helement := (intern_yields (n := .element .any any) hg
    (by simpa [Node.children] using hany) (by simp [Node.isCompound])).returns
  refine Returns.bind (helement.mono (fun _ _ => trivial) fun _ _ _ _ h => h) ?_
  rintro e h _ hh ⟨hmem, hnode⟩
  have helement : h.store.Shows defs e (.element ⟨e, .any, any⟩) :=
    ⟨hnode ▸ Store.find?_node hmem, rfl⟩
  have hattribute : Carries defs h (attributeNamed .any .anyString)
      (Plan.intern (.attribute .any .anyString)) (Store.Shows · defs) := by
    refine intern_carries hh (by simp [Node.children, Store.anyString_mem])
      (by simp [Node.isCompound]) fun t _ id => ?_
    constructor
    . exact fun hid => ⟨_, hid, .anyString t⟩
    . rintro ⟨c, hid, hc⟩
      rwa [hc.injective (.anyString t)] at hid
  have hplan : Carries defs h (do
      let anyAttribute ← attributeNamed .any .anyString
      mixed (← zeroOrMore (← choice anyAttribute e))) (Form.makeAnything ⟨e, .any, any⟩)
      (Store.Shows · defs) := by
    refine hattribute.bind fun x k hhk hk hx => ?_
    have helement := helement.of_le (store_le hhk) le_rfl
    refine (choice_carries hk hx helement).bind fun _ _ _ hl heither => ?_
    exact (zeroOrMore_carries hl heither).bind fun _ _ _ hm hmany => mixed_carries hm hmany
  refine Returns.mono hplan (fun _ _ => trivial) ?_
  rintro content k _ _ ⟨hcontent, -⟩
  rw [Form.value_makeAnything] at hcontent
  exact ⟨e, hcontent⟩

end TreeGrammar
