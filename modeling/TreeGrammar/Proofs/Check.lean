import TreeGrammar.Proofs.Heads

/-!
This module contains what it means that an expression is checked: all that it leads to, also through
the contents of elements, is guarded.
-/

namespace TreeGrammar

open Relation

/--
`Inside s defs a id` says that `a` is one step into `id`, possibly into the content of an element.
-/
inductive Inside (s : Store) (defs : Definitions) : ExprId → ExprId → Prop where
  | part {a id} : Part s defs a id → Inside s defs a id
  | content {a id names} : s.node id = .element names a → Inside s defs a id

def Checked (s : Store) (defs : Definitions) (id : ExprId) : Prop :=
  ∀ a, ReflTransGen (Inside s defs) a id → Guarded s defs a

variable {s t : Store} {defs defs' : Definitions} {id a : ExprId}

namespace Checked

theorem guarded (h : Checked s defs id) : Guarded s defs id :=
  h id .refl

theorem inside (h : Checked s defs id) (ha : Inside s defs a id) : Checked s defs a :=
  fun b hb => h b (hb.tail ha)

theorem of_le (h : Checked s defs id) (hst : s ≤ t) (hdefs : defs ≤ defs')
    (hwithin : defs.Within s) (hid : id ∈ s) : Checked t defs' id := by
  intro a ha
  suffices hold : a ∈ s ∧ ReflTransGen (Inside s defs) a id from
    (h a hold.2).of_le hst hdefs hwithin hold.1
  induction ha using ReflTransGen.head_induction_on with
  | refl => exact ⟨hid, .refl⟩
  | head hab _ ih =>
    obtain ⟨hb, hbid⟩ := ih
    cases hab with
    | part hpart =>
      have hpart := hpart.of_ge hst hdefs hb fun r hr => (h _ hbid).defined hr
      exact ⟨hpart.mem hwithin hb, .head (.part hpart) hbid⟩
    | content hn =>
      rw [Store.node_of_le hst hb] at hn
      exact ⟨Store.mem_of_mem_children hb (by simp [hn, Node.children]), .head (.content hn) hbid⟩

end Checked

/--
The expression has been in the store when it was checked.
-/
structure Vetted (s : Store) (defs : Definitions) (id : ExprId) : Prop where
  mem : id ∈ s
  checked : Checked s defs id

theorem Vetted.content (h : Vetted s defs id) {names : NameClass}
    (hn : s.node id = .element names a) : Vetted s defs a where
  mem := Store.mem_of_mem_children h.mem (by simp [hn, Node.children])
  checked := h.checked.inside (.content hn)

theorem Vetted.of_le (h : Vetted s defs id) (hst : s ≤ t) (hdefs : defs ≤ defs')
    (hwithin : defs.Within s) : Vetted t defs' id where
  mem := Store.mem_of_le hst h.mem
  checked := h.checked.of_le hst hdefs hwithin h.mem

theorem Closed.vetted (hst : s ≤ t) (hdefs : defs ≤ defs') (hwithin : defs.Within s) :
    Closed t defs' (Vetted s defs) where
  mem _ hid := Store.mem_of_le hst hid.mem
  part := by
    rintro a id ⟨hid, hchecked⟩ ha
    have ha := ha.of_ge hst hdefs hid fun r hr => hchecked.guarded.defined hr
    exact ⟨ha.mem hwithin hid, hchecked.inside (.part ha)⟩

def Ingredient (x e a : ExprId) : Prop :=
  a = x ∨ a = e ∨ a = .anyString

theorem Closed.ingredient {x e content : ExprId} {names names' : NameClass}
    (hx : s.node x = .attribute names .anyString) (he : s.node e = .element names' content) :
    Closed s defs (Ingredient x e) where
  mem := by
    rintro a (rfl | rfl | rfl)
    . exact Store.mem_of_node_ne (by simp [hx])
    . exact Store.mem_of_node_ne (by simp [he])
    . exact s.anyString_mem
  part := by
    rintro b a (rfl | rfl | rfl) hb
    . rcases hb with ⟨_, hb⟩ | ⟨hn, _⟩
      . exact Or.inr (Or.inr (by simpa [hx, Node.children] using hb))
      . simp [hx] at hn
    . rcases hb with ⟨helement, _⟩ | ⟨hn, _⟩
      . exact absurd he (helement _ _)
      . simp [he] at hn
    . exact absurd hb (Part.not_of_children_eq_nil (by simp [Node.children]) (by simp))

theorem Checked.of_any {r : RefId} {x e content : ExprId} {names names' : NameClass}
    (hid : s.node id = .reference r) (htarget : defs.target? r = some content)
    (hx : s.node x = .attribute names .anyString) (he : s.node e = .element names' id)
    (hcontent : Made s (Ingredient x e) content) : Checked s defs id := by
  have hclosed : Closed s defs (Ingredient x e) := .ingredient hx he
  have hguarded (a : ExprId) (ha : Ingredient x e a) : Guarded s defs a := by
    have hstring : Guarded s defs .anyString :=
      .of_children_eq_nil (by simp [Node.children]) (by simp)
    rcases ha with rfl | rfl | rfl
    . refine .intro (by simp [hx]) ?_
      rintro b (⟨_, hb⟩ | ⟨hn, _⟩)
      . obtain rfl : b = .anyString := by simpa [hx, Node.children] using hb
        exact hstring
      . simp [hx] at hn
    . refine .intro (by simp [he]) ?_
      rintro b (⟨helement, _⟩ | ⟨hn, _⟩)
      . exact absurd he (helement _ _)
      . simp [he] at hn
    . exact hstring
  have htargetOf {a : ExprId} (ha : Part s defs a id) : a = content := by
    rcases ha with ⟨_, ha⟩ | ⟨hn, ha⟩
    . simp [hid, Node.children] at ha
    . rw [hid] at hn
      cases hn
      exact Option.some.inj (ha.symm.trans htarget)
  -- all that can be come to is the reference itself, or made from the attribute and the element
  intro a ha
  have hreached : a = id ∨ Made s (Ingredient x e) a := by
    induction ha using ReflTransGen.head_induction_on with
    | refl => exact Or.inl rfl
    | head hab _ ih =>
      rcases hab with hpart | hn
      . rcases ih with rfl | hb
        . rw [htargetOf hpart]
          exact Or.inr hcontent
        . exact Or.inr (hb.part hclosed hpart)
      . rcases ih with rfl | hb
        . simp [hid] at hn
        . rcases hb with rfl | hb
          . simp at hn
          . rcases hb.base_of_element hn with rfl | rfl | rfl
            . simp [hx] at hn
            . rw [he] at hn
              cases hn
              exact Or.inl rfl
            . simp at hn
  rcases hreached with rfl | ha
  . refine .intro ?_ ?_
    . intro q hq
      rw [hid] at hq
      cases hq
      simp [htarget]
    . intro b hb
      rw [htargetOf hb]
      exact hcontent.guarded hguarded
  . exact ha.guarded hguarded

/--
Nothing changes the language of a guarded expression.
-/
theorem Guarded.language_of_le (h : Guarded s defs id) (hst : s ≤ t) (hdefs : defs ≤ defs')
    (hwithin : defs.Within s) (hid : id ∈ s) : t.language defs' id = s.language defs id := by
  ext w
  constructor
  . intro hw
    refine Matches.of_ge (fun a => a ∈ s ∧ Guarded s defs a) (Definitions.types_eq hdefs) hst
      (fun _ ha => ha.1) ?_ ?_ ⟨hid, h⟩ hw
    . rintro i a ⟨hi, hguarded⟩ helement ha
      exact ⟨Store.mem_of_mem_children hi ha, hguarded.part (.operand helement ha)⟩
    . rintro i r target ⟨hi, hguarded⟩ hn htarget
      obtain ⟨a, ha⟩ := Option.isSome_iff_exists.1 (hguarded.defined hn)
      obtain rfl := Option.some.inj ((Definitions.target?_of_le hdefs ha).symm.trans htarget)
      exact ⟨ha, hwithin r a ha, hguarded.part (.target hn ha)⟩
  . exact Matches.of_le hst hdefs hwithin hid

end TreeGrammar
