import Mathlib.Logic.Relation
import Mathlib.Tactic.ByContra
import TreeGrammar.Proofs.Growth

/-!
This module contains what an expression consists of: its parts, up to the elements in it, and what
it leads to through the contents of elements. An expression is guarded if its parts do not lead back
to it, and what is built of guarded expressions is guarded.
-/

namespace TreeGrammar

open Relation

/--
`Part s defs a id` says that `a` is one step into `id`, and not into the content of an element.
-/
inductive Part (s : Store) (defs : Definitions) : ExprId → ExprId → Prop where
  | operand {id a} : (∀ names content, s.node id ≠ .element names content) →
      a ∈ (s.node id).children → Part s defs a id
  | target {id r a} : s.node id = .reference r → defs.target? r = some a → Part s defs a id

/--
All references in the expression are defined, and none of them leads back to itself without an
element in between.
-/
inductive Guarded (s : Store) (defs : Definitions) : ExprId → Prop where
  | intro {id} : (∀ r, s.node id = .reference r → (defs.target? r).isSome) →
      (∀ a, Part s defs a id → Guarded s defs a) → Guarded s defs id

/--
All references in the expression are defined. They may lead back to themselves.
-/
def FullyDefined (s : Store) (defs : Definitions) (id : ExprId) : Prop :=
  ∀ x r, ReflTransGen (Part s defs) x id → s.node x = .reference r → (defs.target? r).isSome

structure Closed (s : Store) (defs : Definitions) (base : ExprId → Prop) : Prop where
  mem : ∀ id, base id → id ∈ s
  part : ∀ a id, base id → Part s defs a id → base a

def Node.isCompound : Node → Bool
  | .choice .. | .sequence .. | .interleave .. | .oneOrMore _ | .mixed _ => true
  | _ => false

inductive Built (s : Store) (base : ExprId → Prop) : ExprId → Prop where
  | base {id} : base id → Built s base id
  | epsilon : Built s base .epsilon
  | anyString : Built s base .anyString
  | compound {id} : (s.node id).isCompound → (∀ a ∈ (s.node id).children, Built s base a) →
      Built s base id

def Made (s : Store) (base : ExprId → Prop) (id : ExprId) : Prop :=
  id = .nullSet ∨ Built s base id

variable {s t : Store} {defs defs' : Definitions} {base : ExprId → Prop} {id a b : ExprId}

namespace Part

theorem mem (h : Part s defs a id) (hwithin : defs.Within s) (hid : id ∈ s) : a ∈ s := by
  cases h with
  | operand _ ha => exact Store.mem_of_mem_children hid ha
  | target _ htarget => exact hwithin _ _ htarget

theorem of_le (h : Part s defs a id) (hst : s ≤ t) (hdefs : defs ≤ defs') (hid : id ∈ s) :
    Part t defs' a id := by
  cases h with
  | operand helement ha =>
    rw [← Store.node_of_le hst hid] at helement ha
    exact .operand helement ha
  | target hn htarget =>
    rw [← Store.node_of_le hst hid] at hn
    exact .target hn (Definitions.target?_of_le hdefs htarget)

theorem of_ge_same (h : Part t defs a id) (hst : s ≤ t) (hid : id ∈ s) : Part s defs a id := by
  have hnode := Store.node_of_le hst hid
  cases h with
  | operand helement ha =>
    rw [hnode] at helement ha
    exact .operand helement ha
  | target hn htarget =>
    rw [hnode] at hn
    exact .target hn htarget

/--
The parts of an expression do not change once its reference is defined.
-/
theorem of_ge (h : Part t defs' a id) (hst : s ≤ t) (hdefs : defs ≤ defs') (hid : id ∈ s)
    (hdefined : ∀ r, s.node id = .reference r → (defs.target? r).isSome) : Part s defs a id := by
  cases h with
  | operand helement ha =>
    rw [Store.node_of_le hst hid] at helement ha
    exact .operand helement ha
  | target hn htarget =>
    rw [Store.node_of_le hst hid] at hn
    obtain ⟨b, hb⟩ := Option.isSome_iff_exists.1 (hdefined _ hn)
    rw [Definitions.target?_of_le hdefs hb] at htarget
    exact .target hn (hb.trans htarget)

theorem iff_of_isCompound (h : (s.node id).isCompound) :
    Part s defs a id ↔ a ∈ (s.node id).children := by
  constructor
  . rintro (⟨_, ha⟩ | ⟨hn, _⟩)
    . exact ha
    . simp [hn, Node.isCompound] at h
  . intro ha
    refine .operand ?_ ha
    intro names content hn
    simp [hn, Node.isCompound] at h

theorem not_of_children_eq_nil (h : (s.node id).children = []) (hr : ∀ r, s.node id ≠ .reference r) :
    ¬ Part s defs a id := by
  rintro (⟨_, ha⟩ | ⟨hn, _⟩)
  . simp [h] at ha
  . exact hr _ hn

end Part

theorem Store.mem_of_isCompound (h : (s.node id).isCompound) : id ∈ s :=
  Store.mem_of_node_ne fun hn => by simp [hn, Node.isCompound] at h

namespace Guarded

theorem part (h : Guarded s defs id) (ha : Part s defs a id) : Guarded s defs a := by
  cases h with
  | intro _ hparts => exact hparts a ha

theorem of_reflTransGen (h : Guarded s defs id) (ha : ReflTransGen (Part s defs) a id) :
    Guarded s defs a := by
  induction ha using ReflTransGen.head_induction_on with
  | refl => exact h
  | head hab _ ih => exact ih.part hab

theorem defined (h : Guarded s defs id) {r : RefId} (hn : s.node id = .reference r) :
    (defs.target? r).isSome := by
  cases h with
  | intro hdefined _ => exact hdefined r hn

theorem of_children_eq_nil (h : (s.node id).children = []) (hr : ∀ r, s.node id ≠ .reference r) :
    Guarded s defs id :=
  .intro (fun r hn => absurd hn (hr r)) (fun _ ha => absurd ha (Part.not_of_children_eq_nil h hr))

theorem of_le (h : Guarded s defs id) (hst : s ≤ t) (hdefs : defs ≤ defs')
    (hwithin : defs.Within s) (hid : id ∈ s) : Guarded t defs' id := by
  induction h with
  | intro hdefined _ ih =>
    refine .intro ?_ ?_
    . intro r hn
      rw [Store.node_of_le hst hid] at hn
      obtain ⟨target, htarget⟩ := Option.isSome_iff_exists.1 (hdefined r hn)
      rw [Definitions.target?_of_le hdefs htarget]
      rfl
    . intro a ha
      have ha := ha.of_ge hst hdefs hid hdefined
      exact ih a ha (ha.mem hwithin hid)

theorem not_transGen (h : Guarded s defs id) : ¬ TransGen (Part s defs) id id := by
  induction h with
  | intro _ _ ih =>
    intro hcycle
    obtain ⟨a, hid, ha⟩ := TransGen.tail'_iff.1 hcycle
    exact ih a ha (TransGen.head' ha hid)

end Guarded

namespace FullyDefined

theorem of_guarded (h : Guarded s defs id) : FullyDefined s defs id :=
  fun _ _ hx hn => (h.of_reflTransGen hx).defined hn

theorem defined (h : FullyDefined s defs id) {r : RefId} (hn : s.node id = .reference r) :
    (defs.target? r).isSome :=
  h id r .refl hn

theorem part (h : FullyDefined s defs id) (ha : Part s defs a id) : FullyDefined s defs a :=
  fun x r hx hn => h x r (hx.tail ha) hn

theorem of_le (h : FullyDefined s defs id) (hst : s ≤ t) (hdefs : defs ≤ defs')
    (hwithin : defs.Within s) (hid : id ∈ s) : FullyDefined t defs' id := by
  -- what the expression leads to is the same as before
  have hreached {x : ExprId} (hx : ReflTransGen (Part t defs') x id) :
      x ∈ s ∧ ReflTransGen (Part s defs) x id := by
    induction hx using ReflTransGen.head_induction_on with
    | refl => exact ⟨hid, .refl⟩
    | head hab _ ih =>
      obtain ⟨hb, hb'⟩ := ih
      have hab := hab.of_ge hst hdefs hb fun r => h _ r hb'
      exact ⟨hab.mem hwithin hb, .head hab hb'⟩
  intro x r hx hn
  obtain ⟨hmem, hx⟩ := hreached hx
  rw [Store.node_of_le hst hmem] at hn
  obtain ⟨target, htarget⟩ := Option.isSome_iff_exists.1 (h x r hx hn)
  rw [Definitions.target?_of_le hdefs htarget]
  rfl

theorem part_of_le (h : FullyDefined s defs id) (ha : Part s defs a id) (hst : s ≤ t)
    (hwithin : defs.Within s) (hid : id ∈ s) : FullyDefined t defs a :=
  (h.part ha).of_le hst le_rfl hwithin (ha.mem hwithin hid)

end FullyDefined

namespace Closed

theorem of_within (h : defs.Within s) : Closed s defs (· ∈ s) where
  mem _ hid := hid
  part _ _ hid ha := ha.mem h hid

theorem guarded (h : defs.Within s) : Closed s defs fun id => id ∈ s ∧ Guarded s defs id where
  mem _ hid := hid.1
  part _ _ hid ha := ⟨ha.mem h hid.1, hid.2.part ha⟩

theorem of_le (h : Closed s defs base) (hst : s ≤ t) : Closed t defs base where
  mem id hid := Store.mem_of_le hst (h.mem id hid)
  part a id hid ha := h.part a id hid (ha.of_ge_same hst (h.mem id hid))

end Closed

namespace Built

theorem of_le (h : Built s base id) (hst : s ≤ t) : Built t base id := by
  induction h with
  | base hid => exact .base hid
  | epsilon => exact .epsilon
  | anyString => exact .anyString
  | compound hn _ ih =>
    have hnode := Store.node_of_le hst (Store.mem_of_isCompound hn)
    rw [← hnode] at hn ih
    exact .compound hn ih

theorem of_ge (h : Built t base id) (hst : s ≤ t) (hid : id ∈ s) :
    Built s (fun id => base id ∧ id ∈ s) id := by
  induction h with
  | base hbase => exact .base ⟨hbase, hid⟩
  | epsilon => exact .epsilon
  | anyString => exact .anyString
  | compound hn _ ih =>
    rw [Store.node_of_le hst hid] at hn ih
    exact .compound hn fun a ha => ih a ha (Store.mem_of_mem_children hid ha)

theorem mono {base' : ExprId → Prop} (h : Built s base id) (hbase : ∀ id, base id → base' id) :
    Built s base' id := by
  induction h with
  | base hid => exact .base (hbase _ hid)
  | epsilon => exact .epsilon
  | anyString => exact .anyString
  | compound hn _ ih => exact .compound hn ih

theorem mem (h : Built s base id) (hmem : ∀ id, base id → id ∈ s) : id ∈ s := by
  cases h with
  | base hid => exact hmem id hid
  | epsilon => exact s.epsilon_mem
  | anyString => exact s.anyString_mem
  | compound hn _ => exact Store.mem_of_isCompound hn

theorem part (h : Built s base id) (hclosed : Closed s defs base) (ha : Part s defs a id) :
    Built s base a := by
  cases h with
  | base hid => exact .base (hclosed.part a id hid ha)
  | epsilon => exact absurd ha (Part.not_of_children_eq_nil (by simp [Node.children]) (by simp))
  | anyString => exact absurd ha (Part.not_of_children_eq_nil (by simp [Node.children]) (by simp))
  | compound hn hchildren => exact hchildren a ((Part.iff_of_isCompound hn).1 ha)

theorem base_of_element (h : Built s base id) {names : NameClass} {content : ExprId}
    (hn : s.node id = .element names content) : base id := by
  cases h with
  | base hid => exact hid
  | epsilon => simp at hn
  | anyString => simp at hn
  | compound hc _ => simp [hn, Node.isCompound] at hc

theorem guarded (h : Built s base id) (hbase : ∀ id, base id → Guarded s defs id) :
    Guarded s defs id := by
  induction h with
  | base hid => exact hbase _ hid
  | epsilon => exact .of_children_eq_nil (by simp [Node.children]) (by simp)
  | anyString => exact .of_children_eq_nil (by simp [Node.children]) (by simp)
  | compound hn _ ih =>
    refine .intro ?_ ?_
    . intro r hr
      simp [hr, Node.isCompound] at hn
    . intro a ha
      exact ih a ((Part.iff_of_isCompound hn).1 ha)

end Built

namespace Made

theorem of_le (h : Made s base id) (hst : s ≤ t) : Made t base id :=
  h.imp_right fun h => h.of_le hst

theorem of_ge (h : Made t base id) (hst : s ≤ t) (hid : id ∈ s) :
    Made s (fun id => base id ∧ id ∈ s) id :=
  h.imp_right fun h => h.of_ge hst hid

theorem mono {base' : ExprId → Prop} (h : Made s base id) (hbase : ∀ id, base id → base' id) :
    Made s base' id :=
  h.imp_right fun h => h.mono hbase

theorem mem (h : Made s base id) (hmem : ∀ id, base id → id ∈ s) : id ∈ s := by
  rcases h with rfl | h
  . exact s.nullSet_mem
  . exact h.mem hmem

theorem part (h : Made s base id) (hclosed : Closed s defs base) (ha : Part s defs a id) :
    Made s base a := by
  rcases h with rfl | h
  . exact absurd ha (Part.not_of_children_eq_nil (by simp [Node.children]) (by simp))
  . exact Or.inr (h.part hclosed ha)

theorem guarded (h : Made s base id) (hbase : ∀ id, base id → Guarded s defs id) :
    Guarded s defs id := by
  rcases h with rfl | h
  . exact .of_children_eq_nil (by simp [Node.children]) (by simp)
  . exact h.guarded hbase

theorem built (h : Made s base id) (hne : id ≠ .nullSet) : Built s base id :=
  h.resolve_left hne

end Made

/--
`Composed defs s t operands r` says that `r` has been put together from the operands and from what
is inside of them, while the store grew from `s` to `t`.
-/
def Composed (defs : Definitions) (s t : Store) (operands : List ExprId) (r : ExprId) : Prop :=
  ∀ base, Closed s defs base → (∀ a ∈ operands, Made s base a) → Made t base r

namespace Composed

variable {u : Store} {operands operands' : List ExprId} {r : ExprId}

theorem operand (hst : s ≤ t) (hr : r ∈ operands) : Composed defs s t operands r :=
  fun _ _ hmade => (hmade r hr).of_le hst

theorem part (hst : s ≤ t) (hid : id ∈ operands) (hr : Part s defs r id) :
    Composed defs s t operands r :=
  fun _ hclosed hmade => ((hmade id hid).part hclosed hr).of_le hst

theorem nullSet : Composed defs s t operands .nullSet :=
  fun _ _ _ => Or.inl rfl

theorem epsilon : Composed defs s t operands .epsilon :=
  fun _ _ _ => Or.inr .epsilon

theorem anyString : Composed defs s t operands .anyString :=
  fun _ _ _ => Or.inr .anyString

theorem compound (hst : s ≤ t) (hr : (t.node r).isCompound)
    (hchildren : ∀ a ∈ (t.node r).children, a ∈ operands ∧ a ≠ .nullSet) :
    Composed defs s t operands r := by
  intro base _ hmade
  refine Or.inr (.compound hr ?_)
  intro a ha
  obtain ⟨haop, hne⟩ := hchildren a ha
  exact ((hmade a haop).built hne).of_le hst

theorem of_le (h : Composed defs s t operands r) (htu : t ≤ u) : Composed defs s u operands r :=
  fun base hclosed hmade => (h base hclosed hmade).of_le htu

theorem rebase (h : Composed defs s t operands r) (hwithin : defs.Within s)
    (hoperands : ∀ a ∈ operands, a ∈ s) {s' t' : Store} (hs : s ≤ s') (ht : t ≤ t') :
    Composed defs s' t' operands r := by
  intro base hclosed hmade
  -- only what is older than the operands matters
  have hclosed' : Closed s defs fun id => base id ∧ id ∈ s := by
    refine ⟨fun id hid => hid.2, ?_⟩
    rintro a id ⟨hbase, hid⟩ ha
    exact ⟨hclosed.part a id hbase (ha.of_le hs le_rfl hid), ha.mem hwithin hid⟩
  refine ((h _ hclosed' ?_).of_le ht).mono fun _ hid => hid.1
  intro a ha
  exact (hmade a ha).of_ge hs (hoperands a ha)

theorem trans (h : Composed defs t u operands' r) (hst : s ≤ t)
    (hoperands : ∀ a ∈ operands', Composed defs s t operands a) :
    Composed defs s u operands r :=
  fun base hclosed hmade => h base (hclosed.of_le hst) fun a ha =>
    hoperands a ha base hclosed hmade

theorem mem (h : Composed defs s t operands r) (hwithin : defs.Within s) (hst : s ≤ t)
    (hoperands : ∀ a ∈ operands, a ∈ s) : r ∈ t :=
  (h (· ∈ s) (.of_within hwithin) fun a ha => Or.inr (.base (hoperands a ha))).mem fun _ hid =>
    Store.mem_of_le hst hid

theorem guarded (h : Composed defs s t operands r) (hwithin : defs.Within s) (hst : s ≤ t)
    (hoperands : ∀ a ∈ operands, a ∈ s ∧ Guarded s defs a) : Guarded t defs r := by
  have hmade := h _ (.guarded hwithin) fun a ha => Or.inr (.base (hoperands a ha))
  exact hmade.guarded fun a ha => ha.2.of_le hst le_rfl hwithin ha.1

end Composed

end TreeGrammar
