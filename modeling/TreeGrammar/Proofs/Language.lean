import Mathlib.Computability.MyhillNerode
import TreeGrammar.Proofs.Growth
import TreeGrammar.Token

/-!
This module contains the languages of expressions: the sequences of texts, attributes and child
elements that an expression stands for, with references unfolded. They are given by what the nodes
of a store say, without derivatives.
-/

namespace TreeGrammar

/--
A piece of the content of an element. Of a child element it matters only which declarations it
satisfies.
-/
inductive Letter where
  | text (literal : String) (scope : Scope)
  | attribute (name : Name) (value : String) (scope : Scope)
  | element (satisfied : ExprId → Prop)

namespace Letter

def isText : Letter → Bool
  | .text .. => true
  | _ => false

def isAttribute : Letter → Bool
  | .attribute .. => true
  | _ => false

def isIgnorable : Letter → Bool
  | .text literal _ => Text.isBlank literal
  | _ => false

def Satisfies (x : Letter) (declaration : ExprId) : Prop :=
  match x with
  | .element satisfied => satisfied declaration
  | _ => False

end Letter

def Token.letter : Token → Letter
  | .text literal scope => .text literal scope
  | .attribute name value scope => .attribute name value scope
  | .element satisfied => .element (· ∈ satisfied)
  | .anyElement => .element fun _ => True

namespace Token

@[simp]
theorem isText_letter (t : Token) : t.letter.isText = t.isText := by
  cases t <;> rfl

@[simp]
theorem isIgnorable_letter (t : Token) : t.letter.isIgnorable = t.isIgnorable := by
  cases t <;> rfl

theorem satisfies_letter (t : Token) (id : ExprId) : t.letter.Satisfies id ↔ t.satisfies id := by
  cases t <;> simp [letter, Letter.Satisfies, satisfies]

end Token

/--
`Shuffle u v w` says that `w` consists of `u` and `v`, each in its own order.
-/
inductive Shuffle {α : Type} : List α → List α → List α → Prop where
  | nil : Shuffle [] [] []
  | left {x u v w} : Shuffle u v w → Shuffle (x :: u) v (x :: w)
  | right {x u v w} : Shuffle u v w → Shuffle u (x :: v) (x :: w)

theorem Shuffle.mem_iff {α : Type} {u v w : List α} (h : Shuffle u v w) (x : α) :
    x ∈ w ↔ x ∈ u ∨ x ∈ v := by
  induction h with
  | nil => simp
  | left _ ih => rw [List.mem_cons, List.mem_cons, ih, or_assoc]
  | right _ ih => rw [List.mem_cons, List.mem_cons, ih, or_left_comm]

/--
The word is in the language of the expression.
-/
inductive Matches (s : Store) (defs : Definitions) : ExprId → List Letter → Prop where
  | epsilon {id} : s.node id = .epsilon → Matches s defs id []
  | anyString {id w} : s.node id = .anyString → (∀ x ∈ w, x.isText) → Matches s defs id w
  | typedString {id number literal scope} : s.node id = .typedString number →
      (defs.types number).accepts scope literal → Matches s defs id [.text literal scope]
  | fullAttribute {id names content name value scope} : s.node id = .attribute names content →
      names.contains name → Matches s defs content [.text value scope] →
      Matches s defs id [.attribute name value scope]
  -- a blank value is as good as none
  | blankAttribute {id names content name value scope} : s.node id = .attribute names content →
      names.contains name → Text.isBlank value → Matches s defs content [] →
      Matches s defs id [.attribute name value scope]
  | element {id names content x} : s.node id = .element names content → x.Satisfies id →
      Matches s defs id [x]
  | choiceLeft {id a b w} : s.node id = .choice a b → Matches s defs a w → Matches s defs id w
  | choiceRight {id a b w} : s.node id = .choice a b → Matches s defs b w → Matches s defs id w
  | sequence {id a b u v} : s.node id = .sequence a b → Matches s defs a u → Matches s defs b v →
      Matches s defs id (u ++ v)
  | interleave {id a b u v w} : s.node id = .interleave a b → Matches s defs a u →
      Matches s defs b v → Shuffle u v w → Matches s defs id w
  | once {id a w} : s.node id = .oneOrMore a → Matches s defs a w → Matches s defs id w
  | more {id a u v} : s.node id = .oneOrMore a → Matches s defs a u → Matches s defs id v →
      Matches s defs id (u ++ v)
  | mixed {id a w} : s.node id = .mixed a → Matches s defs a (w.filter (!·.isText)) →
      Matches s defs id w
  | reference {id r target w} : s.node id = .reference r → defs.target? r = some target →
      Matches s defs target w → Matches s defs id w

def Store.language (s : Store) (defs : Definitions) (id : ExprId) : Language Letter :=
  ({w | Matches s defs id w} : Set (List Letter))

/--
The words made of a word of the one language and a word of the other, in any interleaving.
-/
def Language.shuffle {α : Type} (l m : Language α) : Language α :=
  ({w | ∃ u ∈ l, ∃ v ∈ m, Shuffle u v w} : Set (List α))

/--
The words that are in the language but for text.
-/
def Language.mixed (l : Language Letter) : Language Letter :=
  ({w | w.filter (!·.isText) ∈ l} : Set (List Letter))

namespace Language

theorem mem_shuffle {α : Type} {l m : Language α} {w : List α} :
    w ∈ shuffle l m ↔ ∃ u ∈ l, ∃ v ∈ m, Shuffle u v w := Iff.rfl

theorem mem_mixed {l : Language Letter} {w : List Letter} :
    w ∈ mixed l ↔ w.filter (!·.isText) ∈ l := Iff.rfl

end Language

namespace Store

open Computability

variable {s : Store} {defs : Definitions} {id a b : ExprId} {w : List Letter}

theorem mem_language : w ∈ s.language defs id ↔ Matches s defs id w := Iff.rfl

theorem language_of_epsilon (h : s.node id = .epsilon) : s.language defs id = 1 := by
  ext w
  rw [mem_language, Language.mem_one]
  constructor
  . intro hw
    cases hw <;> simp_all
  . intro hw
    rw [hw]
    exact .epsilon h

theorem language_of_nullSet (h : s.node id = .nullSet) : s.language defs id = 0 := by
  ext w
  rw [mem_language]
  constructor
  . intro hw
    cases hw <;> simp_all
  . intro hw
    exact absurd hw (Language.notMem_zero w)

@[simp]
theorem language_epsilon : s.language defs .epsilon = 1 := language_of_epsilon s.node_epsilon

@[simp]
theorem language_nullSet : s.language defs .nullSet = 0 := language_of_nullSet s.node_nullSet

theorem mem_language_of_anyString (h : s.node id = .anyString) :
    w ∈ s.language defs id ↔ ∀ x ∈ w, x.isText := by
  rw [mem_language]
  constructor
  . intro hw
    cases hw <;> simp_all
  . exact .anyString h

theorem mem_language_of_typedString {number : Nat} (h : s.node id = .typedString number) :
    w ∈ s.language defs id ↔
      ∃ x, (∃ literal scope, (defs.types number).accepts scope literal ∧ x = .text literal scope) ∧
        w = [x] := by
  rw [mem_language]
  constructor
  . intro hw
    cases hw with
    | typedString hid haccepts =>
      rw [h] at hid
      cases hid
      exact ⟨_, ⟨_, _, haccepts, rfl⟩, rfl⟩
    | _ => simp_all
  . rintro ⟨_, ⟨literal, scope, haccepts, rfl⟩, rfl⟩
    exact .typedString h haccepts

def AcceptsValue (s : Store) (defs : Definitions) (value : String) (scope : Scope)
    (content : ExprId) : Prop :=
  [.text value scope] ∈ s.language defs content ∨
    Text.isBlank value ∧ [] ∈ s.language defs content

theorem mem_language_of_attribute {names : NameClass} {content : ExprId}
    (h : s.node id = .attribute names content) :
    w ∈ s.language defs id ↔
      ∃ x, (∃ name value scope, names.contains name ∧ s.AcceptsValue defs value scope content ∧
        x = .attribute name value scope) ∧ w = [x] := by
  unfold AcceptsValue
  simp only [mem_language]
  constructor
  . intro hw
    cases hw with
    | fullAttribute hid hname hvalue =>
      rw [h] at hid
      cases hid
      exact ⟨_, ⟨_, _, _, hname, Or.inl hvalue, rfl⟩, rfl⟩
    | blankAttribute hid hname hblank hempty =>
      rw [h] at hid
      cases hid
      exact ⟨_, ⟨_, _, _, hname, Or.inr ⟨hblank, hempty⟩, rfl⟩, rfl⟩
    | _ => simp_all
  . rintro ⟨_, ⟨name, value, scope, hname, hvalue | ⟨hblank, hempty⟩, rfl⟩, rfl⟩
    . exact .fullAttribute h hname hvalue
    . exact .blankAttribute h hname hblank hempty

theorem mem_language_of_element {names : NameClass} {content : ExprId}
    (h : s.node id = .element names content) :
    w ∈ s.language defs id ↔ ∃ x : Letter, x.Satisfies id ∧ w = [x] := by
  rw [mem_language]
  constructor
  . intro hw
    cases hw with
    | element _ hx => exact ⟨_, hx, rfl⟩
    | _ => simp_all
  . rintro ⟨x, hx, rfl⟩
    exact .element h hx

theorem language_of_choice (h : s.node id = .choice a b) :
    s.language defs id = s.language defs a + s.language defs b := by
  ext w
  rw [Language.mem_add]
  simp only [mem_language]
  constructor
  . intro hw
    cases hw <;> simp_all
  . rintro (hw | hw)
    . exact .choiceLeft h hw
    . exact .choiceRight h hw

theorem language_of_sequence (h : s.node id = .sequence a b) :
    s.language defs id = s.language defs a * s.language defs b := by
  ext w
  rw [Language.mem_mul]
  simp only [mem_language]
  constructor
  . intro hw
    cases hw with
    | sequence hid hu hv =>
      rw [h] at hid
      cases hid
      exact ⟨_, hu, _, hv, rfl⟩
    | _ => simp_all
  . rintro ⟨u, hu, v, hv, rfl⟩
    exact .sequence h hu hv

theorem language_of_interleave (h : s.node id = .interleave a b) :
    s.language defs id = Language.shuffle (s.language defs a) (s.language defs b) := by
  ext w
  rw [Language.mem_shuffle]
  simp only [mem_language]
  constructor
  . intro hw
    cases hw with
    | interleave hid hu hv hw =>
      rw [h] at hid
      cases hid
      exact ⟨_, hu, _, hv, hw⟩
    | _ => simp_all
  . rintro ⟨u, hu, v, hv, hw⟩
    exact .interleave h hu hv hw

theorem language_of_oneOrMore (h : s.node id = .oneOrMore a) :
    s.language defs id = s.language defs a * (s.language defs a)∗ := by
  ext w
  constructor
  . intro hw
    rw [mem_language] at hw
    -- only a further round is an expression of the same kind again
    generalize hid : id = i at hw
    induction hw with
    | once hi hu =>
      subst hid
      rw [h] at hi
      cases hi
      exact Language.mem_mul.2 ⟨_, hu, [], Language.nil_mem_kstar _, List.append_nil _⟩
    | more hi hu _ _ ih =>
      subst hid
      rw [h] at hi
      cases hi
      have hv := Language.mem_mul.1 (ih rfl)
      obtain ⟨first, hfirst, rest, ⟨rounds, rfl, hrounds⟩, rfl⟩ := hv
      refine Language.mem_mul.2 ⟨_, hu, _, ⟨first :: rounds, rfl, ?_⟩, rfl⟩
      intro round hround
      rcases List.mem_cons.1 hround with rfl | hround
      . exact hfirst
      . exact hrounds round hround
    | _ => simp_all
  . intro hw
    obtain ⟨u, hu, v, ⟨rounds, rfl, hrounds⟩, rfl⟩ := Language.mem_mul.1 hw
    clear hw
    induction rounds generalizing u with
    | nil =>
      rw [List.flatten_nil, List.append_nil]
      exact .once h hu
    | cons round rounds ih =>
      rw [List.flatten_cons]
      refine .more h hu (ih round (hrounds round List.mem_cons_self) ?_)
      intro v hv
      exact hrounds v (List.mem_cons_of_mem _ hv)

theorem language_of_mixed (h : s.node id = .mixed a) :
    s.language defs id = Language.mixed (s.language defs a) := by
  ext w
  rw [Language.mem_mixed]
  simp only [mem_language]
  constructor
  . intro hw
    cases hw <;> simp_all
  . exact .mixed h

theorem language_of_reference {r : RefId} {target : ExprId} (h : s.node id = .reference r)
    (ht : defs.target? r = some target) : s.language defs id = s.language defs target := by
  ext w
  simp only [mem_language]
  constructor
  . intro hw
    cases hw <;> simp_all
  . exact .reference h ht

end Store

namespace Matches

variable {s t : Store} {defs defs' : Definitions} {id : ExprId} {w : List Letter}

theorem of_le (hst : s ≤ t) (hdefs : defs ≤ defs') (hwithin : defs.Within s) (hid : id ∈ s)
    (h : Matches s defs id w) : Matches t defs' id w := by
  induction h with
  | epsilon hn => exact .epsilon ((Store.node_of_le hst hid).trans hn)
  | anyString hn hw => exact .anyString ((Store.node_of_le hst hid).trans hn) hw
  | typedString hn h =>
    rw [← Definitions.types_eq hdefs] at h
    exact .typedString ((Store.node_of_le hst hid).trans hn) h
  | element hn h => exact .element ((Store.node_of_le hst hid).trans hn) h
  | fullAttribute hn hname _ ih =>
    have hc := ih (Store.mem_of_mem_children hid (by simp [hn, Node.children]))
    exact .fullAttribute ((Store.node_of_le hst hid).trans hn) hname hc
  | blankAttribute hn hname hblank _ ih =>
    have hc := ih (Store.mem_of_mem_children hid (by simp [hn, Node.children]))
    exact .blankAttribute ((Store.node_of_le hst hid).trans hn) hname hblank hc
  | choiceLeft hn _ ih =>
    have ha := ih (Store.mem_of_mem_children hid (by simp [hn, Node.children]))
    exact .choiceLeft ((Store.node_of_le hst hid).trans hn) ha
  | choiceRight hn _ ih =>
    have hb := ih (Store.mem_of_mem_children hid (by simp [hn, Node.children]))
    exact .choiceRight ((Store.node_of_le hst hid).trans hn) hb
  | sequence hn _ _ iha ihb =>
    have ha := iha (Store.mem_of_mem_children hid (by simp [hn, Node.children]))
    have hb := ihb (Store.mem_of_mem_children hid (by simp [hn, Node.children]))
    exact .sequence ((Store.node_of_le hst hid).trans hn) ha hb
  | interleave hn _ _ hw iha ihb =>
    have ha := iha (Store.mem_of_mem_children hid (by simp [hn, Node.children]))
    have hb := ihb (Store.mem_of_mem_children hid (by simp [hn, Node.children]))
    exact .interleave ((Store.node_of_le hst hid).trans hn) ha hb hw
  | once hn _ ih =>
    have ha := ih (Store.mem_of_mem_children hid (by simp [hn, Node.children]))
    exact .once ((Store.node_of_le hst hid).trans hn) ha
  | more hn _ _ iha ih =>
    have ha := iha (Store.mem_of_mem_children hid (by simp [hn, Node.children]))
    exact .more ((Store.node_of_le hst hid).trans hn) ha (ih hid)
  | mixed hn _ ih =>
    have ha := ih (Store.mem_of_mem_children hid (by simp [hn, Node.children]))
    exact .mixed ((Store.node_of_le hst hid).trans hn) ha
  | reference hn htarget _ ih =>
    exact .reference ((Store.node_of_le hst hid).trans hn) (Definitions.target?_of_le hdefs htarget)
      (ih (hwithin _ _ htarget))

theorem of_ge (known : ExprId → Prop) (htypes : defs'.types = defs.types) (hst : s ≤ t)
    (hmem : ∀ id, known id → id ∈ s)
    (hchild : ∀ id a, known id → (∀ names content, s.node id ≠ .element names content) →
      a ∈ (s.node id).children → known a)
    (htarget : ∀ id r target, known id → s.node id = .reference r →
      defs'.target? r = some target → defs.target? r = some target ∧ known target)
    (hid : known id) (h : Matches t defs' id w) : Matches s defs id w := by
  have node {i : ExprId} {n : Node} (hi : known i) (hn : t.node i = n) : s.node i = n :=
    (Store.node_of_le hst (hmem i hi)).symm.trans hn
  have child {i a : ExprId} {n : Node} (hi : known i) (hn : t.node i = n)
      (helement : ∀ names content, n ≠ .element names content) (ha : a ∈ n.children) :
      known a := by
    rw [← node hi hn] at helement ha
    exact hchild i a hi helement ha
  induction h with
  | epsilon hn => exact .epsilon (node hid hn)
  | anyString hn hw => exact .anyString (node hid hn) hw
  | typedString hn h => exact .typedString (node hid hn) (htypes ▸ h)
  | element hn h => exact .element (node hid hn) h
  | fullAttribute hn hname _ ih =>
    have hc := ih (child hid hn (by simp) (by simp [Node.children]))
    exact .fullAttribute (node hid hn) hname hc
  | blankAttribute hn hname hblank _ ih =>
    have hc := ih (child hid hn (by simp) (by simp [Node.children]))
    exact .blankAttribute (node hid hn) hname hblank hc
  | choiceLeft hn _ ih =>
    have ha := ih (child hid hn (by simp) (by simp [Node.children]))
    exact .choiceLeft (node hid hn) ha
  | choiceRight hn _ ih =>
    have hb := ih (child hid hn (by simp) (by simp [Node.children]))
    exact .choiceRight (node hid hn) hb
  | sequence hn _ _ iha ihb =>
    have ha := iha (child hid hn (by simp) (by simp [Node.children]))
    have hb := ihb (child hid hn (by simp) (by simp [Node.children]))
    exact .sequence (node hid hn) ha hb
  | interleave hn _ _ hw iha ihb =>
    have ha := iha (child hid hn (by simp) (by simp [Node.children]))
    have hb := ihb (child hid hn (by simp) (by simp [Node.children]))
    exact .interleave (node hid hn) ha hb hw
  | once hn _ ih =>
    have ha := ih (child hid hn (by simp) (by simp [Node.children]))
    exact .once (node hid hn) ha
  | more hn _ _ iha ih =>
    have ha := iha (child hid hn (by simp) (by simp [Node.children]))
    exact .more (node hid hn) ha (ih hid)
  | mixed hn _ ih =>
    have ha := ih (child hid hn (by simp) (by simp [Node.children]))
    exact .mixed (node hid hn) ha
  | reference hn h _ ih =>
    obtain ⟨h, hknown⟩ := htarget _ _ _ hid (node hid hn) h
    exact .reference (node hid hn) h (ih hknown)

end Matches

namespace Store

variable {s t : Store} {defs : Definitions} {id : ExprId}

theorem language_of_le (hst : s ≤ t) (hwithin : defs.Within s) (hid : id ∈ s) :
    t.language defs id = s.language defs id := by
  ext w
  constructor
  . intro hw
    refine Matches.of_ge (· ∈ s) rfl hst (fun _ h => h) ?_ ?_ hid hw
    . intro i a hi _ ha
      exact mem_of_mem_children hi ha
    . intro _ r target _ _ hr
      exact ⟨hr, hwithin r target hr⟩
  . exact Matches.of_le hst le_rfl hwithin hid

end Store

end TreeGrammar
