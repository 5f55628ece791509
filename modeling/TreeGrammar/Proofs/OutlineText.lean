import TreeGrammar.Proofs.OutlineLines
import TreeGrammar.Proofs.Runs

/-!
This module contains that an outline can be read: its lines are the lines of its text, and the text of a
line tells how far it is indented, which expression it is about and what it says about it.
-/

namespace TreeGrammar

open Relation

section Parting

variable {p : Char → Bool} {x x' y y' : List Char}

theorem takeWhile_append_of_head (hx : ∀ c ∈ x, p c = true) (hy : ∀ c ∈ y.head?, p c = false) :
    (x ++ y).takeWhile p = x := by
  rw [List.takeWhile_append_of_pos hx]
  cases y with
  | nil => simp
  | cons c y => simp [hy c rfl]

theorem dropWhile_append_of_head (hx : ∀ c ∈ x, p c = true) (hy : ∀ c ∈ y.head?, p c = false) :
    (x ++ y).dropWhile p = y := by
  rw [List.dropWhile_append_of_pos hx]
  cases y with
  | nil => rfl
  | cons c y => simp [hy c rfl]

theorem append_inj_of_head (hx : ∀ c ∈ x, p c = true) (hx' : ∀ c ∈ x', p c = true)
    (hy : ∀ c ∈ y.head?, p c = false) (hy' : ∀ c ∈ y'.head?, p c = false)
    (h : x ++ y = x' ++ y') : x = x' ∧ y = y' := by
  constructor
  . rw [← takeWhile_append_of_head hx hy, h, takeWhile_append_of_head hx' hy']
  . rw [← dropWhile_append_of_head hx hy, h, dropWhile_append_of_head hx' hy']

end Parting

namespace Outline

def shownName (defs : Definitions) : Node → String
  | .typedString number => (defs.types number).name
  | .reference r => defs.name r
  | .attribute names _ | .element names _ => names.describe
  | .epsilon | .nullSet | .anyString | .choice .. | .sequence .. | .interleave .. | .oneOrMore _ |
    .mixed _ => ""

/--
No name that is there to be shown has a line break in it.
-/
def Unbroken (s : Store) (defs : Definitions) (root : ExprId) : Prop :=
  ∀ id, ReflTransGen (Inside s defs) id root → '\n' ∉ (shownName defs (s.node id)).toList

/--
The lines can be told from the text.
-/
structure Prints (s : Store) (defs : Definitions) (text : String) (ls : List Line) : Prop where
  split : text.toList.splitOn '\n' = ls.map (fun l => (l.text s defs).toList) ++ [[]]
  injective : Function.Injective (Line.text s defs)
  indented : ∀ l : Line, (l.text s defs).toList.takeWhile (· == ' ') = List.replicate (2 * l.depth) ' '
  again_iff : ∀ l : Line, (l.text s defs).toList.getLast? = some '!' ↔ l.again?.isSome
  undefined_iff : ∀ l : Line, (l.text s defs).toList.getLast? = some '?' ↔
    ∃ id r, l.first? = some id ∧ s.node id = .reference r ∧ defs.target? r = none
  opened_iff : ∀ l : Line, (l.text s defs).toList.getLast? = some '(' ∨
    (l.text s defs).toList.getLast? = some '=' ↔ (l.opened? s).isSome
  closed_iff : ∀ l : Line, (l.text s defs).toList.dropWhile (· == ' ') = [')'] ↔ l.closed?.isSome

def lastMark (defs : Definitions) : Node → Option Char
  | .epsilon | .nullSet | .anyString => none
  | .typedString _ => some ')'
  | .reference r => some (if (defs.target? r).isSome then '>' else '?')
  | .attribute .. | .element .. => some '='
  | .choice .. | .sequence .. | .interleave .. | .oneOrMore _ | .mixed _ => some '('

structure Remark (defs : Definitions) (n : Node) (remark : List Char) : Prop where
  head : ∀ c ∈ remark.head?, c = '('
  unbroken : '\n' ∉ (shownName defs n).toList → '\n' ∉ remark
  getLast : remark.getLast? = lastMark defs n

variable {s : Store} {defs : Definitions} {id root : ExprId} {depth : Nat} {ls : List Line}
variable {l m : Line} {n : Node}

theorem exists_remark (defs : Definitions) (n : Node) (id : ExprId) : ∃ remark, Remark defs n remark ∧
    (heading defs n id).toList = n.kind.toList ++ (Nat.toDigits 10 id.index ++ remark) := by
  unfold heading
  simp only [String.toList_append, Nat.toString_eq_repr, Nat.toList_repr, List.append_assoc]
  refine ⟨_, ?_, rfl⟩
  cases n with
  | reference r =>
    cases htarget : defs.target? r <;>
      constructor <;> simp [shownName, lastMark, htarget, List.getLast?_cons]
  | _ => constructor <;> simp [shownName, lastMark, List.getLast?_cons]

theorem kind_plain (n : Node) : n.kind.toList ≠ [] ∧
    ∀ c ∈ n.kind.toList, c.isDigit = false ∧ c ≠ ' ' ∧ c ≠ ')' ∧ c ≠ '\n' := by
  cases n <;> simp [Node.kind]

theorem isDigit_of_mem_toDigits {i : Nat} {c : Char} (h : c ∈ Nat.toDigits 10 i) :
    c.isDigit = true :=
  Nat.isDigit_of_mem_toDigits (by decide) (by decide) h

theorem named_inj {id id' : ExprId} {n n' : Node} {remark remark' : List Char}
    (hremark : ∀ c ∈ remark.head?, c.isDigit = false)
    (hremark' : ∀ c ∈ remark'.head?, c.isDigit = false)
    (h : n.kind.toList ++ (Nat.toDigits 10 id.index ++ remark) =
      n'.kind.toList ++ (Nat.toDigits 10 id'.index ++ remark')) : id = id' ∧ remark = remark' := by
  have hkind : ∀ n : Node, ∀ c ∈ n.kind.toList, (!c.isDigit) = true := by
    intro n c hc
    rw [((kind_plain n).2 c hc).1]
    rfl
  have hnumber : ∀ (i : Nat) (remark : List Char), ∀ c ∈ (Nat.toDigits 10 i ++ remark).head?,
      (!c.isDigit) = false := by
    intro i remark c hc
    rw [List.head?_append_of_ne_nil _ Nat.toDigits_ne_nil] at hc
    rw [isDigit_of_mem_toDigits (List.mem_of_mem_head? hc)]
    rfl
  obtain ⟨-, hrest⟩ := append_inj_of_head (hkind n) (hkind n') (hnumber id.index remark)
    (hnumber id'.index remark') h
  obtain ⟨hdigits, heq⟩ := append_inj_of_head (p := Char.isDigit)
    (fun _ => isDigit_of_mem_toDigits) (fun _ => isDigit_of_mem_toDigits) hremark hremark' hrest
  have hindex : id.index = id'.index := by
    have hread := congrArg (Nat.ofDigitChars 10 · 0) hdigits
    simpa only [Nat.ofDigitChars_toDigits (b := 10) (by decide) (by decide)] using hread
  cases id
  cases id'
  cases hindex
  exact ⟨rfl, heq⟩

def Line.body (s : Store) (defs : Definitions) : Line → List Char
  | .first _ id => (heading defs (s.node id) id).toList
  | .again _ id => (s.node id).kind.toList ++ (Nat.toDigits 10 id.index ++ ['!'])
  | .close _ => [')']

theorem toList_indentation (depth : Nat) :
    (Line.text.indentation depth).toList = List.replicate (2 * depth) ' ' := by
  unfold Line.text.indentation String.pushn
  induction 2 * depth with
  | zero => rfl
  | succ i ih => simp [Nat.repeat, ih, List.replicate_succ']

theorem toList_text (l : Line) :
    (l.text s defs).toList = List.replicate (2 * l.depth) ' ' ++ l.body s defs := by
  cases l <;> simp [Line.text, Line.body, Line.depth, toList_indentation]

theorem body_ne_nil (l : Line) : l.body s defs ≠ [] := by
  cases l with
  | first depth id =>
    obtain ⟨remark, -, hremark⟩ := exists_remark defs (s.node id) id
    simp [Line.body, hremark, (kind_plain (s.node id)).1]
  | again depth id => simp [Line.body]
  | close depth => simp [Line.body]

theorem eq_close_of_closed? (h : l.closed? ≠ none) : l = .close l.depth := by
  cases l with
  | close depth => rfl
  | _ => exact absurd rfl h

theorem exists_body (s : Store) (defs : Definitions) (h : l.closed? = none) : ∃ id remark,
    l.body s defs = (s.node id).kind.toList ++ (Nat.toDigits 10 id.index ++ remark) ∧
    (∀ c ∈ remark.head?, c.isDigit = false) ∧
    (l = .first l.depth id ∧ remark ≠ ['!'] ∨ l = .again l.depth id ∧ remark = ['!']) := by
  cases l with
  | first depth id =>
    obtain ⟨remark, hremark, hbody⟩ := exists_remark defs (s.node id) id
    have hhead : ∀ c ∈ remark.head?, c.isDigit = false := by
      intro c hc
      rw [hremark.head c hc]
      rfl
    have hne : remark ≠ ['!'] := by
      intro heq
      have := hremark.head '!' (by simp [heq])
      contradiction
    exact ⟨id, remark, hbody, hhead, Or.inl ⟨rfl, hne⟩⟩
  | again depth id =>
    have hhead : ∀ c ∈ ['!'].head?, c.isDigit = false := by
      intro c hc
      cases hc
      rfl
    exact ⟨id, ['!'], rfl, hhead, Or.inr ⟨rfl, rfl⟩⟩
  | close depth => contradiction

theorem head_body_of_closed? (s : Store) (defs : Definitions) (h : l.closed? = none) :
    ∀ c ∈ (l.body s defs).head?, c ≠ ' ' ∧ c ≠ ')' := by
  obtain ⟨id, remark, hbody, -, -⟩ := exists_body s defs h
  intro c hc
  rw [hbody, List.head?_append_of_ne_nil _ (kind_plain _).1] at hc
  have hplain := (kind_plain _).2 c (List.mem_of_mem_head? hc)
  exact ⟨hplain.2.1, hplain.2.2.1⟩

theorem head_body (l : Line) : ∀ c ∈ (l.body s defs).head?, (c == ' ') = false := by
  intro c hc
  by_cases hl : l.closed? = none
  . simpa using (head_body_of_closed? s defs hl c hc).1
  . rw [eq_close_of_closed? hl] at hc
    cases hc
    rfl

theorem body_eq_iff (s : Store) (defs : Definitions) (l : Line) :
    l.body s defs = [')'] ↔ l.closed?.isSome := by
  by_cases hl : l.closed? = none
  . have hhead := head_body_of_closed? s defs hl ')'
    rw [hl]
    constructor
    . intro hbody
      simp [hbody] at hhead
    . simp
  . rw [eq_close_of_closed? hl]
    simp [Line.body, Line.closed?]

theorem spaces_indentation (depth : Nat) :
    ∀ c ∈ List.replicate (2 * depth) ' ', (c == ' ') = true := by
  intro c hc
  simpa using List.eq_of_mem_replicate hc

theorem eq_of_body_eq (hdepth : l.depth = m.depth) (hbody : l.body s defs = m.body s defs) :
    l = m := by
  have hclosed : l.closed? = none ↔ m.closed? = none := by
    rw [← Option.not_isSome_iff_eq_none, ← Option.not_isSome_iff_eq_none,
      ← body_eq_iff s defs, ← body_eq_iff s defs, hbody]
  by_cases hl : l.closed? = none
  . obtain ⟨id, remark, hbodyl, hheadl, hcasesl⟩ := exists_body s defs hl
    obtain ⟨id', remark', hbodym, hheadm, hcasesm⟩ := exists_body s defs (hclosed.mp hl)
    rw [hbodyl, hbodym] at hbody
    have hnamed := named_inj hheadl hheadm hbody
    rw [← hdepth, ← hnamed.1, ← hnamed.2] at hcasesm
    cases hcasesl with
    | inl hfirst =>
      cases hcasesm with
      | inl hfirst' => rw [hfirst.1, hfirst'.1]
      | inr hagain => exact absurd hagain.2 hfirst.2
    | inr hagain =>
      cases hcasesm with
      | inl hfirst => exact absurd hagain.2 hfirst.2
      | inr hagain' => rw [hagain.1, hagain'.1]
  . rw [eq_close_of_closed? hl, eq_close_of_closed? (mt hclosed.mpr hl), hdepth]

theorem text_injective (s : Store) (defs : Definitions) : Function.Injective (Line.text s defs) := by
  intro l m h
  have hlist := congrArg String.toList h
  rw [toList_text, toList_text] at hlist
  have hparted := append_inj_of_head (spaces_indentation l.depth) (spaces_indentation m.depth)
    (head_body l) (head_body m) hlist
  have hlength := congrArg List.length hparted.1
  simp only [List.length_replicate] at hlength
  apply eq_of_body_eq _ hparted.2
  omega

theorem getLast?_text (l : Line) :
    (l.text s defs).toList.getLast? = (l.body s defs).getLast? := by
  rw [toList_text, List.getLast?_append_of_ne_nil _ (body_ne_nil l)]

theorem getLast?_first_eq_some_iff {c : Char} (hc : c.isDigit = false) :
    (Line.text s defs (.first depth id)).toList.getLast? = some c ↔
      lastMark defs (s.node id) = some c := by
  obtain ⟨remark, hremark, hbody⟩ := exists_remark defs (s.node id) id
  rw [getLast?_text, Line.body, hbody, ← hremark.getLast,
    List.getLast?_append_of_ne_nil _ (by simp)]
  by_cases hnone : remark = []
  . rw [hnone, List.append_nil]
    constructor
    . intro hlast
      rw [isDigit_of_mem_toDigits (List.mem_of_getLast? hlast)] at hc
      contradiction
    . simp
  . rw [List.getLast?_append_of_ne_nil _ hnone]

theorem getLast?_again : (Line.text s defs (.again depth id)).toList.getLast? = some '!' := by
  simp [getLast?_text, Line.body, List.getLast?_append]

theorem getLast?_close : (Line.text s defs (.close depth)).toList.getLast? = some ')' := by
  simp [getLast?_text, Line.body]

theorem lastMark_ne_exclamation (defs : Definitions) (n : Node) : lastMark defs n ≠ some '!' := by
  cases n with
  | reference r => cases htarget : defs.target? r <;> simp [lastMark, htarget]
  | _ => simp [lastMark]

theorem lastMark_eq_question_iff :
    lastMark defs n = some '?' ↔ ∃ r, n = .reference r ∧ defs.target? r = none := by
  cases n with
  | reference r => cases htarget : defs.target? r <;> simp [lastMark, htarget]
  | _ => simp [lastMark]

theorem lastMark_opens_iff : lastMark defs n = some '(' ∨ lastMark defs n = some '=' ↔
    n.children.isEmpty = false := by
  cases n with
  | reference r => cases htarget : defs.target? r <;> simp [lastMark, htarget, Node.children]
  | _ => simp [lastMark, Node.children]

theorem splitOn_text (h : ∀ l ∈ ls, '\n' ∉ (l.text s defs).toList) :
    (String.join (ls.map fun l => l.text s defs ++ "\n")).toList.splitOn '\n' =
      ls.map (fun l => (l.text s defs).toList) ++ [[]] := by
  rw [String.toList_join]
  induction ls with
  | nil => rfl
  | cons l ls ih =>
    obtain ⟨hl, hls⟩ := List.forall_mem_cons.mp h
    have hsplit : ∀ rest, ((l.text s defs).toList ++ '\n' :: rest).splitOn '\n' =
        (l.text s defs).toList :: rest.splitOn '\n' := by
      intro rest
      have hline := List.splitOn_eq_singleton hl
      unfold List.splitOn at hline ⊢
      rw [List.splitOnP_append_cons _ _ (by simp), hline, List.singleton_append]
    have hbreak : (l.text s defs ++ "\n").toList = (l.text s defs).toList ++ ['\n'] := by simp
    rw [List.map_cons, List.flatMap_cons, hbreak, List.append_assoc, List.singleton_append, hsplit,
      ih hls, List.map_cons, List.cons_append]

theorem text_unbroken (h : ∀ id, l.first? = some id → '\n' ∉ (shownName defs (s.node id)).toList) :
    '\n' ∉ (l.text s defs).toList := by
  have hnumber : ∀ i : Nat, '\n' ∉ Nat.toDigits 10 i := by
    intro i hi
    have := isDigit_of_mem_toDigits hi
    contradiction
  have hkind : ∀ n : Node, '\n' ∉ n.kind.toList := by
    intro n hn
    exact ((kind_plain n).2 _ hn).2.2.2 rfl
  have hspaces : '\n' ∉ List.replicate (2 * l.depth) ' ' := by
    intro hmem
    have := List.eq_of_mem_replicate hmem
    contradiction
  rw [toList_text, List.mem_append, not_or]
  refine ⟨hspaces, ?_⟩
  cases l with
  | first depth id =>
    obtain ⟨remark, hremark, hbody⟩ := exists_remark defs (s.node id) id
    rw [Line.body, hbody]
    simp [hkind, hnumber, hremark.unbroken (h id rfl)]
  | again depth id => simp [Line.body, hkind, hnumber]
  | close depth => simp [Line.body]

theorem prints_of_isComplete (h : IsComplete s defs root ls) (hnames : Unbroken s defs root) :
    Prints s defs (String.join (ls.map fun l => l.text s defs ++ "\n")) ls where
  split := by
    apply splitOn_text
    intro l hl
    apply text_unbroken
    intro id hid
    have hmem : id ∈ firsts ls := mem_firsts_iff.mpr ⟨l, hl, hid⟩
    exact hnames id ((h.mem_firsts_iff id).mp hmem).2
  injective := text_injective s defs
  indented l := by
    rw [toList_text, takeWhile_append_of_head (spaces_indentation l.depth) (head_body l)]
  again_iff l := by
    cases l with
    | first depth id =>
      rw [getLast?_first_eq_some_iff (by decide)]
      simpa [Line.again?] using lastMark_ne_exclamation defs (s.node id)
    | again depth id => simp [getLast?_again, Line.again?]
    | close depth => simp [getLast?_close, Line.again?]
  undefined_iff l := by
    cases l with
    | first depth id =>
      rw [getLast?_first_eq_some_iff (by decide), lastMark_eq_question_iff]
      simp [Line.first?]
    | again depth id => simp [getLast?_again, Line.first?]
    | close depth => simp [getLast?_close, Line.first?]
  opened_iff l := by
    cases l with
    | first depth id =>
      rw [getLast?_first_eq_some_iff (by decide), getLast?_first_eq_some_iff (by decide),
        lastMark_opens_iff]
      cases hchildren : (s.node id).children.isEmpty <;> simp [Line.opened?, hchildren]
    | again depth id => simp [getLast?_again, Line.opened?]
    | close depth => simp [getLast?_close, Line.opened?]
  closed_iff l := by
    rw [toList_text, dropWhile_append_of_head (spaces_indentation l.depth) (head_body l),
      body_eq_iff]

/--
The outline of an expression shows all that the expression leads to, each expression in full once
and where the traversal comes upon it first, and its text can be read.
-/
theorem outline_complete (s : Store) (defs : Definitions) (root : ExprId)
    (hnames : Unbroken s defs root) :
    IsComplete s defs root (lines s defs root) ∧
      Prints s defs (text s defs root) (lines s defs root) := by
  have hcomplete := (lines_traverses s defs root).isComplete
  exact ⟨hcomplete, prints_of_isComplete hcomplete hnames⟩

/--
A reference that leads back to itself in two places, and one that is not defined.
-/
theorem outline_complete_recursion :
    ∃ (s : Session) (root : ExprId), s.Reachable ∧
      Unbroken s.schema.graph.store s.schema.definitions root ∧
      text s.schema.graph.store s.schema.definitions root =
        "ref3(r)->\n  element8(a=\n    sequence7(\n      ref3!\n      choice6(\n        ref4(u)?\n" ++
          "        sequence5(\n          ref4!\n          ref3!\n        )\n      )\n    )\n  )\n" ∧
      IsComplete s.schema.graph.store s.schema.definitions root
        (lines s.schema.graph.store s.schema.definitions root) ∧
      Prints s.schema.graph.store s.schema.definitions
        (text s.schema.graph.store s.schema.definitions root)
        (lines s.schema.graph.store s.schema.definitions root) := by
  obtain ⟨s, hs, hp⟩ := Session.Reachable.of_leadsTo (fun _ => .string)
    [.bind "r" (.reference "r"), .bind "u" (.reference "u"),
      .define (.variable "r") (.element (.ofLocal "a") (.sequence (.variable "r")
        (.choice (.variable "u") (.sequence (.variable "u") (.variable "r")))))]
    (fun s =>
      decide (text s.schema.graph.store s.schema.definitions ⟨3⟩ =
        "ref3(r)->\n  element8(a=\n    sequence7(\n      ref3!\n      choice6(\n        ref4(u)?\n" ++
          "        sequence5(\n          ref4!\n          ref3!\n        )\n      )\n    )\n  )\n") &&
      s.schema.graph.store.nodes.toList.all fun n =>
        '\n' ∉ (shownName s.schema.definitions n).toList)
    (by simp [Command.isLawful]) (by decide +kernel)
  simp only [Bool.and_eq_true, decide_eq_true_eq, List.all_eq_true] at hp
  obtain ⟨htext, hall⟩ := hp
  have hnames : Unbroken s.schema.graph.store s.schema.definitions ⟨3⟩ := by
    intro id _
    by_cases hid : id ∈ s.schema.graph.store
    . apply hall
      rw [Array.mem_toList_iff]
      exact Array.mem_of_getElem? (Store.getElem?_of_mem hid)
    . by_cases hnode : s.schema.graph.store.node id = .nullSet
      . simp [hnode, shownName]
      . exact absurd (Store.mem_of_node_ne hnode) hid
  exact ⟨s, ⟨3⟩, hs, hnames, htext, outline_complete _ _ _ hnames⟩

end Outline

end TreeGrammar
