import TreeGrammar.Proofs.Check

/-!
This module contains that an outline is complete and says nothing twice: it is a traversal of the graph,
depth first and from left to right, that shows each expression in full where it comes upon it for the
first time, and only names it from then on.
-/

namespace TreeGrammar

open Relation

namespace Outline

namespace Line

def depth : Line → Nat
  | .first depth _ | .again depth _ | .close depth => depth

def first? : Line → Option ExprId
  | .first _ id => some id
  | .again .. | .close _ => none

def again? : Line → Option ExprId
  | .again _ id => some id
  | .first .. | .close _ => none

def opened? (s : Store) : Line → Option Nat
  | .first depth id => if (s.node id).children.isEmpty then none else some depth
  | .again .. | .close _ => none

def closed? : Line → Option Nat
  | .close depth => some depth
  | .first .. | .again .. => none

end Line

def firsts (ls : List Line) : List ExprId := ls.filterMap Line.first?

def repeats (ls : List Line) : List ExprId := ls.filterMap Line.again?

def ending (depth : Nat) (n : Node) : List Line := if n.children.isEmpty then [] else [.close depth]

/--
`Traverses s defs seen depth ids ls` says that the lines show the expressions `ids` side by side,
each with what it is made of, when the expressions `seen` have been shown before.
-/
inductive Traverses (s : Store) (defs : Definitions) :
    List ExprId → Nat → List ExprId → List Line → Prop where
  | nil {seen depth} : Traverses s defs seen depth [] []
  | first {seen depth id ids inner rest} : id ∈ s → id ∉ seen →
    Traverses s defs (id :: seen) (depth + 1) (parts defs (s.node id)) inner →
    Traverses s defs (id :: firsts inner ++ seen) depth ids rest →
    Traverses s defs seen depth (id :: ids)
      (.first depth id :: (inner ++ (ending depth (s.node id) ++ rest)))
  | again {seen depth id ids rest} : (id ∈ s → id ∈ seen) →
    Traverses s defs seen depth ids rest →
    Traverses s defs seen depth (id :: ids) (.again depth id :: rest)

def Enclosed (s : Store) (ls : List Line) : Prop :=
  ∀ before l after depth, ls = before ++ l :: after → l.opened? s = some depth →
    ∃ inner rest, after = inner ++ .close depth :: rest ∧ ∀ m ∈ inner, depth < m.depth

/--
The lines show all that the expression leads to.
-/
structure IsComplete (s : Store) (defs : Definitions) (root : ExprId) (ls : List Line) : Prop where
  traverses : Traverses s defs [] 0 [root] ls
  mem_firsts_iff : ∀ id, id ∈ firsts ls ↔ id ∈ s ∧ ReflTransGen (Inside s defs) id root
  nodup : (firsts ls).Nodup
  pairwise : ls.Pairwise fun l m => ∀ id, m.first? = some id → l.first? ≠ some id ∧ l.again? ≠ some id
  perm : (firsts ls ++ repeats ls).Perm (root :: (firsts ls).flatMap fun id => parts defs (s.node id))
  enclosed : Enclosed s ls
  closed : (ls.filterMap Line.closed?).Perm (ls.filterMap (Line.opened? s))
  length_le : ls.length ≤ 3 * s.size + 1

variable {s : Store} {defs : Definitions} {v w : Visited} {id a root : ExprId} {depth : Nat}
variable {seen ids : List ExprId} {tasks : List Task} {ls ms : List Line} {l : Line} {n : Node}

theorem inside_iff_mem_parts : Inside s defs a id ↔ a ∈ parts defs (s.node id) := by
  constructor
  . intro h
    cases h with
    | part h =>
      cases h with
      | operand _ ha =>
        cases hn : s.node id <;> simp_all [parts, Node.children]
      | target hn htarget => simp [hn, parts, htarget]
    | content hn => simp [hn, parts, Node.children]
  . intro h
    cases hn : s.node id with
    | reference r =>
      rw [hn, parts, Option.mem_toList] at h
      exact .part (.target hn h)
    | element names content =>
      rw [hn, parts, Node.children, List.mem_singleton] at h
      . subst h
        exact .content hn
      . simp
    | _ =>
      apply Inside.part
      apply Part.operand
      . simp [hn]
      . simpa [hn, parts] using h

theorem mem_of_mem_parts (h : a ∈ parts defs (s.node id)) : id ∈ s := by
  apply Store.mem_of_node_ne
  intro hn
  simp [hn, parts, Node.children] at h

section Lists

@[simp]
theorem firsts_nil : firsts [] = [] := rfl

@[simp]
theorem firsts_again : firsts (.again depth id :: ls) = firsts ls := rfl

@[simp]
theorem repeats_nil : repeats [] = [] := rfl

@[simp]
theorem repeats_again : repeats (.again depth id :: ls) = id :: repeats ls := rfl

theorem eq_close_of_mem_ending (h : l ∈ ending depth n) : l = .close depth := by
  unfold ending at h
  split at h
  . contradiction
  . exact List.mem_singleton.mp h

@[simp]
theorem firsts_block : firsts (.first depth id :: (ls ++ (ending depth n ++ ms))) =
    id :: (firsts ls ++ firsts ms) := by
  have hend : firsts (ending depth n) = [] := by
    unfold ending
    split <;> rfl
  have hfirst : Line.first? (.first depth id) = some id := rfl
  unfold firsts at hend ⊢
  rw [List.filterMap_cons_some hfirst, List.filterMap_append, List.filterMap_append, hend,
    List.nil_append]

@[simp]
theorem repeats_block : repeats (.first depth id :: (ls ++ (ending depth n ++ ms))) =
    repeats ls ++ repeats ms := by
  have hend : repeats (ending depth n) = [] := by
    unfold ending
    split <;> rfl
  unfold repeats at hend ⊢
  rw [List.filterMap_cons_none rfl, List.filterMap_append, List.filterMap_append, hend,
    List.nil_append]

theorem mem_firsts_iff : id ∈ firsts ls ↔ ∃ l ∈ ls, l.first? = some id := List.mem_filterMap

theorem mem_repeats_iff : id ∈ repeats ls ↔ ∃ l ∈ ls, l.again? = some id := List.mem_filterMap

end Lists

section Lines

theorem linesFrom_eq (s : Store) (defs : Definitions) (v : Visited) (tasks : List Task) :
    linesFrom s defs v tasks =
      match tasks with
      | [] => []
      | .leave depth :: tasks => .close depth :: linesFrom s defs v tasks
      | .enter depth id :: tasks =>
        match v.visit? id with
        | none => .again depth id :: linesFrom s defs v tasks
        | some w =>
          .first depth id :: linesFrom s defs w (tasksBelow defs depth (s.node id) ++ tasks) := by
  rw [linesFrom.eq_def]
  split
  . rfl
  . rfl
  . split
    . next hvisit => simp only [hvisit]
    . next hvisit => simp only [hvisit]

theorem linesFrom_nil : linesFrom s defs v [] = [] :=
  linesFrom_eq s defs v []

theorem linesFrom_first (h : v.visit? id = some w) :
    linesFrom s defs v (.enter depth id :: tasks) =
      .first depth id :: linesFrom s defs w (tasksBelow defs depth (s.node id) ++ tasks) := by
  have hlines := linesFrom_eq s defs v (.enter depth id :: tasks)
  simpa only [h] using hlines

theorem linesFrom_again (h : v.visit? id = none) :
    linesFrom s defs v (.enter depth id :: tasks) = .again depth id :: linesFrom s defs v tasks := by
  have hlines := linesFrom_eq s defs v (.enter depth id :: tasks)
  simpa only [h] using hlines

theorem linesFrom_ending :
    linesFrom s defs v ((if n.children.isEmpty then [] else [.leave depth]) ++ tasks) =
      ending depth n ++ linesFrom s defs v tasks := by
  unfold ending
  split
  . rfl
  . exact linesFrom_eq s defs v (.leave depth :: tasks)

structure Holds (v : Visited) (s : Store) (seen : List ExprId) : Prop where
  bound : v.bound = s.size
  mem_iff : ∀ a, a ∈ v.seen ↔ a ∈ seen

theorem Holds.congr {seen' : List ExprId} (hv : Holds v s seen) (h : ∀ a, a ∈ seen ↔ a ∈ seen') :
    Holds v s seen' := by
  constructor
  . exact hv.bound
  . intro a
    rw [hv.mem_iff, h]

theorem Holds.visit (hv : Holds v s seen) (h : v.visit? id = some w) :
    id ∈ s ∧ id ∉ seen ∧ Holds w s (id :: seen) := by
  have hw := Visited.seen_of_visit? h
  constructor
  . rw [Store.mem_iff, ← hv.bound]
    by_contra hlt
    simp [Visited.visit?, hlt] at h
  . constructor
    . rw [← hv.mem_iff]
      exact Visited.not_mem_seen_of_visit? h
    . constructor
      . rw [hw.1, hv.bound]
      . intro a
        rw [hw.2, hv.mem_iff, List.mem_cons, or_comm]

/--
Expressions side by side are shown one after the other, with all that is below each of them in
between.
-/
theorem linesFrom_enter (defs : Definitions) {v : Visited} {seen : List ExprId} (hv : Holds v s seen)
    (depth : Nat) (ids : List ExprId) (tasks : List Task) :
    ∃ w ls, linesFrom s defs v (ids.map (.enter depth) ++ tasks) = ls ++ linesFrom s defs w tasks ∧
      Traverses s defs seen depth ids ls ∧ Holds w s (firsts ls ++ seen) ∧
      w.remaining ≤ v.remaining := by
  match ids with
  | [] => exact ⟨v, [], rfl, .nil, hv, le_rfl⟩
  | id :: ids =>
    rw [List.map_cons, List.cons_append]
    cases hvisit : v.visit? id with
    | none =>
      obtain ⟨w, rest, hlines, hrest, hw, hle⟩ := linesFrom_enter defs hv depth ids tasks
      have hseen : id ∈ s → id ∈ seen := by
        intro hid
        rw [← hv.mem_iff]
        apply Visited.mem_seen_of_visit?_eq_none hvisit
        rw [hv.bound]
        exact hid
      refine ⟨w, .again depth id :: rest, ?_, .again hseen hrest, hw, hle⟩
      rw [linesFrom_again hvisit, hlines, List.cons_append]
    | some u =>
      have hlt := Visited.remaining_lt_of_visit? hvisit
      obtain ⟨hid, hnew, hu⟩ := hv.visit hvisit
      obtain ⟨t, inner, hlines, hinner, ht, hle⟩ := linesFrom_enter defs hu (depth + 1)
        (parts defs (s.node id)) ((if (s.node id).children.isEmpty then [] else [.leave depth]) ++
          (ids.map (.enter depth) ++ tasks))
      -- what is shown below the expression has been seen by those that stand beside it
      have ht : Holds t s (id :: firsts inner ++ seen) := by
        apply ht.congr
        simp [or_left_comm]
      obtain ⟨w, rest, hlines', hrest, hw, hle'⟩ := linesFrom_enter defs ht depth ids tasks
      refine ⟨w, _, ?_, .first hid hnew hinner hrest, ?_, by omega⟩
      . rw [linesFrom_first hvisit, tasksBelow, List.append_assoc, hlines, linesFrom_ending, hlines']
        simp only [List.cons_append, List.append_assoc]
      . apply hw.congr
        intro a
        simp only [firsts_block, List.cons_append, List.mem_cons, List.mem_append]
        tauto
-- The numbers of parts do not fall along references. What falls when an expression is shown in full is
-- the number of those that have not been met.
termination_by (v.remaining, ids.length)
decreasing_by
  . exact Prod.Lex.right _ (by simp)
  . exact Prod.Lex.left _ _ hlt
  . exact Prod.Lex.left _ _ (by omega)

theorem lines_traverses (s : Store) (defs : Definitions) (root : ExprId) :
    Traverses s defs [] 0 [root] (lines s defs root) := by
  have hv : Holds { bound := s.size } s [] := ⟨rfl, by simp⟩
  obtain ⟨w, ls, hlines, htraverses, -, -⟩ := linesFrom_enter defs hv 0 [root] []
  rw [linesFrom_nil, List.append_nil, List.append_nil] at hlines
  rw [List.map_singleton] at hlines
  unfold lines
  rw [hlines]
  exact htraverses

end Lines

namespace Traverses

theorem le_depth (h : Traverses s defs seen depth ids ls) : ∀ l ∈ ls, depth ≤ l.depth := by
  induction h with
  | nil => simp
  | @first seen depth id ids inner rest _ _ _ _ ihinner ihrest =>
    intro l hl
    simp only [List.mem_cons, List.mem_append] at hl
    rcases hl with rfl | hl | hl | hl
    . exact le_rfl
    . exact (Nat.le_succ depth).trans (ihinner l hl)
    . rw [eq_close_of_mem_ending hl]
      exact le_rfl
    . exact ihrest l hl
  | again _ _ ih =>
    rw [List.forall_mem_cons]
    exact ⟨le_rfl, ih⟩

theorem fresh (h : Traverses s defs seen depth ids ls) : ∀ b ∈ firsts ls, b ∈ s ∧ b ∉ seen := by
  induction h with
  | nil => simp
  | first hid hnew _ _ ihinner ihrest =>
    intro b hb
    simp only [firsts_block, List.mem_cons, List.mem_append] at hb
    rcases hb with rfl | hb | hb
    . exact ⟨hid, hnew⟩
    . have h := ihinner b hb
      simp only [List.mem_cons, not_or] at h
      exact ⟨h.1, h.2.2⟩
    . have h := ihrest b hb
      simp only [List.mem_append, not_or] at h
      exact ⟨h.1, h.2.2⟩
  | again _ _ ih => exact ih

theorem nodup (h : Traverses s defs seen depth ids ls) : (firsts ls).Nodup := by
  induction h with
  | nil => exact .nil
  | @first seen depth id ids inner rest _ _ hinner hrest ihinner ihrest =>
    have hnotInner : id ∉ firsts inner := by
      intro hid
      exact (hinner.fresh id hid).2 List.mem_cons_self
    have hlater : ∀ b ∈ firsts rest, b ≠ id ∧ b ∉ firsts inner := by
      intro b hb
      have h := (hrest.fresh b hb).2
      simp only [List.mem_append, List.mem_cons, not_or] at h
      exact h.1
    rw [firsts_block, List.nodup_cons, List.nodup_append, List.mem_append, not_or]
    refine ⟨⟨hnotInner, ?_⟩, ihinner, ihrest, ?_⟩
    . intro hid
      exact (hlater id hid).1 rfl
    . intro a ha b hb hab
      rw [hab] at ha
      exact (hlater b hb).2 ha
  | again _ _ ih => exact ih

theorem mem_of_mem_ids (h : Traverses s defs seen depth ids ls) :
    ∀ a ∈ ids, a ∈ s → a ∈ firsts ls ∨ a ∈ seen := by
  induction h with
  | nil => simp
  | first _ _ _ _ _ ihrest =>
    intro a ha hmem
    rw [firsts_block, List.mem_cons, List.mem_append]
    cases List.mem_cons.mp ha with
    | inl ha => exact Or.inl (Or.inl ha)
    | inr ha =>
      have h := ihrest a ha hmem
      simp only [List.mem_append, List.mem_cons] at h
      tauto
  | again hseen _ ih =>
    rw [List.forall_mem_cons]
    exact ⟨fun hmem => Or.inr (hseen hmem), ih⟩

theorem mem_of_mem_repeats (h : Traverses s defs seen depth ids ls) :
    ∀ a ∈ repeats ls, a ∈ s → a ∈ firsts ls ∨ a ∈ seen := by
  induction h with
  | nil => simp
  | first _ _ _ _ ihinner ihrest =>
    intro a ha hmem
    rw [repeats_block, List.mem_append] at ha
    rw [firsts_block, List.mem_cons, List.mem_append]
    cases ha with
    | inl ha =>
      have h := ihinner a ha hmem
      simp only [List.mem_cons] at h
      tauto
    | inr ha =>
      have h := ihrest a ha hmem
      simp only [List.mem_append, List.mem_cons] at h
      tauto
  | again hseen _ ih =>
    rw [repeats_again, List.forall_mem_cons]
    exact ⟨fun hmem => Or.inr (hseen hmem), ih⟩

theorem perm (h : Traverses s defs seen depth ids ls) :
    (firsts ls ++ repeats ls).Perm (ids ++ (firsts ls).flatMap fun id => parts defs (s.node id)) := by
  induction h with
  | nil => exact .nil
  | first _ _ _ _ ihinner ihrest =>
    rw [List.perm_iff_count] at ihinner ihrest ⊢
    intro a
    have hinner := ihinner a
    have hrest := ihrest a
    simp only [List.count_append] at hinner hrest
    simp only [firsts_block, repeats_block, List.flatMap_cons, List.flatMap_append,
      List.cons_append, List.count_cons, List.count_append]
    omega
  | again _ _ ih =>
    rw [firsts_again, repeats_again, List.cons_append]
    exact List.perm_middle.trans (ih.cons _)

theorem mem_of_mem_parts (h : Traverses s defs seen depth ids ls) {b : ExprId} (hb : b ∈ firsts ls)
    (ha : a ∈ parts defs (s.node b)) (hmem : a ∈ s) : a ∈ firsts ls ∨ a ∈ seen := by
  have hline : a ∈ firsts ls ++ repeats ls := by
    rw [h.perm.mem_iff, List.mem_append, List.mem_flatMap]
    exact Or.inr ⟨b, hb, ha⟩
  cases List.mem_append.mp hline with
  | inl hfirst => exact Or.inl hfirst
  | inr hagain => exact h.mem_of_mem_repeats a hagain hmem

theorem reached (h : Traverses s defs seen depth ids ls) :
    ∀ b ∈ firsts ls, ∃ a ∈ ids, ReflTransGen (Inside s defs) b a := by
  induction h with
  | nil => simp
  | @first seen depth id ids inner rest _ _ _ _ ihinner ihrest =>
    intro b hb
    simp only [firsts_block, List.mem_cons, List.mem_append] at hb
    rcases hb with rfl | hb | hb
    . exact ⟨b, List.mem_cons_self, .refl⟩
    . obtain ⟨a, ha, hreach⟩ := ihinner b hb
      exact ⟨id, List.mem_cons_self, hreach.tail (inside_iff_mem_parts.mpr ha)⟩
    . obtain ⟨a, ha, hreach⟩ := ihrest b hb
      exact ⟨a, List.mem_cons_of_mem id ha, hreach⟩
  | again _ _ ih =>
    intro b hb
    obtain ⟨a, ha, hreach⟩ := ih b hb
    exact ⟨a, List.mem_cons_of_mem _ ha, hreach⟩

theorem mem_firsts_iff (h : Traverses s defs [] depth [root] ls) :
    id ∈ firsts ls ↔ id ∈ s ∧ ReflTransGen (Inside s defs) id root := by
  constructor
  . intro hid
    obtain ⟨a, ha, hreach⟩ := h.reached id hid
    rw [List.mem_singleton] at ha
    rw [ha] at hreach
    exact ⟨(h.fresh id hid).1, hreach⟩
  . intro hid
    cases hid with
    | intro hmem hreach =>
      induction hreach using ReflTransGen.head_induction_on with
      | refl => simpa using h.mem_of_mem_ids root List.mem_cons_self hmem
      | @head a b hinside _ ih =>
        have ha := inside_iff_mem_parts.mp hinside
        have hb := ih (Outline.mem_of_mem_parts ha)
        simpa using h.mem_of_mem_parts hb ha hmem

theorem pairwise (h : Traverses s defs seen depth ids ls) :
    ls.Pairwise fun l m => ∀ a, m.first? = some a → l.first? ≠ some a ∧ l.again? ≠ some a := by
  induction h with
  | nil => exact .nil
  | @first seen depth id ids inner rest hid hnew hinner hrest ihinner ihrest =>
    have hlater : ∀ m ∈ ending depth (s.node id) ++ rest, ∀ a, m.first? = some a →
        a ∈ s ∧ a ≠ id ∧ a ∉ firsts inner ∧ a ∉ seen := by
      intro m hm a ha
      cases List.mem_append.mp hm with
      | inl hm =>
        rw [eq_close_of_mem_ending hm] at ha
        contradiction
      | inr hm =>
        have h := hrest.fresh a (Outline.mem_firsts_iff.mpr ⟨m, hm, ha⟩)
        simp only [List.mem_append, List.mem_cons, not_or] at h
        tauto
    rw [List.pairwise_cons, List.pairwise_append, List.pairwise_append]
    refine ⟨?_, ihinner, ⟨?_, ihrest, ?_⟩, ?_⟩
    -- the line for the expression itself
    . intro m hm a ha
      constructor
      . intro h
        cases h
        cases List.mem_append.mp hm with
        | inl hm =>
          have h := hinner.fresh id (Outline.mem_firsts_iff.mpr ⟨m, hm, ha⟩)
          exact h.2 List.mem_cons_self
        | inr hm => exact (hlater m hm id ha).2.1 rfl
      . simp [Line.again?]
    -- its end, which names nothing
    . unfold ending
      split <;> simp
    . intro l hl m _ a _
      rw [eq_close_of_mem_ending hl]
      simp [Line.first?, Line.again?]
    -- what it is made of, and what comes after it
    . intro l hl m hm a ha
      obtain ⟨hmem, hne, hnotInner, hnotSeen⟩ := hlater m hm a ha
      constructor
      . intro hfirst
        exact hnotInner (Outline.mem_firsts_iff.mpr ⟨l, hl, hfirst⟩)
      . intro hagain
        have h := hinner.mem_of_mem_repeats a (mem_repeats_iff.mpr ⟨l, hl, hagain⟩) hmem
        simp only [List.mem_cons] at h
        tauto
  | again hseen hrest ih =>
    rw [List.pairwise_cons]
    refine ⟨?_, ih⟩
    intro m hm a ha
    have h := hrest.fresh a (Outline.mem_firsts_iff.mpr ⟨m, hm, ha⟩)
    constructor
    . simp [Line.first?]
    . intro hagain
      cases hagain
      exact h.2 (hseen h.1)

theorem length_le (h : Traverses s defs seen depth ids ls) :
    ls.length ≤ ids.length + 3 * (firsts ls).length := by
  induction h with
  | nil => exact Nat.zero_le _
  | @first seen depth id ids inner rest _ _ _ _ ihinner ihrest =>
    have hbelow := length_tasksBelow_le defs depth (s.node id)
    have hend : (ending depth (s.node id)).length =
        (if (s.node id).children.isEmpty then [] else [Task.leave depth]).length := by
      unfold ending
      split <;> rfl
    rw [tasksBelow, List.length_append, List.length_map, ← hend] at hbelow
    simp only [firsts_block, List.length_cons, List.length_append]
    omega
  | again _ _ ih =>
    simp only [List.length_cons, firsts_again]
    omega

theorem length_firsts_le (h : Traverses s defs seen depth ids ls) : (firsts ls).length ≤ s.size := by
  have hinjective : ∀ a b : ExprId, a.index = b.index → a = b := by
    intro a b hab
    cases a
    cases b
    cases hab
    rfl
  have hsubset : (firsts ls).map (·.index) ⊆ List.range s.size := by
    intro i hi
    obtain ⟨a, ha, heq⟩ := List.mem_map.mp hi
    rw [List.mem_range, ← heq]
    exact (h.fresh a ha).1
  simpa using (List.subperm_of_subset (h.nodup.map hinjective) hsubset).length_le

end Traverses

namespace Enclosed

theorem nil : Enclosed s [] := by
  intro before l after depth h
  simp at h

theorem cons (hs : Enclosed s ls) (hl : ∀ depth, l.opened? s = some depth →
    ∃ inner rest, ls = inner ++ .close depth :: rest ∧ ∀ m ∈ inner, depth < m.depth) :
    Enclosed s (l :: ls) := by
  intro before m after depth h hopen
  cases before with
  | nil =>
    cases h
    exact hl depth hopen
  | cons _ before =>
    cases h
    exact hs before m after depth rfl hopen

theorem tail (h : Enclosed s (l :: ls)) : Enclosed s ls := by
  intro before m after depth hls hopen
  apply h (l :: before) m after depth _ hopen
  rw [hls, List.cons_append]

theorem append (hls : Enclosed s ls) (hms : Enclosed s ms) : Enclosed s (ls ++ ms) := by
  induction ls with
  | nil => exact hms
  | cons l ls ih =>
    apply (ih hls.tail).cons
    intro depth hopen
    obtain ⟨inner, rest, heq, hinner⟩ := hls [] l ls depth rfl hopen
    refine ⟨inner, rest ++ ms, ?_, hinner⟩
    rw [heq, List.append_assoc, List.cons_append]

theorem ending (depth : Nat) (n : Node) : Enclosed s (ending depth n) := by
  unfold Outline.ending
  split
  . exact nil
  . apply nil.cons
    simp [Line.opened?]

end Enclosed

namespace Traverses

theorem enclosed (h : Traverses s defs seen depth ids ls) : Enclosed s ls := by
  induction h with
  | nil => exact .nil
  | @first seen depth id ids inner rest _ _ hinner _ ihinner ihrest =>
    apply (ihinner.append ((Enclosed.ending depth _).append ihrest)).cons
    intro d hopen
    simp only [Line.opened?, Option.ite_none_left_eq_some, Option.some.injEq] at hopen
    obtain ⟨hchildren, heq⟩ := hopen
    rw [← heq]
    refine ⟨inner, rest, ?_, hinner.le_depth⟩
    rw [ending, if_neg hchildren, List.singleton_append]
  | again _ _ ih =>
    apply ih.cons
    simp [Line.opened?]

theorem closed (h : Traverses s defs seen depth ids ls) :
    (ls.filterMap Line.closed?).Perm (ls.filterMap (Line.opened? s)) := by
  induction h with
  | nil => exact .nil
  | @first seen depth id ids inner rest _ _ _ _ ihinner ihrest =>
    have hend : (ending depth (s.node id)).filterMap Line.closed? =
        (Line.opened? s (.first depth id)).toList := by
      cases h : (s.node id).children.isEmpty <;> simp [ending, Line.opened?, Line.closed?, h]
    have hnone : (ending depth (s.node id)).filterMap (Line.opened? s) = [] := by
      unfold ending
      split <;> rfl
    have hfirst : ∀ ls, (Line.first depth id :: ls).filterMap (Line.opened? s) =
        (Line.opened? s (.first depth id)).toList ++ ls.filterMap (Line.opened? s) := by
      intro ls
      cases h : Line.opened? s (.first depth id) <;> simp [h]
    rw [hfirst, List.filterMap_cons_none rfl]
    simp only [List.filterMap_append, hend, hnone, List.nil_append]
    exact (List.Perm.append ihinner (ihrest.append_left _)).trans
      (List.perm_append_comm_assoc _ _ _)
  | again _ _ ih => exact ih

theorem isComplete (h : Traverses s defs [] 0 [root] ls) : IsComplete s defs root ls where
  traverses := h
  mem_firsts_iff _ := h.mem_firsts_iff
  nodup := h.nodup
  pairwise := h.pairwise
  perm := h.perm
  enclosed := h.enclosed
  closed := h.closed
  length_le := by
    have hlength := h.length_le
    have hfirsts := h.length_firsts_le
    rw [List.length_singleton] at hlength
    omega

end Traverses

end Outline

end TreeGrammar
