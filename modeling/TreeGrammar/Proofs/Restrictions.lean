import TreeGrammar.Proofs.Check
import TreeGrammar.Schema.Check

/-!
This module contains that the check of a schema is exact. An expression passes it exactly if all that it
leads to keeps to the restrictions, and otherwise the error tells of something that does not.
-/

namespace TreeGrammar

open Relation

variable {s : Store} {defs : Definitions} {known known' : ExprId → Prop} {root id a b : ExprId}
variable {inAttribute : Bool} {path : List RefId}

def Plain (s : Store) (defs : Definitions) (id : ExprId) : Prop :=
  ∀ x, ReflTransGen (Part s defs) x id → ∀ names content,
    s.node x ≠ .attribute names content ∧ s.node x ≠ .element names content

/--
All that the expression leads to keeps to the restrictions.
-/
structure Conforms (s : Store) (defs : Definitions) (root : ExprId) : Prop where
  defined : ∀ x r, ReflTransGen (Inside s defs) x root → s.node x = .reference r →
    (defs.target? r).isSome
  plain : ∀ x names content, ReflTransGen (Inside s defs) x root →
    s.node x = .attribute names content → Plain s defs content
  guarded : ∀ x r, ReflTransGen (Inside s defs) x root → s.node x = .reference r →
    ¬ TransGen (Part s defs) x x

/--
The error tells of something that the expression does lead to, by its right name.
-/
def SchemaError.Explains (s : Store) (defs : Definitions) (root : ExprId) : SchemaError → Prop
  | .undefinedReference name => ∃ x r, ReflTransGen (Inside s defs) x root ∧
    s.node x = .reference r ∧ defs.target? r = none ∧ defs.name r = name
  | .elementInAttribute => ∃ x names content y names' content',
    ReflTransGen (Inside s defs) x root ∧ s.node x = .attribute names content ∧
      ReflTransGen (Part s defs) y content ∧ s.node y = .element names' content'
  | .attributeInAttribute => ∃ x names content y names' content',
    ReflTransGen (Inside s defs) x root ∧ s.node x = .attribute names content ∧
      ReflTransGen (Part s defs) y content ∧ s.node y = .attribute names' content'
  | .unguardedRecursion name => ∃ x r, ReflTransGen (Inside s defs) x root ∧
    s.node x = .reference r ∧ TransGen (Part s defs) x x ∧ defs.name r = name

theorem SchemaError.Explains.not_conforms {e : SchemaError} (h : e.Explains s defs root) :
    ¬ Conforms s defs root := by
  intro hroot
  cases e with
  | undefinedReference name =>
    obtain ⟨x, r, hx, hn, hnone, -⟩ := h
    have hdefined := hroot.defined x r hx hn
    rw [hnone] at hdefined
    cases hdefined
  | elementInAttribute =>
    obtain ⟨x, names, content, y, names', content', hx, hn, hy, hn'⟩ := h
    exact (hroot.plain x names content hx hn y hy names' content').2 hn'
  | attributeInAttribute =>
    obtain ⟨x, names, content, y, names', content', hx, hn, hy, hn'⟩ := h
    exact (hroot.plain x names content hx hn y hy names' content').1 hn'
  | unguardedRecursion name =>
    obtain ⟨x, r, hx, hn, hcycle, -⟩ := h
    exact hroot.guarded x r hx hn hcycle

/--
How the check has come to an expression: from the root, through the references on the path without
an element in between, and perhaps through an attribute.
-/
structure Reached (s : Store) (defs : Definitions) (root : ExprId) (inAttribute : Bool)
    (path : List RefId) (id : ExprId) : Prop where
  inside : ReflTransGen (Inside s defs) id root
  path : ∀ r ∈ path, ∃ p, s.node p = .reference r ∧ TransGen (Part s defs) id p
  holder : inAttribute = true → ∃ x names content, ReflTransGen (Inside s defs) x root ∧
    s.node x = .attribute names content ∧ ReflTransGen (Part s defs) id content

namespace Reached

theorem part (h : Reached s defs root inAttribute path id) (ha : Part s defs a id) :
    Reached s defs root inAttribute path a where
  inside := .head (.part ha) h.inside
  path r hr := by
    obtain ⟨p, hp, hidp⟩ := h.path r hr
    exact ⟨p, hp, .head ha hidp⟩
  holder hin := by
    obtain ⟨x, names, content, hx, hn, hid⟩ := h.holder hin
    exact ⟨x, names, content, hx, hn, .head ha hid⟩

theorem content {names : NameClass} (h : Reached s defs root inAttribute path id)
    (hn : s.node id = .attribute names a) : Reached s defs root true path a where
  inside := (h.part (.operand (by simp [hn]) (by simp [hn, Node.children]))).inside
  path := (h.part (.operand (by simp [hn]) (by simp [hn, Node.children]))).path
  holder _ := ⟨id, names, a, h.inside, hn, .refl⟩

theorem target {r : RefId} (h : Reached s defs root inAttribute path id)
    (hn : s.node id = .reference r) (ha : defs.target? r = some a) :
    Reached s defs root inAttribute (r :: path) a where
  inside := (h.part (.target hn ha)).inside
  path q hq := by
    rcases List.mem_cons.1 hq with rfl | hq
    . exact ⟨id, hn, .single (.target hn ha)⟩
    . exact (h.part (.target hn ha)).path q hq
  holder := (h.part (.target hn ha)).holder

theorem cycle {r : RefId} (h : Reached s defs root inAttribute path id)
    (hn : s.node id = .reference r) (hr : r ∈ path) : TransGen (Part s defs) id id := by
  obtain ⟨p, hp, hcycle⟩ := h.path r hr
  have hid : id ∈ s := Store.mem_of_node_ne (by simp [hn])
  have hpmem : p ∈ s := Store.mem_of_node_ne (by simp [hp])
  have hfind := Store.find?_node hid
  have hpfind := Store.find?_node hpmem
  rw [hn] at hfind
  rw [hp, hfind] at hpfind
  obtain rfl := Option.some.inj hpfind
  exact hcycle

end Reached

structure Admitted (s : Store) (defs : Definitions) (known : ExprId → Prop) (inAttribute : Bool)
    (id : ExprId) : Prop where
  ofElement : ∀ names content, s.node id = .element names content →
    inAttribute = false ∧ known content
  ofAttribute : ∀ names content, s.node id = .attribute names content →
    inAttribute = false ∧ Plain s defs content

structure Cleared (s : Store) (defs : Definitions) (known : ExprId → Prop) (inAttribute : Bool)
    (id : ExprId) : Prop where
  guarded : Guarded s defs id
  admitted : ∀ x, ReflTransGen (Part s defs) x id → Admitted s defs known inAttribute x

namespace Admitted

theorem of_ne (helement : ∀ names content, s.node id ≠ .element names content)
    (hattribute : ∀ names content, s.node id ≠ .attribute names content) :
    Admitted s defs known inAttribute id where
  ofElement names content hn := absurd hn (helement names content)
  ofAttribute names content hn := absurd hn (hattribute names content)

theorem mono (h : Admitted s defs known inAttribute id) (hknown : ∀ c, known c → known' c) :
    Admitted s defs known' inAttribute id where
  ofElement names content hn := (h.ofElement names content hn).imp_right (hknown content)
  ofAttribute := h.ofAttribute

end Admitted

namespace Cleared

theorem intro (hdefined : ∀ r, s.node id = .reference r → (defs.target? r).isSome)
    (hid : Admitted s defs known inAttribute id)
    (hparts : ∀ a, Part s defs a id → Cleared s defs known inAttribute a) :
    Cleared s defs known inAttribute id where
  guarded := .intro hdefined fun a ha => (hparts a ha).guarded
  admitted x hx := by
    rcases ReflTransGen.cases_tail hx with rfl | ⟨a, hxa, ha⟩
    . exact hid
    . exact (hparts a ha).admitted x hxa

theorem mono (h : Cleared s defs known inAttribute id) (hknown : ∀ c, known c → known' c) :
    Cleared s defs known' inAttribute id where
  guarded := h.guarded
  admitted x hx := (h.admitted x hx).mono hknown

theorem of_reflTransGen (h : Cleared s defs known inAttribute id)
    (ha : ReflTransGen (Part s defs) a id) : Cleared s defs known inAttribute a where
  guarded := h.guarded.of_reflTransGen ha
  admitted x hx := h.admitted x (hx.trans ha)

theorem plain (h : Cleared s defs known true id) : Plain s defs id := by
  refine fun x hx names content => ⟨fun hn => ?_, fun hn => ?_⟩
  . cases ((h.admitted x hx).ofAttribute names content hn).1
  . cases ((h.admitted x hx).ofElement names content hn).1

theorem anywhere (h : Cleared s defs known true id) : Cleared s defs known inAttribute id where
  guarded := h.guarded
  admitted x hx := .of_ne (fun names content => (h.plain x hx names content).2)
    fun names content => (h.plain x hx names content).1

theorem leaf (hn : (s.node id).children = []) (hr : ∀ r, s.node id ≠ .reference r) :
    Cleared s defs known inAttribute id := by
  refine .intro (fun r h => absurd h (hr r)) (.of_ne ?_ ?_) ?_
  . intro names content h
    simp [h, Node.children] at hn
  . intro names content h
    simp [h, Node.children] at hn
  . exact fun a ha => absurd ha (Part.not_of_children_eq_nil hn hr)

theorem of_element {names : NameClass} (hn : s.node id = .element names a) (ha : known a) :
    Cleared s defs known false id := by
  refine .intro (by simp [hn]) ⟨?_, by simp [hn]⟩ ?_
  . intro names' content hn'
    rw [hn] at hn'
    cases hn'
    exact ⟨rfl, ha⟩
  . rintro c (⟨helement, _⟩ | ⟨hr, _⟩)
    . exact absurd hn (helement names a)
    . simp [hn] at hr

theorem of_attribute {names : NameClass} (hn : s.node id = .attribute names a)
    (ha : Cleared s defs known true a) : Cleared s defs known false id := by
  refine .intro (by simp [hn]) ⟨by simp [hn], ?_⟩ ?_
  . intro names' content hn'
    rw [hn] at hn'
    cases hn'
    exact ⟨rfl, ha.plain⟩
  . rintro c (⟨_, hc⟩ | ⟨hr, _⟩)
    . obtain rfl : c = a := by simpa [hn, Node.children] using hc
      exact ha.anywhere
    . simp [hn] at hr

theorem of_compound (hn : (s.node id).isCompound)
    (hchildren : ∀ c ∈ (s.node id).children, Cleared s defs known inAttribute c) :
    Cleared s defs known inAttribute id := by
  refine .intro ?_ (.of_ne ?_ ?_) fun c hc => hchildren c ((Part.iff_of_isCompound hn).1 hc)
  . exact fun r hr => by simp [hr, Node.isCompound] at hn
  . exact fun names content h => by simp [h, Node.isCompound] at hn
  . exact fun names content h => by simp [h, Node.isCompound] at hn

theorem of_reference {r : RefId} (hn : s.node id = .reference r) (hr : defs.target? r = some a)
    (ha : Cleared s defs known inAttribute a) : Cleared s defs known inAttribute id := by
  refine .intro ?_ (.of_ne (by simp [hn]) (by simp [hn])) ?_
  . intro q hq
    rw [hn] at hq
    cases hq
    simp [hr]
  . rintro c (⟨_, hc⟩ | ⟨hn', htarget⟩)
    . simp [hn, Node.children] at hc
    . rw [hn] at hn'
      cases hn'
      rw [hr] at htarget
      cases htarget
      exact ha

end Cleared

namespace Schema

def Survey.Ends (work : SurveyM Unit) (v : Survey) (Q : Survey → Prop) (E : SchemaError → Prop) :
    Prop :=
  match work.run v with
  | .ok ((), w) => Q w
  | .error e => E e

/--
The references followed so far are on the path, or else what they stand for has been cleared.
-/
def Survey.Explored (s : Store) (defs : Definitions) (known : ExprId → Prop) (path : List RefId)
    (v : Survey) : Prop :=
  ∀ r b, (r, b) ∈ v.followed → r ∈ path ∨ ∃ target, defs.target? r = some target ∧
    Cleared s defs (fun c => known c ∨ c ∈ v.contents) b target

structure Survey.Passed (s : Store) (defs : Definitions) (known : ExprId → Prop) (root : ExprId)
    (path : List RefId) (inAttribute : Bool) (id : ExprId) (v w : Survey) : Prop where
  explored : w.Explored s defs known path
  fresh : ∀ r b, (r, b) ∈ w.followed → (r, b) ∈ v.followed ∨ r ∉ path
  contents : ∀ c ∈ v.contents, c ∈ w.contents
  mem : ∀ c ∈ w.contents, c ∈ v.contents ∨ c ∈ s ∧ ReflTransGen (Inside s defs) c root
  cleared : Cleared s defs (fun c => known c ∨ c ∈ w.contents) inAttribute id

namespace Survey

variable {u v w : Survey} {work next : SurveyM Unit} {Q R : Survey → Prop} {E : SchemaError → Prop}

namespace Ends

theorem pure (h : Q v) : Ends (Pure.pure ()) v Q E := h

theorem throw {e : SchemaError} (h : E e) : Ends (throw e) v Q E := h

theorem bind (hwork : Ends work v Q E) (hnext : ∀ u, Q u → Ends next u R E) :
    Ends (work >>= fun _ => next) v R E := by
  unfold Ends at hwork ⊢
  rw [StateT.run_bind]
  cases hrun : work.run v with
  | error e =>
    rw [hrun] at hwork
    exact hwork
  | ok p =>
    rw [hrun] at hwork
    exact hnext p.2 hwork

theorem get {next : Survey → SurveyM Unit} (h : Ends (next v) v Q E) :
    Ends (MonadState.get >>= next) v Q E := h

theorem update {f : Survey → Survey} (h : Ends next (f v) Q E) :
    Ends (modify f >>= fun _ => next) v Q E := h

theorem mono (hwork : Ends work v Q E) (hQ : ∀ w, Q w → R w) : Ends work v R E := by
  unfold Ends at hwork ⊢
  cases hrun : work.run v with
  | error e =>
    rw [hrun] at hwork
    exact hwork
  | ok p =>
    rw [hrun] at hwork
    exact hQ p.2 hwork

end Ends

theorem Explored.mono (hv : v.Explored s defs known path) (hcontents : ∀ c ∈ v.contents, c ∈ w.contents)
    {r : RefId} {b : Bool} (hr : (r, b) ∈ v.followed) : r ∈ path ∨ ∃ target,
      defs.target? r = some target ∧ Cleared s defs (fun c => known c ∨ c ∈ w.contents) b target := by
  refine (hv r b hr).imp_right ?_
  rintro ⟨target, htarget, hcleared⟩
  exact ⟨target, htarget, hcleared.mono fun c hc => hc.imp_right (hcontents c)⟩

namespace Passed

theorem of_cleared (hv : v.Explored s defs known path)
    (hid : Cleared s defs (fun c => known c ∨ c ∈ v.contents) inAttribute id) :
    Passed s defs known root path inAttribute id v v where
  explored := hv
  fresh _ _ hr := Or.inl hr
  contents _ hc := hc
  mem _ hc := Or.inl hc
  cleared := hid

theorem of_element {names : NameClass} {content : ExprId} (hv : v.Explored s defs known path)
    (hid : ReflTransGen (Inside s defs) id root) (hn : s.node id = .element names content) :
    Passed s defs known root path false id v { v with contents := content :: v.contents } where
  explored _ _ hr := hv.mono (fun _ hc => List.mem_cons_of_mem _ hc) hr
  fresh _ _ hr := Or.inl hr
  contents _ hc := List.mem_cons_of_mem _ hc
  mem := by
    intro c hc
    rcases List.mem_cons.1 hc with rfl | hc
    . have hmem : id ∈ s := Store.mem_of_node_ne (by simp [hn])
      exact Or.inr ⟨Store.mem_of_mem_children hmem (by simp [hn, Node.children]),
        .head (.content hn) hid⟩
    . exact Or.inl hc
  cleared := .of_element hn (Or.inr List.mem_cons_self)

theorem of_part {inner : Bool} (h : Passed s defs known root path inner a v w)
    (hid : ∀ known', Cleared s defs known' inner a → Cleared s defs known' inAttribute id) :
    Passed s defs known root path inAttribute id v w where
  explored := h.explored
  fresh := h.fresh
  contents := h.contents
  mem := h.mem
  cleared := hid _ h.cleared

theorem of_parts (ha : Passed s defs known root path inAttribute a v u)
    (hb : Passed s defs known root path inAttribute b u w)
    (hid : ∀ known', Cleared s defs known' inAttribute a → Cleared s defs known' inAttribute b →
      Cleared s defs known' inAttribute id) :
    Passed s defs known root path inAttribute id v w where
  explored := hb.explored
  fresh r c hr := (hb.fresh r c hr).elim (ha.fresh r c) Or.inr
  contents c hc := hb.contents c (ha.contents c hc)
  mem c hc := (hb.mem c hc).elim (ha.mem c) Or.inr
  cleared := hid _ (ha.cleared.mono fun c hc => hc.imp_right (hb.contents c)) hb.cleared

theorem of_target {r : RefId} (hn : s.node id = .reference r) (ha : defs.target? r = some a)
    (hr : r ∉ path) (hv : v.Explored s defs known path)
    (h : Passed s defs known root (r :: path) inAttribute a
      { v with followed := (r, inAttribute) :: v.followed } w) :
    Passed s defs known root path inAttribute id v w where
  explored := by
    intro q b hq
    rcases h.explored q b hq with hpath | hcleared
    . rcases List.mem_cons.1 hpath with rfl | hpath
      . rcases h.fresh q b hq with hold | hnew
        . rcases List.mem_cons.1 hold with heq | hold
          . cases heq
            exact Or.inr ⟨a, ha, h.cleared⟩
          . exact hv.mono h.contents hold
        . exact absurd List.mem_cons_self hnew
      . exact Or.inl hpath
    . exact Or.inr hcleared
  fresh := by
    intro q b hq
    rcases h.fresh q b hq with hold | hnew
    . rcases List.mem_cons.1 hold with heq | hold
      . cases heq
        exact Or.inr hr
      . exact Or.inl hold
    . exact Or.inr fun hq => hnew (List.mem_cons_of_mem _ hq)
  contents := h.contents
  mem := h.mem
  cleared := .of_reference hn ha h.cleared

end Passed

end Survey

open Survey

theorem survey_ends (inAttribute : Bool) (path : List RefId) (id : ExprId) {v : Survey}
    (hid : Reached s defs root inAttribute path id) (hv : v.Explored s defs known path) :
    Ends (survey s defs inAttribute path id) v (Passed s defs known root path inAttribute id v)
      (SchemaError.Explains s defs root) := by
  have operand {a : ExprId} (hn : (s.node id).isCompound) (ha : a ∈ (s.node id).children)
      {u : Survey} (hu : u.Explored s defs known path) :
      Ends (survey s defs inAttribute path a) u (Passed s defs known root path inAttribute a u)
        (SchemaError.Explains s defs root) := by
    have hlt := s.node_below id a ha
    exact survey_ends inAttribute path a (hid.part ((Part.iff_of_isCompound hn).2 ha)) hu
  have pair {a b : ExprId} (hchildren : (s.node id).children = [a, b]) (hn : (s.node id).isCompound) :
      Ends (do
        survey s defs inAttribute path a
        survey s defs inAttribute path b) v (Passed s defs known root path inAttribute id v)
        (SchemaError.Explains s defs root) := by
    refine .bind (operand hn (by simp [hchildren]) hv) fun u ha => ?_
    refine (operand hn (by simp [hchildren]) ha.explored).mono fun w hb => ?_
    refine ha.of_parts hb fun known' ha hb => .of_compound hn ?_
    simpa [hchildren] using ⟨ha, hb⟩
  have single {a : ExprId} (hchildren : (s.node id).children = [a]) (hn : (s.node id).isCompound) :
      Ends (survey s defs inAttribute path a) v (Passed s defs known root path inAttribute id v)
        (SchemaError.Explains s defs root) := by
    refine (operand hn (by simp [hchildren]) hv).mono fun w ha => ?_
    refine ha.of_part fun known' ha => .of_compound hn ?_
    simpa [hchildren] using ha
  rw [survey]
  split
  . next names content hn =>
    cases inAttribute with
    | true =>
      obtain ⟨x, names', content', hx, hn', hidx⟩ := hid.holder rfl
      exact .throw (v := v) ⟨x, names', content', id, names, content, hx, hn', hidx, hn⟩
    | false => exact Passed.of_element hv hid.inside hn
  . next names content hn =>
    cases inAttribute with
    | true =>
      obtain ⟨x, names', content', hx, hn', hidx⟩ := hid.holder rfl
      exact .throw (v := v) ⟨x, names', content', id, names, content, hx, hn', hidx, hn⟩
    | false =>
      have hlt := s.node_below id content (by simp [hn, Node.children])
      refine (survey_ends true path content (hid.content hn) hv).mono fun w hw => ?_
      exact hw.of_part fun known' => .of_attribute hn
  . next a b hn => exact pair (by simp [hn, Node.children]) (by simp [hn, Node.isCompound])
  . next a b hn => exact pair (by simp [hn, Node.children]) (by simp [hn, Node.isCompound])
  . next a b hn => exact pair (by simp [hn, Node.children]) (by simp [hn, Node.isCompound])
  . next a hn => exact single (by simp [hn, Node.children]) (by simp [hn, Node.isCompound])
  . next a hn => exact single (by simp [hn, Node.children]) (by simp [hn, Node.isCompound])
  . next r hn =>
    split
    . next hr => exact .throw ⟨id, r, hid.inside, hn, hid.cycle hn hr, rfl⟩
    . next hnew =>
      split
      . next hnone => exact .throw ⟨id, r, hid.inside, hn, hnone, rfl⟩
      . next target htarget =>
        refine .get ?_
        split
        . next hfollowed =>
          rcases hv r inAttribute (by simpa using hfollowed) with hr | ⟨_, ha, hcleared⟩
          . exact absurd hr hnew
          . rw [htarget] at ha
            cases ha
            exact .pure (.of_cleared hv (.of_reference hn htarget hcleared))
        . refine .update ((survey_ends inAttribute (r :: path) target (hid.target hn htarget) ?_).mono
            fun w hw => hw.of_target hn htarget hnew hv)
          intro q b hq
          rcases List.mem_cons.1 hq with hq | hq
          . cases hq
            exact Or.inl List.mem_cons_self
          . exact (hv q b hq).imp_left (List.mem_cons_of_mem _)
  all_goals exact .pure (.of_cleared hv (.leaf (by simp [*, Node.children]) (by simp [*])))
termination_by defs.reach path id
decreasing_by
  all_goals first
    | exact Definitions.reach_child_lt hlt
    | exact Definitions.reach_target_lt (by assumption) (by assumption)

structure Enqueued (contents : List ExprId) (v : Visited) (waiting : List ExprId)
    (next : Visited × List ExprId) : Prop where
  bound : next.1.bound = v.bound
  kept : ∀ c ∈ v.seen, c ∈ next.1.seen
  waits : ∀ c ∈ waiting, c ∈ next.2
  origin : ∀ c ∈ next.2, c ∈ contents ∨ c ∈ waiting
  seen : ∀ c ∈ contents, c.index < v.bound → c ∈ next.1.seen
  fresh : ∀ c ∈ next.1.seen, c ∈ v.seen ∨ c ∈ next.2

namespace Enqueued

variable {contents waiting : List ExprId} {v w : Visited} {next : Visited × List ExprId}

theorem nil (v : Visited) (waiting : List ExprId) : Enqueued [] v waiting (v, waiting) where
  bound := rfl
  kept _ hc := hc
  waits _ hc := hc
  origin _ hc := Or.inr hc
  seen := by simp
  fresh _ hc := Or.inl hc

theorem skip (h : Enqueued contents v waiting next) (hvisit : v.visit? id = none) :
    Enqueued (id :: contents) v waiting next where
  bound := h.bound
  kept := h.kept
  waits := h.waits
  origin c hc := (h.origin c hc).imp_left (List.mem_cons_of_mem _)
  seen c hc hlt := by
    rcases List.mem_cons.1 hc with rfl | hc
    . exact h.kept c (Visited.mem_seen_of_visit?_eq_none hvisit hlt)
    . exact h.seen c hc hlt
  fresh := h.fresh

theorem push (h : Enqueued contents w (id :: waiting) next) (hvisit : v.visit? id = some w) :
    Enqueued (id :: contents) v waiting next := by
  obtain ⟨hbound, hseen⟩ := Visited.seen_of_visit? hvisit
  exact {
    bound := h.bound.trans hbound
    kept := fun c hc => h.kept c ((hseen c).2 (Or.inl hc))
    waits := fun c hc => h.waits c (List.mem_cons_of_mem _ hc)
    origin := fun c hc => by
      have horigin := h.origin c hc
      rw [List.mem_cons] at horigin ⊢
      tauto
    seen := fun c hc hlt => by
      rcases List.mem_cons.1 hc with rfl | hc
      . exact h.kept c ((hseen c).2 (Or.inr rfl))
      . exact h.seen c hc (by rwa [hbound])
    fresh := fun c hc => by
      rcases h.fresh c hc with hc | hc
      . refine ((hseen c).1 hc).imp_right ?_
        rintro rfl
        exact h.waits c List.mem_cons_self
      . exact Or.inr hc }

end Enqueued

theorem enqueue_enqueued (contents : List ExprId) (v : Visited) (waiting : List ExprId) :
    Enqueued contents v waiting (enqueue contents v waiting) := by
  induction contents generalizing v waiting with
  | nil => exact .nil v waiting
  | cons c contents ih =>
    unfold enqueue
    split
    . next hvisit => exact (ih v waiting).skip hvisit
    . next w hvisit => exact (ih w (c :: waiting)).push hvisit

/--
How far a check has come. The contents that are `done` have been looked through, and whatever they
lead to is done as well or waits.
-/
structure Underway (s : Store) (defs : Definitions) (root : ExprId) (followed : List (RefId × Bool))
    (v : Visited) (waiting : List ExprId) (done : ExprId → Prop) : Prop where
  bound : v.bound = s.size
  reached : ∀ c ∈ waiting, ReflTransGen (Inside s defs) c root
  seen : ∀ c ∈ v.seen, done c ∨ c ∈ waiting
  cleared : ∀ c, done c → Cleared s defs (fun c => done c ∨ c ∈ waiting) false c
  explored : Explored s defs (fun c => done c ∨ c ∈ waiting) [] { followed }

namespace Underway

variable {followed : List (RefId × Bool)} {v : Visited} {content : ExprId} {waiting : List ExprId}
variable {done : ExprId → Prop} {found : Survey} {next : Visited × List ExprId}

theorem kept (hnext : Enqueued found.contents.reverse v waiting next) {c : ExprId}
    (hc : done c ∨ c ∈ content :: waiting) : (done c ∨ c = content) ∨ c ∈ next.2 := by
  rcases hc with hc | hc
  . exact Or.inl (Or.inl hc)
  . rcases List.mem_cons.1 hc with rfl | hc
    . exact Or.inl (Or.inr rfl)
    . exact Or.inr (hnext.waits c hc)

theorem step (h : Underway s defs root followed v (content :: waiting) done)
    (hpassed : Passed s defs (fun c => done c ∨ c ∈ content :: waiting) root [] false content
      { followed } found)
    (hnext : Enqueued found.contents.reverse v waiting next) :
    Underway s defs root found.followed next.1 next.2 (fun c => done c ∨ c = content) := by
  have hinside (c : ExprId) (hc : c ∈ found.contents) :
      c ∈ s ∧ ReflTransGen (Inside s defs) c root := by
    rcases hpassed.mem c hc with hc | hc
    . cases hc
    . exact hc
  have hseen (c : ExprId) (hc : c ∈ next.1.seen) : (done c ∨ c = content) ∨ c ∈ next.2 :=
    (hnext.fresh c hc).elim (fun hc => kept hnext (h.seen c hc)) Or.inr
  -- the contents that have been met have all been seen, now or before
  have hknown (c : ExprId) (hc : (done c ∨ c ∈ content :: waiting) ∨ c ∈ found.contents) :
      (done c ∨ c = content) ∨ c ∈ next.2 := by
    rcases hc with hc | hc
    . exact kept hnext hc
    . exact hseen c (hnext.seen c (List.mem_reverse.2 hc) (h.bound ▸ (hinside c hc).1))
  refine ⟨hnext.bound.trans h.bound, ?reached, hseen, ?cleared, ?explored⟩
  case reached =>
    intro c hc
    rcases hnext.origin c hc with hc | hc
    . exact (hinside c (List.mem_reverse.1 hc)).2
    . exact h.reached c (List.mem_cons_of_mem _ hc)
  case cleared =>
    rintro c (hc | rfl)
    . exact (h.cleared c hc).mono fun _ => kept hnext
    . exact hpassed.cleared.mono hknown
  case explored =>
    intro r b hr
    refine (hpassed.explored r b hr).imp_right ?_
    rintro ⟨target, htarget, hcleared⟩
    exact ⟨target, htarget, hcleared.mono fun c hc => Or.inl (hknown c hc)⟩

end Underway

/--
A check that is under way ends with everything cleared that is done, waits, or is led to by one of
these, or else with an error that tells of something found in the expression.
-/
theorem checkContents_ends (followed : List (RefId × Bool)) (v : Visited) (waiting : List ExprId)
    (done : ExprId → Prop) (h : Underway s defs root followed v waiting done) :
    match checkContents s defs followed v waiting with
    | .ok () => ∃ all : ExprId → Prop, (∀ c, done c ∨ c ∈ waiting → all c) ∧
      ∀ c, all c → Cleared s defs all false c
    | .error e => e.Explains s defs root := by
  match waiting with
  | [] =>
    rw [checkContents]
    exact ⟨done, by simp, by simpa using h.cleared⟩
  | content :: waiting =>
    have hreached : Reached s defs root false [] content :=
      ⟨h.reached content List.mem_cons_self, by simp, by simp⟩
    have hends := survey_ends false [] content hreached h.explored
    unfold Ends at hends
    rw [checkContents]
    cases hfound : (survey s defs false [] content).run { followed } with
    | error e =>
      rw [hfound] at hends
      exact hends
    | ok p =>
      obtain ⟨⟨⟩, found⟩ := p
      rw [hfound] at hends
      have hadded := remaining_enqueue_add_length found.contents.reverse v waiting
      have henqueued := enqueue_enqueued found.contents.reverse v waiting
      dsimp only
      generalize enqueue found.contents.reverse v waiting = next at hadded henqueued ⊢
      have hnext := checkContents_ends found.followed next.1 next.2 _ (h.step hends henqueued)
      split at hnext
      . obtain ⟨all, hsub, hcleared⟩ := hnext
        exact ⟨all, fun c hc => hsub c (Underway.kept henqueued hc), hcleared⟩
      . exact hnext
termination_by v.remaining + waiting.length
decreasing_by
  simp only [List.length_cons]
  omega

theorem check_ends (schema : Schema) (id : ExprId) :
    match schema.check id with
    | .ok () => ∀ a, ReflTransGen (Inside schema.graph.store schema.definitions) a id →
      Cleared schema.graph.store schema.definitions (fun _ => True) false a
    | .error e => e.Explains schema.graph.store schema.definitions id := by
  have hstart : Underway schema.graph.store schema.definitions id [] { bound := schema.graph.store.size }
      [id] fun _ => False :=
    ⟨rfl, by simp [ReflTransGen.refl], by simp, by simp, by simp [Explored]⟩
  have hends := checkContents_ends [] _ [id] _ hstart
  unfold check
  split at hends
  . obtain ⟨all, hsub, hall⟩ := hends
    intro a ha
    suffices hroot : ∃ c, all c ∧ ReflTransGen (Part schema.graph.store schema.definitions) a c by
      obtain ⟨c, hc, hac⟩ := hroot
      exact ((hall c hc).of_reflTransGen hac).mono fun _ _ => trivial
    induction ha using ReflTransGen.head_induction_on with
    | refl => exact ⟨id, hsub id (by simp), .refl⟩
    | head hab _ ih =>
      obtain ⟨c, hc, hbc⟩ := ih
      cases hab with
      | part hpart => exact ⟨c, hc, .head hpart hbc⟩
      | content hn => exact ⟨_, (((hall c hc).admitted _ hbc).ofElement _ _ hn).2, .refl⟩
  . exact hends

theorem check_ok {schema : Schema} (h : schema.check id = .ok ()) :
    Checked schema.graph.store schema.definitions id := by
  have hends := check_ends schema id
  rw [h] at hends
  exact fun a ha => (hends a ha).guarded

/--
The check of a schema is exact. An expression passes it exactly if all that it leads to keeps to the
restrictions: each reference is defined, attributes hold neither attributes nor elements, and no
reference leads back to itself without an element in between. If it does not pass, the error tells
of something that is found in it.
-/
theorem check_exact (schema : Schema) (id : ExprId) :
    (schema.check id = .ok () ↔ Conforms schema.graph.store schema.definitions id) ∧
      ∀ e, schema.check id = .error e → e.Explains schema.graph.store schema.definitions id := by
  have hends := check_ends schema id
  refine ⟨⟨fun hok => ?_, fun hroot => ?_⟩, fun e herror => ?_⟩
  . rw [hok] at hends
    exact {
      defined := fun x r hx hn => (hends x hx).guarded.defined hn
      plain := fun x names content hx hn =>
        (((hends x hx).admitted x .refl).ofAttribute names content hn).2
      guarded := fun x r hx _ => (hends x hx).guarded.not_transGen }
  . cases hcheck : schema.check id with
    | ok => rfl
    | error e =>
      rw [hcheck] at hends
      exact absurd hroot hends.not_conforms
  . rw [herror] at hends
    exact hends

/--
A reference to an element, first in a sequence and then in an attribute: it has been followed before
the check comes to the attribute, and still the element is found in it.
-/
theorem check_exact_shared :
    ∃ (schema : Schema) (id : ExprId), schema.check id = .error .elementInAttribute ∧
      ¬ Conforms schema.graph.store schema.definitions id ∧
      SchemaError.elementInAttribute.Explains schema.graph.store schema.definitions id := by
  let build : SchemaM ExprId := do
    let r ← reference "r"
    define r (← onGraph fun _ => Graph.elementNamed .any .epsilon)
    let a ← onGraph fun _ => Graph.attributeNamed .any r
    onGraph fun _ => Graph.sequence r a
  have hrun : (create (fun _ => .string) {}).toOption.any fun start =>
      (build start).toOption.any fun p =>
      p.2.check p.1 = .error .elementInAttribute := by
    decide +kernel
  obtain ⟨start, -, hbuild⟩ := (Option.any_eq_true _ _).1 hrun
  obtain ⟨⟨id, schema⟩, -, herror⟩ := (Option.any_eq_true _ _).1 hbuild
  have herror : schema.check id = .error .elementInAttribute := of_decide_eq_true herror
  obtain ⟨hiff, hexplains⟩ := check_exact schema id
  refine ⟨schema, id, herror, fun hconforms => ?_, hexplains _ herror⟩
  rw [hiff.2 hconforms] at herror
  cases herror

end Schema

end TreeGrammar
