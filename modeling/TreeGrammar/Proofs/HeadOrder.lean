import TreeGrammar.Proofs.Carrying
import TreeGrammar.Proofs.Heads

/-!
This module contains in which order the search for heads finds them: in the order in which they stand
in the form of the expression, each of them once. Expressions that have been met before are passed
over, which makes no difference since all their heads have been found by then.
-/

namespace TreeGrammar

namespace Form

@[simp] def subforms : Form → List Form
  | .choice a b => .choice a b :: (a.subforms ++ b.subforms)
  | .sequence a b => .sequence a b :: (a.subforms ++ b.subforms)
  | .interleave a b => .interleave a b :: (a.subforms ++ b.subforms)
  | .oneOrMore a => .oneOrMore a :: a.subforms
  | .mixed a => .mixed a :: a.subforms
  | .reference r a => .reference r a :: a.subforms
  | e => [e]

theorem self_mem_subforms (e : Form) : e ∈ e.subforms := by
  cases e <;> simp

theorem sizeOf_pos (e : Form) : 0 < sizeOf e := by
  cases e <;> simp

theorem sizeOf_le_of_mem_subforms {x e : Form} (h : x ∈ e.subforms) : sizeOf x ≤ sizeOf e := by
  induction e with
  | choice a b iha ihb | sequence a b iha ihb | interleave a b iha ihb =>
    simp only [subforms, List.mem_cons, List.mem_append] at h
    rcases h with rfl | h | h
    . exact le_rfl
    . have := iha h
      simp
      omega
    . have := ihb h
      simp
      omega
  | oneOrMore a ih | mixed a ih | reference r a ih =>
    simp only [subforms, List.mem_cons] at h
    rcases h with rfl | h
    . exact le_rfl
    . have := ih h
      simp
      omega
  | _ =>
    simp only [subforms, List.mem_singleton] at h
    rw [h]

/--
To search the form is to search `news`, which it is made of.
-/
structure ExpandsTo (e : Form) (news : List Form) : Prop where
  smaller : ∀ f ∈ news, sizeOf f < sizeOf e
  subforms : ∀ f ∈ news, ∀ x ∈ f.subforms, x.heads = [] ∨ x ∈ e.subforms
  heads : e.heads = news.flatMap Form.heads
  compound : ∀ head, e ≠ .element head

namespace ExpandsTo

variable {a b : Form}

theorem nil {e : Form} (hheads : e.heads = []) : e.ExpandsTo [] where
  smaller := by simp
  subforms := by simp
  heads := hheads
  compound := by
    rintro head rfl
    cases hheads

theorem choice : (Form.choice a b).ExpandsTo [a, b] where
  smaller := by
    simp
    omega
  subforms := by simp +contextual
  heads := (by simp : a.heads ++ b.heads = [a, b].flatMap Form.heads)
  compound := by simp

theorem interleave : (Form.interleave a b).ExpandsTo [a, b] where
  smaller := by
    simp
    omega
  subforms := by simp +contextual
  heads := (by simp : a.heads ++ b.heads = [a, b].flatMap Form.heads)
  compound := by simp

theorem sequence : (Form.sequence a b).ExpandsTo [a, if a.nullable then b else .epsilon] where
  smaller := by
    have := a.sizeOf_pos
    cases a.nullable <;> simp <;> omega
  subforms := by cases a.nullable <;> simp +contextual [Form.heads]
  heads := by
    rw [List.flatMap_cons, List.flatMap_singleton]
    exact congrArg (a.heads ++ ·) (apply_ite Form.heads _ b .epsilon).symm
  compound := by simp

theorem oneOrMore : (Form.oneOrMore a).ExpandsTo [a] where
  smaller := by simp
  subforms := by simp +contextual
  heads := (by simp : a.heads = [a].flatMap Form.heads)
  compound := by simp

theorem mixed : (Form.mixed a).ExpandsTo [a] where
  smaller := by simp
  subforms := by simp +contextual
  heads := (by simp : a.heads = [a].flatMap Form.heads)
  compound := by simp

theorem reference {r : RefId} : (Form.reference r a).ExpandsTo [a] where
  smaller := by simp
  subforms := by simp +contextual
  heads := (by simp : a.heads = [a].flatMap Form.heads)
  compound := by simp

end ExpandsTo

end Form

/--
What has been `met` can occur in the forms that remain to be searched, after the heads in `before`
have been found, only where all its heads have been found.
-/
def Swept (met : Form → Prop) : List Head → List Form → Prop
  | _, [] => True
  | before, e :: forms =>
    (∀ x ∈ e.subforms, met x → ∀ head ∈ x.heads, met (.element head) ∨ head ∈ before) ∧
      Swept met (before ++ e.heads) forms

namespace Swept

variable {met : Form → Prop} {before before' : List Head} {forms news : List Form} {e : Form}

theorem mono (h : Swept met before forms)
    (hbefore : ∀ head ∈ before, met (.element head) ∨ head ∈ before') :
    Swept met before' forms := by
  induction forms generalizing before before' with
  | nil => trivial
  | cons e forms ih =>
    refine ⟨?_, ih h.2 ?_⟩
    . intro x hx hmet head hhead
      rcases h.1 x hx hmet head hhead with hmet | hmem
      . exact Or.inl hmet
      . exact hbefore head hmem
    . intro head hhead
      rcases List.mem_append.1 hhead with hmem | hmem
      . exact (hbefore head hmem).imp_right (List.mem_append_left _)
      . exact Or.inr (List.mem_append_right _ hmem)

theorem meet (h : Swept met before forms)
    (he : ∀ head ∈ e.heads, e = .element head ∨ head ∈ before) :
    Swept (fun x => met x ∨ x = e) before forms := by
  induction forms generalizing before with
  | nil => trivial
  | cons f forms ih =>
    refine ⟨?_, ih h.2 fun head hhead => (he head hhead).imp_right (List.mem_append_left _)⟩
    rintro x hx (hmet | rfl) head hhead
    . exact (h.1 x hx hmet head hhead).imp_left Or.inl
    . exact (he head hhead).imp_left fun h => Or.inr h.symm

theorem expand (h : Swept met [] (e :: forms)) (he : e.ExpandsTo news) :
    Swept (fun x => met x ∨ x = e) [] (news ++ forms) := by
  have hrest {before : List Head} (hbefore : ∀ head ∈ e.heads, head ∈ before) :
      Swept (fun x => met x ∨ x = e) before forms := by
    refine (h.2.mono ?_).meet fun head hhead => Or.inr (hbefore head hhead)
    exact fun head hhead => Or.inr (hbefore head hhead)
  suffices hall : ∀ (fs : List Form) (before : List Head), (∀ f ∈ fs, f ∈ news) →
      (∀ head ∈ e.heads, head ∈ before ++ fs.flatMap Form.heads) →
        Swept (fun x => met x ∨ x = e) before (fs ++ forms) from
    hall news [] (fun _ hf => hf) (by simp [he.heads])
  intro fs
  induction fs with
  | nil =>
    intro before _ hbefore
    exact hrest (by simpa using hbefore)
  | cons f fs ih =>
    intro before hfs hbefore
    rw [List.forall_mem_cons] at hfs
    refine ⟨?_, ih _ hfs.2 (by simpa using hbefore)⟩
    rintro x hx (hmet | rfl) head hhead
    . rcases he.subforms f hfs.1 x hx with hnone | hxe
      . simp [hnone] at hhead
      . rcases h.1 x hxe hmet head hhead with hmet | hmem
        . exact Or.inl (Or.inl hmet)
        . cases hmem
    . have hle := Form.sizeOf_le_of_mem_subforms hx
      have hlt := he.smaller f hfs.1
      omega

theorem enter {head : Head} (h : Swept met [] (.element head :: forms)) :
    Swept (fun x => met x ∨ x = .element head) [] forms := by
  have hone (h : Head) (hh : h ∈ Form.heads (.element head)) : h = head := by
    simpa [Form.heads] using hh
  refine (h.2.meet fun h hh => Or.inl (by rw [hone h hh])).mono ?_
  exact fun h hh => Or.inl (Or.inr (by rw [hone h (by simpa using hh)]))

theorem skip (h : Swept met [] (e :: forms)) (he : met e) :
    (∀ head ∈ e.heads, met (.element head)) ∧ Swept met [] forms := by
  have hmet : ∀ head ∈ e.heads, met (.element head) := fun head hhead =>
    (h.1 e e.self_mem_subforms he head hhead).resolve_right (by simp)
  exact ⟨hmet, h.2.mono fun head hhead => Or.inl (hmet head hhead)⟩

end Swept

variable {s : Store} {defs : Definitions} {id : ExprId} {e : Form}

theorem Store.Shows.head {head : Head} (h : s.Shows defs id e) (hhead : head ∈ e.heads) :
    s.Shows defs head.id (.element head) := by
  induction e generalizing id with
  | element own =>
    obtain rfl : head = own := by simpa [Form.heads] using hhead
    exact ⟨h.1.trans (congrArg some h.2.symm), rfl⟩
  | choice a b iha ihb | interleave a b iha ihb =>
    obtain ⟨i, j, -, ha, hb⟩ := h
    rcases List.mem_append.1 hhead with hhead | hhead
    . exact iha ha hhead
    . exact ihb hb hhead
  | sequence a b iha ihb =>
    obtain ⟨i, j, -, ha, hb⟩ := h
    rcases List.mem_append.1 hhead with hhead | hhead
    . exact iha ha hhead
    . split at hhead
      . exact ihb hb hhead
      . cases hhead
  | oneOrMore a ih | mixed a ih =>
    obtain ⟨i, -, ha⟩ := h
    exact ih ha hhead
  | reference r a ih =>
    obtain ⟨-, i, -, ha⟩ := h
    exact ih ha hhead
  | _ => cases hhead

/--
The search that a task leads to is the search of the form.
-/
def HeadTask.Shows (s : Store) (defs : Definitions) : HeadTask → Form → Prop
  | .visit a, e => s.Shows defs a e
  | .after a b, e => ∃ first second, s.Shows defs a first ∧ s.Shows defs b second ∧
    e = if first.nullable then second else .epsilon

theorem HeadTask.Shows.head {task : HeadTask} {head : Head} (h : task.Shows s defs e)
    (hhead : head ∈ e.heads) : s.Shows defs head.id (.element head) := by
  cases task with
  | visit a => exact Store.Shows.head h hhead
  | after a b =>
    obtain ⟨first, second, -, hb, rfl⟩ := h
    split at hhead
    . exact Store.Shows.head hb hhead
    . cases hhead

theorem HeadTask.Shows.heads {tasks : List HeadTask} {forms : List Form}
    (h : List.Forall₂ (HeadTask.Shows s defs) tasks forms) {f : Form} (hf : f ∈ forms) {head : Head}
    (hhead : head ∈ f.heads) : s.Shows defs head.id (.element head) := by
  induction h with
  | nil => cases hf
  | cons htask _ ih =>
    rcases List.mem_cons.1 hf with rfl | hf
    . exact htask.head hhead
    . exact ih hf

def Visited.Met (v : Visited) (s : Store) (defs : Definitions) (x : Form) : Prop :=
  ∃ id ∈ v.seen, s.Shows defs id x

def Visited.newHeads (v : Visited) (forms : List Form) : List Head :=
  ((forms.flatMap Form.heads).filter fun head => !decide (head.id ∈ v.seen)).eraseDups

namespace Visited

variable {v w : Visited} {forms news : List Form}

theorem met_of_visit? (hvisit : v.visit? id = some w) (hid : s.Shows defs id e) :
    w.Met s defs = fun x => v.Met s defs x ∨ x = e := by
  obtain ⟨-, hseen⟩ := seen_of_visit? hvisit
  funext x
  refine propext ⟨?_, ?_⟩
  . rintro ⟨i, hi, hx⟩
    rcases (hseen i).1 hi with hi | rfl
    . exact Or.inl ⟨i, hi, hx⟩
    . exact Or.inr (hx.unique hid)
  . rintro (⟨i, hi, hx⟩ | rfl)
    . exact ⟨i, (hseen i).2 (Or.inl hi), hx⟩
    . exact ⟨id, (hseen id).2 (Or.inr rfl), hid⟩

theorem newHeads_skip (he : ∀ head ∈ e.heads, head.id ∈ v.seen) :
    v.newHeads (e :: forms) = v.newHeads forms := by
  unfold newHeads
  have hnone : e.heads.filter (fun head => !decide (head.id ∈ v.seen)) = [] := by
    simpa using he
  rw [List.flatMap_cons, List.filter_append, hnone, List.nil_append]

theorem newHeads_expand (hw : ∀ a, a ∈ w.seen ↔ a ∈ v.seen ∨ a = id)
    (hheads : e.heads = news.flatMap Form.heads)
    (hnot : ∀ f ∈ e :: forms, ∀ head ∈ f.heads, head.id ≠ id) :
    v.newHeads (e :: forms) = w.newHeads (news ++ forms) := by
  unfold newHeads
  rw [List.flatMap_append, ← hheads, List.flatMap_cons]
  refine congrArg List.eraseDups (List.filter_congr fun head hhead => ?_)
  have hne : head.id ≠ id := by
    rcases List.mem_append.1 hhead with hhead | hhead
    . exact hnot e List.mem_cons_self head hhead
    . obtain ⟨f, hf, hhead⟩ := List.mem_flatMap.1 hhead
      exact hnot f (List.mem_cons_of_mem _ hf) head hhead
  simp [hw, hne]

theorem newHeads_enter {own : Head} (hw : ∀ a, a ∈ w.seen ↔ a ∈ v.seen ∨ a = own.id)
    (hown : own.id ∉ v.seen)
    (hsame : ∀ f ∈ forms, ∀ head ∈ f.heads, head.id = own.id → head = own) :
    v.newHeads (.element own :: forms) = own :: w.newHeads forms := by
  unfold newHeads
  have hcons : (List.flatMap Form.heads (.element own :: forms)).filter
      (fun head => !decide (head.id ∈ v.seen)) =
        own :: (forms.flatMap Form.heads).filter fun head => !decide (head.id ∈ v.seen) := by
    rw [List.flatMap_cons, Form.heads, List.singleton_append,
      List.filter_cons_of_pos (by simpa using hown)]
  rw [hcons, List.eraseDups_cons, List.filter_filter]
  refine congrArg (own :: ·.eraseDups) (List.filter_congr fun head hhead => ?_)
  obtain ⟨f, hf, hhead⟩ := List.mem_flatMap.1 hhead
  have hiff : head.id = own.id ↔ head = own :=
    ⟨hsame f hf head hhead, fun h => by rw [h]⟩
  simp only [hw, hiff, Bool.decide_or, Bool.not_or, Bool.and_comm]
  rfl

end Visited

/--
The opening of an expression is that of its form: either this declares an element, or it is searched
by searching what it is made of.
-/
inductive Opening.Shows (s : Store) (defs : Definitions) (id : ExprId) (o : Opening) : Form → Prop where
  | element {head} : o.own = [head] → o.tasks = [] → head.id = id →
      Opening.Shows s defs id o (.element head)
  | expand {e news} : o.own = [] → List.Forall₂ (HeadTask.Shows s defs) o.tasks news →
      e.ExpandsTo news → Opening.Shows s defs id o e

namespace Graph

variable {g : Graph}

theorem opening_carries (hg : g.Sound defs) (hs : s ≤ g.store) (h : s.Shows defs id e) :
    Carries defs g (opening defs id) (Pure.pure e : Plan Form) fun _ o e => o.Shows s defs id e := by
  refine Carries.read fun n below hn => ?_
  rw [Store.node_of_le hs h.mem] at hn
  cases e with
  | element head =>
    obtain rfl := hn.symm.trans (Store.node_eq_of_find? h.1)
    obtain ⟨_, rfl⟩ := h
    exact .pure hg (.element rfl rfl rfl)
  | epsilon | nullSet | anyString =>
    obtain rfl := hn.symm.trans (Store.node_eq_of_find? h)
    exact .pure hg (.expand rfl .nil (.nil rfl))
  | typedString =>
    obtain rfl := hn.symm.trans (Store.node_eq_of_find? h.1)
    exact .pure hg (.expand rfl .nil (.nil rfl))
  | «attribute» =>
    obtain rfl := hn.symm.trans (Store.node_eq_of_find? h.choose_spec.1)
    exact .pure hg (.expand rfl .nil (.nil rfl))
  | choice a b =>
    obtain ⟨i, j, hid, ha, hb⟩ := h
    obtain rfl := hn.symm.trans (Store.node_eq_of_find? hid)
    exact .pure hg (.expand rfl (.cons ha (.cons hb .nil)) .choice)
  | interleave a b =>
    obtain ⟨i, j, hid, ha, hb⟩ := h
    obtain rfl := hn.symm.trans (Store.node_eq_of_find? hid)
    exact .pure hg (.expand rfl (.cons ha (.cons hb .nil)) .interleave)
  | sequence a b =>
    obtain ⟨i, j, hid, ha, hb⟩ := h
    obtain rfl := hn.symm.trans (Store.node_eq_of_find? hid)
    exact .pure hg (.expand rfl (.cons ha (.cons ⟨a, b, ha, hb, rfl⟩ .nil)) .sequence)
  | oneOrMore a =>
    obtain ⟨i, hid, ha⟩ := h
    obtain rfl := hn.symm.trans (Store.node_eq_of_find? hid)
    exact .pure hg (.expand rfl (.cons ha .nil) .oneOrMore)
  | mixed a =>
    obtain ⟨i, hid, ha⟩ := h
    obtain rfl := hn.symm.trans (Store.node_eq_of_find? hid)
    exact .pure hg (.expand rfl (.cons ha .nil) .mixed)
  | reference r a =>
    obtain ⟨hid, i, hr, ha⟩ := h
    obtain rfl := hn.symm.trans (Store.node_eq_of_find? hid)
    refine Carries.follow hr ?_
    exact .pure hg (.expand rfl (.cons ha .nil) .reference)

theorem headsFrom_carries (v : Visited) (tasks : List HeadTask) (forms : List Form) {g : Graph}
    (hg : g.Sound defs) (hs : s ≤ g.store) (hbound : v.bound = s.size)
    (htasks : List.Forall₂ (HeadTask.Shows s defs) tasks forms)
    (hswept : Swept (v.Met s defs) [] forms) :
    Carries defs g (headsFrom defs v tasks) (Pure.pure (v.newHeads forms) : Plan (List Head))
      fun _ found heads => found = heads := by
  match tasks, forms, htasks with
  | [], _, .nil =>
    unfold headsFrom
    exact .pure hg rfl
  | .after first second :: tasks, _ :: forms, .cons htask htasks =>
    obtain ⟨a, b, ha, hb, rfl⟩ := htask
    rw [headsFrom]
    refine Carries.ask (isNullable_carries hg (ha.of_le hs le_rfl)) ?_
    rintro _ h hgh hh rfl
    have hs := le_trans hs (store_le hgh)
    split
    . next hnullable =>
      rw [if_pos hnullable] at hswept
      exact headsFrom_carries v (.visit second :: tasks) (b :: forms) hh hs hbound
        (.cons hb htasks) hswept
    . next hnullable =>
      rw [if_neg hnullable] at hswept
      exact headsFrom_carries v tasks forms hh hs hbound htasks hswept.2
  | .visit id :: tasks, e :: forms, .cons htask htasks =>
    have htask : s.Shows defs id e := htask
    have hshown {f : Form} (hf : f ∈ e :: forms) {head : Head} (hhead : head ∈ f.heads) :
        s.Shows defs head.id (.element head) := by
      rcases List.mem_cons.1 hf with rfl | hf
      . exact htask.head hhead
      . exact HeadTask.Shows.heads htasks hf hhead
    cases hvisit : v.visit? id with
    | none =>
      rw [headsFrom_visited hvisit]
      have hid := Visited.mem_seen_of_visit?_eq_none hvisit (by rw [hbound]; exact htask.mem)
      obtain ⟨hmet, hswept⟩ := hswept.skip ⟨id, hid, htask⟩
      rw [Visited.newHeads_skip]
      . exact headsFrom_carries v tasks forms hg hs hbound htasks hswept
      . intro head hhead
        obtain ⟨i, hi, hshows⟩ := hmet head hhead
        rwa [(htask.head hhead).injective hshows]
    | some w =>
      rw [headsFrom_visit hvisit]
      obtain ⟨hwbound, hwseen⟩ := Visited.seen_of_visit? hvisit
      have hlt := Visited.remaining_lt_of_visit? hvisit
      have hmet := Visited.met_of_visit? hvisit htask
      refine Carries.ask (opening_carries hg hs htask) ?_
      intro o h hgh hh ho
      have hs := le_trans hs (store_le hgh)
      have hweight := o.weight_le
      have search (news : List Form) (hnews : List.Forall₂ (HeadTask.Shows s defs) o.tasks news)
          (hswept : Swept (w.Met s defs) [] (news ++ forms)) :
          Carries defs h (headsFrom defs w (o.tasks ++ tasks))
            (Pure.pure (w.newHeads (news ++ forms)) : Plan (List Head))
            fun _ found heads => found = heads :=
        headsFrom_carries w (o.tasks ++ tasks) (news ++ forms) hh hs (hwbound.trans hbound)
          (List.rel_append hnews htasks) hswept
      rw [hmet] at search
      cases ho with
      | @element own hown hnone hid =>
        subst hid
        rw [Visited.newHeads_enter hwseen (Visited.not_mem_seen_of_visit? hvisit), hown]
        . refine Carries.ask (search [] ?_ hswept.enter) ?_
          . rw [hnone]
            exact .nil
          . rintro _ k _ hk rfl
            exact .pure hk rfl
        . intro f hf head hhead hid
          have hshows := hshown (List.mem_cons_of_mem _ hf) hhead
          rw [hid] at hshows
          exact Form.element.inj (hshows.unique htask)
      | expand hown hnews he =>
        rw [Visited.newHeads_expand hwseen he.heads, hown]
        . refine Carries.ask (search _ hnews (hswept.expand he)) ?_
          rintro _ k _ hk rfl
          exact .pure hk rfl
        . rintro f hf head hhead rfl
          exact he.compound head (htask.unique (hshown hf hhead))
termination_by 3 * v.remaining + (tasks.map HeadTask.weight).sum
decreasing_by
  all_goals
    simp only [List.map_cons, List.map_append, List.sum_cons, List.sum_append, HeadTask.weight]
    omega

theorem heads_carries (hg : g.Sound defs) (h : g.store.Shows defs id e) :
    Carries defs g (heads defs id) (Pure.pure e.heads.eraseDups : Plan (List Head))
      fun _ found heads => found = heads := by
  have hswept : Swept (Visited.Met { bound := g.store.size } g.store defs) [] [e] := by
    refine ⟨?_, trivial⟩
    rintro x - ⟨i, hi, -⟩
    simp at hi
  have hsearch := headsFrom_carries { bound := g.store.size } [.visit id] [e] hg le_rfl rfl
    (.cons h .nil) hswept
  have hheads : Visited.newHeads { bound := g.store.size } [e] = e.heads.eraseDups := by
    simp [Visited.newHeads]
  rw [hheads] at hsearch
  exact .get rfl hsearch

theorem candidates_carries {name : Name} (hg : g.Sound defs) (h : g.store.Shows defs id e) :
    Carries defs g (candidates defs id name)
      (Pure.pure (e.heads.eraseDups.filter (·.names.contains name)) : Plan (List Head))
      fun _ found heads => found = heads := by
  refine Carries.ask (heads_carries hg h) ?_
  rintro _ k _ hk rfl
  exact .pure hk rfl

theorem describeHeads_carries (hg : g.Sound defs) (h : g.store.Shows defs id e) :
    Carries defs g (describeHeads defs id) (Pure.pure e.describeHeads : Plan String)
      fun _ text text' => text = text' := by
  refine Carries.ask (heads_carries hg h) ?_
  rintro _ k _ hk rfl
  dsimp only [Form.describeHeads, Form.describe]
  split
  . exact .pure hk rfl
  . exact .pure hk rfl

end Graph

end TreeGrammar
