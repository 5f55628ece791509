import TreeGrammar.Proofs.LeastSolution
import TreeGrammar.Proofs.Required

/-!
This module contains that what a search for the attributes that an expression demands has found in a
graph it finds again, and without an effect, when the graph has grown since. To this end two searches
for an expression are followed side by side.
-/

namespace TreeGrammar

open Relation

/--
The expression exposes one that its own parts lead back to.
-/
def Recurs (s : Store) (defs : Definitions) (id : ExprId) : Prop :=
  ∃ a, ReflTransGen (Exposes s defs) a id ∧ TransGen (Exposes s defs) a a

def Followed (s : Store) (defs : Definitions) (visiting : List RefId) (id : ExprId) : Prop :=
  ∀ r ∈ visiting, ∃ target, defs.target? r = some target ∧ ReflTransGen (Exposes s defs) id target

section Recursion

variable {s : Store} {defs : Definitions} {visiting : List RefId} {id a : ExprId} {r : RefId}

theorem Recurs.of_reflTransGen (h : Recurs s defs a) (ha : ReflTransGen (Exposes s defs) a id) :
    Recurs s defs id := by
  obtain ⟨b, hb, hcycle⟩ := h
  exact ⟨b, hb.trans ha, hcycle⟩

theorem Recurs.part (h : Recurs s defs a) (ha : Exposes s defs a id) : Recurs s defs id :=
  h.of_reflTransGen (.single ha)

theorem Guarded.not_recurs (h : Guarded s defs id) : ¬ Recurs s defs id := by
  rintro ⟨a, ha, hcycle⟩
  have hle : Exposes s defs ≤ Part s defs := fun _ _ h => h.1
  have ha := h.of_reflTransGen (ReflTransGen.mono hle _ _ ha)
  exact ha.not_transGen (TransGen.mono hle _ _ hcycle)

namespace Followed

theorem nil : Followed s defs [] id := by
  intro r hr
  cases hr

theorem part (h : Followed s defs visiting id) (ha : Exposes s defs a id) :
    Followed s defs visiting a := by
  intro r hr
  obtain ⟨target, htarget, hid⟩ := h r hr
  exact ⟨target, htarget, .head ha hid⟩

theorem cons (h : Followed s defs visiting a) (ha : defs.target? r = some a) :
    Followed s defs (r :: visiting) a := by
  intro q hq
  rcases List.mem_cons.1 hq with rfl | hq
  . exact ⟨a, ha, .refl⟩
  . exact h q hq

theorem not_mem (h : Followed s defs visiting id) (hid : ¬ Recurs s defs id)
    (hn : s.node id = .reference r) : r ∉ visiting := by
  intro hr
  obtain ⟨target, htarget, hpath⟩ := h r hr
  have hexposes : Exposes s defs target id := ⟨.target hn htarget, by simp [hn]⟩
  exact hid ⟨id, .refl, .tail' hpath hexposes⟩

end Followed

end Recursion

namespace Graph

/--
Two searches for an expression, which follow different references, have the same to find out: the
same fault or answer, or else what the same parts demand. These lie further down.
-/
inductive Parallel (s : Store) (defs : Definitions) (visiting visiting' : List RefId)
    (id : ExprId) : Inquiry → Inquiry → Prop where
  | fault (f : Fault) : Parallel s defs visiting visiting' id (.fault f) (.fault f)
  | answer {r : ExprId} : r = .epsilon ∨ r = id →
    Parallel s defs visiting visiting' id (.answer r) (.answer r)
  | other {next next' : List RefId} {a : ExprId} : Exposes s defs a id →
    Followed s defs next a → Followed s defs next' a → next = next' ∨ ¬ Recurs s defs a →
    defs.reach next a < defs.reach visiting id →
    Parallel s defs visiting visiting' id (.other next a) (.other next' a)
  | operands {j : Junction} {a b : ExprId} : Exposes s defs a id → Exposes s defs b id →
    a.index < id.index → b.index < id.index →
    Parallel s defs visiting visiting' id (.operands j a b) (.operands j a b)

def Stored (t : Store) (m : Results) : Prop :=
  ∀ x r : ExprId, m[x]? = some r → r ∈ t

structure Lasts (s : Store) (defs : Definitions) (id : ExprId) (work : MemoM ExprId) (m : Results)
    (g : Graph) (p : ExprId × Results) (h : Graph) : Prop where
  le : g ≤ h
  sound : h.forgetful.Sound defs
  mem : p.1 ∈ h.store
  stored : Stored h.store p.2
  frame : ∀ x : ExprId, p.2[x]? = m[x]? ∨ m[x]? = none ∧ ReflTransGen (Exposes s defs) x id
  again : ∀ u, h ≤ u → work.run m u = .ok (p, u)

def Lasting (s : Store) (defs : Definitions) (id : ExprId) (work : MemoM ExprId) (m : Results)
    (g : Graph) : Prop :=
  ∀ p h, work.run m g = .ok (p, h) → Lasts s defs id work m g p h

variable {s : Store} {defs : Definitions} {visiting visiting' : List RefId} {id a b p q r : ExprId}
variable {g h u : Graph} {m m' : Results}

theorem bind_eq_ok {α β : Type} {work : GraphM α} {next : α → GraphM β} {c : β}
    (hrun : (work >>= next) g = .ok (c, u)) :
    ∃ x h, work g = .ok (x, h) ∧ next x h = .ok (c, u) := by
  change (work g).bind _ = _ at hrun
  cases hwork : work g with
  | error f =>
    rw [hwork] at hrun
    cases hrun
  | ok p =>
    rw [hwork] at hrun
    exact ⟨p.1, p.2, rfl, hrun⟩

theorem bind_of_eq_ok {α β : Type} {work : GraphM α} {next : α → GraphM β} {x : α}
    (hrun : work g = .ok (x, h)) : (work >>= next) g = next x h := by
  change (work g).bind _ = _
  rw [hrun]
  rfl

theorem requiredFrom_of_known (hr : m[id]? = some r) :
    (requiredFrom defs visiting id).run m g = .ok ((r, m), g) := by
  rw [requiredFrom, run_memoized, hr]
  rfl

theorem requiredFrom_of_new (hid : id ∈ s) (hs : s ≤ g.store) (hnew : m[id]? = none) :
    (requiredFrom defs visiting id).run m g = (do
      let (r, m) ← (pursue defs visiting (inquiry defs visiting id (s.node id))).run m
      return (r, m.insert id r) : GraphM (ExprId × Results)) g := by
  rw [requiredFrom_eq, run_memoized, hnew, ← Store.node_of_le hs hid]
  rfl

theorem getElem?_of_requiredFrom (hid : id ∈ g.store)
    (hrun : (requiredFrom defs visiting id).run m g = .ok ((r, m'), h)) : m'[id]? = some r := by
  cases hm : m[id]? with
  | some q =>
    rw [requiredFrom_of_known hm] at hrun
    cases hrun
    exact hm
  | none =>
    rw [requiredFrom_of_new hid le_rfl hm] at hrun
    obtain ⟨p, k, _, hkeep⟩ := bind_eq_ok hrun
    cases hkeep
    exact Std.TreeMap.getElem?_insert_self

theorem conclude_yields (j : Junction) (hg : g.Sound defs) (hp : p ∈ g.store) (hq : q ∈ g.store) :
    Yields defs g (fun defs => j.conclude defs p q) (fun _ => True) fun r h => r ∈ h.store := by
  have test {a : ExprId} {h : Graph} {next : Definitions → Bool → GraphM ExprId} (ha : a ∈ g.store)
      (hgh : g ≤ h) (hh : h.Sound defs) (hnext : ∀ b k, h ≤ k → k.Sound defs →
        Yields defs k (next · b) (fun _ => True) fun r k => r ∈ k.store) :
      Yields defs h (fun defs => isNullable defs a >>= next defs) (fun _ => True)
        fun r k => r ∈ k.store :=
    .bind ((isNullable_yields hh (Store.mem_of_le (store_le hgh) ha)).mono (fun _ _ => trivial)
      fun _ _ _ _ h => h) fun b k hhk hk _ => hnext b k hhk hk
  have answer {a : ExprId} {h : Graph} (ha : a ∈ g.store) (hgh : g ≤ h) (hh : h.Sound defs) :
      Yields defs h (fun _ => pure a) (fun _ => True) fun r h => r ∈ h.store :=
    .pure hh (Store.mem_of_le (store_le hgh) ha)
  have hepsilon := g.store.epsilon_mem
  cases j with
  | every =>
    refine test hp le_rfl hg fun b h hgh hh => ?_
    cases b with
    | false => exact answer hp hgh hh
    | true =>
      refine test hq hgh hh fun b k hhk hk => ?_
      cases b with
      | false => exact answer hq (le_trans hgh hhk) hk
      | true => exact answer hepsilon (le_trans hgh hhk) hk
  | either =>
    refine test hp le_rfl hg fun b h hgh hh => ?_
    cases b with
    | true => exact answer hepsilon hgh hh
    | false =>
      refine test hq hgh hh fun b k hhk hk => ?_
      cases b with
      | true => exact answer hepsilon (le_trans hgh hhk) hk
      | false =>
        have hle := store_le (le_trans hgh hhk)
        have hp := Store.mem_of_le hle hp
        have hq := Store.mem_of_le hle hq
        refine (choice_yields hk hp hq).mono (fun _ _ => trivial) ?_
        rintro r l hkl _ ⟨_, hr⟩
        exact hr.mem hk.within (store_le hkl) (by simpa using ⟨hp, hq⟩)

theorem conclude_blind (j : Junction) : Blind (j.conclude defs p q) := by
  have test {a : ExprId} {next : Bool → GraphM ExprId} (hnext : ∀ b, Blind (next b)) :
      Blind (isNullable defs a >>= next) := .bind (examines_blind.isNullable a) hnext
  cases j with
  | every =>
    refine test fun b => ?_
    cases b with
    | false => exact .pure p
    | true => exact test fun b => by cases b <;> exact .pure _
  | either =>
    refine test fun b => ?_
    cases b with
    | true => exact .pure ExprId.epsilon
    | false =>
      refine test fun b => ?_
      cases b with
      | true => exact .pure ExprId.epsilon
      | false => exact builds_blind.choice p q

theorem inquiry_parallel (hv : Followed s defs visiting id) (hv' : Followed s defs visiting' id)
    (hsame : visiting = visiting' ∨ ¬ Recurs s defs id) :
    Parallel s defs visiting visiting' id (inquiry defs visiting id (s.node id))
      (inquiry defs visiting' id (s.node id)) := by
  have below := s.node_below id
  have operand {a : ExprId} (hn : (s.node id).isCompound) (ha : a ∈ (s.node id).children) :
      Exposes s defs a id := .of_isCompound hn ha
  have part {a : ExprId} (ha : Exposes s defs a id) :
      visiting = visiting' ∨ ¬ Recurs s defs a := hsame.imp_right (mt (Recurs.part · ha))
  cases hn : s.node id with
  | nullSet => exact .fault _
  | epsilon | anyString | typedString | element => exact .answer (.inl rfl)
  | «attribute» => exact .answer (.inr rfl)
  | oneOrMore a | mixed a =>
    rw [hn] at operand below
    have ha := operand (a := a) rfl (by simp [Node.children])
    exact .other ha (hv.part ha) (hv'.part ha) (part ha)
      (Definitions.reach_child_lt (below a (by simp [Node.children])))
  | sequence a b | interleave a b | choice a b =>
    rw [hn] at operand below
    exact .operands (operand rfl (by simp [Node.children])) (operand rfl (by simp [Node.children]))
      (below a (by simp [Node.children])) (below b (by simp [Node.children]))
  | reference r =>
    have hmem : r ∈ visiting ↔ r ∈ visiting' := by
      rcases hsame with rfl | hsame
      . rfl
      . exact iff_of_false (hv.not_mem hsame hn) (hv'.not_mem hsame hn)
    by_cases hr : r ∈ visiting
    . rw [inquiry, inquiry, if_pos hr, if_pos (hmem.1 hr)]
      exact .answer (.inl rfl)
    . rw [inquiry, inquiry, if_neg hr, if_neg (mt hmem.2 hr)]
      cases htarget : defs.target? r with
      | none => exact .fault _
      | some target =>
        have ha : Exposes s defs target id := ⟨.target hn htarget, by simp [hn]⟩
        exact .other ha (.cons (hv.part ha) htarget) (.cons (hv'.part ha) htarget)
          ((part ha).imp_left (congrArg _)) (Definitions.reach_target_lt htarget hr)

theorem Stored.empty {t : Store} : Stored t ∅ := by
  simp [Stored]

theorem Stored.of_le {t t' : Store} (h : Stored t m) (htt : t ≤ t') : Stored t' m :=
  fun x r hr => Store.mem_of_le htt (h x r hr)

theorem Stored.insert {t : Store} (h : Stored t m) (hr : r ∈ t) : Stored t (m.insert id r) :=
  forall_getElem?_insert h hr

namespace Lasting

variable {work : MemoM ExprId} {next : ExprId → MemoM ExprId}

theorem part (h : Lasting s defs a work m g) (ha : Exposes s defs a id) :
    Lasting s defs id work m g := by
  intro p k hrun
  obtain ⟨hle, hsound, hmem, hstored, hframe, hagain⟩ := h p k hrun
  refine ⟨hle, hsound, hmem, hstored, fun x => (hframe x).imp_right ?_, hagain⟩
  rintro ⟨hnew, hx⟩
  exact ⟨hnew, hx.tail ha⟩

theorem throw {f : Fault} : Lasting s defs id (throw f) m g := by
  rintro p h ⟨⟩

theorem pure (hg : g.forgetful.Sound defs) (hm : Stored g.store m) (hr : r ∈ g.store) :
    Lasting s defs id (pure r) m g := by
  rintro _ _ ⟨⟩
  exact ⟨le_rfl, hg, hr, hm, fun _ => Or.inl rfl, fun _ _ => rfl⟩

theorem bind (hwork : Lasting s defs id work m g)
    (hnext : ∀ p h, Lasts s defs id work m g p h → Lasting s defs id (next p.1) p.2 h) :
    Lasting s defs id (work >>= next) m g := by
  intro q k hrun
  rw [StateT.run_bind] at hrun
  obtain ⟨p, h, hp, hrest⟩ := bind_eq_ok hrun
  have hfirst := hwork p h hp
  have hsecond := hnext p h hfirst q k hrest
  refine ⟨le_trans hfirst.le hsecond.le, hsecond.sound, hsecond.mem, hsecond.stored, ?_, ?_⟩
  . intro x
    rcases hsecond.frame x with hx | ⟨hnew, hx⟩
    . rw [hx]
      exact hfirst.frame x
    . rcases hfirst.frame x with hx' | ⟨hnew', _⟩
      . exact Or.inr ⟨hx' ▸ hnew, hx⟩
      . exact Or.inr ⟨hnew', hx⟩
  . intro u hu
    rw [StateT.run_bind, bind_of_eq_ok (hfirst.again u (le_trans hsecond.le hu))]
    exact hsecond.again u hu

theorem conclude (j : Junction) (hg : g.forgetful.Sound defs) (hm : Stored g.store m)
    (hp : p ∈ g.store) (hq : q ∈ g.store) :
    Lasting s defs id (liftM (j.conclude defs p q)) m g := by
  intro o k hrun
  rw [run_lift_memo] at hrun
  obtain ⟨r, h, hr, hpure⟩ := bind_eq_ok hrun
  cases hpure
  obtain ⟨hle, hsound, hmem, hagain⟩ :=
    (conclude_blind j).ok_of_returns (conclude_yields j hg hp hq) hr
  refine ⟨hle, hsound, hmem, hm.of_le (store_le hle), fun _ => Or.inl rfl, ?_⟩
  intro u hu
  rw [run_lift_memo]
  exact bind_of_eq_ok (hagain defs u le_rfl hu)

theorem remember (hid : id ∈ s) (hs : s ≤ g.store) (hnew : m[id]? = none)
    (h : Lasting s defs id (pursue defs visiting (inquiry defs visiting id (s.node id))) m g) :
    Lasting s defs id (requiredFrom defs visiting id) m g := by
  intro o l hrun
  rw [requiredFrom_of_new hid hs hnew] at hrun
  obtain ⟨p, k, hp, hkeep⟩ := bind_eq_ok hrun
  cases hkeep
  obtain ⟨hle, hsound, hmem, hstored, hframe, hagain⟩ := h p l hp
  refine ⟨hle, hsound, hmem, hstored.insert hmem, ?_, ?_⟩
  . intro x
    rw [getElem?_insert]
    split
    . next heq =>
      subst heq
      exact Or.inr ⟨hnew, .refl⟩
    . exact hframe x
  . intro u hu
    rw [requiredFrom_of_new hid (le_trans hs (store_le (le_trans hle hu))) hnew]
    exact bind_of_eq_ok (hagain u hu)

end Lasting

theorem requiredFrom_lasting (hwithin : defs.Within s) (visiting : List RefId) (id : ExprId)
    (hid : id ∈ s) (hv : Followed s defs visiting id) {g : Graph} {m : Results} (hs : s ≤ g.store)
    (hg : g.forgetful.Sound defs) (hm : Stored g.store m) :
    Lasting s defs id (requiredFrom defs visiting id) m g := by
  cases hr : m[id]? with
  | some r =>
    intro p h hrun
    rw [requiredFrom_of_known hr] at hrun
    cases hrun
    exact ⟨le_rfl, hg, hm id r hr, hm, fun _ => Or.inl rfl, fun _ _ => requiredFrom_of_known hr⟩
  | none =>
    refine .remember hid hs hr ?_
    have hparallel := inquiry_parallel hv hv (Or.inl rfl)
    generalize inquiry defs visiting id (s.node id) = i at hparallel ⊢
    cases hparallel with
    | fault f => exact .throw
    | @answer r hr =>
      refine .pure hg hm ?_
      rcases hr with rfl | rfl
      . exact g.store.epsilon_mem
      . exact Store.mem_of_le hs hid
    | @other next _ a ha hnext _ _ hlt =>
      exact (requiredFrom_lasting hwithin next a (ha.1.mem hwithin hid) hnext hs hg hm).part ha
    | @operands j a b ha hb hlta hltb =>
      have hfirst := (requiredFrom_lasting hwithin visiting a (ha.1.mem hwithin hid) (hv.part ha) hs
        hg hm).part ha
      refine .bind hfirst fun p h hp => ?_
      have hsh := le_trans hs (store_le hp.le)
      have hsecond := (requiredFrom_lasting hwithin visiting b (hb.1.mem hwithin hid) (hv.part hb)
        hsh hp.sound hp.stored).part hb
      refine .bind hsecond fun q k hq => ?_
      exact .conclude j hq.sound hq.stored (Store.mem_of_le (store_le hq.le) hp.mem) hq.mem
termination_by defs.reach visiting id
decreasing_by
  . exact hlt
  . exact Definitions.reach_child_lt hlta
  . exact Definitions.reach_child_lt hltb

end Graph

end TreeGrammar
