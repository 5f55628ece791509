import TreeGrammar.Proofs.Work

/-!
This module contains the correctness of remembering results: work that gives each expression its
right result, given that those of the expressions met before are right, gives the right result if it
takes the remembered ones.
-/

namespace TreeGrammar

/--
The result for an expression is put together from the expression and related to it as `rel` says,
also later on.
-/
structure Outcome (defs : Definitions) (rel : Store → ExprId → ExprId → Prop) (s t : Store)
    (id r : ExprId) : Prop where
  related : ∀ u, t ≤ u → rel u id r
  composed : Composed defs s t [id] r

def Consistent (defs : Definitions) (rel : Store → ExprId → ExprId → Prop) (s : Store)
    (results : Results) : Prop :=
  ∀ id r : ExprId, results[id]? = some r → id ∈ s ∧ Outcome defs rel s s id r

variable {defs : Definitions} {rel : Store → ExprId → ExprId → Prop} {s t u : Store}
variable {id r : ExprId} {results : Results}

namespace Outcome

theorem of_le (h : Outcome defs rel s t id r) (htu : t ≤ u) : Outcome defs rel s u id r where
  related v hv := h.related v (le_trans htu hv)
  composed := h.composed.of_le htu

theorem of_ge (h : Outcome defs rel t u id r) (hst : s ≤ t) : Outcome defs rel s u id r where
  related := h.related
  composed := h.composed.trans hst (by simpa using .operand hst List.mem_cons_self)

theorem rebase (h : Outcome defs rel s t id r) (hwithin : defs.Within s) (hid : id ∈ s)
    (hst : s ≤ t) : Outcome defs rel t t id r where
  related := h.related
  composed := h.composed.rebase hwithin (by simpa using hid) hst le_rfl

theorem mem (h : Outcome defs rel s t id r) (hwithin : defs.Within s) (hid : id ∈ s)
    (hst : s ≤ t) : r ∈ t :=
  h.composed.mem hwithin hst (by simpa using hid)

end Outcome

namespace Consistent

theorem empty : Consistent defs rel s ∅ := by
  intro id r h
  simp at h

theorem of_le (h : Consistent defs rel s results) (hwithin : defs.Within s) (hst : s ≤ t) :
    Consistent defs rel t results := by
  intro id r hr
  obtain ⟨hid, houtcome⟩ := h id r hr
  exact ⟨Store.mem_of_le hst hid, (houtcome.of_le hst).rebase hwithin hid hst⟩

theorem insert (h : Consistent defs rel s results) (hid : id ∈ s)
    (hr : Outcome defs rel s s id r) : Consistent defs rel s (results.insert id r) :=
  forall_getElem?_insert h ⟨hid, hr⟩

end Consistent

def Results.Within (results : Results) (s : Store) : Prop :=
  ∀ id r : ExprId, results[id]? = some r → r ∈ s

namespace Results.Within

theorem empty : Results.Within ∅ s := by
  intro id r h
  simp at h

theorem of_le (h : results.Within s) (hst : s ≤ t) : results.Within t :=
  fun id r hr => Store.mem_of_le hst (h id r hr)

theorem insert (h : results.Within s) (hr : r ∈ s) : Results.Within (results.insert id r) s :=
  forall_getElem?_insert h hr

end Results.Within

namespace Graph

variable {g : Graph} {E : Fault → Prop}

theorem run_lift_memo {α : Type} (work : GraphM α) (results : Results) :
    (liftM work : MemoM α).run results = work >>= fun a => pure (a, results) := by
  simp [liftM, monadLift, MonadLift.monadLift]

theorem run_lift_except_memo {α : Type} (x : Except Fault α) (results : Results) :
    (liftM x : MemoM α).run results = (liftM x : GraphM α) >>= fun a => pure (a, results) := by
  simp [liftM, monadLift, MonadLift.monadLift]

theorem run_memoized (work : MemoM ExprId) (results : Results) :
    (memoized id work).run results = match results[id]? with
      | some r => pure (r, results)
      | none => do
        let (r, results) ← work.run results
        return (r, results.insert id r) := by
  have hget : (getThe Results : MemoM Results).run results = pure (results, results) := rfl
  unfold memoized
  rw [StateT.run_bind, hget, pure_bind]
  cases results[id]? with
  | some r => rfl
  | none => rfl

theorem memoized_returns {work : MemoM ExprId} (hg : g.Sound defs) (hid : id ∈ g.store)
    (hresults : Consistent defs rel g.store results)
    (hwork : Returns defs g (work.run results) E fun p h =>
      Outcome defs rel g.store h.store id p.1 ∧ Consistent defs rel h.store p.2) :
    Returns defs g ((memoized id work).run results) E fun p h =>
      Outcome defs rel g.store h.store id p.1 ∧ Consistent defs rel h.store p.2 := by
  rw [run_memoized]
  cases hr : results[id]? with
  | some r => exact .pure hg ⟨(hresults id r hr).2, hresults⟩
  | none =>
    refine Returns.bind hwork ?_
    rintro ⟨r, results'⟩ h hgh hh ⟨hr, hresults'⟩
    have hid' := Store.mem_of_le (store_le hgh) hid
    exact .pure hh ⟨hr, hresults'.insert hid' (hr.rebase hg.within hid (store_le hgh))⟩

end Graph

end TreeGrammar
