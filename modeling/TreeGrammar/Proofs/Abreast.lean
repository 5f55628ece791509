import TreeGrammar.Proofs.Nesting
import TreeGrammar.Proofs.Operations

/-!
This module contains forms that are followed side by side: the choice of some contents goes on as long
as one of the contents does, and what is left of it is the choice of what is left of those that have gone
on with it.
-/

namespace TreeGrammar

def KeepsUp (whole own : List Bool) (k : Nat) : Prop :=
  ∀ j < k, whole[j]? = some true → own[j]? = some true

instance (whole own : List Bool) (k : Nat) : Decidable (KeepsUp whole own k) :=
  Nat.decidableBallLT k _

namespace Operation

noncomputable def next (e : Form) : Operation → Form
  | .read token => Form.Matcher.afterToken token e
  | .endAttributes => (e.discharge .missing).value
  | .grantAttributes => (e.discharge .granted).value

noncomputable def fits (e : Form) : Operation → Bool
  | .read token => token.isIgnorable || (e.derivative token).value ≠ .nullSet
  | .endAttributes => (e.discharge .missing).value ≠ .nullSet
  | .grantAttributes => true

noncomputable def step (e : Form) (o : Operation) : Form :=
  if o.fits e then o.next e else e

variable {o : Operation} {e x : Form} {p : Head → Prop}

theorem mem_alternatives_next : x ∈ (o.next e).alternatives ↔
    ∃ a ∈ e.alternatives, x ∈ (o.next a).alternatives := by
  cases o with
  | read token => exact Form.Matcher.mem_alternatives_afterToken token e x
  | endAttributes | grantAttributes => exact Form.mem_alternatives_discharge

theorem next_nullSet : o.next .nullSet = .nullSet := by
  cases o with
  | read token =>
    change (Form.after token .nullSet .nullSet).value = .nullSet
    unfold Form.after
    split <;> rfl
  | endAttributes | grantAttributes => rfl

theorem next_of_not_fits (h : ¬ o.fits e) : o.next e = .nullSet := by
  cases o with
  | read token =>
    rw [fits, Bool.or_eq_true, not_or, decide_eq_true_eq, not_not] at h
    change (Form.after token e _).value = .nullSet
    rw [Form.after, if_neg h.1]
    exact h.2
  | endAttributes =>
    rw [fits, decide_eq_true_eq, not_not] at h
    exact h
  | grantAttributes => exact absurd rfl h

theorem fits_of_fits_nullSet (h : o.fits .nullSet) : o.fits e := by
  cases o with
  | read token =>
    rw [fits, Bool.or_eq_true] at h ⊢
    exact Or.inl (h.resolve_right (by simp [Form.derivative, Form.derive]))
  | endAttributes =>
    rw [fits, decide_eq_true_eq] at h
    exact absurd rfl h
  | grantAttributes => rfl

theorem fits_iff_next_ne_nullSet (h : ¬ o.fits .nullSet) : o.fits e ↔ o.next e ≠ .nullSet := by
  cases o with
  | read token =>
    rw [fits, Bool.or_eq_true, not_or] at h
    change _ ↔ (Form.after token e _).value ≠ .nullSet
    rw [Form.after, if_neg h.1, fits, Bool.or_eq_true, or_iff_right h.1]
    exact decide_eq_true_iff
  | endAttributes => exact decide_eq_true_iff
  | grantAttributes => exact absurd rfl h

theorem proper_next (he : e.Proper p) : (o.next e).Proper p := by
  cases o with
  | read token =>
    have hP := Form.stable_proper p
    exact (Form.Matcher.after_keeps hP he (he.derivative token).value).value
  | endAttributes => exact (he.discharge .missing).value
  | grantAttributes => exact (he.discharge .granted).value

theorem proper_step (he : e.Proper p) : (o.step e).Proper p := by
  unfold step
  split
  . exact proper_next he
  . exact he

end Operation

namespace Form

variable {ι : Type} {o : Operation} {ops : List Operation} {p : Head → Prop} {e state : Form}
variable {contents : ι → Form} {owner : Option ExprId} {token : Token}

theorem next_of_ignorable (hnull : (e.derivative token).value = .nullSet)
    (hignorable : token.isIgnorable) : Operation.next e (.read token) = e := by
  change (after token e (e.derivative token).value).value = e
  rw [after, if_pos hignorable, hnull, choice_nullSet]

theorem eq_nullSet_iff_alternatives (he : e.IsReduced) :
    e = .nullSet ↔ ∀ x, x ∉ e.alternatives := by
  constructor
  . rintro rfl
    simp
  . intro h
    by_contra hne
    exact alternatives_ne_nil he hne (List.eq_nil_iff_forall_not_mem.2 h)

def IsJoin (state : Form) (contents : ι → Form) : Prop :=
  ∀ x, x ∈ state.alternatives ↔ ∃ i, x ∈ (contents i).alternatives

theorem IsJoin.map {f : Form → Form} (h : IsJoin state contents)
    (hf : ∀ e x, x ∈ (f e).alternatives ↔ ∃ a ∈ e.alternatives, x ∈ (f a).alternatives) :
    IsJoin (f state) fun i => f (contents i) := by
  intro x
  rw [hf]
  constructor
  . rintro ⟨a, ha, hx⟩
    obtain ⟨i, ha⟩ := (h a).1 ha
    exact ⟨i, (hf _ x).2 ⟨a, ha, hx⟩⟩
  . rintro ⟨i, hx⟩
    obtain ⟨a, ha, hx⟩ := (hf _ x).1 hx
    exact ⟨a, (h a).2 ⟨i, ha⟩, hx⟩

theorem IsJoin.eq_nullSet_iff (h : IsJoin state contents) (hstate : state.IsReduced)
    (hcontents : ∀ i, (contents i).IsReduced) : state = .nullSet ↔ ∀ i, contents i = .nullSet := by
  rw [eq_nullSet_iff_alternatives hstate]
  simp only [h _, not_exists, fun i => eq_nullSet_iff_alternatives (hcontents i)]
  exact forall_comm

theorem IsJoin.fits_iff [Nonempty ι] (h : IsJoin state contents) (hstate : state.Proper p)
    (hcontents : ∀ i, (contents i).Proper p) : o.fits state ↔ ∃ i, o.fits (contents i) := by
  by_cases hnull : o.fits .nullSet
  -- text that may be left out, or attributes that need not be there: nothing is told apart by them
  . obtain ⟨i⟩ := ‹Nonempty ι›
    exact iff_of_true (Operation.fits_of_fits_nullSet hnull)
      ⟨i, Operation.fits_of_fits_nullSet hnull⟩
  . have hnext := (h.map fun _ _ => Operation.mem_alternatives_next (o := o)).eq_nullSet_iff
      (Operation.proper_next hstate).reduced fun i => (Operation.proper_next (hcontents i)).reduced
    simp only [Operation.fits_iff_next_ne_nullSet hnull, ne_eq, hnext, not_forall]

/--
Contents that are followed side by side are in step with what is followed singly: some of them are
the same, and of the others nothing is left.
-/
structure InStep (p : Head → Prop) (alive : ι → Prop) (state : Form) (contents simple : ι → Form) :
    Prop where
  join : IsJoin state contents
  proper : state.Proper p
  proper_simple : ∀ i, (simple i).Proper p
  followed : ∀ i, alive i → contents i = simple i
  dropped : ∀ i, ¬ alive i → contents i = .nullSet
  exists_alive : ∃ i, alive i

namespace InStep

variable {alive : ι → Prop} {simple : ι → Form}

theorem proper_contents (h : InStep p alive state contents simple) (i : ι) : (contents i).Proper p := by
  by_cases hi : alive i
  . rw [h.followed i hi]
    exact h.proper_simple i
  . rw [h.dropped i hi]
    exact .nullSet

theorem fits_iff (h : InStep p alive state contents simple) :
    o.fits state ↔ ∃ i, alive i ∧ o.fits (simple i) := by
  obtain ⟨j, hj⟩ := h.exists_alive
  have : Nonempty ι := ⟨j⟩
  rw [h.join.fits_iff h.proper h.proper_contents]
  constructor
  . rintro ⟨i, hi⟩
    by_cases halive : alive i
    . exact ⟨i, halive, h.followed i halive ▸ hi⟩
    . rw [h.dropped i halive] at hi
      exact ⟨j, hj, Operation.fits_of_fits_nullSet hi⟩
  . rintro ⟨i, halive, hi⟩
    exact ⟨i, (h.followed i halive).symm ▸ hi⟩

theorem stay (h : InStep p alive state contents simple) (ho : ¬ o.fits state) :
    InStep p alive state contents fun i => o.step (simple i) where
  join := h.join
  proper := h.proper
  proper_simple i := Operation.proper_step (h.proper_simple i)
  followed i hi := by
    have hsimple : ¬ o.fits (simple i) := fun hfits => ho (h.fits_iff.2 ⟨i, hi, hfits⟩)
    rw [Operation.step, if_neg hsimple, h.followed i hi]
  dropped := h.dropped
  exists_alive := h.exists_alive

theorem next (h : InStep p alive state contents simple) (ho : o.fits state) :
    InStep p (fun i => alive i ∧ o.fits (simple i)) (o.next state) (fun i => o.next (contents i))
      fun i => o.step (simple i) where
  join := h.join.map fun _ _ => Operation.mem_alternatives_next
  proper := Operation.proper_next h.proper
  proper_simple i := Operation.proper_step (h.proper_simple i)
  followed i hi := by rw [Operation.step, if_pos hi.2, h.followed i hi.1]
  dropped i hi := by
    by_cases halive : alive i
    . rw [h.followed i halive, Operation.next_of_not_fits fun hfits => hi ⟨halive, hfits⟩]
    . rw [h.dropped i halive, Operation.next_nullSet]
  exists_alive := h.fits_iff.1 ho

end InStep

namespace Matcher

variable {n : Nat} {owners : Fin n → ExprId} {owner : Fin n → Option ExprId}
variable {contents simple : Fin n → Form} {alive : Fin n → Prop}

theorem operate?_single {owner : Option ExprId} : ((single e owner).operate? o).value =
    if o.fits e then some (.single (o.next e) owner) else none := by
  cases o with
  | read token =>
    change ((single e owner).read? token).value = _
    rw [read?, Plan.value_bind, Operation.fits]
    by_cases hnull : (e.derivative token).value = .nullSet
    . rw [state, if_pos hnull]
      by_cases hignorable : token.isIgnorable
      . rw [next_of_ignorable hnull hignorable]
        simp [hignorable]
      . simp [hignorable, hnull]
    . rw [state, if_neg hnull]
      simp [hnull]
      rfl
  | endAttributes =>
    change (single e owner).endAttributes?.value = _
    rw [endAttributes?, Plan.value_bind, Operation.fits]
    by_cases hnull : (e.discharge .missing).value = .nullSet
    . rw [state, if_pos hnull]
      simp [hnull]
    . rw [state, if_neg hnull]
      simp [hnull]
      rfl
  | grantAttributes => rfl

def abreast (state : Form) (owners : Fin n → ExprId) (contents : Fin n → Form) : Matcher :=
  .several state (List.ofFn fun i => ⟨owners i, contents i⟩)

theorem operate?_abreast (hjoin : IsJoin state contents) (hstate : state.Proper p)
    (hcontents : ∀ i, (contents i).Proper p) : ((abreast state owners contents).operate? o).value =
      if o.fits state then some (abreast (o.next state) owners fun i => o.next (contents i))
      else none := by
  cases o with
  | read token =>
    change ((abreast state owners contents).read? token).value = _
    rw [read?, abreast, Plan.value_bind, Operation.fits]
    by_cases hnull : (state.derivative token).value = .nullSet
    . rw [Matcher.state, if_pos hnull]
      by_cases hignorable : token.isIgnorable
      -- the text is left out of the whole, and so it is out of every content
      . have hnulls : ∀ i, ((contents i).derivative token).value = .nullSet :=
          ((hjoin.map fun _ _ => mem_alternatives_derivative).eq_nullSet_iff
            (hstate.derivative token).value.reduced
            fun i => ((hcontents i).derivative token).value.reduced).1 hnull
        rw [next_of_ignorable hnull hignorable,
          funext fun i => next_of_ignorable (hnulls i) hignorable]
        simp [hignorable, abreast]
      . simp [hignorable, hnull]
    . rw [Matcher.state, if_neg hnull, Plan.value_bind, value_advance_several, List.map_ofFn]
      simp [hnull]
      rfl
  | endAttributes =>
    change (abreast state owners contents).endAttributes?.value = _
    rw [endAttributes?, abreast, Plan.value_bind, Operation.fits]
    by_cases hnull : (state.discharge .missing).value = .nullSet
    . rw [Matcher.state, if_pos hnull]
      simp [hnull]
    . rw [Matcher.state, if_neg hnull, Plan.value_bind, value_discharge_several, List.map_ofFn]
      simp [hnull]
      rfl
  | grantAttributes =>
    change some (abreast state owners contents).grantAttributes.value = _
    rw [grantAttributes, abreast, Plan.value_bind, Matcher.state, value_discharge_several,
      List.map_ofFn]
    rfl

noncomputable def fits (m : Matcher) (o : Operation) : Bool :=
  (m.operate? o).value.isSome

noncomputable def step (m : Matcher) (o : Operation) : Matcher :=
  (m.operate? o).value.getD m

noncomputable def tried (m : Matcher) : List Operation → List Bool
  | [] => []
  | o :: ops => m.fits o :: (m.step o).tried ops

noncomputable def rest (m : Matcher) (ops : List Operation) : Matcher :=
  ops.foldl step m

theorem length_tried (m : Matcher) (ops : List Operation) : (m.tried ops).length = ops.length := by
  induction ops generalizing m with
  | nil => rfl
  | cons o ops ih => rw [tried, List.length_cons, List.length_cons, ih]

theorem fits_single {owner : Option ExprId} : (single e owner).fits o = o.fits e := by
  rw [fits, operate?_single]
  split
  . next h => exact h.symm
  . next h => exact (Bool.eq_false_iff.2 h).symm

theorem step_single {owner : Option ExprId} : (single e owner).step o = .single (o.step e) owner := by
  rw [step, operate?_single, Operation.step]
  split
  . rfl
  . rfl

theorem keepsUp_zero {whole own : List Bool} : KeepsUp whole own 0 :=
  fun _ h => absurd h (Nat.not_lt_zero _)

theorem keepsUp_succ {whole own : Bool} {wholes owns : List Bool} {k : Nat} :
    KeepsUp (whole :: wholes) (own :: owns) (k + 1) ↔
      (whole = true → own = true) ∧ KeepsUp wholes owns k := by
  constructor
  . intro h
    refine ⟨fun hwhole => ?_, fun j hj => h (j + 1) (Nat.succ_lt_succ hj)⟩
    simpa using h 0 k.succ_pos (congrArg some hwhole)
  . rintro ⟨hfirst, hrest⟩ j hj hwhole
    cases j with
    | zero => exact congrArg some (hfirst (Option.some.inj hwhole))
    | succ j => exact hrest j (Nat.lt_of_succ_lt_succ hj) hwhole

theorem fits_abreast (h : InStep p alive state contents simple) :
    (abreast state owners contents).fits o = o.fits state := by
  rw [fits, operate?_abreast h.join h.proper h.proper_contents]
  split
  . next ho => exact ho.symm
  . next ho => exact (Bool.eq_false_iff.2 ho).symm

theorem step_abreast (owners : Fin n → ExprId) (h : InStep p alive state contents simple)
    (o : Operation) :
    ∃ state' contents', (abreast state owners contents).step o = abreast state' owners contents' ∧
      InStep p (fun i => alive i ∧ (o.fits state = true → o.fits (simple i) = true)) state' contents'
        fun i => o.step (simple i) := by
  rw [step, operate?_abreast h.join h.proper h.proper_contents]
  by_cases ho : o.fits state
  . rw [if_pos ho]
    exact ⟨_, _, rfl, by simpa [ho] using h.next ho⟩
  . rw [if_neg ho]
    exact ⟨_, _, rfl, by simpa [ho] using h.stay ho⟩

theorem rest_abreast (owners : Fin n → ExprId) (owner : Fin n → Option ExprId)
    (h : InStep p alive state contents simple) (ops : List Operation) :
    let whole := abreast state owners contents
    let own (i : Fin n) : Matcher := .single (simple i) (owner i)
    ∃ state' contents' simple', whole.rest ops = abreast state' owners contents' ∧
      (∀ i, (own i).rest ops = .single (simple' i) (owner i)) ∧
      InStep p (fun i => alive i ∧ KeepsUp (whole.tried ops) ((own i).tried ops) ops.length) state'
        contents' simple' := by
  induction ops generalizing alive state contents simple with
  | nil => exact ⟨state, contents, simple, rfl, fun _ => rfl, by simpa [keepsUp_zero] using h⟩
  | cons o ops ih =>
    -- those followed after the first operation are those that have kept up with the whole in it
    obtain ⟨state₁, contents₁, hstep, h₁⟩ := step_abreast owners h o
    obtain ⟨state', contents', simple', hwhole, hown, h'⟩ := ih h₁
    refine ⟨state', contents', simple', ?_, ?_, ?_⟩
    . rw [rest, List.foldl_cons, hstep]
      exact hwhole
    . intro i
      rw [rest, List.foldl_cons, step_single]
      exact hown i
    . simpa only [tried, List.length_cons, keepsUp_succ, fits_abreast h, fits_single, hstep,
        step_single, and_assoc] using h'

theorem tried_abreast_iff (owners : Fin n → ExprId) (owner : Fin n → Option ExprId)
    (h : InStep p alive state contents simple) {k : Nat} (hk : k < ops.length) :
    let whole := abreast state owners contents
    let own (i : Fin n) : Matcher := .single (simple i) (owner i)
    (whole.tried ops)[k]? = some true ↔ ∃ i, alive i ∧
      KeepsUp (whole.tried ops) ((own i).tried ops) k ∧ ((own i).tried ops)[k]? = some true := by
  induction ops generalizing alive state contents simple k with
  | nil => cases hk
  | cons o ops ih =>
    simp only [tried, fits_abreast h, fits_single, step_single]
    cases k with
    | zero => simpa [keepsUp_zero] using h.fits_iff
    | succ k =>
      obtain ⟨state₁, contents₁, hstep, h₁⟩ := step_abreast owners h o
      rw [hstep]
      simpa only [keepsUp_succ, List.getElem?_cons_succ, and_assoc] using
        ih h₁ (Nat.lt_of_succ_lt_succ hk)

theorem operate?_keeps {P : Form → Prop} (hP : Stable P) {m : Matcher} (hm : m.All P) :
    (m.operate? o).Keeps P fun m? => ∀ m ∈ m?, m.All P := by
  cases o with
  | read token => exact read?_keeps hP hm
  | endAttributes => exact endAttributes?_keeps hP hm
  | grantAttributes => exact .bind (grantAttributes_keeps hP hm) fun m hm => .pure (by simpa using hm)

theorem all_step {P : Form → Prop} (hP : Stable P) {m : Matcher} (hm : m.All P) (o : Operation) :
    (m.step o).All P := by
  have hkeeps := (operate?_keeps (o := o) hP hm).value
  unfold step
  cases h : (m.operate? o).value with
  | none => exact hm
  | some m' => exact hkeeps m' h

theorem inStep_of_isJoint (hjoint : (abreast state owners contents).IsJoint)
    (hall : (abreast state owners contents).All (Proper p)) :
    InStep p (fun _ => True) state contents contents where
  join x := by simpa [List.mem_ofFn] using hjoint.2 x
  proper := hall.1
  proper_simple i := hall.2 ⟨owners i, contents i⟩ (List.mem_ofFn.2 ⟨i, rfl⟩)
  followed _ _ := rfl
  dropped _ h := absurd trivial h
  exists_alive := by
    obtain ⟨_, hslot⟩ := List.exists_mem_of_ne_nil _ hjoint.1
    obtain ⟨i, -⟩ := List.mem_ofFn.1 hslot
    exact ⟨i, trivial⟩

def satisfiedOwners : Matcher → List ExprId
  | .single .. => []
  | .several _ slots => satisfied slots

theorem nullable_iff_satisfiedOwners (h : InStep p alive state contents simple) :
    state.nullable = true ↔ (abreast state owners contents).satisfiedOwners ≠ [] := by
  have hmem (owner : ExprId) : owner ∈ (abreast state owners contents).satisfiedOwners ↔
      ∃ i, (contents i).nullable = true ∧ owners i = owner := by
    simp [satisfiedOwners, abreast, satisfied, List.mem_ofFn]
  rw [nullable_iff_alternatives, ne_eq, List.eq_nil_iff_forall_not_mem, not_forall]
  simp only [not_not, hmem]
  constructor
  . rintro ⟨a, ha, hnullable⟩
    obtain ⟨i, ha⟩ := (h.join a).1 ha
    exact ⟨owners i, i, nullable_iff_alternatives.2 ⟨a, ha, hnullable⟩, rfl⟩
  . rintro ⟨_, i, hnullable, rfl⟩
    obtain ⟨a, ha, hnullable⟩ := nullable_iff_alternatives.1 hnullable
    exact ⟨a, (h.join a).2 ⟨i, ha⟩, hnullable⟩

theorem satisfiedOwners_abreast [DecidablePred alive] (h : InStep p alive state contents simple) :
    (abreast state owners contents).satisfiedOwners =
      ((List.finRange n).filter fun i => alive i ∧ (simple i).nullable = true).map owners := by
  have hcontents (i : Fin n) :
      (contents i).nullable = decide (alive i ∧ (simple i).nullable = true) := by
    by_cases hi : alive i
    . simp [h.followed i hi, hi]
    . simp [h.dropped i hi, hi, nullable]
  change satisfied (List.ofFn fun i => ⟨owners i, contents i⟩) = _
  rw [satisfied, List.ofFn_eq_map, List.filter_map, List.map_map]
  simp only [Function.comp_def, hcontents]

end Matcher

end Form

end TreeGrammar
