import TreeGrammar.Proofs.Derivation
import TreeGrammar.Proofs.Heads
import TreeGrammar.Proofs.Interning
import TreeGrammar.Proofs.Required

/-!
This module contains that the limit makes no difference to what the operations on expressions intern:
neither those that build expressions nor those that derive them or discharge their attributes.
-/

namespace TreeGrammar

open StoreState

namespace Graph

variable {α β : Type} {defs : Definitions} {id a b : ExprId} {n : Node}

theorem intern_uniform (hn : ∀ r, n ≠ .reference r) : IsUniform (intern n) := by
  intro g
  refine ⟨[n], _, .of_intern (t := g) ?_ le_rfl ?_⟩
  . intro limit
    rw [intern_apply]
    change Except.map _ (g.store.intern limit n) =
      (Except.map _ (g.store.intern limit n)).mapError _
    cases g.store.intern limit n <;> rfl
  . intro r
    simp [references, (hn r).symm]

theorem read_uniform (id : ExprId) : IsUniform (read id) :=
  .get (fun _ _ => rfl) fun _ => .pure _

theorem follow_uniform (r : RefId) : IsUniform (liftM (defs.follow r) : GraphM _) := by
  rcases Option.eq_none_or_eq_some (defs.target? r) with htarget | ⟨a, htarget⟩
  . rw [Definitions.follow_of_target?_eq_none htarget]
    exact .throw (by rintro _ ⟨⟩)
  . rw [Definitions.follow_of_target? htarget]
    exact .pure _

theorem settled_uniform {work : GraphM NullableAnswer} (hwork : IsUniform work) :
    IsUniform (settled id work) := by
  refine .get (fun _ _ => rfl) fun g => ?_
  cases g.nullable[id]? with
  | some => exact .pure _
  | none =>
    refine .bind hwork fun answer => ?_
    split
    . exact .bind (.modify (fun _ _ => rfl) fun _ => rfl) fun _ => .pure _
    . exact .pure _

theorem composes_uniform : Composes fun work => IsUniform work where
  pure := .pure
  bind := .bind
  read := read_uniform

theorem builds_uniform : Builds fun work => IsUniform work where
  toComposes := composes_uniform
  intern _ := intern_uniform
  alternatives _ _ hnext := .get (fun _ _ => rfl) fun _ => hnext _

theorem examines_uniform : Examines defs fun work => IsUniform work where
  toComposes := composes_uniform
  follow := follow_uniform
  settled _ := settled_uniform

theorem choice_uniform (a b : ExprId) : IsUniform (choice a b) := builds_uniform.choice a b

theorem sequence_uniform (a b : ExprId) : IsUniform (sequence a b) := builds_uniform.sequence a b

theorem interleave_uniform (a b : ExprId) : IsUniform (interleave a b) :=
  builds_uniform.interleave a b

theorem oneOrMore_uniform (a : ExprId) : IsUniform (oneOrMore a) := builds_uniform.oneOrMore a

theorem zeroOrMore_uniform (a : ExprId) : IsUniform (zeroOrMore a) := builds_uniform.zeroOrMore a

theorem mixed_uniform (a : ExprId) : IsUniform (mixed a) := builds_uniform.mixed a

theorem isNullable_uniform (id : ExprId) : IsUniform (isNullable defs id) :=
  examines_uniform.isNullable id

end Graph

def MemoM.IsUniform {α : Type} (work : MemoM α) : Prop :=
  ∀ results, TreeGrammar.IsUniform (work.run results)

def DerivationM.IsUniform {α : Type} (work : DerivationM α) : Prop :=
  ∀ matched, MemoM.IsUniform (work.run matched)

namespace MemoM.IsUniform

variable {α β : Type} {defs : Definitions} {id : ExprId}

theorem pure (a : α) : IsUniform (Pure.pure a : MemoM α) :=
  fun _ => .pure _

theorem throw {f : Fault} (hroom : ∀ limit, f ≠ .limitExceeded limit) :
    IsUniform (throw f : MemoM α) :=
  fun _ => .throw hroom

theorem bind {work : MemoM α} {next : α → MemoM β} (hwork : IsUniform work)
    (hnext : ∀ a, IsUniform (next a)) : IsUniform (work >>= next) :=
  fun results => .bind (hwork results) fun p => hnext p.1 p.2

theorem lift {work : GraphM α} (hwork : TreeGrammar.IsUniform work) :
    IsUniform (liftM work : MemoM α) := by
  intro results
  rw [Graph.run_lift_memo]
  exact .bind hwork fun _ => .pure _

theorem read {next : { n : Node // n.Below id } → MemoM β} (hnext : ∀ n, IsUniform (next n)) :
    IsUniform (liftM (Graph.read id) >>= next) :=
  .bind (.lift (Graph.read_uniform id)) hnext

theorem get {next : Graph → MemoM β} (hput : ∀ g limit, next (put g limit (store g)) = next g)
    (hnext : ∀ g, IsUniform (next g)) :
    IsUniform (liftM (MonadState.get : GraphM Graph) >>= next) := by
  intro results
  rw [StateT.run_bind, Graph.run_lift_memo, bind_assoc]
  simp only [pure_bind]
  refine .get (fun g limit => ?_) fun g => hnext g results
  rw [hput]

theorem follow (r : RefId) : IsUniform (liftM (defs.follow r) : MemoM _) := by
  intro results
  rw [Graph.run_lift_except_memo]
  exact .bind (Graph.follow_uniform r) fun _ => .pure _

theorem memoized {work : MemoM ExprId} (hwork : IsUniform work) :
    IsUniform (memoized id work) := by
  intro results
  rw [Graph.run_memoized]
  cases results[id]? with
  | some r => exact .pure _
  | none => exact .bind (hwork results) fun _ => .pure _

theorem ite {c : Prop} [Decidable c] {work other : MemoM α} (hwork : IsUniform work)
    (hother : IsUniform other) : IsUniform (if c then work else other) := by
  split
  . exact hwork
  . exact hother

theorem run' {work : MemoM α} (hwork : IsUniform work) (results : Results) :
    TreeGrammar.IsUniform (work.run' results) :=
  .map (hwork results)

end MemoM.IsUniform

namespace DerivationM.IsUniform

variable {α β : Type} {defs : Definitions} {id : ExprId}

theorem pure (a : α) : IsUniform (Pure.pure a : DerivationM α) :=
  fun _ => .pure _

theorem throw {f : Fault} (hroom : ∀ limit, f ≠ .limitExceeded limit) :
    IsUniform (throw f : DerivationM α) :=
  fun _ => .throw hroom

theorem bind {work : DerivationM α} {next : α → DerivationM β} (hwork : IsUniform work)
    (hnext : ∀ a, IsUniform (next a)) : IsUniform (work >>= next) :=
  fun matched => .bind (hwork matched) fun p => hnext p.1 p.2

theorem lift {work : GraphM α} (hwork : TreeGrammar.IsUniform work) :
    IsUniform (liftM work : DerivationM α) := by
  intro matched results
  rw [Graph.run_lift]
  exact .bind hwork fun _ => .pure _

theorem read {next : { n : Node // n.Below id } → DerivationM β} (hnext : ∀ n, IsUniform (next n)) :
    IsUniform (liftM (Graph.read id) >>= next) :=
  .bind (.lift (Graph.read_uniform id)) hnext

theorem follow (r : RefId) : IsUniform (liftM (defs.follow r) : DerivationM _) := by
  intro matched results
  rw [Graph.run_lift_except]
  exact .bind (Graph.follow_uniform r) fun _ => .pure _

theorem memoized {work : DerivationM ExprId} (hwork : IsUniform work) :
    IsUniform (memoized id work) := by
  intro matched results
  rw [Graph.run_memoized_derivation]
  cases results[id]? with
  | some r => exact .pure _
  | none => exact .bind (hwork matched results) fun _ => .pure _

theorem ite {c : Prop} [Decidable c] {work other : DerivationM α} (hwork : IsUniform work)
    (hother : IsUniform other) : IsUniform (if c then work else other) := by
  split
  . exact hwork
  . exact hother

end DerivationM.IsUniform

namespace Graph

variable {defs : Definitions} {token : Token} {pending : Pending} {fits : ExprId → GraphM Bool}

theorem dischargeFrom_uniform (visiting : List RefId) (id : ExprId) :
    (dischargeFrom defs pending visiting id).IsUniform := by
  refine Definitions.search_induction
    (motive := fun visiting id => (dischargeFrom defs pending visiting id).IsUniform) defs ?_
    visiting id
  intro visiting id ihChild ihTarget
  rw [dischargeFrom]
  refine .memoized (.read ?_)
  rintro ⟨n, below⟩
  have operand {a : ExprId} (ha : a ∈ n.children) :
      (dischargeFrom defs pending visiting a).IsUniform := ihChild a (below a ha)
  cases n with
  | «attribute» | element | epsilon | nullSet | anyString | typedString => exact .pure _
  | choice a b =>
    refine .bind (operand (by simp [Node.children])) fun a' => ?_
    refine .bind (operand (by simp [Node.children])) fun b' => ?_
    exact .ite (.pure _) (.lift (choice_uniform _ _))
  | sequence a b =>
    refine .bind (operand (by simp [Node.children])) fun a' => ?_
    refine .bind (operand (by simp [Node.children])) fun b' => ?_
    exact .ite (.pure _) (.lift (sequence_uniform _ _))
  | interleave a b =>
    refine .bind (operand (by simp [Node.children])) fun a' => ?_
    refine .bind (operand (by simp [Node.children])) fun b' => ?_
    exact .ite (.pure _) (.lift (interleave_uniform _ _))
  | oneOrMore a =>
    refine .bind (operand (by simp [Node.children])) fun a' => ?_
    exact .ite (.pure _) (.lift (oneOrMore_uniform _))
  | mixed a =>
    refine .bind (operand (by simp [Node.children])) fun a' => ?_
    exact .ite (.pure _) (.lift (mixed_uniform _))
  | reference r =>
    dsimp only
    split
    . exact .pure _
    . next new =>
      refine .bind (.follow r) fun ⟨target, htarget⟩ => ?_
      exact .bind (ihTarget r target htarget new) fun _ => .pure _

theorem conclude_uniform (j : Junction) (p q : ExprId) : IsUniform (j.conclude defs p q) := by
  cases j with
  | every =>
    refine .bind (isNullable_uniform p) fun _ => .ite (.pure _) ?_
    exact .bind (isNullable_uniform q) fun _ => .ite (.pure _) (.pure _)
  | either =>
    refine .bind (isNullable_uniform p) fun _ => .ite (.pure _) ?_
    exact .bind (isNullable_uniform q) fun _ => .ite (.pure _) (choice_uniform p q)

theorem requiredFrom_uniform (visiting : List RefId) (id : ExprId) :
    (requiredFrom defs visiting id).IsUniform := by
  refine Definitions.search_induction
    (motive := fun visiting id => (requiredFrom defs visiting id).IsUniform) defs ?_ visiting id
  intro visiting id ihChild ihTarget
  rw [requiredFrom_eq]
  refine .memoized (.read ?_)
  rintro ⟨n, below⟩
  have operand {a : ExprId} (ha : a ∈ n.children) : (requiredFrom defs visiting a).IsUniform :=
    ihChild a (below a ha)
  cases n with
  | nullSet => exact .throw (by rintro _ ⟨⟩)
  | epsilon | anyString | typedString | element | «attribute» => exact .pure _
  | oneOrMore a | mixed a => exact operand (by simp [Node.children])
  | sequence a b | interleave a b | choice a b =>
    refine .bind (operand (by simp [Node.children])) fun p => ?_
    exact .bind (operand (by simp [Node.children])) fun q => .lift (conclude_uniform _ p q)
  | reference r =>
    dsimp only [inquiry]
    split
    . exact .pure _
    . next new =>
      split
      . exact .throw (by rintro _ ⟨⟩)
      . next target htarget => exact ihTarget r target htarget new

theorem deriveLeaf_uniform (hfits : ∀ content, IsUniform (fits content)) (id : ExprId) (n : Node) :
    (deriveLeaf defs token fits id n).IsUniform := by
  cases n with
  | typedString type =>
    cases token with
    | text literal scope =>
      refine .ite (.bind ?_ fun _ => .pure _) (.pure _)
      exact fun _ _ => .pure _
    | _ => exact .pure _
  | «attribute» names content =>
    cases token with
    | «attribute» name value scope =>
      refine .ite ?_ (.pure _)
      exact .bind (.lift (hfits content)) fun _ => .ite (.pure _) (.pure _)
    | _ => exact .pure _
  | _ => exact .pure _

theorem deriveFrom_uniform (hfits : ∀ content, IsUniform (fits content)) (visiting : List RefId)
    (id : ExprId) : (deriveFrom defs token fits visiting id).IsUniform := by
  refine Definitions.search_induction
    (motive := fun visiting id => (deriveFrom defs token fits visiting id).IsUniform) defs ?_
    visiting id
  intro visiting id ihChild ihTarget
  rw [deriveFrom]
  refine .memoized (.read ?_)
  rintro ⟨n, below⟩
  have operand {a : ExprId} (ha : a ∈ n.children) :
      (deriveFrom defs token fits visiting a).IsUniform := ihChild a (below a ha)
  cases n with
  | epsilon | nullSet | anyString | typedString | «attribute» | element =>
    exact deriveLeaf_uniform hfits id _
  | choice a b =>
    refine .bind (operand (by simp [Node.children])) fun da => ?_
    refine .bind (operand (by simp [Node.children])) fun db => ?_
    exact .lift (choice_uniform da db)
  | sequence a b =>
    refine .bind (operand (by simp [Node.children])) fun da => ?_
    refine .bind (.lift (sequence_uniform da b)) fun inFirst => ?_
    refine .bind (.lift (isNullable_uniform a)) fun _ => .ite ?_ (.pure _)
    refine .bind (operand (by simp [Node.children])) fun db => ?_
    exact .lift (choice_uniform inFirst db)
  | interleave a b =>
    refine .bind (operand (by simp [Node.children])) fun da => ?_
    refine .bind (.lift (interleave_uniform da b)) fun inFirst => ?_
    refine .bind (operand (by simp [Node.children])) fun db => ?_
    refine .bind (.lift (interleave_uniform a db)) fun inSecond => ?_
    exact .lift (choice_uniform inFirst inSecond)
  | oneOrMore a =>
    refine .bind (operand (by simp [Node.children])) fun da => ?_
    refine .bind (.lift (zeroOrMore_uniform a)) fun more => ?_
    exact .lift (sequence_uniform da more)
  | mixed a =>
    refine .ite (.pure _) (.bind (operand (by simp [Node.children])) fun da => ?_)
    exact .lift (mixed_uniform da)
  | reference r =>
    dsimp only
    split
    . exact .throw (by rintro _ ⟨⟩)
    . next new =>
      exact .bind (.follow r) fun ⟨target, htarget⟩ => ihTarget r target htarget new

theorem derive_uniform (hfits : ∀ content, IsUniform (fits content)) (id : ExprId) :
    IsUniform (derive defs token fits id) :=
  .bind ((deriveFrom_uniform hfits [] id none).run' ∅) fun _ => .pure _

theorem acceptsToken_uniform (token : Token) (content : ExprId) :
    IsUniform (acceptsToken defs token content) := by
  cases token with
  | «attribute» name value scope =>
    have derived : IsUniform (derive defs (.text value scope) (fun _ => return false) content >>=
        fun d => isNullable defs d.rest) :=
      .bind (derive_uniform (fun _ => .pure _) content) fun d => isNullable_uniform d.rest
    refine .ite (.pure _) (.ite (.bind (isNullable_uniform content) fun _ => ?_) derived)
    exact .ite (.pure _) derived
  | _ => exact .pure _

theorem remember_uniform {id element rest : ExprId} : IsUniform (remember id element rest) := by
  refine .modify (fun g limit => ?_) fun _ => rfl
  dsimp only [put]
  split <;> rfl

theorem derivative_uniform (token : Token) (id : ExprId) :
    IsUniform (derivative defs token id) := by
  have derived (token : Token) : IsUniform (derive defs token (acceptsToken defs token) id) :=
    derive_uniform (acceptsToken_uniform token) id
  unfold derivative
  dsimp only
  split
  . refine .bind (.get (fun _ _ => rfl) fun _ => .pure _) fun rest? => ?_
    cases rest? with
    | some rest => exact .pure _
    | none =>
      exact .bind (derived _) fun d => .bind remember_uniform fun _ => .pure _
  . exact derived token

theorem opening_uniform (id : ExprId) : IsUniform (opening defs id) := by
  refine .bind (read_uniform id) ?_
  rintro ⟨n, below⟩
  cases n with
  | reference r => exact .bind (follow_uniform r) fun _ => .pure _
  | _ => exact .pure _

theorem headsFrom_uniform (v : Visited) (tasks : List HeadTask) :
    IsUniform (headsFrom defs v tasks) := by
  match tasks with
  | [] =>
    unfold headsFrom
    exact .pure _
  | .after first second :: tasks =>
    rw [headsFrom]
    refine .bind (isNullable_uniform first) fun _ => .ite ?_ ?_
    . exact headsFrom_uniform v (.visit second :: tasks)
    . exact headsFrom_uniform v tasks
  | .visit id :: tasks =>
    cases hvisit : v.visit? id with
    | none =>
      rw [headsFrom_visited hvisit]
      exact headsFrom_uniform v tasks
    | some w =>
      rw [headsFrom_visit hvisit]
      have hlt := Visited.remaining_lt_of_visit? hvisit
      refine .bind (opening_uniform id) fun o => ?_
      have hweight := o.weight_le
      exact .bind (headsFrom_uniform w (o.tasks ++ tasks)) fun _ => .pure _
termination_by 3 * v.remaining + (tasks.map HeadTask.weight).sum
decreasing_by
  all_goals
    simp only [List.map_cons, List.map_append, List.sum_append, List.sum_cons, HeadTask.weight]
    omega

theorem heads_uniform (id : ExprId) : IsUniform (heads defs id) :=
  .get (fun _ _ => rfl) fun _ => headsFrom_uniform _ _

theorem candidates_uniform (id : ExprId) (name : Name) : IsUniform (candidates defs id name) :=
  .bind (heads_uniform id) fun _ => .pure _

theorem describeHeads_uniform (id : ExprId) : IsUniform (describeHeads defs id) :=
  .bind (heads_uniform id) fun _ => .ite (.pure _) (.pure _)

end Graph

namespace Matcher

variable {defs : Definitions} {pending : Pending}

theorem satisfied_uniform (slots : List Slot) : IsUniform (satisfied defs slots) := by
  induction slots with
  | nil => exact .pure _
  | cons slot slots ih =>
    exact .bind (Graph.isNullable_uniform _) fun _ => .ite (.bind ih fun _ => .pure _) ih

theorem after_uniform (token : Token) (before rest : ExprId) :
    IsUniform (after token before rest) :=
  .ite (Graph.choice_uniform _ _) (.pure _)

theorem advanceSlots_uniform (token : Token) (slots : List Slot) :
    IsUniform (advanceSlots defs token slots) := by
  induction slots with
  | nil => exact .pure _
  | cons slot slots ih =>
    refine .bind (Graph.derivative_uniform token slot.content) fun d => ?_
    exact .bind (after_uniform token slot.content d.rest) fun _ => .bind ih fun _ => .pure _

theorem advance_uniform (token : Token) (rest : ExprId) (m : Matcher) :
    IsUniform (m.advance defs token rest) := by
  cases m with
  | single state owner => exact .bind (after_uniform token state rest) fun _ => .pure _
  | several state slots =>
    refine .bind (after_uniform token state rest) fun _ => ?_
    exact .bind (advanceSlots_uniform token slots) fun _ => .pure _

theorem read?_uniform (m : Matcher) (token : Token) : IsUniform (m.read? defs token) := by
  refine .bind (Graph.derivative_uniform token m.state) fun d => .ite (.pure _) ?_
  exact .bind (advance_uniform token d.rest m) fun _ => .pure _

theorem readChild?_uniform (m child : Matcher) (recovering : Bool) :
    IsUniform (m.readChild? defs child recovering) := by
  have token : IsUniform (child.token defs recovering) := by
    rcases child with ⟨state, owner | owner⟩ | ⟨state, slots⟩
    . exact .pure _
    . exact .pure _
    . exact .ite (.pure _) (.bind (satisfied_uniform slots) fun _ => .pure _)
  exact .bind token fun token => .bind (read?_uniform m token) fun _ => .pure _

theorem discharge_uniform (state : ExprId) (m : Matcher) :
    (m.discharge defs pending state).IsUniform := by
  have slots (slots : List Slot) : (dischargeSlots defs pending slots).IsUniform := by
    induction slots with
    | nil => exact .pure _
    | cons slot slots ih =>
      exact .bind (Graph.dischargeFrom_uniform [] slot.content) fun _ => .bind ih fun _ => .pure _
  cases m with
  | single state owner => exact .pure _
  | several state slots' => exact .bind (slots slots') fun _ => .pure _

theorem endAttributes?_uniform (m : Matcher) : IsUniform (m.endAttributes? defs) := by
  have go : (endAttributes?.go defs m).IsUniform := by
    refine .bind (Graph.dischargeFrom_uniform [] m.state) fun state => .ite (.pure _) ?_
    exact .bind (discharge_uniform state m) fun _ => .pure _
  exact go.run' ∅

theorem grantAttributes_uniform (m : Matcher) : IsUniform (m.grantAttributes defs) := by
  have go : (grantAttributes.go defs m).IsUniform :=
    .bind (Graph.dischargeFrom_uniform [] m.state) fun state => discharge_uniform state m
  exact go.run' ∅

theorem ofHeads?_uniform (heads : List Head) : IsUniform (ofHeads? heads) := by
  have choices (heads : List Head) (state : ExprId) :
      IsUniform (heads.foldlM (fun state head => Graph.choice state head.content) state) := by
    induction heads generalizing state with
    | nil => exact .pure _
    | cons head heads ih => exact .bind (Graph.choice_uniform _ _) fun _ => ih _
  match heads with
  | [] | [_] => exact .pure _
  | first :: second :: heads => exact .bind (choices _ _) fun _ => .pure _

theorem child?_uniform (m : Matcher) (name : Name) : IsUniform (m.child? defs name) :=
  .bind (Graph.candidates_uniform m.state name) fun heads => ofHeads?_uniform heads

end Matcher

namespace Validation

variable {defs : Definitions} {gr : Grammar}

theorem flush_uniform (closing : Bool) (v : Validation) : IsUniform (v.flush defs closing) := by
  refine .ite (.pure _) (.bind (Matcher.read?_uniform _ _) fun result => ?_)
  cases result with
  | some => exact .pure _
  | none => exact .bind (Graph.describeHeads_uniform _) fun _ => .pure _

theorem enter_uniform (tag : StartTag) (v : Validation) : IsUniform (v.enter gr defs tag) := by
  refine .bind (Matcher.child?_uniform _ _) fun m? => ?_
  cases m? with
  | some => exact .pure _
  | none => exact .bind (Graph.describeHeads_uniform _) fun _ => .pure _

theorem readAttributes_uniform (attributes : List Attribute) (p : OpenElement × Validation) :
    IsUniform (readAttributes defs attributes p) := by
  induction attributes generalizing p with
  | nil => exact .pure _
  | cons a attributes ih =>
    have read (m : Matcher) : IsUniform (m.readAttribute? defs a.name a.value p.2.scope) :=
      .bind (Matcher.read?_uniform _ _) fun _ => .pure _
    refine .bind (read _) fun m? => ?_
    cases m? with
    | some => exact ih _
    | none => exact ih _

theorem endAttributes_uniform (p : OpenElement × Validation) :
    IsUniform (endAttributes defs p) := by
  obtain ⟨e, v⟩ := p
  refine .bind (Matcher.endAttributes?_uniform _) fun m? => ?_
  cases m? with
  | some => exact .pure _
  | none =>
    have granted (v : Validation) : IsUniform (e.matcher.grantAttributes defs >>= fun matcher =>
        pure ({ e with matcher, faulty := true }, v)) :=
      .bind (Matcher.grantAttributes_uniform _) fun _ => .pure _
    refine .ite (.bind (.pure v) granted) ?_
    refine .bind ((Graph.requiredFrom_uniform [] _).run' ∅) fun missing => ?_
    exact .get (fun _ _ => rfl) fun _ => .bind (.pure _) granted

theorem startElement_uniform (tag : StartTag) (v : Validation) :
    IsUniform (v.startElement gr defs tag) := by
  refine .bind (flush_uniform false v) fun v => .bind (enter_uniform tag _) fun p => ?_
  refine .bind (readAttributes_uniform _ p) fun p => .bind (endAttributes_uniform p) fun _ => ?_
  exact .pure _

theorem checkComplete_uniform (v : Validation) (e : OpenElement) :
    IsUniform (v.checkComplete defs e) := by
  refine .bind (Graph.isNullable_uniform _) fun _ => .ite (.pure _) ?_
  exact .bind (Graph.describeHeads_uniform _) fun _ => .pure _

theorem leave_uniform (v : Validation) (e : OpenElement) : IsUniform (v.leave gr defs e) := by
  refine .bind (Matcher.readChild?_uniform _ _ _) fun m? => ?_
  cases m? with
  | some => exact .pure _
  | none =>
    refine .bind (Matcher.readChild?_uniform _ _ _) fun m? => ?_
    cases m? with
    | some => exact .pure _
    | none => exact .bind (Matcher.readChild?_uniform _ _ _) fun _ => .pure _

theorem endElement_uniform (v : Validation) : IsUniform (v.endElement gr defs) := by
  refine .ite (.pure _) (.bind (flush_uniform true v) fun v => ?_)
  dsimp only
  split
  . exact .pure _
  . exact .bind (checkComplete_uniform _ _) fun p => leave_uniform p.2 p.1

theorem endDocument_uniform (v : Validation) : IsUniform (v.endDocument defs) := by
  refine .ite (.pure _) (.bind (flush_uniform false v) fun v => ?_)
  refine .bind (Graph.isNullable_uniform _) fun _ => .ite (.pure _) ?_
  exact .bind (Graph.describeHeads_uniform _) fun _ => .pure _

theorem take_uniform (event : Event) (v : Validation) : IsUniform (v.take gr defs event) := by
  cases event with
  | startElement tag => exact startElement_uniform tag v
  | characters text => exact .pure _
  | endElement => exact endElement_uniform v
  | endDocument => exact endDocument_uniform v

end Validation

end TreeGrammar
