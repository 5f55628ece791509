import Mathlib.Data.List.Basic
import TreeGrammar.Expr.Derivative
import TreeGrammar.Expr.Discharge
import TreeGrammar.Expr.Heads
import TreeGrammar.Expr.Required

/-!
This module contains forms: what expressions look like when they are written out, with all references
unfolded, up to the elements in them. The operations on expressions are given for forms once more,
without numbers and without anything that a graph remembers. They tell what comes out, and what is
put into the graph on the way.
-/

namespace TreeGrammar

noncomputable section

deriving instance DecidableEq for Head

instance : DecidableEq DeclaredType := Classical.decEq DeclaredType

/--
An expression written out up to the elements in it.
-/
inductive Form where
  | epsilon
  | nullSet
  | anyString
  | typedString (type : DeclaredType)
  | attribute (names : NameClass) (content : Form)
  | element (head : Head)
  | choice (a b : Form)
  | sequence (a b : Form)
  | interleave (a b : Form)
  | oneOrMore (a : Form)
  | mixed (a : Form)
  | reference (r : RefId) (target : Form)
deriving DecidableEq

/--
What work on forms comes to: its result, and the forms that it puts into the graph.
-/
structure Plan (α : Type) where
  value : α
  built : List Form := []

namespace Plan

variable {α β : Type}

instance : Monad Plan where
  pure a := { value := a }
  bind p next := { value := (next p.value).value, built := p.built ++ (next p.value).built }

@[simp]
theorem value_pure (a : α) : (pure a : Plan α).value = a := rfl

@[simp]
theorem built_pure (a : α) : (pure a : Plan α).built = [] := rfl

@[simp]
theorem value_bind (p : Plan α) (next : α → Plan β) :
    (p >>= next).value = (next p.value).value := rfl

@[simp]
theorem built_bind (p : Plan α) (next : α → Plan β) :
    (p >>= next).built = p.built ++ (next p.value).built := rfl

@[simp]
theorem value_map (f : α → β) (p : Plan α) : (f <$> p).value = f p.value := rfl

theorem ext {p q : Plan α} (hvalue : p.value = q.value) (hbuilt : p.built = q.built) : p = q := by
  cases p
  cases q
  cases hvalue
  cases hbuilt
  rfl

instance : LawfulMonad Plan :=
  .mk' Plan (fun _ => ext rfl (List.append_nil _)) (fun _ _ => ext rfl (List.nil_append _))
    fun _ _ _ => ext rfl (List.append_assoc ..)

@[simp]
theorem value_mapM (f : α → Plan β) (l : List α) : (l.mapM f).value = l.map fun a => (f a).value := by
  induction l with
  | nil => rfl
  | cons a l ih => rw [List.mapM_cons, value_bind, value_bind, ih, List.map_cons, value_pure]

theorem run_attempt (plan : OptionT Plan α) (next : α → OptionT Plan β) :
    (plan >>= next).run = plan.run >>= fun
      | some a => (next a).run
      | none => pure none := rfl

theorem value_attempt (plan : OptionT Plan α) (next : α → OptionT Plan β) :
    (plan >>= next).run.value = plan.run.value.bind fun a => (next a).run.value := by
  rw [run_attempt, value_bind]
  cases plan.run.value <;> rfl

theorem value_lift (plan : Plan α) : (liftM plan : OptionT Plan α).run.value = some plan.value := rfl

end Plan

namespace Form

def alternatives : Form → List Form
  | .choice a b => a.alternatives ++ b.alternatives
  | .nullSet => []
  | e => [e]

theorem alternatives_induction {motive : Form → Prop}
    (choice : ∀ a b, motive a → motive b → motive (.choice a b))
    (other : ∀ e, (∀ a b, e ≠ .choice a b) → motive e) (e : Form) : motive e := by
  induction e with
  | choice a b iha ihb => exact choice a b iha ihb
  | _ => exact other _ (by simp)

theorem alternatives_of_choice {a b : Form} :
    (choice a b).alternatives = a.alternatives ++ b.alternatives := rfl

@[simp] theorem alternatives_of_nullSet : nullSet.alternatives = [] := rfl

theorem alternatives_of_ne {e : Form} (hchoice : ∀ a b, e ≠ .choice a b) (hnull : e ≠ .nullSet) :
    e.alternatives = [e] := by
  cases e with
  | choice a b => exact absurd rfl (hchoice a b)
  | nullSet => exact absurd rfl hnull
  | _ => rfl

theorem iff_exists_alternative {P : Form → Prop} (hchoice : ∀ a b, P (.choice a b) ↔ P a ∨ P b)
    (hnull : ¬ P .nullSet) (e : Form) : P e ↔ ∃ a ∈ e.alternatives, P a := by
  induction e using alternatives_induction with
  | choice a b iha ihb =>
    rw [hchoice, iha, ihb, alternatives_of_choice]
    simp only [List.mem_append, or_and_right, exists_or]
  | other e hne =>
    by_cases h : e = .nullSet
    . subst h
      exact iff_of_false hnull (by simp)
    . simp [alternatives_of_ne hne h]

def nullable : Form → Bool
  | .epsilon | .anyString => true
  | .nullSet | .typedString _ | .attribute .. | .element _ => false
  | .choice a b => a.nullable || b.nullable
  | .sequence a b | .interleave a b => a.nullable && b.nullable
  | .oneOrMore a | .mixed a => a.nullable
  | .reference _ target => target.nullable

/--
The null set is an operand of no compound form.
-/
def IsReduced : Form → Prop
  | .choice a b | .sequence a b | .interleave a b =>
    (a ≠ .nullSet ∧ b ≠ .nullSet) ∧ a.IsReduced ∧ b.IsReduced
  | .oneOrMore a | .mixed a => a ≠ .nullSet ∧ a.IsReduced
  | .attribute _ a | .reference _ a => a.IsReduced
  | .epsilon | .nullSet | .anyString | .typedString _ | .element _ => True

end Form

namespace Plan

def intern (e : Form) : Plan Form := { value := e, built := [e] }

def rejoin (a b : Form) : Option Form → Option Form → Plan (Option Form)
  | none, none => return none
  | some kept, none | none, some kept => return some kept
  | some a', some b' => do
    if a' = a ∧ b' = b then return some (.choice a b)
    return some (← intern (.choice a' b'))

theorem rejoin_some (a b a' b' : Form) : rejoin a b (some a') (some b') =
    if a' = a ∧ b' = b then pure (some (.choice a b)) else
      intern (.choice a' b') >>= fun e => pure (some e) := rfl

theorem value_rejoin_some (a b a' b' : Form) :
    (rejoin a b (some a') (some b')).value = some (.choice a' b') := by
  rw [rejoin_some]
  split
  . next hsame =>
    rw [hsame.1, hsame.2]
    rfl
  . rfl

def without (seen : List Form) (e : Form) : Plan (Option Form) := do
  if e ∈ seen then return none
  match e with
  | .choice a b => rejoin a b (← without seen a) (← without seen b)
  | e => return some e

theorem without_choice (seen : List Form) (a b : Form) :
    without seen (.choice a b) = if .choice a b ∈ seen then pure none else
      without seen a >>= fun a? => without seen b >>= fun b? => rejoin a b a? b? := by
  rw [without]

theorem without_of_ne {seen : List Form} {e : Form} (h : ∀ a b, e ≠ .choice a b) :
    without seen e = pure (if e ∈ seen then none else some e) := by
  rw [without]
  . split <;> rfl
  . exact h

def choice (a b : Form) : Plan Form := do
  if a = .nullSet then return b
  if b = .nullSet then return a
  if a = b then return a
  match ← without a.alternatives b with
  | none => return a
  | some b => intern (.choice a b)

def sequence (a b : Form) : Plan Form := do
  if a = .nullSet ∨ b = .nullSet then return .nullSet
  if a = .epsilon then return b
  if b = .epsilon then return a
  intern (.sequence a b)

def interleave (a b : Form) : Plan Form := do
  if a = .nullSet ∨ b = .nullSet then return .nullSet
  if a = .epsilon then return b
  if b = .epsilon then return a
  intern (.interleave a b)

def joined (join : Form → Form → Form) (a b : Form) : Plan Form := do
  if a = .nullSet ∨ b = .nullSet then return .nullSet
  if a = .epsilon then return b
  if b = .epsilon then return a
  intern (join a b)

theorem joined_cases {motive : Plan Form → Prop} {join : Form → Form → Form} {a b : Form}
    (nullSet : a = .nullSet ∨ b = .nullSet → motive (pure .nullSet))
    (left : a = .epsilon → motive (pure b)) (right : b = .epsilon → motive (pure a))
    (both : a ≠ .nullSet → b ≠ .nullSet → motive (intern (join a b))) : motive (joined join a b) := by
  unfold joined
  split
  . next h => exact nullSet h
  . next h =>
    rw [not_or] at h
    split
    . next ha => exact left ha
    . split
      . next hb => exact right hb
      . exact both h.1 h.2

def oneOrMore (a : Form) : Plan Form := do
  if a = .nullSet ∨ a = .epsilon then return a
  match a with
  | .oneOrMore _ => return a
  | _ => intern (.oneOrMore a)

def zeroOrMore (a : Form) : Plan Form := do
  choice (← oneOrMore a) .epsilon

def mixed (a : Form) : Plan Form := do
  if a = .nullSet then return a
  if a = .epsilon then return .anyString
  match a with
  | .mixed _ => return a
  | _ => intern (.mixed a)

end Plan

namespace Form

def derive (token : Token) (fits : Form → Plan Bool) : Form → Plan Form
  | .epsilon | .nullSet => return .nullSet
  | .anyString => return if token.isText then .anyString else .nullSet
  | .typedString type =>
    match token with
    | .text literal scope =>
      return if type.datatype.accepts scope literal then .epsilon else .nullSet
    | _ => return .nullSet
  | .attribute names content =>
    match token with
    | .attribute name .. => do
      if names.contains name then
        if ← fits content then
          return .epsilon
      return .nullSet
    | _ => return .nullSet
  | .element head => return if token.satisfies head.id then .epsilon else .nullSet
  | .choice a b => do
    let da ← derive token fits a
    let db ← derive token fits b
    Plan.choice da db
  | .sequence a b => do
    let da ← derive token fits a
    let inFirst ← Plan.sequence da b
    if a.nullable then
      let db ← derive token fits b
      Plan.choice inFirst db
    else
      return inFirst
  | .interleave a b => do
    let da ← derive token fits a
    let inFirst ← Plan.interleave da b
    let db ← derive token fits b
    let inSecond ← Plan.interleave a db
    Plan.choice inFirst inSecond
  | .oneOrMore a => do
    let da ← derive token fits a
    let more ← Plan.zeroOrMore a
    Plan.sequence da more
  | .mixed a => do
    if token.isText then
      return .mixed a
    else
      let da ← derive token fits a
      Plan.mixed da
  | .reference _ target => derive token fits target

def acceptsValue (value : String) (scope : Scope) (content : Form) : Plan Bool := do
  if content = .anyString then return true
  if Text.isBlank value && content.nullable then return true
  let rest ← content.derive (.text value scope) fun _ => return false
  return rest.nullable

def acceptsToken : Token → Form → Plan Bool
  | .attribute _ value scope, content => acceptsValue value scope content
  | _, _ => return false

def derivative (token : Token) (e : Form) : Plan Form :=
  e.derive token (acceptsToken token)

end Form

def Pending.form : Pending → Form
  | .missing => .nullSet
  | .granted => .epsilon

namespace Form

def discharge (pending : Pending) : Form → Plan Form
  | .attribute .. => return pending.form
  | .choice a b => do
    let a' ← discharge pending a
    let b' ← discharge pending b
    if a' = a ∧ b' = b then return .choice a b else Plan.choice a' b'
  | .sequence a b => do
    let a' ← discharge pending a
    let b' ← discharge pending b
    if a' = a ∧ b' = b then return .sequence a b else Plan.sequence a' b'
  | .interleave a b => do
    let a' ← discharge pending a
    let b' ← discharge pending b
    if a' = a ∧ b' = b then return .interleave a b else Plan.interleave a' b'
  | .oneOrMore a => do
    let a' ← discharge pending a
    if a' = a then return .oneOrMore a else Plan.oneOrMore a'
  | .mixed a => do
    let a' ← discharge pending a
    if a' = a then return .mixed a else Plan.mixed a'
  | .reference r target => do
    let target' ← discharge pending target
    return if target' = target then .reference r target else target'
  | e => return e

def required : Form → OptionT Plan Form
  | .nullSet => failure
  | .epsilon | .anyString | .typedString _ | .element _ => return .epsilon
  | .attribute names content => return .attribute names content
  | .oneOrMore a | .mixed a => required a
  | .sequence a b | .interleave a b => do
    let p ← required a
    let q ← required b
    return if !p.nullable then p else if !q.nullable then q else .epsilon
  | .choice a b => do
    let p ← required a
    let q ← required b
    if p.nullable || q.nullable then return .epsilon else Plan.choice p q
  | .reference _ target => required target

def heads : Form → List Head
  | .element head => [head]
  | .choice a b | .interleave a b => a.heads ++ b.heads
  | .sequence a b => a.heads ++ if a.nullable then b.heads else []
  | .oneOrMore a | .mixed a => a.heads
  | .reference _ target => target.heads
  | .epsilon | .nullSet | .anyString | .typedString _ | .attribute .. => []

def describe (heads : List Head) : String :=
  let classes := (heads.map (·.names)).eraseDups
  if classes.isEmpty then ""
  else
    let shown := " ".intercalate ((classes.take Graph.describeHeads.most).map (·.describe))
    let others := classes.length - Graph.describeHeads.most
    "Element " ++ shown ++ if others = 0 then "" else " .. or one of " ++ toString others ++ " more"

def describeHeads (e : Form) : String :=
  describe e.heads.eraseDups

def describeAttributes (e : Form) : String :=
  e.alternatives.foldl (fun text a => join text a) ""
where
  join (text : String) : Form → String
    | .attribute names _ => (if text.isEmpty then text else text ++ " | ") ++ names.describe
    | _ => text

end Form

end

end TreeGrammar
