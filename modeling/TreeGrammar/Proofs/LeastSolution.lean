import Mathlib.Order.FixedPoints
import TreeGrammar.Proofs.Nullability
import TreeGrammar.Proofs.Pool
import TreeGrammar.Proofs.Steps

/-!
This module contains what the test whether an expression accepts no content computes: the least solution
of the equations that the nodes make up, however references lead back to each other. The answers that
are remembered on the way stay right whatever is done to the schema, and in whatever order.
-/

namespace TreeGrammar

open Relation

variable {α β : Type} {defs : Definitions} {id : ExprId}

def Node.Nullable (defs : Definitions) (accepts : ExprId → Prop) : Node → Prop
  | .epsilon | .anyString => True
  | .nullSet | .typedString _ | .attribute .. | .element .. => False
  | .choice a b => accepts a ∨ accepts b
  | .sequence a b | .interleave a b => accepts a ∧ accepts b
  | .oneOrMore a | .mixed a => accepts a
  | .reference r => ∃ target, defs.target? r = some target ∧ accepts target

theorem Node.Nullable.mono {n : Node} {accepts accepts' : ExprId → Prop}
    (hle : ∀ a, accepts a → accepts' a) (h : n.Nullable defs accepts) :
    n.Nullable defs accepts' := by
  cases n with
  | choice a b => exact Or.imp (hle a) (hle b) h
  | sequence a b | interleave a b => exact And.imp (hle a) (hle b) h
  | oneOrMore a | mixed a => exact hle a h
  | reference r => exact Exists.imp (fun target h => And.imp_right (hle target) h) h
  | _ => exact h

def Store.nullability (s : Store) (defs : Definitions) : (ExprId → Prop) →o (ExprId → Prop) where
  toFun accepts id := (s.node id).Nullable defs accepts
  monotone' _ _ hle _ h := h.mono hle

namespace Empties

variable {s : Store}

theorem of_nullable (h : (s.node id).Nullable defs (Empties s defs [])) : Empties s defs [] id := by
  generalize hn : s.node id = n at h
  cases n with
  | epsilon => exact .epsilon hn
  | anyString => exact .anyString hn
  | nullSet | typedString | «attribute» | element => exact False.elim h
  | choice a b => exact Or.elim h (.choiceLeft hn) (.choiceRight hn)
  | sequence a b => exact .sequence hn h.1 h.2
  | interleave a b => exact .interleave hn h.1 h.2
  | oneOrMore a => exact .oneOrMore hn h
  | mixed a => exact .mixed hn h
  | reference r =>
    obtain ⟨target, htarget, h⟩ := h
    exact .reference hn (by simp) htarget h

/--
What accepts no content is the least solution of the equations.
-/
theorem iff_lfp : Empties s defs [] id ↔ OrderHom.lfp (s.nullability defs) id := by
  constructor
  . intro h
    have solves {id : ExprId} {n : Node} (hn : s.node id = n)
        (h : n.Nullable defs (OrderHom.lfp (s.nullability defs))) :
        OrderHom.lfp (s.nullability defs) id := by
      subst hn
      rw [← OrderHom.map_lfp]
      exact h
    induction h with
    | epsilon hn => exact solves hn trivial
    | anyString hn => exact solves hn trivial
    | choiceLeft hn _ ih => exact solves hn (Or.inl ih)
    | choiceRight hn _ ih => exact solves hn (Or.inr ih)
    | sequence hn _ _ iha ihb => exact solves hn ⟨iha, ihb⟩
    | interleave hn _ _ iha ihb => exact solves hn ⟨iha, ihb⟩
    | oneOrMore hn _ ih => exact solves hn ih
    | mixed hn _ ih => exact solves hn ih
    | reference hn _ htarget _ ih => exact solves hn ⟨_, htarget, ih⟩
  . have hle : s.nullability defs (Empties s defs []) ≤ Empties s defs [] := fun _ => of_nullable
    exact OrderHom.lfp_le _ hle id

end Empties

theorem Store.Decided.iff_lfp {s t : Store} {defs' : Definitions} {b : Bool}
    (h : s.Decided defs id b) (hst : s ≤ t) (hdefs : defs ≤ defs') :
    b = true ↔ OrderHom.lfp (t.nullability defs') id := by
  rw [h t defs' hst hdefs, ← Empties.iff_nil_mem_language, Empties.iff_lfp]

namespace Graph

def Blind (work : GraphM α) : Prop :=
  ∀ g : Graph, work g.forgetful = (work g).map fun p => (p.1, p.2.forgetful)

namespace Blind

variable {work : GraphM α} {next : α → GraphM β} {g h : Graph} {a : α}

theorem pure (a : α) : Blind (Pure.pure a : GraphM α) := fun _ => rfl

theorem bind (hwork : Blind work) (hnext : ∀ a, Blind (next a)) : Blind (work >>= next) := by
  intro g
  have hrun (g : Graph) : (work >>= next) g = (work g).bind fun p => next p.1 p.2 := rfl
  rw [hrun, hrun, hwork]
  cases work g with
  | error f => rfl
  | ok p => exact hnext p.1 p.2

theorem intern (n : Node) : Blind (Graph.intern n) := by
  intro g
  rw [intern_apply, intern_apply, forgetful_store, forgetful_limit]
  cases g.store.intern g.settings.limit n <;> rfl

theorem follow (r : RefId) : Blind (liftM (defs.follow r) : GraphM _) := by
  cases hfollow : defs.follow r <;> exact fun _ => rfl

theorem settled {work : GraphM NullableAnswer} (hwork : Blind work) : Blind (settled id work) := by
  intro g
  rw [settled_apply, settled_apply, forgetful_nullable, hwork]
  cases g.nullable[id]? with
  | some value => rfl
  | none =>
    cases work g with
    | error f => rfl
    | ok p =>
      dsimp only [Except.map, Prod.map, id_eq]
      split <;> rfl

theorem ok_of_returns {E : Fault → Prop} {Q : α → Graph → Prop} (hblind : Blind work)
    (hwork : Returns defs g.forgetful work E Q) (hrun : work g = .ok (a, h)) :
    g ≤ h ∧ h.forgetful.Sound defs ∧ Q a h.forgetful := by
  refine hwork.ok a h.forgetful ?_
  rw [hblind, hrun]
  rfl

end Blind

theorem builds_blind : Builds Blind where
  pure := .pure
  bind := .bind
  read _ _ := rfl
  intern n _ := .intern n
  alternatives _ _ hnext g := hnext _ g

theorem examines_blind : Examines defs Blind where
  toComposes := builds_blind.toComposes
  follow := .follow
  settled _ := .settled

theorem remember_blind (id x rest : ExprId) : Blind (remember id x rest) := by
  intro g
  change Except.ok ((), g.forgetful) = Except.ok ((), Graph.forgetful (if _ then _ else _))
  split <;> rfl

theorem Sound.forgetful {g : Graph} (hg : g.Sound defs) : g.forgetful.Sound defs where
  within := hg.within
  normal := hg.normal
  room := hg.room
  nullable := hg.nullable
  derivatives := by
    intro id x rest h
    simp [Graph.forgetful] at h

end Graph

namespace Schema

variable {s t u : Schema} {E : Fault → Prop}

/--
One schema becomes the other by an operation on expressions that it has, or else by requests to the
session that it belongs to.
-/
inductive Grows : Schema → Schema → Prop where
  | binary {s t op a b r} : op ∈ [Graph.choice, Graph.sequence, Graph.interleave] →
    a ∈ s.graph.store → b ∈ s.graph.store → onGraph (fun _ => op a b) s = .ok (r, t) → Grows s t
  | unary {s t op a r} : op ∈ [Graph.oneOrMore, Graph.zeroOrMore, Graph.optional, Graph.mixed] →
    a ∈ s.graph.store → onGraph (fun _ => op a) s = .ok (r, t) → Grows s t
  | attribute {s t names content r} : content ∈ s.graph.store →
    onGraph (fun _ => Graph.attributeNamed names content) s = .ok (r, t) → Grows s t
  | element {s t names content r} : content ∈ s.graph.store →
    onGraph (fun _ => Graph.elementNamed names content) s = .ok (r, t) → Grows s t
  | typedString {s t number r} : onGraph (fun _ => Graph.typedString number) s = .ok (r, t) → Grows s t
  | reference {s t name r} : reference name s = .ok (r, t) → Grows s t
  | define {s t id target} : target ∈ s.graph.store → define id target s = .ok ((), t) → Grows s t
  | isNullable {s t id b} : id ∈ s.graph.store →
    onGraph (Graph.isNullable · id) s = .ok (b, t) → Grows s t
  | remember {s t id x rest} : onGraph (fun _ => Graph.remember id x rest) s = .ok ((), t) → Grows s t
  | session {v w : Session} : v.Arises → v.Develops w → Grows v.schema w.schema

/--
The schema has become of a new one.
-/
def Arises (s : Schema) : Prop :=
  ∃ types settings start, create types settings = .ok start ∧ Relation.ReflTransGen Grows start s

def Sound (s : Schema) : Prop :=
  s.graph.forgetful.Sound s.definitions

theorem onGraph_eq_ok {work : Definitions → GraphM α} {a : α} (hrun : onGraph work s = .ok (a, t)) :
    work s.definitions s.graph = .ok (a, t.graph) ∧ t.definitions = s.definitions := by
  rw [onGraph_apply] at hrun
  cases hw : work s.definitions s.graph with
  | error f =>
    rw [hw] at hrun
    cases hrun
  | ok p =>
    rw [hw] at hrun
    cases hrun
    exact ⟨rfl, rfl⟩

theorem onGraph_grows {work : Definitions → GraphM α} {Q : α → Graph → Prop} {a : α}
    (hblind : Graph.Blind (work s.definitions))
    (hwork : Graph.Returns s.definitions s.graph.forgetful (work s.definitions) E Q)
    (hrun : onGraph work s = .ok (a, t)) : s ≤ t ∧ t.Sound := by
  obtain ⟨hok, hdefs⟩ := onGraph_eq_ok hrun
  obtain ⟨hle, hsound, -⟩ := hblind.ok_of_returns hwork hok
  unfold Sound
  rw [hdefs]
  exact ⟨⟨hdefs ▸ le_rfl, hle⟩, hsound⟩

theorem leaf_grows {n : Node} {r : ExprId} (hs : s.Sound) (hn : ∀ c ∈ n.children, c ∈ s.graph.store)
    (hcompound : n.isCompound = false) (hrun : onGraph (fun _ => Graph.intern n) s = .ok (r, t)) :
    s ≤ t ∧ t.Sound :=
  onGraph_grows (.intern n) (Graph.intern_yields hs hn (by simp [hcompound])).returns hrun

theorem Grows.le_and_sound (h : Grows s t) (hs : s.Sound) : s ≤ t ∧ t.Sound := by
  cases h with
  | @binary _ _ op a b r hop ha hb hrun =>
    simp only [List.mem_cons, List.not_mem_nil, or_false] at hop
    rcases hop with rfl | rfl | rfl
    . exact onGraph_grows (Graph.builds_blind.choice a b) (Graph.choice_yields hs ha hb).returns hrun
    . exact onGraph_grows (Graph.builds_blind.sequence a b)
        (Graph.sequence_yields hs ha hb).returns hrun
    . exact onGraph_grows (Graph.builds_blind.interleave a b)
        (Graph.interleave_yields hs ha hb).returns hrun
  | @unary _ _ op a r hop ha hrun =>
    simp only [List.mem_cons, List.not_mem_nil, or_false] at hop
    rcases hop with rfl | rfl | rfl | rfl
    . exact onGraph_grows (Graph.builds_blind.oneOrMore a) (Graph.oneOrMore_yields hs ha).returns hrun
    . exact onGraph_grows (Graph.builds_blind.zeroOrMore a)
        (Graph.zeroOrMore_yields hs ha).returns hrun
    . exact onGraph_grows (Graph.builds_blind.choice a .epsilon)
        (Graph.optional_yields hs ha).returns hrun
    . exact onGraph_grows (Graph.builds_blind.mixed a) (Graph.mixed_yields hs ha).returns hrun
  | «attribute» hcontent hrun =>
    exact leaf_grows hs (by simpa [Node.children] using hcontent) rfl hrun
  | element hcontent hrun => exact leaf_grows hs (by simpa [Node.children] using hcontent) rfl hrun
  | typedString hrun => exact leaf_grows hs (by simp [Node.children]) rfl hrun
  | @reference _ _ name r hrun =>
    have hle : s.definitions ≤ (s.definitions.declare name).2 := Definitions.le_declare
    let declared : Schema := { s with definitions := (s.definitions.declare name).2 }
    have hdeclared : declared.Sound := Graph.Sound.of_le hs hle hs.within.declare
    have hle' : s ≤ declared := ⟨hle, le_rfl⟩
    have hrun : onGraph (fun _ => Graph.intern (.reference ⟨s.definitions.size⟩)) declared =
      .ok (r, t) := hrun
    obtain ⟨hdeclared', ht⟩ := leaf_grows hdeclared (by simp [Node.children]) rfl hrun
    exact ⟨le_trans hle' hdeclared', ht⟩
  | @define _ _ id target htarget hrun =>
    by_cases hn : ∃ r, s.graph.store.node id = .reference r
    . obtain ⟨r, hn⟩ := hn
      rw [define_of_reference hn] at hrun
      cases hdefine : s.definitions.define r target with
      | error f =>
        rw [hdefine] at hrun
        cases hrun
      | ok definitions =>
        rw [hdefine] at hrun
        cases hrun
        have hle := Definitions.le_define hdefine
        exact ⟨⟨hle, le_rfl⟩, Graph.Sound.of_le hs hle (hs.within.define htarget hdefine)⟩
    . rw [not_exists] at hn
      rw [define_of_ne_reference hn] at hrun
      cases hrun
  | @isNullable _ _ id b hid hrun =>
    exact onGraph_grows (Graph.examines_blind.isNullable id) (Graph.isNullable_yields hs hid).returns
      hrun
  | @remember _ _ id x rest hrun =>
    have hblind := Graph.remember_blind id x rest
    -- where no derivatives are remembered, nothing is done
    have hwork : Graph.Returns s.definitions s.graph.forgetful (Graph.remember id x rest)
        (fun _ => False) fun _ _ => True := by
      refine ⟨hblind s.graph.forgetful, by rintro f ⟨⟩, ?_⟩
      rintro _ _ ⟨⟩
      exact ⟨le_rfl, hs, trivial⟩
    exact onGraph_grows hblind hwork hrun
  | session hv hvw =>
    obtain ⟨hle, hw⟩ := hvw.le_and_sound hv.sound
    exact ⟨hle, hw.graph.forgetful⟩

theorem le_and_sound_of_grows (h : Relation.ReflTransGen Grows s t) (hs : s.Sound) :
    s ≤ t ∧ t.Sound := by
  induction h with
  | refl => exact ⟨le_rfl, hs⟩
  | tail _ hstep ih =>
    obtain ⟨hle, hsound⟩ := ih
    obtain ⟨hle', hsound'⟩ := hstep.le_and_sound hsound
    exact ⟨le_trans hle hle', hsound'⟩

theorem Arises.of_session {v : Session} (hv : v.Arises) : v.schema.Arises := by
  obtain ⟨types, settings, start, hcreate, hstart⟩ := hv
  refine ⟨types, settings, start.schema, ?_,
    .single (.session ⟨types, settings, start, hcreate, .refl⟩ hstart)⟩
  unfold Session.create at hcreate
  cases hschema : create types settings with
  | error f =>
    rw [hschema] at hcreate
    cases hcreate
  | ok schema =>
    rw [hschema] at hcreate
    cases hcreate
    rfl

theorem Arises.sound (hs : s.Arises) : s.Sound := by
  obtain ⟨types, settings, start, hcreate, hstart⟩ := hs
  have hsession : Session.create types settings = .ok { schema := start } := by
    unfold Session.create
    rw [hcreate]
    rfl
  exact (le_and_sound_of_grows hstart (Session.Sound.of_create hsession).graph.forgetful).2

/--
Whether the expression accepts no content can be found out in the schema, and the answer is what the
least solution of the equations says.
-/
structure Answers (s : Schema) (id : ExprId) (b : Bool) : Prop where
  run : ∃ t, onGraph (Graph.isNullable · id) s = .ok (b, t)
  iff_lfp : b = true ↔ OrderHom.lfp (s.graph.store.nullability s.definitions) id

theorem isNullable_settles {b : Bool} (hs : s.Sound) (hid : id ∈ s.graph.store)
    (hrun : onGraph (Graph.isNullable · id) s = .ok (b, t)) :
    s.graph.store.Decided s.definitions id b ∧
      ∀ u, t ≤ u → onGraph (Graph.isNullable · id) u = .ok (b, u) := by
  obtain ⟨hok, hdefs⟩ := onGraph_eq_ok hrun
  have hblind : Graph.Blind (Graph.isNullable s.definitions id) := Graph.examines_blind.isNullable id
  obtain ⟨-, -, hdecided, hagain⟩ := hblind.ok_of_returns (Graph.isNullable_yields hs hid) hok
  have hquiet : Graph.Quiet (Graph.isNullable s.definitions id) := Graph.isNullable_quiet id
  have hstore : t.graph.store = s.graph.store := (hquiet s.graph).2 b t.graph hok
  refine ⟨hstore ▸ hdecided, fun u htu => ?_⟩
  have hu : Graph.isNullable u.definitions id u.graph = .ok (b, u.graph) :=
    hagain u.definitions u.graph (hdefs ▸ htu.1) htu.2
  rw [onGraph_apply, hu]
  rfl

theorem exists_isNullable (hs : s.Sound) (hid : id ∈ s.graph.store)
    (hdefined : FullyDefined s.graph.store s.definitions id) :
    ∃ b t, onGraph (Graph.isNullable · id) s = .ok (b, t) := by
  have hblind : Graph.Blind (Graph.isNullable s.definitions id) := Graph.examines_blind.isNullable id
  have hquiet : Graph.Quiet (Graph.isNullable s.definitions id) := Graph.isNullable_quiet id
  cases hrun : Graph.isNullable s.definitions id s.graph with
  | ok p =>
    refine ⟨p.1, { s with graph := p.2 }, ?_⟩
    rw [onGraph_apply, hrun]
    rfl
  | error f =>
    have hf : Graph.isNullable s.definitions id s.graph.forgetful = .error f := by
      rw [hblind, hrun]
      rfl
    have hadmissible := (Graph.isNullable_yields_of_fullyDefined hs hid).returns.error f hf
    cases f with
    | limitExceeded limit => exact absurd hrun ((hquiet s.graph).1 limit)
    | undefinedReference => exact absurd hdefined hadmissible
    | unguardedReference => exact absurd hdefined hadmissible
    | _ => exact hadmissible.elim

/--
Whether an expression accepts no content is decided by the least solution of the equations, whatever
has been asked before. An answer, even if it has been found while other references were undefined,
is right then and later. If all references in the expression are defined, then there is an answer,
and it is the same in all that the schema may become.
-/
theorem isNullable_least (hs : s.Arises) (hid : id ∈ s.graph.store) :
    (∀ b t, onGraph (Graph.isNullable · id) s = .ok (b, t) → s.Answers id b ∧
      ∀ u, ReflTransGen Grows t u → u.Answers id b) ∧
    (FullyDefined s.graph.store s.definitions id → ∃ b, ∀ u, ReflTransGen Grows s u →
      u.Answers id b) := by
  have hs := hs.sound
  constructor
  . intro b t hrun
    obtain ⟨hdecided, hagain⟩ := isNullable_settles hs hid hrun
    have hst := Grows.le_and_sound (.isNullable hid hrun) hs
    refine ⟨⟨⟨t, hrun⟩, hdecided.iff_lfp le_rfl le_rfl⟩, fun u htu => ?_⟩
    have htu := (le_and_sound_of_grows htu hst.2).1
    have hsu := le_trans hst.1 htu
    exact ⟨⟨u, hagain u htu⟩, hdecided.iff_lfp (Graph.store_le hsu.2) hsu.1⟩
  . intro hdefined
    obtain ⟨b, t, hrun⟩ := exists_isNullable hs hid hdefined
    have hdecided := (isNullable_settles hs hid hrun).1
    refine ⟨b, fun u hsu => ?_⟩
    obtain ⟨hsu, hu⟩ := le_and_sound_of_grows hsu hs
    have hright := hdecided.iff_lfp (Graph.store_le hsu.2) hsu.1
    -- what is found out later can only be the same
    have hmem := Store.mem_of_le (Graph.store_le hsu.2) hid
    obtain ⟨c, v, hrun'⟩ := exists_isNullable hu hmem
      (hdefined.of_le (Graph.store_le hsu.2) hsu.1 hs.within hid)
    have hc := (isNullable_settles hu hmem hrun').1.iff_lfp le_rfl le_rfl
    rw [Bool.eq_iff_iff.2 (hc.trans hright.symm)] at hrun'
    exact ⟨⟨v, hrun'⟩, hright⟩

/--
Two references that lead back to each other, with no element in between: one stands for the other or
for no content, and the other, `q`, for the first twice. So `q` accepts no content, and it does in
all that the schema may become.
-/
theorem isNullable_least_mutual :
    ∃ (s : Schema) (q : ExprId), s.Arises ∧ q ∈ s.graph.store ∧
      FullyDefined s.graph.store s.definitions q ∧ TransGen (Part s.graph.store s.definitions) q q ∧
      ∀ u, ReflTransGen Grows s u → u.Answers q true := by
  obtain ⟨v, hv, hp⟩ := Session.Reachable.of_leadsTo (fun _ => .string)
    [.bind "r" (.reference "r"), .bind "q" (.reference "q"),
      .define (.variable "r") (.optional (.variable "q")),
      .define (.variable "q") (.sequence (.variable "r") (.variable "r"))]
    (fun v => v.schema.graph.store.nodes = #[.epsilon, .nullSet, .anyString, .reference ⟨0⟩,
      .reference ⟨1⟩, .choice ⟨4⟩ .epsilon, .sequence ⟨3⟩ ⟨3⟩] &&
      v.schema.definitions.target? ⟨0⟩ = some ⟨5⟩ && v.schema.definitions.target? ⟨1⟩ = some ⟨6⟩)
    (by simp [Command.isLawful]) (by decide +kernel)
  simp only [Bool.and_eq_true, decide_eq_true_eq] at hp
  obtain ⟨⟨hnodes, hr⟩, hq⟩ := hp
  have hs : v.schema.Arises := .of_session hv.arises
  generalize v.schema = s at hs hnodes hr hq
  have hnode (i : Nat) : s.graph.store.node ⟨i⟩ = ([.epsilon, .nullSet, .anyString, .reference ⟨0⟩,
      .reference ⟨1⟩, .choice ⟨4⟩ .epsilon, .sequence ⟨3⟩ ⟨3⟩] : List Node).getD i .nullSet := by
    simp [Store.node, hnodes]
  have hmem : (⟨4⟩ : ExprId) ∈ s.graph.store := Store.mem_of_node_ne (by simp [hnode])
  have hdefined : FullyDefined s.graph.store s.definitions ⟨4⟩ := by
    rintro ⟨i⟩ r _ hn
    have hreference : r = ⟨0⟩ ∨ r = ⟨1⟩ := by
      rw [hnode] at hn
      rcases i with _ | _ | _ | _ | _ | _ | _ | i <;> simp_all
    rcases hreference with rfl | rfl
    . simp [hr]
    . simp [hq]
  have hcycle : TransGen (Part s.graph.store s.definitions) ⟨4⟩ ⟨4⟩ := by
    have hfirst : Part s.graph.store s.definitions ⟨4⟩ ⟨5⟩ :=
      .operand (by simp [hnode]) (by simp [hnode, Node.children])
    have hsecond : Part s.graph.store s.definitions ⟨5⟩ ⟨3⟩ := .target (hnode 3) hr
    have hthird : Part s.graph.store s.definitions ⟨3⟩ ⟨6⟩ :=
      .operand (by simp [hnode]) (by simp [hnode, Node.children])
    have hfourth : Part s.graph.store s.definitions ⟨6⟩ ⟨4⟩ := .target (hnode 4) hq
    exact .tail (.tail (.tail (.single hfirst) hsecond) hthird) hfourth
  obtain ⟨b, hb⟩ := (isNullable_least hs hmem).2 hdefined
  have hempties : Empties s.graph.store s.definitions [] ⟨3⟩ :=
    .reference (hnode 3) (by simp) hr (.choiceRight (hnode 5) (.epsilon (Store.node_epsilon _)))
  have htrue := (hb s .refl).iff_lfp.2 (Empties.iff_lfp.1
    (.reference (hnode 4) (by simp) hq (.sequence (hnode 6) hempties hempties)))
  rw [htrue] at hb
  exact ⟨s, ⟨4⟩, hs, hmem, hdefined, hcycle, hb⟩

end Schema

end TreeGrammar
