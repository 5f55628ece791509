import Mathlib.Data.Finset.Card
import TreeGrammar.Proofs.Limits
import TreeGrammar.Proofs.Rebuilding
import TreeGrammar.Proofs.Runs

/-!
This module contains what can be relied on in the store of a session: that expressions and their
numbers stand for each other for good, and when there is no room for another expression.
-/

namespace TreeGrammar

open Relation StoreState

/--
The numbers stand for the nodes.
-/
structure Store.IsPool (s : Store) (limit : Nat) : Prop where
  find?_iff : ∀ n id, s.find? n = some id ↔ id ∈ s ∧ s.node id = n
  eq_iff : ∀ a ∈ s, ∀ b ∈ s, a = b ↔ s.node a = s.node b
  dense : ∀ i, i < s.size ↔ ∃ n, s.find? n = some ⟨i⟩
  width : ∀ id ∈ s, (UInt32.ofNat id.index).toNat = id.index
  reference_width : ∀ id r, s.node id = .reference r → (UInt32.ofNat r.index).toNat = r.index
  below : ∀ id, ∀ a ∈ (s.node id).children, a ∈ s ∧ a.index < id.index
  acyclic : ∀ id, ¬ TransGen (fun a b => a ∈ (s.node b).children) id id
  room : s.size ≤ limit + 1

namespace Session

def withLimit (s : Session) (limit : Nat) : Session :=
  let settings := { s.schema.graph.settings with limit }
  { s with schema := { s.schema with graph := { s.schema.graph with settings } } }

/--
The request has to intern the nodes, whatever the limit: it runs into the limit exactly if one of
them is new when the store is full, and if it is carried out, they are what it has added.
-/
structure AsksFor (s : Session) (c : Command) (nodes : List Node) : Prop where
  limitExceeded_iff : ∀ limit l, s.schema.graph.store.size ≤ limit + 1 →
    (perform c (s.withLimit limit) = .error (.fault (.limitExceeded l)) ↔
      l = limit ∧ s.schema.graph.store.Overruns limit nodes)
  store_eq : ∀ limit answer t, perform c (s.withLimit limit) = .ok (answer, t) →
    s.schema.graph.store.internAll limit nodes = .ok t.schema.graph.store

/--
One session becomes the other by requests, and by giving names to expressions that there are.
-/
def Develops : Session → Session → Prop :=
  ReflTransGen fun s t => (∃ c answer, c.isLawful ∧ perform c s = .ok (answer, t)) ∨
    ∃ name id, s.Has id ∧ t = { s with bindings := s.bindings.insert name id }

/--
The session has become of a new one.
-/
def Arises (s : Session) : Prop :=
  ∃ types settings start, create types settings = .ok start ∧ start.Develops s

/--
The number of the expression is known from the session, or from an answer on the way to it.
-/
inductive Issued : Session → ExprId → Prop where
  | bound {s : Session} {name : String} {id : ExprId} : s.bindings[name]? = some id → Issued s id
  | state {s : Session} {name : String} {m : Matcher} : s.matchers[name]? = some m → Issued s m.state
  | slot {s : Session} {name : String} {m : Matcher} {slot : Slot} {id : ExprId} :
    s.matchers[name]? = some m → slot ∈ m.slots → id = slot.owner ∨ id = slot.content → Issued s id
  | target {s : Session} {r : RefId} {id : ExprId} :
    s.schema.definitions.target? r = some id → Issued s id
  | child {s : Session} {id a : ExprId} : Issued s id →
    a ∈ (s.schema.graph.store.node id).children → Issued s a
  | derived {s t e token name id size type} : s.Arises →
    perform (.derive e token name) s = .ok (.derived id size type, t) → Issued t id
  | picked {s t picker e name id size} : s.Arises →
    perform (.pick picker e name) s = .ok (.picked id size, t) → Issued t id
  | before {s t id} : s.Arises → s.Develops t → Issued s id → Issued t id

/--
The references are numbered in the order in which they have been made, each by an expression.
-/
def Numbers (s : Session) : Prop :=
  ∀ r : RefId, (s.schema.graph.store.find? (.reference r)).isSome ↔
    r.index < s.schema.definitions.size

variable {α : Type} {s t u : Session} {c : Command} {answer : Answer} {work : SessionM α} {a : α}
variable {id : ExprId} {nodes : List Node}

theorem internAll_of_ok {result : Except Halt (α × Session)} (limit : Nat)
    (h : Interns s work nodes result) (hwork : work (s.withLimit limit) = .ok (a, t)) :
    s.schema.graph.store.internAll limit nodes = .ok t.schema.graph.store ∧
      ∃ u, result = .ok (a, u) ∧ t = put u limit t.schema.graph.store := by
  have hrun := h.run limit
  change work (s.withLimit limit) = _ at hrun
  rw [hwork] at hrun
  split at hrun
  . next store hstore =>
    cases result with
    | error => cases hrun
    | ok p =>
      cases hrun
      exact ⟨hstore, p.2, rfl, rfl⟩
  . cases hrun

structure Keeps (s t : Session) : Prop where
  limit : t.schema.graph.settings.limit = s.schema.graph.settings.limit
  numbers : s.Numbers → t.Numbers

theorem Keeps.of_uniform (hwork : IsUniform work) (h : work s = .ok (a, t)) : s.Keeps t := by
  obtain ⟨nodes, result, hinterns⟩ := hwork s
  obtain ⟨hstore, u, hresult, ht⟩ := internAll_of_ok s.schema.graph.settings.limit hinterns h
  have hle : s.schema.definitions.size ≤ u.schema.definitions.size :=
    hinterns.references_le a u hresult
  have hdefs : t.schema.definitions.size = u.schema.definitions.size := by
    rw [ht]
    rfl
  refine ⟨?_, ?_⟩
  . rw [ht]
    rfl
  . intro hs r
    have hmem : .reference r ∈ nodes ↔
        s.schema.definitions.size ≤ r.index ∧ r.index < u.schema.definitions.size :=
      hinterns.reference_mem a u hresult r
    rw [Store.find?_internAll hstore, hs r, hmem, hdefs]
    omega

theorem Keeps.of_perform (h : perform c s = .ok (answer, t)) : s.Keeps t := by
  by_cases hc : c = .settings
  . subst hc
    cases h
    exact ⟨rfl, fun hs => hs⟩
  . exact .of_uniform (perform_uniform c hc) h

theorem Keeps.of_step (h : (∃ c answer, c.isLawful ∧ perform c s = .ok (answer, t)) ∨
    ∃ name id, s.Has id ∧ t = { s with bindings := s.bindings.insert name id }) : s.Keeps t := by
  rcases h with ⟨c, answer, _, hperform⟩ | ⟨name, id, _, rfl⟩
  . exact .of_perform hperform
  . exact ⟨rfl, fun hs => hs⟩

theorem numbers_of_create {types : Nat → Datatype} {settings : Settings}
    (h : create types settings = .ok s) : s.Numbers := by
  rw [create_eq] at h
  split at h
  . cases h
  . cases h
    intro r
    have hsize : ({ types } : Definitions).size = 0 := rfl
    dsimp only
    rw [hsize, Option.isSome_iff_exists]
    constructor
    . rintro ⟨⟨i⟩, hi⟩
      rw [Store.find?_eq_some_iff] at hi
      match i with
      | 0 | 1 | 2 => simp [Store.initial] at hi
      | i + 3 => simp [Store.initial] at hi
    . exact fun hr => absurd hr (Nat.not_lt_zero _)

namespace Develops

theorem keeps (hst : s.Develops t) : s.Keeps t := by
  induction hst with
  | refl => exact ⟨rfl, fun hs => hs⟩
  | tail _ hstep ih =>
    have hkeeps := Keeps.of_step hstep
    exact ⟨hkeeps.limit.trans ih.limit, fun hs => hkeeps.numbers (ih.numbers hs)⟩

theorem le_and_sound (hst : s.Develops t) (hs : s.Sound) : s.schema ≤ t.schema ∧ t.Sound := by
  induction hst with
  | refl => exact ⟨le_rfl, hs⟩
  | tail _ hstep ih =>
    obtain ⟨hle, hsound⟩ := ih
    rcases hstep with ⟨c, answer, hc, hperform⟩ | ⟨name, id, hid, rfl⟩
    . obtain ⟨hle', hsound', _⟩ := (perform_returns c hc hsound).ok _ _ hperform
      exact ⟨le_trans hle hle', hsound'⟩
    . exact ⟨hle, hsound.bind hid⟩

theorem perform (hst : s.Develops t) (hc : c.isLawful) (h : perform c t = .ok (answer, u)) :
    s.Develops u :=
  .tail hst (Or.inl ⟨c, answer, hc, h⟩)

end Develops

namespace Arises

theorem develops (hs : s.Arises) (hst : s.Develops t) : t.Arises := by
  obtain ⟨types, settings, start, hcreate, hstart⟩ := hs
  exact ⟨types, settings, start, hcreate, hstart.trans hst⟩

theorem sound (hs : s.Arises) : s.Sound := by
  obtain ⟨_, _, _, hcreate, hstart⟩ := hs
  exact (hstart.le_and_sound (.of_create hcreate)).2

theorem numbers (hs : s.Arises) : s.Numbers := by
  obtain ⟨_, _, _, hcreate, hstart⟩ := hs
  exact hstart.keeps.numbers (numbers_of_create hcreate)

end Arises

theorem Reachable.arises (h : s.Reachable) : s.Arises := by
  induction h with
  | create h => exact ⟨_, _, _, h, .refl⟩
  | perform _ hc hperform ih => exact ih.develops (Develops.perform .refl hc hperform)

theorem Numbers.size_le (hs : s.Numbers) : s.schema.definitions.size ≤ s.schema.graph.store.size := by
  let f (i : Nat) : Nat :=
    ((s.schema.graph.store.find? (.reference ⟨i⟩)).getD .epsilon).index
  have hf (i : Nat) (hi : i ∈ Finset.range s.schema.definitions.size) :
      s.schema.graph.store.find? (.reference ⟨i⟩) = some ⟨f i⟩ := by
    obtain ⟨id, hid⟩ := Option.isSome_iff_exists.1 ((hs ⟨i⟩).2 (Finset.mem_range.1 hi))
    simp only [f, hid, Option.getD_some]
  -- different references have different expressions
  rw [← Finset.card_range s.schema.definitions.size, ← Finset.card_range s.schema.graph.store.size]
  apply Finset.card_le_card_of_injOn f
  . intro i hi
    exact Finset.mem_coe.2 (Finset.mem_range.2 (Store.mem_of_find? (hf i hi)))
  . intro i hi j hj hij
    have hnode := Store.node_eq_of_find? (hf i hi)
    rw [hij, Store.node_eq_of_find? (hf j hj), Node.reference.injEq, RefId.mk.injEq] at hnode
    exact hnode.symm

theorem Numbers.isPool {limit : Nat} (hs : s.Numbers) (hlimit : limit < 2 ^ 32)
    (hroom : s.schema.graph.store.size ≤ limit + 1) : s.schema.graph.store.IsPool limit where
  find?_iff n id := by
    constructor
    . exact fun h => ⟨Store.mem_of_find? h, Store.node_eq_of_find? h⟩
    . rintro ⟨hid, rfl⟩
      exact Store.find?_node hid
  eq_iff a ha b hb := by
    constructor
    . exact fun h => congrArg _ h
    . exact Store.eq_of_node_eq ha hb
  dense i := by
    constructor
    . intro hi
      have hid : (⟨i⟩ : ExprId) ∈ s.schema.graph.store := hi
      exact ⟨_, Store.find?_node hid⟩
    . rintro ⟨n, hn⟩
      exact Store.mem_of_find? hn
  width id hid := by
    have hid : id.index < s.schema.graph.store.size := hid
    have hindex : id.index < 2 ^ 32 := by omega
    exact UInt32.toNat_ofNat_of_lt' hindex
  reference_width id r h := by
    have hid : id ∈ s.schema.graph.store := Store.mem_of_node_ne (by simp [h])
    have hr : r.index < s.schema.definitions.size := by
      rw [← hs r, ← h, Store.find?_node hid]
      rfl
    have hsize := hs.size_le
    have hindex : r.index < 2 ^ 32 := by omega
    exact UInt32.toNat_ofNat_of_lt' hindex
  below id a ha := by
    have hid : id ∈ s.schema.graph.store :=
      Store.mem_of_node_ne fun h => by simp [h, Node.children] at ha
    exact ⟨Store.mem_of_mem_children hid ha, Store.node_below _ id a ha⟩
  acyclic id h := by
    have hlt {a b : ExprId}
        (h : TransGen (fun a b => a ∈ (s.schema.graph.store.node b).children) a b) :
        a.index < b.index := by
      induction h with
      | single h => exact Store.node_below _ _ _ h
      | tail _ h ih => exact ih.trans (Store.node_below _ _ _ h)
    exact absurd (hlt h) (Nat.lt_irrefl _)
  room := hroom

theorem limitExceeded_iff {result : Except Halt (α × Session)} {limit l : Nat}
    (h : Interns s work nodes result) (hroom : s.schema.graph.store.size ≤ limit + 1) :
    work (s.withLimit limit) = .error (.fault (.limitExceeded l)) ↔
      l = limit ∧ s.schema.graph.store.Overruns limit nodes := by
  rw [← Store.internAll_eq_limitExceeded_iff hroom]
  have hrun := h.run limit
  change work (s.withLimit limit) = _ at hrun
  rw [hrun]
  change _ ↔ s.schema.graph.store.internAll limit nodes = _
  dsimp only [store]
  cases s.schema.graph.store.internAll limit nodes with
  | error f =>
    change Except.error (Halt.fault f) = _ ↔ _
    rw [Except.error.injEq, Except.error.injEq, Halt.fault.injEq]
  | ok t =>
    -- the nodes have been interned, so the limit plays no part in what follows
    refine iff_of_false ?_ (by rintro ⟨⟩)
    cases result with
    | error halt =>
      rintro ⟨⟩
      exact h.room l rfl
    | ok p => rintro ⟨⟩

theorem exists_asksFor (s : Session) (c : Command) : ∃ nodes, s.AsksFor c nodes := by
  by_cases hc : c = .settings
  -- the answer to this request is the limit, but it interns nothing
  . subst hc
    refine ⟨[], ?_, ?_⟩
    . intro limit l hroom
      have hnone : ¬ (l = limit ∧ s.schema.graph.store.Overruns limit []) := by
        rw [← Store.internAll_eq_limitExceeded_iff hroom]
        rintro ⟨⟩
      refine iff_of_false ?_ hnone
      rintro ⟨⟩
    . rintro limit _ _ ⟨⟩
      rfl
  . obtain ⟨nodes, result, hinterns⟩ := perform_uniform c hc s
    refine ⟨nodes, fun limit l hroom => limitExceeded_iff hinterns hroom, ?_⟩
    intro limit answer t h
    exact (internAll_of_ok limit hinterns h).1

theorem mem_of_derive {e : Term} {token : TokenTerm} {name : Option String} {size : Nat}
    {type : Option Nat} (hs : s.Sound)
    (h : perform (.derive e token name) s = .ok (.derived id size type, t)) :
    id ∈ t.schema.graph.store := by
  change derive e token name s = _ at h
  unfold derive at h
  obtain ⟨i, u, hi, h⟩ := bind_eq_ok h
  obtain ⟨x, v, hx, h⟩ := bind_eq_ok h
  obtain ⟨d, w, hd, h⟩ := bind_eq_ok h
  obtain ⟨_, hu, himakes⟩ := makes_of_build hs hi
  have htoken : Returns True u token.build _ _ := buildToken_returns token hu
  obtain ⟨huv, hv, _⟩ := htoken.ok x v hx
  have hiv := himakes.has.of_le huv
  have hderive : Graph.Returns v.schema.definitions v.schema.graph
      (Graph.derivative v.schema.definitions x i) _ _ := Graph.derivative_returns hv.graph hiv
  have hgraph : Returns True v (onGraph fun defs => Graph.derivative defs x i) _ _ :=
    onGraph_returns hv hderive
  obtain ⟨hvw, _, hrest, _, _⟩ := hgraph.ok d w hd
  have hmem : d.rest ∈ w.schema.graph.store := hrest.mem hv.graph.within hiv (Graph.store_le hvw.2)
  cases name with
  | none =>
    cases h
    exact hmem
  | some name =>
    cases h
    exact hmem

theorem mem_of_pick {picker : String} {e : Term} {name : Option String} {size : Nat} (hs : s.Sound)
    (h : perform (.pick picker e name) s = .ok (.picked id size, t)) :
    id ∈ t.schema.graph.store := by
  have hpick : Returns True s (pick picker e name) (fun _ => True) fun answer t =>
      Alters (fun _ => False) (fun _ => False) s t ∧ ∃ id size, answer = .picked id size ∧ t.Has id :=
    pick_returns hs
  obtain ⟨_, _, _, _, _, ⟨⟩, hid⟩ := hpick.ok _ t h
  exact hid

theorem Issued.mem (h : s.Issued id) (hs : s.Arises) : id ∈ s.schema.graph.store := by
  induction h with
  | bound h => exact hs.sound.bindings _ _ h
  | state h => exact (hs.sound.matchers _ _ h).state
  | slot h hslot hid =>
    obtain ⟨howner, hcontent⟩ := (hs.sound.matchers _ _ h).slots _ hslot
    rcases hid with rfl | rfl
    . exact howner
    . exact hcontent
  | target h => exact hs.sound.graph.within _ _ h
  | child _ ha ih => exact Store.mem_of_mem_children (ih hs) ha
  | derived hr h => exact mem_of_derive hr.sound h
  | picked hr h => exact mem_of_pick hr.sound h
  | before hr hrs _ ih =>
    have hle := (hrs.le_and_sound hr.sound).1
    exact Store.mem_of_le (Graph.store_le hle.2) (ih hr)

theorem not_mem_of_reference {name : String} (hs : s.Numbers)
    (h : onSchema (Schema.reference name) s = .ok (id, t)) :
    id ∉ s.schema.graph.store ∧ id ∈ t.schema.graph.store := by
  unfold onSchema StateT.run at h
  rw [Schema.reference_apply] at h
  cases hintern : s.schema.graph.store.intern s.schema.graph.settings.limit
      (.reference ⟨s.schema.definitions.size⟩) with
  | error f =>
    rw [hintern] at h
    cases h
  | ok p =>
    rw [hintern] at h
    cases h
    obtain ⟨hle, hfind⟩ := Store.intern_eq_ok hintern
    refine ⟨?_, Store.mem_of_find? hfind⟩
    intro hid
    -- an expression of the store would be one of the references made before
    have hold := (hs ⟨s.schema.definitions.size⟩).1 (by simp [Store.find?_of_ge hle hid hfind])
    exact absurd hold (Nat.lt_irrefl _)

theorem bind_again {e : Term} {name name' : String} {size : Nat} (he : e.isReferenceFree)
    (hs : s.Arises) (h : perform (.bind name e) s = .ok (.built id size, u)) (hut : u.Develops t)
    (hnames : ∀ x ∈ e.names, t.bindings[x]? = s.bindings[x]?) :
    perform (.bind name' e) t = .ok (.built id t.schema.graph.store.size,
      { t with bindings := t.bindings.insert name' id }) := by
  have hsu : s.Develops u := Develops.perform .refl rfl h
  have hu := hs.develops hsu
  obtain ⟨i, v, hi, h⟩ := bind_eq_ok h
  cases h
  obtain ⟨hsv, hv, hmakes⟩ := makes_of_build hs.sound hi
  have hvt : v.Retains e.names t := by
    refine ⟨(hut.le_and_sound hu.sound).1, fun x hx => ?_⟩
    rw [hnames x hx, hmakes.only]
  have hbuild : e.build t = .ok (id, t) := build_again e he s hs.sound id v hi t hvt
  change (e.build >>= fun id => bind name' id >>= fun _ => size >>= fun n =>
    pure (.built id n) : SessionM Answer) t = _
  rw [bind_of_ok hbuild]
  rfl

/--
In a pool that keeps its numbers in 32 bits, whatever is asked of it, a number that has been given
out stands for its node for good, and different nodes have different numbers. A new reference is a
new expression. There is room for one node more than the limit; what needs a further one fails, and
all else is carried out even then: an expression that has been built before is found again.
-/
theorem pool_invariant (hs : s.Arises) (hst : s.Develops t)
    (hlimit : s.schema.graph.settings.limit < 2 ^ 32) :
    let limit := s.schema.graph.settings.limit
    let pool := t.schema.graph.store
    pool.IsPool limit ∧
      (∀ id, s.Issued id → id ∈ s.schema.graph.store) ∧
      (∀ id ∈ s.schema.graph.store, id ∈ pool ∧ pool.node id = s.schema.graph.store.node id) ∧
      (∀ name id u, onSchema (Schema.reference name) t = .ok (id, u) →
        id ∉ pool ∧ ¬ t.Issued id ∧ id ∈ u.schema.graph.store) ∧
      (∀ c, ∃ nodes, t.AsksFor c nodes ∧ ∀ l,
        perform c t = .error (.fault (.limitExceeded l)) ↔ l = limit ∧ pool.Overruns limit nodes) ∧
      ∀ e name id size u, e.isReferenceFree → perform (.bind name e) s = .ok (.built id size, u) →
        u.Develops t → (∀ x ∈ e.names, t.bindings[x]? = s.bindings[x]?) → ∀ name',
          perform (.bind name' e) t =
            .ok (.built id pool.size, { t with bindings := t.bindings.insert name' id }) := by
  intro limit pool
  have ht := hs.develops hst
  have hle := Graph.store_le (hst.le_and_sound hs.sound).1.2
  have hsame : t.schema.graph.settings.limit = limit := hst.keeps.limit
  have hroom := ht.sound.graph.room
  rw [hsame] at hroom
  refine ⟨ht.numbers.isPool hlimit hroom, fun id hid => hid.mem hs, ?_, ?_, ?_, ?_⟩
  . exact fun id hid => ⟨Store.mem_of_le hle hid, Store.node_of_le hle hid⟩
  . intro name id u h
    obtain ⟨hnew, hmem⟩ := not_mem_of_reference ht.numbers h
    exact ⟨hnew, fun hissued => hnew (hissued.mem ht), hmem⟩
  . intro c
    obtain ⟨nodes, hnodes⟩ := exists_asksFor t c
    have hown : t.withLimit limit = t := by
      rw [← hsame]
      rfl
    refine ⟨nodes, hnodes, fun l => ?_⟩
    rw [← hnodes.limitExceeded_iff limit l hroom, hown]
  . exact fun e name id size u he h hut hnames name' => bind_again he hs h hut hnames

/--
A pool with room for two expressions besides the constants: once they have been built there is no
room for a third, but the first is found again.
-/
theorem pool_invariant_full :
    ∃ s t : Session, s.Arises ∧ s.Develops t ∧ s.schema.graph.settings.limit < 2 ^ 32 ∧
      t.schema.graph.store.IsPool 4 ∧ t.schema.graph.store.size = 5 ∧
      perform (.bind "c" (.mixed (.variable "a"))) t = .error (.fault (.limitExceeded 4)) ∧
      ∃ id u, perform (.bind "c" (.element .any .epsilon)) t = .ok (.built id 5, u) := by
  have hrun : (create (fun _ => .string) { limit := 4 }).toOption.any (fun s =>
      s.schema.graph.settings.limit = 4 &&
        yields (.bind "a" (.element .any .epsilon)) s fun answer u => answer = .built ⟨3⟩ 4 &&
          yields (.bind "b" (.oneOrMore (.variable "a"))) u fun _ t => t.schema.graph.store.size = 5 &&
            halt? (.bind "c" (.mixed (.variable "a"))) t = some (.fault (.limitExceeded 4))) := by
    decide +kernel
  obtain ⟨s, hcreate, hrun⟩ := exists_of_any_toOption hrun
  simp only [yields_iff, Bool.and_eq_true, decide_eq_true_eq] at hrun
  obtain ⟨hlimit, _, u, hfirst, rfl, answer, t, hsecond, hsize, hhalt⟩ := hrun
  have hs : s.Arises := ⟨_, _, s, hcreate, .refl⟩
  have hsu : s.Develops u := Develops.perform .refl rfl hfirst
  have hut : u.Develops t := Develops.perform .refl rfl hsecond
  have hbound : s.schema.graph.settings.limit < 2 ^ 32 := by
    rw [hlimit]
    decide
  obtain ⟨hpool, _, _, _, _, hagain⟩ := pool_invariant hs (hsu.trans hut) hbound
  have hagain := hagain _ "a" ⟨3⟩ 4 u rfl hfirst hut (by simp [Term.names]) "c"
  rw [hlimit] at hpool
  rw [hsize] at hagain
  exact ⟨s, t, hs, hsu.trans hut, hbound, hpool, hsize, perform_of_halt? hhalt, ⟨3⟩, _, hagain⟩

end Session

end TreeGrammar
