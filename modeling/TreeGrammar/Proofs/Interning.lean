import TreeGrammar.Proofs.Carrying
import TreeGrammar.Session.Run

/-!
This module contains how work on expressions depends on the limit. The nodes that it interns are the
same whatever the limit, and so it is only the limit that decides how many of them it gets.
-/

namespace TreeGrammar

namespace Store

def internAll (s : Store) (limit : Nat) : List Node → Except Fault Store
  | [] => .ok s
  | n :: nodes =>
    match s.intern limit n with
    | .ok (_, t) => t.internAll limit nodes
    | .error f => .error f

/--
One of the nodes is not stored yet when it is its turn, and by then the store is full.
-/
def Overruns (s : Store) (limit : Nat) (nodes : List Node) : Prop :=
  ∃ before n after t, nodes = before ++ n :: after ∧ s.internAll limit before = .ok t ∧
    t.find? n = none ∧ t.size = limit + 1

variable {s t u : Store} {limit limit' l : Nat} {n m : Node} {nodes nodes' : List Node}
variable {id a : ExprId} {f : Fault}

theorem intern_unique {p p' : ExprId × Store} (h : s.intern limit n = .ok p)
    (h' : s.intern limit' n = .ok p') : p = p' := by
  rcases intern_cases h with ⟨id, found, rfl⟩ | ⟨new, below, _, rfl⟩
  . rcases intern_cases h' with ⟨id', found', rfl⟩ | ⟨new, _, _, _⟩
    . rw [Option.some.inj (found.symm.trans found')]
    . cases found.symm.trans new
  . rcases intern_cases h' with ⟨id', found', rfl⟩ | ⟨_, _, _, rfl⟩
    . cases new.symm.trans found'
    . rfl

theorem intern_fst (h : s.intern limit n = .ok (id, t)) : id = (s.find? n).getD ⟨s.size⟩ := by
  rcases intern_cases h with ⟨id', found, heq⟩ | ⟨new, below, _, heq⟩
  . cases heq
    rw [found, Option.getD_some]
  . cases heq
    rw [new, Option.getD_none]

theorem intern_eq_limitExceeded_iff : s.intern limit n = .error (.limitExceeded l) ↔
    l = limit ∧ s.find? n = none ∧ limit < s.size := by
  unfold intern
  split
  . next found => simp [found]
  . next missing =>
    split
    . next full => simp [missing, full, eq_comm]
    . next room =>
      split <;> simp [room]

theorem size_le_of_intern (hs : s.size ≤ limit + 1) (h : s.intern limit n = .ok (id, t)) :
    t.size ≤ limit + 1 := by
  rcases intern_grows h with rfl | ⟨hlimit, hsize, _⟩
  . exact hs
  . omega

theorem internAll_cons : s.internAll limit (n :: nodes) =
    (s.intern limit n).bind fun p => p.2.internAll limit nodes := by
  rw [internAll]
  cases s.intern limit n <;> rfl

theorem exists_of_internAll_cons (h : s.internAll limit (n :: nodes) = .ok t) :
    ∃ id u, s.intern limit n = .ok (id, u) ∧ u.internAll limit nodes = .ok t := by
  rw [internAll_cons] at h
  cases hn : s.intern limit n with
  | error f =>
    rw [hn] at h
    cases h
  | ok p =>
    rw [hn] at h
    exact ⟨p.1, p.2, rfl, h⟩

theorem internAll_append : s.internAll limit (nodes ++ nodes') =
    (s.internAll limit nodes).bind fun t => t.internAll limit nodes' := by
  induction nodes generalizing s with
  | nil => rfl
  | cons n nodes ih =>
    rw [List.cons_append, internAll_cons, internAll_cons]
    cases s.intern limit n with
    | error f => rfl
    | ok p => exact ih

theorem internAll_unique (h : s.internAll limit nodes = .ok t)
    (h' : s.internAll limit' nodes = .ok u) : t = u := by
  induction nodes generalizing s with
  | nil =>
    cases h
    cases h'
    rfl
  | cons n nodes ih =>
    obtain ⟨_, _, hn, h⟩ := exists_of_internAll_cons h
    obtain ⟨_, _, hn', h'⟩ := exists_of_internAll_cons h'
    cases intern_unique hn hn'
    exact ih h h'

theorem find?_internAll (h : s.internAll limit nodes = .ok t) :
    (t.find? m).isSome ↔ (s.find? m).isSome ∨ m ∈ nodes := by
  induction nodes generalizing s with
  | nil =>
    cases h
    simp
  | cons n nodes ih =>
    obtain ⟨id, u, hn, h⟩ := exists_of_internAll_cons h
    obtain ⟨hsu, hfind⟩ := intern_eq_ok hn
    -- interning one node stores at most this one
    have hu : (u.find? m).isSome ↔ (s.find? m).isSome ∨ m = n := by
      constructor
      . intro hm
        obtain ⟨a, ha⟩ := Option.isSome_iff_exists.1 hm
        have hold (has : a ∈ s) : (s.find? m).isSome := by
          rw [find?_of_ge hsu has ha]
          rfl
        rcases intern_grows hn with rfl | ⟨_, _, hnew⟩
        . exact Or.inl hm
        . rcases hnew a (mem_of_find? ha) with has | rfl
          . exact Or.inl (hold has)
          . exact Or.inr ((node_eq_of_find? ha).symm.trans (node_eq_of_find? hfind))
      . rintro (hm | rfl)
        . obtain ⟨a, ha⟩ := Option.isSome_iff_exists.1 hm
          rw [find?_of_le hsu ha]
          rfl
        . rw [hfind]
          rfl
    rw [ih h, hu, List.mem_cons, or_assoc]

/--
Interning nodes fails for lack of room exactly if one of them is new when the store is full.
-/
theorem internAll_eq_limitExceeded_iff (hs : s.size ≤ limit + 1) :
    s.internAll limit nodes = .error (.limitExceeded l) ↔ l = limit ∧ s.Overruns limit nodes := by
  constructor
  . intro h
    induction nodes generalizing s with
    | nil => cases h
    | cons n nodes ih =>
      rw [internAll_cons] at h
      cases hn : s.intern limit n with
      | ok p =>
        rw [hn] at h
        obtain ⟨hl, before, m, after, t, rfl, hbefore, hm, hfull⟩ := ih (size_le_of_intern hs hn) h
        refine ⟨hl, n :: before, m, after, t, rfl, ?_, hm, hfull⟩
        rw [internAll_cons, hn]
        exact hbefore
      | error f =>
        rw [hn] at h
        cases h
        obtain ⟨hl, hmissing, hfull⟩ := intern_eq_limitExceeded_iff.1 hn
        exact ⟨hl, [], n, nodes, s, rfl, rfl, hmissing, by omega⟩
  . rintro ⟨rfl, before, n, after, t, rfl, hbefore, hmissing, hfull⟩
    have hn : t.intern l n = .error (.limitExceeded l) :=
      intern_eq_limitExceeded_iff.2 ⟨rfl, hmissing, by omega⟩
    rw [internAll_append, hbefore, Except.bind, internAll_cons, hn]
    rfl

end Store

/--
A state of work on expressions. It holds a store, which has a limit.
-/
class StoreState (σ : Type) (ε : outParam Type) where
  store : σ → Store
  references : σ → Nat
  put : σ → Nat → Store → σ
  fault : Fault → ε
  store_put (s : σ) (limit : Nat) (t : Store) : store (put s limit t) = t
  references_put (s : σ) (limit : Nat) (t : Store) : references (put s limit t) = references s
  put_put (s : σ) (limit limit' : Nat) (t t' : Store) :
    put (put s limit t) limit' t' = put s limit' t'

namespace StoreState

attribute [simp] store_put references_put put_put

instance : StoreState Graph Fault where
  store g := g.store
  references _ := 0
  put g limit t := { g with store := t, settings := { g.settings with limit } }
  fault f := f
  store_put _ _ _ := rfl
  references_put _ _ _ := rfl
  put_put _ _ _ _ _ := rfl

instance : StoreState Schema Fault where
  store s := s.graph.store
  references s := s.definitions.size
  put s limit t := { s with graph := put s.graph limit t }
  fault f := f
  store_put _ _ _ := rfl
  references_put _ _ _ := rfl
  put_put _ _ _ _ _ := rfl

instance : StoreState Session Halt where
  store s := s.schema.graph.store
  references s := s.schema.definitions.size
  put s limit t := { s with schema := put s.schema limit t }
  fault f := .fault f
  store_put _ _ _ := rfl
  references_put _ _ _ := rfl
  put_put _ _ _ _ _ := rfl

end StoreState

open StoreState

variable {σ ε α β : Type} [StoreState σ ε] {s t : σ} {nodes nodes' : List Node}

/--
From the state on, the work interns the nodes, whatever the limit. If it gets all of them, `result`
is what comes of it, up to the limit and the store. The references among the nodes are those that it
makes.
-/
structure Interns (s : σ) (work : StateT σ (Except ε) α) (nodes : List Node)
    (result : Except ε (α × σ)) : Prop where
  run : ∀ limit, work (put s limit (store s)) = match (store s).internAll limit nodes with
    | .ok t => result.map fun p => (p.1, put p.2 limit t)
    | .error f => .error (fault σ f)
  room : ∀ limit, result ≠ .error (fault σ (.limitExceeded limit))
  references_le : ∀ a t, result = .ok (a, t) → references s ≤ references t
  reference_mem : ∀ a t, result = .ok (a, t) → ∀ r : RefId,
    .reference r ∈ nodes ↔ references s ≤ r.index ∧ r.index < references t

def IsUniform (work : StateT σ (Except ε) α) : Prop :=
  ∀ s, ∃ nodes result, Interns s work nodes result

namespace Interns

variable {work : StateT σ (Except ε) α}

theorem of_quiet {result : Except ε (α × σ)}
    (hrun : ∀ limit, work (put s limit (store s)) =
      result.map fun p => (p.1, put p.2 limit (store s)))
    (hroom : ∀ limit, result ≠ .error (fault σ (.limitExceeded limit)))
    (hok : ∀ a t, result = .ok (a, t) → references t = references s) :
    Interns s work [] result where
  run := hrun
  room := hroom
  references_le a t h := (hok a t h).ge
  reference_mem a t h r := by
    have := hok a t h
    simp only [List.not_mem_nil, false_iff]
    omega

theorem of_intern {work : StateT σ (Except ε) ExprId} {n : Node}
    (hrun : ∀ limit, work (put s limit (store s)) =
      (((store s).intern limit n).map fun p => (p.1, put t limit p.2)).mapError (fault σ))
    (hle : references s ≤ references t)
    (hreference : ∀ r : RefId, .reference r = n ↔ references s ≤ r.index ∧ r.index < references t) :
    Interns s work [n] (.ok (((store s).find? n).getD ⟨(store s).size⟩, t)) where
  run limit := by
    rw [hrun, Store.internAll]
    cases h : (store s).intern limit n with
    | error f => rfl
    | ok p =>
      obtain ⟨id, u⟩ := p
      rw [← Store.intern_fst h]
      rfl
  room := by rintro _ ⟨⟩
  references_le := by
    rintro _ _ ⟨⟩
    exact hle
  reference_mem := by
    rintro _ _ ⟨⟩ r
    rw [List.mem_singleton, hreference]

theorem embed {τ δ : Type} [StoreState τ δ] {x : τ} {inner : StateT τ (Except δ) α}
    {result : Except δ (α × τ)} (place : τ → σ) (raise : δ → ε)
    (h : Interns x inner nodes result) (hstore : store s = store x)
    (hrun : ∀ limit, work (put s limit (store s)) =
      ((inner (put x limit (store x))).map fun p => (p.1, place p.2)).mapError raise)
    (hput : ∀ y limit t, place (put y limit t) = put (place y) limit t)
    (hfault : ∀ f, raise (fault τ f) = fault σ f)
    (hroom : ∀ f limit, raise f = fault σ (.limitExceeded limit) → f = fault τ (.limitExceeded limit))
    (hle : ∀ y, references x ≤ references y → references s ≤ references (place y))
    (hreference : ∀ y r, references x ≤ r ∧ r < references y ↔
      references s ≤ r ∧ r < references (place y)) :
    Interns s work nodes ((result.map fun p => (p.1, place p.2)).mapError raise) := by
  have hok {a : α} {t : σ}
      (ht : (result.map fun p => (p.1, place p.2)).mapError raise = .ok (a, t)) :
      ∃ y, result = .ok (a, y) ∧ t = place y := by
    cases result with
    | error f => cases ht
    | ok p =>
      cases ht
      exact ⟨p.2, rfl, rfl⟩
  refine ⟨?_, ?_, ?_, ?_⟩
  . intro limit
    rw [hrun, h.run, hstore]
    cases (store x).internAll limit nodes with
    | error f => exact congrArg Except.error (hfault f)
    | ok t =>
      cases result with
      | error f => rfl
      | ok p => exact congrArg (fun u => Except.ok (p.1, u)) (hput p.2 limit t)
  . intro limit hlimit
    cases result with
    | error f => exact h.room limit (congrArg Except.error (hroom f limit (Except.error.inj hlimit)))
    | ok p => cases hlimit
  . intro a t ht
    obtain ⟨y, hy, rfl⟩ := hok ht
    exact hle y (h.references_le a y hy)
  . intro a t ht r
    obtain ⟨y, hy, rfl⟩ := hok ht
    rw [h.reference_mem a y hy, hreference]

theorem bind {next : α → StateT σ (Except ε) β} {result : Except ε (α × σ)}
    (hwork : Interns s work nodes result) (hnext : ∀ a, IsUniform (next a)) :
    ∃ nodes result, Interns s (work >>= next) nodes result := by
  have hbind (s : σ) : (work >>= next) s = (work s).bind fun p => next p.1 p.2 := rfl
  cases result with
  | error h =>
    refine ⟨nodes, .error h, ?_, ?_, by rintro _ _ ⟨⟩, by rintro _ _ ⟨⟩⟩
    . intro limit
      rw [hbind, hwork.run]
      cases (store s).internAll limit nodes <;> rfl
    . rintro limit ⟨⟩
      exact hwork.room limit rfl
  | ok p =>
    obtain ⟨a, u⟩ := p
    -- the store when all nodes have been interned, if that is possible at all
    obtain ⟨t, ht⟩ : ∃ t, ∀ limit t', (store s).internAll limit nodes = .ok t' → t' = t := by
      by_cases h : ∃ limit t, (store s).internAll limit nodes = .ok t
      . obtain ⟨limit, t, ht⟩ := h
        exact ⟨t, fun _ _ ht' => Store.internAll_unique ht' ht⟩
      . exact ⟨store s, fun limit t' ht' => absurd ⟨limit, t', ht'⟩ h⟩
    obtain ⟨nodes', result', hnext⟩ := hnext a (put u 0 t)
    have hle := hwork.references_le a u rfl
    have hmem := hwork.reference_mem a u rfl
    refine ⟨nodes ++ nodes', result', ?_, hnext.room, ?_, ?_⟩
    . intro limit
      rw [hbind, hwork.run, Store.internAll_append]
      cases ht' : (store s).internAll limit nodes with
      | error f => rfl
      | ok t' =>
        obtain rfl := ht limit t' ht'
        have hrun := hnext.run limit
        rw [store_put, put_put] at hrun
        exact hrun
    . intro b v hv
      have := hnext.references_le b v hv
      rw [references_put] at this
      exact hle.trans this
    . intro b v hv r
      have hle' := hnext.references_le b v hv
      have hmem' := hnext.reference_mem b v hv r
      rw [references_put] at hle' hmem'
      rw [List.mem_append, hmem, hmem']
      omega

end Interns

namespace IsUniform

variable {work : StateT σ (Except ε) α} {next : α → StateT σ (Except ε) β}

theorem pure (a : α) : IsUniform (Pure.pure a : StateT σ (Except ε) α) :=
  fun s => ⟨[], .ok (a, s), .of_quiet (fun _ => rfl) (by rintro _ ⟨⟩) (by rintro _ _ ⟨⟩; simp)⟩

theorem throw {h : ε} (hroom : ∀ limit, h ≠ fault σ (.limitExceeded limit)) :
    IsUniform (throw h : StateT σ (Except ε) α) := by
  refine fun s => ⟨[], .error h, .of_quiet (fun _ => rfl) ?_ (by rintro _ _ ⟨⟩)⟩
  rintro limit ⟨⟩
  exact hroom limit rfl

theorem bind (hwork : IsUniform work) (hnext : ∀ a, IsUniform (next a)) :
    IsUniform (work >>= next) := by
  intro s
  obtain ⟨nodes, result, hwork⟩ := hwork s
  exact hwork.bind hnext

theorem map {f : α → β} (hwork : IsUniform work) : IsUniform (f <$> work) := by
  rw [map_eq_pure_bind]
  exact hwork.bind fun a => .pure (f a)

theorem get {next : σ → StateT σ (Except ε) β}
    (hput : ∀ s limit, next (put s limit (store s)) = next s) (hnext : ∀ s, IsUniform (next s)) :
    IsUniform (MonadState.get >>= next) := by
  intro s
  obtain ⟨nodes, result, hnext⟩ := hnext s s
  refine ⟨nodes, result, ?_, hnext.room, hnext.references_le, hnext.reference_mem⟩
  intro limit
  have hget : (MonadState.get >>= next) (put s limit (store s)) =
      next (put s limit (store s)) (put s limit (store s)) := rfl
  rw [hget, hput, hnext.run]

theorem modify {f : σ → σ} (hput : ∀ s limit, f (put s limit (store s)) = put (f s) limit (store s))
    (hreferences : ∀ s, references (f s) = references s) :
    IsUniform (modify f : StateT σ (Except ε) Unit) := by
  intro s
  refine ⟨[], .ok ((), f s), .of_quiet ?_ (by rintro _ ⟨⟩) ?_⟩
  . exact fun limit => congrArg (fun t => Except.ok ((), t)) (hput s limit)
  . rintro _ _ ⟨⟩
    exact hreferences s

theorem ite {c : Prop} [Decidable c] {other : StateT σ (Except ε) α} (hwork : IsUniform work)
    (hother : IsUniform other) : IsUniform (if c then work else other) := by
  split
  . exact hwork
  . exact hother

end IsUniform

end TreeGrammar
