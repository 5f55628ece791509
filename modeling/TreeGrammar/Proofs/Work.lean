import TreeGrammar.Expr.Derivative
import TreeGrammar.Proofs.Language
import TreeGrammar.Proofs.NormalForm

/-!
This module contains what is asked of all work on a graph: that the graph only grows, that what it
remembers stays true, that the work does not depend on the derivatives that are remembered, and that
doing it again later has the same result and no effect.
-/

namespace TreeGrammar

section Tables

variable {κ β : Type} {cmp : κ → κ → Ordering} [Std.TransCmp cmp] [Std.LawfulEqCmp cmp]
variable {m : Std.TreeMap κ β cmp} {k : κ} {b : β}

theorem getElem?_insert [DecidableEq κ] (x : κ) :
    (m.insert k b)[x]? = if k = x then some b else m[x]? := by
  rw [Std.TreeMap.getElem?_insert]
  exact if_congr Std.LawfulEqCmp.compare_eq_iff_eq rfl rfl

theorem forall_getElem?_insert {p : κ → β → Prop} (h : ∀ x c, m[x]? = some c → p x c) (hb : p k b) :
    ∀ x c, (m.insert k b)[x]? = some c → p x c := by
  intro x c hc
  rw [Std.TreeMap.getElem?_insert] at hc
  split at hc
  . next heq =>
    cases hc
    rwa [← Std.LawfulEqCmp.eq_of_compare heq]
  . exact h x c hc

end Tables

/--
The fault is one that work on expressions can end with: the graph has become too large, or a
reference cannot be followed although it is not `guarded`.
-/
def Fault.Admissible (guarded : Prop) : Fault → Prop
  | .limitExceeded _ => True
  | .undefinedReference _ | .unguardedReference _ => ¬ guarded
  | _ => False

theorem Fault.Admissible.mono {p q : Prop} (hpq : q → p) {f : Fault} (h : f.Admissible p) :
    f.Admissible q := by
  cases f with
  | undefinedReference => exact mt hpq h
  | unguardedReference => exact mt hpq h
  | limitExceeded => trivial
  | _ => cases h

theorem Fault.Admissible.exists_limit {f : Fault} (h : f.Admissible True) :
    ∃ limit, f = .limitExceeded limit := by
  cases f with
  | limitExceeded limit => exact ⟨limit, rfl⟩
  | undefinedReference => exact absurd trivial h
  | unguardedReference => exact absurd trivial h
  | _ => cases h

def Store.Decided (s : Store) (defs : Definitions) (id : ExprId) (b : Bool) : Prop :=
  ∀ t defs', s ≤ t → defs ≤ defs' → (b = true ↔ [] ∈ t.language defs' id)

theorem Store.Decided.of_le {s t : Store} {defs defs' : Definitions} {id : ExprId} {b : Bool}
    (h : s.Decided defs id b) (hst : s ≤ t) (hdefs : defs ≤ defs') : t.Decided defs' id b :=
  fun u defs'' hu hdefs'' => h u defs'' (le_trans hst hu) (le_trans hdefs hdefs'')

theorem Store.Decided.eq {s : Store} {defs : Definitions} {id : ExprId} {b c : Bool}
    (hb : s.Decided defs id b) (hc : s.Decided defs id c) : b = c :=
  Bool.eq_iff_iff.2 ((hb s defs le_rfl le_rfl).trans (hc s defs le_rfl le_rfl).symm)

namespace Graph

def forgetful (g : Graph) : Graph :=
  { g with settings := { g.settings with remembersDerivatives := false }, derivatives := ∅ }

/--
All that a graph remembers is true, and it stays true when the schema grows.
-/
structure Sound (defs : Definitions) (g : Graph) : Prop where
  within : defs.Within g.store
  normal : g.store.IsNormal
  room : g.store.size ≤ g.settings.limit + 1
  nullable : ∀ (id : ExprId) (b : Bool), g.nullable[id]? = some b →
    id ∈ g.store ∧ g.store.Decided defs id b
  derivatives : ∀ id x rest : ExprId, g.derivatives[(id, x)]? = some rest → id ∈ g.store ∧
    ∀ defs' u, defs ≤ defs' → g ≤ u →
      derive defs' (.element [x]) (acceptsToken defs' (.element [x])) id u = .ok ({ rest }, u)

/--
What is asked of work that starts from a graph. It ends with a fault of `E`, or else in a graph that
has grown and is sound, with a result that satisfies `Q`. It takes no notice of derivatives.
-/
structure Returns {α : Type} (defs : Definitions) (g : Graph) (work : GraphM α) (E : Fault → Prop)
    (Q : α → Graph → Prop) : Prop where
  forgetful : work g.forgetful = (work g).map (Prod.map id Graph.forgetful)
  error : ∀ f, work g = .error f → E f
  ok : ∀ a h, work g = .ok (a, h) → g ≤ h ∧ h.Sound defs ∧ Q a h

/--
What is asked of work that has the same result, and no effect, when it is done again in a schema
that has grown since.
-/
def Yields {α : Type} (defs : Definitions) (g : Graph) (work : Definitions → GraphM α)
    (E : Fault → Prop) (Q : α → Graph → Prop) : Prop :=
  Returns defs g (work defs) E fun a h =>
    Q a h ∧ ∀ defs' u, defs ≤ defs' → h ≤ u → work defs' u = .ok (a, u)

variable {α β : Type} {defs defs' : Definitions} {g h u : Graph} {id a b : ExprId}
variable {E E' : Fault → Prop}

@[simp]
theorem forgetful_store : g.forgetful.store = g.store := rfl

@[simp]
theorem forgetful_nullable : g.forgetful.nullable = g.nullable := rfl

@[simp]
theorem forgetful_limit : g.forgetful.settings.limit = g.settings.limit := rfl

namespace Sound

theorem reduced (hg : g.Sound defs) : g.store.IsReduced := hg.normal.isReduced

theorem of_le (hg : g.Sound defs) (hdefs : defs ≤ defs') (hwithin : defs'.Within g.store) :
    g.Sound defs' where
  within := hwithin
  normal := hg.normal
  room := hg.room
  nullable := by
    intro id b hb
    obtain ⟨hid, hdecided⟩ := hg.nullable id b hb
    exact ⟨hid, hdecided.of_le le_rfl hdefs⟩
  derivatives := by
    intro id x rest hrest
    obtain ⟨hid, hderive⟩ := hg.derivatives id x rest hrest
    refine ⟨hid, ?_⟩
    intro defs'' u hdefs'' hu
    exact hderive defs'' u (le_trans hdefs hdefs'') hu

theorem withStore {t : Store} (hg : g.Sound defs) (ht : g.store ≤ t) (hnormal : t.IsNormal)
    (hroom : t.size ≤ g.settings.limit + 1) : { g with store := t : Graph }.Sound defs where
  within := hg.within.of_le ht
  normal := hnormal
  room := hroom
  nullable := by
    intro id b hb
    obtain ⟨hid, hdecided⟩ := hg.nullable id b hb
    exact ⟨Store.mem_of_le ht hid, hdecided.of_le ht le_rfl⟩
  derivatives := by
    intro id x rest hrest
    obtain ⟨hid, hderive⟩ := hg.derivatives id x rest hrest
    refine ⟨Store.mem_of_le ht hid, ?_⟩
    intro defs' u hdefs hu
    exact hderive defs' u hdefs ⟨le_trans ht hu.1, hu.2⟩

theorem le_insert_nullable {c : Bool} (hg : g.Sound defs) (hc : g.store.Decided defs id c) :
    g ≤ { g with nullable := g.nullable.insert id c } := by
  refine ⟨le_rfl, ?_, rfl⟩
  intro a b hb
  dsimp only
  rw [getElem?_insert]
  split
  . next heq =>
    subst heq
    rw [(hg.nullable id b hb).2.eq hc]
  . exact hb

theorem insert_nullable {c : Bool} (hg : g.Sound defs) (hid : id ∈ g.store)
    (hc : g.store.Decided defs id c) :
    { g with nullable := g.nullable.insert id c : Graph }.Sound defs where
  within := hg.within
  normal := hg.normal
  room := hg.room
  nullable := forall_getElem?_insert hg.nullable ⟨hid, hc⟩
  derivatives := by
    intro a x rest hrest
    obtain ⟨ha, hderive⟩ := hg.derivatives a x rest hrest
    refine ⟨ha, ?_⟩
    intro defs' u hdefs hu
    exact hderive defs' u hdefs (le_trans (hg.le_insert_nullable hc) hu)

end Sound

namespace Returns

variable {work : GraphM α} {next : α → GraphM β} {Q : α → Graph → Prop} {R : β → Graph → Prop}

theorem pure {a : α} (hg : g.Sound defs) (ha : Q a g) : Returns defs g (Pure.pure a) E Q where
  forgetful := rfl
  error := by
    intro f hf
    cases hf
  ok := by
    rintro _ _ ⟨⟩
    exact ⟨le_rfl, hg, ha⟩

theorem throw {f : Fault} (hf : E f) : Returns defs g (throw f : GraphM α) E Q where
  forgetful := rfl
  error := by
    rintro _ ⟨⟩
    exact hf
  ok := by
    intro a h heq
    cases heq

theorem bind (hwork : Returns defs g work E Q)
    (hnext : ∀ a h, g ≤ h → h.Sound defs → Q a h → Returns defs h (next a) E R) :
    Returns defs g (work >>= next) E R := by
  have hrun (g : Graph) : (work >>= next) g = (work g).bind fun p => next p.1 p.2 := rfl
  cases hw : work g with
  | error f =>
    refine ⟨?_, ?_, ?_⟩
    . rw [hrun, hrun, hwork.forgetful, hw]
      rfl
    . intro f' hf
      rw [hrun, hw] at hf
      cases hf
      exact hwork.error f hw
    . intro b k hk
      rw [hrun, hw] at hk
      cases hk
  | ok p =>
    obtain ⟨a, h⟩ := p
    obtain ⟨hgh, hh, ha⟩ := hwork.ok a h hw
    have hn := hnext a h hgh hh ha
    refine ⟨?_, ?_, ?_⟩
    . rw [hrun, hrun, hwork.forgetful, hw]
      exact hn.forgetful
    . intro f hf
      rw [hrun, hw] at hf
      exact hn.error f hf
    . intro b k hk
      rw [hrun, hw] at hk
      obtain ⟨hhk, hk, hb⟩ := hn.ok b k hk
      exact ⟨le_trans hgh hhk, hk, hb⟩

theorem mono {Q' : α → Graph → Prop} (hwork : Returns defs g work E Q) (hE : ∀ f, E f → E' f)
    (hQ : ∀ a h, g ≤ h → h.Sound defs → Q a h → Q' a h) : Returns defs g work E' Q' where
  forgetful := hwork.forgetful
  error f hf := hE f (hwork.error f hf)
  ok := by
    intro a h heq
    obtain ⟨hgh, hh, ha⟩ := hwork.ok a h heq
    exact ⟨hgh, hh, hQ a h hgh hh ha⟩

theorem and {Q' : α → Graph → Prop} (hwork : Returns defs g work E Q)
    (hwork' : Returns defs g work E' Q') : Returns defs g work E fun a h => Q a h ∧ Q' a h where
  forgetful := hwork.forgetful
  error := hwork.error
  ok := by
    intro a h heq
    obtain ⟨hgh, hh, ha⟩ := hwork.ok a h heq
    exact ⟨hgh, hh, ha, (hwork'.ok a h heq).2.2⟩

theorem exact (hwork : Returns defs g work E Q) :
    Returns defs g work E fun a h => Q a h ∧ work g = .ok (a, h) where
  forgetful := hwork.forgetful
  error := hwork.error
  ok := by
    intro a h heq
    obtain ⟨hgh, hh, ha⟩ := hwork.ok a h heq
    exact ⟨hgh, hh, ha, heq⟩

theorem admissible {p q : Prop} (hwork : Returns defs g work (Fault.Admissible p) Q)
    (hqp : q → p) : Returns defs g work (Fault.Admissible q) Q :=
  hwork.mono (fun _ hf => hf.mono hqp) fun _ _ _ _ ha => ha

theorem map {f : α → β} (hwork : Returns defs g work E Q)
    (hR : ∀ a h, g ≤ h → h.Sound defs → Q a h → R (f a) h) :
    Returns defs g (f <$> work) E R := by
  rw [map_eq_pure_bind]
  refine hwork.bind ?_
  intro a h hgh hh ha
  exact .pure hh (hR a h hgh hh ha)

theorem read {next : { n : Node // n.Below id } → GraphM β}
    (hnext : ∀ n (below : n.Below id), g.store.node id = n → Returns defs g (next ⟨n, below⟩) E R) :
    Returns defs g (Graph.read id >>= next) E R := by
  have hnode := hnext _ (g.store.node_below id) rfl
  exact ⟨hnode.forgetful, hnode.error, hnode.ok⟩

theorem get {next : Graph → GraphM β} (hforgetful : next g.forgetful = next g)
    (hnext : Returns defs g (next g) E R) : Returns defs g (MonadState.get >>= next) E R where
  forgetful := by
    have hrun (g : Graph) : (MonadState.get >>= next) g = next g g := rfl
    rw [hrun, hrun, hforgetful]
    exact hnext.forgetful
  error := hnext.error
  ok := hnext.ok

theorem follow {r : RefId} {next : { a : ExprId // defs.target? r = some a } → GraphM β}
    (hnone : defs.target? r = none → E (.undefinedReference (defs.name r)))
    (hsome : ∀ a (h : defs.target? r = some a), Returns defs g (next ⟨a, h⟩) E R) :
    Returns defs g (liftM (defs.follow r) >>= next) E R := by
  rcases Option.eq_none_or_eq_some (defs.target? r) with htarget | ⟨a, htarget⟩
  . rw [Definitions.follow_of_target?_eq_none htarget]
    have hE := hnone htarget
    refine ⟨rfl, ?_, ?_⟩
    . rintro _ ⟨⟩
      exact hE
    . intro b h heq
      cases heq
  . rw [Definitions.follow_of_target? htarget]
    have hnext := hsome a htarget
    exact ⟨hnext.forgetful, hnext.error, hnext.ok⟩

end Returns

namespace Yields

variable {work : Definitions → GraphM α} {next : Definitions → α → GraphM β}
variable {Q : α → Graph → Prop} {R : β → Graph → Prop}

theorem pure {a : α} (hg : g.Sound defs) (ha : Q a g) :
    Yields defs g (fun _ => Pure.pure a) E Q :=
  Returns.pure hg ⟨ha, fun _ _ _ _ => rfl⟩

theorem throw {f : Definitions → Fault} (hf : E (f defs)) :
    Yields defs g (fun defs => (throw (f defs) : GraphM α)) E Q :=
  Returns.throw hf

theorem bind (hwork : Yields defs g work E Q)
    (hnext : ∀ a h, g ≤ h → h.Sound defs → Q a h → Yields defs h (next · a) E R) :
    Yields defs g (fun defs => work defs >>= next defs) E R := by
  have hrun (defs : Definitions) (g : Graph) :
      (work defs >>= next defs) g = (work defs g).bind fun p => next defs p.1 p.2 := rfl
  have hbind : Returns defs g (work defs >>= next defs) E R := by
    refine Returns.bind hwork ?_
    intro a h hgh hh ha
    exact Returns.mono (hnext a h hgh hh ha.1) (fun _ hf => hf) fun _ _ _ _ hb => hb.1
  refine ⟨hbind.forgetful, hbind.error, ?_⟩
  intro b k hk
  obtain ⟨hgk, hkSound, hb⟩ := hbind.ok b k hk
  refine ⟨hgk, hkSound, hb, ?_⟩
  intro defs' u hdefs hku
  dsimp only at hk ⊢
  cases hw : work defs g with
  | error f =>
    rw [hrun, hw] at hk
    cases hk
  | ok p =>
    obtain ⟨a, h⟩ := p
    rw [hrun, hw] at hk
    obtain ⟨hgh, hh, ha, hagain⟩ := Returns.ok hwork a h hw
    obtain ⟨hhk, -, -, hagain'⟩ := Returns.ok (hnext a h hgh hh ha) b k hk
    rw [hrun, hagain defs' u hdefs (le_trans hhk hku)]
    exact hagain' defs' u hdefs hku

theorem mono {Q' : α → Graph → Prop} (hwork : Yields defs g work E Q) (hE : ∀ f, E f → E' f)
    (hQ : ∀ a h, g ≤ h → h.Sound defs → Q a h → Q' a h) : Yields defs g work E' Q' :=
  Returns.mono hwork hE fun a h hgh hh ha => ⟨hQ a h hgh hh ha.1, ha.2⟩

theorem admissible {p q : Prop} (hwork : Yields defs g work (Fault.Admissible p) Q)
    (hqp : q → p) : Yields defs g work (Fault.Admissible q) Q :=
  hwork.mono (fun _ hf => hf.mono hqp) fun _ _ _ _ ha => ha

theorem returns (hwork : Yields defs g work E Q) : Returns defs g (work defs) E Q :=
  Returns.mono hwork (fun _ hf => hf) fun _ _ _ _ ha => ha.1

theorem again (hwork : Yields defs g work E Q) {a : α} (heq : work defs g = .ok (a, h))
    (hdefs : defs ≤ defs') (hu : h ≤ u) : work defs' u = .ok (a, u) :=
  (Returns.ok hwork a h heq).2.2.2 defs' u hdefs hu

theorem congr {work' : Definitions → GraphM α} (hwork : Yields defs g work E Q)
    (heq : ∀ defs', defs ≤ defs' → work' defs' = work defs') : Yields defs g work' E Q := by
  refine ⟨?_, ?_, ?_⟩ <;> rw [heq defs le_rfl]
  . exact hwork.forgetful
  . exact hwork.error
  . intro a h hw
    obtain ⟨hgh, hh, ha, hagain⟩ := Returns.ok hwork a h hw
    refine ⟨hgh, hh, ha, fun defs' u hdefs hu => ?_⟩
    rw [heq defs' hdefs]
    exact hagain defs' u hdefs hu

theorem read {next : Definitions → { n : Node // n.Below id } → GraphM β} (hid : id ∈ g.store)
    (hnext : ∀ n (below : n.Below id), g.store.node id = n →
      Yields defs g (next · ⟨n, below⟩) E R) :
    Yields defs g (fun defs => Graph.read id >>= next defs) E R := by
  have hfound := hnext _ (g.store.node_below id) rfl
  refine ⟨hfound.forgetful, hfound.error, ?_⟩
  intro b k hk
  obtain ⟨hgk, hkSound, hb, hagain⟩ := hfound.ok b k hk
  refine ⟨hgk, hkSound, hb, ?_⟩
  intro defs' u hdefs hku
  have hnode := Store.node_of_le (store_le (le_trans hgk hku)) hid
  have hread : (⟨u.store.node id, u.store.node_below id⟩ : { n : Node // n.Below id }) =
      ⟨g.store.node id, g.store.node_below id⟩ := Subtype.ext hnode
  calc (Graph.read id >>= next defs') u
    _ = next defs' ⟨u.store.node id, u.store.node_below id⟩ u := rfl
    _ = next defs' ⟨g.store.node id, g.store.node_below id⟩ u := by rw [hread]
    _ = .ok (b, u) := hagain defs' u hdefs hku

theorem follow {r : RefId} (next : Definitions → ExprId → GraphM β)
    (hnone : defs.target? r = none → E (.undefinedReference (defs.name r)))
    (hsome : ∀ a, defs.target? r = some a → Yields defs g (next · a) E R) :
    Yields defs g (fun defs => liftM (defs.follow r) >>= fun a => next defs a.val) E R := by
  cases htarget : defs.target? r with
  | none =>
    refine Returns.follow hnone ?_
    intro a ha
    rw [htarget] at ha
    cases ha
  | some a =>
    have hnext := hsome a htarget
    have hrun (defs' : Definitions) (hdefs : defs ≤ defs') (g : Graph) :
        (liftM (defs'.follow r) >>= fun a => next defs' a.val : GraphM β) g = next defs' a g := by
      rw [Definitions.follow_of_target? (Definitions.target?_of_le hdefs htarget)]
      rfl
    refine ⟨?_, ?_, ?_⟩ <;> dsimp only
    . rw [hrun defs le_rfl, hrun defs le_rfl]
      exact hnext.forgetful
    . rw [hrun defs le_rfl]
      exact hnext.error
    . intro b k hk
      rw [hrun defs le_rfl] at hk
      obtain ⟨hgk, hkSound, hb, hagain⟩ := hnext.ok b k hk
      refine ⟨hgk, hkSound, hb, ?_⟩
      intro defs' u hdefs hku
      rw [hrun defs' hdefs]
      exact hagain defs' u hdefs hku

end Yields

theorem intern_apply (n : Node) (g : Graph) :
    intern n g = (g.store.intern g.settings.limit n).map fun p => (p.1, { g with store := p.2 }) := by
  unfold intern
  cases g.store.intern g.settings.limit n <;> rfl

theorem intern_yields {n : Node} (hg : g.Sound defs) (hn : ∀ c ∈ n.children, c ∈ g.store)
    (hsimplified : n.isCompound → g.store.Simplified n) :
    Yields defs g (fun _ => intern n) (Fault.Admissible True)
      fun id h => id ∈ h.store ∧ h.store.node id = n := by
  have hrun := intern_apply n
  refine ⟨?_, ?_, ?_⟩ <;> dsimp only
  . rw [hrun, hrun, forgetful_store, forgetful_limit]
    cases g.store.intern g.settings.limit n <;> rfl
  . intro f hf
    rw [hrun] at hf
    cases hs : g.store.intern g.settings.limit n with
    | error f' =>
      rw [hs] at hf
      cases hf
      rw [(Store.intern_eq_error hs hn).1]
      trivial
    | ok p =>
      rw [hs] at hf
      cases hf
  . intro id h heq
    rw [hrun] at heq
    cases hs : g.store.intern g.settings.limit n with
    | error f =>
      rw [hs] at heq
      cases heq
    | ok p =>
      obtain ⟨i, t⟩ := p
      rw [hs] at heq
      cases heq
      obtain ⟨ht, hfind⟩ := Store.intern_eq_ok hs
      have hroom : t.size ≤ g.settings.limit + 1 := by
        rcases Store.intern_grows hs with rfl | ⟨hlimit, hsize, _⟩
        . exact hg.room
        . omega
      have hnormal := hg.normal.intern hs hn hsimplified
      refine ⟨⟨ht, fun _ _ hb => hb, rfl⟩, hg.withStore ht hnormal hroom, ?_, ?_⟩
      . exact ⟨Store.mem_of_find? hfind, Store.node_eq_of_find? hfind⟩
      . intro _ u _ hu
        rw [hrun, Store.intern_of_find? (Store.find?_of_le (store_le hu) hfind)]
        rfl

end Graph

end TreeGrammar
