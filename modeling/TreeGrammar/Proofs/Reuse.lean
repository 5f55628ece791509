import TreeGrammar.Proofs.Inquiry

/-!
This module contains when the searches for the attributes that several expressions demand may share
what they remember: if the expressions have nothing in common that recurs. Where a search comes back
to a reference that it is following, nothing is demanded. What it finds out of other expressions on
the way rests on that, and is not right for a search that starts with one of them.
-/

namespace TreeGrammar

open Relation

/--
The two expressions expose one in common that its own parts lead back to.
-/
def ShareRecursion (s : Store) (defs : Definitions) (a b : ExprId) : Prop :=
  ∃ x, ReflTransGen (Exposes s defs) x a ∧ ReflTransGen (Exposes s defs) x b ∧ Recurs s defs x

theorem Guarded.of_children {s : Store} {defs : Definitions} {id : ExprId}
    (hr : ∀ r, s.node id ≠ .reference r) (h : ∀ a ∈ (s.node id).children, Guarded s defs a) :
    Guarded s defs id := by
  refine .intro (fun r hn => absurd hn (hr r)) ?_
  rintro a (⟨_, ha⟩ | ⟨hn, _⟩)
  . exact h a ha
  . exact absurd hn (hr _)

theorem not_shareRecursion_of_guarded {s : Store} {defs : Definitions} {a b : ExprId}
    (h : Guarded s defs a ∨ Guarded s defs b) : ¬ ShareRecursion s defs a b := by
  rintro ⟨x, ha, hb, hx⟩
  rcases h with h | h
  . exact h.not_recurs (hx.of_reflTransGen ha)
  . exact h.not_recurs (hx.of_reflTransGen hb)

namespace Graph

/--
Wherever a search for the expression starts, and with nothing to go by, it finds the result.
-/
def Certain (s : Store) (defs : Definitions) (g : Graph) (id r : ExprId) : Prop :=
  ∀ u visiting, g ≤ u → u.forgetful.Sound defs → Followed s defs visiting id →
    ∃ m, (requiredFrom defs visiting id).run ∅ u = .ok ((r, m), u)

structure Reliable (s : Store) (defs : Definitions) (g : Graph) (m : Results) : Prop where
  stored : Stored g.store m
  certain : ∀ x r : ExprId, m[x]? = some r → ¬ Recurs s defs x → Certain s defs g x r

structure Twin (s : Store) (defs : Definitions) (id : ExprId) (g : Graph) (m m' : Results) :
    Prop where
  left : Reliable s defs g m
  right : Reliable s defs g m'
  agree : ∀ x : ExprId, ReflTransGen (Exposes s defs) x id → Recurs s defs x → m[x]? = m'[x]?

inductive Alike (Q : ExprId → Graph → Results → Results → Prop) :
    (ending ending' : Except Fault ((ExprId × Results) × Graph)) → Prop where
  | fault (f : Fault) : Alike Q (.error f) (.error f)
  | answer {r : ExprId} {h : Graph} {m m' : Results} : Q r h m m' →
    Alike Q (.ok ((r, m), h)) (.ok ((r, m'), h))

/--
Searches for the expression end alike if they remember alike. If nothing in the expression recurs,
they need not be following the same references.
-/
def Steady (s : Store) (defs : Definitions) (visiting : List RefId) (id : ExprId) : Prop :=
  ∀ ⦃visiting' : List RefId⦄ ⦃g : Graph⦄ ⦃m m' : Results⦄, s ≤ g.store → g.forgetful.Sound defs →
    Followed s defs visiting' id → visiting = visiting' ∨ ¬ Recurs s defs id →
    Twin s defs id g m m' → Alike (fun _ => Twin s defs id)
      ((requiredFrom defs visiting id).run m g) ((requiredFrom defs visiting' id).run m' g)

def Reusable (s : Store) (defs : Definitions) (g : Graph) (m : Results) (id : ExprId) : Prop :=
  (∃ r, m[id]? = some r ∧ ∀ u, g ≤ u → ∃ n, (required defs id).run ∅ u = .ok ((r, n), u)) ∨
    ∀ x : ExprId, ReflTransGen (Exposes s defs) x id → Recurs s defs x → m[x]? = none

variable {s : Store} {defs : Definitions} {visiting visiting' : List RefId} {id a b p q r : ExprId}
variable {g h u : Graph} {m m' : Results}

theorem Certain.of_le (h : Certain s defs g id r) (hgu : g ≤ u) : Certain s defs u id r :=
  fun v visiting huv => h v visiting (le_trans hgu huv)

namespace Reliable

theorem empty : Reliable s defs g ∅ where
  stored := .empty
  certain := by simp

theorem of_le (h : Reliable s defs g m) (hgu : g ≤ u) : Reliable s defs u m where
  stored := h.stored.of_le (store_le hgu)
  certain x r hr hx := (h.certain x r hr hx).of_le hgu

theorem insert (h : Reliable s defs g m) (hr : r ∈ g.store)
    (hid : ¬ Recurs s defs id → Certain s defs g id r) : Reliable s defs g (m.insert id r) where
  stored := h.stored.insert hr
  certain := forall_getElem?_insert h.certain hid

end Reliable

namespace Twin

theorem of_not_recurs (hm : Reliable s defs g m) (hm' : Reliable s defs g m')
    (hid : ¬ Recurs s defs id) : Twin s defs id g m m' where
  left := hm
  right := hm'
  agree _ hx hrecurs := absurd (Recurs.of_reflTransGen hrecurs hx) hid

theorem of_le (h : Twin s defs id g m m') (hgu : g ≤ u) : Twin s defs id u m m' where
  left := h.left.of_le hgu
  right := h.right.of_le hgu
  agree := h.agree

theorem part (h : Twin s defs id g m m') (ha : Exposes s defs a id) : Twin s defs a g m m' where
  left := h.left
  right := h.right
  agree x hx := h.agree x (hx.tail ha)

theorem insert (h : Twin s defs id g m m') (hr : r ∈ g.store)
    (hid : ¬ Recurs s defs id → Certain s defs g id r) :
    Twin s defs id g (m.insert id r) (m'.insert id r) where
  left := h.left.insert hr hid
  right := h.right.insert hr hid
  agree := by
    intro x hx hrecurs
    rw [getElem?_insert, getElem?_insert, h.agree x hx hrecurs]

theorem whole {work work' : MemoM ExprId} {n n' : Results} (hn : Twin s defs a h n n')
    (hm : Twin s defs id g m m') (hwork : Lasts s defs a work m g (r, n) h)
    (hwork' : Lasts s defs a work' m' g (r, n') h) : Twin s defs id h n n' where
  left := hn.left
  right := hn.right
  agree := by
    intro x hx hrecurs
    by_cases hxa : ReflTransGen (Exposes s defs) x a
    . exact hn.agree x hxa hrecurs
    . have hleft := (hwork.frame x).resolve_right fun hx => hxa hx.2
      have hright := (hwork'.frame x).resolve_right fun hx => hxa hx.2
      exact hleft.trans ((hm.agree x hx hrecurs).trans hright.symm)

end Twin

namespace Alike

variable {Q R : ExprId → Graph → Results → Results → Prop}
variable {x y : Except Fault ((ExprId × Results) × Graph)}

theorem mono (h : Alike Q x y) (hQR : ∀ r k n n', x = .ok ((r, n), k) → y = .ok ((r, n'), k) →
    Q r k n n' → R r k n n') : Alike R x y := by
  cases h with
  | fault f => exact .fault f
  | answer hq => exact .answer (hQR _ _ _ _ rfl rfl hq)

theorem bind {work work' : GraphM (ExprId × Results)}
    {next next' : ExprId × Results → GraphM (ExprId × Results)} (h : Alike Q (work g) (work' g))
    (hnext : ∀ r k n n', Q r k n n' → Alike R (next (r, n) k) (next' (r, n') k)) :
    Alike R ((work >>= next) g) ((work' >>= next') g) := by
  change Alike R ((work g).bind fun p => next p.1 p.2) ((work' g).bind fun p => next' p.1 p.2)
  generalize work g = x at h ⊢
  generalize work' g = y at h ⊢
  cases h with
  | fault f => exact .fault f
  | answer hq => exact hnext _ _ _ _ hq

theorem lift (work : GraphM ExprId) (hQ : ∀ r h, work g = .ok (r, h) → Q r h m m') :
    Alike Q ((liftM work : MemoM ExprId).run m g) ((liftM work : MemoM ExprId).run m' g) := by
  rw [run_lift_memo, run_lift_memo]
  change Alike Q ((work g).bind _) ((work g).bind _)
  cases hwork : work g with
  | error f => exact .fault f
  | ok p => exact .answer (hQ p.1 p.2 hwork)

theorem join {z : Except Fault ((ExprId × Results) × Graph)}
    (hy : Alike (fun _ k _ n => Reliable s defs k n) x y)
    (hz : Alike (fun _ k _ n => Reliable s defs k n) x z) (hid : ¬ Recurs s defs id) :
    Alike (fun _ => Twin s defs id) y z := by
  cases hy with
  | fault f =>
    cases hz
    exact .fault f
  | answer hy =>
    cases hz with
    | answer hz => exact .answer (.of_not_recurs hy hz hid)

theorem exists_eq_ok (h : Alike Q (.ok ((r, m), g)) y) : ∃ m', y = .ok ((r, m'), g) := by
  cases h with
  | answer => exact ⟨_, rfl⟩

end Alike

section Parts

variable (hwithin : defs.Within s) (hid : id ∈ s) (hv : Followed s defs visiting id)
variable (ih : ∀ next a, defs.reach next a < defs.reach visiting id → a ∈ s →
  Followed s defs next a → Steady s defs next a)
variable (hs : s ≤ g.store) (hg : g.forgetful.Sound defs) (hv' : Followed s defs visiting' id)
variable (hsame : visiting = visiting' ∨ ¬ Recurs s defs id) (hm : Twin s defs id g m m')

include hwithin hid hv ih hs hg hv' hsame hm

theorem pursue_alike : Alike (fun _ => Twin s defs id)
    ((pursue defs visiting (inquiry defs visiting id (s.node id))).run m g)
    ((pursue defs visiting' (inquiry defs visiting' id (s.node id))).run m' g) := by
  have part {next next' : List RefId} {a : ExprId} {k : Graph} {n n' : Results}
      (ha : Exposes s defs a id) (hlt : defs.reach next a < defs.reach visiting id)
      (hnext : Followed s defs next a) (hnext' : Followed s defs next' a)
      (hsame : next = next' ∨ ¬ Recurs s defs a) (hsk : s ≤ k.store) (hk : k.forgetful.Sound defs)
      (hn : Twin s defs id k n n') :
      Alike (fun r l o o' => k ≤ l ∧ l.forgetful.Sound defs ∧ r ∈ l.store ∧ Twin s defs id l o o')
        ((requiredFrom defs next a).run n k) ((requiredFrom defs next' a).run n' k) := by
    have has := ha.1.mem hwithin hid
    refine (ih next a hlt has hnext hsk hk hnext' hsame (hn.part ha)).mono ?_
    intro r l o o' hr hr' ho
    have hfirst := requiredFrom_lasting hwithin next a has hnext hsk hk hn.left.stored _ _ hr
    have hsecond := requiredFrom_lasting hwithin next' a has hnext' hsk hk hn.right.stored _ _ hr'
    exact ⟨hfirst.le, hfirst.sound, hfirst.mem, ho.whole hn hfirst hsecond⟩
  have hparallel := inquiry_parallel hv hv' hsame
  generalize inquiry defs visiting id (s.node id) = i at hparallel ⊢
  generalize inquiry defs visiting' id (s.node id) = i' at hparallel ⊢
  cases hparallel with
  | fault f => exact .fault f
  | answer => exact .answer hm
  | other ha hnext hnext' hsame hlt =>
    exact (part ha hlt hnext hnext' hsame hs hg hm).mono fun _ _ _ _ _ _ h => h.2.2.2
  | @operands j a b ha hb hlta hltb =>
    have below {c : ExprId} (hlt : c.index < id.index) :
        defs.reach visiting c < defs.reach visiting id := Definitions.reach_child_lt hlt
    have still {c : ExprId} (hc : Exposes s defs c id) : visiting = visiting' ∨ ¬ Recurs s defs c :=
      hsame.imp_right (mt (Recurs.part · hc))
    rw [pursue, pursue, StateT.run_bind, StateT.run_bind]
    refine (part ha (below hlta) (hv.part ha) (hv'.part ha) (still ha) hs hg hm).bind ?_
    rintro p k n n' ⟨hgk, hk, hp, hn⟩
    have hsk := le_trans hs (store_le hgk)
    rw [StateT.run_bind, StateT.run_bind]
    refine (part hb (below hltb) (hv.part hb) (hv'.part hb) (still hb) hsk hk hn).bind ?_
    rintro q l o o' ⟨hkl, hl, hq, ho⟩
    refine .lift _ fun r v hr => ho.of_le ?_
    have hyields := (conclude_yields j hl (Store.mem_of_le (store_le hkl) hp) hq).returns
    exact ((conclude_blind j).ok_of_returns hyields hr).1

theorem requiredFrom_alike_of_new (hnew : m[id]? = none) (hnew' : m'[id]? = none) :
    Alike (fun r k n n' => r ∈ k.store ∧ ∃ o o', Twin s defs id k o o' ∧ n = o.insert id r ∧
      n' = o'.insert id r) ((requiredFrom defs visiting id).run m g)
      ((requiredFrom defs visiting' id).run m' g) := by
  have hlasting := requiredFrom_lasting hwithin visiting id hid hv hs hg hm.left.stored
  have halike : Alike (fun r k n n' => ∃ o o', Twin s defs id k o o' ∧ n = o.insert id r ∧
      n' = o'.insert id r) ((requiredFrom defs visiting id).run m g)
      ((requiredFrom defs visiting' id).run m' g) := by
    rw [requiredFrom_of_new hid hs hnew, requiredFrom_of_new hid hs hnew']
    refine (pursue_alike hwithin hid hv ih hs hg hv' hsame hm).bind fun _ _ o o' ho => ?_
    exact .answer ⟨o, o', ho, rfl, rfl⟩
  exact halike.mono fun r k n n' hr _ hn => ⟨(hlasting _ _ hr).mem, hn⟩

end Parts

/--
All searches that remember alike end alike.
-/
theorem requiredFrom_steady (hwithin : defs.Within s) (visiting : List RefId) (id : ExprId)
    (hid : id ∈ s) (hv : Followed s defs visiting id) : Steady s defs visiting id := by
  have hnew {visiting' : List RefId} {g : Graph} {m m' : Results} (hs : s ≤ g.store)
      (hg : g.forgetful.Sound defs) (hv' : Followed s defs visiting' id)
      (hsame : visiting = visiting' ∨ ¬ Recurs s defs id) (hm : Twin s defs id g m m') :=
    requiredFrom_alike_of_new hwithin hid hv
      (fun next a _ has hnext => requiredFrom_steady hwithin next a has hnext) hs hg hv' hsame hm
  intro visiting' g m m' hs hg hv' hsame hm
  -- what recurs is remembered by both of the searches or by neither
  by_cases hrecurs : Recurs s defs id
  . have hagree := hm.agree id .refl hrecurs
    cases hr : m[id]? with
    | some r =>
      rw [requiredFrom_of_known hr, requiredFrom_of_known (hagree.symm.trans hr)]
      exact .answer hm
    | none =>
      refine (hnew hs hg hv' hsame hm hr (hagree.symm.trans hr)).mono ?_
      rintro r k _ _ _ _ ⟨hmem, o, o', ho, rfl, rfl⟩
      exact ho.insert hmem (absurd hrecurs)
  . have hcertain {k : Graph} {o : Results} {r : ExprId}
        (hrun : (requiredFrom defs visiting id).run ∅ g = .ok ((r, o), k)) :
        Certain s defs k id r := by
      intro u visiting'' hku hu hv''
      have hlasts := requiredFrom_lasting hwithin visiting id hid hv hs hg .empty _ _ hrun
      have hsu := le_trans hs (store_le (le_trans hlasts.le hku))
      have halike := hnew hsu hu hv'' (Or.inr hrecurs) (.of_not_recurs .empty .empty hrecurs)
        (by simp) (by simp)
      rw [hlasts.again u hku] at halike
      exact halike.exists_eq_ok
    -- otherwise one of them may remember it, so each is compared with one that remembers nothing
    have hfresh {visiting' : List RefId} {n : Results} (hv' : Followed s defs visiting' id)
        (hn : Reliable s defs g n) : Alike (fun _ k _ n => Reliable s defs k n)
          ((requiredFrom defs visiting id).run ∅ g) ((requiredFrom defs visiting' id).run n g) := by
      cases hr : n[id]? with
      | some r =>
        obtain ⟨o, ho⟩ := hn.certain id r hr hrecurs g visiting le_rfl hg hv
        rw [ho, requiredFrom_of_known hr]
        exact .answer hn
      | none =>
        refine (hnew hs hg hv' (Or.inr hrecurs) (.of_not_recurs .empty hn hrecurs) (by simp)
          hr).mono ?_
        rintro r k _ _ hrun _ ⟨hmem, o, o', ho, rfl, rfl⟩
        exact ho.right.insert hmem fun _ => hcertain hrun
    exact (hfresh hv hm.left).join (hfresh hv' hm.right) hrecurs
termination_by defs.reach visiting id

namespace Reusable

theorem alike (h : Reusable s defs g m id) (hwithin : defs.Within s) (hid : id ∈ s)
    (hs : s ≤ g.store) (hg : g.forgetful.Sound defs) (hm : Reliable s defs g m) :
    Alike (fun _ k n _ => Reliable s defs k n) ((required defs id).run m g)
      ((required defs id).run ∅ g) := by
  rcases h with ⟨r, hr, hfresh⟩ | hnone
  . obtain ⟨n, hn⟩ := hfresh g le_rfl
    rw [hn, required, requiredFrom_of_known hr]
    exact .answer hm
  . have hsteady := requiredFrom_steady hwithin [] id hid .nil
    refine (hsteady hs hg .nil (Or.inl rfl) ⟨hm, .empty, ?_⟩).mono fun _ _ _ _ _ _ h => h.left
    intro x hx hrecurs
    rw [hnone x hx hrecurs]
    simp

theorem next {n n' : Results} (h : Reusable s defs g m a) (hwithin : defs.Within s) (hid : id ∈ s)
    (hs : s ≤ g.store) (hg : g.forgetful.Sound defs) (hm : Stored g.store m)
    (hrun : (required defs id).run m g = .ok ((r, n), u))
    (hfresh : (required defs id).run ∅ g = .ok ((r, n'), u))
    (hshare : id = a ∨ ¬ ShareRecursion s defs id a) : Reusable s defs u n a := by
  have hlasts := requiredFrom_lasting hwithin [] id hid .nil hs hg hm _ _ hrun
  rcases hshare with rfl | hshare
  . have hagain := requiredFrom_lasting hwithin [] id hid .nil hs hg .empty _ _ hfresh
    have hr : n[id]? = some r := getElem?_of_requiredFrom (Store.mem_of_le hs hid) hrun
    exact Or.inl ⟨r, hr, fun v hv => ⟨n', hagain.again v hv⟩⟩
  . rcases h with ⟨q, hq, hknown⟩ | hnone
    . refine Or.inl ⟨q, ?_, fun v hv => hknown v (le_trans hlasts.le hv)⟩
      rcases hlasts.frame a with ha | ⟨hnew, _⟩
      . exact ha.trans hq
      . rw [hq] at hnew
        cases hnew
    . refine Or.inr fun x hx hrecurs => ?_
      rcases hlasts.frame x with hsame | ⟨_, hid⟩
      . exact hsame.trans (hnone x hx hrecurs)
      . exact absurd ⟨x, hid, hx, hrecurs⟩ hshare

end Reusable

theorem mapM_run'_required_cons (defs : Definitions) (id : ExprId) (ids : List ExprId) :
    ((id :: ids).mapM fun id => (required defs id).run' ∅) = do
      let (r, _) ← (required defs id).run ∅
      let rs ← ids.mapM fun id => (required defs id).run' ∅
      return r :: rs := by
  simp [StateT.run'_eq]

theorem mapM_required_run' (hwithin : defs.Within s) {ids : List ExprId} (hids : ∀ id ∈ ids, id ∈ s)
    (hshare : ids.Pairwise fun a b => a = b ∨ ¬ ShareRecursion s defs a b)
    (hs : s ≤ g.store) (hg : g.forgetful.Sound defs) (hm : Reliable s defs g m)
    (hreusable : ∀ id ∈ ids, Reusable s defs g m id) :
    (ids.mapM (required defs)).run' m g = (ids.mapM fun id => (required defs id).run' ∅) g := by
  induction ids generalizing g m with
  | nil => rfl
  | cons id ids ih =>
    rw [List.pairwise_cons] at hshare
    have hid := hids id List.mem_cons_self
    have halike := (hreusable id List.mem_cons_self).alike hwithin hid hs hg hm
    have hleft : ((id :: ids).mapM (required defs)).run' m = do
        let (r, m) ← (required defs id).run m
        let rs ← (ids.mapM (required defs)).run' m
        return r :: rs := by
      simp [StateT.run'_eq]
    rw [hleft, mapM_run'_required_cons]
    change ((required defs id).run m g).bind _ = ((required defs id).run ∅ g).bind _
    generalize hrun : (required defs id).run m g = x at halike ⊢
    generalize hfresh : (required defs id).run ∅ g = y at halike ⊢
    cases halike with
    | fault f => rfl
    | @answer r k n n' hn =>
      have hlasts := requiredFrom_lasting hwithin [] id hid .nil hs hg hm.stored _ _ hrun
      have hrest : (ids.mapM (required defs)).run' n k =
          (ids.mapM fun id => (required defs id).run' ∅) k := by
        refine ih (fun a ha => hids a (List.mem_cons_of_mem id ha)) hshare.2
          (le_trans hs (store_le hlasts.le)) hlasts.sound hn fun a ha => ?_
        exact (hreusable a (List.mem_cons_of_mem id ha)).next hwithin hid hs hg hm.stored hrun
          hfresh (hshare.1 a ha)
      change ((ids.mapM (required defs)).run' n k).bind _ =
        ((ids.mapM fun id => (required defs id).run' ∅) k).bind _
      rw [hrest]

theorem forall₂_of_mapM_required {ids rs : List ExprId} (hg : g.forgetful.Sound defs)
    (hids : ∀ id ∈ ids, id ∈ g.store)
    (hrun : (ids.mapM fun id => (required defs id).run' ∅) g = .ok (rs, h)) :
    g ≤ h ∧ List.Forall₂ (fun id r =>
      ∀ u, h ≤ u → (required defs id).run' ∅ u = .ok (r, u)) ids rs := by
  induction ids generalizing g rs with
  | nil =>
    cases hrun
    exact ⟨le_rfl, .nil⟩
  | cons id ids ih =>
    rw [mapM_run'_required_cons] at hrun
    obtain ⟨⟨r, n⟩, k, hfirst, hrun⟩ := bind_eq_ok hrun
    obtain ⟨rest, l, hrest, hpure⟩ := bind_eq_ok hrun
    cases hpure
    have hid : id ∈ g.store := hids id List.mem_cons_self
    have hs : g.store ≤ g.store := le_rfl
    have hlasts := requiredFrom_lasting hg.within [] id hid .nil hs hg .empty _ _ hfirst
    have hmem (a : ExprId) (ha : a ∈ ids) : a ∈ k.store :=
      Store.mem_of_le (store_le hlasts.le) (hids a (List.mem_cons_of_mem id ha))
    obtain ⟨hle, hall⟩ := ih hlasts.sound hmem hrest
    refine ⟨le_trans hlasts.le hle, .cons (fun u hu => ?_) hall⟩
    rw [StateT.run'_eq, map_eq_pure_bind]
    exact bind_of_eq_ok (hlasts.again u (le_trans hle hu))

end Graph

namespace Schema

variable {s : Schema} {ids : List ExprId}

/--
It makes no difference to what several expressions demand whether the searches for it share what
they remember, if no two of the expressions share something that recurs. In the end, each search
finds the same again when it is on its own.
-/
theorem required_reuse (hs : s.Arises) (hids : ∀ id ∈ ids, id ∈ s.graph.store)
    (hshare : ids.Pairwise fun a b => a = b ∨ ¬ ShareRecursion s.graph.store s.definitions a b) :
    onGraph (fun defs => (ids.mapM (Graph.required defs)).run' ∅) s =
      onGraph (fun defs => ids.mapM fun id => (Graph.required defs id).run' ∅) s ∧
    ∀ rs t, onGraph (fun defs => (ids.mapM (Graph.required defs)).run' ∅) s = .ok (rs, t) →
      List.Forall₂ (fun id r =>
        onGraph (fun defs => (Graph.required defs id).run' ∅) t = .ok (r, t)) ids rs := by
  have hg : s.graph.forgetful.Sound s.definitions := hs.sound
  have hrun := Graph.mapM_required_run' (g := s.graph) hg.within hids hshare le_rfl hg .empty
    fun id _ => Or.inr fun x _ _ => by simp
  have heq : onGraph (fun defs => (ids.mapM (Graph.required defs)).run' ∅) s =
      onGraph (fun defs => ids.mapM fun id => (Graph.required defs id).run' ∅) s := by
    rw [onGraph_apply, onGraph_apply, hrun]
  refine ⟨heq, ?_⟩
  intro rs t ht
  obtain ⟨hok, hdefs⟩ := onGraph_eq_ok (heq ▸ ht)
  have hagain := (Graph.forall₂_of_mapM_required hg hids hok).2
  refine hagain.imp fun id r hr => ?_
  rw [← hdefs] at hr
  rw [onGraph_apply, hr t.graph le_rfl]
  rfl

/--
A reference `q` that leads back to itself, and an expression `x` that has the attribute `a` in
common with it.
-/
theorem required_reuse_attributes :
    ∃ (s : Schema) (q x a : ExprId), s.Arises ∧ Recurs s.graph.store s.definitions q ∧
      ReflTransGen (Exposes s.graph.store s.definitions) a q ∧
      ReflTransGen (Exposes s.graph.store s.definitions) a x ∧
      onGraph (fun defs => ([q, x, q].mapM (Graph.required defs)).run' ∅) s =
        onGraph (fun defs => [q, x, q].mapM fun id => (Graph.required defs id).run' ∅) s := by
  obtain ⟨v, hv, hp⟩ := Session.Reachable.of_leadsTo (fun _ => .string)
    [.bind "q" (.reference "q"), .bind "a" (.attribute (.only ⟨"", "a"⟩) .anyString),
      .bind "b" (.attribute (.only ⟨"", "b"⟩) .anyString),
      .define (.variable "q")
        (.sequence (.choice (.variable "a") (.variable "q")) (.variable "b")),
      .bind "x" (.choice (.variable "a") (.variable "b"))]
    (fun v => v.schema.graph.store.nodes = #[.epsilon, .nullSet, .anyString, .reference ⟨0⟩,
      .attribute (.only ⟨"", "a"⟩) .anyString, .attribute (.only ⟨"", "b"⟩) .anyString,
      .choice ⟨4⟩ ⟨3⟩, .sequence ⟨6⟩ ⟨5⟩, .choice ⟨4⟩ ⟨5⟩] &&
      v.schema.definitions.target? ⟨0⟩ = some ⟨7⟩)
    (by simp [Command.isLawful]) (by decide +kernel)
  simp only [Bool.and_eq_true, decide_eq_true_eq] at hp
  obtain ⟨hnodes, htarget⟩ := hp
  have hs : v.schema.Arises := .of_session hv.arises
  generalize v.schema = s at hs hnodes htarget
  have hnode (i : Nat) : s.graph.store.node ⟨i⟩ = ([.epsilon, .nullSet, .anyString,
      .reference ⟨0⟩, .attribute (.only ⟨"", "a"⟩) .anyString,
      .attribute (.only ⟨"", "b"⟩) .anyString, .choice ⟨4⟩ ⟨3⟩, .sequence ⟨6⟩ ⟨5⟩,
      .choice ⟨4⟩ ⟨5⟩] : List Node).getD i .nullSet := by
    simp [Store.node, hnodes]
  have exposes {i j : Nat} (hj : (s.graph.store.node ⟨j⟩).isCompound)
      (hi : ⟨i⟩ ∈ (s.graph.store.node ⟨j⟩).children) :
      Exposes s.graph.store s.definitions ⟨i⟩ ⟨j⟩ := .of_isCompound hj hi
  have hq : Exposes s.graph.store s.definitions ⟨7⟩ ⟨3⟩ :=
    ⟨.target (hnode 3) htarget, by simp [hnode]⟩
  have hsequence : Exposes s.graph.store s.definitions ⟨6⟩ ⟨7⟩ :=
    exposes (by simp [hnode, Node.isCompound]) (by simp [hnode, Node.children])
  have hchoice {i : Nat} (hi : i = 3 ∨ i = 4) : Exposes s.graph.store s.definitions ⟨i⟩ ⟨6⟩ :=
    exposes (by simp [hnode, Node.isCompound]) (by simp [hnode, Node.children, hi, or_comm])
  have hx : Exposes s.graph.store s.definitions ⟨4⟩ ⟨8⟩ :=
    exposes (by simp [hnode, Node.isCompound]) (by simp [hnode, Node.children])
  have hanyString : Guarded s.graph.store s.definitions .anyString :=
    .of_children_eq_nil (by simp [Node.children]) (by simp)
  have hattribute {i : Nat} (hi : i = 4 ∨ i = 5) : Guarded s.graph.store s.definitions ⟨i⟩ := by
    rcases hi with rfl | rfl <;>
      exact .of_children (by simp [hnode]) (by simpa [hnode, Node.children] using hanyString)
  have hguarded : Guarded s.graph.store s.definitions ⟨8⟩ := by
    refine .of_children (by simp [hnode]) ?_
    simpa [hnode, Node.children] using ⟨hattribute (.inl rfl), hattribute (.inr rfl)⟩
  have hshare := not_shareRecursion_of_guarded (a := ⟨3⟩) (Or.inr hguarded)
  have hshare' := not_shareRecursion_of_guarded (b := ⟨3⟩) (Or.inl hguarded)
  have hids : ∀ id ∈ ([⟨3⟩, ⟨8⟩, ⟨3⟩] : List ExprId), id ∈ s.graph.store := by
    intro id hid
    have hid : id = ⟨3⟩ ∨ id = ⟨8⟩ ∨ id = ⟨3⟩ := by simpa using hid
    rcases hid with rfl | rfl | rfl <;> exact Store.mem_of_node_ne (by simp [hnode])
  have hreuse := required_reuse hs hids (by simp [hshare, hshare'])
  refine ⟨s, ⟨3⟩, ⟨8⟩, ⟨4⟩, hs, ⟨⟨3⟩, .refl, ?_⟩, ?_, .single hx, hreuse.1⟩
  . exact .tail (.tail (.single (hchoice (.inl rfl))) hsequence) hq
  . exact .tail (.tail (.single (hchoice (.inr rfl))) hsequence) hq

/-- Here `x` is `r`, once or several times over, and demands the attribute that `r` demands. But the
search for `r` comes by `x` and remembers that nothing is demanded. -/
example : Session.leadsTo (fun _ => .string)
    [.bind "r" (.reference "r"), .bind "x" (.oneOrMore (.variable "r")),
      .bind "a" (.attribute (.only ⟨"", "a"⟩) .anyString),
      .define (.variable "r") (.sequence
        (.choice (.variable "x") (.attribute (.only ⟨"", "b"⟩) .anyString)) (.variable "a")),
      .createPicker "p", .createPicker "q"]
    (fun v => Session.yields (.pick "p" (.variable "r") none) v (fun first u =>
        first = .picked ⟨5⟩ 9 &&
          Session.yields (.pick "p" (.variable "x") none) u fun answer _ =>
            answer = .picked .epsilon 9) &&
      Session.yields (.pick "q" (.variable "x") none) v fun answer _ => answer = .picked ⟨5⟩ 9) =
    true := by
  decide +kernel

end Schema

end TreeGrammar
