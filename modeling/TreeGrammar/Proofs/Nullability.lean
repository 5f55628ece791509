import TreeGrammar.Proofs.Quotient
import TreeGrammar.Proofs.Work

/-!
This module contains the correctness of the test whether an expression accepts no content. The test
takes references on the path to be not nullable; an answer that rests on such a guess is an answer
about the expression without these references.
-/

namespace TreeGrammar

/--
The expression accepts no content, and no use of the `avoided` references is needed for it.
-/
inductive Empties (s : Store) (defs : Definitions) (avoided : List RefId) : ExprId → Prop where
  | epsilon {id} : s.node id = .epsilon → Empties s defs avoided id
  | anyString {id} : s.node id = .anyString → Empties s defs avoided id
  | choiceLeft {id a b} : s.node id = .choice a b → Empties s defs avoided a →
      Empties s defs avoided id
  | choiceRight {id a b} : s.node id = .choice a b → Empties s defs avoided b →
      Empties s defs avoided id
  | sequence {id a b} : s.node id = .sequence a b → Empties s defs avoided a →
      Empties s defs avoided b → Empties s defs avoided id
  | interleave {id a b} : s.node id = .interleave a b → Empties s defs avoided a →
      Empties s defs avoided b → Empties s defs avoided id
  | oneOrMore {id a} : s.node id = .oneOrMore a → Empties s defs avoided a →
      Empties s defs avoided id
  | mixed {id a} : s.node id = .mixed a → Empties s defs avoided a → Empties s defs avoided id
  | reference {id r target} : s.node id = .reference r → r ∉ avoided →
      defs.target? r = some target → Empties s defs avoided target → Empties s defs avoided id

namespace Empties

variable {s t : Store} {defs : Definitions} {avoided avoided' : List RefId} {id a b : ExprId}

theorem of_subset (h : Empties s defs avoided id) (hsub : avoided' ⊆ avoided) :
    Empties s defs avoided' id := by
  induction h with
  | epsilon hn => exact .epsilon hn
  | anyString hn => exact .anyString hn
  | choiceLeft hn _ ih => exact .choiceLeft hn ih
  | choiceRight hn _ ih => exact .choiceRight hn ih
  | sequence hn _ _ iha ihb => exact .sequence hn iha ihb
  | interleave hn _ _ iha ihb => exact .interleave hn iha ihb
  | oneOrMore hn _ ih => exact .oneOrMore hn ih
  | mixed hn _ ih => exact .mixed hn ih
  | reference hn hr htarget _ ih => exact .reference hn (fun h => hr (hsub h)) htarget ih

theorem avoid (h : Empties s defs avoided id) {r : RefId} {target : ExprId}
    (htarget : defs.target? r = some target) :
    Empties s defs (r :: avoided) id ∨ Empties s defs (r :: avoided) target := by
  induction h with
  | epsilon hn => exact Or.inl (.epsilon hn)
  | anyString hn => exact Or.inl (.anyString hn)
  | choiceLeft hn _ ih => exact ih.imp_left (.choiceLeft hn)
  | choiceRight hn _ ih => exact ih.imp_left (.choiceRight hn)
  | sequence hn _ _ iha ihb =>
    rcases iha with ha | ht
    . exact ihb.imp_left (.sequence hn ha)
    . exact Or.inr ht
  | interleave hn _ _ iha ihb =>
    rcases iha with ha | ht
    . exact ihb.imp_left (.interleave hn ha)
    . exact Or.inr ht
  | oneOrMore hn _ ih => exact ih.imp_left (.oneOrMore hn)
  | mixed hn _ ih => exact ih.imp_left (.mixed hn)
  | @reference id q found hn hq hfound _ ih =>
    by_cases hqr : q = r
    . rw [hqr, htarget] at hfound
      cases hfound
      exact Or.inr (ih.elim (fun h => h) fun h => h)
    . refine ih.imp_left (.reference hn ?_ hfound)
      rw [List.mem_cons, not_or]
      exact ⟨hqr, hq⟩

theorem iff_of_choice (hn : s.node id = .choice a b) :
    Empties s defs avoided id ↔ Empties s defs avoided a ∨ Empties s defs avoided b := by
  constructor
  . intro h
    cases h <;> simp_all
  . rintro (h | h)
    . exact .choiceLeft hn h
    . exact .choiceRight hn h

theorem iff_of_sequence (hn : s.node id = .sequence a b) :
    Empties s defs avoided id ↔ Empties s defs avoided a ∧ Empties s defs avoided b := by
  constructor
  . intro h
    cases h <;> simp_all
  . rintro ⟨ha, hb⟩
    exact .sequence hn ha hb

theorem iff_of_interleave (hn : s.node id = .interleave a b) :
    Empties s defs avoided id ↔ Empties s defs avoided a ∧ Empties s defs avoided b := by
  constructor
  . intro h
    cases h <;> simp_all
  . rintro ⟨ha, hb⟩
    exact .interleave hn ha hb

theorem iff_of_oneOrMore (hn : s.node id = .oneOrMore a) :
    Empties s defs avoided id ↔ Empties s defs avoided a := by
  constructor
  . intro h
    cases h <;> simp_all
  . exact .oneOrMore hn

theorem iff_of_mixed (hn : s.node id = .mixed a) :
    Empties s defs avoided id ↔ Empties s defs avoided a := by
  constructor
  . intro h
    cases h <;> simp_all
  . exact .mixed hn

theorem of_reference {r : RefId} {target : ExprId} (hn : s.node id = .reference r)
    (htarget : defs.target? r = some target) (h : Empties s defs avoided id) :
    Empties s defs (r :: avoided) target := by
  cases h with
  | reference hn' _ htarget' h =>
    rw [hn] at hn'
    cases hn'
    rw [htarget] at htarget'
    cases htarget'
    exact (h.avoid htarget).elim (fun h => h) fun h => h
  | _ => simp_all

theorem iff_nil_mem_language : Empties s defs [] id ↔ [] ∈ s.language defs id := by
  constructor
  . intro h
    induction h with
    | epsilon hn => exact .epsilon hn
    | anyString hn => exact .anyString hn (by simp)
    | choiceLeft hn _ ih => exact .choiceLeft hn ih
    | choiceRight hn _ ih => exact .choiceRight hn ih
    | sequence hn _ _ iha ihb => exact .sequence hn iha ihb
    | interleave hn _ _ iha ihb => exact .interleave hn iha ihb .nil
    | oneOrMore hn _ ih => exact .once hn ih
    | mixed hn _ ih => exact .mixed hn ih
    | reference hn _ htarget _ ih => exact .reference hn htarget ih
  . intro h
    rw [Store.mem_language] at h
    generalize hw : ([] : List Letter) = w at h
    induction h with
    | epsilon hn => exact .epsilon hn
    | anyString hn => exact .anyString hn
    | choiceLeft hn _ ih => exact .choiceLeft hn (ih hw)
    | choiceRight hn _ ih => exact .choiceRight hn (ih hw)
    | sequence hn _ _ iha ihb =>
      obtain ⟨hu, hv⟩ := List.append_eq_nil_iff.1 hw.symm
      exact .sequence hn (iha hu.symm) (ihb hv.symm)
    | interleave hn _ _ huv iha ihb =>
      cases hw
      cases huv
      exact .interleave hn (iha rfl) (ihb rfl)
    | once hn _ ih => exact .oneOrMore hn (ih hw)
    | more hn _ _ ih _ =>
      obtain ⟨hu, _⟩ := List.append_eq_nil_iff.1 hw.symm
      exact .oneOrMore hn (ih hu.symm)
    | mixed hn _ ih =>
      cases hw
      exact .mixed hn (ih rfl)
    | reference hn htarget _ ih => exact .reference hn (by simp) htarget (ih hw)
    | _ => cases hw

end Empties

namespace NullableAnswer

def guessed (p : NullableAnswer) (visiting : List RefId) : List RefId :=
  visiting.take (visiting.length - p.provisional.getD visiting.length)

structure Holds (p : NullableAnswer) (s : Store) (defs : Definitions) (visiting : List RefId)
    (id : ExprId) : Prop where
  onPath : ∀ place, p.provisional = some place → place < visiting.length
  yes : p.value = true → ∀ t defs', s ≤ t → defs ≤ defs' → Empties t defs' [] id
  no : p.value = false → ∀ t defs', s ≤ t → defs ≤ defs' →
    ¬ Empties t defs' (p.guessed visiting) id

variable {p q : NullableAnswer} {s t : Store} {defs : Definitions} {visiting : List RefId}
variable {id : ExprId}

theorem guessed_of_none (h : p.provisional = none) : p.guessed visiting = [] := by
  simp [guessed, h]

theorem guessed_of_some {place : Nat} (h : p.provisional = some place) :
    p.guessed visiting = visiting.take (visiting.length - place) := by
  simp [guessed, h]

theorem guessed_subset_of_le (h : q.provisional.getD visiting.length ≤
    p.provisional.getD visiting.length) : p.guessed visiting ⊆ q.guessed visiting := by
  unfold guessed
  apply List.Sublist.subset
  apply List.take_sublist_take_left
  omega

theorem Holds.decided (h : p.Holds s defs visiting id) (hp : p.provisional = none) :
    s.Decided defs id p.value := by
  intro t defs' ht hdefs
  rw [← Empties.iff_nil_mem_language]
  constructor
  . intro hvalue
    exact h.yes hvalue t defs' ht hdefs
  . intro hempties
    by_contra hvalue
    rw [Bool.not_eq_true] at hvalue
    refine h.no hvalue t defs' ht hdefs ?_
    rw [guessed_of_none hp]
    exact hempties

theorem Holds.of_decided {b : Bool} (h : s.Decided defs id b) :
    Holds { value := b } s defs visiting id where
  onPath := by
    intro place hplace
    cases hplace
  yes hb t defs' ht hdefs := Empties.iff_nil_mem_language.2 ((h t defs' ht hdefs).1 hb)
  no hb t defs' ht hdefs := by
    intro hempties
    rw [guessed_of_none rfl, Empties.iff_nil_mem_language] at hempties
    rw [(h t defs' ht hdefs).2 hempties] at hb
    cases hb

theorem Holds.transfer {a : ExprId} (h : p.Holds s defs visiting a)
    (hiff : ∀ t defs' avoided, s ≤ t →
      (Empties t defs' avoided id ↔ Empties t defs' avoided a)) :
    p.Holds s defs visiting id where
  onPath := h.onPath
  yes hvalue t defs' ht hdefs := (hiff t defs' [] ht).2 (h.yes hvalue t defs' ht hdefs)
  no hvalue t defs' ht hdefs hempties :=
    h.no hvalue t defs' ht hdefs ((hiff t defs' _ ht).1 hempties)

theorem Holds.both {a b : ExprId} (hp : p.Holds s defs visiting a) (hq : q.Holds t defs visiting b)
    (hst : s ≤ t) (hpvalue : p.value = true)
    (hiff : ∀ u defs' avoided, t ≤ u → (Empties u defs' avoided id ↔
      Empties u defs' avoided a ∧ Empties u defs' avoided b)) :
    q.Holds t defs visiting id where
  onPath := hq.onPath
  yes hvalue u defs' hu hdefs := (hiff u defs' [] hu).2
    ⟨hp.yes hpvalue u defs' (le_trans hst hu) hdefs, hq.yes hvalue u defs' hu hdefs⟩
  no hvalue u defs' hu hdefs hempties :=
    hq.no hvalue u defs' hu hdefs ((hiff u defs' _ hu).1 hempties).2

theorem Holds.neither {a b : ExprId} (hp : p.Holds s defs visiting a) (hpvalue : p.value = false)
    (hiff : ∀ u defs' avoided, s ≤ u → (Empties u defs' avoided id ↔
      Empties u defs' avoided a ∧ Empties u defs' avoided b)) :
    p.Holds s defs visiting id where
  onPath := hp.onPath
  yes hvalue := by simp [hpvalue] at hvalue
  no hvalue u defs' hu hdefs hempties :=
    hp.no hvalue u defs' hu hdefs ((hiff u defs' _ hu).1 hempties).1

theorem Holds.merge {a b : ExprId} (hp : p.Holds s defs visiting a) (hq : q.Holds t defs visiting b)
    (hst : s ≤ t) (hpvalue : p.value = false) (hqvalue : q.value = false)
    (hiff : ∀ u defs' avoided, t ≤ u → (Empties u defs' avoided id ↔
      Empties u defs' avoided a ∨ Empties u defs' avoided b)) :
    Holds { value := false, provisional := p.provisional.merge min q.provisional } t defs visiting
      id where
  onPath := by
    intro place hplace
    dsimp only at hplace
    cases hi : p.provisional with
    | none =>
      rw [hi, Option.merge_none_left] at hplace
      exact hq.onPath place hplace
    | some i =>
      have hilt := hp.onPath i hi
      cases hj : q.provisional with
      | none =>
        rw [hi, hj] at hplace
        cases hplace
        exact hilt
      | some j =>
        rw [hi, hj] at hplace
        cases hplace
        exact Nat.lt_of_le_of_lt (Nat.min_le_left i j) hilt
  yes := by simp
  no := by
    intro _ u defs' hu hdefs hempties
    rcases (hiff u defs' _ hu).1 hempties with ha | hb
    . refine hp.no hpvalue u defs' (le_trans hst hu) hdefs (ha.of_subset ?_)
      apply guessed_subset_of_le
      have hqonPath := hq.onPath
      cases p.provisional <;> cases hq : q.provisional <;> simp_all
      omega
    . refine hq.no hqvalue u defs' hu hdefs (hb.of_subset ?_)
      apply guessed_subset_of_le
      have hponPath := hp.onPath
      cases hp : p.provisional <;> cases q.provisional <;> simp_all
      omega

theorem Holds.guess {r : RefId} {place : Nat} (hplace : visiting.reverse.idxOf? r = some place)
    (hnode : ∀ t, s ≤ t → t.node id = .reference r) :
    Holds { value := false, provisional := some place } s defs visiting id := by
  obtain ⟨hlt, hget, -⟩ := List.idxOf?_eq_some_iff.1 hplace
  rw [List.length_reverse] at hlt
  refine ⟨?_, by simp, ?_⟩
  . rintro _ ⟨⟩
    exact hlt
  . intro _ t defs' ht _ hempties
    have hguessed : r ∈ guessed { value := false, provisional := some place } visiting := by
      rw [guessed_of_some rfl, List.mem_take_iff_getElem]
      rw [List.getElem_reverse] at hget
      exact ⟨visiting.length - 1 - place, by omega, hget⟩
    cases hempties <;> simp_all

/--
An answer about what a reference stands for is an answer about the reference. It is no guess about
the reference itself any more.
-/
theorem Holds.reference {r : RefId} {target : ExprId}
    (h : p.Holds s defs (r :: visiting) target) (hnode : ∀ t, s ≤ t → t.node id = .reference r)
    (htarget : defs.target? r = some target) :
    Holds { p with provisional := p.provisional.filter (· < visiting.length) } s defs visiting
      id where
  onPath := by simp
  yes hvalue t defs' ht hdefs :=
    .reference (hnode t ht) (by simp) (Definitions.target?_of_le hdefs htarget)
      (h.yes hvalue t defs' ht hdefs)
  no := by
    intro hvalue t defs' ht hdefs hempties
    have hguessed := hempties.of_reference (hnode t ht) (Definitions.target?_of_le hdefs htarget)
    refine h.no hvalue t defs' ht hdefs (hguessed.of_subset ?_)
    have honPath := h.onPath
    unfold guessed
    cases hp : p.provisional with
    | none => simp
    | some place =>
      have hlt := honPath place hp
      rw [List.length_cons] at hlt
      by_cases hplace : place < visiting.length
      . simp [Option.filter, hplace, Nat.sub_add_comm (Nat.le_of_lt hplace)]
      . have : place = visiting.length := by omega
        simp [Option.filter, this]

end NullableAnswer

namespace Graph

variable {defs : Definitions} {g : Graph} {visiting : List RefId} {id : ExprId}
variable {E : Fault → Prop}

theorem settled_apply (work : GraphM NullableAnswer) (g : Graph) :
    settled id work g =
      match g.nullable[id]? with
      | some value => .ok ({ value }, g)
      | none => (work g).map fun p => (p.1,
          if p.1.provisional.isNone then
            { p.2 with nullable := p.2.nullable.insert id p.1.value }
          else
            p.2) := by
  unfold settled
  simp only [bind, StateT.bind, get, getThe, MonadStateOf.get, StateT.get, pure, Except.pure,
    Except.bind]
  cases g.nullable[id]? with
  | some value => rfl
  | none =>
    dsimp only
    unfold StateT.bind
    cases work g with
    | error f => rfl
    | ok p =>
      dsimp only [Except.map, bind, Except.bind]
      split <;> rfl

theorem settled_returns {work : GraphM NullableAnswer} (hg : g.Sound defs) (hid : id ∈ g.store)
    (hwork : Returns defs g work E fun p h => p.Holds h.store defs visiting id) :
    Returns defs g (settled id work) E fun p h =>
      p.Holds h.store defs visiting id ∧
        (p.provisional = none → h.nullable[id]? = some p.value) := by
  cases hknown : g.nullable[id]? with
  | some value =>
    refine ⟨?_, ?_, ?_⟩ <;> simp only [settled_apply, hknown, forgetful_nullable]
    . rfl
    . intro f hf
      cases hf
    . rintro p h ⟨⟩
      exact ⟨le_rfl, hg, .of_decided (hg.nullable id value hknown).2, fun _ => hknown⟩
  | none =>
    refine ⟨?_, ?_, ?_⟩ <;> simp only [settled_apply, hknown, forgetful_nullable]
    . rw [hwork.forgetful]
      cases work g with
      | error f => rfl
      | ok p =>
        dsimp only [Except.map, Prod.map, id_eq]
        split <;> rfl
    . intro f hf
      cases hw : work g with
      | error f' =>
        rw [hw] at hf
        cases hf
        exact hwork.error f hw
      | ok p =>
        rw [hw] at hf
        cases hf
    . intro p h heq
      cases hw : work g with
      | error f =>
        rw [hw] at heq
        cases heq
      | ok found =>
        rw [hw] at heq
        cases heq
        obtain ⟨hgh, hh, hp⟩ := hwork.ok found.1 found.2 hw
        split
        . next hnone =>
          have hdecided := hp.decided (Option.isNone_iff_eq_none.1 hnone)
          have hle := hh.le_insert_nullable hdecided
          have hid := Store.mem_of_le (store_le hgh) hid
          refine ⟨le_trans hgh hle, hh.insert_nullable hid hdecided, hp, ?_⟩
          intro _
          exact Std.TreeMap.getElem?_insert_self
        . next hsome =>
          refine ⟨hgh, hh, hp, ?_⟩
          intro hnone
          simp [hnone] at hsome

theorem both_returns {first second : GraphM NullableAnswer} {a b : ExprId}
    (hfirst : Returns defs g first E fun p h => p.Holds h.store defs visiting a)
    (hsecond : ∀ h, g ≤ h → h.Sound defs →
      Returns defs h second E fun p k => p.Holds k.store defs visiting b)
    (hiff : ∀ t defs' avoided, g.store ≤ t → (Empties t defs' avoided id ↔
      Empties t defs' avoided a ∧ Empties t defs' avoided b)) :
    Returns defs g (do
      let p ← first
      if p.value then second else return p) E fun p h => p.Holds h.store defs visiting id := by
  refine Returns.bind hfirst ?_
  intro p h hgh hh hp
  split
  . next hvalue =>
    refine (hsecond h hgh hh).mono (fun _ hf => hf) ?_
    intro q k hhk hk hq
    refine hp.both hq (store_le hhk) hvalue ?_
    intro u defs' avoided hu
    exact hiff u defs' avoided (le_trans (store_le (le_trans hgh hhk)) hu)
  . next hvalue =>
    rw [Bool.not_eq_true] at hvalue
    refine .pure hh (hp.neither (b := b) hvalue ?_)
    intro u defs' avoided hu
    exact hiff u defs' avoided (le_trans (store_le hgh) hu)

theorem either_returns {first second : GraphM NullableAnswer} {a b : ExprId}
    (hfirst : Returns defs g first E fun p h => p.Holds h.store defs visiting a)
    (hsecond : ∀ h, g ≤ h → h.Sound defs →
      Returns defs h second E fun p k => p.Holds k.store defs visiting b)
    (hnode : ∀ t, g.store ≤ t → t.node id = .choice a b) :
    Returns defs g (do
      let p ← first
      if p.value then
        return { value := true }
      else
        let q ← second
        if q.value then
          return { value := true }
        else
          return { value := false, provisional := p.provisional.merge min q.provisional } :
            GraphM NullableAnswer) E fun p h => p.Holds h.store defs visiting id := by
  refine Returns.bind hfirst ?_
  intro p h hgh hh hp
  split
  . next hpvalue =>
    refine .pure hh ⟨by simp, ?_, by simp⟩
    intro _ t defs' ht hdefs
    exact .choiceLeft (hnode t (le_trans (store_le hgh) ht)) (hp.yes hpvalue t defs' ht hdefs)
  . next hpvalue =>
    rw [Bool.not_eq_true] at hpvalue
    refine Returns.bind (hsecond h hgh hh) ?_
    intro q k hhk hk hq
    have hgk := store_le (le_trans hgh hhk)
    split
    . next hqvalue =>
      refine .pure hk ⟨by simp, ?_, by simp⟩
      intro _ t defs' ht hdefs
      exact .choiceRight (hnode t (le_trans hgk ht)) (hq.yes hqvalue t defs' ht hdefs)
    . next hqvalue =>
      rw [Bool.not_eq_true] at hqvalue
      refine .pure hk (.merge hp hq (store_le hhk) hpvalue hqvalue ?_)
      intro t defs' avoided ht
      exact Empties.iff_of_choice (hnode t (le_trans hgk ht))

theorem nullableFrom_returns (visiting : List RefId) (id : ExprId) (hg : g.Sound defs)
    (hid : id ∈ g.store) :
    Returns defs g (nullableFrom defs visiting id) (Fault.Admissible (FullyDefined g.store defs id))
      fun p h => p.Holds h.store defs visiting id ∧
        (p.provisional = none → h.nullable[id]? = some p.value) := by
  revert g
  refine Definitions.search_induction
    (motive := fun visiting id => ∀ {g : Graph}, g.Sound defs → id ∈ g.store →
      Returns defs g (nullableFrom defs visiting id) (Fault.Admissible (FullyDefined g.store defs id))
        fun p h => p.Holds h.store defs visiting id ∧
          (p.provisional = none → h.nullable[id]? = some p.value)) defs ?_ visiting id
  intro visiting id ihChild ihTarget g hg hid
  rw [nullableFrom]
  apply settled_returns hg hid
  apply Returns.read
  intro n below hn
  -- an operand is examined in a graph that may have grown meanwhile
  have operand {a : ExprId} (ha : a ∈ n.children)
      (helement : ∀ names content, n ≠ .element names content) (h : Graph) (hgh : g ≤ h)
      (hh : h.Sound defs) :
      Returns defs h (nullableFrom defs visiting a) (Fault.Admissible (FullyDefined g.store defs id))
        fun p k => p.Holds k.store defs visiting a := by
    have hpart : Part g.store defs a id := by
      rw [← hn] at ha helement
      exact .operand helement ha
    have hmem := Store.mem_of_le (store_le hgh) (hpart.mem hg.within hid)
    have hfound := (ihChild a (below a ha) hh hmem).admissible
      fun hdefined : FullyDefined g.store defs id =>
        hdefined.part_of_le hpart (store_le hgh) hg.within hid
    exact hfound.mono (fun _ hf => hf) fun _ _ _ _ hp => hp.1
  have node {t : Store} (hst : g.store ≤ t) : t.node id = n :=
    (Store.node_of_le hst hid).trans hn
  cases n with
  | epsilon =>
    refine .pure hg ⟨by simp, ?_, by simp⟩
    intro _ t defs' ht _
    exact .epsilon (node ht)
  | anyString =>
    refine .pure hg ⟨by simp, ?_, by simp⟩
    intro _ t defs' ht _
    exact .anyString (node ht)
  | nullSet | typedString | «attribute» | element =>
    refine .pure hg ⟨by simp, by simp, ?_⟩
    intro _ t defs' ht _ hempties
    have := node ht
    cases hempties <;> simp_all
  | choice a b =>
    exact either_returns (operand (by simp [Node.children]) (by simp) g le_rfl hg)
      (operand (by simp [Node.children]) (by simp)) fun t ht => node ht
  | sequence a b =>
    refine both_returns (operand (by simp [Node.children]) (by simp) g le_rfl hg)
      (operand (by simp [Node.children]) (by simp)) ?_
    intro t defs' avoided ht
    exact Empties.iff_of_sequence (node ht)
  | interleave a b =>
    refine both_returns (operand (by simp [Node.children]) (by simp) g le_rfl hg)
      (operand (by simp [Node.children]) (by simp)) ?_
    intro t defs' avoided ht
    exact Empties.iff_of_interleave (node ht)
  | oneOrMore a =>
    refine (operand (by simp [Node.children]) (by simp) g le_rfl hg).mono (fun _ hf => hf) ?_
    intro p h hgh hh hp
    refine hp.transfer ?_
    intro t defs' avoided ht
    exact Empties.iff_of_oneOrMore (node (le_trans (store_le hgh) ht))
  | mixed a =>
    refine (operand (by simp [Node.children]) (by simp) g le_rfl hg).mono (fun _ hf => hf) ?_
    intro p h hgh hh hp
    refine hp.transfer ?_
    intro t defs' avoided ht
    exact Empties.iff_of_mixed (node (le_trans (store_le hgh) ht))
  | reference r =>
    dsimp only
    split
    . next place hplace =>
      refine .pure hg (.guess hplace ?_)
      intro t ht
      exact node ht
    . next hnew =>
      refine Returns.follow ?_ ?_
      . intro hnone hdefined
        have hr := hdefined.defined hn
        simp [hnone] at hr
      . intro target htarget
        have hr : r ∉ visiting := by simpa using hnew
        have hpart : Part g.store defs target id := .target hn htarget
        have hfound := ihTarget r target htarget hr hg (hg.within r target htarget)
        refine Returns.bind (hfound.admissible fun hdefined => hdefined.part hpart) ?_
        rintro p h hgh hh ⟨hp, _⟩
        refine .pure hh (hp.reference ?_ htarget)
        intro t ht
        exact node (le_trans (store_le hgh) ht)

theorem isNullable_of_nullable {b : Bool} (h : g.nullable[id]? = some b) :
    isNullable defs id g = .ok (b, g) := by
  unfold isNullable
  rw [nullableFrom]
  simp only [bind, StateT.bind]
  rw [settled_apply, h]
  rfl

/--
The test whether an expression accepts no content is right, and it does not go wrong on an
expression without undefined references unless there is no room.
-/
theorem isNullable_yields_of_fullyDefined (hg : g.Sound defs) (hid : id ∈ g.store) :
    Yields defs g (isNullable · id) (Fault.Admissible (FullyDefined g.store defs id))
      fun b h => h.store.Decided defs id b := by
  have hfrom := nullableFrom_returns [] id hg hid
  refine Returns.bind hfrom ?_
  rintro p h hgh hh ⟨hp, hknown⟩
  have hnone : p.provisional = none := by
    rw [Option.eq_none_iff_forall_ne_some]
    intro place hplace
    exact absurd (hp.onPath place hplace) (Nat.not_lt_zero place)
  refine .pure hh ⟨hp.decided hnone, ?_⟩
  intro defs' u _ hu
  exact isNullable_of_nullable (nullable_le hu (hknown hnone))

theorem isNullable_yields (hg : g.Sound defs) (hid : id ∈ g.store) :
    Yields defs g (isNullable · id) (Fault.Admissible (Guarded g.store defs id))
      fun b h => h.store.Decided defs id b :=
  (isNullable_yields_of_fullyDefined hg hid).admissible .of_guarded

end Graph

end TreeGrammar
