import Mathlib.Data.Set.Lattice
import TreeGrammar.Proofs.Alternatives

/-!
This module contains all that can become of a form by deriving it and discharging attributes, any number
of times over. The alternatives come from a set that is given by the form alone. No choice takes in an
alternative that it has already, and so only finitely many reduced forms can be drawn from the set.
-/

namespace TreeGrammar

namespace Form

def size : Form → Nat
  | .choice a b | .sequence a b | .interleave a b => a.size + b.size + 1
  | .attribute _ a | .oneOrMore a | .mixed a | .reference _ a => a.size + 1
  | .epsilon | .nullSet | .anyString | .typedString _ | .element _ => 1

def parts : Form → List Form
  | .choice a b | .sequence a b | .interleave a b => [a, b]
  | .attribute _ a | .oneOrMore a | .mixed a | .reference _ a => [a]
  | .epsilon | .nullSet | .anyString | .typedString _ | .element _ => []

structure Drawn (K : Nat) (L : Set Form) (e : Form) : Prop where
  mem : ∀ x ∈ e.alternatives, x ∈ L
  count : ∀ x, e.alternatives.count x ≤ K

def repetitions (K : Nat) (A : Set Form) : Set Form :=
  Form.oneOrMore '' {x | x.Drawn K A} ∪ A

/--
The alternatives of all that can become of a form, if it has none of them more than `K` times.
-/
def residues (K : Nat) : Form → Set Form
  | .epsilon | .nullSet => {.epsilon}
  | .anyString => {.anyString} ∪ {.epsilon}
  | .typedString type => {.typedString type} ∪ {.epsilon}
  | .attribute names content => {.attribute names content} ∪ residues K content
  | .element head => {.element head} ∪ {.epsilon}
  | .choice a b => residues K a ∪ residues K b
  | .sequence a b =>
    Set.image2 .sequence {x | x.Drawn K (residues K a)} {y | y.Drawn K (residues K b)} ∪
      (residues K a ∪ residues K b)
  | .interleave a b =>
    Set.image2 .interleave {x | x.Drawn K (residues K a)} {y | y.Drawn K (residues K b)} ∪
      (residues K a ∪ residues K b)
  | .oneOrMore a =>
    Set.image2 .sequence {x | x.Drawn K (residues K a)}
        {y | y.Drawn K (repetitions K (residues K a))} ∪
      repetitions K (residues K a)
  | .mixed a => Form.mixed '' {x | x.Drawn K (residues K a)} ∪ ({.anyString} ∪ residues K a)
  | .reference r target => {.reference r target} ∪ residues K target

variable {K : Nat} {A L W : Set Form} {a b e x : Form} {token : Token}
variable {fits : Form → Plan Bool} {pending : Pending}

namespace Drawn

theorem mono (h : e.Drawn K A) (hAL : A ⊆ L) : e.Drawn K L :=
  ⟨fun x hx => hAL (h.mem x hx), h.count⟩

theorem nullSet : Form.nullSet.Drawn K L :=
  ⟨by simp, by simp⟩

theorem single (hK : 0 < K) (he : e.alternatives = [e]) (hmem : e ∈ L) : e.Drawn K L where
  mem := by simpa [he] using hmem
  count x := by
    rw [he]
    exact List.count_le_length.trans hK

theorem epsilon (hK : 0 < K) (hmem : .epsilon ∈ L) : Form.epsilon.Drawn K L :=
  .single hK rfl hmem

theorem of_sublist (h : e.Drawn K L) (hsub : x.alternatives.Sublist e.alternatives) : x.Drawn K L where
  mem y hy := h.mem y (hsub.subset hy)
  count y := (hsub.count_le y).trans (h.count y)

theorem left (h : (Form.choice a b).Drawn K L) : a.Drawn K L :=
  h.of_sublist (List.sublist_append_left ..)

theorem right (h : (Form.choice a b).Drawn K L) : b.Drawn K L :=
  h.of_sublist (List.sublist_append_right ..)

end Drawn

theorem without_sublist (seen : List Form) (e : Form) :
    (Plan.without seen e).Keeps (fun x => x.alternatives.Sublist e.alternatives) fun e? =>
      ∀ x ∈ e?, x.alternatives.Sublist e.alternatives := by
  induction e using alternatives_induction with
  | choice a b iha ihb =>
    have hleft (x : Form) (hx : x.alternatives.Sublist a.alternatives) :
        x.alternatives.Sublist (Form.choice a b).alternatives :=
      List.sublist_append_of_sublist_left hx
    have hright (x : Form) (hx : x.alternatives.Sublist b.alternatives) :
        x.alternatives.Sublist (Form.choice a b).alternatives :=
      List.sublist_append_of_sublist_right hx
    rw [Plan.without_choice]
    split
    . exact .pure (by simp)
    . refine .bind (iha.imp hleft fun _ h => h) fun a? ha => ?_
      refine .bind (ihb.imp hright fun _ h => h) fun b? hb => ?_
      cases a? with
      | none =>
        cases b? with
        | none => exact .pure (by simp)
        | some b' => exact .pure fun x hx => hright x (hb x hx)
      | some a' =>
        cases b? with
        | none => exact .pure fun x hx => hleft x (ha x hx)
        | some b' =>
          have hboth : (Form.choice a' b').alternatives.Sublist (Form.choice a b).alternatives :=
            (ha a' rfl).append (hb b' rfl)
          rw [Plan.rejoin_some]
          split
          . exact .pure (by simp)
          . refine .bind (.intern hboth) fun e he => .pure ?_
            simpa using he
  | other e hchoice =>
    rw [Plan.without_of_ne hchoice]
    refine .pure ?_
    split <;> simp

theorem Drawn.choice (hL : L ⊆ W) (ha : a.Drawn K L) (hb : b.Drawn K L) :
    (Plan.choice a b).Keeps (Drawn K W) (Drawn K L) := by
  have hvalue : (Plan.choice a b).value.Drawn K L := by
    constructor
    . intro x hx
      exact (mem_alternatives_choice.1 hx).elim (ha.mem x) (hb.mem x)
    . intro x
      rw [alternatives_choice, List.count_append]
      by_cases hx : x ∈ a.alternatives
      . have hnone : (b.alternatives.filter fun y => !decide (y ∈ a.alternatives)).count x = 0 :=
          List.count_eq_zero.2 (by simp [hx])
        rw [hnone]
        exact ha.count x
      . rw [List.count_eq_zero.2 hx, Nat.zero_add]
        exact (List.filter_sublist.count_le x).trans (hb.count x)
  refine ⟨hvalue, ?_⟩
  unfold Plan.choice at hvalue ⊢
  split
  . simp
  . split
    . simp
    . split
      . simp
      . next ha hb' hab =>
        rw [if_neg ha, if_neg hb', if_neg hab] at hvalue
        have hwithout := without_sublist a.alternatives b
        rw [Plan.value_bind] at hvalue
        intro e he
        rcases List.mem_append.1 he with he | he
        . exact (hb.of_sublist (hwithout.built e he)).mono hL
        . cases hrest : (Plan.without a.alternatives b).value with
          | none => simp [hrest] at he
          | some b' =>
            rw [hrest] at he hvalue
            rw [List.mem_singleton.1 he]
            exact hvalue.mono hL

structure Joins (K : Nat) (join : Form → Form → Form) (A C L : Set Form) : Prop where
  left : A ⊆ L
  right : C ⊆ L
  mem : ∀ {y z}, y.Drawn K A → z.Drawn K C → join y z ∈ L

namespace Drawn

variable {C : Set Form}

theorem joined {join : Form → Form → Form} (hjoin : (join a b).Drawn K L) (hL : L ⊆ W)
    (h : Joins K join A C L) (ha : a.Drawn K A) (hb : b.Drawn K C) :
    (Plan.joined join a b).Keeps (Drawn K W) (Drawn K L) := by
  refine Plan.joined_cases (motive := (·.Keeps (Drawn K W) (Drawn K L))) (fun _ => .pure .nullSet)
    (fun _ => .pure (hb.mono h.right)) (fun _ => .pure (ha.mono h.left)) fun _ _ => ?_
  exact (Plan.Keeps.intern hjoin).imp (fun _ h => h.mono hL) fun _ h => h

theorem sequence (hK : 0 < K) (hL : L ⊆ W) (h : Joins K .sequence A C L) (ha : a.Drawn K A)
    (hb : b.Drawn K C) : (Plan.sequence a b).Keeps (Drawn K W) (Drawn K L) :=
  joined (.single hK rfl (h.mem ha hb)) hL h ha hb

theorem interleave (hK : 0 < K) (hL : L ⊆ W) (h : Joins K .interleave A C L) (ha : a.Drawn K A)
    (hb : b.Drawn K C) : (Plan.interleave a b).Keeps (Drawn K W) (Drawn K L) :=
  joined (.single hK rfl (h.mem ha hb)) hL h ha hb

theorem oneOrMore (hK : 0 < K) (hW : repetitions K A ⊆ W) (ha : a.Drawn K A) :
    (Plan.oneOrMore a).Keeps (Drawn K W) (Drawn K (repetitions K A)) := by
  have hself : a.Drawn K (repetitions K A) := ha.mono fun _ h => Or.inr h
  have honeOrMore : (Form.oneOrMore a).Drawn K (repetitions K A) :=
    .single hK rfl (Or.inl ⟨a, ha, rfl⟩)
  unfold Plan.oneOrMore
  split
  . exact .pure hself
  . split
    . exact .pure hself
    . exact (Plan.Keeps.intern honeOrMore).imp (fun _ h => h.mono hW) fun _ h => h

theorem zeroOrMore (hK : 0 < K) (hW : repetitions K A ⊆ W) (hepsilon : .epsilon ∈ A)
    (ha : a.Drawn K A) : (Plan.zeroOrMore a).Keeps (Drawn K W) (Drawn K (repetitions K A)) :=
  .bind (ha.oneOrMore hK hW) fun _ hr => hr.choice hW (.epsilon hK (Or.inr hepsilon))

theorem mixed (hK : 0 < K) (hL : L ⊆ W) (hA : A ⊆ L) (hmem : ∀ {y}, y.Drawn K A → .mixed y ∈ L)
    (hany : .anyString ∈ L) (ha : a.Drawn K A) :
    (Plan.mixed a).Keeps (Drawn K W) (Drawn K L) := by
  have hmixed : (Form.mixed a).Drawn K L := .single hK rfl (hmem ha)
  unfold Plan.mixed
  split
  . exact .pure (ha.mono hA)
  . split
    . exact .pure (.single hK rfl hany)
    . split
      . exact .pure (ha.mono hA)
      . exact (Plan.Keeps.intern hmixed).imp (fun _ h => h.mono hL) fun _ h => h

end Drawn

/--
What an operation on forms leads to. It is enough to know what it does with each alternative.
-/
structure ByAlternatives {β : Type} (K : Nat) (W : Set Form) (op : Form → Plan β)
    (R : Set Form → β → Prop) : Prop where
  mono : ∀ {A L b}, A ⊆ L → R A b → R L b
  keeps : ∀ {A L}, A ⊆ L → L ⊆ W → .epsilon ∈ L →
    (∀ x ∈ A, x.alternatives = [x] → (op x).Keeps (Drawn K W) (R L)) →
    ∀ e, e.Drawn K A → (op e).Keeps (Drawn K W) (R L)

section ByAlternatives

variable {β : Type} {op : Form → Plan β} {Q : β → Prop}

theorem keeps_of_alternatives (hnull : (op .nullSet).Keeps (Drawn K W) Q)
    (hchoice : ∀ a b, (Form.choice a b).Drawn K A → (op a).Keeps (Drawn K W) Q →
      (op b).Keeps (Drawn K W) Q → (op (.choice a b)).Keeps (Drawn K W) Q)
    (h : ∀ x ∈ A, x.alternatives = [x] → (op x).Keeps (Drawn K W) Q) (he : e.Drawn K A) :
    (op e).Keeps (Drawn K W) Q := by
  induction e using alternatives_induction with
  | choice a b iha ihb => exact hchoice a b he (iha he.left) (ihb he.right)
  | other e hne =>
    by_cases heq : e = .nullSet
    . exact heq ▸ hnull
    . have hself := alternatives_of_ne hne heq
      exact h e (he.mem e (hself ▸ List.mem_singleton_self e)) hself

theorem derive_byAlternatives : ByAlternatives K W (derive token fits) (Drawn K) where
  mono hAL h := h.mono hAL
  keeps _ hL _ h _ he := keeps_of_alternatives (.pure .nullSet)
    (fun _ _ _ ha hb => .bind ha fun _ ha => .bind hb fun _ hb => ha.choice hL hb) h he

theorem discharge_byAlternatives : ByAlternatives K W (discharge pending) (Drawn K) where
  mono hAL h := h.mono hAL
  keeps hAL hL _ h _ he := by
    refine keeps_of_alternatives (.pure .nullSet) (fun a b hab ha hb => ?_) h he
    refine .bind ha fun _ ha => .bind hb fun _ hb => ?_
    split
    . exact .pure (hab.mono hAL)
    . exact ha.choice hL hb

theorem required_byAlternatives (hK : 0 < K) : ByAlternatives K W (fun e => e.required.run)
    fun L e? => ∀ x ∈ e?, x.Drawn K L where
  mono hAL h x hx := (h x hx).mono hAL
  keeps _ hL hepsilon h _ he := by
    refine keeps_of_alternatives (.pure (by simp)) (fun a b hab ha hb => ?_) h he
    refine .attempt ha fun p hp => .attempt hb fun q hq => ?_
    split
    . exact .pure (by simpa using .epsilon hK hepsilon)
    . exact (hp.choice hL hq).attempted

end ByAlternatives

structure Leads {β : Type} (K : Nat) (W : Set Form) (op : Form → Plan β) (R : Set Form → β → Prop)
    (A L : Set Form) : Prop where
  subset : A ⊆ L
  keeps : ∀ e, e.Drawn K A → (op e).Keeps (Drawn K W) (R L)

/--
The operation can lead to what is drawn from `L`.
-/
structure Admits {β : Type} (K : Nat) (W : Set Form) (op : Form → Plan β) (R : Set Form → β → Prop)
    (L : Set Form) : Prop where
  op : ByAlternatives K W op R
  pos : 0 < K
  subset : L ⊆ W
  epsilon : .epsilon ∈ L

section Leads

variable {β : Type} {op : Form → Plan β} {R : Set Form → β → Prop} {A' C L' : Set Form}
variable {make : Form → Form} {join : Form → Form → Form}

theorem Leads.mono (h : Leads K W op R A L) (hop : ByAlternatives K W op R) (hL : L ⊆ L') :
    Leads K W op R A L' :=
  ⟨h.subset.trans hL, fun e he => (h.keeps e he).mono fun _ hr => hop.mono hL hr⟩

namespace Admits

theorem union (hL : Admits K W op R L) (h : Leads K W op R A L) (h' : Leads K W op R A' L) :
    Leads K W op R (A ∪ A') L where
  subset := Set.union_subset h.subset h'.subset
  keeps := by
    refine hL.op.keeps (Set.union_subset h.subset h'.subset) hL.subset hL.epsilon ?_
    rintro x (hx | hx) hself
    . exact h.keeps x (.single hL.pos hself hx)
    . exact h'.keeps x (.single hL.pos hself hx)

theorem singleton (hL : Admits K W op R L) (hx : x ∈ L) (h : (op x).Keeps (Drawn K W) (R L)) :
    Leads K W op R {x} L where
  subset := Set.singleton_subset_iff.2 hx
  keeps := by
    refine hL.op.keeps (Set.singleton_subset_iff.2 hx) hL.subset hL.epsilon ?_
    rintro _ rfl -
    exact h

theorem image (hL : Admits K W op R L) (hmake : ∀ y, y.Drawn K A → make y ∈ L)
    (h : ∀ y, y.Drawn K A → (op (make y)).Keeps (Drawn K W) (R L)) :
    Leads K W op R (make '' {y | y.Drawn K A}) L := by
  have hsubset : make '' {y | y.Drawn K A} ⊆ L := by
    rintro _ ⟨y, hy, rfl⟩
    exact hmake y hy
  refine ⟨hsubset, hL.op.keeps hsubset hL.subset hL.epsilon ?_⟩
  rintro _ ⟨y, hy, rfl⟩ -
  exact h y hy

theorem image2 (hL : Admits K W op R L) (hjoin : ∀ y z, y.Drawn K A → z.Drawn K C → join y z ∈ L)
    (h : ∀ y z, y.Drawn K A → z.Drawn K C → (op (join y z)).Keeps (Drawn K W) (R L)) :
    Leads K W op R (Set.image2 join {y | y.Drawn K A} {z | z.Drawn K C}) L := by
  have hsubset : Set.image2 join {y | y.Drawn K A} {z | z.Drawn K C} ⊆ L := by
    rintro _ ⟨y, hy, z, hz, rfl⟩
    exact hjoin y z hy hz
  refine ⟨hsubset, hL.op.keeps hsubset hL.subset hL.epsilon ?_⟩
  rintro _ ⟨y, hy, z, hz, rfl⟩ -
  exact h y z hy hz

end Admits

end Leads

theorem epsilon_mem_residues (e : Form) : .epsilon ∈ residues K e := by
  induction e with
  | epsilon | nullSet => exact rfl
  | anyString | typedString | element => exact Or.inr rfl
  | «attribute» | reference => exact Or.inr ‹_›
  | choice a b iha => exact Or.inl iha
  | sequence a b iha | interleave a b iha => exact Or.inr (Or.inl iha)
  | oneOrMore a ih | mixed a ih => exact Or.inr (Or.inr ih)

theorem residues_subset (h : a ∈ e.parts) : residues K a ⊆ residues K e := by
  have two {a b c : Form} (h : a ∈ [b, c]) : a = b ∨ a = c := by simpa using h
  cases e with
  | choice b c =>
    obtain rfl | rfl := two h
    . exact fun _ hx => Or.inl hx
    . exact fun _ hx => Or.inr hx
  | sequence b c | interleave b c =>
    obtain rfl | rfl := two h
    . exact fun _ hx => Or.inr (Or.inl hx)
    . exact fun _ hx => Or.inr (Or.inr hx)
  | «attribute» names b | reference r b =>
    obtain rfl := List.mem_singleton.1 h
    exact fun _ hx => Or.inr hx
  | oneOrMore b | mixed b =>
    obtain rfl := List.mem_singleton.1 h
    exact fun _ hx => Or.inr (Or.inr hx)
  | _ => cases h

theorem size_le_of_mem_parts (h : a ∈ e.parts) : a.size ≤ e.size := by
  cases e <;> simp only [parts, List.mem_cons, List.not_mem_nil, or_false] at h <;> rw [size] <;> grind

theorem length_alternatives_le (e : Form) : e.alternatives.length ≤ e.size := by
  induction e with
  | choice a b iha ihb =>
    rw [alternatives_of_choice, List.length_append, size]
    omega
  | nullSet => exact Nat.zero_le _
  | _ => exact Nat.succ_le_succ (Nat.zero_le _)

structure Covered (K : Nat) (W : Set Form) (e : Form) : Prop where
  size : e.size ≤ K
  subset : residues K e ⊆ W

theorem Covered.part (he : e.Covered K W) (ha : a ∈ e.parts) : a.Covered K W :=
  ⟨(size_le_of_mem_parts ha).trans he.size, (residues_subset ha).trans he.subset⟩

theorem Covered.count (he : e.Covered K W) (x : Form) : e.alternatives.count x ≤ K :=
  List.count_le_length.trans ((length_alternatives_le e).trans he.size)

theorem Covered.drawn (he : e.Covered K W) : e.Drawn K (residues K e) := by
  have hself {e : Form} (he : e.Covered K W) (halternatives : e.alternatives = [e])
      (hmem : e ∈ residues K e) : e.Drawn K (residues K e) :=
    ⟨by simpa [halternatives] using hmem, he.count⟩
  induction e with
  | nullSet => exact .nullSet
  | epsilon => exact hself he rfl rfl
  | anyString | typedString | element | «attribute» | reference => exact hself he rfl (Or.inl rfl)
  | choice a b iha ihb =>
    have ha := iha (he.part (by simp [parts]))
    have hb := ihb (he.part (by simp [parts]))
    exact ⟨fun x hx => (List.mem_append.1 hx).imp (ha.mem x) (hb.mem x), he.count⟩
  | sequence a b iha ihb | interleave a b iha ihb =>
    have ha := iha (he.part (by simp [parts]))
    have hb := ihb (he.part (by simp [parts]))
    exact hself he rfl (Or.inl ⟨a, ha, b, hb, rfl⟩)
  | oneOrMore a ih => exact hself he rfl (Or.inr (Or.inl ⟨a, ih (he.part (by simp [parts])), rfl⟩))
  | mixed a ih => exact hself he rfl (Or.inl ⟨a, ih (he.part (by simp [parts])), rfl⟩)

section Stepwise

variable {β : Type} {op : Form → Plan β} {R : Set Form → β → Prop}

structure Stepwise (K : Nat) (W : Set Form) (op : Form → Plan β) (R : Set Form → β → Prop) :
    Prop where
  byAlternatives : ByAlternatives K W op R
  leaf : ∀ {L x}, Admits K W op R L → x ∈ L → x.parts = [] → (op x).Keeps (Drawn K W) (R L)
  «attribute» : ∀ {L names a}, Admits K W op R L → .attribute names a ∈ L → a.Drawn K W →
    (op (.attribute names a)).Keeps (Drawn K W) (R L)
  reference : ∀ {A L r a}, Admits K W op R L → .reference r a ∈ L → A ⊆ L →
    Leads K W op R A A → a.Drawn K A → (op (.reference r a)).Keeps (Drawn K W) (R L)
  sequence : ∀ {A C L y z}, Admits K W op R L → Joins K .sequence A C L → Leads K W op R A A →
    Leads K W op R C C → y.Drawn K A → z.Drawn K C → (op (.sequence y z)).Keeps (Drawn K W) (R L)
  interleave : ∀ {A C L y z}, Admits K W op R L → Joins K .interleave A C L → Leads K W op R A A →
    Leads K W op R C C → y.Drawn K A → z.Drawn K C → (op (.interleave y z)).Keeps (Drawn K W) (R L)
  oneOrMore : ∀ {a}, Admits K W op R (residues K (.oneOrMore a)) →
    Leads K W op R (residues K a) (residues K a) →
    Leads K W op R (residues K (.oneOrMore a)) (residues K (.oneOrMore a))
  mixed : ∀ {A L y}, Admits K W op R L → A ⊆ L → (∀ {y}, y.Drawn K A → .mixed y ∈ L) →
    .anyString ∈ L → Leads K W op R A A → y.Drawn K A → (op (.mixed y)).Keeps (Drawn K W) (R L)

theorem Stepwise.admits (hop : Stepwise K W op R) (hK : 0 < K) (he : e.Covered K W) :
    Admits K W op R (residues K e) :=
  ⟨hop.byAlternatives, hK, he.subset, epsilon_mem_residues e⟩

theorem Stepwise.leads (hop : Stepwise K W op R) (hK : 0 < K) (he : e.Covered K W) :
    Leads K W op R (residues K e) (residues K e) := by
  have hpart {a e : Form} (ha : a ∈ e.parts) (h : Leads K W op R (residues K a) (residues K a)) :
      Leads K W op R (residues K a) (residues K e) :=
    h.mono hop.byAlternatives (residues_subset ha)
  induction e with
  | epsilon | nullSet =>
    have hL := hop.admits hK he
    exact hL.singleton rfl (hop.leaf hL rfl rfl)
  | anyString | typedString | element =>
    have hL := hop.admits hK he
    have hself := hL.singleton (Or.inl rfl) (hop.leaf hL (Or.inl rfl) rfl)
    exact hL.union hself (hL.singleton (Or.inr rfl) (hop.leaf hL (Or.inr rfl) rfl))
  | «attribute» names a ih =>
    have hL := hop.admits hK he
    have hmem : a ∈ (Form.attribute names a).parts := List.mem_singleton_self a
    have ha := he.part hmem
    refine hL.union (hL.singleton (Or.inl rfl) ?_) (hpart hmem (ih ha))
    exact hop.attribute hL (Or.inl rfl) (ha.drawn.mono ha.subset)
  | reference r a ih =>
    have hL := hop.admits hK he
    have hmem : a ∈ (Form.reference r a).parts := List.mem_singleton_self a
    have ha := he.part hmem
    refine hL.union (hL.singleton (Or.inl rfl) ?_) (hpart hmem (ih ha))
    exact hop.reference hL (Or.inl rfl) (residues_subset hmem) (ih ha) ha.drawn
  | choice a b iha ihb =>
    have hmemA : a ∈ (Form.choice a b).parts := by simp [parts]
    have hmemB : b ∈ (Form.choice a b).parts := by simp [parts]
    exact (hop.admits hK he).union (hpart hmemA (iha (he.part hmemA)))
      (hpart hmemB (ihb (he.part hmemB)))
  | sequence a b iha ihb =>
    have hL := hop.admits hK he
    have hmemA : a ∈ (Form.sequence a b).parts := by simp [parts]
    have hmemB : b ∈ (Form.sequence a b).parts := by simp [parts]
    have ha := iha (he.part hmemA)
    have hb := ihb (he.part hmemB)
    have hjoins : Joins K .sequence (residues K a) (residues K b) (residues K (.sequence a b)) :=
      ⟨residues_subset hmemA, residues_subset hmemB, fun hy hz => Or.inl ⟨_, hy, _, hz, rfl⟩⟩
    refine hL.union (hL.image2 (fun _ _ => hjoins.mem) fun y z hy hz => ?_)
      (hL.union (hpart hmemA ha) (hpart hmemB hb))
    exact hop.sequence hL hjoins ha hb hy hz
  | interleave a b iha ihb =>
    have hL := hop.admits hK he
    have hmemA : a ∈ (Form.interleave a b).parts := by simp [parts]
    have hmemB : b ∈ (Form.interleave a b).parts := by simp [parts]
    have ha := iha (he.part hmemA)
    have hb := ihb (he.part hmemB)
    have hjoins : Joins K .interleave (residues K a) (residues K b) (residues K (.interleave a b)) :=
      ⟨residues_subset hmemA, residues_subset hmemB, fun hy hz => Or.inl ⟨_, hy, _, hz, rfl⟩⟩
    refine hL.union (hL.image2 (fun _ _ => hjoins.mem) fun y z hy hz => ?_)
      (hL.union (hpart hmemA ha) (hpart hmemB hb))
    exact hop.interleave hL hjoins ha hb hy hz
  | oneOrMore a ih =>
    exact hop.oneOrMore (hop.admits hK he) (ih (he.part (List.mem_singleton_self a)))
  | mixed a ih =>
    have hL := hop.admits hK he
    have hmem : a ∈ (Form.mixed a).parts := List.mem_singleton_self a
    have ha := ih (he.part hmem)
    have hmixed {y : Form} (hy : y.Drawn K (residues K a)) : .mixed y ∈ residues K (.mixed a) :=
      Or.inl ⟨y, hy, rfl⟩
    have hany : .anyString ∈ residues K (.mixed a) := Or.inr (Or.inl rfl)
    refine hL.union (hL.image (fun _ => hmixed) fun y hy => ?_)
      (hL.union (hL.singleton hany (hop.leaf hL hany rfl)) (hpart hmem ha))
    exact hop.mixed hL (residues_subset hmem) hmixed hany ha hy

end Stepwise

theorem derive_sequence_keeps (hL : L ⊆ W) (ha : (a.derive token fits).Keeps (Drawn K W) (Drawn K A))
    (hb : (b.derive token fits).Keeps (Drawn K W) (Drawn K L))
    (hsequence : ∀ d, d.Drawn K A → (Plan.sequence d b).Keeps (Drawn K W) (Drawn K L)) :
    ((Form.sequence a b).derive token fits).Keeps (Drawn K W) (Drawn K L) := by
  refine .bind ha fun d hd => .bind (hsequence d hd) fun _ hfirst => ?_
  split
  . exact .bind hb fun _ hsecond => hfirst.choice hL hsecond
  . exact .pure hfirst

theorem derive_stepwise (hfits : ∀ x, x.Drawn K W → (fits x).Keeps (Drawn K W) fun _ => True) :
    Stepwise K W (derive token fits) (Drawn K) where
  byAlternatives := derive_byAlternatives
  leaf {L x} hL hx hparts := by
    have hepsilon : Form.epsilon.Drawn K L := .epsilon hL.pos hL.epsilon
    cases x with
    | epsilon | nullSet => exact .pure .nullSet
    | anyString =>
      refine .pure ?_
      split
      . exact .single hL.pos rfl hx
      . exact .nullSet
    | typedString type =>
      unfold derive
      split
      . refine .pure ?_
        split
        . exact hepsilon
        . exact .nullSet
      . exact .pure .nullSet
    | element head =>
      refine .pure ?_
      split
      . exact hepsilon
      . exact .nullSet
    | _ => cases hparts
  «attribute» hL _ ha := by
    unfold derive
    split
    . split
      . refine .bind (hfits _ ha) fun fit _ => ?_
        split
        . exact .pure (.epsilon hL.pos hL.epsilon)
        . exact .pure .nullSet
      . exact .pure .nullSet
    . exact .pure .nullSet
  reference _ _ hA h ha := (h.keeps _ ha).mono fun _ hd => hd.mono hA
  sequence hL hjoins hA hC hy hz := by
    have hz' := (hC.keeps _ hz).mono fun _ hd => hd.mono hjoins.right
    exact derive_sequence_keeps hL.subset (hA.keeps _ hy) hz' fun d hd =>
      hd.sequence hL.pos hL.subset hjoins hz
  interleave hL hjoins hA hC hy hz := by
    refine .bind (hA.keeps _ hy) fun d hd => ?_
    refine .bind (hd.interleave hL.pos hL.subset hjoins hz) fun _ hfirst => ?_
    refine .bind (hC.keeps _ hz) fun d hd => ?_
    refine .bind (hy.interleave hL.pos hL.subset hjoins hd) fun _ hsecond => ?_
    exact hfirst.choice hL.subset hsecond
  oneOrMore {a} hL ha := by
    have hmore : repetitions K (residues K a) ⊆ residues K (.oneOrMore a) := fun _ h => Or.inr h
    have hjoins : Joins K .sequence (residues K a) (repetitions K (residues K a))
        (residues K (.oneOrMore a)) :=
      ⟨residues_subset (List.mem_singleton_self a), hmore, fun hy hz => Or.inl ⟨_, hy, _, hz, rfl⟩⟩
    have hrepetitions : Leads K W (derive token fits) (Drawn K) (repetitions K (residues K a))
        (residues K (.oneOrMore a)) := by
      refine hL.union (hL.image (fun y hy => hmore (Or.inl ⟨y, hy, rfl⟩)) fun y hy => ?_)
        (ha.mono hL.op hjoins.left)
      refine .bind (ha.keeps y hy) fun d hd => ?_
      refine .bind (hy.zeroOrMore hL.pos (hmore.trans hL.subset) (epsilon_mem_residues a)) ?_
      exact fun z hz => hd.sequence hL.pos hL.subset hjoins hz
    refine hL.union (hL.image2 (fun _ _ => hjoins.mem) fun y z hy hz => ?_) hrepetitions
    exact derive_sequence_keeps hL.subset (ha.keeps y hy) (hrepetitions.keeps z hz) fun d hd =>
      hd.sequence hL.pos hL.subset hjoins hz
  mixed hL hA hmem hany h hy := by
    unfold derive
    split
    . exact .pure (.single hL.pos rfl (hmem hy))
    . exact .bind (h.keeps _ hy) fun d hd => hd.mixed hL.pos hL.subset hA hmem hany

theorem discharge_sequence_keeps {C : Set Form} (hK : 0 < K) (hL : L ⊆ W)
    (hjoins : Joins K .sequence A C L) (ha : (a.discharge pending).Keeps (Drawn K W) (Drawn K A))
    (hb : (b.discharge pending).Keeps (Drawn K W) (Drawn K C)) (hab : .sequence a b ∈ L) :
    ((Form.sequence a b).discharge pending).Keeps (Drawn K W) (Drawn K L) := by
  refine .bind ha fun d hd => .bind hb fun d' hd' => ?_
  split
  . exact .pure (.single hK rfl hab)
  . exact hd.sequence hK hL hjoins hd'

theorem discharge_stepwise : Stepwise K W (discharge pending) (Drawn K) where
  byAlternatives := discharge_byAlternatives
  leaf {L x} hL hx hparts := by
    cases x with
    | nullSet => exact .pure .nullSet
    | epsilon | anyString | typedString | element => exact .pure (.single hL.pos rfl hx)
    | _ => cases hparts
  «attribute» hL _ _ := by
    refine .pure ?_
    cases pending with
    | missing => exact .nullSet
    | granted => exact .epsilon hL.pos hL.epsilon
  reference hL hmem hA h ha := by
    refine .bind (h.keeps _ ha) fun d hd => .pure ?_
    split
    . exact .single hL.pos rfl hmem
    . exact hd.mono hA
  sequence hL hjoins hA hC hy hz :=
    discharge_sequence_keeps hL.pos hL.subset hjoins (hA.keeps _ hy) (hC.keeps _ hz)
      (hjoins.mem hy hz)
  interleave hL hjoins hA hC hy hz := by
    refine .bind (hA.keeps _ hy) fun d hd => .bind (hC.keeps _ hz) fun d' hd' => ?_
    split
    . exact .pure (.single hL.pos rfl (hjoins.mem hy hz))
    . exact hd.interleave hL.pos hL.subset hjoins hd'
  oneOrMore {a} hL ha := by
    have hmore : repetitions K (residues K a) ⊆ residues K (.oneOrMore a) := fun _ h => Or.inr h
    have hagain : residues K a ⊆ repetitions K (residues K a) := fun _ h => Or.inr h
    have hM : Admits K W (discharge pending) (Drawn K) (repetitions K (residues K a)) :=
      ⟨hL.op, hL.pos, hmore.trans hL.subset, hagain (epsilon_mem_residues a)⟩
    have hjoins : Joins K .sequence (residues K a) (repetitions K (residues K a))
        (residues K (.oneOrMore a)) :=
      ⟨hagain.trans hmore, hmore, fun hy hz => Or.inl ⟨_, hy, _, hz, rfl⟩⟩
    have hmem (y : Form) (hy : y.Drawn K (residues K a)) :
        .oneOrMore y ∈ repetitions K (residues K a) := Or.inl ⟨y, hy, rfl⟩
    have hrepetitions : Leads K W (discharge pending) (Drawn K) (repetitions K (residues K a))
        (repetitions K (residues K a)) := by
      refine hM.union (hM.image hmem fun y hy => ?_) (ha.mono hL.op hagain)
      refine .bind (ha.keeps y hy) fun d hd => ?_
      split
      . exact .pure (.single hL.pos rfl (hmem y hy))
      . exact hd.oneOrMore hL.pos hM.subset
    refine hL.union (hL.image2 (fun _ _ => hjoins.mem) fun y z hy hz => ?_)
      (hrepetitions.mono hL.op hmore)
    exact discharge_sequence_keeps hL.pos hL.subset hjoins (ha.keeps y hy) (hrepetitions.keeps z hz)
      (hjoins.mem hy hz)
  mixed hL hA hmem hany h hy := by
    refine .bind (h.keeps _ hy) fun d hd => ?_
    split
    . exact .pure (.single hL.pos rfl (hmem hy))
    . exact hd.mixed hL.pos hL.subset hA hmem hany

theorem required_both_keeps {y z : Form} (hK : 0 < K) (hepsilon : .epsilon ∈ L)
    (hy : y.required.run.Keeps (Drawn K W) fun e? => ∀ x ∈ e?, x.Drawn K L)
    (hz : z.required.run.Keeps (Drawn K W) fun e? => ∀ x ∈ e?, x.Drawn K L) :
    (required (.sequence y z)).run.Keeps (Drawn K W) fun e? => ∀ x ∈ e?, x.Drawn K L := by
  refine .attempt hy fun p hp => .attempt hz fun q hq => .pure ?_
  rintro _ ⟨⟩
  split
  . exact hp
  . split
    . exact hq
    . exact .epsilon hK hepsilon

theorem required_stepwise (hK : 0 < K) :
    Stepwise K W (fun e => e.required.run) fun L e? => ∀ x ∈ e?, x.Drawn K L where
  byAlternatives := required_byAlternatives hK
  leaf {L x} hL hx hparts := by
    have hepsilon : Form.epsilon.Drawn K L := .epsilon hL.pos hL.epsilon
    cases x with
    | nullSet => exact .pure (by simp)
    | epsilon | anyString | typedString | element => exact .pure (by simpa using hepsilon)
    | _ => cases hparts
  «attribute» hL hmem _ := by
    refine .pure ?_
    rintro _ ⟨⟩
    exact .single hL.pos rfl hmem
  reference {_ _ _ a} hL _ hA h ha := (h.mono hL.op hA).keeps a ha
  sequence hL hjoins hA hC hy hz :=
    required_both_keeps hL.pos hL.epsilon ((hA.mono hL.op hjoins.left).keeps _ hy)
      ((hC.mono hL.op hjoins.right).keeps _ hz)
  interleave hL hjoins hA hC hy hz :=
    required_both_keeps hL.pos hL.epsilon ((hA.mono hL.op hjoins.left).keeps _ hy)
      ((hC.mono hL.op hjoins.right).keeps _ hz)
  oneOrMore {a} hL ha := by
    have hpart : residues K a ⊆ residues K (.oneOrMore a) :=
      residues_subset (List.mem_singleton_self a)
    have ha := ha.mono hL.op hpart
    have hrepetitions : Leads K W (fun e => e.required.run) (fun L e? => ∀ x ∈ e?, x.Drawn K L)
        (repetitions K (residues K a)) (residues K (.oneOrMore a)) :=
      hL.union (hL.image (fun y hy => Or.inr (Or.inl ⟨y, hy, rfl⟩)) ha.keeps) ha
    refine hL.union (hL.image2 (fun y z hy hz => Or.inl ⟨y, hy, z, hz, rfl⟩) fun y z hy hz => ?_)
      hrepetitions
    exact required_both_keeps hL.pos hL.epsilon (ha.keeps y hy) (hrepetitions.keeps z hz)
  mixed {_ _ y} hL hA _ _ h hy := (h.mono hL.op hA).keeps y hy

section Base

variable {base : Set Form}

theorem Stepwise.keeps {β : Type} {op : Form → Plan β} {R : Set Form → β → Prop}
    (hop : Stepwise K (⋃ e ∈ base, residues K e) op R) (hK : 0 < K) (hne : base.Nonempty)
    (hbase : ∀ e ∈ base, e.size ≤ K) (he : e.Drawn K (⋃ e ∈ base, residues K e)) :
    (op e).Keeps (Drawn K (⋃ e ∈ base, residues K e)) (R (⋃ e ∈ base, residues K e)) := by
  have hsubset {e : Form} (he : e ∈ base) : residues K e ⊆ ⋃ e ∈ base, residues K e :=
    Set.subset_biUnion_of_mem he
  have hepsilon : .epsilon ∈ ⋃ e ∈ base, residues K e :=
    hsubset hne.some_mem (epsilon_mem_residues _)
  refine hop.byAlternatives.keeps le_rfl le_rfl hepsilon ?_ e he
  intro x hx hself
  obtain ⟨e, he, hx⟩ := Set.mem_iUnion₂.1 hx
  have hleads := hop.leads hK ⟨hbase e he, hsubset he⟩
  exact (hleads.mono hop.byAlternatives (hsubset he)).keeps x (.single hK hself hx)

/--
The operations on expressions lead from what is drawn from the residues of some forms to the same.
-/
theorem stable_drawn (hK : 0 < K) (hne : base.Nonempty) (hbase : ∀ e ∈ base, e.size ≤ K) :
    Stable (Drawn K (⋃ e ∈ base, residues K e)) := by
  have hderive (token : Token) (fits : Form → Plan Bool)
      (hfits : ∀ x, x.Drawn K (⋃ e ∈ base, residues K e) →
        (fits x).Keeps (Drawn K (⋃ e ∈ base, residues K e)) fun _ => True) {e : Form}
      (he : e.Drawn K (⋃ e ∈ base, residues K e)) :
      (e.derive token fits).Keeps (Drawn K (⋃ e ∈ base, residues K e))
        (Drawn K (⋃ e ∈ base, residues K e)) :=
    (derive_stepwise hfits).keeps hK hne hbase he
  refine ⟨.nullSet, fun ha hb => ha.choice le_rfl hb, fun token e he => ?_, fun pending e he => ?_,
    fun he => ?_⟩
  . refine hderive token _ (fun c hc => ?_) he
    unfold acceptsToken
    split
    . unfold acceptsValue
      split
      . exact .pure trivial
      . split
        . exact .pure trivial
        . exact .bind (hderive _ _ (fun _ _ => .pure trivial) hc) fun _ _ => .pure trivial
    . exact .pure trivial
  . exact discharge_stepwise.keeps hK hne hbase he
  . exact ((required_stepwise hK).keeps hK hne hbase he).mono fun _ _ => trivial

end Base

end Form

end TreeGrammar
