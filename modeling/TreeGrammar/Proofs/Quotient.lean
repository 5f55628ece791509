import TreeGrammar.Proofs.Language

/-!
This module contains what is left of a language after a letter, operation by operation, and the laws
by which expressions are simplified as they are built.
-/

namespace TreeGrammar

namespace Language

open Computability

variable {α : Type} {l m : Language α} {x : α} {w : List α}

theorem leftQuotient_zero : (0 : Language α).leftQuotient [x] = 0 := by
  ext w
  rw [Language.mem_leftQuotient]
  simp only [Language.notMem_zero]

theorem leftQuotient_one : (1 : Language α).leftQuotient [x] = 0 := by
  ext w
  rw [Language.mem_leftQuotient, Language.mem_one]
  simp [Language.notMem_zero]

theorem leftQuotient_of_letters {p : α → Prop} (hl : ∀ w, w ∈ l ↔ ∃ y, p y ∧ w = [y]) (hx : p x) :
    l.leftQuotient [x] = 1 := by
  ext w
  rw [Language.mem_leftQuotient, hl, Language.mem_one]
  constructor
  . rintro ⟨y, _, hy⟩
    cases hy
    rfl
  . rintro rfl
    exact ⟨x, hx, rfl⟩

theorem leftQuotient_eq_zero (h : ∀ w, x :: w ∉ l) : l.leftQuotient [x] = 0 := by
  ext w
  exact iff_of_false (h w) (Language.notMem_zero w)

theorem leftQuotient_of_letters_eq_zero {p : α → Prop} (hl : ∀ w, w ∈ l ↔ ∃ y, p y ∧ w = [y])
    (hx : ¬ p x) : l.leftQuotient [x] = 0 := by
  refine leftQuotient_eq_zero fun w hw => ?_
  obtain ⟨y, hp, hy⟩ := (hl _).1 hw
  cases hy
  exact hx hp

theorem leftQuotient_add :
    (l + m).leftQuotient [x] = l.leftQuotient [x] + m.leftQuotient [x] := by
  ext w
  simp only [Language.mem_add, Language.mem_leftQuotient]

theorem leftQuotient_mul (h : [] ∉ l) :
    (l * m).leftQuotient [x] = l.leftQuotient [x] * m := by
  ext w
  simp only [Language.mem_leftQuotient, Language.mem_mul]
  constructor
  . rintro ⟨u, hu, v, hv, huv⟩
    cases u with
    | nil => exact absurd hu h
    | cons y u =>
      cases huv
      exact ⟨u, hu, v, hv, rfl⟩
  . rintro ⟨u, hu, v, hv, rfl⟩
    exact ⟨x :: u, hu, v, hv, rfl⟩

theorem leftQuotient_mul_of_nil_mem (h : [] ∈ l) :
    (l * m).leftQuotient [x] = l.leftQuotient [x] * m + m.leftQuotient [x] := by
  ext w
  simp only [Language.mem_add, Language.mem_leftQuotient, Language.mem_mul]
  constructor
  . rintro ⟨u, hu, v, hv, huv⟩
    cases u with
    | nil =>
      cases huv
      exact Or.inr hv
    | cons y u =>
      cases huv
      exact Or.inl ⟨u, hu, v, hv, rfl⟩
  . rintro (⟨u, hu, v, hv, rfl⟩ | hw)
    . exact ⟨x :: u, hu, v, hv, rfl⟩
    . exact ⟨[], h, x :: w, hw, rfl⟩

theorem leftQuotient_kstar : (l∗).leftQuotient [x] = l.leftQuotient [x] * l∗ := by
  ext w
  rw [Language.mem_leftQuotient, Language.mem_mul]
  constructor
  . intro hw
    -- an empty round does not come first
    obtain ⟨rounds, hx, hrounds⟩ := Language.mem_kstar_iff_exists_nonempty.1 hw
    cases rounds with
    | nil => cases hx
    | cons round rounds =>
      obtain ⟨hround, hne⟩ := hrounds round List.mem_cons_self
      cases round with
      | nil => exact absurd rfl hne
      | cons y round =>
        cases hx
        refine ⟨round, hround, rounds.flatten, Language.join_mem_kstar ?_, rfl⟩
        intro v hv
        exact (hrounds v (List.mem_cons_of_mem _ hv)).1
  . rintro ⟨u, hu, v, ⟨rounds, rfl, hrounds⟩, rfl⟩
    refine ⟨(x :: u) :: rounds, rfl, ?_⟩
    intro round hround
    rcases List.mem_cons.1 hround with rfl | hround
    . exact hu
    . exact hrounds round hround

theorem leftQuotient_mul_kstar : (l * l∗).leftQuotient [x] = l.leftQuotient [x] * l∗ := by
  by_cases h : [] ∈ l
  . rw [leftQuotient_mul_of_nil_mem h, leftQuotient_kstar, Language.add_self]
  . exact leftQuotient_mul h

theorem shuffle_nil_left {u w : List α} : Shuffle [] u w ↔ u = w := by
  constructor
  . intro h
    generalize hv : ([] : List α) = v at h
    induction h with
    | nil => rfl
    | left => cases hv
    | right _ ih => rw [ih hv]
  . rintro rfl
    induction u with
    | nil => exact .nil
    | cons _ _ ih => exact .right ih

theorem shuffle_nil_right {u w : List α} : Shuffle u [] w ↔ u = w := by
  constructor
  . intro h
    generalize hv : ([] : List α) = v at h
    induction h with
    | nil => rfl
    | left _ ih => rw [ih hv]
    | right => cases hv
  . rintro rfl
    induction u with
    | nil => exact .nil
    | cons _ _ ih => exact .left ih

theorem leftQuotient_shuffle :
    (shuffle l m).leftQuotient [x] =
      shuffle (l.leftQuotient [x]) m + shuffle l (m.leftQuotient [x]) := by
  ext w
  simp only [Language.mem_add, Language.mem_leftQuotient, mem_shuffle]
  constructor
  . rintro ⟨u, hu, v, hv, huv⟩
    cases huv with
    | left huv => exact Or.inl ⟨_, hu, _, hv, huv⟩
    | right huv => exact Or.inr ⟨_, hu, _, hv, huv⟩
  . rintro (⟨u, hu, v, hv, huv⟩ | ⟨u, hu, v, hv, huv⟩)
    . exact ⟨_, hu, _, hv, .left huv⟩
    . exact ⟨_, hu, _, hv, .right huv⟩

theorem nil_mem_mul : [] ∈ l * m ↔ [] ∈ l ∧ [] ∈ m := by
  rw [Language.mem_mul]
  constructor
  . rintro ⟨u, hu, v, hv, huv⟩
    obtain ⟨rfl, rfl⟩ := List.append_eq_nil_iff.1 huv
    exact ⟨hu, hv⟩
  . rintro ⟨hl, hm⟩
    exact ⟨[], hl, [], hm, rfl⟩

theorem nil_mem_shuffle : [] ∈ shuffle l m ↔ [] ∈ l ∧ [] ∈ m := by
  rw [mem_shuffle]
  constructor
  . rintro ⟨u, hu, v, hv, huv⟩
    cases huv
    exact ⟨hu, hv⟩
  . rintro ⟨hl, hm⟩
    exact ⟨[], hl, [], hm, .nil⟩

theorem zero_shuffle : shuffle 0 m = 0 := by
  ext w
  rw [mem_shuffle]
  simp [Language.notMem_zero]

theorem shuffle_zero : shuffle l 0 = 0 := by
  ext w
  rw [mem_shuffle]
  simp [Language.notMem_zero]

theorem one_shuffle : shuffle 1 m = m := by
  ext w
  rw [mem_shuffle]
  constructor
  . rintro ⟨u, hu, v, hv, huv⟩
    rw [Language.mem_one] at hu
    rw [hu, shuffle_nil_left] at huv
    rw [← huv]
    exact hv
  . intro hw
    exact ⟨[], Language.nil_mem_one, w, hw, shuffle_nil_left.2 rfl⟩

theorem shuffle_one : shuffle l 1 = l := by
  ext w
  rw [mem_shuffle]
  constructor
  . rintro ⟨u, hu, v, hv, huv⟩
    rw [Language.mem_one] at hv
    rw [hv, shuffle_nil_right] at huv
    rw [← huv]
    exact hu
  . intro hw
    exact ⟨w, hw, [], Language.nil_mem_one, shuffle_nil_right.2 rfl⟩

theorem mul_kstar_mul_kstar : l * l∗ * (l * l∗)∗ = l * l∗ := by
  have hstar : (l * l∗)∗ ≤ l∗ := by
    refine kstar_le_of_mul_le_right ?_ ?_
    . exact one_le_kstar
    . rw [mul_assoc, kstar_mul_kstar]
      exact mul_kstar_le_kstar
  refine le_antisymm ?_ ?_
  . rw [mul_assoc]
    gcongr
    calc l∗ * (l * l∗)∗
      _ ≤ l∗ * l∗ := by gcongr
      _ = l∗ := kstar_mul_kstar l
  . calc l * l∗
      _ = l * l∗ * 1 := (mul_one _).symm
      _ ≤ l * l∗ * (l * l∗)∗ := by
        gcongr
        exact one_le_kstar

section Mixed

variable {l : Language Letter} {x : Letter} {w : List Letter}

theorem mixed_zero : mixed 0 = 0 := by
  ext w
  rw [mem_mixed]
  simp only [Language.notMem_zero]

theorem mem_mixed_one : w ∈ mixed 1 ↔ ∀ x ∈ w, x.isText := by
  rw [mem_mixed, Language.mem_one, List.filter_eq_nil_iff]
  simp

theorem mixed_mixed : mixed (mixed l) = mixed l := by
  ext w
  simp only [mem_mixed, List.filter_filter, Bool.and_self]

theorem leftQuotient_mixed_of_isText (h : x.isText) : (mixed l).leftQuotient [x] = mixed l := by
  ext w
  simp [mem_mixed, h]

theorem leftQuotient_mixed (h : ¬ x.isText) :
    (mixed l).leftQuotient [x] = mixed (l.leftQuotient [x]) := by
  ext w
  simp [mem_mixed, h]

end Mixed

end Language

/--
`Thinned w v` says that `v` is what remains of `w` if some blank text is dropped.
-/
inductive Thinned : List Letter → List Letter → Prop where
  | nil : Thinned [] []
  | keep {x w v} : Thinned w v → Thinned (x :: w) (x :: v)
  | drop {x w v} : x.isIgnorable → Thinned w v → Thinned (x :: w) v

namespace Language


variable {l : Language Letter} {x : Letter} {w : List Letter}

/--
The words that are in the language if some blank text in them is dropped, or none.
-/
def loose (l : Language Letter) : Language Letter :=
  ({w | ∃ v, Thinned w v ∧ v ∈ l} : Set (List Letter))

def advance (l : Language Letter) (x : Letter) : Language Letter :=
  if x.isIgnorable then l + l.leftQuotient [x] else l.leftQuotient [x]

theorem mem_loose : w ∈ loose l ↔ ∃ v, Thinned w v ∧ v ∈ l := Iff.rfl

theorem nil_mem_loose : [] ∈ loose l ↔ [] ∈ l := by
  rw [mem_loose]
  constructor
  . rintro ⟨v, hv, hl⟩
    cases hv
    exact hl
  . intro hl
    exact ⟨[], .nil, hl⟩

theorem cons_mem_loose : x :: w ∈ loose l ↔ w ∈ loose (advance l x) := by
  simp only [mem_loose]
  unfold advance
  constructor
  . rintro ⟨v, hv, hl⟩
    cases hv with
    | keep hv =>
      refine ⟨_, hv, ?_⟩
      split
      . exact Or.inr hl
      . exact hl
    | drop hx hv =>
      rw [if_pos hx]
      exact ⟨v, hv, Or.inl hl⟩
  . rintro ⟨v, hv, hl⟩
    split at hl
    . next hx =>
      rcases hl with hl | hl
      . exact ⟨v, .drop hx hv, hl⟩
      . exact ⟨x :: v, .keep hv, hl⟩
    . exact ⟨x :: v, .keep hv, hl⟩

theorem mem_loose_iff_foldl : w ∈ loose l ↔ [] ∈ w.foldl advance l := by
  induction w generalizing l with
  | nil => exact nil_mem_loose
  | cons x w ih => rw [cons_mem_loose, ih, List.foldl_cons]

theorem advance_zero : advance 0 x = 0 := by
  unfold advance
  rw [leftQuotient_zero, add_zero, ite_self]

theorem foldl_advance_zero : w.foldl advance 0 = 0 := by
  induction w with
  | nil => rfl
  | cons x w ih => rw [List.foldl_cons, advance_zero, ih]

end Language

end TreeGrammar
