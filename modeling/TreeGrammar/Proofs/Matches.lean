import Mathlib.Data.List.GetD
import Mathlib.Logic.Function.Iterate
import Mathlib.Logic.Relation
import TreeGrammar.Regex.Lengths

/-!
This module contains what a regular expression matches, and the correctness of the search for it: the
lengths that are calculated for the places of a text are those of the matches.
-/

namespace TreeGrammar

open Relation

def Place.at (s : List Char) : Nat → Place
  | 0 => { before := none, after := s[0]? }
  | i + 1 => { before := s[i]?, after := s[i + 1]? }

def Times (R : Nat → Nat → Prop) : Nat → Nat → Nat → Prop
  | 0 => Eq
  | n + 1 => Comp R (Times R n)

/--
The expression matches the part of the text between the two places.
-/
def Regex.Matches (s : List Char) : Regex → Nat → Nat → Prop
  | .empty, i, j => i = j
  | .one k, i, j => ∃ c, s[i]? = some c ∧ k.contains c = true ∧ j = i + 1
  | .anchor a, i, j => a.holds (.at s i) = true ∧ i = j
  | .seq a b, i, j => ∃ m, a.Matches s i m ∧ b.Matches s m j
  | .alt a b, i, j => a.Matches s i j ∨ b.Matches s i j
  | .repeated min max _ a, i, j =>
    ∃ more, (∀ n ∈ max, more ≤ n - min) ∧ Times (a.Matches s) (min + more) i j
  | .group _ a, i, j => a.Matches s i j

namespace Lengths

/--
The lengths at the first `n + 1` places lead where the relation does, and never beyond the last.
-/
structure Describes (a : Lengths) (n : Nat) (R : Nat → Nat → Prop) : Prop where
  length : a.length = n + 1
  within : ∀ i ≤ n, ∀ j, R i j → i ≤ j ∧ j ≤ n
  testBit : ∀ i ≤ n, ∀ d, (a.getD i 0).testBit d = true ↔ R i (i + d)

variable {a b : Lengths} {n : Nat} {R S : Nat → Nat → Prop}

theorem testBit_or_two_mul {x y d : Nat} : (x ||| 2 * y).testBit d = true ↔
    x.testBit d = true ∨ ∃ e, d = e + 1 ∧ y.testBit e = true := by
  rw [Nat.testBit_or, Bool.or_eq_true]
  cases d with
  | zero => simp
  | succ d => simp [Nat.testBit_succ]

theorem testBit_extend {x d : Nat} : (extend x a).testBit d = true ↔
    ∃ e f, d = e + f ∧ x.testBit e = true ∧ (a.getD e 0).testBit f = true := by
  induction a generalizing x d with
  | nil => simp [extend]
  | cons rest later ih =>
    unfold extend
    split
    . next hx => simp [hx]
    . rw [testBit_or_two_mul]
      constructor
      . intro h
        cases h with
        | inl h =>
          split at h
          . next hodd => exact ⟨0, d, by omega, by simpa [Nat.testBit_zero] using hodd, by simpa using h⟩
          . simp at h
        | inr h =>
          obtain ⟨k, hk, h⟩ := h
          rw [ih] at h
          obtain ⟨e, f, hef, he, hf⟩ := h
          refine ⟨e + 1, f, by omega, ?_, ?_⟩
          . rwa [Nat.testBit_succ]
          . simpa using hf
      . intro h
        obtain ⟨e, f, hef, he, hf⟩ := h
        cases e with
        | zero =>
          left
          rw [Nat.testBit_zero, decide_eq_true_eq] at he
          rw [if_pos he]
          simpa [hef] using hf
        | succ e =>
          right
          refine ⟨e + f, by omega, ?_⟩
          rw [ih]
          rw [Nat.testBit_succ] at he
          exact ⟨e, f, rfl, he, by simpa using hf⟩

theorem length_andThen (h : a.length = b.length) : (a.andThen b).length = a.length := by
  induction a generalizing b with
  | nil => rfl
  | cons x a ih =>
    cases b with
    | nil => contradiction
    | cons y b =>
      rw [List.length_cons, List.length_cons, Nat.add_right_cancel_iff] at h
      rw [andThen, List.length_cons, List.length_cons, ih h]

theorem getD_andThen {i : Nat} (h : a.length = b.length) (hi : i < a.length) :
    (a.andThen b).getD i 0 = extend (a.getD i 0) (b.drop i) := by
  induction a generalizing b i with
  | nil => contradiction
  | cons x a ih =>
    cases b with
    | nil => contradiction
    | cons y b =>
      cases i with
      | zero => rfl
      | succ i =>
        rw [andThen, List.getD_cons_succ, List.getD_cons_succ, List.drop_succ_cons]
        exact ih (by simpa using h) (by simpa using hi)

theorem length_anyNumber : a.anyNumber.length = a.length := by
  induction a with
  | nil => rfl
  | cons x a ih => rw [anyNumber, List.length_cons, List.length_cons, ih]

theorem getD_anyNumber {i : Nat} (hi : i < a.length) :
    a.anyNumber.getD i 0 = 1 ||| 2 * extend (a.getD i 0 / 2) (a.anyNumber.drop (i + 1)) := by
  induction a generalizing i with
  | nil => contradiction
  | cons x a ih =>
    rw [anyNumber]
    cases i with
    | zero => rfl
    | succ i =>
      rw [List.getD_cons_succ, List.getD_cons_succ, List.drop_succ_cons]
      exact ih (by simpa using hi)

theorem iterate_eq {f : Lengths → Lengths} {k : Nat} : iterate f k a = f^[k] a := by
  induction k generalizing a with
  | zero => rfl
  | succ k ih =>
    rw [iterate]
    split
    . next hfixed => exact (Function.iterate_fixed hfixed (k + 1)).symm
    . rw [ih, Function.iterate_succ_apply]

namespace Describes

theorem congr (h : a.Describes n R) (hRS : ∀ i ≤ n, ∀ j, R i j ↔ S i j) : a.Describes n S where
  length := h.length
  within i hi j hS := h.within i hi j ((hRS i hi j).mpr hS)
  testBit i hi d := (h.testBit i hi d).trans (hRS i hi (i + d))

theorem zero {α : Type} {l : List α} (h : l.length = n + 1) :
    Describes (l.map fun _ => 1) n Eq where
  length := by rw [List.length_map, h]
  within := by
    intro i hi j heq
    omega
  testBit := by
    intro i hi d
    have hone : (l.map fun _ => 1).getD i 0 = 1 := by
      simp [List.getD_eq_getElem?_getD, h, Nat.lt_succ_of_le hi]
    rw [hone, Nat.testBit_one_eq_true_iff_self_eq_zero]
    omega

theorem either (ha : a.Describes n R) (hb : b.Describes n S) :
    (a.either b).Describes n fun i j => R i j ∨ S i j where
  length := by
    rw [Lengths.either, List.length_zipWith, ha.length, hb.length, Nat.min_self]
  within := by
    intro i hi j h
    cases h with
    | inl h => exact ha.within i hi j h
    | inr h => exact hb.within i hi j h
  testBit := by
    intro i hi d
    have hor : (a.either b).getD i 0 = a.getD i 0 ||| b.getD i 0 := by
      have hai : i < a.length := by rw [ha.length]; omega
      have hbi : i < b.length := by rw [hb.length]; omega
      rw [Lengths.either, List.getD_eq_getElem _ _ (by rw [List.length_zipWith]; omega),
        List.getElem_zipWith, List.getD_eq_getElem _ _ hai, List.getD_eq_getElem _ _ hbi]
    rw [hor, Nat.testBit_or, Bool.or_eq_true, ha.testBit i hi, hb.testBit i hi]

theorem andThen (ha : a.Describes n R) (hb : b.Describes n S) :
    (a.andThen b).Describes n (Comp R S) where
  length := by rw [length_andThen (ha.length.trans hb.length.symm), ha.length]
  within := by
    intro i hi j h
    obtain ⟨m, hR, hS⟩ := h
    have hm := ha.within i hi m hR
    have hj := hb.within m hm.2 j hS
    exact ⟨Nat.le_trans hm.1 hj.1, hj.2⟩
  testBit := by
    intro i hi d
    rw [getD_andThen (ha.length.trans hb.length.symm) (by rw [ha.length]; omega), testBit_extend]
    have hdrop : ∀ e, (b.drop i).getD e 0 = b.getD (i + e) 0 := by
      intro e
      rw [List.getD_eq_getElem?_getD, List.getElem?_drop, List.getD_eq_getElem?_getD]
    constructor
    . intro h
      obtain ⟨e, f, hef, he, hf⟩ := h
      rw [ha.testBit i hi] at he
      rw [hdrop, hb.testBit _ (ha.within i hi _ he).2] at hf
      refine ⟨i + e, he, ?_⟩
      rwa [hef, ← Nat.add_assoc]
    . intro h
      obtain ⟨m, hR, hS⟩ := h
      have hm := ha.within i hi m hR
      have hj := hb.within m hm.2 _ hS
      refine ⟨m - i, i + d - m, by omega, ?_, ?_⟩
      . rw [ha.testBit i hi, Nat.add_sub_cancel' hm.1]
        exact hR
      . rw [hdrop, Nat.add_sub_cancel' hm.1, hb.testBit m hm.2, Nat.add_sub_cancel' hj.1]
        exact hS

theorem times (ha : a.Describes n R) (k : Nat) : (a.times k).Describes n (Times R k) := by
  rw [Lengths.times, iterate_eq]
  induction k with
  | zero => exact .zero ha.length
  | succ k ih =>
    rw [Function.iterate_succ_apply']
    exact ha.andThen ih

theorem upTo (ha : a.Describes n R) (k : Nat) :
    (a.upTo k).Describes n fun i j => ∃ m ≤ k, Times R m i j := by
  rw [Lengths.upTo, iterate_eq]
  induction k with
  | zero =>
    apply (Describes.zero ha.length).congr
    intro i _ j
    simp [Times]
  | succ k ih =>
    rw [Function.iterate_succ_apply']
    apply ((Describes.zero ha.length).either (ha.andThen ih)).congr
    intro i _ j
    constructor
    . intro h
      cases h with
      | inl h => exact ⟨0, Nat.zero_le _, h⟩
      | inr h =>
        obtain ⟨l, hR, m, hm, htimes⟩ := h
        exact ⟨m + 1, Nat.succ_le_succ hm, l, hR, htimes⟩
    . intro h
      obtain ⟨m, hm, htimes⟩ := h
      cases m with
      | zero => exact Or.inl htimes
      | succ m =>
        obtain ⟨l, hR, htimes⟩ := htimes
        exact Or.inr ⟨l, hR, m, Nat.le_of_succ_le_succ hm, htimes⟩

theorem within_times (ha : a.Describes n R) {k i j : Nat} (hi : i ≤ n) (h : Times R k i j) :
    i ≤ j ∧ j ≤ n := by
  induction k generalizing i with
  | zero =>
    have heq : i = j := h
    omega
  | succ k ih =>
    obtain ⟨m, hR, h⟩ := h
    have hm := ha.within i hi m hR
    have hj := ih hm.2 h
    exact ⟨Nat.le_trans hm.1 hj.1, hj.2⟩

theorem exists_times_iff (ha : a.Describes n R) {i j : Nat} (hi : i ≤ n) :
    (∃ k, Times R k i j) ↔ i = j ∨ ∃ e, R i (i + 1 + e) ∧ ∃ k, Times R k (i + 1 + e) j := by
  constructor
  . intro h
    obtain ⟨k, h⟩ := h
    induction k with
    | zero => exact Or.inl h
    | succ k ih =>
      obtain ⟨m, hR, h⟩ := h
      cases Nat.eq_or_lt_of_le (ha.within i hi m hR).1 with
      | inl heq =>
        rw [← heq] at h
        exact ih h
      | inr hlt =>
        right
        refine ⟨m - (i + 1), ?_⟩
        rw [Nat.add_sub_cancel' hlt]
        exact ⟨hR, k, h⟩
  . intro h
    cases h with
    | inl h => exact ⟨0, h⟩
    | inr h =>
      obtain ⟨e, hR, k, h⟩ := h
      exact ⟨k + 1, i + 1 + e, hR, h⟩

theorem anyNumber (ha : a.Describes n R) :
    a.anyNumber.Describes n fun i j => ∃ k, Times R k i j where
  length := by rw [length_anyNumber, ha.length]
  within := by
    intro i hi j h
    obtain ⟨k, h⟩ := h
    exact ha.within_times hi h
  testBit := by
    intro i hi
    -- the lengths at a place depend on those at later places only
    generalize hk : n - i = k
    induction k using Nat.strongRecOn generalizing i with
    | ind k ih =>
      intro d
      rw [getD_anyNumber (by rw [ha.length]; omega), testBit_or_two_mul,
        Nat.testBit_one_eq_true_iff_self_eq_zero, exists_times_iff ha hi]
      have hdrop : ∀ e, (a.anyNumber.drop (i + 1)).getD e 0 = a.anyNumber.getD (i + 1 + e) 0 := by
        intro e
        rw [List.getD_eq_getElem?_getD, List.getElem?_drop, List.getD_eq_getElem?_getD]
      have hstep : ∀ e, (a.getD i 0 / 2).testBit e = true ↔ R i (i + 1 + e) := by
        intro e
        rw [← Nat.testBit_succ, ha.testBit i hi, Nat.add_assoc, Nat.add_comm 1]
      apply or_congr (by omega)
      constructor
      . intro h
        obtain ⟨c, hc, h⟩ := h
        rw [testBit_extend] at h
        obtain ⟨e, f, hef, he, hf⟩ := h
        rw [hstep] at he
        have hm := ha.within i hi _ he
        rw [hdrop, ih (n - (i + 1 + e)) (by omega) (i + 1 + e) hm.2 rfl] at hf
        refine ⟨e, he, ?_⟩
        have hsum : i + d = i + 1 + e + f := by omega
        rwa [hsum]
      . intro h
        obtain ⟨e, he, h⟩ := h
        have hm := ha.within i hi _ he
        obtain ⟨l, hl⟩ := h
        have hj := ha.within_times hm.2 hl
        refine ⟨d - 1, by omega, ?_⟩
        rw [testBit_extend]
        refine ⟨e, d - 1 - e, by omega, (hstep e).mpr he, ?_⟩
        rw [hdrop, ih (n - (i + 1 + e)) (by omega) (i + 1 + e) hm.2 rfl]
        have hsum : i + 1 + e + (d - 1 - e) = i + d := by omega
        rw [hsum]
        exact ⟨l, hl⟩

end Describes

end Lengths

namespace Regex

open Lengths

variable {s : List Char} {before : Lengths} {R : Nat → Nat → Prop} {r : Regex}

theorem length_places {b : Option Char} : (Place.all b s).length = s.length + 1 := by
  induction s generalizing b with
  | nil => rfl
  | cons c s ih => rw [Place.all, List.length_cons, ih, List.length_cons]

theorem getElem?_places {i : Nat} (hi : i ≤ s.length) :
    (Place.all none s)[i]? = some (.at s i) := by
  have hall : ∀ (b : Option Char) (s : List Char) (i : Nat), i ≤ s.length →
      (Place.all b s)[i]? = some (match i with
        | 0 => { before := b, after := s[0]? }
        | i + 1 => .at s (i + 1)) := by
    intro b s i hi
    induction s generalizing b i with
    | nil =>
      cases i with
      | zero => rfl
      | succ i => contradiction
    | cons c s ih =>
      cases i with
      | zero => rfl
      | succ i =>
        rw [Place.all, List.getElem?_cons_succ, ih (some c) i (Nat.le_of_succ_le_succ hi)]
        cases i <;> rfl
  rw [hall none s i hi]
  cases i <;> rfl

theorem describes_places {f : Place → Bool} {w : Nat}
    (hwithin : ∀ i ≤ s.length, f (.at s i) = true → i + w ≤ s.length) :
    Lengths.Describes ((Place.all none s).map fun p => if f p then 1 <<< w else 0) s.length
      fun i j => f (.at s i) = true ∧ j = i + w where
  length := by rw [List.length_map, length_places]
  within := by
    intro i hi j h
    have hw := hwithin i hi h.1
    omega
  testBit := by
    intro i hi d
    rw [List.getD_eq_getElem?_getD, List.getElem?_map, getElem?_places hi]
    cases hf : f (.at s i) with
    | false =>
      rw [Option.map_some, Option.getD_some, hf]
      simp
    | true =>
      rw [Option.map_some, Option.getD_some, hf, if_pos rfl, Nat.shiftLeft_eq, Nat.one_mul,
        Nat.testBit_two_pow, decide_eq_true_eq]
      constructor
      . intro h
        exact ⟨rfl, by omega⟩
      . intro h
        omega

theorem comp_or {A B : Nat → Nat → Prop} {i j : Nat} :
    Comp R A i j ∨ Comp R B i j ↔ Comp R (fun i j => A i j ∨ B i j) i j := by
  unfold Comp
  simp only [and_or_left, exists_or]

theorem times_add {k l : Nat} : Times R (k + l) = Comp (Times R k) (Times R l) := by
  induction k with
  | zero => rw [Nat.zero_add, Times, eq_comp]
  | succ k ih => rw [Nat.succ_add, Times, Times, comp_assoc, ih]

theorem comp_times {P : Nat → Prop} {k i j : Nat} :
    Comp (Times R k) (fun i j => ∃ l, P l ∧ Times R l i j) i j =
      ∃ l, P l ∧ Times R (k + l) i j := by
  simp only [times_add]
  unfold Comp
  grind

/--
The lengths of an expression are those of what comes before it, followed by a match.
-/
theorem advance_describes (hbefore : before.Describes s.length R) :
    (r.advance (Place.all none s) before).Describes s.length (Comp R (r.Matches s)) := by
  induction r generalizing before R with
  | empty =>
    have hmatches : Regex.empty.Matches s = Eq := rfl
    rw [hmatches, comp_eq]
    exact hbefore
  | one k =>
    apply hbefore.andThen
    have hafter : ∀ i, (Place.at s i).after = s[i]? := by
      intro i
      cases i <;> rfl
    have hwithin : ∀ i ≤ s.length, (Place.at s i).after.any k.contains = true → i + 1 ≤ s.length := by
      intro i hi hany
      rw [hafter, Option.any_eq_true] at hany
      obtain ⟨c, hc, -⟩ := hany
      exact (List.getElem?_eq_some_iff.mp hc).1
    apply (describes_places (w := 1) hwithin).congr
    intro i hi j
    rw [hafter, Option.any_eq_true]
    constructor
    . intro h
      obtain ⟨⟨c, hc, hk⟩, hj⟩ := h
      exact ⟨c, hc, hk, hj⟩
    . intro h
      obtain ⟨c, hc, hk, hj⟩ := h
      exact ⟨⟨c, hc, hk⟩, hj⟩
  | anchor a =>
    apply hbefore.andThen
    apply (describes_places (f := a.holds) (w := 0) (by intro i hi _; exact hi)).congr
    intro i _ j
    exact and_congr_right fun _ => eq_comm
  | seq a b iha ihb =>
    have hboth := ihb (iha hbefore)
    rw [comp_assoc] at hboth
    exact hboth
  | alt a b iha ihb =>
    apply ((iha hbefore).either (ihb hbefore)).congr
    intro i _ j
    exact comp_or
  | repeated min max l a ih =>
    have honce := ih (Describes.zero hbefore.length)
    rw [eq_comp] at honce
    have hmin := hbefore.andThen (honce.times min)
    have hmatches : (Regex.repeated min max l a).Matches s = Comp (Times (a.Matches s) min)
        fun i j => ∃ more, (∀ n ∈ max, more ≤ n - min) ∧ Times (a.Matches s) more i j := by
      funext i j
      rw [comp_times]
      rfl
    rw [hmatches, ← comp_assoc]
    apply hmin.andThen
    cases max with
    | none =>
      apply honce.anyNumber.congr
      simp
    | some max =>
      apply (honce.upTo (max - min)).congr
      simp
  | group captures a ih => exact ih hbefore

theorem lengths_describes : (r.lengths (Place.all none s)).Describes s.length (r.Matches s) := by
  have hadvance := advance_describes (r := r) (s := s) (Describes.zero (length_places (b := none)))
  rwa [eq_comp] at hadvance

theorem matchesWithin_iff {text : String} : r.matchesWithin text = true ↔
    ∃ i j, i ≤ text.toList.length ∧ r.Matches text.toList i j := by
  generalize hs : text.toList = s
  have hlengths : (r.lengths (Place.all none s)).Describes s.length (r.Matches s) :=
    lengths_describes
  rw [matchesWithin, hs, List.any_eq_true]
  generalize r.lengths (Place.all none s) = a at hlengths
  constructor
  . intro h
    obtain ⟨x, hx, hne⟩ := h
    obtain ⟨i, hi, hget⟩ := List.getElem_of_mem hx
    obtain ⟨d, hd⟩ := Nat.exists_testBit_of_ne_zero (by simpa using hne)
    have hle : i ≤ s.length := by
      rw [hlengths.length] at hi
      omega
    refine ⟨i, i + d, hle, ?_⟩
    rw [← hlengths.testBit i hle, List.getD_eq_getElem _ _ hi, hget]
    exact hd
  . intro h
    obtain ⟨i, j, hi, h⟩ := h
    have hj := hlengths.within i hi j h
    have hlt : i < a.length := by
      rw [hlengths.length]
      omega
    refine ⟨a[i], List.getElem_mem hlt, ?_⟩
    rw [← Nat.add_sub_cancel' hj.1, ← hlengths.testBit i hi, List.getD_eq_getElem _ _ hlt] at h
    rw [bne_iff_ne]
    intro hzero
    rw [hzero, Nat.zero_testBit] at h
    contradiction

theorem holds_atStart_iff {i : Nat} (hi : i ≤ s.length) :
    Anchor.atStart.holds (.at s i) = true ↔ i = 0 := by
  cases i with
  | zero => simp [Anchor.holds, Place.at]
  | succ i =>
    have hget : s[i]?.isNone = false := by simpa using Nat.lt_of_succ_le hi
    simp [Anchor.holds, Place.at, hget]

theorem holds_atEnd_iff {i : Nat} : Anchor.atEnd.holds (.at s i) = true ↔ s.length ≤ i := by
  cases i <;> simp [Anchor.holds, Place.at]

end Regex

end TreeGrammar
