import TreeGrammar.Proofs.Matches
import TreeGrammar.Proofs.Syntax
import TreeGrammar.Regex.Parser

/-!
This module contains how the engine takes regular expressions to be written, and that it reads whatever
is written so.
-/

namespace TreeGrammar

open Relation

/--
The spans are those of the regular expression.
-/
def Spans.Agrees (m : Spans) (r : Regex) : Prop :=
  ∀ s i j, i ≤ s.length → (m s i j ↔ r.Matches s i j)

def Spans.repeated (min : Nat) (max : Option Nat) (m : Spans) : Spans := fun s i j =>
  ∃ more, (∀ n ∈ max, more ≤ n - min) ∧ Times (m s) (min + more) i j

inductive ClassReader.Reads : ClassReader → List Char → CharClass → Prop where
  | close {k c l} : k.step c = some (.finished l) → Reads k [c] l
  | cons {k c k' text l} : k.step c = some (.reading k') → Reads k' text l → Reads k (c :: text) l

namespace Regex

def marks : List Char := ['\\', '(', ')', '|', '[', '.', '^', '$', '*', '+', '?', '\x7b']

def operators : List Char := ['*', '+', '?', '\x7b']

inductive IsAtom : List Char → Regex → Prop where
  | char {c} : c ∉ marks → IsAtom [c] (.one (.only c))
  | escape {c r} : Reader.escapedPart? c = some r → IsAtom ['\\', c] r
  | bracket {text k} : ClassReader.Reads {} text k → IsAtom ('[' :: text) (.one k)
  | withinLine : IsAtom ['.'] (.one .withinLine)
  | atStart : IsAtom ['^'] (.anchor .atStart)
  | atEnd : IsAtom ['$'] (.anchor .atEnd)

def IsNumber (text : List Char) (n : Nat) : Prop :=
  ∃ numeral, text.foldlM Reader.stepNumeral? (.awaited false) = some numeral ∧
    numeral.value? = some n

inductive IsOperator : List Char → Nat → Option Nat → Prop where
  | star : IsOperator ['*'] 0 none
  | plus : IsOperator ['+'] 1 none
  | mark : IsOperator ['?'] 0 (some 1)
  | exactly {text n} : IsNumber text n → IsOperator ('\x7b' :: (text ++ ['\x7d'])) n (some n)
  | atLeast {text n} : IsNumber text n → IsOperator ('\x7b' :: (text ++ [',', '\x7d'])) n none
  | between {text n text' n'} : IsNumber text n → IsNumber text' n' → n ≤ n' →
    IsOperator ('\x7b' :: (text ++ ',' :: (text' ++ ['\x7d']))) n (some n')

/--
A question mark behind an operator always makes it a lazy one.
-/
inductive IsRun : List Char → (Regex → Regex) → Prop where
  | nil : IsRun [] id
  | greedy {text min max rest f} : IsOperator text min max → IsRun rest f →
    rest.head? ≠ some '?' → IsRun (text ++ rest) (f ∘ .repeated min max false)
  | reluctant {text min max rest f} : IsOperator text min max → IsRun rest f →
    IsRun (text ++ '?' :: rest) (f ∘ .repeated min max true)

def lexicon : Lexicon where
  Mode := Unit
  initial := ()
  atom _ text m := ∃ r, IsAtom text r ∧ m.Agrees r
  run _ text f := ∃ f', IsRun text f' ∧ ∀ m r, m.Agrees r → (f m).Agrees (f' r)
  opening _ text _ := text = ['('] ∨ text = ['(', '?', ':']
  directive _ _ _ := False
  remark _ _ := False
  openRemark _ _ := False

section Agrees

variable {m m' : Spans} {r r' : Regex} {s : List Char} {i j k min : Nat} {max : Option Nat}
variable {rs : List Regex}

theorem within (hi : i ≤ s.length) (h : r.Matches s i j) : i ≤ j ∧ j ≤ s.length :=
  lengths_describes.within i hi j h

theorem agrees_self : Spans.Agrees (fun s => r.Matches s) r :=
  fun _ _ _ _ => Iff.rfl

theorem comp_iff (hm : m.Agrees r) (hm' : m'.Agrees r') (hi : i ≤ s.length) :
    Comp (m s) (m' s) i j ↔ Comp (r.Matches s) (r'.Matches s) i j := by
  constructor
  . rintro ⟨k, hk, hj⟩
    rw [hm s i k hi] at hk
    exact ⟨k, hk, (hm' s k j (within hi hk).2).1 hj⟩
  . rintro ⟨k, hk, hj⟩
    exact ⟨k, (hm s i k hi).2 hk, (hm' s k j (within hi hk).2).2 hj⟩

theorem times_iff (hm : m.Agrees r) (hi : i ≤ s.length) :
    Times (m s) k i j ↔ Times (r.Matches s) k i j := by
  induction k generalizing i with
  | zero => exact Iff.rfl
  | succ k ih =>
    constructor
    . rintro ⟨l, hl, hj⟩
      rw [hm s i l hi] at hl
      exact ⟨l, hl, (ih (within hi hl).2).1 hj⟩
    . rintro ⟨l, hl, hj⟩
      exact ⟨l, (hm s i l hi).2 hl, (ih (within hi hl).2).2 hj⟩

theorem agrees_repeated (hm : m.Agrees r) (isLazy : Bool) :
    (m.repeated min max).Agrees (.repeated min max isLazy r) :=
  fun _ _ _ hi => exists_congr fun _ => and_congr_right fun _ => times_iff hm hi

theorem seqOf_cons : (seqOf (r :: rs)).Matches s = Comp (r.Matches s) ((seqOf rs).Matches s) := by
  cases rs with
  | nil =>
    have hempty : (seqOf []).Matches s = Eq := rfl
    rw [hempty, comp_eq]
    rfl
  | cons => rfl

theorem altOf_iff : (altOf (r :: rs)).Matches s i j ↔
    r.Matches s i j ∨ ∃ r' ∈ rs, r'.Matches s i j := by
  induction rs generalizing r with
  | nil => simp [altOf]
  | cons r' rs ih =>
    simp only [List.mem_cons, exists_eq_or_imp, ← ih]
    rfl

end Agrees

namespace Reader

def CanEnd (mode : Mode) : Prop :=
  mode = .plain ∨ mode = .repetition

def Reaches (q : Reader) (text : List Char) (q' : Reader) : Prop :=
  ∃ mode, CanEnd mode ∧ text.foldlM step (q.turn .plain) = some (q'.turn mode)

variable {q q' q'' : Reader} {text rest : List Char} {c : Char} {mode : Mode} {r : Regex}
variable {rs parts : List Regex} {min : Nat} {max : Option Nat} {f : Regex → Regex}

theorem foldlM_singleton (h : q.step c = some q') : [c].foldlM step q = some q' := by
  rw [List.foldlM_cons, h]
  rfl

theorem foldlM_turn (hmode : CanEnd mode ∨ mode = .opening) (hc : c ≠ '?') :
    (c :: rest).foldlM step (q.turn mode) = (c :: rest).foldlM step (q.turn .plain) := by
  have hplain : (q.turn mode).stepPlain c = (q.turn .plain).stepPlain c := by
    unfold stepPlain
    split <;> rfl
  have hstep : (q.turn mode).step c = (q.turn .plain).step c := by
    obtain (rfl | rfl) | rfl := hmode
    . rfl
    . exact (if_neg hc).trans hplain
    . exact (if_neg hc).trans hplain
  rw [List.foldlM_cons, hstep]
  rfl

theorem Reaches.append (h : q.Reaches text q') (h' : q'.Reaches rest q'')
    (hrest : rest.head? ≠ some '?') : q.Reaches (text ++ rest) q'' := by
  obtain ⟨mode, hmode, hread⟩ := h
  obtain ⟨mode', hmode', hread'⟩ := h'
  unfold Reaches
  rw [List.foldlM_append, hread, Option.bind_eq_bind, Option.bind_some]
  cases rest with
  | nil =>
    refine ⟨mode, hmode, ?_⟩
    have hturn : q'.turn .plain = q''.turn mode' := Option.some.inj hread'
    exact congrArg (fun q => some (q.turn mode)) hturn
  | cons c rest =>
    refine ⟨mode', hmode', ?_⟩
    rw [foldlM_turn (Or.inl hmode) (by simpa using hrest)]
    exact hread'

theorem foldlM_class {k : ClassReader} {l : CharClass} (h : k.Reads text l) :
    text.foldlM step (q.turn (.inClass k)) = some (q.part (.one l)) := by
  induction h with
  | @close k c l hstep =>
    have hclose : (q.turn (.inClass k)).step c = some (q.part (.one l)) := by
      simp only [step, turn, hstep]
      rfl
    exact foldlM_singleton hclose
  | @cons k c k' text l hstep _ ih =>
    have hnext : (q.turn (.inClass k)).step c = some (q.turn (.inClass k')) := by
      simp only [step, turn, hstep]
      rfl
    rw [List.foldlM_cons, hnext]
    exact ih

theorem stepPlain_of_notMem (hc : c ∉ marks) :
    q.stepPlain c = some (q.part (.one (.only c))) := by
  unfold stepPlain
  split <;> first | rfl | simp [marks] at hc

def IsPart (text : List Char) (r : Regex) : Prop :=
  ∀ q : Reader, text.foldlM step (q.turn .plain) = some (q.part r)

theorem isPart_of_isAtom (h : IsAtom text r) : IsPart text r := by
  intro q
  cases h with
  | char hc => exact foldlM_singleton (stepPlain_of_notMem hc)
  | @escape c r hr =>
    have hescape : (q.turn .plain).step '\\' = some (q.turn .escape) := rfl
    have hstep : (q.turn .escape).step c = some (q.part r) := congrArg (Option.map _) hr
    rw [List.foldlM_cons, hescape]
    exact foldlM_singleton hstep
  | bracket hreads => exact foldlM_class hreads
  | withinLine => rfl
  | atStart => rfl
  | atEnd => rfl

def withParts (q : Reader) (parts : List Regex) : Reader :=
  { q with group := { q.group with parts } }

theorem foldlM_numeral {mode : Numeral → Mode} {n n' : Numeral}
    (hmode : ∀ n n' c, stepNumeral? n c = some n' →
      (q.turn (mode n)).step c = some (q.turn (mode n')))
    (h : text.foldlM stepNumeral? n = some n') :
    text.foldlM step (q.turn (mode n)) = some (q.turn (mode n')) := by
  induction text generalizing n with
  | nil =>
    cases h
    rfl
  | cons c text ih =>
    obtain ⟨n₁, hn₁, h⟩ := Option.bind_eq_some_iff.1 h
    rw [List.foldlM_cons, hmode n n₁ c hn₁]
    exact ih h

theorem step_least {n n' : Numeral} (h : stepNumeral? n c = some n') :
    (q.turn (.least n)).step c = some (q.turn (.least n')) := by
  have hcomma : c ≠ ',' := by
    rintro rfl
    cases h
  have hbrace : c ≠ '\x7d' := by
    rintro rfl
    cases h
  simp only [step, turn, hcomma, hbrace, if_false, h]
  rfl

theorem step_greatest {least : Nat} {n n' : Numeral} (h : stepNumeral? n c = some n') :
    (q.turn (.greatest least n)).step c = some (q.turn (.greatest least n')) := by
  have hbrace : c ≠ '\x7d' := by
    rintro rfl
    cases h
  simp only [step, turn, hbrace, if_false, h]
  rfl

theorem repetition?_eq (hparts : q.group.parts = r :: parts) : q.repetition? min max =
    some ((q.withParts (.repeated min max false r :: parts)).turn .repetition) := by
  simp only [repetition?, Group.repeatLast?, hparts]
  rfl

theorem foldlM_brace (hparts : q.group.parts = r :: parts) {numeral : Numeral}
    (h : text.foldlM stepNumeral? (.awaited false) = some numeral) :
    ('\x7b' :: (text ++ rest)).foldlM step (q.turn .plain) =
      rest.foldlM step (q.turn (.least numeral)) := by
  have hopen : (q.turn .plain).step '\x7b' = some (q.turn (.least (.awaited false))) := by
    change (if q.group.parts.isEmpty then none else _) = _
    rw [hparts]
    rfl
  rw [List.foldlM_cons, hopen, Option.bind_eq_bind, Option.bind_some, List.foldlM_append,
    foldlM_numeral (fun _ _ _ => step_least) h]
  rfl

theorem foldlM_operator (h : IsOperator text min max) (hparts : q.group.parts = r :: parts) :
    text.foldlM step (q.turn .plain) =
      some ((q.withParts (.repeated min max false r :: parts)).turn .repetition) := by
  have hrepeat (mode : Mode) (min : Nat) (max : Option Nat) : (q.turn mode).repetition? min max =
      some ((q.withParts (.repeated min max false r :: parts)).turn .repetition) :=
    repetition?_eq (q := q.turn mode) hparts
  cases h with
  | star => exact foldlM_singleton (hrepeat .plain 0 none)
  | plus => exact foldlM_singleton (hrepeat .plain 1 none)
  | mark => exact foldlM_singleton (hrepeat .plain 0 (some 1))
  | exactly hn =>
    obtain ⟨numeral, hread, hn⟩ := hn
    have hstep : (q.turn (.least numeral)).step '\x7d' = _ :=
      (congrArg (Option.bind · _) hn).trans (hrepeat _ min (some min))
    rw [foldlM_brace hparts hread]
    exact foldlM_singleton hstep
  | atLeast hn =>
    obtain ⟨numeral, hread, hn⟩ := hn
    have hcomma : (q.turn (.least numeral)).step ',' = some (q.turn (.greatest min (.awaited false))) :=
      congrArg (Option.map _) hn
    have hstep : (q.turn (.greatest min (.awaited false))).step '\x7d' = _ :=
      hrepeat _ min none
    rw [foldlM_brace hparts hread, List.foldlM_cons, hcomma]
    exact foldlM_singleton hstep
  | @between text _ text' n' hn hn' hle =>
    obtain ⟨numeral, hread, hn⟩ := hn
    obtain ⟨numeral', hread', hn'⟩ := hn'
    have hcomma : (q.turn (.least numeral)).step ',' = some (q.turn (.greatest min (.awaited false))) :=
      congrArg (Option.map _) hn
    have hstep : (q.turn (.greatest min numeral')).step '\x7d' =
        some ((q.withParts (.repeated min (some n') false r :: parts)).turn .repetition) := by
      have hvalue : (numeral'.value?.bind fun greatest =>
          if min ≤ greatest then (q.turn (.greatest min numeral')).repetition? min (some greatest)
          else none) = _ :=
        (congrArg (Option.bind · _) hn').trans ((if_pos hle).trans (hrepeat _ min (some n')))
      cases numeral' with
      | awaited => cases hn'
      | digits => exact hvalue
      | ended => exact hvalue
    rw [foldlM_brace hparts hread, List.foldlM_cons, hcomma, Option.bind_eq_bind, Option.bind_some,
      List.foldlM_append, foldlM_numeral (fun _ _ _ => step_greatest) hread', Option.bind_eq_bind,
      Option.bind_some]
    exact foldlM_singleton hstep

theorem reaches_of_isRun (h : IsRun text f) (hparts : q.group.parts = r :: parts) :
    q.Reaches text (q.withParts (f r :: parts)) := by
  induction h generalizing q r with
  | nil =>
    refine ⟨.plain, Or.inl rfl, ?_⟩
    rw [id, ← hparts]
    rfl
  | @greedy text min max rest f hoperator _ hrest ih =>
    refine Reaches.append ⟨.repetition, Or.inr rfl, foldlM_operator hoperator hparts⟩ ?_ hrest
    exact ih (q := q.withParts (.repeated min max false r :: parts)) rfl
  | @reluctant text min max rest f hoperator _ ih =>
    obtain ⟨mode, hmode, hread⟩ := ih (q := q.withParts (.repeated min max true r :: parts)) rfl
    refine ⟨mode, hmode, ?_⟩
    rw [List.foldlM_append, foldlM_operator hoperator hparts]
    exact hread

theorem step_close {g : Group} {outer : List Group} (hmode : CanEnd mode)
    (houter : q.outer = g :: outer) : [')'].foldlM step (q.turn mode) =
      some { outer, group := g.push (.group q.group.captures q.group.toRegex), mode := .plain } := by
  rw [foldlM_turn (Or.inl hmode) (by decide)]
  apply foldlM_singleton
  cases q with
  | mk outer' group mode =>
    cases houter
    rfl

/--
The text adds the parts to the alternative being read, and then the other alternatives.
-/
def Adds (text : List Char) (parts others : List Regex) : Prop :=
  ∀ q : Reader, ∃ q', q.Reaches text q' ∧ q'.outer = q.outer ∧
    q'.group.captures = q.group.captures ∧ (q'.group.alternative :: q'.group.alternatives).reverse =
      q.group.alternatives.reverse ++ seqOf (q.group.parts.reverse ++ parts) :: others

variable {others : List Regex}

namespace Adds

theorem nil : Adds [] [] [] := by
  intro q
  refine ⟨q, ⟨.plain, Or.inl rfl, rfl⟩, rfl, rfl, ?_⟩
  rw [List.reverse_cons, List.append_nil]
  rfl

theorem bar (h : Adds rest parts others) : Adds ('|' :: rest) [] (seqOf parts :: others) := by
  intro q
  obtain ⟨q', hreaches, houter, hcaptures, hrows⟩ :=
    h { q with group := q.group.nextAlternative, mode := .plain }
  refine ⟨q', hreaches, houter, hcaptures, hrows.trans ?_⟩
  rw [List.append_nil, Group.nextAlternative, List.reverse_cons, List.append_assoc]
  rfl

theorem part (htext : IsPart text r) {run : List Char} (hrun : IsRun run f)
    (h : Adds rest parts others) (hrest : rest.head? ≠ some '?') :
    Adds (text ++ (run ++ rest)) (f r :: parts) others := by
  intro q
  obtain ⟨mode, hmode, hread⟩ := reaches_of_isRun hrun (q := q.part r) rfl
  obtain ⟨q', hreaches, houter, hcaptures, hrows⟩ :=
    h (q.withParts (f r :: q.group.parts))
  refine ⟨q', ?_, houter, hcaptures, hrows.trans ?_⟩
  . rw [← List.append_assoc]
    refine Reaches.append ⟨mode, hmode, ?_⟩ hreaches hrest
    rw [List.foldlM_append, htext]
    exact hread
  . simp [withParts]

theorem isPart_group (hopening : text = ['('] ∨ text = ['(', '?', ':']) (h : Adds rest parts others)
    (hrest : rest.head? ≠ some '?') :
    ∃ captures, IsPart (text ++ (rest ++ [')'])) (.group captures (altOf (seqOf parts :: others))) := by
  have hclose (q : Reader) (captures : Bool) :
      (rest ++ [')']).foldlM step
          { outer := q.group :: q.outer, group := { captures }, mode := .plain } =
        some (q.part (.group captures (altOf (seqOf parts :: others)))) := by
    obtain ⟨q', ⟨mode, hmode, hread⟩, houter, hcaptures, hrows⟩ := h
      { outer := q.group :: q.outer, group := { captures }, mode := .plain }
    have hregex : q'.group.toRegex = altOf (seqOf parts :: others) := congrArg altOf hrows
    rw [List.foldlM_append]
    refine (congrArg (Option.bind · _) hread).trans ?_
    rw [Option.bind_some, step_close hmode houter, hregex, hcaptures]
    rfl
  rcases hopening with rfl | rfl
  . refine ⟨true, fun q => ?_⟩
    have hturn : (rest ++ [')']).foldlM step
        { outer := q.group :: q.outer, group := {}, mode := .opening } =
          (rest ++ [')']).foldlM step { outer := q.group :: q.outer, group := {}, mode := .plain } := by
      cases rest with
      | nil => exact foldlM_turn (q := { outer := q.group :: q.outer }) (Or.inr rfl) (by decide)
      | cons c rest =>
        exact foldlM_turn (q := { outer := q.group :: q.outer }) (Or.inr rfl) (by simpa using hrest)
    exact hturn.trans (hclose q true)
  . exact ⟨false, fun q => hclose q false⟩

end Adds

end Reader

open Reader

theorem exists_of_isOperator {text : List Char} {min : Nat} {max : Option Nat}
    (h : IsOperator text min max) : ∃ c rest, text = c :: rest ∧ c ∈ operators := by
  cases h <;> exact ⟨_, _, rfl, by decide⟩

theorem mem_operators_of_isRun {text : List Char} {f : Regex → Regex} {c : Char} (h : IsRun text f)
    (hc : c ∈ text.head?) : c ∈ operators := by
  cases h with
  | nil => cases hc
  | greedy hoperator | reluctant hoperator =>
    obtain ⟨d, rest, rfl, hd⟩ := exists_of_isOperator hoperator
    cases hc
    exact hd

theorem lexicon_isStandard : lexicon.IsStandard where
  atom_start := by
    refine ⟨_, .atStart, fun s i j hi => ?_⟩
    change _ ↔ Anchor.atStart.holds (.at s i) = true ∧ i = j
    rw [holds_atStart_iff hi]
    constructor
    . rintro ⟨rfl, rfl⟩
      exact ⟨rfl, rfl⟩
    . rintro ⟨rfl, rfl⟩
      exact ⟨rfl, rfl⟩
  atom_end := by
    refine ⟨_, .atEnd, fun s i j hi => ?_⟩
    change _ ↔ Anchor.atEnd.holds (.at s i) = true ∧ i = j
    rw [holds_atEnd_iff]
    constructor
    . rintro ⟨rfl, rfl⟩
      exact ⟨Nat.le_refl _, rfl⟩
    . rintro ⟨h, rfl⟩
      exact ⟨Nat.le_antisymm hi h, Nat.le_antisymm hi h⟩
  run_nil := ⟨id, .nil, fun _ _ h => h⟩
  opening_silent := Or.inr rfl
  atom_cases := by
    rintro text m ⟨r, hatom, -⟩
    cases hatom with
    | char hc => exact ⟨_, [], rfl, by simp_all [marks], fun _ => rfl⟩
    | escape => exact ⟨_, _, rfl, by decide, by simp⟩
    | bracket => exact ⟨_, _, rfl, by decide, by simp⟩
    | withinLine => exact ⟨_, _, rfl, by decide, by simp⟩
    | atStart => exact ⟨_, _, rfl, by decide, by simp⟩
    | atEnd => exact ⟨_, _, rfl, by decide, by simp⟩
  run_cases := by
    rintro text f ⟨_, hrun, -⟩ c hc
    exact mem_operators_of_isRun hrun hc
  opening_cases h := Or.inl ⟨h, rfl⟩
  directive_cases := False.elim
  remark_cases := id
  openRemark_cases := False.elim

/--
An expression is read so that what comes of it matches the same.
-/
theorem adds_of_expression {mode last : lexicon.Mode} {text : List Char} {a b : Spans}
    (h : lexicon.Expression mode text last a b) :
    ∃ parts others, Adds text parts others ∧ a.Agrees (seqOf parts) ∧
      ∀ s i j, i ≤ s.length → (b s i j ↔ ∃ r ∈ others, r.Matches s i j) := by
  induction h with
  | empty => exact ⟨[], [], .nil, fun _ _ _ _ => Iff.rfl, by simp [Spans.never]⟩
  | bar _ ih =>
    obtain ⟨parts, others, hadds, ha, hb⟩ := ih
    refine ⟨[], _, hadds.bar, fun _ _ _ _ => Iff.rfl, fun s i j hi => ?_⟩
    simp only [Spans.either, ha s i j hi, hb s i j hi, List.mem_cons, exists_eq_or_imp]
  | remark h => exact h.elim
  | directive h => exact h.elim
  | atom hatom hrun hrest ih =>
    obtain ⟨parts, others, hadds, ha, hb⟩ := ih
    obtain ⟨r, hatom, hr⟩ := hatom
    obtain ⟨f, hrun, hf⟩ := hrun
    refine ⟨_, others, hadds.part (isPart_of_isAtom hatom) hrun
      (lexicon_isStandard.head?_ne hrest), fun s i j hi => ?_, hb⟩
    rw [seqOf_cons]
    exact comp_iff (hf _ r hr) ha hi
  | @group mode text inner body next c d run _ rest _ _ _ hopening hbody hrun hrest ihbody ih =>
    obtain ⟨parts, others, hadds, ha, hb⟩ := ih
    obtain ⟨parts', others', hadds', hc, hd⟩ := ihbody
    obtain ⟨f, hrun, hf⟩ := hrun
    obtain ⟨captures, hpart⟩ := hadds'.isPart_group hopening (lexicon_isStandard.head?_ne hbody)
    have hgroup : (c.either d).Agrees (.group captures (altOf (seqOf parts' :: others'))) := by
      intro s i j hi
      refine Iff.trans ?_ altOf_iff.symm
      rw [Spans.either, hc s i j hi, hd s i j hi]
    have hwhole := hadds.part hpart hrun (lexicon_isStandard.head?_ne hrest)
    refine ⟨_, others, by simpa using hwhole, fun s i j hi => ?_, hb⟩
    rw [seqOf_cons]
    exact comp_iff (hf _ _ hgroup) ha hi

theorem parse?_of_means {text : String} {m : Spans} (h : lexicon.Means text.toList m) :
    ∃ r, parse? text = some r ∧ m.Agrees r := by
  obtain ⟨last, a, b, hexpression, rfl⟩ := h
  obtain ⟨parts, others, hadds, ha, hb⟩ := adds_of_expression hexpression
  obtain ⟨q, ⟨mode, hmode, hread⟩, houter, -, hrows⟩ := hadds {}
  refine ⟨altOf (seqOf parts :: others), ?_, fun s i j hi => ?_⟩
  . have hfinish : (q.turn mode).finish? = some q.group.toRegex := by
      have houter : (q.turn mode).outer = [] := houter
      unfold finish?
      rw [houter]
      obtain rfl | rfl := hmode <;> rfl
    have hregex : q.group.toRegex = altOf (seqOf parts :: others) := congrArg altOf hrows
    rw [← hregex, ← hfinish]
    exact congrArg (Option.bind · _) hread
  . rw [altOf_iff, Spans.either, ha s i j hi, hb s i j hi]

end Regex

end TreeGrammar
