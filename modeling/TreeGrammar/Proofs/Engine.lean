import TreeGrammar.Proofs.Lexicon
import TreeGrammar.Regex.Compile

/-!
This module contains that the engine reads nothing but regular expressions, and that it finds what they
match.
-/

namespace TreeGrammar

namespace Regex

open Reader

/--
The text is an expression that closes this many groups on its way.
-/
def Closes : Nat → List Char → Prop
  | 0, text => ∃ a b, lexicon.Expression () text () a b
  | n + 1, text => ∃ a b body run f rest, text = body ++ ')' :: (run ++ rest) ∧
    lexicon.Expression () body () a b ∧ IsRun run f ∧ Closes n rest

namespace Closes

variable {n : Nat} {text run rest : List Char} {f : Regex → Regex} {r : Regex}

theorem prepend (before : List Char) (hbefore : ∀ {text a b}, lexicon.Expression () text () a b →
    ∃ a b, lexicon.Expression () (before ++ text) () a b) (h : Closes n rest) :
    Closes n (before ++ rest) := by
  cases n with
  | zero =>
    obtain ⟨a, b, hrest⟩ := h
    exact hbefore hrest
  | succ n =>
    obtain ⟨a, b, body, run, f, rest, rfl, hbody, hrun, hrest⟩ := h
    obtain ⟨a', b', hbody'⟩ := hbefore hbody
    exact ⟨a', b', before ++ body, run, f, rest, by simp, hbody', hrun, hrest⟩

theorem exists_of_isRun (h : IsRun run f) : ∃ f', lexicon.run () run f' := by
  suffices ∃ f' : Spans → Spans, ∀ m r, m.Agrees r → (f' m).Agrees (f r) by
    obtain ⟨f', hf'⟩ := this
    exact ⟨f', f, h, hf'⟩
  induction h with
  | nil => exact ⟨id, fun _ _ h => h⟩
  | @greedy _ min max _ _ _ _ _ ih | @reluctant _ min max _ _ _ _ ih =>
    obtain ⟨f', hf'⟩ := ih
    exact ⟨f' ∘ .repeated min max, fun _ _ h => hf' _ _ (agrees_repeated h _)⟩

theorem bar (h : Closes n rest) : Closes n ('|' :: rest) :=
  h.prepend ['|'] fun h => ⟨_, _, .bar h⟩

theorem atom (hatom : IsAtom text r) (hrun : IsRun run f) (h : Closes n rest) :
    Closes n (text ++ (run ++ rest)) := by
  obtain ⟨f', hrun⟩ := exists_of_isRun hrun
  rw [← List.append_assoc]
  refine h.prepend (text ++ run) fun h => ?_
  rw [List.append_assoc]
  exact ⟨_, _, .atom ⟨r, hatom, agrees_self⟩ hrun h⟩

theorem group (text : List Char) (hopening : text = ['('] ∨ text = ['(', '?', ':'])
    (h : Closes (n + 1) rest) :
    Closes n (text ++ rest) := by
  obtain ⟨a, b, body, run, f, rest, rfl, hbody, hrun, hrest⟩ := h
  obtain ⟨f', hrun⟩ := exists_of_isRun hrun
  have hassoc (rest : List Char) : text ++ (body ++ ')' :: (run ++ rest)) =
      text ++ body ++ ')' :: run ++ rest := by
    simp
  rw [hassoc]
  refine hrest.prepend (text ++ body ++ ')' :: run) fun h => ?_
  rw [← hassoc]
  exact ⟨_, _, .group hopening hbody hrun h⟩

end Closes

namespace Reader

variable {q q' : Reader} {text : List Char} {c : Char}

def IsDone (q : Reader) : Prop :=
  q.outer = [] ∧ CanEnd q.mode

theorem exists_of_foldlM_cons (h : (c :: text).foldlM step q = some q') :
    ∃ q₁, q.step c = some q₁ ∧ text.foldlM step q₁ = some q' :=
  Option.bind_eq_some_iff.1 h

theorem exists_reads {k : ClassReader} (h : text.foldlM step (q.turn (.inClass k)) = some q')
    (hdone : q'.IsDone) : ∃ body rest l, text = body ++ rest ∧ k.Reads body l := by
  induction text generalizing k with
  | nil =>
    cases h
    exact absurd hdone.2 (by simp [CanEnd, turn])
  | cons c text ih =>
    obtain ⟨q₁, hstep, h⟩ := exists_of_foldlM_cons h
    obtain ⟨progress, hk, hq₁⟩ := Option.map_eq_some_iff.1 hstep
    cases progress with
    | reading k' =>
      cases hq₁
      obtain ⟨body, rest, l, rfl, hreads⟩ := ih h
      exact ⟨c :: body, rest, l, rfl, .cons hk hreads⟩
    | finished l => exact ⟨[c], text, l, rfl, .close hk⟩

theorem exists_numeral (mode : Numeral → Mode) (ends : List Char) {n : Numeral}
    (hopen : ∀ n, ¬ CanEnd (mode n))
    (hmode : ∀ n, ∀ c ∉ ends, (q.turn (mode n)).step c =
      (stepNumeral? n c).map fun n => q.turn (mode n))
    (h : text.foldlM step (q.turn (mode n)) = some q') (hdone : q'.IsDone) :
    ∃ digits n' c rest, text = digits ++ c :: rest ∧ digits.foldlM stepNumeral? n = some n' ∧
      c ∈ ends ∧ (c :: rest).foldlM step (q.turn (mode n')) = some q' := by
  induction text generalizing n with
  | nil =>
    cases h
    exact absurd hdone.2 (hopen n)
  | cons c text ih =>
    by_cases hc : c ∈ ends
    . exact ⟨[], n, c, text, rfl, rfl, hc, h⟩
    . obtain ⟨q₁, hstep, h⟩ := exists_of_foldlM_cons h
      rw [hmode n c hc] at hstep
      obtain ⟨n₁, hn₁, rfl⟩ := Option.map_eq_some_iff.1 hstep
      obtain ⟨digits, n', d, rest, rfl, hdigits, hd, hrest⟩ := ih h
      exact ⟨c :: digits, n', d, rest, rfl, Option.bind_eq_some_iff.2 ⟨n₁, hn₁, hdigits⟩, hd, hrest⟩

theorem eq_nil_of_foldlM_stepNumeral? {n : Numeral}
    (h : text.foldlM stepNumeral? n = some (.awaited false)) : text = [] := by
  induction text generalizing n with
  | nil => rfl
  | cons c text ih =>
    obtain ⟨n₁, hn₁, h⟩ := Option.bind_eq_some_iff.1 h
    obtain rfl := ih h
    cases h
    unfold stepNumeral? at hn₁
    split at hn₁
    . cases n <;> cases hn₁
    . split at hn₁
      . cases n <;> cases hn₁
      . cases hn₁

theorem exists_greatest {least : Nat}
    (h : text.foldlM step (q.turn (.greatest least (.awaited false))) = some q')
    (hdone : q'.IsDone) : ∃ digits rest, text = digits ++ '\x7d' :: rest ∧
      (digits = [] ∨ ∃ n, IsNumber digits n ∧ least ≤ n) := by
  obtain ⟨digits, n', c, rest, rfl, hdigits, hc, h⟩ :=
    exists_numeral (.greatest least) ['\x7d'] (by simp [CanEnd])
      (by intro n c hc; simp only [List.mem_singleton] at hc; simp only [step, turn, hc, if_false])
      h hdone
  obtain rfl := List.mem_singleton.1 hc
  refine ⟨digits, rest, rfl, ?_⟩
  obtain ⟨q₁, hstep, -⟩ := exists_of_foldlM_cons h
  have hvalue (hstep : (n'.value?.bind fun n => if least ≤ n then
      (q.turn (.greatest least n')).repetition? least (some n) else none) = some q₁) :
      digits = [] ∨ ∃ n, IsNumber digits n ∧ least ≤ n := by
    obtain ⟨n, hn, hstep⟩ := Option.bind_eq_some_iff.1 hstep
    split at hstep
    . next hle => exact Or.inr ⟨n, ⟨n', hdigits, hn⟩, hle⟩
    . cases hstep
  cases n' with
  | awaited padded =>
    cases padded with
    | false => exact Or.inl (eq_nil_of_foldlM_stepNumeral? hdigits)
    | true => exact hvalue hstep
  | digits n => exact hvalue hstep
  | ended n => exact hvalue hstep

theorem exists_braces (h : text.foldlM step (q.turn (.least (.awaited false))) = some q')
    (hdone : q'.IsDone) : ∃ operator rest min max,
      '\x7b' :: text = operator ++ rest ∧ IsOperator operator min max := by
  obtain ⟨digits, numeral, c, rest, rfl, hdigits, hc, h⟩ :=
    exists_numeral .least [',', '\x7d'] (by simp [CanEnd])
      (by
        intro n c hc
        obtain ⟨hcomma, hbrace⟩ : c ≠ ',' ∧ c ≠ '\x7d' := by simpa using hc
        simp only [step, turn, hcomma, hbrace, if_false])
      h hdone
  obtain ⟨q₁, hstep, h⟩ := exists_of_foldlM_cons h
  simp only [List.mem_cons, List.not_mem_nil, or_false] at hc
  obtain rfl | rfl := hc
  . obtain ⟨least, hleast, rfl⟩ := Option.map_eq_some_iff.1 hstep
    obtain ⟨digits', rest, rfl, hgreatest⟩ := exists_greatest h hdone
    rcases hgreatest with rfl | ⟨greatest, hgreatest, hle⟩
    . exact ⟨_, rest, _, _, by simp, .atLeast ⟨numeral, hdigits, hleast⟩⟩
    . exact ⟨_, rest, _, _, by simp, .between ⟨numeral, hdigits, hleast⟩ hgreatest hle⟩
  . obtain ⟨n, hn, -⟩ := Option.bind_eq_some_iff.1 hstep
    exact ⟨_, rest, _, _, by simp, .exactly ⟨numeral, hdigits, hn⟩⟩

theorem exists_operator (h : (c :: text).foldlM step (q.turn .plain) = some q')
    (hdone : q'.IsDone) (hc : c ∈ operators) :
    ∃ operator rest min max, c :: text = operator ++ rest ∧ IsOperator operator min max := by
  simp only [operators, List.mem_cons, List.not_mem_nil, or_false] at hc
  obtain rfl | rfl | rfl | rfl := hc
  . exact ⟨['*'], text, _, _, rfl, .star⟩
  . exact ⟨['+'], text, _, _, rfl, .plus⟩
  . exact ⟨['?'], text, _, _, rfl, .mark⟩
  . obtain ⟨q₁, hstep, h⟩ := exists_of_foldlM_cons h
    have hbrace : (if q.group.parts.isEmpty then none
        else some (q.turn (.least (.awaited false)))) = some q₁ := hstep
    split at hbrace
    . cases hbrace
    . cases hbrace
      exact exists_braces h hdone

theorem step_of_parts_eq_nil (hparts : q.group.parts = []) (hc : c ∈ operators) :
    (q.turn .plain).step c = none := by
  have hrepetition (min : Nat) (max : Option Nat) : (q.turn .plain).repetition? min max = none := by
    simp only [repetition?, turn, Group.repeatLast?, hparts]
    rfl
  simp only [operators, List.mem_cons, List.not_mem_nil, or_false] at hc
  obtain rfl | rfl | rfl | rfl := hc
  . exact hrepetition 0 none
  . exact hrepetition 1 none
  . exact hrepetition 0 (some 1)
  . change (if q.group.parts.isEmpty then none else _) = _
    rw [hparts]
    rfl

theorem foldlM_of_append (before : List Char) {rest : List Char} {q₁ : Reader}
    (hbefore : before.foldlM step q = some q₁) (h : (before ++ rest).foldlM step q = some q') :
    rest.foldlM step q₁ = some q' := by
  rw [List.foldlM_append, hbefore] at h
  exact h

theorem length_le_of_append {before rest : List Char} (h : c :: text = before ++ rest)
    (hbefore : before ≠ []) : rest.length ≤ text.length := by
  cases before with
  | nil => exact absurd rfl hbefore
  | cons d before =>
    obtain ⟨-, rfl⟩ := List.cons_eq_cons.1 h
    simp

theorem exists_isRun {r : Regex} {parts : List Regex} (hparts : q.group.parts = r :: parts)
    (h : text.foldlM step (q.turn .plain) = some q') (hdone : q'.IsDone) :
    ∃ run f rest mode, text = run ++ rest ∧ IsRun run f ∧ CanEnd mode ∧
      (∀ c ∈ rest.head?, c ∉ operators) ∧
      rest.foldlM step ((q.withParts (f r :: parts)).turn mode) = some q' := by
  have hself : q.withParts (r :: parts) = q := by rw [withParts, ← hparts]
  -- by the length of the text, which every operator makes shorter
  generalize hlength : text.length = length
  induction length using Nat.strongRecOn generalizing q r text with
  | ind length ih =>
    by_cases hbegins : ∀ c ∈ text.head?, c ∉ operators
    . exact ⟨[], id, text, .plain, rfl, .nil, Or.inl rfl, hbegins, by rwa [id, hself]⟩
    . simp only [not_forall, not_not] at hbegins
      obtain ⟨c, hc, hmem⟩ := hbegins
      obtain ⟨text, rfl⟩ := List.head?_eq_some_iff.1 hc
      obtain ⟨operator, rest, min, max, htext, hoperator⟩ := exists_operator h hdone hmem
      have hshorter : rest.length < length := by
        obtain ⟨d, behind, rfl, -⟩ := exists_of_isOperator hoperator
        rw [← hlength]
        exact Nat.lt_succ_of_le (length_le_of_append htext (by simp))
      rw [htext] at h ⊢
      have hrest := foldlM_of_append operator (foldlM_operator hoperator hparts) h
      cases rest with
      | nil =>
        exact ⟨operator ++ [], _, [], .repetition, by simp, .greedy hoperator .nil (by simp),
          Or.inr rfl, by simp, hrest⟩
      | cons d rest =>
        by_cases hd : d = '?'
        . subst hd
          have hreluctant : rest.foldlM step
              ((q.withParts (.repeated min max true r :: parts)).turn .plain) = some q' := hrest
          obtain ⟨run, f, rest, mode, rfl, hrun, hmode, hbegins, hread⟩ :=
            ih rest.length (Nat.lt_of_succ_lt hshorter) rfl hreluctant rfl rfl
          exact ⟨_, _, rest, mode, by simp, .reluctant hoperator hrun, hmode, hbegins, hread⟩
        . rw [foldlM_turn (Or.inl (Or.inr rfl)) hd] at hrest
          obtain ⟨run, f, rest', mode, hsplit, hrun, hmode, hbegins, hread⟩ :=
            ih (d :: rest).length hshorter rfl hrest rfl rfl
          have hhead : run.head? ≠ some '?' := by
            cases run with
            | nil => simp
            | cons e run =>
              obtain ⟨rfl, -⟩ := List.cons_eq_cons.1 hsplit
              simpa using hd
          rw [hsplit, ← List.append_assoc]
          exact ⟨_, _, rest', mode, rfl, .greedy hoperator hrun hhead, hmode, hbegins, hread⟩

theorem exists_atom (h : (c :: text).foldlM step (q.turn .plain) = some q')
    (hdone : q'.IsDone) (hc : c ∉ operators) (hmarks : c ∉ ['(', ')', '|']) :
    ∃ atom rest r, c :: text = atom ++ rest ∧ IsAtom atom r := by
  by_cases hchar : c ∉ marks
  . exact ⟨[c], text, _, rfl, .char hchar⟩
  . have hc : c = '\\' ∨ c = '[' ∨ c = '.' ∨ c = '^' ∨ c = '$' := by
      grind [marks, operators]
    obtain ⟨q₁, hstep, h⟩ := exists_of_foldlM_cons h
    obtain rfl | rfl | rfl | rfl | rfl := hc
    . cases hstep
      cases text with
      | nil =>
        cases h
        exact absurd hdone.2 (by simp [CanEnd, turn])
      | cons d text =>
        obtain ⟨q₁, hstep, -⟩ := exists_of_foldlM_cons h
        obtain ⟨r, hr, -⟩ := Option.map_eq_some_iff.1 hstep
        exact ⟨['\\', d], text, r, rfl, .escape hr⟩
    . cases hstep
      obtain ⟨body, rest, k, rfl, hreads⟩ := exists_reads h hdone
      exact ⟨'[' :: body, rest, _, rfl, .bracket hreads⟩
    . exact ⟨['.'], text, _, rfl, .withinLine⟩
    . exact ⟨['^'], text, _, rfl, .atStart⟩
    . exact ⟨['$'], text, _, rfl, .atEnd⟩

/--
Whatever shorter text the reader has read to the end closes the groups that were open.
-/
def ClosesBelow (q' : Reader) (length : Nat) : Prop :=
  ∀ (q : Reader) (mode : Mode) (text : List Char), text.length < length →
    text.foldlM step (q.turn mode) = some q' → CanEnd mode ∨ mode = .opening →
    (∀ c ∈ text.head?, c ∈ operators → q.group.parts = []) →
    (text.head? = some '?' → mode = .plain) → Closes q.outer.length text

namespace ClosesBelow

variable {length : Nat} {r : Regex} {parts : List Regex}

theorem behind_part (h : ClosesBelow q' length) (hdone : q'.IsDone)
    (hparts : q.group.parts = r :: parts) (hread : text.foldlM step (q.turn .plain) = some q')
    (hlength : text.length < length) :
    ∃ run f rest, text = run ++ rest ∧ IsRun run f ∧ Closes q.outer.length rest := by
  obtain ⟨run, f, rest, mode, rfl, hrun, hmode, hbegins, hread⟩ := exists_isRun hparts hread hdone
  rw [List.length_append] at hlength
  refine ⟨run, f, rest, rfl, hrun, ?_⟩
  exact h (q.withParts (f r :: parts)) mode rest (by omega) hread (Or.inl hmode)
    (fun c hc hmem => absurd hmem (hbegins c hc))
    fun hhead => absurd (by decide) (hbegins '?' hhead)

theorem bar (h : ClosesBelow q' length)
    (hread : ('|' :: text).foldlM step (q.turn .plain) = some q') (hlength : text.length < length) :
    Closes q.outer.length ('|' :: text) :=
  .bar (h { q with group := q.group.nextAlternative } .plain text hlength hread (Or.inl (Or.inl rfl))
    (fun _ _ _ => rfl) fun _ => rfl)

theorem closing (h : ClosesBelow q' length) (hdone : q'.IsDone)
    (hread : (')' :: text).foldlM step (q.turn .plain) = some q') (hlength : text.length < length) :
    Closes q.outer.length (')' :: text) := by
  cases houter : q.outer with
  | nil =>
    obtain ⟨q₁, hstep, -⟩ := exists_of_foldlM_cons hread
    cases q with
    | mk outer group mode =>
      cases houter
      cases hstep
  | cons g outer =>
    have hrest := foldlM_of_append [')'] (step_close (Or.inl rfl) houter) hread
    obtain ⟨run, f, rest, rfl, hrun, hrest⟩ := h.behind_part
      (q := { outer, group := g.push (.group q.group.captures q.group.toRegex) }) hdone rfl hrest hlength
    exact ⟨_, _, [], run, f, rest, rfl, .empty, hrun, hrest⟩

theorem opening (h : ClosesBelow q' length) (hdone : q'.IsDone)
    (hread : ('(' :: text).foldlM step (q.turn .plain) = some q') (hlength : text.length < length) :
    Closes q.outer.length ('(' :: text) := by
  by_cases hhead : text.head? = some '?'
  . obtain ⟨text, rfl⟩ := List.head?_eq_some_iff.1 hhead
    cases text with
    | nil =>
      cases hread
      exact absurd hdone.2 (by simp [CanEnd, turn])
    | cons c text =>
      by_cases hc : c = ':'
      . subst hc
        refine Closes.group ['(', '?', ':'] (Or.inr rfl) ?_
        rw [List.length_cons, List.length_cons] at hlength
        exact h { outer := q.group :: q.outer, group := { captures := false } } .plain text (by omega)
          hread (Or.inl (Or.inl rfl)) (fun _ _ _ => rfl) fun _ => rfl
      . have hmarked : (c :: text).foldlM step
            { outer := q.group :: q.outer, group := {}, mode := .marked } = some q' := hread
        obtain ⟨q₁, hstep, -⟩ := exists_of_foldlM_cons hmarked
        simp only [step, hc, if_false] at hstep
        cases hstep
  . refine Closes.group ['('] (Or.inl rfl) ?_
    exact h { outer := q.group :: q.outer } .opening text hlength hread (Or.inr rfl) (fun _ _ _ => rfl)
      fun hmark => absurd hmark hhead

theorem atom {c : Char} (h : ClosesBelow q' length) (hdone : q'.IsDone)
    (hread : (c :: text).foldlM step (q.turn .plain) = some q') (hlength : text.length < length)
    (hc : c ∉ operators) (hmarks : c ∉ ['(', ')', '|']) : Closes q.outer.length (c :: text) := by
  obtain ⟨atom, rest, r, htext, hatom⟩ := exists_atom hread hdone hc hmarks
  rw [htext] at hread ⊢
  have hshorter := length_le_of_append htext fun hnil => by cases hatom <;> cases hnil
  obtain ⟨run, f, rest, rfl, hrun, hcloses⟩ := h.behind_part (q := q.part r) hdone rfl
    (foldlM_of_append atom (isPart_of_isAtom hatom q) hread) (Nat.lt_of_le_of_lt hshorter hlength)
  exact .atom hatom hrun hcloses

end ClosesBelow

theorem closesBelow (hdone : q'.IsDone) (length : Nat) : ClosesBelow q' length := by
  induction length with
  | zero => exact fun _ _ _ hlength => absurd hlength (Nat.not_lt_zero _)
  | succ length ih =>
    intro q mode text hlength h hmode hoperator hquestion
    cases text with
    | nil =>
      cases h
      have houter : q.outer = [] := hdone.1
      rw [houter]
      exact ⟨_, _, .empty⟩
    | cons c text =>
      have hshorter : text.length < length := Nat.lt_of_succ_lt_succ hlength
      have hread : (c :: text).foldlM step (q.turn .plain) = some q' := by
        by_cases hc : c = '?'
        . rwa [hquestion (congrArg some hc)] at h
        . rwa [foldlM_turn hmode hc] at h
      by_cases hc : c ∈ operators
      . obtain ⟨q₁, hstep, -⟩ := exists_of_foldlM_cons hread
        rw [step_of_parts_eq_nil (hoperator c rfl hc) hc] at hstep
        cases hstep
      . by_cases hmarks : c ∈ ['(', ')', '|']
        . simp only [List.mem_cons, List.not_mem_nil, or_false] at hmarks
          obtain rfl | rfl | rfl := hmarks
          . exact ih.opening hdone hread hshorter
          . exact ih.closing hdone hread hshorter
          . exact ih.bar hread hshorter
        . exact ih.atom hdone hread hshorter hc hmarks

end Reader

theorem exists_expression_of_parse? {text : String} {r : Regex} (h : parse? text = some r) :
    ∃ a b, lexicon.Expression () text.toList () a b := by
  obtain ⟨q, hread, hfinish⟩ := Option.bind_eq_some_iff.1 h
  have hdone : q.IsDone := by
    unfold Reader.finish? at hfinish
    split at hfinish
    . next houter hmode => exact ⟨houter, Or.inl hmode⟩
    . next houter hmode => exact ⟨houter, Or.inr hmode⟩
    . cases hfinish
  exact Reader.closesBelow hdone _ {} .plain text.toList (Nat.lt_succ_self _) hread
    (Or.inl (Or.inl rfl)) (fun _ _ _ => rfl) fun _ => rfl

/--
The engine keeps to its lexicon.
-/
theorem engine_documented : engine.Documented lexicon where
  toIsStandard := lexicon_isStandard
  reads := by
    intro text r h
    obtain ⟨hparse, -⟩ := Option.filter_eq_some_iff.1 h
    obtain ⟨a, b, hexpression⟩ := exists_expression_of_parse? hparse
    exact ⟨_, [], (), a, b, (List.append_nil _).symm, hexpression, Or.inl rfl⟩
  search := by
    intro text r m h hm value
    obtain ⟨hparse, -⟩ := Option.filter_eq_some_iff.1 h
    obtain ⟨r', hr', hagrees⟩ := parse?_of_means hm
    obtain rfl : r' = r := Option.some.inj (hr'.symm.trans hparse)
    refine Iff.trans matchesWithin_iff ?_
    constructor
    . rintro ⟨i, j, hi, hmatches⟩
      obtain ⟨hij, hj⟩ := within hi hmatches
      exact ⟨i, j, hij, hj, (hagrees _ i j hi).2 hmatches⟩
    . rintro ⟨i, j, hij, hj, hmatches⟩
      have hi := Nat.le_trans hij hj
      exact ⟨i, j, hi, (hagrees _ i j hi).1 hmatches⟩

end Regex

end TreeGrammar
