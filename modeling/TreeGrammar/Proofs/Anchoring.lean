import TreeGrammar.Datatype
import TreeGrammar.Proofs.Engine

/-!
This module contains what a pattern accepts. The marks of a group are written around the text of the
pattern, so it has to be seen whether the group that they make is the one that is read.
-/

namespace TreeGrammar

namespace RegexEngine.Documented

open Lexicon

variable {engine : RegexEngine} {l : Lexicon} {text body rest : List Char} {last : l.Mode}
variable {a b m : Spans} {c : Char}

theorem toList_anchored {text : String} : (Datatype.anchored text).toList =
    ['^', '(', '?', ':'] ++ (text.toList ++ [')', '$']) := by
  simp [Datatype.anchored]

theorem exists_of_caret (h : engine.Documented l)
    (hexpression : l.Expression l.initial ('^' :: text) last a b) (htext : text.head? = some '(') :
    ∃ a', l.Expression l.initial text last a' b := by
  generalize hwhole : '^' :: text = whole at hexpression
  cases hexpression with
  | empty => cases hwhole
  | bar => cases hwhole
  | remark hremark => exact absurd hremark h.remark_cases
  | directive hdirective =>
    obtain ⟨c, rest, rfl, -⟩ := h.directive_cases hdirective
    cases hwhole
  | @atom _ mark _ run _ rest _ a _ hatom hrun hrest =>
    obtain ⟨c, others, rfl, -, hothers⟩ := h.atom_cases hatom
    rw [List.cons_append, List.cons_eq_cons] at hwhole
    obtain ⟨rfl, rfl⟩ := hwhole
    rw [hothers rfl, List.nil_append] at htext ⊢
    cases run with
    | nil => exact ⟨a, hrest⟩
    | cons d run =>
      obtain rfl := Option.some.inj htext
      have hd := h.run_cases hrun '(' rfl
      simp at hd
  | group hopening =>
    obtain ⟨rfl | rfl, -⟩ | ⟨c, rest, rfl, -⟩ := h.opening_cases hopening <;> cases hwhole

theorem exists_of_opening (h : engine.Documented l)
    (hexpression : l.Expression l.initial ('(' :: '?' :: ':' :: text) last a b) :
    ∃ body rest m, text = body ++ ')' :: rest ∧ l.Means body m := by
  generalize hwhole : '(' :: '?' :: ':' :: text = whole at hexpression
  cases hexpression with
  | empty => cases hwhole
  | bar => cases hwhole
  | remark hremark => exact absurd hremark h.remark_cases
  | directive hdirective =>
    obtain ⟨c, rest, rfl, hc⟩ := h.directive_cases hdirective
    cases hwhole
    exact absurd rfl hc
  | atom hatom =>
    obtain ⟨c, rest, rfl, hc, -⟩ := h.atom_cases hatom
    rw [List.cons_append, List.cons_eq_cons] at hwhole
    obtain ⟨rfl, -⟩ := hwhole
    simp at hc
  | @group _ mark inner body next c d run _ rest _ _ _ hopening hbody =>
    obtain ⟨rfl | rfl, rfl⟩ | ⟨c, rest, rfl, hc⟩ := h.opening_cases hopening
    . -- then the question mark would begin something in the group
      cases body with
      | nil => cases hwhole
      | cons d body =>
        obtain ⟨hmark, -⟩ : '?' = d ∧ _ := by simpa using hwhole
        exact absurd (congrArg some hmark.symm) (h.head?_ne hbody)
    . exact ⟨body, run ++ rest, c.either d, by simpa using hwhole, next, c, d, hbody, rfl⟩
    . cases hwhole
      exact absurd rfl hc

theorem append_of_append (h : engine.Documented l) (marks : List Char) (hmarks : '#' ∉ marks)
    (htext : body ++ rest = marks ++ text) (hrest : rest = [] ∨ l.openRemark last rest) :
    ∃ body', body = marks ++ body' ∧ body' ++ rest = text := by
  induction marks generalizing body with
  | nil => exact ⟨body, rfl, htext⟩
  | cons c marks ih =>
    obtain ⟨hc, hothers⟩ := List.ne_and_not_mem_of_not_mem_cons hmarks
    cases body with
    | nil =>
      rw [List.nil_append] at htext
      rcases hrest with rfl | hopen
      . cases htext
      . have hhead := h.openRemark_cases hopen
        rw [htext] at hhead
        exact absurd (Option.some.inj hhead).symm hc
    | cons d body =>
      rw [List.cons_append, List.cons_append, List.cons_eq_cons] at htext
      obtain ⟨rfl, htext⟩ := htext
      obtain ⟨body', rfl, hbody'⟩ := ih hothers htext
      exact ⟨body', rfl, hbody'⟩

theorem means_or_ends {r : engine.Compiled} {text : String} (h : engine.Documented l)
    (hcompile : engine.compile? (Datatype.anchored text) = some r) :
    (∃ m, l.Means text.toList m) ∨
      ∃ before after m, text = before ++ ")" ++ after ∧ l.Means before.toList m := by
  obtain ⟨body, rest, last, a, b, hread, hexpression, hrest⟩ := h.reads hcompile
  rw [toList_anchored] at hread
  obtain ⟨body, rfl, htext⟩ := h.append_of_append ['^', '(', '?', ':'] (by decide) hread.symm hrest
  obtain ⟨_, hexpression⟩ := h.exists_of_caret hexpression rfl
  obtain ⟨inner, behind, m, rfl, hinner⟩ := h.exists_of_opening hexpression
  rw [List.append_assoc, List.cons_append, List.append_eq_append_iff] at htext
  rcases htext with ⟨after, htext, hafter⟩ | ⟨more, htext, hmore⟩
  . cases after with
    | nil =>
      rw [List.append_nil] at htext
      exact Or.inl ⟨m, htext ▸ hinner⟩
    | cons c after =>
      obtain ⟨rfl, -⟩ : ')' = c ∧ _ := by simpa using hafter
      refine Or.inr ⟨String.ofList inner, String.ofList after, m, ?_, by simpa using hinner⟩
      rw [← String.toList_inj, htext]
      simp
  . -- an expression that ends behind the text would have to end before the anchor
    cases more with
    | nil =>
      rw [List.append_nil] at htext
      exact Or.inl ⟨m, htext ▸ hinner⟩
    | cons c more =>
      rw [List.cons_append, List.cons_eq_cons] at hmore
      have hmem : ')' ∈ ['$'] := by simp [hmore.2]
      simp at hmem

theorem means_anchored {text : List Char} (h : engine.Documented l) (htext : l.Means text m) :
    l.Means (['^', '(', '?', ':'] ++ (text ++ [')', '$']))
      (.either (.followedBy .atStart (.followedBy m (.followedBy .atEnd .empty))) .never) := by
  obtain ⟨last, a, b, hexpression, rfl⟩ := htext
  have hend := Expression.atom h.atom_end h.run_nil .empty
  have hgroup := Expression.group h.opening_silent hexpression h.run_nil hend
  have hstart := Expression.atom h.atom_start h.run_nil hgroup
  exact ⟨_, _, _, hstart, rfl⟩

/--
The group between the anchors matches nothing but the whole text.
-/
theorem isMatch_anchored_iff {r : engine.Compiled} {text value : String} (h : engine.Documented l)
    (hcompile : engine.compile? (Datatype.anchored text) = some r) (htext : l.Means text.toList m) :
    engine.isMatch r value = true ↔ m value.toList 0 value.toList.length := by
  have hmeans := h.means_anchored htext
  rw [← toList_anchored] at hmeans
  rw [h.search hcompile hmeans]
  constructor
  . rintro ⟨i, j, -, -, ⟨_, ⟨rfl, rfl⟩, _, hm, _, ⟨rfl, rfl⟩, rfl⟩ | ⟨⟨⟩⟩⟩
    exact hm
  . intro hm
    exact ⟨0, _, Nat.zero_le _, Nat.le_refl _, Or.inl ⟨0, ⟨rfl, rfl⟩, _, hm, _, ⟨rfl, rfl⟩, rfl⟩⟩

end RegexEngine.Documented

namespace Datatype

variable {engine : RegexEngine} {l : Lexicon} {name text : String} {d : Datatype}

/--
What a pattern accepts are the texts that it matches as a whole, provided that its text is a regular
expression by itself. There are patterns of which this is not so: in their texts a closing parenthesis
ends the group that has been written around them.
-/
theorem pattern_accepts_iff (hengine : engine.Documented l)
    (h : pattern? engine name text = some d) :
    (∀ m, l.Means text.toList m → ∀ scope value,
      (d.accepts scope value = true ↔ m value.toList 0 value.toList.length)) ∧
    ((∃ m, l.Means text.toList m) ∨ ∃ before after m,
      text = before ++ ")" ++ after ∧ l.Means before.toList m) := by
  obtain ⟨r, hcompile, hd⟩ := Option.bind_eq_some_iff.1 h
  cases hd
  exact ⟨fun m htext scope value => hengine.isMatch_anchored_iff hcompile htext,
    hengine.means_or_ends hcompile⟩

/--
An expression that is read by itself, and a text that is none.
-/
theorem pattern_accepts_iff_digits :
    (∃ d m, pattern? Regex.engine "number" "-?[0-9]+" = some d ∧
      Regex.lexicon.Means "-?[0-9]+".toList m ∧ d.accepts [] "-12" = true ∧ m "-12".toList 0 3) ∧
    ∃ d, pattern? Regex.engine "p" "a)|(?:b" = some d ∧ d.accepts [] "ax" = true ∧
      ∃ before after m, "a)|(?:b" = before ++ ")" ++ after ∧ Regex.lexicon.Means before.toList m := by
  constructor
  . have hok : ((pattern? Regex.engine "number" "-?[0-9]+").any fun d => d.accepts [] "-12") = true := by
      decide +kernel
    obtain ⟨d, hd, haccepts⟩ := (Option.any_eq_true _ _).1 hok
    have hread : (Regex.parse? "-?[0-9]+").isSome = true := by decide +kernel
    obtain ⟨r, hr⟩ := Option.isSome_iff_exists.1 hread
    obtain ⟨a, b, hexpression⟩ := Regex.exists_expression_of_parse? hr
    obtain ⟨hiff, -⟩ := pattern_accepts_iff Regex.engine_documented hd
    have hmeans : Regex.lexicon.Means "-?[0-9]+".toList (a.either b) := ⟨(), a, b, hexpression, rfl⟩
    exact ⟨d, _, hd, hmeans, haccepts, (hiff _ hmeans [] "-12").1 haccepts⟩
  . have hok : ((pattern? Regex.engine "p" "a)|(?:b").any fun d => d.accepts [] "ax") = true := by
      decide +kernel
    obtain ⟨d, hd, haccepts⟩ := (Option.any_eq_true _ _).1 hok
    obtain ⟨-, ⟨m, hmeans⟩ | hends⟩ := pattern_accepts_iff Regex.engine_documented hd
    . have hnone : Regex.parse? "a)|(?:b" = none := by decide +kernel
      obtain ⟨r, hr, -⟩ := Regex.parse?_of_means hmeans
      cases hnone.symm.trans hr
    . exact ⟨d, hd, haccepts, hends⟩

end Datatype

end TreeGrammar
