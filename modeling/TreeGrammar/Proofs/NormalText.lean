import Mathlib.Data.List.Chain
import TreeGrammar.Datatype

/-!
This module contains what the words of a text are, that the normal form of a text stands for its words,
which texts are their own normal form, and which texts a single value accepts.
-/

namespace TreeGrammar

namespace Text

structure IsWord (w : List Char) : Prop where
  nonempty : w ≠ []
  solid : ∀ c ∈ w, isBlankChar c = false

/--
The text is made of the given words, in order: with some blank between neighbours, and any blanks
around them.
-/
inductive ConsistsOf : List (List Char) → List Char → Prop where
  | blanks {b : List Char} (hb : ∀ c ∈ b, isBlankChar c = true) : ConsistsOf [] b
  | last {b w : List Char} (hb : ∀ c ∈ b, isBlankChar c = true) (hw : IsWord w) :
    ConsistsOf [w] (b ++ w)
  | word {b w : List Char} {c : Char} {ws : List (List Char)} {s : List Char}
    (hb : ∀ c ∈ b, isBlankChar c = true) (hw : IsWord w) (hc : isBlankChar c = true)
    (hs : ConsistsOf ws s) : ConsistsOf (w :: ws) (b ++ (w ++ c :: s))

/--
No blank stands at an end of the text or beside another one, and every blank is a space.
-/
structure IsNormal (s : List Char) : Prop where
  head : ∀ c ∈ s.head?, isBlankChar c = false
  last : ∀ c ∈ s.getLast?, isBlankChar c = false
  apart : s.IsChain fun c d => isBlankChar c = true → isBlankChar d = false
  spaces : ∀ c ∈ s, isBlankChar c = true → c = ' '

variable {b w s t : List Char} {ws : List (List Char)} {c : Char}

theorem words_blanks_append (hb : ∀ c ∈ b, isBlankChar c = true) : words (b ++ s) = words s := by
  induction b with
  | nil => rfl
  | cons c b ih =>
    rw [List.cons_append, words_cons_of_blank (hb c List.mem_cons_self)]
    apply ih
    intro d hd
    exact hb d (List.mem_cons_of_mem c hd)

theorem words_of_blanks (hb : ∀ c ∈ b, isBlankChar c = true) : words b = [] := by
  rw [← List.append_nil b, words_blanks_append hb, words_nil]

theorem words_word_append (hw : IsWord w) (ht : ∀ c ∈ t.head?, isBlankChar c = true) :
    words (w ++ t) = w :: words t := by
  cases hw with
  | mk hnonempty hsolid =>
    induction w with
    | nil => contradiction
    | cons c w ih =>
      have hc : isBlankChar c = false := hsolid c List.mem_cons_self
      cases w with
      | nil =>
        cases t with
        | nil => simp [words, hc]
        | cons d t =>
          have hd : isBlankChar d = true := ht d rfl
          simp [words, hc, hd]
      | cons d w =>
        have hd : isBlankChar d = false := hsolid d (by simp)
        have hrest : words (d :: w ++ t) = (d :: w) :: words t := by
          apply ih
          . simp
          . intro e he
            exact hsolid e (List.mem_cons_of_mem c he)
        rw [List.cons_append, List.cons_append, words, ← List.cons_append, hrest]
        simp [hc, hd]

namespace ConsistsOf

theorem words_eq (hs : ConsistsOf ws s) : words s = ws := by
  induction hs with
  | blanks hb => exact words_of_blanks hb
  | last hb hw =>
    have hend := words_word_append (t := []) hw (by simp)
    rw [words_blanks_append hb]
    simpa using hend
  | word hb hw hc hs ih =>
    rw [words_blanks_append hb, words_word_append hw (by simpa using hc), words_cons_of_blank hc, ih]

theorem isWord (hs : ConsistsOf ws s) : ∀ w ∈ ws, IsWord w := by
  induction hs with
  | blanks => simp
  | last hb hw => simpa using hw
  | word hb hw hc hs ih =>
    intro w hmem
    cases hmem with
    | head => exact hw
    | tail _ hmem => exact ih w hmem

theorem cons_blank (hc : isBlankChar c = true) (hs : ConsistsOf ws s) : ConsistsOf ws (c :: s) := by
  have hcons : ∀ {b : List Char}, (∀ d ∈ b, isBlankChar d = true) →
      ∀ d ∈ c :: b, isBlankChar d = true := by
    intro b hb
    exact List.forall_mem_cons.mpr ⟨hc, hb⟩
  cases hs with
  | blanks hb => exact .blanks (hcons hb)
  | last hb hw => exact .last (hcons hb) hw
  | word hb hw hd hs => exact .word (hcons hb) hw hd hs

theorem cons_solid {d : Char} (hc : isBlankChar c = false) (hd : isBlankChar d = false)
    (hs : ConsistsOf ws (d :: s)) : ConsistsOf (ws.modifyHead (c :: ·)) (c :: d :: s) := by
  generalize htext : d :: s = text at hs
  have hnone : ∀ {b t : List Char}, (∀ e ∈ b, isBlankChar e = true) → d :: s = b ++ t → b = [] := by
    intro b t hb heq
    cases b with
    | nil => rfl
    | cons e b =>
      have he : isBlankChar e = true := hb e List.mem_cons_self
      cases heq
      simp [hd] at he
  have hlong : ∀ {w : List Char}, IsWord w → IsWord (c :: w) := by
    intro w hw
    exact ⟨by simp, List.forall_mem_cons.mpr ⟨hc, hw.solid⟩⟩
  cases hs with
  | blanks hb =>
    have h := hnone hb (by rw [List.append_nil, htext])
    rw [h] at htext
    contradiction
  | last hb hw =>
    rw [hnone hb htext]
    exact .last (b := []) (by simp) (hlong hw)
  | word hb hw he hs =>
    rw [hnone hb htext]
    exact .word (b := []) (by simp) (hlong hw) he hs

end ConsistsOf

theorem consistsOf_words : ∀ s : List Char, ConsistsOf (words s) s
  | [] => .blanks (by simp)
  | c :: s => by
    cases hc : isBlankChar c with
    | true =>
      rw [words_cons_of_blank hc]
      exact .cons_blank hc (consistsOf_words s)
    | false =>
      cases s with
      | nil =>
        rw [words]
        simp only [hc, Bool.false_eq_true, ↓reduceIte]
        exact .last (b := []) (by simp) ⟨by simp, by simpa using hc⟩
      | cons d s =>
        rw [words]
        simp only [hc, Bool.false_eq_true, ↓reduceIte]
        split
        . next hd =>
          rw [words_cons_of_blank hd]
          exact .word (b := []) (w := [c]) (by simp) ⟨by simp, by simpa using hc⟩ hd
            (consistsOf_words s)
        . next hd => exact .cons_solid hc (by simpa using hd) (consistsOf_words (d :: s))

theorem consistsOf_iff : ConsistsOf ws s ↔ words s = ws := by
  constructor
  . exact ConsistsOf.words_eq
  . intro h
    rw [← h]
    apply consistsOf_words

theorem words_intercalate (hws : ∀ w ∈ ws, IsWord w) : words ([' '].intercalate ws) = ws := by
  induction ws with
  | nil => rfl
  | cons w ws ih =>
    have hw : IsWord w := hws w List.mem_cons_self
    cases ws with
    | nil => simpa using words_word_append (t := []) hw (by simp)
    | cons u ws =>
      rw [List.intercalate_cons_cons, List.append_assoc, List.singleton_append,
        words_word_append hw (by simp [isBlankChar]), words_cons_of_blank (by decide), ih]
      intro x hx
      exact hws x (List.mem_cons_of_mem w hx)

theorem words_normalize (text : String) :
    words (normalize text).toList = words text.toList := by
  have hwords : ∀ w ∈ words text.toList, IsWord w := (consistsOf_words text.toList).isWord
  rw [normalize, String.toList_ofList, words_intercalate hwords]

theorem normalize_eq_iff {text other : String} :
    normalize text = normalize other ↔
      ∃ ws, ConsistsOf ws text.toList ∧ ConsistsOf ws other.toList := by
  simp only [consistsOf_iff]
  constructor
  . intro h
    refine ⟨words text.toList, rfl, ?_⟩
    rw [← words_normalize other, ← h, words_normalize]
  . intro h
    cases h with
    | intro ws h => rw [normalize, normalize, h.1, h.2]

theorem normalize_idem (text : String) : normalize (normalize text) = normalize text := by
  rw [normalize, words_normalize, ← normalize]

namespace IsNormal

theorem no_blanks (hs : IsNormal (b ++ s)) (hb : ∀ c ∈ b, isBlankChar c = true) : b = [] := by
  cases b with
  | nil => rfl
  | cons c b =>
    have hblank : isBlankChar c = true := hb c List.mem_cons_self
    have hsolid : isBlankChar c = false := hs.head c rfl
    simp [hblank] at hsolid

theorem after_space (hs : IsNormal (w ++ ' ' :: s)) : s ≠ [] ∧ IsNormal s := by
  have hspace : isBlankChar ' ' = true := by decide
  have hnonempty : s ≠ [] := by
    intro h
    have hlast := hs.last ' ' (by simp [h])
    simp [hspace] at hlast
  have hchain := List.isChain_cons.mp (List.isChain_append.mp hs.apart).2.1
  refine ⟨hnonempty, ?_, ?_, hchain.2, ?_⟩
  . intro c hc
    exact hchain.1 c hc hspace
  . intro c hc
    apply hs.last
    rw [List.getLast?_append, List.getLast?_cons, Option.mem_def.mp hc]
    rfl
  . intro c hc
    apply hs.spaces
    simp [hc]

theorem of_isWord (hw : IsWord w) : IsNormal w := by
  constructor
  . intro c hc
    exact hw.solid c (List.mem_of_mem_head? hc)
  . intro c hc
    exact hw.solid c (List.mem_of_mem_getLast? hc)
  . apply List.Pairwise.isChain
    apply List.pairwise_of_forall_mem_list
    intro c _ d hd _
    exact hw.solid d hd
  . intro c hc hblank
    rw [hw.solid c hc] at hblank
    contradiction

theorem cons_word (hw : IsWord w) (hnonempty : s ≠ []) (hs : IsNormal s) :
    IsNormal (w ++ ' ' :: s) := by
  have hword : IsNormal w := of_isWord hw
  constructor
  . intro c hc
    rw [List.head?_append_of_ne_nil _ hw.nonempty] at hc
    exact hword.head c hc
  . intro c hc
    rw [List.getLast?_append_of_ne_nil _ (by simp), List.getLast?_cons_of_ne_nil hnonempty] at hc
    exact hs.last c hc
  . rw [List.isChain_append, List.isChain_cons]
    refine ⟨hword.apart, ⟨?_, hs.apart⟩, ?_⟩
    . intro c hc _
      exact hs.head c hc
    . intro c hc d _ hblank
      rw [hword.last c hc] at hblank
      contradiction
  . intro c hc hblank
    cases List.mem_append.mp hc with
    | inl hc => exact hword.spaces c hc hblank
    | inr hc =>
      cases hc with
      | head => rfl
      | tail _ hc => exact hs.spaces c hc hblank

end IsNormal

theorem isNormal_intercalate (hws : ∀ w ∈ ws, IsWord w) : IsNormal ([' '].intercalate ws) := by
  induction ws with
  | nil => constructor <;> simp
  | cons w ws ih =>
    have hw : IsWord w := hws w List.mem_cons_self
    have hrest : ∀ w ∈ ws, IsWord w := by
      intro u hu
      exact hws u (List.mem_cons_of_mem w hu)
    cases ws with
    | nil => simpa using IsNormal.of_isWord hw
    | cons u ws =>
      rw [List.intercalate_cons_cons, List.append_assoc, List.singleton_append]
      apply IsNormal.cons_word hw _ (ih hrest)
      intro h
      have hnone := words_intercalate hrest
      rw [h] at hnone
      contradiction

theorem ConsistsOf.intercalate_eq (hs : ConsistsOf ws s) (hnormal : IsNormal s) :
    [' '].intercalate ws = s := by
  induction hs with
  | @blanks b hb => exact (IsNormal.no_blanks (s := []) (by simpa using hnormal) hb).symm
  | last hb hw =>
    rw [hnormal.no_blanks hb]
    simp
  | @word b w c ws s hb hw hc hs ih =>
    have hnone := hnormal.no_blanks hb
    rw [hnone] at hnormal ⊢
    have hspace : c = ' ' := hnormal.spaces c (by simp) hc
    rw [hspace] at hnormal ⊢
    have hrest := IsNormal.after_space (w := w) hnormal
    have heq := ih hrest.2
    cases ws with
    | nil =>
      rw [← heq] at hrest
      exact absurd rfl hrest.1
    | cons u ws =>
      rw [List.intercalate_cons_cons, heq]
      simp

theorem normalize_eq_self_iff {text : String} : normalize text = text ↔ IsNormal text.toList := by
  have hmade : ConsistsOf (words text.toList) text.toList := consistsOf_words text.toList
  rw [normalize, ← String.toList_inj, String.toList_ofList]
  constructor
  . intro h
    rw [← h]
    exact isNormal_intercalate hmade.isWord
  . exact hmade.intercalate_eq

/--
A blank belongs to no word, so it keeps the words before it apart from those after it.
-/
theorem ConsistsOf.append {vs : List (List Char)} (hs : ConsistsOf ws s)
    (hc : isBlankChar c = true) (ht : ConsistsOf vs t) : ConsistsOf (ws ++ vs) (s ++ c :: t) := by
  induction hs with
  | blanks hb =>
    rw [List.nil_append, consistsOf_iff, words_blanks_append hb]
    exact (ht.cons_blank hc).words_eq
  | last hb hw =>
    rw [List.append_assoc]
    exact .word hb hw hc ht
  | word hb hw hd hs ih =>
    rw [List.append_assoc, List.append_assoc, List.cons_append]
    exact .word hb hw hd ih

theorem words_append_blanks (hnonempty : b ≠ []) (hb : ∀ c ∈ b, isBlankChar c = true) :
    words (s ++ (b ++ t)) = words s ++ words t := by
  cases b with
  | nil => contradiction
  | cons c b =>
    have hrest : words (b ++ t) = words t := by
      apply words_blanks_append
      intro d hd
      exact hb d (List.mem_cons_of_mem c hd)
    have hmade := (consistsOf_words s).append (hb c List.mem_cons_self) (consistsOf_words (b ++ t))
    rw [List.cons_append, hmade.words_eq, hrest]

theorem words_eq_nil_iff : words s = [] ↔ ∀ c ∈ s, isBlankChar c = true := by
  constructor
  . intro h
    cases consistsOf_iff.mpr h with
    | blanks hb => exact hb
  . exact words_of_blanks

theorem normalize_eq_empty_iff {text : String} : normalize text = "" ↔ isBlank text = true := by
  rw [isBlank, List.all_eq_true, ← words_eq_nil_iff, ← words_normalize, ← String.toList_inj]
  constructor
  . intro h
    rw [h]
    rfl
  . intro h
    have hmade := consistsOf_words (normalize text).toList
    have hnormal := normalize_eq_self_iff.mp (normalize_idem text)
    rw [← hmade.intercalate_eq hnormal, h]
    rfl

/--
The normal form stands for the words of a text, and for nothing else about it.
-/
theorem normalize_canonical (text other : String) :
    (∃! ws, ConsistsOf ws text.toList) ∧
    (normalize text = normalize other ↔
      ∃ ws, ConsistsOf ws text.toList ∧ ConsistsOf ws other.toList) ∧
    normalize (normalize text) = normalize text ∧
    IsNormal (normalize text).toList ∧
    (normalize text = "" ↔ isBlank text = true) ∧
    ∀ before run after replacement : String, text = before ++ run ++ after →
      isBlank run = true → run ≠ "" → isBlank replacement = true → replacement ≠ "" →
      normalize (before ++ replacement ++ after) = normalize text := by
  have hmade : ConsistsOf (words text.toList) text.toList := consistsOf_words text.toList
  have hidem := normalize_idem text
  refine ⟨⟨_, hmade, ?_⟩, normalize_eq_iff, hidem, normalize_eq_self_iff.mp hidem,
    normalize_eq_empty_iff, ?_⟩
  . intro ws hws
    exact hws.words_eq.symm
  . intro before run after replacement htext hrun hne hreplacement hne'
    have hwords : ∀ b : String, isBlank b = true → b ≠ "" →
        words (before ++ b ++ after).toList = words before.toList ++ words after.toList := by
      intro b hb hb'
      rw [String.toList_append, String.toList_append, List.append_assoc]
      apply words_append_blanks
      . simpa using hb'
      . simpa [isBlank] using hb
    rw [htext, normalize, normalize, hwords replacement hreplacement hne', hwords run hrun hne]

/--
Two blanks give way to another one, between words and at the end.
-/
theorem normalize_canonical_tab :
    isBlank "\t\n" = true ∧ isBlank "\r" = true ∧ normalize " a\rb\t" = "a b" ∧
    normalize " a\rb\t" = normalize " a\t\nb\t" ∧ normalize " a\rb\r" = normalize " a\rb\t" := by
  have hbetween := (normalize_canonical " a\t\nb\t" "").2.2.2.2.2 " a" "\t\n" "b\t" "\r"
    (by decide) (by decide) (by decide) (by decide) (by decide)
  have hend := (normalize_canonical " a\rb\t" "").2.2.2.2.2 " a\rb" "\t" "" "\r"
    (by decide) (by decide) (by decide) (by decide) (by decide)
  exact ⟨by decide, by decide, by decide, hbetween, hend⟩

end Text

namespace Datatype

open Text

/--
A single value accepts the texts that are made of the same words, provided that it is normal itself.
A value with other blanks in it accepts nothing, not even itself.
-/
theorem token_accepts_iff (value text : String) (scope : Scope) :
    ((token value).accepts scope text = true ↔
      IsNormal value.toList ∧ normalize value = normalize text) ∧
    (normalize value = normalize text ↔
      ∃ ws, ConsistsOf ws value.toList ∧ ConsistsOf ws text.toList) ∧
    ((token value).accepts scope value = true ↔ IsNormal value.toList) := by
  have haccepts : ∀ text, (token value).accepts scope text = true ↔ value = normalize text := by
    simp [token, accepts]
  refine ⟨?_, normalize_eq_iff, ?_⟩
  . rw [haccepts, ← normalize_eq_self_iff]
    constructor
    . intro h
      have hidem := normalize_idem text
      rw [← h] at hidem
      exact ⟨hidem, hidem.trans h⟩
    . intro h
      exact h.1.symm.trans h.2
  . rw [haccepts, ← normalize_eq_self_iff]
    exact eq_comm

example : (token " a ").accepts [] " a " = false := by decide

end Datatype

end TreeGrammar
