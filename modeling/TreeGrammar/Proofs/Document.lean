import TreeGrammar.Proofs.Discharge
import TreeGrammar.Validation.Event

/-!
This module contains documents as forests of elements and texts, the events that a document is given
as, and when a document is valid. Validity is a matter of the languages of expressions alone.
-/

namespace TreeGrammar

namespace Language

variable {l : Language Letter} {x : Letter} {w : List Letter}

theorem nil_mem_bare : [] ∈ bare l ↔ [] ∈ l := by
  rw [mem_bare]
  simp

theorem mem_advance : w ∈ advance l x ↔ x.isIgnorable ∧ w ∈ l ∨ x :: w ∈ l := by
  unfold advance
  split
  . next h =>
    rw [Language.mem_add, Language.mem_leftQuotient, and_iff_right h]
    rfl
  . next h =>
    rw [Language.mem_leftQuotient, or_iff_right fun hw => h hw.1]
    rfl

theorem advance_bare (hx : x.isAttribute = false) : advance (bare l) x = bare (advance l x) := by
  ext w
  simp only [mem_advance, mem_bare, List.forall_mem_cons, hx, true_and, and_assoc, or_and_right]

theorem foldl_advance_bare (hw : ∀ x ∈ w, x.isAttribute = false) :
    w.foldl advance (bare l) = bare (w.foldl advance l) := by
  induction w generalizing l with
  | nil => rfl
  | cons x w ih =>
    rw [List.forall_mem_cons] at hw
    rw [List.foldl_cons, List.foldl_cons, advance_bare hw.1, ih hw.2]

end Language

def textLetters (text : String) (scope : Scope) : List Letter :=
  if text.isEmpty then [] else [.text text scope]

namespace StartTag

def letters (tag : StartTag) (scope : Scope) (body : List Letter) : List Letter :=
  (tag.attributes.map fun a => .attribute a.name a.value scope) ++
    if body.isEmpty then [.text "" scope] else body

def Matches (s : Store) (defs : Definitions) (tag : StartTag) (scope : Scope) (body : List Letter)
    (id : ExprId) : Prop :=
  ∃ names content, s.node id = .element names content ∧ names.contains tag.name ∧
    tag.letters scope body ∈ Language.loose (s.language defs content)

end StartTag

/--
A sequence of texts and elements.
-/
inductive Forest where
  | nil
  | text (text : String) (rest : Forest)
  | element (tag : StartTag) (content rest : Forest)

namespace Forest

def events : Forest → List Event
  | .nil => []
  | .text run rest => .characters run :: rest.events
  | .element tag content rest => .startElement tag :: (content.events ++ .endElement :: rest.events)

/--
The forest as letters, where some text has come before it. Texts that follow each other are one
text, and of an element it matters which declarations it matches.
-/
def letters (s : Store) (defs : Definitions) (scope : Scope) (before : String) :
    Forest → List Letter
  | .nil => textLetters before scope
  | .text run rest => rest.letters s defs scope (before ++ run)
  | .element tag content rest =>
    let inner := scope.declare tag.declarations
    textLetters before scope ++
      .element (tag.Matches s defs inner (content.letters s defs inner "")) ::
        rest.letters s defs scope ""

/--
The document is one that the expression stands for, if blank text may be dropped anywhere.
-/
def Valid (s : Store) (defs : Definitions) (start : ExprId) (document : Forest) : Prop :=
  document.letters s defs [] "" ∈ Language.loose (s.language defs start)

def closed (s : Store) (defs : Definitions) (scope : Scope) (before : String) :
    Forest → List Letter
  | .nil => []
  | .text run rest => rest.closed s defs scope (before ++ run)
  | .element tag content rest =>
    let inner := scope.declare tag.declarations
    textLetters before scope ++
      .element (tag.Matches s defs inner (content.letters s defs inner "")) ::
        rest.closed s defs scope ""

def pending (before : String) : Forest → String
  | .nil => before
  | .text run rest => rest.pending (before ++ run)
  | .element _ _ rest => rest.pending ""

variable {s : Store} {defs : Definitions} {scope : Scope} {before : String}

theorem letters_eq (forest : Forest) : forest.letters s defs scope before =
    forest.closed s defs scope before ++ textLetters (forest.pending before) scope := by
  induction forest generalizing before scope with
  | nil => rfl
  | text run rest ih => exact ih
  | element tag content rest _ ih =>
    unfold letters closed pending
    rw [ih, List.append_assoc, List.cons_append]

theorem isAttribute_of_mem_textLetters {text : String} {x : Letter}
    (hx : x ∈ textLetters text scope) : x.isAttribute = false := by
  unfold textLetters at hx
  split at hx
  . cases hx
  . rw [List.mem_singleton.1 hx]
    rfl

theorem isAttribute_of_mem_letters {forest : Forest} {x : Letter}
    (hx : x ∈ forest.letters s defs scope before) : x.isAttribute = false := by
  induction forest generalizing before scope with
  | nil => exact isAttribute_of_mem_textLetters hx
  | text run rest ih => exact ih hx
  | element tag content rest _ ih =>
    unfold letters at hx
    rcases List.mem_append.1 hx with hx | hx
    . exact isAttribute_of_mem_textLetters hx
    . rcases List.mem_cons.1 hx with rfl | hx
      . rfl
      . exact ih hx

end Forest

end TreeGrammar
