/-!
This module contains the blank characters, the words of a text, and the normal form of a text up
to the blanks in it.
-/

namespace TreeGrammar.Text

/--
A space, tab, carriage return or line feed. No other character separates words.
-/
def isBlankChar (c : Char) : Bool :=
  c == ' ' || c == '\t' || c == '\r' || c == '\n'

def isBlank (s : String) : Bool :=
  s.toList.all isBlankChar

/--
The words of a text: its maximal runs of characters that are not blank, in order.
-/
def words : List Char → List (List Char)
  | [] => []
  | c :: s =>
    if isBlankChar c then
      words s
    else
      match s with
      | [] => [[c]]
      -- `c` starts a word of its own exactly when a blank follows it
      | d :: _ => if isBlankChar d then [c] :: words s else (words s).modifyHead (c :: ·)

def normalize (s : String) : String :=
  String.ofList ([' '].intercalate (words s.toList))

@[simp]
theorem words_nil : words [] = [] := rfl

@[simp]
theorem words_cons_of_blank {c : Char} {s : List Char} (h : isBlankChar c = true) :
    words (c :: s) = words s := by
  simp [words, h]

end TreeGrammar.Text
