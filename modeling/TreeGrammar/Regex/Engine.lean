/-!
This module contains what patterns need of a library of regular expressions.
-/

namespace TreeGrammar

/--
A library of regular expressions.
-/
structure RegexEngine where
  Compiled : Type
  /--
  Reads a regular expression, or answers `none` if the text is none or goes beyond a limit.
  -/
  compile? : String → Option Compiled
  isMatch : Compiled → String → Bool

end TreeGrammar
