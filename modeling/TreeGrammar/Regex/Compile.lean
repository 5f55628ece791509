import TreeGrammar.Regex.Engine
import TreeGrammar.Regex.Footprint
import TreeGrammar.Regex.Lengths
import TreeGrammar.Regex.Parser

/-!
This module contains an engine for regular expressions.
-/

namespace TreeGrammar.Regex

/--
The engine that reads an expression into its parts and searches for a match place by place.
-/
def engine : RegexEngine where
  Compiled := Regex
  compile? text := (parse? text).filter fits
  isMatch := matchesWithin

end TreeGrammar.Regex
