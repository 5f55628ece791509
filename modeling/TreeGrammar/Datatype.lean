import TreeGrammar.Regex.Engine
import TreeGrammar.Scope
import TreeGrammar.Text.Blank
import TreeGrammar.Text.Quoted

/-!
This module contains the datatypes: the sets of texts that a value can be restricted to. Which
datatypes there are is left to those who write grammars; some simple ones are defined here.
-/

namespace TreeGrammar

/--
A set of texts. Whether a text belongs to it can depend on what short names of namespaces stand for.
-/
structure Datatype where
  name : String
  spelledOut : String
  isValid : (String → Option String) → String → Bool

namespace Datatype

def accepts (d : Datatype) (scope : Scope) (literal : String) : Bool :=
  d.isValid scope.resolve? literal

def string : Datatype where
  name := "string"
  spelledOut := "StringType"
  isValid _ _ := true

def token (value : String) : Datatype where
  name := "token"
  spelledOut := "TokenValue(" ++ Text.quoted value ++ ")"
  isValid _ literal := value = Text.normalize literal

/--
The text of a pattern in a group, between the anchors for the beginning and the end. The group is made
by writing its marks around the text.
-/
def anchored (text : String) : String := "^(?:" ++ text ++ ")$"

def pattern? (engine : RegexEngine) (name text : String) : Option Datatype := do
  let regex ← engine.compile? (anchored text)
  return {
    name
    spelledOut := "PatternType \x7b name: " ++ Text.quoted name ++ ", re: Regex(" ++
      Text.quoted (anchored text) ++ ") \x7d"
    isValid := fun _ literal => engine.isMatch regex literal
  }

end Datatype

/--
A datatype as a grammar declares it. Two declarations stay apart even if their datatypes are the
same, since they carry different numbers.
-/
structure DeclaredType where
  number : Nat
  datatype : Datatype

end TreeGrammar
