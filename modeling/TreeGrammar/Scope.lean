/-!
This module contains the namespace declarations that are in force at a place of a document.
-/

namespace TreeGrammar

/--
A namespace declaration: a URI under a short name, which is empty for the default namespace.
-/
structure Declaration where
  short : String
  uri : String
deriving DecidableEq

/--
The declarations in force, the latest first. A later declaration hides an earlier one of the same
short name.
-/
abbrev Scope := List Declaration

namespace Scope

def declare (scope : Scope) (declarations : List Declaration) : Scope :=
  declarations.reverse ++ scope

def resolve? (scope : Scope) (short : String) : Option String :=
  (scope.find? (·.short = short)).map (·.uri)

end Scope

end TreeGrammar
