/-!
This module contains expanded names: a local name within a namespace.
-/

namespace TreeGrammar

/--
A local name in the namespace with the given URI. The empty URI stands for no namespace.
-/
structure Name where
  uri : String
  localName : String
deriving DecidableEq

namespace Name

def ofLocal (localName : String) : Name := ⟨"", localName⟩

protected def toString (n : Name) : String :=
  if n.uri.isEmpty then n.localName else "\x7b" ++ n.uri ++ "\x7d" ++ n.localName

instance : ToString Name := ⟨Name.toString⟩

end Name

end TreeGrammar
