import TreeGrammar.Name
import TreeGrammar.Text.Quoted

/-!
This module contains name classes: the sets of names that a declaration can stand for.
-/

namespace TreeGrammar

inductive NameClass where
  | only (name : Name)
  | within (uri : String)
  | withinExcept (uri : String) (except : NameClass)
  | any
  | anyExcept (except : NameClass)
  | alt (a b : NameClass)
deriving DecidableEq

namespace NameClass

def ofLocal (localName : String) : NameClass := .only (.ofLocal localName)

def contains : NameClass → Name → Bool
  | .only m, n => n = m
  | .within uri, n => n.uri = uri
  | .withinExcept uri except, n => n.uri = uri && !except.contains n
  | .any, _ => true
  | .anyExcept except, n => !except.contains n
  | .alt a b, n => a.contains n || b.contains n

/--
A short text for readers: local names, `*` for what is open, `-` before what is excluded and `|`
between alternatives. The namespace of a single name is left out.
-/
def describe : NameClass → String
  | .only n => n.localName
  | .within uri => uri ++ ":*"
  | .withinExcept uri except => uri ++ ":*-" ++ except.describe
  | .any => "*"
  | .anyExcept except => "*-" ++ except.describe
  | .alt a b => a.describe ++ "|" ++ b.describe

def spellOut : NameClass → String
  | .only n =>
    "Named \x7b namespace_uri: " ++ Text.quoted n.uri ++ ", name: " ++
      Text.quoted n.localName ++ " \x7d"
  | .within uri => inNamespace uri "None"
  | .withinExcept uri except => inNamespace uri ("Some(" ++ except.spellOut ++ ")")
  | .any => "AnyName \x7b except: None \x7d"
  | .anyExcept except => "AnyName \x7b except: Some(" ++ except.spellOut ++ ") \x7d"
  | .alt a b => "Alt \x7b a: " ++ a.spellOut ++ ", b: " ++ b.spellOut ++ " \x7d"
where
  inNamespace (uri excluded : String) : String :=
    "NsName \x7b namespace_uri: " ++ Text.quoted uri ++ ", except: " ++ excluded ++ " \x7d"

end NameClass

end TreeGrammar
