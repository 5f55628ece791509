/-!
This module contains the classes of characters that regular expressions name, as they are written:
ranges, classes side by side or between square brackets, and the operations on sets.
-/

namespace TreeGrammar

inductive SetOperation where
  | intersection
  | difference
  | symmetricDifference
deriving DecidableEq

def SetOperation.apply : SetOperation → Bool → Bool → Bool
  | .intersection, a, b => a && b
  | .difference, a, b => a && !b
  | .symmetricDifference, a, b => a != b

inductive CharClass where
  | ranges (rs : List (Char × Char))
  | complement (k : CharClass)
  /--
  Two classes side by side. In a row of several, the last is the second.
  -/
  | union (k l : CharClass)
  | combine (op : SetOperation) (k l : CharClass)
  | bracket (k : CharClass)
deriving DecidableEq

namespace CharClass

def containsCode (n : Nat) : CharClass → Bool
  | .ranges rs => rs.any fun r => r.1.toNat ≤ n && n ≤ r.2.toNat
  | .complement k => !k.containsCode n
  | .union k l => k.containsCode n || l.containsCode n
  | .combine op k l => op.apply (k.containsCode n) (l.containsCode n)
  | .bracket k => k.containsCode n

def contains (k : CharClass) (c : Char) : Bool :=
  k.containsCode c.toNat

def only (c : Char) : CharClass := .ranges [(c, c)]

def withinLine : CharClass := .complement (only '\n')

def unionOf : List CharClass → CharClass
  | [] => .ranges []
  | k :: ks => ks.foldl .union k

def depth : CharClass → Nat
  | .ranges _ => 0
  | .complement k => k.depth
  | .union k l =>
    -- a row counts once, however long it is
    max (match k with
      | .union .. => k.depth
      | _ => k.depth + 1) (l.depth + 1)
  | .combine _ k l => max k.depth l.depth + 1
  | .bracket k => k.depth + 1

/--
The code points at which the class can begin or end: where a range begins, and after its end.
-/
def ends : CharClass → List Nat
  | .ranges rs => rs.flatMap fun r => [r.1.toNat, r.2.toNat + 1]
  | .complement k | .bracket k => k.ends
  | .union k l | .combine _ k l => k.ends ++ l.ends

end CharClass

def CharClass.named? : String → Option CharClass
  | "alnum" => some (.ranges [('0', '9'), ('A', 'Z'), ('a', 'z')])
  | "alpha" => some (.ranges [('A', 'Z'), ('a', 'z')])
  | "ascii" => some (.ranges [('\x00', '\x7f')])
  | "blank" => some (.ranges [('\t', '\t'), (' ', ' ')])
  | "cntrl" => some (.ranges [('\x00', '\x1f'), ('\x7f', '\x7f')])
  | "digit" => some (.ranges [('0', '9')])
  | "graph" => some (.ranges [('!', '~')])
  | "lower" => some (.ranges [('a', 'z')])
  | "print" => some (.ranges [(' ', '~')])
  | "punct" => some (.ranges [('!', '/'), (':', '@'), ('[', '\x60'), ('\x7b', '~')])
  | "space" => some (.ranges [('\t', '\r'), (' ', ' ')])
  | "upper" => some (.ranges [('A', 'Z')])
  | "word" => some (.ranges [('0', '9'), ('A', 'Z'), ('_', '_'), ('a', 'z')])
  | "xdigit" => some (.ranges [('0', '9'), ('A', 'F'), ('a', 'f')])
  | _ => none

end TreeGrammar
