import TreeGrammar.Regex.CharClass

/-!
This module contains the reader of classes between square brackets. It takes the text one character
at a time, from the one after the opening bracket to the closing one.
-/

namespace TreeGrammar

/--
The character that a backslash and `c` stand for. Letters and digits have no meaning of their own
here, apart from the usual names of controls.
-/
def escaped? (c : Char) : Option Char :=
  match c with
  | 'a' => some '\x07'
  | 'f' => some '\x0c'
  | 'n' => some '\n'
  | 'r' => some '\r'
  | 't' => some '\t'
  | 'v' => some '\x0b'
  | c =>
    if c.toNat < 128 && !c.isAlphanum && c != '<' && c != '>' then some c else none

structure Bracket where
  complemented : Bool := false
  combined : Option (CharClass × SetOperation) := none
  items : List CharClass := []
  text : List Char := []

namespace Bracket

def body (k : Bracket) : CharClass :=
  let items := CharClass.unionOf k.items.reverse
  match k.combined with
  | none => items
  | some (l, op) => .combine op l items

def toClass (k : Bracket) : CharClass :=
  .bracket (if k.complemented then .complement k.body else k.body)

/--
The class that the bracket names, if it holds nothing but a name between colons. A `^` before the
name stands for the complement.
-/
def named? (k : Bracket) : Option CharClass :=
  match k.text.reverse with
  | ':' :: '^' :: rest => (inner? rest).map .complement
  | ':' :: rest => inner? rest
  | _ => none
where
  inner? (rest : List Char) : Option CharClass :=
    if rest.drop (rest.length - 2) = [':', ']'] then
      CharClass.named? (String.ofList (rest.take (rest.length - 2)))
    else
      none

end Bracket

inductive ClassMode where
  | opened
  /--
  At the beginning of a class, where dashes and a closing bracket are ordinary characters.
  -/
  | head
  | items
  /--
  After a character that may begin a range, and whether it stood for itself without a
  backslash.
  -/
  | item (c : Char) (isBare : Bool)
  | dash (lo : Char)
  | escape (lo : Option Char)

structure ClassReader where
  outer : List Bracket := []
  bracket : Bracket := {}
  mode : ClassMode := .opened

namespace ClassReader

inductive Progress where
  | reading (r : ClassReader)
  | finished (k : CharClass)

def operation? : Char → Option SetOperation
  | '&' => some .intersection
  | '-' => some .difference
  | '~' => some .symmetricDifference
  | _ => none

def turn (r : ClassReader) (mode : ClassMode) : ClassReader := { r with mode }

def push (r : ClassReader) (k : CharClass) : ClassReader :=
  { r with bracket := { r.bracket with items := k :: r.bracket.items }, mode := .items }

def operate (r : ClassReader) (op : SetOperation) : ClassReader :=
  { r with
    bracket := { r.bracket with combined := some (r.bracket.body, op), items := [] }
    mode := .items }

def range? (r : ClassReader) (lo hi : Char) : Option Progress :=
  if lo ≤ hi then some (.reading (r.push (.ranges [(lo, hi)]))) else none

def nest (r : ClassReader) : ClassReader where
  outer := r.bracket :: r.outer

def close (r : ClassReader) : Progress :=
  match r.outer with
  | [] => .finished r.bracket.toClass
  | k :: outer =>
    .reading ({ outer, bracket := k : ClassReader }.push
      (r.bracket.named?.getD r.bracket.toClass))

def stepItems (r : ClassReader) (c : Char) : Progress :=
  match c with
  | ']' => r.close
  | '[' => .reading r.nest
  | '\\' => .reading (r.turn (.escape none))
  | c => .reading (r.turn (.item c true))

def stepHead (r : ClassReader) (c : Char) : Progress :=
  if c = '-' then .reading ((r.push (.only c)).turn .head)
  else if c = ']' && r.bracket.items.isEmpty then .reading (r.push (.only c))
  else r.stepItems c

def step (r : ClassReader) (c : Char) : Option Progress :=
  let r := { r with bracket := { r.bracket with text := c :: r.bracket.text } }
  match r.mode with
  | .opened =>
    if c = '^' then
      some (.reading { r with bracket := { r.bracket with complemented := true }, mode := .head })
    else
      some (r.stepHead c)
  | .head => some (r.stepHead c)
  | .items => some (r.stepItems c)
  | .item a isBare =>
    match if isBare && a = c then operation? c else none with
    | some op => some (.reading (r.operate op))
    | none =>
      if c = '-' then some (.reading (r.turn (.dash a)))
      else some ((r.push (.only a)).stepItems c)
  | .dash lo =>
    match c with
    | ']' => some ((r.push (.only lo)).push (.only '-')).close
    -- two dashes are an operation, even after the beginning of a range
    | '-' => some (.reading ((r.push (.only lo)).operate .difference))
    | '\\' => some (.reading (r.turn (.escape (some lo))))
    | c => r.range? lo c
  | .escape lo => do
    let c ← escaped? c
    match lo with
    | none => return .reading (r.turn (.item c false))
    | some lo => r.range? lo c

end ClassReader

end TreeGrammar
