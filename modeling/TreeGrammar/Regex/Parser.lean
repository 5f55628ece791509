import TreeGrammar.Regex.Basic
import TreeGrammar.Regex.ClassReader

/-!
This module contains the reader of regular expressions. It takes the text one character at a time,
so reading a text is a fold and reading two texts in a row is reading the first and going on with
the second.
-/

namespace TreeGrammar.Regex

structure Group where
  captures : Bool := true
  alternatives : List Regex := []
  parts : List Regex := []

namespace Group

def alternative (g : Group) : Regex := seqOf g.parts.reverse

def toRegex (g : Group) : Regex := altOf (g.alternative :: g.alternatives).reverse

def push (g : Group) (part : Regex) : Group := { g with parts := part :: g.parts }

def nextAlternative (g : Group) : Group :=
  { g with alternatives := g.alternative :: g.alternatives, parts := [] }

def repeatLast? (g : Group) (min : Nat) (max : Option Nat) : Option Group :=
  match g.parts with
  | [] => none
  | part :: parts => some { g with parts := .repeated min max false part :: parts }

def makeLazy (g : Group) : Group :=
  match g.parts with
  | .repeated min max _ a :: parts => { g with parts := .repeated min max true a :: parts }
  | _ => g

end Group

inductive Numeral where
  /--
  No digit yet, and whether blanks came before it.
  -/
  | awaited (padded : Bool)
  | digits (n : Nat)
  | ended (n : Nat)

def Numeral.value? : Numeral → Option Nat
  | .awaited _ => none
  | .digits n | .ended n => if n < UInt32.size then some n else none

inductive Mode where
  | plain
  /--
  After a repetition, which a question mark makes lazy.
  -/
  | repetition
  | escape
  | opening
  | marked
  | least (n : Numeral)
  | greatest (least : Nat) (n : Numeral)
  | inClass (r : ClassReader)

structure Reader where
  outer : List Group := []
  group : Group := {}
  mode : Mode := .plain

namespace Reader

def isPadding (c : Char) : Bool :=
  let n := c.toNat
  (9 ≤ n && n ≤ 13) || n == 0x20 || n == 0x85 || n == 0xa0 || n == 0x1680 ||
    (0x2000 ≤ n && n ≤ 0x200a) || n == 0x2028 || n == 0x2029 || n == 0x202f || n == 0x205f ||
    n == 0x3000

def turn (r : Reader) (mode : Mode) : Reader := { r with mode }

def part (r : Reader) (part : Regex) : Reader :=
  { r with group := r.group.push part, mode := .plain }

def repetition? (r : Reader) (min : Nat) (max : Option Nat) : Option Reader := do
  return { r with group := ← r.group.repeatLast? min max, mode := .repetition }

def escapedPart? (c : Char) : Option Regex :=
  match c with
  | '<' => some (.anchor .atWordStart)
  | '>' => some (.anchor .atWordEnd)
  | c => (escaped? c).map fun c => .one (.only c)

def stepPlain (r : Reader) (c : Char) : Option Reader :=
  match c with
  | '\\' => some (r.turn .escape)
  | '(' => some { outer := r.group :: r.outer, group := {}, mode := .opening }
  | ')' =>
    match r.outer with
    | [] => none
    | g :: outer =>
      some { outer, group := g.push (.group r.group.captures r.group.toRegex), mode := .plain }
  | '|' => some { r with group := r.group.nextAlternative, mode := .plain }
  | '[' => some (r.turn (.inClass {}))
  | '.' => some (r.part (.one .withinLine))
  | '^' => some (r.part (.anchor .atStart))
  | '$' => some (r.part (.anchor .atEnd))
  | '*' => r.repetition? 0 none
  | '+' => r.repetition? 1 none
  | '?' => r.repetition? 0 (some 1)
  | '\x7b' => if r.group.parts.isEmpty then none else some (r.turn (.least (.awaited false)))
  | c => some (r.part (.one (.only c)))

/--
Takes a character of a number in braces. The result is the number read on, or `none` if the
character does not belong to it.
-/
def stepNumeral? (n : Numeral) (c : Char) : Option Numeral :=
  if c.isDigit then
    let d := c.toNat - '0'.toNat
    match n with
    | .awaited _ => some (.digits d)
    | .digits n => some (.digits (10 * n + d))
    | .ended _ => none
  else if isPadding c then
    match n with
    | .awaited _ => some (.awaited true)
    | .digits n | .ended n => some (.ended n)
  else
    none

def step (r : Reader) (c : Char) : Option Reader :=
  match r.mode with
  | .plain => r.stepPlain c
  | .repetition =>
    if c = '?' then some { r with group := r.group.makeLazy, mode := .plain } else r.stepPlain c
  | .escape => (escapedPart? c).map r.part
  | .opening => if c = '?' then some (r.turn .marked) else r.stepPlain c
  | .marked =>
    if c = ':' then
      some { r with group := { r.group with captures := false }, mode := .plain }
    else
      none
  | .least n =>
    if c = ',' then
      n.value?.map fun least => r.turn (.greatest least (.awaited false))
    else if c = '\x7d' then
      n.value?.bind fun count => r.repetition? count (some count)
    else
      (stepNumeral? n c).map fun n => r.turn (.least n)
  | .greatest least n =>
    if c = '\x7d' then
      match n with
      | .awaited false => r.repetition? least none
      | n => n.value?.bind fun greatest =>
        if least ≤ greatest then r.repetition? least (some greatest) else none
    else
      (stepNumeral? n c).map fun n => r.turn (.greatest least n)
  | .inClass k =>
    (k.step c).map fun
      | .reading k => r.turn (.inClass k)
      | .finished k => r.part (.one k)

def finish? (r : Reader) : Option Regex :=
  match r.outer, r.mode with
  | [], .plain | [], .repetition => some r.group.toRegex
  | _, _ => none

end Reader

def parse? (s : String) : Option Regex := do
  (← s.toList.foldlM Reader.step {}).finish?

end TreeGrammar.Regex
