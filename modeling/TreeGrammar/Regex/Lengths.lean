import TreeGrammar.Regex.Basic

/-!
This module contains the match of a regular expression with a text. For every place of the text it
finds the lengths that a match from there can have, part by part of the expression, so the work is
bounded by the sizes of the expression and the text, however the repetitions are nested.
-/

namespace TreeGrammar

/--
For every place of a text, in order, a set of lengths: bit `d` of the number is set if `d` belongs
to the set.
-/
abbrev Lengths := List Nat

namespace Lengths

def zero (a : Lengths) : Lengths := a.map fun _ => 1

def either (a b : Lengths) : Lengths := List.zipWith (· ||| ·) a b

/--
The sums of a length from `first` and a length at the place that it leads to. The list begins with
the place that `first` belongs to.
-/
def extend (first : Nat) : Lengths → Nat
  | [] => 0
  | rest :: later =>
    if first = 0 then
      0
    else
      (if first % 2 = 1 then rest else 0) ||| 2 * extend (first / 2) later

def andThen : Lengths → Lengths → Lengths
  | a :: as, b :: bs => extend a (b :: bs) :: andThen as bs
  | _, _ => []

/--
The lengths of any number of matches in a row. Empty ones add nothing.
-/
def anyNumber : Lengths → Lengths
  | [] => []
  | a :: as =>
    let later := anyNumber as
    (1 ||| 2 * extend (a / 2) later) :: later

def iterate (f : Lengths → Lengths) : Nat → Lengths → Lengths
  | 0, a => a
  | n + 1, a =>
    let b := f a
    if b = a then a else iterate f n b

def times (n : Nat) (a : Lengths) : Lengths :=
  iterate a.andThen n a.zero

def upTo (n : Nat) (a : Lengths) : Lengths :=
  iterate (fun b => a.zero.either (a.andThen b)) n a.zero

end Lengths

namespace Regex

/--
The lengths of what is read from each of the places, given the lengths of what comes before the
match of the expression.
-/
def advance (places : List Place) (before : Lengths) : Regex → Lengths
  | .empty => before
  | .one k => before.andThen (places.map fun p => if p.after.any k.contains then 2 else 0)
  | .anchor a => before.andThen (places.map fun p => if a.holds p then 1 else 0)
  | .seq a b => b.advance places (a.advance places before)
  | .alt a b => (a.advance places before).either (b.advance places before)
  | .repeated min max _ a =>
    let once := a.advance places before.zero
    (before.andThen (once.times min)).andThen (match max with
      | none => once.anyNumber
      | some max => once.upTo (max - min))
  | .group _ a => a.advance places before

def lengths (places : List Place) (r : Regex) : Lengths :=
  r.advance places (places.map fun _ => 1)

def matchesWithin (r : Regex) (s : String) : Bool :=
  (r.lengths (Place.all none s.toList)).any (· != 0)

end Regex

end TreeGrammar
