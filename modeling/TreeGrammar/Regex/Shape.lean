import Std.Data.TreeSet
import TreeGrammar.Regex.Basic

/-!
This module contains the shape of a regular expression, which is what its automata are built from.
Parentheses that capture nothing are gone, neighbouring characters are one literal, and repetitions
and alternatives that can be said more simply are simplified.
-/

namespace TreeGrammar

inductive Shape where
  | empty
  | literal (s : List Char)
  /--
  One character from some ranges of code points, which are apart and in increasing order.
  -/
  | chars (ranges : List (Nat × Nat))
  | anchor (a : Anchor)
  | seq (a b : Shape)
  | alt (a b : Shape)
  | words (ws : List (List Char))
  | repeated (min : Nat) (max : Option Nat) (isLazy : Bool) (a : Shape)
  | capture (a : Shape)
deriving DecidableEq

namespace Shape

/--
The ranges of the code points with a property, which changes at some of the code points `ends` only.
-/
def rangesOf (holds : Nat → Bool) (ends : List Nat) : List (Nat × Nat) :=
  pairs ((Std.TreeSet.ofList (0 :: 0x110000 :: ends)).toList.filter
    fun n => inside n != (n != 0 && inside (n - 1)))
where
  inside (n : Nat) : Bool := n < 0x110000 && holds n
  pairs : List Nat → List (Nat × Nat)
    | lo :: next :: rest => (lo, next - 1) :: pairs rest
    | _ => []

def ofRanges (rs : List (Nat × Nat)) : Shape :=
  match rs with
  | [(lo, hi)] => if lo = hi then .literal [Char.ofNat lo] else .chars rs
  | _ => .chars rs

def ofClass (k : CharClass) : Shape :=
  ofRanges (rangesOf k.containsCode k.ends)

def isZeroWidth : Shape → Bool
  | .empty | .anchor _ => true
  | .literal _ | .chars _ | .words _ => false
  | .seq a b | .alt a b => a.isZeroWidth && b.isZeroWidth
  | .repeated _ _ _ a | .capture a => a.isZeroWidth

def leastLength? : Shape → Option Nat
  | .empty | .anchor _ => some 0
  | .literal s => some s.length
  | .chars rs => if rs.isEmpty then none else some 1
  | .words ws => (ws.map List.length).min?
  | .seq a b => do return (← a.leastLength?) + (← b.leastLength?)
  | .alt a b => do return min (← a.leastLength?) (← b.leastLength?)
  | .repeated min _ _ a => do return min * (← a.leastLength?)
  | .capture a => a.leastLength?

def hasCapture : Shape → Bool
  | .empty | .anchor _ | .literal _ | .chars _ | .words _ => false
  | .seq a b | .alt a b => a.hasCapture || b.hasCapture
  | .repeated _ _ _ a => a.hasCapture
  | .capture _ => true

def append : Shape → Shape → Shape
  | .empty, b => b
  | .seq a b, c => .seq a (b.append c)
  | a, b => join a b
where
  join : Shape → Shape → Shape
    | a, .empty => a
    | .literal s, .literal t => .literal (s ++ t)
    | .literal s, .seq (.literal t) c => .seq (.literal (s ++ t)) c
    | a, b => .seq a b

instance : Append Shape := ⟨Shape.append⟩

def repetition (min : Nat) (max : Option Nat) (isLazy : Bool) (a : Shape) : Shape :=
  let (min, max) :=
    if a.isZeroWidth then (Nat.min min 1, some (Nat.min (max.getD 1) 1)) else (min, max)
  if max = some 0 then .empty
  else if min = 1 ∧ max = some 1 then a
  else .repeated min max isLazy a

def parts : Shape → List Shape
  | .seq a b => a :: b.parts
  | a => [a]

def ofParts : List Shape → Shape
  | [] => .empty
  | [a] => a
  | a :: as => .seq a (ofParts as)

def branches : Shape → List Shape
  | .alt a b => a :: b.branches
  | .words ws => ws.map .literal
  | a => [a]

/--
The ranges of characters that the alternatives stand for, if each is a single character or if each
is a class.
-/
def charsOf? (as : List Shape) : Option (List (Nat × Nat)) :=
  (singles? <|> classes?).map fun rs =>
    rangesOf (fun n => rs.any fun r => r.1 ≤ n && n ≤ r.2) (rs.flatMap fun r => [r.1, r.2 + 1])
where
  singles? : Option (List (Nat × Nat)) :=
    as.mapM fun
      | .literal [c] => some (c.toNat, c.toNat)
      | _ => none
  classes? : Option (List (Nat × Nat)) :=
    List.flatten <$> as.mapM fun
      | .chars rs => some rs
      | _ => none

def oneOf (as : List Shape) : Shape :=
  match charsOf? as with
  | some rs => ofRanges rs
  | none =>
    let words? := as.mapM fun
      | .literal s => some s
      | _ => none
    match words? with
    | some ws => .words ws
    | none => altOf as
where
  altOf : List Shape → Shape
    | [] => .empty
    | [a] => a
    | a :: as => .alt a (altOf as)

def sharedParts : List Shape → List Shape
  | [] => []
  | a :: as => as.foldl (fun shared b => common shared (rowOf b)) (rowOf a)
where
  rowOf : Shape → List Shape
    | .seq a b => a :: b.parts
    | _ => []
  common : List Shape → List Shape → List Shape
    | a :: as, b :: bs => if a = b && !a.hasCapture then a :: common as bs else []
    | _, _ => []

/--
One of the alternatives. If all are rows, the parts with which they begin are taken out.
-/
def alternatives : List Shape → Shape
  | [a] => a
  | as =>
    let as := as.flatMap branches
    match sharedParts as with
    | [] => oneOf as
    | shared =>
      let rest := as.map fun a => ofParts (a.parts.drop shared.length)
      ofParts shared ++ oneOf (rest.flatMap branches)

def beginsAtStart : Shape → Bool
  | .anchor a => a = .atStart
  | .empty | .literal _ | .chars _ | .words _ => false
  | .seq a b => a.beginsAtStart || (a.isZeroWidth && b.beginsAtStart)
  | .alt a b => a.beginsAtStart && b.beginsAtStart
  | .repeated min _ _ a => min != 0 && a.beginsAtStart
  | .capture a => a.beginsAtStart

def endsAtEnd : Shape → Bool
  | .anchor a => a = .atEnd
  | .empty | .literal _ | .chars _ | .words _ => false
  | .seq a b => b.endsAtEnd || (b.isZeroWidth && a.endsAtEnd)
  | .alt a b => a.endsAtEnd && b.endsAtEnd
  | .repeated min _ _ a => min != 0 && a.endsAtEnd
  | .capture a => a.endsAtEnd

end Shape

namespace Regex

def shapes : Regex → List Shape
  | .empty => [.empty]
  | .one k => [.ofClass k]
  | .anchor a => [.anchor a]
  | .seq a b => [Shape.alternatives a.shapes ++ Shape.alternatives b.shapes]
  | .alt a b => a.shapes ++ b.shapes
  | .repeated min max isLazy a => [.repetition min max isLazy (.alternatives a.shapes)]
  | .group true a => [.capture (.alternatives a.shapes)]
  | .group false a => [.alternatives a.shapes]

def shape (r : Regex) : Shape := .alternatives r.shapes

end Regex

end TreeGrammar
