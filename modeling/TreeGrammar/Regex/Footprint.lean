import TreeGrammar.Regex.Shape
import TreeGrammar.Text.Utf8

/-!
This module contains the limits on regular expressions: how deep they may be nested, and how much
memory their automata may take. A search runs an automaton over the bytes of the text, and another
one backward; both have to fit.
-/

namespace TreeGrammar

inductive Direction where
  | forward
  | backward
deriving DecidableEq

namespace Footprint

def state : Nat := 32

def transition : Nat := 8

def link : Nat := 4

def heads (ss : List (List Text.Utf8.ByteRange)) : List Text.Utf8.ByteRange :=
  (ss.filterMap List.head?).eraseDups

/--
What can follow after every beginning of the sequences, as far as something follows. These are the
states of the least tree for the sequences, each given by what it still reads.
-/
def rests : Nat → List (List Text.Utf8.ByteRange) → List (List (List Text.Utf8.ByteRange))
  | 0, _ => []
  | n + 1, ss =>
    if ss.all List.isEmpty then
      []
    else
      ss :: (heads ss).flatMap fun h =>
        rests n (ss.filterMap fun s => if s.head? = some h then s.tail? else none)

def ofRanges (d : Direction) (rs : List (Nat × Nat)) : Nat :=
  if rs.all (fun r => r.2 < 0x80) then
    2 * state + transition * rs.length
  else
    let ss := rs.flatMap fun r => Text.Utf8.sequences r.1 r.2
    match d with
    | .forward =>
      -- states that read the same are shared
      let shared := (rests 4 ss).eraseDups
      state * (shared.length + 1) + transition * (shared.flatMap heads).length
    | .backward =>
      -- one state for each range of bytes, shared by the sequences with the same beginning
      let beginnings := ss.flatMap fun s => (List.range s.length).map fun i => s.take (i + 1)
      2 * state + link * ss.length + state * beginnings.eraseDups.length

/--
What is left to read of the words at a common beginning, cut wherever a word ends there. Words that
end before the first one that goes on count as one.
-/
def chunks (ws : List (List UInt8)) : List (List (List UInt8)) :=
  let ended := ws.takeWhile List.isEmpty
  let ws := ws.dropWhile List.isEmpty
  let chunks := ws.foldr add [[]]
  if ended.isEmpty then chunks else [] :: chunks
where
  add (w : List UInt8) : List (List (List UInt8)) → List (List (List UInt8))
    | [] => []
    | chunk :: chunks => if w.isEmpty then [] :: chunk :: chunks else (w :: chunk) :: chunks

def ofTree : Nat → List (List UInt8) → Nat
  | 0, _ => 0
  | n + 1, ws =>
    if ws.all List.isEmpty then
      0
    else
      let chunks := chunks ws
      let sizes := chunks.map fun chunk =>
        let heads := (chunk.filterMap List.head?).eraseDups
        let rests := heads.map fun h =>
          ofTree n (chunk.filterMap fun w => if w.head? = some h then w.tail? else none)
        match heads.length with
        | 0 => 0
        | 1 => state + link + rests.sum
        | m => state + link + transition * m + rests.sum
      state + link * (chunks.length - 1) + sizes.sum

def ofWords (d : Direction) (ws : List (List Char)) : Nat :=
  let encoded := ws.map fun w =>
    let bytes := w.flatMap String.utf8EncodeChar
    match d with
    | .forward => bytes
    | .backward => bytes.reverse
  state + ofTree ((encoded.map List.length).max?.getD 0) encoded

def ofShape (d : Direction) : Shape → Nat
  | .empty | .anchor _ => state
  | .literal s => state * (s.map Char.utf8Size).sum
  | .chars rs => ofRanges d rs
  | .words ws => ofWords d ws
  | .seq a b => ofShape d a + ofShape d b
  | .alt a b =>
    ofShape d a + link + match b with
      | .alt .. => ofShape d b
      -- the last one: the fork and the place where all meet come with it
      | _ => ofShape d b + link + 2 * state
  | .repeated min max _ a =>
    let once := ofShape d a
    let fork := state + 2 * link
    match min, max with
    | 0, some 1 => once + fork + state
    | 0, none =>
      -- what can match the empty text gets a second way around it
      if a.leastLength?.any (· != 0) then once + fork else once + 2 * fork + state
    | min, none => min * once + fork
    | min, some max =>
      if min = max then
        min * once
      else
        (if min = 0 then state else min * once) + (max - min) * (once + fork) + state
  | .capture a =>
    -- only the way forward keeps what is captured
    ofShape d a + match d with
      | .forward => 2 * state
      | .backward => 0

end Footprint

/--
The bytes that the automaton for a shape takes as a whole. If a match can begin anywhere, it has a
loop before the shape; it ends with a state that accepts; and the match as a whole is captured.
-/
def Shape.footprint (d : Direction) (a : Shape) : Nat :=
  open Footprint in
  let isAnchored := match d with
    | .forward => a.beginsAtStart
    | .backward => a.endsAtEnd
  let loop := if isAnchored then state else 3 * state + transition + 2 * link
  loop + ofShape d (.capture a) + state

namespace Regex

def maxDepth : Nat := 250

def maxFootprint : Nat := 10 * 1024 * 1024

def fits (r : Regex) : Bool :=
  r.depth ≤ maxDepth &&
    let shape := r.shape
    shape.footprint .forward ≤ maxFootprint && shape.footprint .backward ≤ maxFootprint

end Regex

end TreeGrammar
