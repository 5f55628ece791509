/-!
This module contains the encoding of ranges of code points as sequences of ranges of bytes.
-/

namespace TreeGrammar.Text.Utf8

abbrev ByteRange := Nat × Nat

/--
The sequences for the numbers from `lo` to `hi`, each with one byte from `lead` on and then a number
of bytes with six bits each. They are as few as possible and in increasing order.
-/
def digits (lead : Nat) : Nat → Nat → Nat → List (List ByteRange)
  | 0, lo, hi => [[(lead + lo, lead + hi)]]
  | n + 1, lo, hi =>
    let unit := 64 ^ (n + 1)
    let (first, last) := (lo / unit, hi / unit)
    let beginning (b : Nat) (rest : List (List ByteRange)) := rest.map ((lead + b, lead + b) :: ·)
    if first = last then
      beginning first (digits 0x80 n (lo % unit) (hi % unit))
    else
      let low :=
        if lo % unit = 0 then [] else beginning first (digits 0x80 n (lo % unit) (unit - 1))
      let high :=
        if hi % unit = unit - 1 then [] else beginning last (digits 0x80 n 0 (hi % unit))
      -- the first bytes after which every sequence is possible
      let least := if low.isEmpty then first else first + 1
      let beyond := if high.isEmpty then last + 1 else last
      let whole :=
        if least < beyond then
          [(lead + least, lead + beyond - 1) :: List.replicate (n + 1) (0x80, 0xbf)]
        else
          []
      low ++ whole ++ high

def sequences (lo hi : Nat) : List (List ByteRange) :=
  blocks.flatMap fun (lead, n, min, max) =>
    let (lo, hi) := (Nat.max lo min, Nat.min hi max)
    if lo ≤ hi then digits lead n lo hi else []
where
  blocks : List (Nat × Nat × Nat × Nat) :=
    [(0, 0, 0, 0x7f), (0xc0, 1, 0x80, 0x7ff), (0xe0, 2, 0x800, 0xd7ff), (0xe0, 2, 0xe000, 0xffff),
      (0xf0, 3, 0x10000, 0x10ffff)]

end TreeGrammar.Text.Utf8
