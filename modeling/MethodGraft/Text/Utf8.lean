/-!
# Text.Utf8 — bytes as text, whatever they are

`decodeLossy` reads UTF-8 and puts the replacement character `U+FFFD` for each longest start of a
character that does not go on as one, so that every byte string has a reading.
-/

namespace MethodGraft.Utf8

def encode (s : String) : List UInt8 := s.toUTF8.data.toList

def replacement : Char := Char.ofNat 0xFFFD

/-- How a first byte goes on: the bounds of the second byte, the number of bytes after that, and the
bits that the first byte gives. -/
def leadOf? (b : UInt8) : Option (UInt8 × UInt8 × Nat × Nat) :=
  let n := b.toNat
  if 0xC2 ≤ n ∧ n ≤ 0xDF then some (0x80, 0xBF, 0, n - 0xC0)
  else if n = 0xE0 then some (0xA0, 0xBF, 1, 0)
  else if n = 0xED then some (0x80, 0x9F, 1, 0xD)
  else if 0xE1 ≤ n ∧ n ≤ 0xEF then some (0x80, 0xBF, 1, n - 0xE0)
  else if n = 0xF0 then some (0x90, 0xBF, 2, 0)
  else if 0xF1 ≤ n ∧ n ≤ 0xF3 then some (0x80, 0xBF, 2, n - 0xF0)
  else if n = 0xF4 then some (0x80, 0x8F, 2, 4)
  else none

/-- Where a reader stands: between characters, or inside one that lacks some bytes. -/
inductive Progress where
  | between
  /-- The next byte lies within the bounds, and `more` bytes follow it. -/
  | inside (low high : UInt8) (more value : Nat)

/-- Reads one byte between characters: the characters it completes, and where the reader stands. -/
def first (b : UInt8) : List Char × Progress :=
  if b < 0x80 then ([Char.ofNat b.toNat], .between)
  else match leadOf? b with
    | some (low, high, more, value) => ([], .inside low high more value)
    | none => ([replacement], .between)

def next (p : Progress) (b : UInt8) : List Char × Progress :=
  match p with
  | .between => first b
  | .inside low high more value =>
    if low ≤ b ∧ b ≤ high then
      let value := value * 64 + (b.toNat - 0x80)
      if more = 0 then ([Char.ofNat value], .between)
      else ([], .inside 0x80 0xBF (more - 1) value)
    else
      let (cs, p) := first b
      (replacement :: cs, p)

/-- Reads bytes from a state on; `read` holds the characters before, the last one first. -/
def decodeFrom (p : Progress) (read : List Char) : List UInt8 → List Char
  | [] => match p with
    | .between => read.reverse
    | .inside .. => (replacement :: read).reverse
  | b :: rest =>
    let (cs, p) := next p b
    decodeFrom p (cs.reverse ++ read) rest

def decodeLossy (bytes : List UInt8) : String := String.ofList (decodeFrom .between [] bytes)

end MethodGraft.Utf8
