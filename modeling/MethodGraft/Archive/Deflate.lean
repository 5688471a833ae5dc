/-!
# Archive.Deflate — compressed data

`inflate?` reads the deflate format.  A stream that ends before its last block does, or breaks the
rules, yields nothing; what follows the last block is ignored.  `deflate` writes the format without
compressing, in stored blocks.
-/

namespace MethodGraft.Archive.Deflate

/-! ## 1. Bits -/

structure Bits where
  bits : List Bool
  bytes : List UInt8

def bitsOf (b : UInt8) : List Bool :=
  [b &&& 1 != 0, b &&& 2 != 0, b &&& 4 != 0, b &&& 8 != 0, b &&& 16 != 0, b &&& 32 != 0,
    b &&& 64 != 0, b &&& 128 != 0]

def Bits.next? : Bits → Option (Bool × Bits)
  | ⟨b :: bits, bytes⟩ => some (b, ⟨bits, bytes⟩)
  | ⟨[], byte :: bytes⟩ =>
    match bitsOf byte with
    | b :: bits => some (b, ⟨bits, bytes⟩)
    | [] => none
  | ⟨[], []⟩ => none

def Bits.number? : (n : Nat) → Bits → Option (Nat × Bits)
  | 0, input => some (0, input)
  | n + 1, input => do
    let (b, input) ← input.next?
    let (high, input) ← Bits.number? n input
    -- the first bit read is the lowest
    return (2 * high + b.toNat, input)

/-! ## 2. Codes -/

/-- A canonical code: how many words there are of each length from 1 on, and the symbols in the
order of their words. -/
structure Code where
  counts : List Nat
  symbols : Array Nat

def maxLength : Nat := 15

def symbolsOfLength (lengths : List Nat) (n : Nat) : List Nat :=
  lengths.zipIdx.filterMap fun (l, i) => if l = n then some i else none

/-- The words of the next length that no shorter word takes, after all lengths; `none` if there are
too few of them. -/
def spareWords (spare : Nat) : List Nat → Option Nat
  | [] => some spare
  -- each word that no shorter one takes gives room for two of the next length
  | count :: counts => if 2 * spare < count then none else spareWords (2 * spare - count) counts

/-- The code in which symbol `i` has a word of length `lengths[i]`, or none for length 0.  A code of
two or more words uses up all of them. -/
def Code.ofLengths? (lengths : List Nat) : Option Code :=
  let groups := (List.range maxLength).map fun n => symbolsOfLength lengths (n + 1)
  let counts := groups.map List.length
  let symbols := groups.flatten.toArray
  match spareWords 1 counts with
  | none => none
  -- a single word may leave half of its length unused
  | some spare => if spare ≠ 0 ∧ 1 < symbols.size then none else some ⟨counts, symbols⟩

/-- Reads a word bit by bit.  At each length, `word` is what has been read, `first` the first word
of the length, and `index` the place of its symbol. -/
def Code.readFrom? (c : Code) (word first index : Nat) :
    (counts : List Nat) → Bits → Option (Nat × Bits)
  | [], _ => none
  | count :: counts, input => do
    let (b, input) ← input.next?
    let word := word + b.toNat
    -- words of one length follow each other, so the place of the symbol is a difference
    if word < first + count then return (← c.symbols[index + (word - first)]?, input)
    -- the first word of the next length comes behind all words of this one
    else c.readFrom? (2 * word) (2 * (first + count)) (index + count) counts input

def Code.read? (c : Code) (input : Bits) : Option (Nat × Bits) :=
  c.readFrom? 0 0 0 c.counts input

/-! ## 3. Lengths and distances -/

def lengthTable : Array (Nat × Nat) := #[
  (3, 0), (4, 0), (5, 0), (6, 0), (7, 0), (8, 0), (9, 0), (10, 0), (11, 1), (13, 1), (15, 1),
  (17, 1), (19, 2), (23, 2), (27, 2), (31, 2), (35, 3), (43, 3), (51, 3), (59, 3), (67, 4), (83, 4),
  (99, 4), (115, 4), (131, 5), (163, 5), (195, 5), (227, 5), (258, 0)]

def distanceTable : Array (Nat × Nat) := #[
  (1, 0), (2, 0), (3, 0), (4, 0), (5, 1), (7, 1), (9, 2), (13, 2), (17, 3), (25, 3), (33, 4),
  (49, 4), (65, 5), (97, 5), (129, 6), (193, 6), (257, 7), (385, 7), (513, 8), (769, 8), (1025, 9),
  (1537, 9), (2049, 10), (3073, 10), (4097, 11), (6145, 11), (8193, 12), (12289, 12), (16385, 13),
  (24577, 13)]

def readTable? (table : Array (Nat × Nat)) (i : Nat) (input : Bits) : Option (Nat × Bits) := do
  let (base, extra) ← table[i]?
  let (n, input) ← Bits.number? extra input
  return (base + n, input)

/-- The byte that stands `distance` before the end.  Before the first byte there are zeros. -/
def byteBack (distance : Nat) (out : Array UInt8) : UInt8 :=
  -- a distance beyond the start is no fault for the reader that is modelled
  if distance ≤ out.size then out.getD (out.size - distance) 0 else 0

/-- Repeats `n` bytes that stand `distance` before the end; they may overlap what they make. -/
def repeatBytes (distance : Nat) : (n : Nat) → Array UInt8 → Array UInt8
  | 0, out => out
  -- what has just been repeated may be repeated again
  | n + 1, out => repeatBytes distance n (out.push (byteBack distance out))

/-! ## 4. Blocks -/

structure BlockCodes where
  literals : Code
  distances : Code

/-- Reads a match whose length symbol is `257 + i`: how far back it is, and its length. -/
def readMatch? (codes : BlockCodes) (i : Nat) (input : Bits) : Option ((Nat × Nat) × Bits) := do
  let (length, input) ← readTable? lengthTable i input
  let (d, input) ← codes.distances.read? input
  let (distance, input) ← readTable? distanceTable d input
  return ((distance, length), input)

/-- Reads symbols up to the end of a block and adds what they stand for to `out`; `fuel` is at least
the number of bits left. -/
def readSymbols? (codes : BlockCodes) : (fuel : Nat) → Bits → (out : Array UInt8) →
    Option (Array UInt8 × Bits)
  | 0, _, _ => none
  | fuel + 1, input, out => do
    let (symbol, input) ← codes.literals.read? input
    if symbol < 256 then readSymbols? codes fuel input (out.push (UInt8.ofNat symbol))
    else if symbol = 256 then return (out, input)
    else
      let ((distance, length), input) ← readMatch? codes (symbol - 257) input
      readSymbols? codes fuel input (repeatBytes distance length out)

def fixedCodes? : Option BlockCodes := do
  let literals ← Code.ofLengths? (List.replicate 144 8 ++ List.replicate 112 9 ++
    List.replicate 24 7 ++ List.replicate 8 8)
  let distances ← Code.ofLengths? (List.replicate 32 5)
  return ⟨literals, distances⟩

def lengthOrder : List Nat := [16, 17, 18, 0, 8, 7, 9, 6, 10, 5, 11, 4, 12, 3, 13, 2, 14, 1, 15]

def readTriples? : (n : Nat) → Bits → Option (List Nat × Bits)
  | 0, input => some ([], input)
  | n + 1, input => do
    let (a, input) ← Bits.number? 3 input
    let (rest, input) ← readTriples? n input
    return (a :: rest, input)

/-- A run of equal lengths: the length, how often at least, and the bits of the number added. -/
def lengthRun? (previous : Option Nat) (symbol : Nat) : Option (Nat × Nat × Nat) :=
  if symbol < 16 then some (symbol, 1, 0)
  -- there is nothing to repeat before the first length
  else if symbol = 16 then previous.map fun l => (l, 3, 2)
  else if symbol = 17 then some (0, 3, 3)
  else if symbol = 18 then some (0, 11, 7)
  else none

/-- Reads `total` lengths of words; `lengths` holds those already read, the last one first, and
`fuel` is at least the number of lengths missing. -/
def readLengths? (c : Code) (total : Nat) : (fuel : Nat) → (lengths : List Nat) → Bits →
    Option (List Nat × Bits)
  | 0, lengths, input => some (lengths.reverse, input)
  | fuel + 1, lengths, input =>
    -- a run of the last length may stop at the total only, not beyond
    if lengths.length = total then some (lengths.reverse, input)
    else do
      let (symbol, input) ← c.read? input
      let (l, least, extra) ← lengthRun? lengths.head? symbol
      let (n, input) ← Bits.number? extra input
      let lengths := List.replicate (least + n) l ++ lengths
      if lengths.length ≤ total then readLengths? c total fuel lengths input else none

def readCodes? (input : Bits) : Option (BlockCodes × Bits) := do
  let (literalCount, input) ← Bits.number? 5 input
  let (distanceCount, input) ← Bits.number? 5 input
  let (tripleCount, input) ← Bits.number? 4 input
  let (triples, input) ← readTriples? (tripleCount + 4) input
  -- lengths that are not given are zero
  let given := lengthOrder.zip triples
  let c ← Code.ofLengths? ((List.range 19).map fun i => (given.lookup i).getD 0)
  let literalCount := literalCount + 257
  let total := literalCount + distanceCount + 1
  -- there are no symbols above these
  if 286 < literalCount ∨ 30 < distanceCount + 1 then none
  else
    -- one table holds the lengths of both codes, so that a run may lead from one into the other
    let (lengths, input) ← readLengths? c total total [] input
    let literals ← Code.ofLengths? (lengths.take literalCount)
    let distances ← Code.ofLengths? (lengths.drop literalCount)
    return (⟨literals, distances⟩, input)

/-- Reads a stored block, which starts at the next byte, and adds its bytes to `out`. -/
def readStored? (input : Bits) (out : Array UInt8) : Option (Array UInt8 × Bits) :=
  match input.bytes with
  | a :: b :: c :: d :: bytes =>
    let length := a.toNat + 256 * b.toNat
    -- the complement of the length follows it; bits left of the byte before are dropped
    if c.toNat + 256 * d.toNat = 65535 - length ∧ length ≤ bytes.length then
      some (out ++ (bytes.take length).toArray, ⟨[], bytes.drop length⟩)
    else none
  | _ => none

/-- Reads a block after its header; `fuel` is at least the number of bits left. -/
def readBlock? (fuel kind : Nat) (input : Bits) (out : Array UInt8) :
    Option (Array UInt8 × Bits) := do
  if kind = 0 then readStored? input out
  else if kind = 1 then readSymbols? (← fixedCodes?) fuel input out
  else if kind = 2 then
    let (codes, input) ← readCodes? input
    readSymbols? codes fuel input out
  else none

/-- Reads blocks up to the last one.  `bits` is at least the number of bits left, and `fuel` at
least the number of blocks. -/
def readBlocks? (bits : Nat) : (fuel : Nat) → Bits → (out : Array UInt8) → Option (Array UInt8)
  | 0, _, _ => none
  | fuel + 1, input, out => do
    let (header, input) ← Bits.number? 3 input
    let (out, input) ← readBlock? bits (header / 2) input out
    if header % 2 = 1 then return out else readBlocks? bits fuel input out

/-- The data that a stream holds.  One without any bytes holds no data. -/
def inflate? (input : List UInt8) : Option (List UInt8) :=
  let bits := 8 * input.length
  if input.isEmpty then some []
  else (readBlocks? bits bits ⟨[], input⟩ #[]).map Array.toList

/-! ## 5. Writing -/

def storedBlock (isLast : Bool) (data : List UInt8) : List UInt8 :=
  let length := UInt16.ofNat data.length
  let inverse := length ^^^ 0xFFFF
  [if isLast then 1 else 0, length.toUInt8, (length >>> 8).toUInt8, inverse.toUInt8,
    (inverse >>> 8).toUInt8] ++ data

/-- The bytes of data in stored blocks; `fuel` is at least the length of the data. -/
def storedBlocks : (fuel : Nat) → List UInt8 → List UInt8
  | 0, data => storedBlock true data
  | fuel + 1, data =>
    match data.drop 65535 with
    | [] => storedBlock true data
    | rest => storedBlock false (data.take 65535) ++ storedBlocks fuel rest

def deflate (data : List UInt8) : List UInt8 := storedBlocks data.length data

end MethodGraft.Archive.Deflate
