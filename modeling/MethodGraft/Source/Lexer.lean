import MethodGraft.Source.Error
import MethodGraft.Text.Letter

/-!
# Source.Lexer — text as tokens

Gaps of blanks and comments separate tokens.  Of the forms a token can have, the first one that fits
wins: a number, a string, a character, a word, a symbol; among numbers a floating point literal,
then a hexadecimal, an octal and a decimal one.  A line comment ends before its line feed; one whose
line ends in a lone carriage return is no comment, so its slashes are symbols.
-/

namespace MethodGraft.Source

/-! ## 1. Gaps -/

def isBlank (c : Char) : Bool := c == ' ' || c == '\t' || c == '\r' || c == '\n'

/-- The text from the first `*/` in `s` on, without it, and the line feeds before it. -/
def closeComment (lineFeeds : Nat) : List Char → Option (Nat × List Char)
  | [] => none
  | '*' :: '/' :: rest => some (lineFeeds, rest)
  | c :: rest => closeComment (if c = '\n' then lineFeeds + 1 else lineFeeds) rest

def endsLine (c : Char) : Bool := c == '\r' || c == '\n'

/-- The text from the end of the line on.  A carriage return ends a line only before a line feed. -/
def closeLine (s : List Char) : Option (List Char) :=
  match s.dropWhile fun c => !endsLine c with
  | '\r' :: '\n' :: rest => some ('\r' :: '\n' :: rest)
  -- such a comment is not one at all, and its slashes are left to be read as operators
  | '\r' :: _ => none
  | rest => some rest

/-- One blank or one comment at the front of `s`: its line feeds and the text after it. -/
def readGap : List Char → Option (Nat × List Char)
  | [] => none
  | c :: rest =>
    if isBlank c then some (if c = '\n' then 1 else 0, rest)
    else match c, rest with
      -- the line feed is left for the next gap, which counts it
      | '/', '/' :: rest => (closeLine rest).map fun rest => (0, rest)
      | '/', '*' :: rest => closeComment 0 rest
      | _, _ => none

/-- Skips blanks and comments; `fuel` is at least the length of `s`.  Returns the line and the text
reached. -/
def skipGaps : (fuel line : Nat) → (s : List Char) → Nat × List Char
  | 0, line, s => (line, s)
  | fuel + 1, line, s =>
    match readGap s with
    | some (lineFeeds, rest) => skipGaps fuel (line + lineFeeds) rest
    | none => (line, s)

/-! ## 2. Digits -/

def digitValue? (base : Nat) (c : Char) : Option Nat :=
  let n :=
    if '0' ≤ c ∧ c ≤ '9' then c.toNat - '0'.toNat
    else if 'a' ≤ c ∧ c ≤ 'f' then c.toNat - 'a'.toNat + 10
    else if 'A' ≤ c ∧ c ≤ 'F' then c.toNat - 'A'.toNat + 10
    else base
  if n < base then some n else none

def isDigitOf (base : Nat) (c : Char) : Bool := (digitValue? base c).isSome

def isDecimal (c : Char) : Bool := isDigitOf 10 c

/-- Appends the digits of `s` to a value.  Underscores count for nothing; any other character makes
the text no number. -/
def valueOnto (base : Nat) (value : Nat) : List Char → Option Nat
  | [] => some value
  | '_' :: rest => valueOnto base value rest
  | c :: rest =>
    match digitValue? base c with
    | some d => valueOnto base (value * base + d) rest
    | none => none

def continuesDigits (c : Char) : Bool := isDecimal c || c == '_'

/-- Digits at the front of `s`, underscores allowed after the first, and the text after them. -/
def readDigits : List Char → Option (List Char × List Char)
  | [] => none
  | c :: rest =>
    if isDecimal c then some (c :: rest.takeWhile continuesDigits, rest.dropWhile continuesDigits)
    else none

def spanBefore (s rest : List Char) : List Char := s.take (s.length - rest.length)

/-! ## 3. Numbers -/

def dropLongSuffix : List Char → Bool × List Char
  | 'l' :: rest => (true, rest)
  | 'L' :: rest => (true, rest)
  | s => (false, s)

def isFloatSuffix (c : Char) : Bool := c == 'f' || c == 'F' || c == 'd' || c == 'D'

def dropFloatSuffix : List Char → List Char
  | c :: rest => if isFloatSuffix c then rest else c :: rest
  | [] => []

/-- The text after an exponent, if `s` starts with one.  Exponents have no sign. -/
def dropExponent? : List Char → Option (List Char)
  | c :: rest => if c = 'e' ∨ c = 'E' then (readDigits rest).map Prod.snd else none
  | [] => none

def dropDigits (s : List Char) : List Char :=
  match readDigits s with
  | some (_, rest) => rest
  | none => s

/-- What makes digits a floating point literal: a fraction, an exponent, or a suffix. -/
def dropFloatTail? : List Char → Option (List Char)
  | '.' :: rest =>
    let rest := dropDigits rest
    some (dropFloatSuffix ((dropExponent? rest).getD rest))
  | s =>
    match dropExponent? s with
    | some rest => some (dropFloatSuffix rest)
    | none => match s with
      | c :: rest => if isFloatSuffix c then some rest else none
      | [] => none

def readFloat (s : List Char) : Option (Token × List Char) := do
  let (_, rest) ← readDigits s
  -- without such a tail the digits are an integer, which the other readers take
  let rest ← dropFloatTail? rest
  return (.float (String.ofList (spanBefore s rest)), rest)

/-- Hexadecimal and octal literals give the bits of the value: 32 of them, or 64 for a long. -/
def ofBits? (bits : Nat) (long : Bool) : Option Token :=
  if long then
    -- the pattern is read as it is, so that the upper half gives negative values
    if bits < UInt64.size then some (.long (UInt64.ofNat bits).toInt64) else none
  else
    if bits < UInt32.size then some (.int (UInt32.ofNat bits).toInt32.toInt) else none

def readHex : List Char → Option (Token × List Char)
  | '0' :: x :: rest =>
    if x = 'x' ∨ x = 'X' then do
      let digits := rest.takeWhile (isDigitOf 16)
      if digits.isEmpty then none
      else
        let bits ← valueOnto 16 0 digits
        let (long, rest) := dropLongSuffix (rest.dropWhile (isDigitOf 16))
        return (← ofBits? bits long, rest)
    else none
  | _ => none

/-- An octal literal: a zero with digits after it. -/
def readOctal : List Char → Option (Token × List Char)
  | '0' :: rest => do
    let digits := rest.takeWhile continuesDigits
    if digits.isEmpty then none
    else
      let bits ← valueOnto 8 0 digits
      let (long, rest) := dropLongSuffix (rest.dropWhile continuesDigits)
      return (← ofBits? bits long, rest)
  | _ => none

/-- The token of a decimal value.  The bound of each width is one more than its greatest value,
since a minus may precede the literal. -/
def ofDecimal? (value : Nat) (long : Bool) : Option Token :=
  if long then
    if value ≤ UInt64.size / 2 then some (.long (UInt64.ofNat value).toInt64) else none
  else
    if value ≤ UInt32.size / 2 then some (.int value) else none

def readDecimal (s : List Char) : Option (Token × List Char) := do
  let (digits, rest) ← readDigits s
  match digits with
  -- an octal literal, unless it has a digit of another base
  | '0' :: _ :: _ => none
  | _ =>
    let value ← valueOnto 10 0 digits
    let (long, rest) := dropLongSuffix rest
    return (← ofDecimal? value long, rest)

def readNumber (s : List Char) : Option (Token × List Char) :=
  -- floats come first: the digits before their tail would be read as an integer
  readFloat s <|> readHex s <|> readOctal s <|> readDecimal s

/-! ## 4. Strings and characters -/

def charOf? (n : Nat) : Option Char := if n.isValidChar then some (Char.ofNat n) else none

/-- An escape by code unit: further `u`s, four hexadecimal digits. -/
def readUnitEscape : List Char → Option (Char × List Char)
  | 'u' :: rest => readUnitEscape rest
  | a :: b :: c :: d :: rest =>
    if [a, b, c, d].all (isDigitOf 16) then do
      let n ← valueOnto 16 0 [a, b, c, d]
      return (← charOf? n, rest)
    else none
  | _ => none

/-- An octal escape: three digits if the first is at most 3, else one or two. -/
def readOctalEscape (s : List Char) : Option (Char × List Char) := do
  let digits := s.takeWhile (isDigitOf 8)
  let length := match digits with
    -- three digits that start with 4 or more give no byte
    | a :: _ :: _ :: _ => if a ≤ '3' then 3 else 2
    | digits => digits.length
  if length = 0 then none
  else
    let n ← valueOnto 8 0 (digits.take length)
    return (← charOf? n, s.drop length)

def readEscape : List Char → Option (Char × List Char)
  | [] => none
  | c :: rest =>
    match c with
    | 'n' => some ('\n', rest)
    | 't' => some ('\t', rest)
    | 'r' => some ('\r', rest)
    | 'b' => some (Char.ofNat 8, rest)
    | 'f' => some (Char.ofNat 12, rest)
    | '\\' => some ('\\', rest)
    | '\'' => some ('\'', rest)
    | '"' => some ('"', rest)
    | 'u' => readUnitEscape rest
    | c => readOctalEscape (c :: rest)

/-- The rest of a string literal.  `fuel` is at least the length of `s`, and `read` holds the
characters before, the last one first. -/
def readStringRest : (fuel : Nat) → (read s : List Char) → Option (List Char × List Char)
  | 0, _, _ => none
  | _ + 1, _, [] => none
  | fuel + 1, read, c :: rest =>
    if c = '"' then some (read.reverse, rest)
    -- a line feed ends no string, but escapes may stand for one
    else if c = '\n' then none
    else if c = '\\' then
      match readEscape rest with
      | some (e, rest) => readStringRest fuel (e :: read) rest
      | none => none
    else readStringRest fuel (c :: read) rest

/-- A string literal; `fuel` is at least the length of the text. -/
def readString (fuel : Nat) : List Char → Option (Token × List Char)
  | '"' :: rest =>
    (readStringRest fuel [] rest).map fun (text, rest) => (.str (String.ofList text), rest)
  | _ => none

def readCharBody : List Char → Option (Char × List Char)
  | [] => none
  | c :: rest =>
    if c = '\\' then readEscape rest
    else if c = '\'' ∨ c = '\n' then none
    else some (c, rest)

def readChar : List Char → Option (Token × List Char)
  | '\'' :: rest =>
    match readCharBody rest with
    | some (c, '\'' :: rest) =>
      -- characters beyond take two units and fit no `char`
      if c.toNat < 0x10000 then some (.char (UInt16.ofNat c.toNat), rest) else none
    | _ => none
  | _ => none

/-! ## 5. Words and tokens -/

def startsName (c : Char) : Bool := Letter.isLetter c || c == '_' || c == '$'

def continuesName (c : Char) : Bool := Letter.isLetterOrNumeral c || c == '_' || c == '$'

def readWord : List Char → Option (Token × List Char)
  | [] => none
  | c :: rest =>
    if startsName c then
      let word := String.ofList (c :: rest.takeWhile continuesName)
      let token := match Keyword.ofText? word with
        | some k => .keyword k
        | none => .ident word
      some (token, rest.dropWhile continuesName)
    else none

def readSymbol (s : List Char) : Option (Token × List Char) :=
  (Symbol.read s).map fun (x, rest) => (.symbol x, rest)

/-- The token at the front of `s`; `fuel` is at least the length of the text. -/
def readToken (fuel : Nat) (s : List Char) : Option (Token × List Char) :=
  readNumber s <|> readString fuel s <|> readChar s <|> readWord s <|> readSymbol s

def tokenFault : List Char → SyntaxFault
  | '"' :: _ => .unclosedString
  | '\'' :: _ => .malformedChar
  -- a digit starts a number; all that can be wrong with it is its size
  | c :: _ => if isDecimal c then .numberTooLarge else .illegalCharacter c
  | [] => .endOfInput

/-- The tokens of `s`, which starts on the given line.  `fuel` is at least the length of `s`, so no
text is left when it runs out, and `found` holds the tokens before, the last one first. -/
def tokenizeFrom : (fuel line : Nat) → (found : List Lexeme) → (s : List Char) →
    Except Error (List Lexeme)
  | 0, _, found, _ => .ok found.reverse
  | fuel + 1, line, found, s =>
    match skipGaps (fuel + 1) line s with
    | (_, []) => .ok found.reverse
    -- a comment that is closed has been skipped by now
    | (line, '/' :: '*' :: _) => .error (.syntaxFault line .unclosedComment)
    | (line, s) =>
      match readToken (fuel + 1) s with
      | some (token, rest) => tokenizeFrom fuel line (⟨token, line⟩ :: found) rest
      | none => .error (.syntaxFault line (tokenFault s))

def tokenize (source : String) : Except Error (List Lexeme) :=
  let s := source.toList
  tokenizeFrom s.length 1 [] s

end MethodGraft.Source
