/-!
# Text.ModifiedUtf8 — the string form of class files

Class files store text in a variant of UTF-8 that never holds a zero byte: `U+0000` takes the two
bytes `C0 80`, and a character above `U+FFFF` is written as its two UTF-16 surrogates, three bytes
each.  `encode` writes text this way.  `decode` accepts exactly the byte strings that `encode`
produces, so a byte string it refuses (an unpaired surrogate, an overlong form) has no text.
-/

namespace MethodGraft.ModifiedUtf8

/-! ## Writing -/

def continuation (n : Nat) : UInt8 := UInt8.ofNat (0x80 + n % 64)

def encodeUnit (n : Nat) : List UInt8 :=
  [UInt8.ofNat (0xE0 + n / 4096), continuation (n / 64), continuation n]

def encodeChar (c : Char) : List UInt8 :=
  let n := c.toNat
  if n = 0 then [0xC0, 0x80]
  else if n < 0x80 then [UInt8.ofNat n]
  else if n < 0x800 then [UInt8.ofNat (0xC0 + n / 64), continuation n]
  else if n < 0x10000 then encodeUnit n
  else
    let m := n - 0x10000
    encodeUnit (0xD800 + m / 1024) ++ encodeUnit (0xDC00 + m % 1024)

def encode (s : String) : List UInt8 :=
  s.toList.flatMap encodeChar

/-! ## Reading -/

def payload? (b : UInt8) : Option Nat :=
  if 0x80 ≤ b ∧ b < 0xC0 then some (b.toNat - 0x80) else none

def joinSurrogates (high low : Nat) : Char :=
  Char.ofNat (0x10000 + (high - 0xD800) * 1024 + (low - 0xDC00))

/-- The unit of a three-byte form; overlong forms have none. -/
def unit? (b₀ b₁ b₂ : UInt8) : Option Nat :=
  match payload? b₁, payload? b₂ with
  | some p, some q =>
    let n := (b₀.toNat - 0xE0) * 4096 + p * 64 + q
    if 0xE0 ≤ b₀ ∧ b₀ < 0xF0 ∧ 0x800 ≤ n then some n else none
  | _, _ => none

/-- The character of a two-byte form: `C0 80`, or a code point from `U+0080` to `U+07FF`. -/
def pair? (b₀ b₁ : UInt8) : Option Char :=
  match payload? b₁ with
  | some p =>
    let n := (b₀.toNat - 0xC0) * 64 + p
    if 0xC0 ≤ b₀ ∧ b₀ < 0xE0 ∧ (n = 0 ∨ 0x80 ≤ n) then some (Char.ofNat n) else none
  | none => none

/-- Reads characters until the bytes end; `read` holds those already read, the last one first. -/
def decodeFrom (read : List Char) : List UInt8 → Option (List Char)
  | [] => some read.reverse
  | b₀ :: rest₀ =>
    if b₀ < 0x80 then
      if b₀ = 0 then none else decodeFrom (Char.ofNat b₀.toNat :: read) rest₀
    else match rest₀ with
      | [] => none
      | b₁ :: rest₁ =>
        match pair? b₀ b₁ with
        | some c => decodeFrom (c :: read) rest₁
        | none => match rest₁ with
          | [] => none
          | b₂ :: rest₂ =>
            match unit? b₀ b₁ b₂ with
            | none => none
            | some n =>
              if n < 0xD800 ∨ 0xE000 ≤ n then decodeFrom (Char.ofNat n :: read) rest₂
              else if 0xDC00 ≤ n then none
              else match rest₂ with
                | b₃ :: b₄ :: b₅ :: rest₅ =>
                  match unit? b₃ b₄ b₅ with
                  | some m =>
                    if 0xDC00 ≤ m ∧ m < 0xE000 then decodeFrom (joinSurrogates n m :: read) rest₅
                    else none
                  | none => none
                | _ => none

def decode (bytes : List UInt8) : Option String :=
  (decodeFrom [] bytes).map String.ofList

end MethodGraft.ModifiedUtf8
