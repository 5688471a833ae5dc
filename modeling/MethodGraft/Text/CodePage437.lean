/-!
# Text.CodePage437 — the character set of the first personal computers

Archive entries whose names are not marked as UTF-8 use it.  Its lower half is ASCII.
-/

namespace MethodGraft.CodePage437

def upperHalf : Array Char :=
  ("ÇüéâäàåçêëèïîìÄÅÉæÆôöòûùÿÖÜ¢£¥₧ƒ" ++
    "áíóúñÑªº¿⌐¬½¼¡«»░▒▓│┤╡╢╖╕╣║╗╝╜╛┐" ++
    "└┴┬├─┼╞╟╚╔╩╦╠═╬╧╨╤╥╙╘╒╓╫╪┘┌█▄▌▐▀" ++
    "αßΓπΣσµτΦΘΩδ∞φε∩≡±≥≤⌠⌡÷≈°∙·√ⁿ²■\u00a0").toList.toArray

def decodeByte (b : UInt8) : Char :=
  if b < 0x80 then Char.ofNat b.toNat else upperHalf.getD (b.toNat - 0x80) (Char.ofNat 0xFFFD)

def decode (bytes : List UInt8) : String := String.ofList (bytes.map decodeByte)

end MethodGraft.CodePage437
