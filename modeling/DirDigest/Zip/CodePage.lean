import DirDigest.Text

/-! # Code page 437

Names of archive entries that are not marked as UTF-8 are in code page 437, whose first half is
ASCII.
-/

set_option autoImplicit false

namespace DirDigest.Zip

/-- The characters of the second half of the code page. -/
def upperHalf : Array Char :=
  ("ÇüéâäàåçêëèïîìÄÅÉæÆôöòûùÿÖÜ¢£¥₧ƒáíóúñÑªº¿⌐¬½¼¡«»░▒▓│┤╡╢╖╕╣║╗╝╜╛┐└┴┬├─┼╞╟╚╔╩╦╠═╬╧╨╤╥╙╘╒╓╫╪┘┌█▄▌▐▀" ++
   "αßΓπΣσµτΦΘΩδ∞φε∩≡±≥≤⌠⌡÷≈°∙·√ⁿ²■\u00A0").toList.toArray

/-- The character of a byte. -/
def codePageChar (b : UInt8) : Char :=
  if b < 0x80 then Char.ofNat b.toNat
  else (upperHalf[b.toNat - 0x80]?).getD replacement

/-- The text of a byte string in the code page. -/
def codePageText (b : Bytes) : String := String.ofList (b.map codePageChar)

end DirDigest.Zip
