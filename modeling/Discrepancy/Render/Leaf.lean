import Discrepancy.Host
import Discrepancy.Render.Style
import Discrepancy.Text.Utf8
import Discrepancy.Value.Access

/-!
# Leaves

The texts of values without parts.  A quoted text stands between quotation marks on a single
line.  A quotation mark, a backslash, a line feed, a carriage return and a tab have two-character
escapes; code points that do not print and stray bytes are written by number; everything else is
copied.  In particular the quoted form of any text holds no line break.
-/

namespace Discrepancy

namespace Text

/-- A code point by number, with as many digits as its size asks for. -/
def numberEscape (code : Nat) : Text :=
  if code < 0x100 then "\\x" ++ ofHexPadded 2 code
  else if code < 0x10000 then "\\u" ++ ofHexPadded 4 code
  else "\\U" ++ ofHexPadded 8 code

variable [Host]

/-- The form which a rune takes between quotation marks. -/
def quoteRune : Rune → Text
  | .stray b => "\\x" ++ ofHexPadded 2 b.toNat
  | .point code bytes =>
    if code == 0x0a then "\\n"
    else if code == 0x0d then "\\r"
    else if code == 0x09 then "\\t"
    else if code == 0x22 then "\\\""
    else if code == 0x5c then "\\\\"
    else if Host.isUnprintable code then numberEscape code
    else bytes

def quoted (t : Text) : Text :=
  "\"" ++ t.runes.flatMap quoteRune ++ "\""

end Text

/-- The text of a string: quoted where the style asks for one line, as it stands where it has
several lines, and between quotation marks otherwise. -/
def Style.stringText [Host] (style : Style) (t : Text) : Text :=
  if style.quoteAll || style.flat || (0 < style.quoteUpTo && t.length ≤ style.quoteUpTo) then
    t.quoted
  else if t.contains (Text.byte '\n') then t
  else "\"" ++ t ++ "\""

def addressText (address : Nat) : Text :=
  "<0x" ++ Text.ofHex address ++ ">"

/-- What stands for the target of a function or channel. -/
def Style.targetText (style : Style) (target : Option Identity) : Text :=
  if style.addresses then addressText (addressOf target) else "<addr>"

def Scalar.text [Host] (style : Style) : Scalar → Outcome Text
  | bool b => pure (if b then "true" else "false")
  | integer _ n => pure (Text.ofInt n)
  | float type x => pure (x.text type.format)
  | complex type re im => pure (Binary.complexText .double (type.narrow re) (type.narrow im))
  | string _ none _ => pure "nullptr"
  | string _ (some t) _ => pure (style.stringText t)
  | func _ _ _ target => pure ("<func>(" ++ style.targetText target ++ ")")
  | chan name queue => pure ("(" ++ name ++ ")(" ++ style.targetText queue ++ ")")
  | s@(sealed name kind) =>
    if kind == .other then (Value.scalar s).render else .fail (.unrenderable name kind)
  | s => (Value.scalar s).render

/-! ## Bytes -/

def byteTy : Ty :=
  .atom (.integer .unsignedChar)

/-- The text of a byte: its number in hexadecimal, and the character where it prints. -/
def byteText (b : UInt8) : Text :=
  let number := "0x" ++ Text.ofHexPadded 2 b.toNat
  if Text.isPrintable b then number ++ " ('" ++ [b] ++ "')" else number

end Discrepancy
