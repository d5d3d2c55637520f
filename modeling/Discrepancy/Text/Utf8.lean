import Discrepancy.Text

/-!
# UTF-8

A text is read as a sequence of `Rune`s: code points, and bytes which belong to no code point.  A
byte is stray exactly when no well-formed encoding starts at it, and reading goes on at the next
byte then.  Overlong forms, surrogates and numbers above U+10FFFF are not well formed.

On a terminal ideographs, Hangul, fullwidth forms and pictographs take two columns; every other code
point and every stray byte takes one, combining marks included.
-/

namespace Discrepancy

/-- One reading step of a text. -/
inductive Rune where
  /-- A code point, with the bytes that encode it. -/
  | point (code : Nat) (bytes : Text)
  /-- A byte at which no well-formed encoding starts. -/
  | stray (byte : UInt8)
  deriving DecidableEq

namespace Rune

def bytes : Rune → Text
  | point _ bytes => bytes
  | stray byte => [byte]

def isContinuation (b : UInt8) : Bool :=
  0x80 ≤ b && b < 0xc0

/-- The six bits which a continuation byte carries. -/
def payload (b : UInt8) : Nat :=
  b.toNat % 64

/-- The rune which starts with the byte `b`, and the text behind it. -/
def next (b : UInt8) (rest : Text) : Rune × Text :=
  if b < 0x80 then (point b.toNat [b], rest)
  else if 0xc2 ≤ b && b < 0xe0 then
    match rest with
    | b₁ :: rest₁ =>
      if isContinuation b₁ then (point (b.toNat % 32 * 64 + payload b₁) [b, b₁], rest₁)
      else (stray b, rest)
    | [] => (stray b, rest)
  else if 0xe0 ≤ b && b < 0xf0 then
    match rest with
    | b₁ :: b₂ :: rest₂ =>
      let code := (b.toNat % 16 * 64 + payload b₁) * 64 + payload b₂
      if isContinuation b₁ && isContinuation b₂ && 0x800 ≤ code &&
          !(0xd800 ≤ code && code < 0xe000) then
        (point code [b, b₁, b₂], rest₂)
      else (stray b, rest)
    | _ => (stray b, rest)
  else if 0xf0 ≤ b && b < 0xf5 then
    match rest with
    | b₁ :: b₂ :: b₃ :: rest₃ =>
      let code := ((b.toNat % 8 * 64 + payload b₁) * 64 + payload b₂) * 64 + payload b₃
      if isContinuation b₁ && isContinuation b₂ && isContinuation b₃ && 0x10000 ≤ code &&
          code < 0x110000 then
        (point code [b, b₁, b₂, b₃], rest₃)
      else (stray b, rest)
    | _ => (stray b, rest)
  else (stray b, rest)

end Rune

namespace Text

/-- Reads runes as long as the step count allows, which the length of the text always does. -/
def runesWithin : Nat → Text → List Rune
  | 0, _ => []
  | _ + 1, [] => []
  | steps + 1, b :: rest =>
    let (rune, rest) := Rune.next b rest
    rune :: runesWithin steps rest

def runes (t : Text) : List Rune :=
  runesWithin t.length t

/-- A text is well formed when no byte of it is stray. -/
def isWellFormed (t : Text) : Bool :=
  t.runes.all fun
    | .point .. => true
    | .stray _ => false

def ofCode (code : Nat) : Text :=
  if code < 0x80 then [code.toUInt8]
  else if code < 0x800 then [(0xc0 + code / 64).toUInt8, (0x80 + code % 64).toUInt8]
  else if code < 0x10000 then
    [(0xe0 + code / 4096).toUInt8, (0x80 + code / 64 % 64).toUInt8, (0x80 + code % 64).toUInt8]
  else
    [(0xf0 + code / 262144).toUInt8, (0x80 + code / 4096 % 64).toUInt8,
      (0x80 + code / 64 % 64).toUInt8, (0x80 + code % 64).toUInt8]

/-! ## Columns -/

/-- The code points that take two columns. -/
def isWide (code : Nat) : Bool :=
  (0x1100 ≤ code && code ≤ 0x115f) || code == 0x2329 || code == 0x232a ||
    (0x2e80 ≤ code && code ≤ 0xa4cf && code != 0x303f) || (0xac00 ≤ code && code ≤ 0xd7a3) ||
    (0xf900 ≤ code && code ≤ 0xfaff) || (0xfe10 ≤ code && code ≤ 0xfe19) ||
    (0xfe30 ≤ code && code ≤ 0xfe6f) || (0xff00 ≤ code && code ≤ 0xff60) ||
    (0xffe0 ≤ code && code ≤ 0xffe6) || (0x1f300 ≤ code && code ≤ 0x1f64f) ||
    (0x1f900 ≤ code && code ≤ 0x1f9ff) || (0x20000 ≤ code && code ≤ 0x2fffd) ||
    (0x30000 ≤ code && code ≤ 0x3fffd)

def runeColumns : Rune → Nat
  | .point code _ => if isWide code then 2 else 1
  | .stray _ => 1

def columns (t : Text) : Nat :=
  t.runes.foldl (fun n rune ↦ n + runeColumns rune) 0

/-- The text moved to the right edge of a field of `width` columns.  A text that is wider than the
field is left alone. -/
def padLeft (width : Nat) (t : Text) : Text :=
  spaces (width - t.columns) ++ t

end Text

end Discrepancy
