import Discrepancy.Text.Utf8

/-!
# Documents

A document is a tree of texts, numbers, truth values, lists and objects, in which requests arrive
and answers leave.  Numbers stay as they are written, so that a reader of the document decides what
they mean, and objects keep their fields in order.

A document is written on one line, in ASCII; code points outside of it are written in units of
sixteen bits.  A reading step returns what follows, and the number of steps is bounded by the length
of the text.
-/

namespace Discrepancy

/-- A tree of plain data. -/
inductive Document where
  | null
  | bool (b : Bool)
  /-- A number, as it is written. -/
  | number (numeral : Text)
  | text (t : Text)
  | list (items : List Document)
  | object (fields : List (Text × Document))

namespace Document

def field? (name : Text) : Document → Option Document
  | object fields => fields.lookup name
  | _ => none

def items? : Document → Option (List Document)
  | list items => some items
  | _ => none

def bool? : Document → Option Bool
  | bool b => some b
  | _ => none

def int? : Document → Option Int
  | number numeral => Text.int? numeral
  | text t => Text.int? t
  | _ => none

def hexDigit? (b : UInt8) : Option Nat :=
  match Text.digit? b with
  | some n => some n
  | none =>
    let b := Text.lower b
    if 97 ≤ b && b ≤ 102 then some (b.toNat - 87) else none

/-- The bytes written by pairs of hexadecimal digits. -/
def hexBytes? : Text → Option Text
  | [] => some []
  | a :: b :: rest => do
    let high ← hexDigit? a
    let low ← hexDigit? b
    let bytes ← hexBytes? rest
    some ((16 * high + low).toUInt8 :: bytes)
  | [_] => none

/-- A sequence of bytes: a text, or an object which gives them in hexadecimal. -/
def bytes? : Document → Option Text
  | text t => some t
  | d => match d.field? "hex" with
    | some (text t) => hexBytes? t
    | _ => none

/-! ## Reading -/

def skipBlanks (t : Text) : Text :=
  t.dropWhile fun b ↦
    b == Text.byte ' ' || b == Text.byte '\n' || b == Text.byte '\r' || b == Text.byte '\t'

/-- A number of four hexadecimal digits, and what follows it. -/
def readHex4 : Text → Option (Nat × Text)
  | a :: b :: c :: d :: rest => do
    let a ← hexDigit? a
    let b ← hexDigit? b
    let c ← hexDigit? c
    let d ← hexDigit? d
    some (((a * 16 + b) * 16 + c) * 16 + d, rest)
  | _ => none

/-- A code point by number, in one unit of sixteen bits or in a pair of surrogates. -/
def readCode (t : Text) : Option (Nat × Text) := do
  let (unit, rest) ← readHex4 t
  if 0xd800 ≤ unit && unit < 0xdc00 then
    match rest with
    | slash :: u :: behind =>
      if slash == Text.byte '\\' && u == Text.byte 'u' then do
        let (low, behind) ← readHex4 behind
        if 0xdc00 ≤ low && low < 0xe000 then
          some (0x10000 + (unit - 0xd800) * 1024 + (low - 0xdc00), behind)
        else some (unit, rest)
      else some (unit, rest)
    | _ => some (unit, rest)
  else some (unit, rest)

/-- The byte which stands behind a backslash for another one. -/
def unescape (b : UInt8) : Option UInt8 :=
  if b == Text.byte 'n' then some 0x0a
  else if b == Text.byte 't' then some 0x09
  else if b == Text.byte 'r' then some 0x0d
  else if b == Text.byte 'b' then some 0x08
  else if b == Text.byte 'f' then some 0x0c
  else if b == Text.byte '"' || b == Text.byte '\\' || b == Text.byte '/' then some b
  else none

/-- Reads up to the closing quotation mark, with the text so far reversed. -/
def readString : (steps : Nat) → (reversed : Text) → Text → Option (Text × Text)
  | 0, _, _ => none
  | _ + 1, _, [] => none
  | steps + 1, reversed, b :: rest =>
    if b == Text.byte '"' then some (reversed.reverse, rest)
    else if b == Text.byte '\\' then
      match rest with
      | [] => none
      | e :: rest =>
        if e == Text.byte 'u' then
          match readCode rest with
          | none => none
          | some (code, rest) => readString steps ((Text.ofCode code).reverse ++ reversed) rest
        else match unescape e with
          | none => none
          | some c => readString steps (c :: reversed) rest
    else readString steps (b :: reversed) rest

def isNumberByte (b : UInt8) : Bool :=
  (Text.digit? b).isSome || b == Text.byte '-' || b == Text.byte '+' || b == Text.byte '.' ||
    b == Text.byte 'e' || b == Text.byte 'E'

/-- The rest of a text behind a word. -/
def afterWord (word : Text) (d : Document) (t : Text) : Option (Document × Text) :=
  if word.isPrefixOf t then some (d, t.drop word.length) else none

mutual

def readDocument : (steps : Nat) → Text → Option (Document × Text)
  | 0, _ => none
  | steps + 1, t =>
    match skipBlanks t with
    | [] => none
    | b :: rest =>
      if b == Text.byte '"' then
        (readString steps [] rest).map fun (s, rest) ↦ (text s, rest)
      else if b == Text.byte '[' then
        match skipBlanks rest with
        | [] => none
        | c :: behind =>
          if c == Text.byte ']' then some (list [], behind)
          else (readItems steps (c :: behind)).map fun (items, rest) ↦ (list items, rest)
      else if b == 0x7b then
        match skipBlanks rest with
        | [] => none
        | c :: behind =>
          if c == 0x7d then some (object [], behind)
          else (readFields steps (c :: behind)).map fun (fields, rest) ↦ (object fields, rest)
      else if isNumberByte b then
        let (numeral, rest) := (b :: rest).span isNumberByte
        some (number numeral, rest)
      else afterWord "true" (bool true) (b :: rest) <|> afterWord "false" (bool false) (b :: rest)
        <|> afterWord "null" null (b :: rest)

/-- Reads the items of a list up to its closing bracket. -/
def readItems : (steps : Nat) → Text → Option (List Document × Text)
  | 0, _ => none
  | steps + 1, t => do
    let (item, rest) ← readDocument steps t
    match skipBlanks rest with
    | [] => none
    | b :: rest =>
      if b == Text.byte ',' then
        (readItems steps rest).map fun (items, rest) ↦ (item :: items, rest)
      else if b == Text.byte ']' then some ([item], rest)
      else none

/-- Reads the fields of an object up to its closing brace. -/
def readFields : (steps : Nat) → Text → Option (List (Text × Document) × Text)
  | 0, _ => none
  | steps + 1, t => do
    match skipBlanks t with
    | [] => none
    | quote :: rest =>
      if quote != Text.byte '"' then none
      else do
        let (name, rest) ← readString steps [] rest
        match skipBlanks rest with
        | [] => none
        | colon :: rest =>
          if colon != Text.byte ':' then none
          else do
            let (d, rest) ← readDocument steps rest
            match skipBlanks rest with
            | [] => none
            | b :: rest =>
              if b == Text.byte ',' then
                (readFields steps rest).map fun (fields, rest) ↦ ((name, d) :: fields, rest)
              else if b == 0x7d then some ([(name, d)], rest)
              else none

end

def ofText? (t : Text) : Option Document :=
  match readDocument (2 * t.length + 2) t with
  | some (d, rest) => if (skipBlanks rest).isEmpty then some d else none
  | none => none

/-! ## Writing -/

def unitText (unit : Nat) : Text :=
  "\\u" ++ Text.ofHexPadded 4 unit

/-- The form of a code point between quotation marks. -/
def codeText (code : Nat) : Text :=
  if code == 0x22 then "\\\""
  else if code == 0x5c then "\\\\"
  else if 0x20 ≤ code && code < 0x7f then [code.toUInt8]
  else if code < 0x10000 then unitText code
  else unitText (0xd800 + (code - 0x10000) / 1024) ++ unitText (0xdc00 + (code - 0x10000) % 1024)

/-- The form of a rune between quotation marks; a stray byte counts as a code point. -/
def runeText : Rune → Text
  | .point code _ => codeText code
  | .stray b => codeText b.toNat

def quoteText (t : Text) : Text :=
  "\"" ++ t.runes.flatMap runeText ++ "\""

mutual

def print : Document → Text
  | null => "null"
  | bool b => if b then "true" else "false"
  | number numeral => numeral
  | text t => quoteText t
  | list items => "[" ++ Text.joinWith "," (printItems items) ++ "]"
  | object fields => "\x7b" ++ Text.joinWith "," (printFields fields) ++ "\x7d"
termination_by structural d => d

def printItems : List Document → List Text
  | [] => []
  | d :: rest => print d :: printItems rest
termination_by structural items => items

def printFields : List (Text × Document) → List Text
  | [] => []
  | (name, d) :: rest => (quoteText name ++ ":" ++ print d) :: printFields rest
termination_by structural fields => fields

end

def ofNat (n : Nat) : Document :=
  number (Text.ofNat n)

/-- A sequence of bytes as a document: a text if it is one, and in hexadecimal otherwise. -/
def ofBytes (t : Text) : Document :=
  if t.isWellFormed then text t
  else object [("hex", text (t.flatMap fun b ↦ Text.ofHexPadded 2 b.toNat))]

end Document

end Discrepancy
