import Discrepancy.Ty.Name

/-!
# Type symbols

The symbol of a type is the compact name under which linkers know it.  Fundamental types are a
letter or two, names carry their length in front, and arguments stand between `I` and `E`.  A
component that occurred before is not written again: it is referred to by the order in which the
components were completed.
-/

namespace Discrepancy

/-- A component of a symbol. -/
inductive Symbol where
  /-- A code which is never abbreviated. -/
  | code (letters : Text)
  /-- A name of the standard library, or a name of its own. -/
  | name (letters : Text)
  /-- A name inside another one. -/
  | member (outer : Symbol) (letters : Text)
  | applied (template : Symbol) (arguments : List Symbol)
  /-- A qualifier, pointer or array in front of a type. -/
  | formed (letters : Text) (inner : Symbol)
  | function (parts : List Symbol)
  /-- A list of arguments that counts as one. -/
  | pack (parts : List Symbol)
  deriving BEq

namespace Symbol

/-- A name with its length in front. -/
def sized (name : Text) : Text :=
  Text.ofNat name.length ++ name

def std (name : Text) : Symbol :=
  .name ("St" ++ sized name)

/-- Whether a component is nested deeper than a name. -/
def isScoped : Symbol → Bool
  | member .. => true
  | applied template _ => template.isScoped
  | _ => false

/-- Digits and upper-case letters, the digits of a reference. -/
def referenceDigit (n : Nat) : UInt8 :=
  if n < 10 then (48 + n).toUInt8 else (55 + n).toUInt8

/-- The reference to the component with a number: the first one has no digit. -/
def reference : Nat → Text
  | 0 => "S_"
  | n + 1 =>
    let digits : Text :=
      if n < 36 then [referenceDigit n] else [referenceDigit (n / 36), referenceDigit (n % 36)]
    "S" ++ digits ++ "_"

/-- Writes a component by reference where it was seen before, and notes it where it was not. -/
def noted (seen : List Symbol) (s : Symbol) (written : Text × List Symbol) : Text × List Symbol :=
  match seen.idxOf? s with
  | some i => (reference i, seen)
  | none => (written.1, written.2 ++ [s])

mutual

/-- Writes a component as a part of a longer name. -/
def writePart (seen : List Symbol) : Symbol → Text × List Symbol
  | code letters => (letters, seen)
  | name letters => noted seen (name letters) (letters, seen)
  | member outer letters =>
    let (prior, after) := writePart seen outer
    noted seen (member outer letters) (prior ++ letters, after)
  | applied template arguments =>
    let (prior, after) := writePart seen template
    let (listed, after) := writeAll after arguments
    noted seen (applied template arguments) (prior ++ "I" ++ listed ++ "E", after)
  | formed letters inner =>
    let (written, after) := write seen inner
    noted seen (formed letters inner) (letters ++ written, after)
  | function parts =>
    let (listed, after) := writeAll seen parts
    noted seen (function parts) ("F" ++ listed ++ "E", after)
  | pack parts =>
    let (listed, after) := writeAll seen parts
    ("J" ++ listed ++ "E", after)
termination_by structural s => s

/-- Writes a component that stands by itself. -/
def write (seen : List Symbol) : Symbol → Text × List Symbol
  | code letters => (letters, seen)
  | name letters => noted seen (name letters) (letters, seen)
  | member outer letters =>
    let (prior, after) := writePart seen outer
    noted seen (member outer letters) ("N" ++ prior ++ letters ++ "E", after)
  | applied template arguments =>
    let (prior, after) := writePart seen template
    let (listed, after) := writeAll after arguments
    let body := prior ++ "I" ++ listed ++ "E"
    noted seen (applied template arguments)
      (if template.isScoped then "N" ++ body ++ "E" else body, after)
  | formed letters inner =>
    let (written, after) := write seen inner
    noted seen (formed letters inner) (letters ++ written, after)
  | function parts =>
    let (listed, after) := writeAll seen parts
    noted seen (function parts) ("F" ++ listed ++ "E", after)
  | pack parts =>
    let (listed, after) := writeAll seen parts
    ("J" ++ listed ++ "E", after)
termination_by structural s => s

/-- Writes components one after the other. -/
def writeAll (seen : List Symbol) : List Symbol → Text × List Symbol
  | [] => ([], seen)
  | s :: rest =>
    let (first, after) := write seen s
    let (others, after) := writeAll after rest
    (first ++ others, after)
termination_by structural parts => parts

end

def text (s : Symbol) : Text :=
  (write [] s).1

def ofInteger : IntegerTy → Symbol
  | .char => code "c"
  | .signedChar => code "a"
  | .unsignedChar => code "h"
  | .wideChar => code "w"
  | .char16 => code "Ds"
  | .char32 => code "Di"
  | .short => code "s"
  | .unsignedShort => code "t"
  | .int => code "i"
  | .unsignedInt => code "j"
  | .long => code "l"
  | .unsignedLong => code "m"
  | .longLong => code "x"
  | .unsignedLongLong => code "y"

def ofFloat : FloatTy → Symbol
  | .single => code "f"
  | .double => code "d"
  | .extended => code "e"

def allocator (element : Symbol) : Symbol :=
  applied (code "Sa") [element]

def traits : Symbol :=
  applied (std "char_traits") [code "c"]

/-- A number of a type, as an argument. -/
def literal (type : Text) (n : Nat) : Symbol :=
  code ("L" ++ type ++ Text.ofNat n ++ "E")

def chrono (name : Text) : Symbol :=
  member (std "chrono") (sized name)

def ofSpan (count : Symbol) (period : Period) : Symbol :=
  applied (chrono "duration")
    [count, applied (std "ratio") [literal "l" period.num, literal "l" period.den]]

def systemClock : Symbol :=
  member (member (std "chrono") (sized "_V2")) (sized "system_clock")

def ofAtom : AtomTy → Symbol
  | .void => code "v"
  | .unit => std "monostate"
  | .bool => code "b"
  | .integer t => ofInteger t
  | .float t => ofFloat t
  | .complex t => applied (std "complex") [ofFloat t]
  | .string .owned =>
    applied (member (std "__cxx11") (sized "basic_string"))
      [code "c", traits, allocator (code "c")]
  | .string .view => applied (std "basic_string_view") [code "c", traits]
  | .string .mutablePointer => formed "P" (code "c")
  | .string .pointer => formed "P" (formed "K" (code "c"))
  | .string (.buffer size) => formed ("A" ++ Text.ofNat size ++ "_") (code "c")
  | .span count period => ofSpan (ofAtom count) period
  | .instant count period =>
    applied (chrono "time_point") [systemClock, ofSpan (ofAtom count) period]
  | .named n _ => name (sized n)

def ofPointer (target : Symbol) : PointerForm → Symbol
  | .raw => formed "P" target
  | .shared => applied (std "shared_ptr") [target]
  | .unique => applied (std "unique_ptr") [target, applied (std "default_delete") [target]]
  | .optional => applied (std "optional") [target]

def ofSequence (element : Symbol) : SequenceForm → Symbol
  | .vector => applied (std "vector") [element, allocator element]
  | .array size => applied (std "array") [element, literal "m" size]
  | .inPlace size => formed ("A" ++ Text.ofNat size ++ "_") element

def ofQualified (inner : Symbol) : Qualifier → Symbol
  | .constant => formed "K" inner
  | .volatile => formed "V" inner
  | .reference => formed "R" inner
  | .transient => formed "O" inner

def entry (key mapped : Symbol) : Symbol :=
  applied (std "pair") [formed "K" key, mapped]

/-- The symbol of what a map compares keys by, given the one it has of its own. -/
def comparator (form : MapForm) (own : Symbol) : Symbol :=
  match form.comparator with
  | none => own
  | some n => name (sized n)

def ofMap (form : MapForm) (key mapped : Symbol) : Symbol :=
  if form.ordered then
    applied (std "map") [key, mapped, comparator form (applied (std "less") [key]),
      allocator (entry key mapped)]
  else
    applied (std "unordered_map") [key, mapped, applied (std "hash") [key],
      comparator form (applied (std "equal_to") [key]), allocator (entry key mapped)]

def ofFunction (form : FunctionForm) (result : Symbol) (parameters : List Symbol) : Symbol :=
  let signature := function (result :: if parameters.isEmpty then [code "v"] else parameters)
  match form with
  | .plain => formed "P" signature
  | .wrapped => applied (std "function") [signature]

mutual

def ofTy : Ty → Symbol
  | .atom a => ofAtom a
  | .pointer form t => ofPointer (ofTy t) form
  | .sequence form t => ofSequence (ofTy t) form
  | .qualified q t => ofQualified (ofTy t) q
  | .map form k v => ofMap form (ofTy k) (ofTy v)
  | .variant ts => applied (std "variant") [pack (ofTys ts)]
  | .function form result parameters => ofFunction form (ofTy result) (ofTys parameters)
termination_by structural t => t

def ofTys : List Ty → List Symbol
  | [] => []
  | t :: ts => ofTy t :: ofTys ts
termination_by structural ts => ts

end

end Symbol

def Ty.symbol (t : Ty) : Text :=
  (Symbol.ofTy t).text

end Discrepancy
