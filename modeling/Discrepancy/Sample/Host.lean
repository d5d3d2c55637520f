import Discrepancy.Render.Rendering
import Discrepancy.Value.Order

/-!
# A sample host

One program around the library, with types and renderers of the kinds that programs have.  Its maps
are in the natural order of their keys, unless they fold the case of strings, and it writes dates
and times of day in universal time.  The calendar is the Gregorian one, continued to all years; it
repeats every 400 years, and counting years from March puts the leap day at the end of its year.
-/

namespace Discrepancy.Sample

/-! ## Types -/

def int : Ty := .atom (.integer .int)

def string : Ty := .atom (.string .owned)

def record (name : Text) : Ty := .atom (.named name .record)

def vectorOf (t : Ty) : Ty := .sequence .vector t

def mapTo (t : Ty) : Ty := .map .sorted string t

/-- The comparators of the program leave the case of strings out of account, unless their state says
otherwise. -/
def foldingCase : MapForm := { ordered := true, comparator := some "FoldCase" }

/-! ## Code points -/

/-- The code points that do not print: controls, the no-break space, the soft hyphen, the marks of
direction and joining, the separators of lines and paragraphs, private use, and the byte order
mark. -/
def isUnprintable (code : Nat) : Bool :=
  code < 0x20 || (0x7f ≤ code && code ≤ 0xa0) || code == 0xad ||
    (0x200b ≤ code && code ≤ 0x200f) || (0x2028 ≤ code && code ≤ 0x202e) ||
    (0xe000 ≤ code && code ≤ 0xf8ff) || code == 0xfeff

/-! ## Time -/

structure Date where
  year : Int
  month : Nat
  day : Nat
  deriving DecidableEq

/-- The days from the first of March of the year 0 to the first of January of 1970. -/
def epochOffset : Int := 719468

def daysOfCycle : Nat := 146097

/-- The date that lies `days` days after the first of January of 1970. -/
def dateOf (days : Int) : Date :=
  let cycle := (days + epochOffset).fdiv daysOfCycle
  let dayOfCycle := ((days + epochOffset).fmod daysOfCycle).toNat
  let yearOfCycle :=
    (dayOfCycle - dayOfCycle / 1460 + dayOfCycle / 36524 - dayOfCycle / 146096) / 365
  let dayOfYear := dayOfCycle - (365 * yearOfCycle + yearOfCycle / 4 - yearOfCycle / 100)
  let monthFromMarch := (5 * dayOfYear + 2) / 153
  let month := if monthFromMarch < 10 then monthFromMarch + 3 else monthFromMarch - 9
  { year := yearOfCycle + 400 * cycle + (if month ≤ 2 then 1 else 0)
    month := month
    day := dayOfYear - (153 * monthFromMarch + 2) / 5 + 1 }

/-- A number with zeros in front up to `width` digits. -/
def padded (width n : Nat) : Text :=
  List.replicate (width - (Text.ofNat n).length) (Text.byte '0') ++ Text.ofNat n

/-- A year with at least four digits, and a minus sign before the year 0. -/
def yearText : Int → Text
  | .ofNat n => padded 4 n
  | .negSucc n => "-" ++ padded 4 (n + 1)

/-- Date and time of day, as in `1970-01-01 00:00:00`.  Years that do not fit into 32 bits are
refused. -/
def dateText (seconds : Int) : Except Text Text :=
  let date := dateOf (seconds.fdiv 86400)
  let second := (seconds.fmod 86400).toNat
  if date.year.natAbs < 2147483648 then
    .ok (yearText date.year ++ "-" ++ padded 2 date.month ++ "-" ++ padded 2 date.day ++ " " ++
      padded 2 (second / 3600) ++ ":" ++ padded 2 (second / 60 % 60) ++ ":" ++
      padded 2 (second % 60))
  else .error "time_t value out of range"

/-- The periods with a unit of their own: multiples and fractions of the second by powers of ten,
and minutes, hours and days. -/
def units : List (Period × Text) :=
  [(⟨1, 1000000000000000000⟩, "as"), (⟨1, 1000000000000000⟩, "fs"), (⟨1, 1000000000000⟩, "ps"),
    (⟨1, 1000000000⟩, "ns"), (⟨1, 1000000⟩, "µs"), (⟨1, 1000⟩, "ms"), (⟨1, 100⟩, "cs"),
    (⟨1, 10⟩, "ds"), (⟨1, 1⟩, "s"), (⟨10, 1⟩, "das"), (⟨100, 1⟩, "hs"), (⟨1000, 1⟩, "ks"),
    (⟨1000000, 1⟩, "Ms"), (⟨1000000000, 1⟩, "Gs"), (⟨1000000000000, 1⟩, "Ts"),
    (⟨1000000000000000, 1⟩, "Ps"), (⟨1000000000000000000, 1⟩, "Es"), (⟨60, 1⟩, "min"),
    (⟨3600, 1⟩, "h"), (⟨86400, 1⟩, "d")]

/-- The unit which follows a count of periods: a fraction of the second in brackets and in lowest
terms, if the periods have none of their own. -/
def unitText (p : Period) : Text :=
  (units.lookup p).getD
    (if p.reduced.den == 1 then "[" ++ Text.ofNat p.reduced.num ++ "]s"
    else "[" ++ Text.ofNat p.reduced.num ++ "/" ++ Text.ofNat p.reduced.den ++ "]s")

def spanText (count : Binary) (p : Period) : Text :=
  (match count.int? with
    | some n => Text.ofInt n
    | none => count.text .double) ++ unitText p

/-- The instant some periods after the start of 1970, to the second. -/
def instantText (count : Binary) (p : Period) : Except Text Text :=
  match count.int? with
  | some n => dateText ((n * p.num).fdiv p.den)
  | none => .error "time point is not a whole number of periods"

/-! ## Keys -/

/-- A string in lower case, and any other value as it is. -/
def lowered : Value → Value
  | .scalar (.string type content place) =>
    .scalar (.string type (content.map fun t ↦ t.map Text.lower) place)
  | v => v

def order (rule : KeyRule) (a b : Value) : Option Ordering :=
  if rule.form.comparator.isSome && rule.state == 0 then (lowered a).order (lowered b)
  else a.order b

/-! ## Renderers -/

/-- The program, given its renderers. -/
@[reducible]
def hostWith (renderer : Text → Rendering → Int → Value → Outcome Text) : Host where
  isUnprintable := isUnprintable
  spanText _ p count := .ok (spanText count p)
  instantText _ p count := instantText count p
  order := order
  renderer := renderer

/-- Renders the name of the type in angle brackets. -/
def tag (r : Rendering) (level : Int) (v : Value) : Outcome Text :=
  pure (r.style.leaf level ("<" ++ v.typeName ++ ">"))

/-- Renders the name of the type with its level and the indentation of the style, none of which
moves the text. -/
def plainTag (r : Rendering) (level : Int) (v : Value) : Outcome Text :=
  pure (v.typeName ++ "@" ++ Text.ofInt level ++ "+" ++ Text.ofNat r.style.indent)

/-- Renders a value on one line, as if nothing else were registered or asked for. -/
def oneLine (r : Rendering) (level : Int) (v : Value) : Outcome Text := do
  let host := hostWith fun _ _ _ v ↦ v.refuse .render
  let line ← @Rendering.any host { style := { flat := true } } v
  pure (r.style.leaf level line)

/-- Renders a map of integers by the first key it enumerates. -/
def firstKey (v : Value) : Outcome Text :=
  match v with
  | .map _ _ _ _ ((.scalar (.integer _ n), _) :: _) => pure (Text.ofInt n)
  | _ => pure "none"

/-- Renders every value as one text, without indentation. -/
def constant (text : Text) : Renderer :=
  .own ("=" ++ text)

scoped instance host : Host :=
  hostWith fun name r level v ↦
    if name == "tag" then tag r level v
    else if name == "plainTag" then plainTag r level v
    else if name == "oneLine" then oneLine r level v
    else if name == "firstKey" then firstKey v
    else pure (name.drop 1)

end Discrepancy.Sample
