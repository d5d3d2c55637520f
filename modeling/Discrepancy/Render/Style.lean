import Discrepancy.Kind

/-!
# Styles and shapes

A shape is one of the forms in which a value is rendered.  Each kind is rendered in one shape, and
several kinds may share a shape; the invalid kind has none.

A style says how a rendering is laid out.  The parts of a composite value stand on lines of their
own, indented by tabs of a fixed width; a flat rendering has neither tabs nor line breaks.

`Style.tab` and `Style.untab` belong together: a part brings its own indentation along, and loses
it again where it follows a label on the same line.
-/

namespace Discrepancy

/-- A form of rendering. -/
inductive Shape where
  | simple | pointer | record | sequence | map | interface | func | chan | other
  deriving DecidableEq

namespace Shape

def name : Shape → Text
  | simple => "simpleDumper"
  | pointer => "ptrDumper"
  | record => "recordDumper"
  | sequence => "sequenceDumper"
  | map => "mapDumper"
  | interface => "interfaceDumper"
  | func => "funcDumper"
  | chan => "chanDumper"
  | other => "otherDumper"

/-- The shape in which the values of a kind are rendered. -/
def ofKind? : Kind → Option Shape
  | .invalid => none
  | .bool | .int | .uint | .float | .complex | .string => some simple
  | .pointer => some pointer
  | .record => some record
  | .array | .slice => some sequence
  | .map => some map
  | .interface => some interface
  | .func => some func
  | .chan => some chan
  | .other => some other

end Shape

structure Style where
  /-- Everything on one line. -/
  flat : Bool := false
  /-- Strings always quoted on one line. -/
  quoteAll : Bool := false
  /-- Strings up to this length quoted on one line, none if zero. -/
  quoteUpTo : Nat := 0
  /-- References rendered by address. -/
  addresses : Bool := false
  /-- Tabs in front of every line, beside those of its level. -/
  indent : Nat := 0
  /-- Columns of a tab. -/
  tabWidth : Nat := 2
  deriving DecidableEq

namespace Style

/-- The columns of `n` tabs: none where output is flat or `n` is negative. -/
def tabSize (style : Style) (n : Int) : Nat :=
  if style.flat then 0 else n.toNat * style.tabWidth

def tab (style : Style) (n : Int) : Text :=
  Text.spaces (style.tabSize n)

/-- The end of a line that opens a composite value. -/
def newline (style : Style) : Text :=
  if style.flat then [] else "\n"

/-- What follows an element.  Flat output has nothing after the last one. -/
def separator (style : Style) (last : Bool) : Text :=
  if !style.flat then ",\n" else if last then [] else ", "

/-- A text without the `n` tabs in front of it, if it has them. -/
def untab (style : Style) (t : Text) (n : Int) : Text :=
  let size := style.tabSize n
  if size ≤ t.length && (t.take size).all (· == Text.byte ' ') then t.drop size else t

def depth (style : Style) (level : Int) : Int :=
  style.indent + level

def leaf (style : Style) (level : Int) (t : Text) : Text :=
  style.tab (style.depth level) ++ t

/-- The items of a composite value at the level of its parts. -/
def items (style : Style) (level : Int) : List Text → Text
  | [] => []
  | [item] => style.tab (style.depth (level + 1)) ++ item ++ style.separator true
  | item :: next :: rest =>
    style.tab (style.depth (level + 1)) ++ item ++ style.separator false ++
      items style level (next :: rest)

/-- A composite value: an opening, the items on lines of their own, and a closing brace. -/
def composite (style : Style) (level : Int) (opening : Text) (parts : List Text) : Text :=
  if parts.isEmpty then style.leaf level (opening ++ "\x7d")
  else style.leaf level opening ++ style.newline ++ style.items level parts ++
    style.leaf level "\x7d"

/-- The style of map keys: flat, with quoted strings, and without indentation. -/
def forKeys (style : Style) : Style :=
  { style with flat := true, quoteAll := true, indent := 0 }

end Style

end Discrepancy
