import Discrepancy.Text

/-!
# Kinds

The kind of a value is its structural category.  It selects the rule of comparison and the rule of
rendering.
-/

namespace Discrepancy

/-- The structural category of a value. -/
inductive Kind where
  | invalid | bool | int | uint | float | complex | string | pointer | record | array | slice
  | map | interface | func | chan | other
  deriving DecidableEq

namespace Kind

def all : List Kind :=
  [invalid, bool, int, uint, float, complex, string, pointer, record, array, slice, map,
    interface, func, chan, other]

def name : Kind → Text
  | invalid => "invalid"
  | bool => "bool"
  | int => "int"
  | uint => "uint"
  | float => "float"
  | complex => "complex"
  | string => "string"
  | pointer => "pointer"
  | record => "record"
  | array => "array"
  | slice => "slice"
  | map => "map"
  | interface => "interface"
  | func => "func"
  | chan => "chan"
  | other => "other"

def isSequence (k : Kind) : Bool :=
  k == array || k == slice

def ofNumber? (n : Int) : Option Kind :=
  if n < 0 then none else all[n.toNat]?

/-- The name of the kind with a number; no kind has the name `????`. -/
def nameOfNumber (n : Int) : Text :=
  match ofNumber? n with
  | some k => k.name
  | none => "????"

end Kind

end Discrepancy
