import Discrepancy.Ty.Name
import Discrepancy.Number.Numeral

/-!
# Values

A value is what a comparison looks at: a tree whose nodes know their static types.  Objects have
no addresses here.  What a comparison can observe of them is kept as data: a pointer, function or
channel carries the identity of what it refers to, and a slice or map the identity of its storage.
Two nodes refer to the same object, or are kept in the same storage, exactly when these identities
agree.

A part of a value may be absent, and it may be hidden, in which case only its type is known.
-/

namespace Discrepancy

/-- The identity of an object, a function or a channel, or of the storage of a container. -/
abbrev Identity := Nat

/-- A value without parts. -/
inductive Scalar where
  | bool (b : Bool)
  | integer (type : IntegerTy) (n : Int)
  | float (type : FloatTy) (x : Binary)
  | complex (type : FloatTy) (re im : Binary)
  /-- A string.  A borrowed one may be nil, and where it stands matters to comparators of keys. -/
  | string (type : StringTy) (content : Option Text) (place : Identity := 0)
  /-- A function, nil where it has no identity. -/
  | func (form : FunctionForm) (result : Ty) (parameters : List Ty) (target : Option Identity)
  /-- A channel, nil where it has no identity. -/
  | chan (name : Text) (queue : Option Identity)
  /-- A span of time, with the number of its periods. -/
  | span (type : AtomTy) (period : Period) (count : Binary)
  | instant (type : AtomTy) (period : Period) (count : Binary)
  /-- A value of which nothing but the type can be learned. -/
  | sealed (name : Text) (kind : Kind)
  deriving DecidableEq

def Scalar.ty : Scalar → Ty
  | bool _ => .atom .bool
  | integer type _ => .atom (.integer type)
  | float type _ => .atom (.float type)
  | complex type _ _ => .atom (.complex type)
  | string type .. => .atom (.string type)
  | func form result parameters _ => .function form result parameters
  | chan name _ => .atom (.named name .chan)
  | span type period _ => .atom (.span type period)
  | instant type period _ => .atom (.instant type period)
  | sealed name kind => .atom (.named name kind)

/-- The types whose values wrap a value of some other type. -/
inductive InterfaceTy where
  | variant (alternatives : List Ty)
  | named (name : Text)

def InterfaceTy.ty : InterfaceTy → Ty
  | variant alternatives => .variant alternatives
  | named name => .atom (.named name .interface)

/-- What a map finds its entries by: the form of its type, and the state of the comparator which it
holds, if that has one. -/
structure KeyRule where
  form : MapForm
  state : Nat := 0
  deriving DecidableEq

namespace KeyRule

def sorted : KeyRule := { form := .sorted }

def hashed : KeyRule := { form := .hashed }

end KeyRule

/-- A value, or the absence of one. -/
inductive Value where
  | absent
  | hidden (type : Ty)
  | scalar (s : Scalar)
  /-- A pointer with the identity of its object and the object, or nil. -/
  | pointer (form : PointerForm) (target : Ty) (pointee : Option (Identity × Value))
  | record (name : Text) (fields : List (Text × Value))
  /-- A sequence; without elements it need not have storage. -/
  | sequence (form : SequenceForm) (element : Ty) (storage : Option Identity)
      (elements : List Value)
  /-- A map with its entries in the order in which it enumerates them. -/
  | map (rule : KeyRule) (key mapped : Ty) (storage : Identity) (entries : List (Value × Value))
  /-- A wrapped value, with the number of the alternative it belongs to in a variant. -/
  | interface (type : InterfaceTy) (alternative : Option Nat) (content : Value)

namespace Value

def ty? : Value → Option Ty
  | absent => none
  | hidden type => some type
  | scalar s => some s.ty
  | pointer form target _ => some (.pointer form target)
  | record name _ => some (.atom (.named name .record))
  | sequence form element _ _ => some (.sequence form element)
  | map rule key mapped _ _ => some (.map rule.form key mapped)
  | interface type _ _ => some type.ty

def identity? (v : Value) : Option Ty :=
  v.ty?.map Ty.identity

def kind (v : Value) : Kind :=
  match v.ty? with
  | none => .invalid
  | some t => t.kind

def typeName (v : Value) : Text :=
  match v.ty? with
  | none => "std::nullptr_t"
  | some t => t.name

def isPresent : Value → Bool
  | absent => false
  | _ => true

/-- Whether a value can be looked at; absence can. -/
def isAccessible : Value → Bool
  | hidden _ => false
  | _ => true

end Value

end Discrepancy
