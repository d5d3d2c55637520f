import Discrepancy.Value.Table

/-!
# Access

The operations by which a value is looked at.  Each kind of value has some of them.  Where an
operation is not to be had, `Value.refuse` says why: there is no value, the value is hidden, or its
type does not have the operation.  Taking an element apart asserts that there is one.
-/

namespace Discrepancy

/-- The number under which an identity is reported, zero for nil. -/
def addressOf : Option Identity → Nat
  | none => 0
  | some identity => identity + 1

namespace Value

def refusal (operation : Operation) : Value → Fault
  | absent => .absent operation
  | hidden type => .inaccessible operation type.name
  | v => .unsupported operation v.typeName v.kind

def refuse {α : Type} (operation : Operation) (v : Value) : Outcome α :=
  .fail (v.refusal operation)

/-- Whether a value is nil.  Only references, borrowed strings and interfaces ever are. -/
def isNil : Value → Outcome Bool
  | absent => absent.refuse .isNil
  | hidden type => (hidden type).refuse .isNil
  | scalar (.string _ content _) => pure content.isNone
  | scalar (.func _ _ _ target) => pure target.isNone
  | scalar (.chan _ queue) => pure queue.isNone
  | pointer _ _ pointee => pure pointee.isNone
  | interface _ _ content => pure !content.isPresent
  | _ => pure false

/-- The number of bytes, elements or entries of a value. -/
def len : Value → Outcome Nat
  | scalar (.string _ content _) => pure (content.getD []).length
  | sequence _ _ _ elements => pure elements.length
  | map _ _ _ _ entries => pure entries.length
  | v => v.refuse .len

def index : Value → (i : Nat) → Outcome Value
  | sequence _ _ _ elements, i => do
    Outcome.assert (i < elements.length) .indexIsInRange
    pure (elements[i]?.getD absent)
  | v, _ => v.refuse .index

/-- What a pointer refers to, or an interface wraps. -/
def elem : Value → Outcome Value
  | pointer _ _ pointee => do
    Outcome.assert pointee.isSome .pointerIsSet
    pure ((pointee.map Prod.snd).getD absent)
  | interface _ _ content => pure content
  | v => v.refuse .elem

def fields : Value → Outcome (List (Text × Value))
  | record _ fields => pure fields
  | v => v.refuse .fields

/-- The keys of a map, in the order in which it enumerates them. -/
def keys : Value → Outcome (List Value)
  | map _ _ _ _ entries => pure (entries.map Prod.fst)
  | v => v.refuse .keys

/-- The fault of taking a value as one of some type, unless it is one. -/
def castFault? (wanted : Ty) (v : Value) : Option Fault :=
  if !v.isAccessible then some (.hiddenCast v.typeName wanted.name)
  else if v.ty? == some wanted then none
  else some (.wrongType v.typeName wanted.name)

/-- Takes a value as one of some type, which has to be its own. -/
def cast (wanted : Ty) (v : Value) : Outcome Value :=
  match v.castFault? wanted with
  | some fault => .fail fault
  | none => pure v

/-- What a map has for a key of its key type; without an entry the result is absent. -/
def lookup [Host] : (container key : Value) → Outcome Value
  | map rule keyType _ _ entries, key => do
    let key ← key.cast keyType
    pure ((Table.find? rule key entries).getD absent)
  | v, _ => v.refuse .lookup

def boolValue : Value → Outcome Bool
  | scalar (.bool b) => pure b
  | v => v.refuse .boolValue

def intValue : Value → Outcome Int
  | scalar (.integer type n) =>
    if type.isSigned then pure n else (scalar (.integer type n)).refuse .intValue
  | v => v.refuse .intValue

def uintValue : Value → Outcome Int
  | scalar (.integer type n) =>
    if type.isSigned then (scalar (.integer type n)).refuse .uintValue else pure n
  | v => v.refuse .uintValue

def floatValue : Value → Outcome Binary
  | scalar (.float _ x) => pure x
  | v => v.refuse .floatValue

/-- The two parts of a complex number, in double precision. -/
def complexValue : Value → Outcome (Binary × Binary)
  | scalar (.complex type re im) => pure (type.narrow re, type.narrow im)
  | v => v.refuse .complexValue

/-- The bytes of a string, none for a nil one. -/
def stringValue : Value → Outcome Text
  | scalar (.string _ content _) => pure (content.getD [])
  | v => v.refuse .stringValue

def address : Value → Outcome Nat
  | scalar (.func _ _ _ target) => pure (addressOf target)
  | scalar (.chan _ queue) => pure (addressOf queue)
  | pointer _ _ pointee => pure (addressOf (pointee.map Prod.fst))
  | v => v.refuse .address

def storage : Value → Outcome (Option Identity)
  | sequence _ _ storage _ => pure storage
  | map _ _ _ storage _ => pure (some storage)
  | v => v.refuse .storage

/-- Generic equality, which spans and instants have. -/
def equals (v w : Value) : Outcome Bool :=
  match v, w with
  | absent, _ => absent.refuse .equals
  | hidden type, _ => (hidden type).refuse .equals
  | _, absent => absent.refuse .equals
  | _, hidden type => (hidden type).refuse .equals
  | v, w =>
    if v.identity? != w.identity? then pure false
    else match v, w with
      | scalar (.span _ _ m), scalar (.span _ _ n) => pure (m.equal n)
      | scalar (.instant _ _ m), scalar (.instant _ _ n) => pure (m.equal n)
      | v, _ => v.refuse .equal

/-- Generic rendering, which spans and instants have. -/
def render [Host] : Value → Outcome Text
  | scalar (.span type period count) => Outcome.ofFormatted (Host.spanText type period count)
  | scalar (.instant type period count) =>
    Outcome.ofFormatted (Host.instantText type period count)
  | v => v.refuse .render

end Value

end Discrepancy
