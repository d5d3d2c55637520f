import Discrepancy.Value.Table
import Discrepancy.Wire.Document
import Discrepancy.Wire.Spelling

/-!
# Literals

A literal is a document read as a value of some type.  Reading a literal makes objects, so that
every part which has an identity gets one of its own.  What is meant to be one object carries a
label: objects of one type under one label are one object, that of the first literal.  Channels
are one by their label as well, and plain functions by their name.

Fields which a literal leaves out have the zero of their type.
-/

namespace Discrepancy

namespace Table

variable [Host] {α : Type}

/-- Puts an entry in front of the first one which does not come before it. -/
def place (rule : KeyRule) (key : Value) (a : α) : List (Value × α) → List (Value × α)
  | [] => [(key, a)]
  | (k, b) :: rest =>
    if rule.less k key then (k, b) :: place rule key a rest else (key, a) :: (k, b) :: rest

/-- The table with one more entry, unless it has one for the key already. -/
def insert (rule : KeyRule) (entries : List (Value × α)) (key : Value) (a : α) :
    List (Value × α) :=
  if (find? rule key entries).isSome then entries
  else if rule.form.ordered then place rule key a entries
  else entries ++ [(key, a)]

/-- The table of some entries, of which the first one counts where keys are equal. -/
def ofEntries (rule : KeyRule) (entries : List (Value × α)) : List (Value × α) :=
  entries.foldl (fun table (key, a) ↦ insert rule table key a) []

end Table

namespace Literal

variable [Host]

/-- The objects which were made so far. -/
structure Objects where
  next : Identity := 0
  /-- Labelled objects, by label and type. -/
  shared : List ((Text × Ty) × (Identity × Value)) := []
  /-- Functions and channels, by sort and name. -/
  known : List ((Text × Text) × Identity) := []

/-- Reads a literal and makes objects. -/
abbrev Build := StateT Objects Option

/-- An identity which nothing else has. -/
def fresh : Build Identity := do
  let objects ← get
  set { objects with next := objects.next + 1 }
  pure objects.next

def identityOf (sort name : Text) : Build Identity := do
  match (← get).known.lookup (sort, name) with
  | some identity => pure identity
  | none => do
    let identity ← fresh
    modify fun objects ↦ { objects with known := ((sort, name), identity) :: objects.known }
    pure identity

/-! ## Zeros -/

def zeroAtom : AtomTy → Document
  | .void | .unit => .null
  | .bool => .bool false
  | .integer _ | .float _ | .span .. | .instant .. => .number "0"
  | .complex _ => .list [.number "0", .number "0"]
  | .string .pointer | .string .mutablePointer => .null
  | .string _ => .text []
  | .named _ .record => .object []
  | .named _ _ => .null

def zero : Ty → Document
  | .atom a => zeroAtom a
  | .pointer .. | .function .. => .null
  | .sequence .. | .map .. => .list []
  | .qualified _ t => zero t
  | .variant [] => .null
  | .variant (t :: _) => .object [("i", .number "0"), ("v", zero t)]

/-! ## Scalars -/

def float? (type : FloatTy) : Document → Option Binary
  | .number numeral => Binary.read? type.format numeral
  | .text t => Binary.read? type.format t
  | _ => none

def content (type : StringTy) (bytes : Text) : Text :=
  let held := match type with
    | .buffer size => bytes.take size
    | _ => bytes
  if type.isBorrowed then held.takeWhile (· != 0) else held

/-- The number of periods of a span or an instant. -/
def count? : AtomTy → Document → Option Binary
  | .integer type, d => d.int?.map fun n ↦ Binary.ofInt (type.wrap n)
  | .float type, d => float? type d
  | _, _ => none

/-- A scalar of an atom, or nothing if the atom has no scalars or the document none of it. -/
def scalar? : AtomTy → Document → Option Scalar
  | .bool, .bool b => some (.bool b)
  | .integer type, d => d.int?.map fun n ↦ .integer type (type.wrap n)
  | .float type, d => (float? type d).map (.float type)
  | .complex type, .list [re, im] => do some (.complex type (← float? type re) (← float? type im))
  | .string type, .null => if type.isBorrowed then some (.string type none) else none
  | .string type, d => d.bytes?.map fun bytes ↦ .string type (some (content type bytes))
  | .span type period, d => (count? type d).map (.span type period)
  | .instant type period, d => (count? type d).map (.instant type period)
  | _, _ => none

/-- A scalar with a place of its own, if it is a borrowed string. -/
def placed (s : Scalar) : Build Scalar :=
  match s with
  | .string type content place => do
    let place ← if type.isBorrowed then fresh else pure place
    pure (.string type content place)
  | s => pure s

/-- A function value: nil, a plain function by name, or a function made on the spot. -/
def function? (form : FunctionForm) (result : Ty) (parameters : List Ty) (d : Document) :
    Build Scalar :=
  match d with
  | .text name => do
    let target ← if name == "lambda" then fresh else identityOf "function" name
    pure (.func form result parameters (some target))
  | .null => pure (.func form result parameters none)
  | _ => failure

def channel? (name : Text) (d : Document) : Build Scalar :=
  match d with
  | .text label => do pure (.chan name (some (← identityOf name label)))
  | .null => pure (.chan name none)
  | _ => failure

/-! ## Values -/

def documentTy (name : Text) : Ty :=
  .atom (.named name .interface)

def isFraction (numeral : Text) : Bool :=
  numeral.any fun b ↦ b == Text.byte '.' || Text.lower b == Text.byte 'e'

/-- The documents at the places of an array: those given, then zeros. -/
def filled (size : Nat) (element : Ty) (items : List Document) : List Document :=
  (items ++ List.replicate (size - items.length) (zero element)).take size

/-- The storage of a sequence.  Nothing is kept for an empty vector or an array of no elements,
but packed truth values and arrays in place always have a place of their own. -/
def storageOf (form : SequenceForm) (element : Ty) (count : Nat) : Build (Option Identity) :=
  let isKept : Bool := match form with
    | .vector => decide (0 < count) || element == .atom .bool
    | .array size => decide (0 < size)
    | .inPlace _ => true
  if isKept then some <$> fresh else pure none

mutual

/-- Reads a document as a value of a type, within a number of steps. -/
def build (c : Catalogue) : (steps : Nat) → Ty → Document → Build Value
  | 0, _, _ => failure
  | steps + 1, type, d =>
    match type with
    | .atom .unit => pure .absent
    | .atom (.named name kind) => buildNamed c steps name kind d
    | .atom a => do pure (.scalar (← placed (← scalar? a d)))
    | .pointer form target => buildPointer c steps form target d
    | .sequence form element => do
      let items ← d.items?
      let items := match form with
        | .vector => items
        | .array size | .inPlace size => filled size element items
      let elements ← items.mapM (build c steps element)
      pure (.sequence form element (← storageOf form element elements.length) elements)
    | .qualified _ t => build c steps t d
    | .map form key mapped => do
      let items ← d.items?
      let entries ← items.mapM fun item ↦
        match item with
        | .list [k, v] => do pure (← build c steps key k, ← build c steps mapped v)
        | _ => failure
      pure (.map { form } key mapped (← fresh) (Table.ofEntries { form } entries))
    | .variant alternatives => buildVariant c steps alternatives d
    | .function form result parameters => do
      pure (.scalar (← function? form result parameters d))

/-- Reads a pointer: nil, a labelled object, or an object of its own. -/
def buildPointer (c : Catalogue) : (steps : Nat) → PointerForm → Ty → Document → Build Value
  | 0, _, _, _ => failure
  | steps + 1, form, target, d =>
    match d with
    | .null => pure (.pointer form target none)
    | d =>
      if form == .optional then do
        let v ← build c steps target.unqualified ((d.field? "some").getD d)
        pure (.pointer form target (some (← fresh, v)))
      else match d.field? "share" with
        | some label => do
          let label ← label.bytes?
          let type := target.unqualified
          match (← get).shared.lookup (label, type) with
          | some object => pure (.pointer form target (some object))
          | none => do
            let v ← build c steps type ((d.field? "v").getD .null)
            let object := (← fresh, v)
            modify fun objects ↦
              { objects with shared := ((label, type), object) :: objects.shared }
            pure (.pointer form target (some object))
        | none => do
          let v ← build c steps target.unqualified d
          pure (.pointer form target (some (← fresh, v)))

/-- Reads a variant by the number of an alternative.  A negative number stands for an alternative
that could not be made: the variant has no value then, or still the first one. -/
def buildVariant (c : Catalogue) : (steps : Nat) → List Ty → Document → Build Value
  | 0, _, _ => failure
  | steps + 1, alternatives, d => do
    let i ← (← d.field? "i").int?
    let place (i : Nat) (v : Document) : Build Value := do
      let alternative ← alternatives[i]?
      pure (.interface (.variant alternatives) (some i) (← build c steps alternative v))
    if 0 ≤ i then place i.toNat ((d.field? "v").getD .null)
    else if alternatives.any fun t ↦ c.unplaceable.any fun name ↦ t == .atom (.named name .record)
    then place 0 ((alternatives.head?.map zero).getD .null)
    else pure (.interface (.variant alternatives) none .absent)

def buildNamed (c : Catalogue) : (steps : Nat) → Text → Kind → Document → Build Value
  | 0, _, _, _ => failure
  | steps + 1, name, kind, d =>
    if kind == .chan then do pure (.scalar (← channel? name d))
    else if c.openRecords.contains name then do
      let items ← d.items?
      let fields ← items.mapM fun item ↦
        match item with
        | .list [n, v] => do pure (← n.bytes?, ← buildTyped c steps v)
        | _ => failure
      pure (.record name fields)
    else if c.boxes.contains name then
      match d with
      | .null => pure (.interface (.named name) none .absent)
      | d => do pure (.interface (.named name) none (← buildTyped c steps d))
    else if c.documents.contains name then do
      pure (.interface (.named name) none (← buildDocument c steps name d))
    else match c.fields? name with
      | none => pure (.scalar (.sealed name kind))
      | some fields => do
        let parts ← fields.mapM fun field ↦ do
          if field.isHidden then pure (field.name, .hidden field.type)
          else do
            let part := (d.field? field.name).getD (zero field.type)
            pure (field.name, ← build c steps field.type part)
        pure (.record name parts)

/-- Reads a document as the value which a document wraps. -/
def buildDocument (c : Catalogue) : (steps : Nat) → Text → Document → Build Value
  | 0, _, _ => failure
  | steps + 1, name, d =>
    match d with
    | .null => pure .absent
    | .bool b => pure (.scalar (.bool b))
    | .number numeral =>
      if isFraction numeral then do pure (.scalar (← scalar? (.float .double) d))
      else do pure (.scalar (← scalar? (.integer .long) d))
    | .text t => pure (.scalar (.string .owned (some t)))
    | .list _ => build c steps (.sequence .vector (documentTy name)) d
    | .object fields =>
      let entries := fields.map fun (key, v) ↦ Document.list [.text key, v]
      build c steps (.map .sorted (.atom (.string .owned)) (documentTy name)) (.list entries)

/-- Reads an object that gives a type and a document, or says that there is no value or none that
can be looked at. -/
def buildTyped (c : Catalogue) : (steps : Nat) → Document → Build Value
  | 0, _ => failure
  | steps + 1, d => do
    let spelling ← (← d.field? "t").bytes?
    if spelling == "nullptr" || spelling == "invalid" then pure .absent
    else do
      let type ← c.type? spelling
      if ((d.field? "hidden").bind Document.bool?).getD false then pure (.hidden type)
      else build c steps type ((d.field? "v").getD .null)

end

mutual

def depth : Document → Nat
  | .list items => 1 + depthOfItems items
  | .object fields => 1 + depthOfFields fields
  | _ => 1
termination_by structural d => d

def depthOfItems : List Document → Nat
  | [] => 0
  | d :: rest => max (depth d) (depthOfItems rest)
termination_by structural items => items

def depthOfFields : List (Text × Document) → Nat
  | [] => 0
  | (_, d) :: rest => max (depth d) (depthOfFields rest)
termination_by structural fields => fields

end

/-- The value of a typed literal.  Between two levels of a document reading goes through a type or
through zeros, for which the steps suffice. -/
def read (c : Catalogue) (d : Document) : Build Value :=
  buildTyped c (32 * (depth d + 2)) d

end Literal

end Discrepancy
