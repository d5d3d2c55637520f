import Discrepancy.Sample.Host

/-!
# Types and their spellings

Records, channels, interfaces and sealed types are known by name.  The catalogue lists the names
together with their kinds, and the fields of the records in declaration order.  A field is hidden
when its record does not let it be read; such a field keeps its place, and nothing but its type is
ever known.

A type is read from its spelling: a head, which is an atom or a bracketed form, followed by
qualifiers, pointer stars, array sizes and parameter lists.  Heads are tried longest first, so that
`long double` is not taken for `long`.  Names that the language of types does not fix, those of
records and channels for instance, are handed in.
-/

namespace Discrepancy

namespace Ty

def after (expected t : Text) : Option Text :=
  if expected.isPrefixOf t then some (t.drop expected.length) else none

/-- The first head with which a text begins, and what follows it. -/
def readHead (heads : List (Text × AtomTy)) (t : Text) : Option (Ty × Text) :=
  heads.findSome? fun (name, a) ↦ (after name t).map fun rest ↦ (atom a, rest)

def readNat (t : Text) : Option (Nat × Text) :=
  let (digits, rest) := t.span fun b ↦ (Text.digit? b).isSome
  (Text.nat? digits).map fun n ↦ (n, rest)

def readInteger (t : Text) : Option (IntegerTy × Text) :=
  integerHeads.findSome? fun i ↦ (after i.name t).map fun rest ↦ (i, rest)

def readSpan (t : Text) : Option ((IntegerTy × Period) × Text) :=
  match periodNames.findSome?
      (fun (period, name) ↦ (after name t).map fun rest ↦ (period, rest)) with
  | some (period, rest) => some ((.long, period), rest)
  | none => do
    let (count, t) ← readInteger (← after "std::chrono::duration<" t)
    let (num, t) ← readNat (← after ", std::ratio<" t)
    let (den, t) ← readNat (← after ", " t)
    let t ← after ">>" t
    some ((count, ⟨num, den⟩), t)

mutual

/-- Reads a type within a number of steps. -/
def readWithin (heads : List (Text × AtomTy)) : Nat → Text → Option (Ty × Text)
  | 0, _ => none
  | steps + 1, t => do
    let (head, rest) ← readFormed heads steps t
    readSuffixes heads steps head rest

/-- Reads a type without its qualifiers, stars, sizes and parameters. -/
def readFormed (heads : List (Text × AtomTy)) : Nat → Text → Option (Ty × Text)
  | 0, _ => none
  | steps + 1, t =>
    let one (opening : Text) (form : Ty → Ty) : Option (Ty × Text) := do
      let (inner, rest) ← readWithin heads steps (← after opening t)
      some (form inner, ← after ">" rest)
    let keyed (opening : Text) (form : MapForm) : Option (Ty × Text) := do
      let (key, rest) ← readWithin heads steps (← after opening t)
      let (mapped, rest) ← readWithin heads steps (← after ", " rest)
      some (map form key mapped, ← after ">" rest)
    let sized : Option (Ty × Text) := do
      let (inner, rest) ← readWithin heads steps (← after "std::array<" t)
      let (size, rest) ← readNat (← after ", " rest)
      some (sequence (.array size) inner, ← after ">" rest)
    let choice : Option (Ty × Text) := do
      let (alternatives, rest) ← readList heads steps (← after "std::variant<" t)
      some (variant alternatives, ← after ">" rest)
    let wrapped : Option (Ty × Text) := do
      let (result, rest) ← readWithin heads steps (← after "std::function<" t)
      let (parameters, rest) ← readList heads steps (← after "(" rest)
      some (function .wrapped result parameters, ← after ")>" rest)
    let span : Option (Ty × Text) :=
      (readSpan t).map fun ((count, period), rest) ↦ (atom (.span (.integer count) period), rest)
    let instant : Option (Ty × Text) := do
      let opening ← after "std::chrono::time_point<std::chrono::system_clock, " t
      let ((count, period), rest) ← readSpan opening
      some (atom (.instant (.integer count) period), ← after ">" rest)
    one "std::shared_ptr<" (pointer .shared) <|> one "std::unique_ptr<" (pointer .unique) <|>
      one "std::optional<" (pointer .optional) <|> one "std::vector<" (sequence .vector) <|>
      keyed "std::map<" .sorted <|> keyed "std::unordered_map<" .hashed <|> sized <|> choice <|>
      wrapped <|> span <|> instant <|> readHead heads t

/-- Reads what may follow a type. -/
def readSuffixes (heads : List (Text × AtomTy)) : Nat → Ty → Text → Option (Ty × Text)
  | 0, head, t => some (head, t)
  | steps + 1, head, t =>
    match after " const" t with
    | some rest => readSuffixes heads steps (qualified .constant head) rest
    | none =>
      match after "&&" t with
      | some rest => readSuffixes heads steps (qualified .transient head) rest
      | none =>
        match after "&" t with
        | some rest => readSuffixes heads steps (qualified .reference head) rest
        | none =>
          match after "*" t with
          | some rest => readSuffixes heads steps (pointerTo head) rest
          | none =>
            match after "(*)(" t with
            | some rest =>
              match readList heads steps rest with
              | some (parameters, rest) =>
                match after ")" rest with
                | some rest => readSuffixes heads steps (function .plain head parameters) rest
                | none => none
              | none => none
            | none =>
              match after "[" t with
              | some rest =>
                match readNat rest with
                | some (size, rest) =>
                  match after "]" rest with
                  | some rest => readSuffixes heads steps (inPlaceOf size head) rest
                  | none => none
                | none => none
              | none => some (head, t)

/-- Reads types between commas, perhaps none at all. -/
def readList (heads : List (Text × AtomTy)) : Nat → Text → Option (List Ty × Text)
  | 0, _ => none
  | steps + 1, t =>
    match readWithin heads steps t with
    | none => some ([], t)
    | some (first, rest) =>
      match after ", " rest with
      | none => some ([first], rest)
      | some rest => (readList heads steps rest).map fun (others, rest) ↦ (first :: others, rest)

end

/-- The type with a spelling, where `named` lists the names which the program declares. -/
def ofSpelling? (named : List (Text × Kind)) (t : Text) : Option Ty :=
  let heads := fixedHeads ++ named.map fun (name, kind) ↦ (name, .named name kind)
  match readWithin heads (2 * t.length + 2) t with
  | some (type, []) => some type
  | _ => none

end Ty

/-! ## The catalogue -/

structure FieldDecl where
  name : Text
  type : Ty
  isHidden : Bool := false

structure RecordDecl where
  name : Text
  fields : List FieldDecl

/-- The names with a meaning that the language of types does not fix. -/
structure Catalogue where
  records : List RecordDecl
  /-- Records whose fields are given with each value. -/
  openRecords : List Text
  channels : List Text
  /-- Interfaces that wrap a value of any type. -/
  boxes : List Text
  /-- Interfaces that wrap a document. -/
  documents : List Text
  /-- Types of which nothing can be learned, with their kinds. -/
  sealedTypes : List (Text × Kind)
  /-- Records that cannot take the place of another value: a variant stays as it was. -/
  unplaceable : List Text

namespace Catalogue

def kinds (c : Catalogue) : List (Text × Kind) :=
  c.records.map (fun decl ↦ (decl.name, .record)) ++ c.openRecords.map (·, .record) ++
    c.channels.map (·, .chan) ++ c.boxes.map (·, .interface) ++ c.documents.map (·, .interface) ++
    c.sealedTypes

def fields? (c : Catalogue) (name : Text) : Option (List FieldDecl) :=
  (c.records.find? fun decl ↦ decl.name == name).map RecordDecl.fields

def type? (c : Catalogue) (spelling : Text) : Option Ty :=
  Ty.ofSpelling? c.kinds spelling

end Catalogue

namespace Sample

/-! ## Sample records -/

def field (name : Text) (type : Ty) : FieldDecl := { name, type }

def hiddenField (name : Text) (type : Ty) : FieldDecl := { name, type, isHidden := true }

/-- Records which show every kind of field. -/
def records : List RecordDecl :=
  [{ name := "Single", fields := [field "A" int] },
    { name := "Point", fields := [field "X" int, field "Y" int] },
    { name := "Person"
      fields := [field "Name" string, field "Age" int, field "Tags" (vectorOf string),
        field "Scores" (mapTo int),
        field "Home" (.pointer .raw (.qualified .constant (record "Point")))] },
    { name := "Account", fields := [hiddenField "mBalance" int, field "Owner" string] },
    { name := "Node"
      fields := [field "Value" int, field "Next" (.pointer .shared (record "Node"))] },
    { name := "Wrapper"
      fields := [field "Inner" (record "Point"), field "Points" (vectorOf (record "Point"))] },
    { name := "Empty", fields := [] },
    { name := "Thrower", fields := [] },
    { name := "Bomb", fields := [field "Fuse" string] },
    { name := "Vault"
      fields := [hiddenField "key" string, field "Id" string, hiddenField "cache" (vectorOf int),
        hiddenField "at" (record "Point"), field "Items" (vectorOf int)] },
    { name := "Tree"
      fields := [field "Name" string, field "Kids" (vectorOf (record "Tree")),
        field "Attrs" (mapTo (record "Tree"))] },
    { name := "Mixed"
      fields := [field "B" (.atom .bool), field "L" (.atom (.integer .long)),
        field "U" (.atom (.integer .unsignedChar)), field "D" (.atom (.float .double)),
        field "C" (.atom (.complex .double)), field "S" string,
        field "CS" (.atom (.string .pointer)), field "O" (.pointer .optional int),
        field "A" (.sequence (.array 2) int), field "V" (.variant [.atom .unit, int, string]),
        field "F" (.function .plain int []), field "Ch" (.atom (.named "chan int" .chan)),
        field "T" (.atom (.span (.integer .long) ⟨1, 1000⟩))] }]

/-- The sample types, one or more of every sort. -/
def catalogue : Catalogue where
  records := records
  openRecords := ["Dyn"]
  channels := ["chan int", "chan string"]
  boxes := ["Box"]
  documents := ["Json"]
  sealedTypes := [("Opaque", .other), ("Weird", .invalid)]
  unplaceable := ["Thrower"]

end Sample

end Discrepancy
