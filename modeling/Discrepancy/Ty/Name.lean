import Discrepancy.Ty

/-!
# Type names

The name of a type as it stands in reports.  A qualifier follows what it qualifies.  All borrowed
strings are displayed alike; a spelling tells them apart, so that a type can be asked for.  Nothing
is shown for `volatile`, and fractions are shown in lowest terms.
-/

namespace Discrepancy

def IntegerTy.name : IntegerTy → Text
  | char => "char"
  | signedChar => "signed char"
  | unsignedChar => "unsigned char"
  | wideChar => "wchar_t"
  | char16 => "char16_t"
  | char32 => "char32_t"
  | short => "short"
  | unsignedShort => "unsigned short"
  | int => "int"
  | unsignedInt => "unsigned int"
  | long => "long"
  | unsignedLong => "unsigned long"
  | longLong => "long long"
  | unsignedLongLong => "unsigned long long"

def FloatTy.name : FloatTy → Text
  | single => "float"
  | double => "double"
  | extended => "long double"

def StringTy.name : StringTy → Text
  | owned => "std::string"
  | view => "std::string_view"
  | _ => "char const*"

def StringTy.spelling : StringTy → Text
  | mutablePointer => "char*"
  | buffer size => "char[" ++ Text.ofNat size ++ "]"
  | t => t.name

namespace Ty

/-- The names of the periods which have one, for counts of type `long`. -/
def periodNames : List (Period × Text) :=
  [(⟨1, 1000000000⟩, "std::chrono::nanoseconds"), (⟨1, 1000000⟩, "std::chrono::microseconds"),
    (⟨1, 1000⟩, "std::chrono::milliseconds"), (⟨1, 1⟩, "std::chrono::seconds"),
    (⟨60, 1⟩, "std::chrono::minutes"), (⟨3600, 1⟩, "std::chrono::hours")]

/-- The name which a span of time has of its own, if its count and its period are those of one. -/
def ownSpanName? (count : AtomTy) (period : Period) : Option Text :=
  if count == .integer .long then periodNames.lookup period else none

def spanName (count : AtomTy) (countName : Text) (period : Period) : Text :=
  match ownSpanName? count period with
  | some name => name
  | none => "std::chrono::duration<" ++ countName ++ ", std::ratio<" ++
      Text.ofNat period.reduced.num ++ ", " ++ Text.ofNat period.reduced.den ++ ">>"

/-- The instants of the clock of the system have a name of their own. -/
def isClockInstant (count : AtomTy) (period : Period) : Bool :=
  count == .integer .long && period == ⟨1, 1000000000⟩

def instantName (count : AtomTy) (countName : Text) (period : Period) : Text :=
  if isClockInstant count period then "std::chrono::system_clock::time_point"
  else "std::chrono::time_point<std::chrono::system_clock, " ++ spanName count countName period ++
    ">"

/-- The name of an atom, with string types named by `string`. -/
def atomName (string : StringTy → Text) : AtomTy → Text
  | .void => "void"
  | .unit => "std::monostate"
  | .bool => "bool"
  | .integer t => t.name
  | .float t => t.name
  | .complex t => "std::complex<" ++ t.name ++ ">"
  | .string t => string t
  | .span count period => spanName count (atomName string count) period
  | .instant count period => instantName count (atomName string count) period
  | .named name _ => name

def pointerName (target : Text) : PointerForm → Text
  | .raw => target ++ "*"
  | .shared => "std::shared_ptr<" ++ target ++ ">"
  | .unique => "std::unique_ptr<" ++ target ++ ">"
  | .optional => "std::optional<" ++ target ++ ">"

def sequenceName (element : Text) : SequenceForm → Text
  | .vector => "std::vector<" ++ element ++ ">"
  | .array size => "std::array<" ++ element ++ ", " ++ Text.ofNat size ++ ">"
  | .inPlace size => element ++ "[" ++ Text.ofNat size ++ "]"

def qualifiedName (name : Text) : Qualifier → Text
  | .constant => name ++ " const"
  | .volatile => name
  | .reference => name ++ "&"
  | .transient => name ++ "&&"

def functionName (form : FunctionForm) (result : Text) (parameters : List Text) : Text :=
  let listed := Text.joinWith ", " parameters
  match form with
  | .plain => result ++ "(*)(" ++ listed ++ ")"
  | .wrapped => "std::function<" ++ result ++ "(" ++ listed ++ ")>"

mutual

/-- The name of a type, with string types named by `string`. -/
def nameWith (string : StringTy → Text) : Ty → Text
  | atom a => atomName string a
  | pointer form t => pointerName (nameWith string t) form
  | sequence form t => sequenceName (nameWith string t) form
  | qualified q t => qualifiedName (nameWith string t) q
  | map form k v =>
    (if form.ordered then "std::map<" else "std::unordered_map<") ++ nameWith string k ++ ", " ++
      nameWith string v ++ ">"
  | variant ts => "std::variant<" ++ Text.joinWith ", " (namesWith string ts) ++ ">"
  | function form result parameters =>
    functionName form (nameWith string result) (namesWith string parameters)
termination_by structural t => t

def namesWith (string : StringTy → Text) : List Ty → List Text
  | [] => []
  | t :: ts => nameWith string t :: namesWith string ts
termination_by structural ts => ts

end

/-- The displayed name of a type. -/
def name (t : Ty) : Text :=
  t.nameWith StringTy.name

/-- The spelling of a type, which tells string types apart. -/
def spelling (t : Ty) : Text :=
  t.nameWith StringTy.spelling

/-- The spellings under which types of one identity can be asked for. -/
def spellings : Ty → List Text
  | atom (.string .pointer) => ["char const*", "char*", "char[6]"]
  | t => [t.spelling]

/-! ## Fixed spellings -/

/-- The integer types, those whose name begins with the name of another one first. -/
def integerHeads : List IntegerTy :=
  [.unsignedLongLong, .unsignedLong, .unsignedShort, .unsignedChar, .unsignedInt, .signedChar,
    .longLong, .char16, .char32, .wideChar, .char, .short, .int, .long]

/-- The floating point types, those whose name begins with the name of another one first. -/
def floatHeads : List FloatTy :=
  [.extended, .double, .single]

/-- The atoms with a fixed spelling. -/
def fixedAtoms : List AtomTy :=
  [.void, .unit, .bool, .string .view, .string .owned,
    .instant (.integer .long) ⟨1, 1000000000⟩] ++
    floatHeads.map .float ++ floatHeads.map .complex ++
    periodNames.map (fun (period, _) ↦ .span (.integer .long) period) ++ integerHeads.map .integer

/-- The atoms with a fixed spelling, under their spellings. -/
def fixedHeads : List (Text × AtomTy) :=
  fixedAtoms.map fun a ↦ (atomName StringTy.spelling a, a)

end Ty

end Discrepancy
