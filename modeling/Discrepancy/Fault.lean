import Discrepancy.Ty.Name

/-!
# Faults

The causes which end a computation without a result.  A fault carries what its message mentions;
the wording stands in `Fault.message` alone.
-/

namespace Discrepancy

/-- The operations by which a value is looked at. -/
inductive Operation where
  | isNil | len | index | elem | fields | keys | lookup
  | boolValue | intValue | uintValue | floatValue | complexValue | stringValue
  | address | storage | equals | equal | render
  deriving DecidableEq

def Operation.name : Operation → Text
  | isNil => "isNil"
  | len => "len"
  | index => "index"
  | elem => "elem"
  | fields => "fields"
  | keys => "keys"
  | lookup => "lookup"
  | boolValue => "boolValue"
  | intValue => "intValue"
  | uintValue => "uintValue"
  | floatValue => "floatValue"
  | complexValue => "complexValue"
  | stringValue => "stringValue"
  | address => "address"
  | storage => "storage"
  | equals => "equals"
  | equal => "equal"
  | render => "render"

/-- The conditions which are asserted where values are taken apart, and those asserted by hand. -/
inductive Assertion where
  /-- The pointer to follow is not nil. -/
  | pointerIsSet
  /-- The index lies inside the sequence. -/
  | indexIsInRange
  /-- Both records have the same number of fields. -/
  | fieldCountsAgree
  /-- A condition stated with its place. -/
  | stated (condition place : Text) (line : Int)
  deriving DecidableEq

def Assertion.text : Assertion → Text
  | pointerIsSet => "ptr != nullptr"
  | indexIsInRange => "i < std::size(c)"
  | fieldCountsAgree => "wFields.size() == hFields.size()"
  | stated condition place line => condition ++ " at " ++ place ++ ":" ++ Text.ofInt line

/-- Why a computation ended without a result. -/
inductive Fault where
  /-- The type of the value does not have the operation. -/
  | unsupported (operation : Operation) (type : Text) (kind : Kind)
  /-- There is no value. -/
  | absent (operation : Operation)
  /-- The value cannot be looked at. -/
  | inaccessible (operation : Operation) (type : Text)
  /-- The type of no value was asked for. -/
  | untyped
  /-- A value was asked for as another type than its own. -/
  | wrongType (type wanted : Text)
  /-- A value which cannot be looked at was asked for. -/
  | hiddenCast (type wanted : Text)
  /-- No shape renders the kind. -/
  | unrenderable (type : Text) (kind : Kind)
  /-- The formatting library refused a value. -/
  | unformattable (message : Text)
  /-- A condition does not hold. -/
  | violated (assertion : Assertion)
  /-- A checker without a rule was consulted. -/
  | emptyChecker
  /-- The file of a journal cannot be opened. -/
  | unopenable (file : Text)
  deriving DecidableEq

inductive Fault.Category where
  | invalidArgument
  | logicError
  | runtimeError
  | badCall
  deriving DecidableEq

def Fault.category : Fault → Fault.Category
  | unsupported .. | absent _ | inaccessible .. | untyped | unrenderable .. => .logicError
  | wrongType .. | hiddenCast .. => .invalidArgument
  | unformattable _ | violated _ | unopenable _ => .runtimeError
  | emptyChecker => .badCall

def Fault.message : Fault → Text
  | unsupported operation type kind =>
    operation.name ++ " is not supported by " ++ type ++ " (" ++ kind.name ++ ")"
  | absent operation => operation.name ++ " called on an invalid value"
  | inaccessible operation type =>
    operation.name ++ " called on an inaccessible " ++ type ++ " value"
  | untyped => "an invalid value has no type"
  | wrongType type wanted => "cannot access " ++ type ++ " value as " ++ wanted
  | hiddenCast type wanted => "cannot access inaccessible " ++ type ++ " value as " ++ wanted
  | unrenderable type kind => "no renderer for " ++ type ++ " (" ++ kind.name ++ ")"
  | unformattable message => message
  | violated assertion => assertion.text
  | emptyChecker => ""
  | unopenable file => "Could not open log file " ++ file ++ ", check access rights"

end Discrepancy
