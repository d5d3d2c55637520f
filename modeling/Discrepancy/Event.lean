import Discrepancy.Fault
import Discrepancy.Journal.Level
import Discrepancy.Render.Style
import Discrepancy.Ty.Symbol
import Discrepancy.Value

/-!
# Events

What a computation does besides yielding its result: the locations which a comparison visits, and
the occasions worth a message.  An event carries what happened; the wording of its message, with
the journal and the level it goes to, stands in `Event.message` alone.
-/

namespace Discrepancy

/-- Something that happened on the way to a result. -/
inductive Event where
  /-- A comparison arrived at a trail.  The visit enters a trail log where one is kept. -/
  | visited (trail : Text) (skipped : Bool) (log? : Option Identity)
  /-- A custom renderer was chosen. -/
  | customRenderer (type : Text)
  /-- A shape was asked to render a value of another kind. -/
  | misusedShape (shape : Shape) (type : Text) (kind : Kind)
  /-- A renderer without a rule was registered for a type. -/
  | emptyRenderer (type : Ty)
  /-- The options of the environment were taken up. -/
  | environment (entries : Text)
  /-- An entry of an option list was not understood. -/
  | unknownEntry (entry : Text)
  /-- An assertion failed. -/
  | violated (assertion : Assertion)

def environmentVariable : Text := "DEEPCHECK_OPTIONS"

namespace Event

/-- A trail as it is logged, with a mark when the comparison stopped there unseen. -/
def logEntry (trail : Text) (skipped : Bool) : Text :=
  if skipped then trail ++ " <skipped>" else trail

def message : Event → Journal.Message
  | visited trail skipped _ => ⟨.trace, .check, "Visiting " ++ logEntry trail skipped⟩
  | customRenderer type => ⟨.trace, .dump, "Custom renderer for " ++ type⟩
  | misusedShape shape type kind =>
    ⟨.debug, .dump, shape.name ++ " called with a " ++ type ++ " value of kind " ++ kind.name⟩
  | emptyRenderer type =>
    ⟨.warning, .dump, "Ignoring empty renderer for type '" ++ type.symbol ++ "'"⟩
  | environment entries =>
    ⟨.debug, .check, "Applying " ++ environmentVariable ++ "='" ++ entries ++ "'"⟩
  | unknownEntry entry =>
    ⟨.warning, .check, "Ignoring unknown " ++ environmentVariable ++ " entry: '" ++ entry ++ "'"⟩
  | violated assertion => ⟨.error, .default, assertion.text⟩

/-- The entry which an event makes in a trail log. -/
def trailEntry? (log : Identity) : Event → Option Text
  | visited trail skipped log? => if log? = some log then some (logEntry trail skipped) else none
  | _ => none

end Event

end Discrepancy
