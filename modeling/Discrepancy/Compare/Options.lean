import Discrepancy.Notice
import Discrepancy.Render.Rendering

/-!
# Options

Options steer a comparison: where it starts, what it skips, how it renders values in notices, and
which checkers take the place of its own rules.  A checker sees the values at some location and
the options which hold there, save that it cannot call the other checkers; it knows what they are
registered for.

A trail names a location inside a compared value, as in `Items[1].Tags["a"]`.  The trail of the
value itself is empty.  Trails are extended on the way down and never changed otherwise.
-/

namespace Discrepancy

/-- A step from a value to one of its parts.  Keys are given by their labels. -/
inductive Step where
  | field (name : Text)
  | index (i : Nat)
  | key (label : Text)
  deriving DecidableEq

namespace Trail

/-- The trail of a part. -/
def extend (base : Text) : Step → Text
  | .field name => if base.isEmpty then name else base ++ "." ++ name
  | .index i => base ++ "[" ++ Text.ofNat i ++ "]"
  | .key label => base ++ "[" ++ label ++ "]"

end Trail

/-- The options that hold at a location, without the checkers. -/
structure Context where
  /-- The location of the values which are compared. -/
  trail : Text := []
  /-- The trails which are not compared. -/
  skipTrails : List Text := []
  /-- Whether hidden values count as equal. -/
  skipHidden : Bool := false
  /-- How notices render values. -/
  rendering : Rendering := {}
  /-- The log which visits enter, if one is kept. -/
  log? : Option Identity := none

/-- Whether visits enter a log. -/
def Context.recorded (context : Context) : Bool :=
  context.log?.isSome

/-- A context, with the trails and the types for which checkers are registered. -/
structure Situation extends Context where
  checkedTrails : List Text := []
  checkedTypes : List Ty := []

/-- Compares the values at a location; no report means that they are equal. -/
abbrev Checker := Value → Value → Situation → Outcome (Option Report)

structure Options extends Context where
  /-- Checkers under the trails at which they are consulted. -/
  trailCheckers : List (Text × Checker) := []
  /-- Checkers under the identities of the types for which they are consulted. -/
  typeCheckers : List (Ty × Checker) := []

namespace Options

/-- What a checker sees of the options. -/
def situation (ops : Options) : Situation :=
  { toContext := ops.toContext
    checkedTrails := ops.trailCheckers.map Prod.fst
    checkedTypes := ops.typeCheckers.map Prod.fst }

def moveTo (ops : Options) (trail : Text) : Options :=
  { ops with trail := trail }

def below (ops : Options) (step : Step) : Options :=
  ops.moveTo (Trail.extend ops.trail step)

def isSkipped (ops : Options) : Bool :=
  ops.skipTrails.contains ops.trail

/-- Notes the visit of the location.  The start of a comparison at the empty trail is no visit. -/
def visit (ops : Options) (skipped : Bool) : Outcome Unit :=
  if ops.trail.isEmpty then pure () else Outcome.emit (.visited ops.trail skipped ops.log?)

def assign {κ α : Type} [BEq κ] (key : κ) (a : α) (table : List (κ × α)) : List (κ × α) :=
  (key, a) :: table.filter fun entry ↦ entry.1 != key

end Options

inductive Setting where
  /-- Does not compare what lies at a trail. -/
  | skipTrail (trail : Text)
  /-- Does not compare what lies one step below the start. -/
  | skipBelow (step : Step)
  | skipHidden
  | trailChecker (trail : Text) (checker : Checker)
  | typeChecker (type : Ty) (checker : Checker)
  | startAt (trail : Text)
  /-- Keeps visited trails in a log. -/
  | record (log : Identity := 0)
  | rendering (settings : List RenderSetting)
  /-- Takes other options instead. -/
  | replaceBy (ops : Options)

namespace Setting

def apply (ops : Options) : Setting → Outcome Options
  | skipTrail trail => pure { ops with skipTrails := ops.skipTrails ++ [trail] }
  | skipBelow step =>
    pure { ops with skipTrails := ops.skipTrails ++ [Trail.extend ops.trail step] }
  | skipHidden => pure { ops with skipHidden := true }
  | trailChecker trail checker =>
    pure { ops with trailCheckers := Options.assign trail checker ops.trailCheckers }
  | typeChecker type checker =>
    pure { ops with typeCheckers := Options.assign type.identity checker ops.typeCheckers }
  | startAt trail => pure { ops with trail := trail }
  | record log => pure { ops with log? := some log }
  | rendering settings => do
    let rendering ← ops.rendering.configure settings
    pure { ops with rendering := rendering }
  | replaceBy other => pure other

end Setting

def Options.configure (ops : Options) (settings : List Setting) : Outcome Options :=
  settings.foldlM Setting.apply ops

end Discrepancy
