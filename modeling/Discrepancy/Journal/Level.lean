import Discrepancy.Text

/-!
# Levels of the journal

Messages and the journals which receive them have a level.  A message is kept when it is at least
as severe as its journal asks for.
-/

namespace Discrepancy.Journal

/-- The levels, most severe first. -/
inductive Level where
  | fatal | error | warning | info | debug | trace
  deriving DecidableEq

namespace Level

/-- The number of a level, zero for the most severe one. -/
def number : Level → Nat
  | fatal => 0
  | error => 1
  | warning => 2
  | info => 3
  | debug => 4
  | trace => 5

/-- The label under which messages of a level are kept. -/
def label : Level → Text
  | fatal => "critical"
  | error => "error"
  | warning => "warning"
  | info => "info"
  | debug => "debug"
  | trace => "trace"

/-- Whether a journal with this level keeps a message. -/
def admits (level message : Level) : Bool :=
  message.number ≤ level.number

/-- The level with a name in letters of either case; a name that is none means `info`. -/
def ofName (name : Text) : Level :=
  if name.equalIgnoringCase "fatal" then fatal
  else if name.equalIgnoringCase "error" then error
  else if name.equalIgnoringCase "warning" then warning
  else if name.equalIgnoringCase "debug" then debug
  else if name.equalIgnoringCase "trace" then trace
  else info

end Level

/-- The journals: one for each part of the library, and one for everything else. -/
inductive Channel where
  | check | dump | default
  deriving DecidableEq

def Channel.name : Channel → Text
  | check => "Check"
  | dump => "Dump"
  | default => "default"

structure Message where
  level : Level
  channel : Channel
  text : Text
  deriving DecidableEq

end Discrepancy.Journal
