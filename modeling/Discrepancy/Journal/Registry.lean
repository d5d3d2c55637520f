import Discrepancy.Event

/-!
# Journal registry

The journals of the library, with the levels that were asked for.  Levels outlive the journals:
closing the registry drops these, and opening it again, which the first message does by itself,
makes new ones and gives each the level it is to have.

A level can be asked for all journals, which forgets what was asked for single ones before.

The parts of the library hold on to their journals, so that not every message has to look one up.
What they hold is a handle: it stays with the journal it was taken for, whether that one is still
registered or not.
-/

namespace Discrepancy.Journal

/-- A journal: its level, and the number of places it is written to. -/
structure Logger where
  level : Level
  sinks : Nat
  deriving DecidableEq

/-- Refers to the journal which one opening of the registry made for a channel. -/
structure Handle where
  opening : Nat
  channel : Channel
  deriving DecidableEq

/-- The state of the journals. -/
structure Registry where
  /-- The level of all journals for which nothing else was asked. -/
  globalLevel : Level := .warning
  /-- The levels asked for single journals, by name. -/
  ownLevels : List (Text × Level) := []
  /-- Whether journals are registered. -/
  isOpen : Bool := false
  /-- How often journals were made; the last ones are those that may be registered. -/
  openings : Nat := 0
  /-- The journals that were made, registered or not. -/
  journals : Handle → Logger := fun _ ↦ ⟨.info, 0⟩
  /-- What the parts of the library hold on to. -/
  held : Channel → Option Handle := fun _ ↦ none
  /-- The pattern of the lines which are written. -/
  pattern : Text := []
  /-- The file which is written beside the console, if the name is not empty. -/
  file : Text := []

namespace Registry

/-- The level which a journal is to have. -/
def levelOf (r : Registry) (name : Text) : Level :=
  (r.ownLevels.lookup name).getD r.globalLevel

def registered? (r : Registry) (channel : Channel) : Option Handle :=
  if r.isOpen then some ⟨r.openings, channel⟩ else none

/-- The open journals, if they are open. -/
def loggers (r : Registry) : Option (Channel → Logger) :=
  if r.isOpen then some fun channel ↦ r.journals ⟨r.openings, channel⟩ else none

def timestamp : Text := "%Y-%m-%dT%H:%M:%S.%e "

def lineBody : Text := "[%^%n %l%$] %v"

/-- Gives another level to those registered journals that are selected. -/
def relevel (selected : Channel → Bool) (level : Level) (r : Registry) : Registry :=
  { r with journals := fun handle ↦
      if r.registered? handle.channel == some handle && selected handle.channel then
        { r.journals handle with level := level }
      else r.journals handle }

/-- Gives another level to the registered journal with a name. -/
def relevelNamed (r : Registry) (entry : Text × Level) : Registry :=
  r.relevel (fun channel ↦ channel.name == entry.1) entry.2

/-- Makes new journals and registers them.  They all start at one level, and with some pattern. -/
def register (r : Registry) : Registry :=
  let sinks := if r.file.isEmpty then 1 else 2
  { r with
    isOpen := true
    openings := r.openings + 1
    journals := fun handle ↦
      if handle.opening == r.openings + 1 then ⟨.info, sinks⟩ else r.journals handle
    pattern := if r.pattern.isEmpty then timestamp ++ lineBody else r.pattern }

/-- Opens the journals anew, and gives each of them the level it is to have. -/
def renew (r : Registry) : Registry :=
  r.ownLevels.foldl relevelNamed (r.register.relevel (fun _ ↦ true) r.globalLevel)

/-- Opens the journals, unless they are open.  It takes a file that can be written, where there is
one. -/
def open? (opens : Text → Bool) (r : Registry) : Except Fault Registry :=
  if r.isOpen then .ok r
  else if !r.file.isEmpty && !opens r.file then .error (.unopenable r.file)
  else .ok r.renew

def close (r : Registry) : Registry :=
  if r.isOpen then { r with isOpen := false, held := fun _ ↦ none } else r

/-- Opens the journals where that needs no other file than before; a file that cannot be written
leaves them closed. -/
def reopen (opens : Text → Bool) (r : Registry) : Registry :=
  match r.open? opens with
  | .ok opened => opened
  | .error _ => r

def setFormat (opens : Text → Bool) (r : Registry) (label : Text) (timestamps : Bool) : Registry :=
  let r := r.reopen opens
  { r with pattern := (if timestamps then timestamp else []) ++ label ++ " " ++ lineBody }

/-- Writes to another file from now on.  If it cannot be written, the journals go to the console
alone, and the fault is reported. -/
def setFile (opens : Text → Bool) (r : Registry) (file : Text) : Registry × Except Fault Unit :=
  let r := { r with file := file }.close
  match r.open? opens with
  | .ok opened => (opened, .ok ())
  | .error fault => ({ r with file := [] }.close.reopen opens, .error fault)

/-- The registry when a level was asked for one journal, in the place of the one before. -/
def ask (r : Registry) (name : Text) (level : Level) : Registry :=
  { r with ownLevels := (name, level) :: r.ownLevels.filter fun entry ↦ entry.1 != name }

def askAll (r : Registry) (level : Level) : Registry :=
  { r with globalLevel := level, ownLevels := [] }

/-- Asks for a level of one journal, or of all, opens the journals, and gives the level to those
which it was asked for. -/
def setLevel (opens : Text → Bool) (r : Registry) (level : Level) : Option Text → Registry
  | some name => ((r.ask name level).reopen opens).relevelNamed (name, level)
  | none => ((r.askAll level).reopen opens).relevel (fun _ ↦ true) level

/-- The journal of a part of the library: the one which is held, or else the registered one, which
is held from now on. -/
def hold (opens : Text → Bool) (r : Registry) (channel : Channel) : Registry × Option Handle :=
  match r.held channel with
  | some handle => (r, some handle)
  | none =>
    let r := r.reopen opens
    let found := r.registered? channel
    ({ r with held := fun other ↦ if other == channel then found else r.held other }, found)

/-- Gives a message to its journal, which keeps it or not.  A message for a part of the library
opens the journals; one for everything else is lost where they are closed. -/
def write (opens : Text → Bool) (r : Registry) (message : Message) : Registry × Bool :=
  let (r, found) :=
    if message.channel == .default then (r, r.registered? .default)
    else r.hold opens message.channel
  (r, match found with
    | none => false
    | some handle => (r.journals handle).level.admits message.level)

def kept (opens : Text → Bool) (r : Registry) : List Message → List Message
  | [] => []
  | message :: rest =>
    let (r, keeps) := r.write opens message
    if keeps then message :: kept opens r rest else kept opens r rest

end Registry

end Discrepancy.Journal
