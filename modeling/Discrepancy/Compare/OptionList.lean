import Discrepancy.Compare.Options

/-!
# Option lists

Options can be written as a text: entries between commas, with blanks around them.  An entry is a
word, or a word and a count with an equals sign between them, where the case of letters does not
matter.  An entry that is nothing of the kind is reported and left out.
-/

namespace Discrepancy.OptionList

def countLimit : Int := 2147483647

/-- A count: decimal digits alone, or minus zero, up to the limit. -/
def count? (t : Text) : Option Nat :=
  match Text.int? t with
  | some n => if 0 ≤ n && n ≤ countLimit then some n.toNat else none
  | none => none

/-- The name of an entry, and its argument if there is an equals sign. -/
def split (entry : Text) : Text × Option Text :=
  let (name, rest) := entry.span fun b ↦ b != Text.byte '='
  match rest with
  | [] => (Text.trim name, none)
  | _ :: argument => (Text.trim name, some (Text.trim argument))

def wordSetting? (name : Text) : Option Setting :=
  if name.equalIgnoringCase "skip_unexported" then some .skipHidden
  else if name.equalIgnoringCase "flat" then some (.rendering [.flat])
  else if name.equalIgnoringCase "show_addresses" then some (.rendering [.addresses])
  else none

def countSetting? (name : Text) (count : Nat) : Option Setting :=
  if name.equalIgnoringCase "indent" then some (.rendering [.indent count])
  else if name.equalIgnoringCase "flatten_strings" then some (.rendering [.quoteUpTo count])
  else if name.equalIgnoringCase "tab_width" then some (.rendering [.tabWidth count])
  else none

def setting? (entry : Text) : Option Setting :=
  match split entry with
  | (name, none) => wordSetting? name
  | (name, some argument) => (count? argument).bind (countSetting? name)

/-- The settings of some entries; those that are none are reported. -/
def readEntries : List Text → Outcome (List Setting)
  | [] => pure []
  | entry :: rest => do
    match setting? entry with
    | some setting => pure (setting :: (← readEntries rest))
    | none => do
      Outcome.emit (.unknownEntry entry)
      readEntries rest

/-- The settings which a text lists. -/
def read (t : Text) : Outcome (List Setting) :=
  readEntries (Text.pieces (Text.byte ',') t)

def readEnvironment : Option Text → Outcome (List Setting)
  | none => pure []
  | some entries => do
    Outcome.emit (.environment entries)
    read entries

end Discrepancy.OptionList

namespace Discrepancy

/-- The options of a comparison: those of the environment first, then those of the caller. -/
def Options.default (environment : Option Text) (settings : List Setting) : Outcome Options := do
  let fromEnvironment ← OptionList.readEnvironment environment
  let ops ← Options.configure {} fromEnvironment
  ops.configure settings

end Discrepancy
