import Discrepancy.Text.Utf8

/-!
# Notices

A notice tells of one mismatch: a header, the trail of the place, and named rows.  Its text starts
every row on a line of its own, with the names flush right, and continues the lines of a row under
the first one.

A report is the list of notices which a comparison that failed gives, in the order in which they
were found.
-/

namespace Discrepancy

structure Row where
  name : Text
  value : Text
  deriving DecidableEq

/-- A mismatch. -/
structure Notice where
  header : Text
  trail : Text := []
  rows : List Row := []
  deriving DecidableEq

namespace Notice

/-- Gives the first row of a name another value, or adds a row where there is none. -/
def setRowIn (name value : Text) : List Row → List Row
  | [] => [⟨name, value⟩]
  | row :: rest =>
    if row.name == name then ⟨name, value⟩ :: rest else row :: setRowIn name value rest

def setRow (n : Notice) (name value : Text) : Notice :=
  { n with rows := setRowIn name value n.rows }

def want (n : Notice) (value : Text) : Notice :=
  n.setRow "want" value

def found (n : Notice) (value : Text) : Notice :=
  n.setRow "have" value

def append (n : Notice) (name value : Text) : Notice :=
  { n with rows := n.rows ++ [⟨name, value⟩] }

def prepend (n : Notice) (name value : Text) : Notice :=
  { n with rows := ⟨name, value⟩ :: n.rows }

def row? (n : Notice) (name : Text) : Option Text :=
  (n.rows.find? fun row ↦ row.name == name).map Row.value

/-- The rows which are written: the trail, if it is not empty, comes first. -/
def shownRows (n : Notice) : List Row :=
  if n.trail.isEmpty then n.rows else ⟨"trail", n.trail⟩ :: n.rows

def nameWidth (rows : List Row) : Nat :=
  rows.foldl (fun width row ↦ max width row.name.length) 0

/-- A value with its further lines moved under the first one. -/
def hang (width : Nat) (value : Text) : Text :=
  value.flatMap fun b ↦
    if b == Text.byte '\n' then Text.byte '\n' :: Text.spaces (width + 4) else [b]

def rowText (width : Nat) (row : Row) : Text :=
  "\n  " ++ Text.padLeft width row.name ++ ": " ++ hang width row.value

def text (n : Notice) : Text :=
  let rows := n.shownRows
  if rows.isEmpty then n.header
  else n.header ++ ":" ++ rows.flatMap (rowText (nameWidth rows))

end Notice

/-- The notices of a comparison that failed. -/
structure Report where
  notices : List Notice
  deriving DecidableEq

namespace Report

def ofNotices? (notices : List Notice) : Option Report :=
  if notices.isEmpty then none else some ⟨notices⟩

/-- The notices of a report, none without one. -/
def noticesOf : Option Report → List Notice
  | none => []
  | some report => report.notices

def appendText (message : Text) (n : Notice) : Text :=
  if message.isEmpty then n.text else message ++ "\n" ++ n.text

/-- The texts of the notices, one below the other. -/
def message (report : Report) : Text :=
  report.notices.foldl appendText []

end Report

end Discrepancy
