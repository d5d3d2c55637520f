import Discrepancy.Compare.Comparison

/-!
# Sample checkers

Checkers of the kinds that programs register: without a rule, with a fixed answer, with a rule of
their own, and with the rules of the library under further settings.
-/

namespace Discrepancy.Checker

variable [Host]

/-- Has no rule; to consult it is a fault. -/
def empty : Checker :=
  fun _ _ _ ↦ .fail .emptyChecker

def accept : Checker :=
  fun _ _ _ ↦ pure none

/-- Finds no values equal, and renders them in a notice. -/
def reject (header : Text) : Checker :=
  fun want found situation ↦ do
    let wantText ← situation.rendering.any want
    let foundText ← situation.rendering.any found
    let notice : Notice := { header := header, trail := situation.trail }
    pure (some ⟨[(notice.want wantText).found foundText]⟩)

/-- Finds no values equal, and says nothing about them. -/
def rejectBare (header : Text) : Checker :=
  fun _ _ _ ↦ pure (some ⟨[{ header := header }]⟩)

/-- Finds no values equal, and gives a number of notices for the elements below. -/
def rejectMany (count : Nat) : Checker :=
  fun _ _ situation ↦ pure (some ⟨(List.range count).map fun i ↦
    { header := "#" ++ Text.ofNat i, trail := Trail.extend situation.trail (.index i) }⟩)

def sameLength : Checker :=
  fun want found situation ↦ do
    let wantLength ← want.len
    let foundLength ← found.len
    if wantLength == foundLength then pure none
    else pure (some ⟨[← Comparison.mismatch want found situation.toContext]⟩)

/-- Finds no values equal, and tells what it is told. -/
def tell : Checker :=
  fun want _ situation ↦ pure (some ⟨[{
    header := "state"
    rows := [⟨"type", want.typeName⟩, ⟨"trail", situation.trail⟩,
      ⟨"skips", Text.ofNat situation.skipTrails.length⟩,
      ⟨"unexported", if situation.skipHidden then "yes" else "no"⟩,
      ⟨"trails", Text.ofNat situation.checkedTrails.length⟩,
      ⟨"types", Text.ofNat situation.checkedTypes.length⟩] }]⟩)

/-- Compares by the rules of the library, without checkers and with further settings. -/
def descend (settings : List Setting) : Checker :=
  fun want found situation ↦ do
    let ops ← Options.configure { toContext := situation.toContext } settings
    pure (Report.ofNotices? (← Comparison.compare want found ops))

end Discrepancy.Checker
