import Discrepancy.Compare.OptionList

/-!
# Comparison

Two values are compared part by part, and every place where they differ gives a notice.  What is
decided without looking inside the values comes first: skipped trails, absence, hidden values,
different types, and checkers.  After that pointers are followed, interfaces unwrapped, records
compared field by field, sequences element by element, and maps key by key in the order of their
labels.  Containers of different length give one notice, and so does every other leaf that
differs.

Slices and maps with one storage are equal without a look at their parts.
-/

namespace Discrepancy.Comparison

/-- The rendering of notices: bytes have a renderer, even where none is registered. -/
def noticeRendering (r : Rendering) : Rendering :=
  if r.hasRenderer byteTy then r else r.register byteTy .byte

variable [Host]

/-- The notice of two values that are not equal. -/
def mismatch (want found : Value) (context : Context) : Outcome Notice := do
  let rendering := noticeRendering context.rendering
  let wantText ← rendering.any want
  let foundText ← rendering.any found
  let notice : Notice := { header := "expected values to be equal", trail := context.trail }
  let notice := (notice.want wantText).found foundText
  if want.typeName != found.typeName || want.identity? != found.identity? then
    pure ((notice.append "want type" want.typeName).append "have type" found.typeName)
  else pure notice

def hiddenNotice (trail : Text) : Notice :=
  { header := "cannot compare values"
    trail := trail
    rows := [⟨"cause", "value cannot be accessed"⟩,
      ⟨"hint", "use skipTrail or skipUnexportedFields option to skip this field"⟩] }

def lengthMismatch (want found : Value) (wantLength foundLength : Nat) (ops : Options) :
    Outcome (List Notice) := do
  ops.visit false
  let notice ← mismatch want found ops.toContext
  pure [(notice.prepend "have len" (Text.ofNat foundLength)).prepend "want len"
    (Text.ofNat wantLength)]

/-- Visits a location where the comparison ends. -/
def leaf (equal : Bool) (want found : Value) (ops : Options) : Outcome (List Notice) := do
  ops.visit false
  if equal then pure []
  else pure [← mismatch want found ops.toContext]

/-- The checker for a location: one for its trail, or else one for the type. -/
def checker? (want : Value) (ops : Options) : Option Checker :=
  (ops.trailCheckers.lookup ops.trail).or
    (want.identity?.bind fun type ↦ ops.typeCheckers.lookup type)

/-- What is decided about two values without a look inside. -/
def settle (want found : Value) (ops : Options) : Outcome (Option (List Notice)) :=
  if ops.isSkipped then do
    ops.visit true
    pure (some [])
  else if !want.isPresent || !found.isPresent then
    some <$> leaf (!want.isPresent && !found.isPresent) want found ops
  else if !want.isAccessible || !found.isAccessible then do
    ops.visit true
    pure (some (if ops.skipHidden then [] else [hiddenNotice ops.trail]))
  else if want.identity? != found.identity? then
    some <$> leaf false want found ops
  else match checker? want ops with
    | none => pure none
    | some checker => do
      ops.visit false
      let report ← checker want found ops.situation
      pure (some (Report.noticesOf report))

/-- Whether two scalars of one type are equal.  A nil string differs from the empty one, floating
point numbers are compared by size, complex ones in double precision, and functions and channels by
identity. -/
def scalarsAgree : Scalar → Scalar → Outcome Bool
  | .bool a, .bool b => pure (a == b)
  | .integer _ m, .integer _ n => pure (m == n)
  | .float _ x, .float _ y => pure (x.equal y)
  | .complex type re im, .complex type' re' im' =>
    pure ((type.narrow re).equal (type'.narrow re') && (type.narrow im).equal (type'.narrow im'))
  | .string _ s _, .string _ t _ => pure (s == t)
  | .func _ _ _ f, .func _ _ _ g => pure (f == g)
  | .chan _ p, .chan _ q => pure (p == q)
  | s, t => (Value.scalar s).equals (.scalar t)

/-- Compares two values by the equality of their type. -/
def whole (want found : Value) (ops : Options) : Outcome (List Notice) := do
  leaf (← want.equals found) want found ops

/-- How a value compares with a given one under given options. -/
abbrev Rest := Value → Options → Outcome (List Notice)

/-- Compares a key of a map, given by its label, with the same key of another map: `parts` holds
the comparisons of the values of the first map. -/
def compareKey (found : Value) (rule : KeyRule) (parts : List (Value × Rest)) (ops : Options)
    (label : Text) (key : Value) : Outcome (List Notice) := do
  let ops := ops.below (.key label)
  let other ← found.lookup key
  if other.isPresent then
    match Table.find? rule key parts with
    | some compareWith => compareWith other ops
    | none => do
      let settled ← settle .absent other ops
      pure (settled.getD [])
  else do
    ops.visit false
    pure [← mismatch found .absent ops.toContext]

mutual

/-- The notices of all places where two values differ. -/
def compare : Value → Value → Options → Outcome (List Notice)
  | .absent, found, ops => do
    let settled ← settle .absent found ops
    pure (settled.getD [])
  | .hidden type, found, ops => do
    let settled ← settle (.hidden type) found ops
    pure (settled.getD [])
  | .scalar s, found, ops => do
    match ← settle (.scalar s) found ops with
    | some notices => pure notices
    | none => match found with
      | .scalar t => do leaf (← scalarsAgree s t) (.scalar s) found ops
      | _ => whole (.scalar s) found ops
  | .pointer form target none, found, ops => do
    let want := Value.pointer form target none
    match ← settle want found ops with
    | some notices => pure notices
    | none => match found with
      | .pointer _ _ none => leaf true want found ops
      | .pointer _ _ (some _) => leaf false want found ops
      | _ => whole want found ops
  | .pointer form target (some (object, v)), found, ops => do
    let want := Value.pointer form target (some (object, v))
    match ← settle want found ops with
    | some notices => pure notices
    | none => match found with
      | .pointer _ _ none => leaf false want found ops
      | .pointer _ _ (some (_, w)) => compare v w ops
      | _ => whole want found ops
  | .record name fields, found, ops => do
    let want := Value.record name fields
    match ← settle want found ops with
    | some notices => pure notices
    | none => match found with
      | .record _ others => do
        Outcome.assert (fields.length == others.length) .fieldCountsAgree
        compareFields fields others ops
      | _ => whole want found ops
  | .sequence form element storage elements, found, ops => do
    let want := Value.sequence form element storage elements
    match ← settle want found ops with
    | some notices => pure notices
    | none => match found with
      | .sequence _ _ storage' elements' =>
        if elements.length != elements'.length then
          lengthMismatch want found elements.length elements'.length ops
        else if form == .vector && storage == storage' then leaf true want found ops
        else compareElements elements elements' 0 ops
      | _ => whole want found ops
  | .map rule key mapped storage entries, found, ops => do
    let want := Value.map rule key mapped storage entries
    match ← settle want found ops with
    | some notices => pure notices
    | none => match found with
      | .map _ _ _ storage' entries' =>
        if entries.length != entries'.length then
          lengthMismatch want found entries.length entries'.length ops
        else if storage == storage' then leaf true want found ops
        else do
          let keys ← ops.rendering.sortedKeys want
          let parts := comparisons entries
          let notices ← Outcome.sequence
            (keys.map fun (label, key) ↦ compareKey found rule parts ops label key)
          pure notices.flatten
      | _ => whole want found ops
  | .interface type alternative content, found, ops => do
    let want := Value.interface type alternative content
    match ← settle want found ops with
    | some notices => pure notices
    | none => match found with
      | .interface _ _ content' => compare content content' ops
      | _ => whole want found ops
termination_by structural want => want

/-- Compares fields in their order.  A field without a value is not compared. -/
def compareFields : List (Text × Value) → List (Text × Value) → Options → Outcome (List Notice)
  | (name, v) :: rest, (_, w) :: others, ops => do
    let notices ← if v.isPresent then compare v w (ops.below (.field name)) else pure []
    pure (notices ++ (← compareFields rest others ops))
  | _, _, _ => pure []
termination_by structural fields => fields

def compareElements : List Value → List Value → Nat → Options → Outcome (List Notice)
  | v :: rest, w :: others, i, ops => do
    let notices ← compare v w (ops.below (.index i))
    pure (notices ++ (← compareElements rest others (i + 1) ops))
  | _, _, _, _ => pure []
termination_by structural elements => elements

def comparisons : List (Value × Value) → List (Value × Rest)
  | [] => []
  | (key, v) :: rest => (key, compare v) :: comparisons rest
termination_by structural entries => entries

end

/-- The comparisons of a map stand under its keys, in its order. -/
theorem comparisons_eq_map (entries : List (Value × Value)) :
    comparisons entries = entries.map fun entry ↦ (entry.1, compare entry.2) := by
  induction entries with
  | nil => rfl
  | cons entry rest ih => simp only [comparisons, ih, List.map_cons]

/-- The report of a comparison, if there is a difference. -/
def equalValues (environment : Option Text) (want found : Value) (settings : List Setting) :
    Outcome (Option Report) := do
  let ops ← Options.default environment settings
  pure (Report.ofNotices? (← compare want found ops))

/-- The report of a comparison which finds no difference, if it finds none. -/
def notEqualValues (environment : Option Text) (want found : Value) (settings : List Setting) :
    Outcome (Option Report) := do
  match ← equalValues environment want found settings with
  | some _ => pure none
  | none => do
    let ops ← Options.default environment settings
    let notice ← mismatch want found ops.toContext
    pure (some ⟨[{ notice with header := "expected values not to be equal" }]⟩)

end Discrepancy.Comparison
