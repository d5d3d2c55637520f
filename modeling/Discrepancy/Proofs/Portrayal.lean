import Discrepancy.Proofs.Operations

/-!
# Renderings through operations

The text of a value is put together from what the operations of its kind yield, and from the texts
of parts, which are obtained in the same way.  Absent and hidden values are not touched.  Below the
options that a rendering carries, this is all that a rendering does.
-/

namespace Discrepancy.Rendering

open Outcome

/-- How a value is rendered at a level. -/
abbrev Portrayal := Rendering → Value → Int → Outcome Text

def floatFormat (v : Value) : Binary.Format :=
  match v.ty? with
  | some (.atom (.float type)) => type.format
  | _ => FloatTy.extended.format

/-- What stands for the target of a function or channel. -/
def targetByKind (r : Rendering) (v : Value) : Outcome Text :=
  if r.style.addresses then do
    let address ← v.address
    pure (addressText address)
  else pure "<addr>"

variable [Host]

def scalarByKind (r : Rendering) (v : Value) : Outcome Text :=
  match v.kind with
  | .bool => do
    let b ← v.boolValue
    pure (if b then "true" else "false")
  | .int => do
    let n ← v.intValue
    pure (Text.ofInt n)
  | .uint => do
    let n ← v.uintValue
    pure (Text.ofInt n)
  | .float => do
    let x ← v.floatValue
    pure (x.text (floatFormat v))
  | .complex => do
    let (re, im) ← v.complexValue
    pure (Binary.complexText .double re im)
  | .string => do
    let isNil ← v.isNil
    if isNil then pure absentText
    else do
      let t ← v.stringValue
      pure (r.style.stringText t)
  | .func => do
    let target ← targetByKind r v
    pure ("<func>(" ++ target ++ ")")
  | .chan => do
    let target ← targetByKind r v
    pure ("(" ++ v.typeName ++ ")(" ++ target ++ ")")
  | .other => v.render
  | _ => .fail (.unrenderable v.typeName v.kind)

section Kinds

variable (rest : Portrayal) (r : Rendering) (level : Int) (v : Value)

def fieldByKind (field : Text × Value) : Outcome Text := do
  let part ← r.nested level (rest r field.2 level)
  pure (field.1 ++ ": " ++ part)

def recordByKind : Outcome Text := do
  let fields ← v.fields
  let parts ← Outcome.sequence (fields.map (fieldByKind rest r (level + 1)))
  pure (r.style.composite level "\x7b" parts)

def contentByKind : Outcome Text := do
  let u ← v.elem
  rest r u level

def elementByKind (i : Nat) : Outcome Text := do
  let u ← v.index i
  r.nested level (rest r u level)

def keysByKind : Outcome (List (Text × Value)) := do
  let keys ← v.keys
  sortKeys (keys.map fun key ↦ (key, rest r.forKeys key 0))

def entryByKind (label : Text) (key : Value) : Outcome Text := do
  let u ← v.lookup key
  let part ← r.nested level (rest r u level)
  pure (label ++ ": " ++ part)

/-- The text of a value by the operations of its kind, with the texts of parts obtained in some
way. -/
def textByKind : Outcome Text :=
  match v.kind with
  | .pointer =>
    if r.style.addresses then do
      let address ← v.address
      pure (r.style.leaf level (addressText address))
    else do
      let isNil ← v.isNil
      if isNil then pure (r.style.leaf level absentText)
      else contentByKind rest r level v
  | .record => recordByKind rest r level v
  | .array | .slice => do
    let count ← v.len
    let parts ← Outcome.sequence ((List.range count).map (elementByKind rest r (level + 1) v))
    pure (r.style.composite level (v.typeName ++ "\x7b") parts)
  | .map => do
    let keys ← keysByKind rest r v
    let parts ← Outcome.sequence (keys.map fun (label, key) ↦
      entryByKind rest r (level + 1) v label key)
    pure (r.style.composite level (v.typeName ++ "\x7b") parts)
  | .interface => contentByKind rest r level v
  | _ => do
    let t ← scalarByKind r v
    pure (r.style.leaf level t)

end Kinds

variable {r : Rendering} {v : Value} {level : Int}

theorem scalarByKind_eq {s : Scalar} (h : (Value.scalar s).Unsealed) (r : Rendering) :
    scalarByKind r (.scalar s) = s.text r.style := by
  have htarget (target : Option Identity) {u : Value} (hu : u.address = pure (addressOf target)) :
      targetByKind r u = pure (r.style.targetText target) := by
    rw [targetByKind, Style.targetText, hu]
    split_ifs <;> rfl
  cases s with
  | integer type n => cases type <;> rfl
  | string type content place => cases content <;> rfl
  | func form result parameters target =>
    change targetByKind r _ >>= _ = _
    rw [htarget target rfl]
    rfl
  | chan name queue =>
    change targetByKind r _ >>= _ = _
    rw [htarget queue rfl]
    rfl
  | sealed name kind => exact (h rfl).elim
  | _ => rfl

theorem keysByKind_eq (r : Rendering) (v : Value) : keysByKind value r v = r.sortedKeys v :=
  rfl

theorem entryByKind_eq {rule : KeyRule} {key mapped : Ty} {storage : Identity}
    {entries : List (Value × Value)} {label : Text} {k u : Value}
    (hkeyed : (Value.map rule key mapped storage entries).Keyed) (hmem : (k, u) ∈ entries) :
    entryByKind value r level (.map rule key mapped storage entries) label k = (do
      let part ← r.nested level ((Table.find? rule k (entryTexts entries r level)).getD
        (pure (r.style.leaf level absentText)))
      pure (label ++ ": " ++ part)) := by
  obtain ⟨haccessible, htype⟩ := hkeyed.1 _ hmem
  rw [entryByKind, Value.lookup_eq haccessible htype, Outcome.pure_bind, entryTexts_eq_map,
    Table.find?_map rule k fun u ↦ text true u r level]
  cases Table.find? rule k entries <;> rfl

/-- The operations of maps give the text that the rule of maps gives. -/
theorem text_map_eq {rule : KeyRule} {key mapped : Ty} {storage : Identity}
    {entries : List (Value × Value)}
    (hkeyed : (Value.map rule key mapped storage entries).Keyed) (consult : Bool) (r : Rendering)
    (level : Int) :
    text consult (.map rule key mapped storage entries) r level =
      custom consult r level (.map rule key mapped storage entries)
        (textByKind value r level (.map rule key mapped storage entries)) := by
  rw [text, sortKeys_keyTexts, ← keysByKind_eq]
  congr 1
  apply bind_congr_of_yields
  intro keys hkeys
  change Outcome.sequence (keys.map _) >>= _ = Outcome.sequence (keys.map _) >>= _
  congr 2
  apply List.map_congr_left
  intro item hitem
  obtain ⟨u, hmem, -⟩ := exists_mem_of_sortedKeys hkeys hitem
  exact (entryByKind_eq hkeyed hmem).symm

/-- The text of what is there and may be seen is that which the operations of its kind give, unless
a renderer is registered for its type. -/
theorem text_eq_textByKind (hpresent : v.isPresent) (haccessible : v.isAccessible)
    (hunsealed : v.Unsealed) (hkeyed : v.Keyed) (consult : Bool) (r : Rendering) (level : Int) :
    text consult v r level = custom consult r level v (textByKind value r level v) := by
  cases v with
  | absent => cases hpresent
  | hidden type => cases haccessible
  | scalar s =>
    rw [text, ← scalarByKind_eq hunsealed]
    congr 1
    cases s with
    | integer type n => cases type <;> rfl
    | sealed name kind => exact (hunsealed rfl).elim
    | _ => rfl
  | pointer form target pointee =>
    rcases pointee with _ | ⟨object, u⟩
    · rw [text]
      congr 1
      change _ = if r.style.addresses then _ else _
      split_ifs <;> rfl
    · rw [text]
      congr 1
  | record name fields =>
    rw [text, fieldTexts_eq_map]
    rfl
  | sequence form element storage elements =>
    rw [text, elementTexts_eq_map, ← Value.map_range_index form element storage]
    cases form <;> rfl
  | map rule key mapped storage entries => exact text_map_eq hkeyed consult r level
  | interface type alternative content =>
    rw [text]
    cases type <;> rfl

/-! ## Parts -/

section Congruence

variable {f g : Portrayal}
    (h : ∀ u, v.Offers u → ∀ r level, f r u level = g r u level)

include h

/-- Operations lead to parts and nowhere else. -/
theorem textByKind_congr : textByKind f r level v = textByKind g r level v := by
  have hcontent : contentByKind f r level v = contentByKind g r level v := by
    apply bind_congr_of_yields
    intro u hu
    exact h u (Value.offers_elem hu) r level
  have helements (level : Int) : elementByKind f r level v = elementByKind g r level v := by
    funext i
    apply bind_congr_of_yields
    intro u hu
    rw [h u (Value.offers_index hu)]
  have hkeys : keysByKind f r v = keysByKind g r v := by
    apply bind_congr_of_yields
    intro keys hkeys
    congr 1
    apply List.map_congr_left
    intro key hkey
    rw [h key (Value.offers_keys hkeys hkey)]
  have hentry (level : Int) (label : Text) (key : Value) :
      entryByKind f r level v label key = entryByKind g r level v label key := by
    apply bind_congr_of_yields
    intro u hu
    rw [h u (Value.offers_lookup hu)]
  have hrecord : recordByKind f r level v = recordByKind g r level v := by
    apply bind_congr_of_yields
    intro fields hfields
    congr 2
    apply List.map_congr_left
    intro field hfield
    rw [fieldByKind, fieldByKind, h field.2 (Value.offers_fields hfields hfield)]
  simp only [textByKind, hcontent, helements, hkeys, hentry, hrecord]

end Congruence

/-- The text of a value by operations alone, down to some depth. -/
def textWithin : (depth : Nat) → Portrayal
  | 0, _, _, _ => .fail .untyped
  | depth + 1, r, v, level =>
    if !v.isPresent then pure (r.style.leaf level absentText)
    else if !v.isAccessible then pure (r.style.leaf level "<inaccessible>")
    else custom true r level v (textByKind (textWithin depth) r level v)

/-- The text of a value is what its operations give, all the way down. -/
theorem textWithin_eq {depth : Nat} (hdepth : sizeOf v < depth)
    (hunsealed : v.Everywhere Value.Unsealed) (hkeyed : v.Everywhere Value.Keyed) (r : Rendering)
    (level : Int) : textWithin depth r v level = r.value v level := by
  induction depth generalizing v r level with
  | zero => exact (Nat.not_lt_zero _ hdepth).elim
  | succ depth ih =>
    rw [textWithin]
    split_ifs with habsent hhidden
    · obtain rfl : v = .absent := Value.eq_absent (by simpa using habsent)
      rfl
    · cases v with
      | hidden type => rfl
      | _ => cases hhidden
    · have hpresent : v.isPresent := by simpa using habsent
      have haccessible : v.isAccessible := by simpa using hhidden
      rw [value, text_eq_textByKind hpresent haccessible hunsealed.self hkeyed.self]
      congr 1
      apply textByKind_congr
      intro u hu r level
      have hsmaller := hu.sizeOf_lt hpresent
      exact ih (by omega) (hu.everywhere hunsealed trivial) (hu.everywhere hkeyed trivial) r level

end Discrepancy.Rendering
