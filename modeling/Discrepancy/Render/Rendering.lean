import Discrepancy.Render.Leaf

/-!
# Rendering

A rendering turns values into text.  Registered renderers are consulted before the rule of the kind
of a value.  Absent and hidden values have a fixed text and are shown to no renderer.

The entries of a map are rendered in the order of their labels, and a label is the rendering of a
key in the style for keys.  Labels that agree keep the order in which the map enumerates them.
-/

namespace Discrepancy

/-! ## Labelled keys -/

namespace Table

variable {α : Type}

/-- Puts a labelled item in front of the first one whose label is not smaller. -/
def placeLabelled (label : Text) (a : α) : List (Text × α) → List (Text × α)
  | [] => [(label, a)]
  | (other, b) :: rest =>
    if Text.le label other then (label, a) :: (other, b) :: rest
    else (other, b) :: placeLabelled label a rest

/-- Labelled items in the order of their labels; equal labels keep their order. -/
def sortLabelled : List (Text × α) → List (Text × α)
  | [] => []
  | (label, a) :: rest => placeLabelled label a (sortLabelled rest)

theorem placeLabelled_perm (label : Text) (a : α) (items : List (Text × α)) :
    (placeLabelled label a items).Perm ((label, a) :: items) := by
  induction items with
  | nil => exact .refl _
  | cons item rest ih =>
    unfold placeLabelled
    split
    · exact .refl _
    · exact (ih.cons item).trans (.swap ..)

/-- Placing an item among sorted ones keeps them sorted. -/
theorem placeLabelled_pairwise (label : Text) (a : α) {items : List (Text × α)}
    (sorted : items.Pairwise fun a b ↦ Text.le a.1 b.1 = true) :
    (placeLabelled label a items).Pairwise fun a b ↦ Text.le a.1 b.1 = true := by
  induction items with
  | nil => exact List.pairwise_singleton ..
  | cons item rest ih =>
    obtain ⟨first, others⟩ := List.pairwise_cons.mp sorted
    unfold placeLabelled
    split
    · rename_i le
      refine List.pairwise_cons.mpr ⟨fun other mem ↦ ?_, sorted⟩
      rcases List.mem_cons.mp mem with rfl | mem
      · exact le
      · exact Text.le_trans le (first other mem)
    · rename_i notLe
      refine List.pairwise_cons.mpr ⟨fun other mem ↦ ?_, ih others⟩
      rcases List.mem_cons.mp ((placeLabelled_perm label a rest).mem_iff.mp mem) with rfl | mem
      · exact (Text.le_total label item.1).resolve_left notLe
      · exact first other mem

/-- Sorting neither drops nor adds an item. -/
theorem sortLabelled_perm (items : List (Text × α)) : (sortLabelled items).Perm items := by
  induction items with
  | nil => exact .refl _
  | cons item rest ih => exact (placeLabelled_perm ..).trans (ih.cons item)

/-- The labels of sorted items do not decrease. -/
theorem sortLabelled_pairwise (items : List (Text × α)) :
    (sortLabelled items).Pairwise fun a b ↦ Text.le a.1 b.1 = true := by
  induction items with
  | nil => exact .nil
  | cons item rest ih => exact placeLabelled_pairwise _ _ ih

end Table

/-! ## Values -/

namespace Rendering

/-- The text of a part that follows a label on its line. -/
def nested (r : Rendering) (level : Int) (part : Outcome Text) : Outcome Text := do
  pure (r.style.untab (← part) (r.style.depth level))

def sortKeys {α : Type} (labels : List (α × Outcome Text)) : Outcome (List (Text × α)) := do
  let texts ← Outcome.sequence (labels.map Prod.snd)
  pure (Table.sortLabelled (texts.zip (labels.map Prod.fst)))

def absentText : Text := "nullptr"

/-- Renders a byte; any other value is refused. -/
def ofByte (r : Rendering) (level : Int) (v : Value) : Outcome Text := do
  let v ← v.cast byteTy
  let n ← v.uintValue
  pure (r.style.leaf level (byteText n.toNat.toUInt8))

/-- The rule of a shape, which is of no use for values of other kinds; that is reported. -/
def ofShape (shape : Shape) (r : Rendering) (level : Int) (v : Value) (rule : Outcome Text) :
    Outcome Text :=
  if Shape.ofKind? v.kind == some shape then rule
  else do
    Outcome.emit (.misusedShape shape v.typeName v.kind)
    pure (r.style.leaf level "<dump-usage-error>")

variable [Host]

/-- What a renderer makes of a value, whose kind has some rule. -/
def apply (r : Rendering) (level : Int) (v : Value) (rule : Outcome Text) :
    Renderer → Outcome Text
  | .byte => r.ofByte level v
  | .shaped shape => ofShape shape r level v rule
  | .own name => Host.renderer name r level v

/-- Takes the registered renderer of a value, or else the rule of its kind. -/
def custom (consult : Bool) (r : Rendering) (level : Int) (v : Value) (rule : Outcome Text) :
    Outcome Text :=
  match (if consult then r.renderer? v else none) with
  | none => rule
  | some renderer => do
    Outcome.emit (.customRenderer v.typeName)
    r.apply level v rule renderer

mutual

/-- The text of a value at a level.  Registered renderers are consulted for its parts, and for the
value itself if `consult` says so. -/
def text (consult : Bool) : Value → Rendering → Int → Outcome Text
  | .absent, r, level => pure (r.style.leaf level absentText)
  | .hidden _, r, level => pure (r.style.leaf level "<inaccessible>")
  | .scalar s, r, level =>
    custom consult r level (.scalar s) do
      pure (r.style.leaf level (← s.text r.style))
  | .pointer form target none, r, level =>
    custom consult r level (.pointer form target none)
      (pure (r.style.leaf level (if r.style.addresses then addressText 0 else absentText)))
  | .pointer form target (some (object, v)), r, level =>
    custom consult r level (.pointer form target (some (object, v)))
      (if r.style.addresses then pure (r.style.leaf level (addressText (addressOf (some object))))
       else text true v r level)
  | .record name fields, r, level =>
    custom consult r level (.record name fields) do
      let parts ← Outcome.sequence (fieldTexts fields r (level + 1))
      pure (r.style.composite level "\x7b" parts)
  | .sequence form element storage elements, r, level =>
    let v := Value.sequence form element storage elements
    custom consult r level v do
      let parts ← Outcome.sequence (elementTexts elements r (level + 1))
      pure (r.style.composite level (v.typeName ++ "\x7b") parts)
  | .map rule key mapped storage entries, r, level =>
    let v := Value.map rule key mapped storage entries
    custom consult r level v do
      let keys ← sortKeys (keyTexts entries r)
      let texts := entryTexts entries r (level + 1)
      let parts ← Outcome.sequence <| keys.map fun (label, key) ↦ do
        let absent := pure (r.style.leaf (level + 1) absentText)
        let part ← r.nested (level + 1) ((Table.find? rule key texts).getD absent)
        pure (label ++ ": " ++ part)
      pure (r.style.composite level (v.typeName ++ "\x7b") parts)
  | .interface type alternative content, r, level =>
    custom consult r level (.interface type alternative content) (text true content r level)
termination_by structural v => v

def fieldTexts : List (Text × Value) → Rendering → Int → List (Outcome Text)
  | [], _, _ => []
  | (name, v) :: rest, r, level =>
    (do pure (name ++ ": " ++ (← r.nested level (text true v r level)))) ::
      fieldTexts rest r level
termination_by structural fields => fields

def elementTexts : List Value → Rendering → Int → List (Outcome Text)
  | [], _, _ => []
  | v :: rest, r, level => r.nested level (text true v r level) :: elementTexts rest r level
termination_by structural elements => elements

def keyTexts : List (Value × Value) → Rendering → List (Value × Outcome Text)
  | [], _ => []
  | (key, _) :: rest, r => (key, text true key r.forKeys 0) :: keyTexts rest r
termination_by structural entries => entries

/-- The entries of a map as a table of rendered values. -/
def entryTexts : List (Value × Value) → Rendering → Int → List (Value × Outcome Text)
  | [], _, _ => []
  | (key, v) :: rest, r, level => (key, text true v r level) :: entryTexts rest r level
termination_by structural entries => entries

end

theorem fieldTexts_eq_map (fields : List (Text × Value)) (r : Rendering) (level : Int) :
    fieldTexts fields r level = fields.map fun field ↦
      (do pure (field.1 ++ ": " ++ (← r.nested level (text true field.2 r level)))) := by
  induction fields with
  | nil => rfl
  | cons field rest ih => simp only [fieldTexts, ih, List.map_cons]

theorem elementTexts_eq_map (elements : List Value) (r : Rendering) (level : Int) :
    elementTexts elements r level =
      elements.map fun v ↦ r.nested level (text true v r level) := by
  induction elements with
  | nil => rfl
  | cons v rest ih => simp only [elementTexts, ih, List.map_cons]

theorem keyTexts_eq_map (entries : List (Value × Value)) (r : Rendering) :
    keyTexts entries r =
      entries.map fun entry ↦ (entry.1, text true entry.1 r.forKeys 0) := by
  induction entries with
  | nil => rfl
  | cons entry rest ih => simp only [keyTexts, ih, List.map_cons]

theorem entryTexts_eq_map (entries : List (Value × Value)) (r : Rendering) (level : Int) :
    entryTexts entries r level =
      entries.map fun entry ↦ (entry.1, text true entry.2 r level) := by
  induction entries with
  | nil => rfl
  | cons entry rest ih => simp only [entryTexts, ih, List.map_cons]

section

variable {r r' : Rendering} {level level' : Int}

/-- Where no renderer is to be consulted the rule of the kind decides. -/
theorem custom_false (r : Rendering) (level : Int) (v : Value) (rule : Outcome Text) :
    custom false r level v rule = rule :=
  rfl

/-- Of every value that can be accessed, the rule of its kind or a renderer makes the text. -/
theorem text_eq_custom {v : Value} (haccessible : v.isAccessible) (consult : Bool) :
    text consult v r level = custom consult r level v (text false v r level) := by
  cases v with
  | absent => cases consult <;> rfl
  | hidden type => cases haccessible
  | pointer form target pointee => cases pointee <;> rfl
  | _ => rfl

/-- Hidden values are shown to no renderer. -/
theorem text_of_not_accessible {v : Value} (h : ¬ v.isAccessible) (consult : Bool) :
    text consult v r level = text false v r level := by
  cases v with
  | hidden type => rfl
  | _ => exact (h rfl).elim

theorem fieldTexts_congr {fields : List (Text × Value)}
    (hnested : ∀ part, r.nested level part = r'.nested level' part)
    (h : ∀ field ∈ fields, text true field.2 r level = text true field.2 r' level') :
    fieldTexts fields r level = fieldTexts fields r' level' := by
  rw [fieldTexts_eq_map, fieldTexts_eq_map]
  refine List.map_congr_left fun field hmem ↦ ?_
  rw [h field hmem, hnested]

theorem elementTexts_congr {elements : List Value}
    (hnested : ∀ part, r.nested level part = r'.nested level' part)
    (h : ∀ v ∈ elements, text true v r level = text true v r' level') :
    elementTexts elements r level = elementTexts elements r' level' := by
  rw [elementTexts_eq_map, elementTexts_eq_map]
  exact List.map_congr_left fun v hmem ↦ by rw [h v hmem, hnested]

theorem keyTexts_congr {entries : List (Value × Value)}
    (h : ∀ entry ∈ entries, text true entry.1 r.forKeys 0 = text true entry.1 r'.forKeys 0) :
    keyTexts entries r = keyTexts entries r' := by
  rw [keyTexts_eq_map, keyTexts_eq_map]
  exact List.map_congr_left fun entry hmem ↦ by rw [h entry hmem]

theorem entryTexts_congr {entries : List (Value × Value)}
    (h : ∀ entry ∈ entries, text true entry.2 r level = text true entry.2 r' level') :
    entryTexts entries r level = entryTexts entries r' level' := by
  rw [entryTexts_eq_map, entryTexts_eq_map]
  exact List.map_congr_left fun entry hmem ↦ by rw [h entry hmem]

end

def value (r : Rendering) (v : Value) (level : Int) : Outcome Text :=
  text true v r level

def any (r : Rendering) (v : Value) : Outcome Text :=
  r.value v 0

/-- The label of a map key: its text in the style for keys. -/
def keyLabel (r : Rendering) (key : Value) : Outcome Text :=
  r.forKeys.any key

/-- The keys of a map under their labels, in the order of these. -/
def sortedKeys (r : Rendering) (map : Value) : Outcome (List (Text × Value)) := do
  let keys ← map.keys
  sortKeys (keys.map fun key ↦ (key, r.keyLabel key))

/-! ## Single shapes -/

/-- What a shape makes of a hidden value of one of its kinds.  Functions and channels without
addresses need not be looked at. -/
def hiddenText (r : Rendering) (level : Int) (v : Value) : Outcome Text :=
  match v.kind with
  | .bool => v.refuse .boolValue
  | .int => v.refuse .intValue
  | .uint => v.refuse .uintValue
  | .float => v.refuse .floatValue
  | .complex => v.refuse .complexValue
  | .string => v.refuse .isNil
  | .pointer => v.refuse (if r.style.addresses then .address else .isNil)
  | .record => v.refuse .fields
  | .array | .slice => v.refuse .len
  | .map => v.refuse .keys
  | .interface => v.refuse .elem
  | .func =>
    if r.style.addresses then v.refuse .address else pure (r.style.leaf level "<func>(<addr>)")
  | .chan =>
    if r.style.addresses then v.refuse .address
    else pure (r.style.leaf level ("(" ++ v.typeName ++ ")(<addr>)"))
  | .other => v.refuse .render
  | .invalid => .fail (.unrenderable v.typeName v.kind)

/-- Renders a value in a shape, whatever renderer is registered for its type. -/
def inShape (shape : Shape) (r : Rendering) (level : Int) (v : Value) : Outcome Text :=
  ofShape shape r level v (if v.isAccessible then text false v r level else r.hiddenText level v)

end Rendering

/-! ## Settings -/

inductive RenderSetting where
  | flat
  | quoteUpTo (length : Nat)
  | indent (n : Int)
  | addresses
  | tabWidth (n : Int)
  /-- A renderer for a type.  One without a rule is ignored, which is reported. -/
  | renderer (type : Ty) (rule? : Option Renderer)

/-- The rendering after a change.  Negative sizes count as zero. -/
def RenderSetting.apply (r : Rendering) : RenderSetting → Outcome Rendering
  | flat => pure { r with style := { r.style with flat := true } }
  | quoteUpTo length => pure { r with style := { r.style with quoteUpTo := length } }
  | indent n => pure { r with style := { r.style with indent := n.toNat } }
  | addresses => pure { r with style := { r.style with addresses := true } }
  | tabWidth n => pure { r with style := { r.style with tabWidth := n.toNat } }
  | renderer type none => do
    Outcome.emit (.emptyRenderer type.identity)
    pure r
  | renderer type (some rule) => pure (r.register type rule)

def Rendering.configure (r : Rendering) (settings : List RenderSetting) : Outcome Rendering :=
  settings.foldlM RenderSetting.apply r

end Discrepancy
