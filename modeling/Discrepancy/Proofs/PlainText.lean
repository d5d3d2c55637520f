import Discrepancy.Proofs.Locations

/-!
# Plain texts

Where no renderers are registered, the text of a value is known from the texts of what it shows: an
opening, and its parts one behind the other, each with a label in front.  Records, sequences and
maps differ in their openings and labels only.  What a map shows for a key is what it finds for it.
-/

namespace Discrepancy

open Outcome

/-! ## Composite values -/

namespace Value

def IsComposite : Value → Prop
  | record .. | sequence .. | map .. => True
  | _ => False

instance : DecidablePred IsComposite
  | record .. | sequence .. | map .. => isTrue trivial
  | absent | hidden _ | scalar _ | pointer .. | interface .. => isFalse id

/-- What the text of a composite value opens with: all of them but records tell their types. -/
def opening : Value → Text
  | record .. => "\x7b"
  | v => v.typeName ++ "\x7b"

end Value

namespace Rendering

variable [Host] {r : Rendering} {v u : Value} {level : Int} {t : Text}

/-- What a map shows for a key: what it finds for it, if there is anything. -/
def shownFor (rule : KeyRule) (entries : List (Value × Value)) (key : Value) : Value :=
  (Table.find? rule key entries).getD .absent

/-- What a composite value shows, with the labels in front. -/
def shownParts (r : Rendering) : Value → List (Text × Value)
  | .record _ fields => fields.map fun field ↦ (field.1 ++ ": ", field.2)
  | .sequence _ _ _ elements => elements.map fun u ↦ ([], u)
  | .map rule _ _ _ entries =>
    (Table.sortLabelled (entries.map fun entry ↦ (r.label entry.1, entry.1))).map fun item ↦
      (item.1 ++ ": ", shownFor rule entries item.2)
  | _ => []

theorem shownFor_eq (rule : KeyRule) (entries : List (Value × Value)) (key : Value) :
    shownFor rule entries key = .absent ∨
      ∃ k, (k, shownFor rule entries key) ∈ entries := by
  unfold shownFor
  cases hfound : Table.find? rule key entries with
  | none => exact .inl rfl
  | some u => exact .inr (Table.exists_mem_of_find? hfound)

/-- What is shown is what the value holds, or nothing. -/
theorem eq_absent_or_holds {item : Text × Value} (h : item ∈ r.shownParts v) :
    item.2 = .absent ∨ ∃ move, v.Holds move item.2 := by
  cases v with
  | record name fields =>
    obtain ⟨field, hfield, rfl⟩ := List.mem_map.mp h
    exact .inr ⟨_, .field hfield⟩
  | sequence form element storage elements =>
    obtain ⟨u, hu, rfl⟩ := List.mem_map.mp h
    obtain ⟨i, hi⟩ := List.mem_iff_getElem?.mp hu
    exact .inr ⟨_, .element i hi⟩
  | map rule key mapped storage entries =>
    obtain ⟨⟨label, k⟩, -, rfl⟩ := List.mem_map.mp h
    exact (shownFor_eq rule entries k).imp_right fun ⟨k', hmem⟩ ↦ ⟨_, .mapped hmem⟩
  | _ => cases h

/-- A condition that holds for nothing holds for what is shown, if it does so for the parts. -/
theorem everywhere_of_mem_shownParts {p : Value → Prop} (hp : p .absent) (hv : v.Everywhere p)
    {item : Text × Value} (h : item ∈ r.shownParts v) : item.2.Everywhere p := by
  rcases eq_absent_or_holds h with habsent | ⟨move, hholds⟩
  · exact habsent ▸ Value.everywhere_absent hp
  · exact hv.part hholds.mem_parts

/-! ## Texts -/

/-- Beside the label of a key stands the text of what is shown for it. -/
theorem find?_entryTexts (r : Rendering) (rule : KeyRule) (entries : List (Value × Value))
    (key : Value) (level : Int) :
    (Table.find? rule key (entryTexts entries r level)).getD
        (pure (r.style.leaf level absentText)) =
      text true (shownFor rule entries key) r level := by
  rw [entryTexts_eq_map, Table.find?_map rule key fun u ↦ text true u r level, shownFor]
  cases Table.find? rule key entries <;> rfl

/-- The text of a value at a level, empty where it has none. -/
def textAt (r : Rendering) (v : Value) (level : Int) : Text :=
  match (r.value v level).result with
  | .ok t => t
  | .error _ => []

theorem textAt_of_yields (h : (r.value v level).Yields t) : r.textAt v level = t := by
  rw [textAt, h]

theorem Faultless.value_yields (hr : r.Faultless) (hv : v.Everywhere Value.Renderable)
    (level : Int) : (r.value v level).Yields (r.textAt v level) := by
  obtain ⟨t, ht⟩ := text_returns hr hv true level
  rwa [textAt_of_yields ht]

/-- Without registered renderers, everything that can be rendered has its text. -/
theorem value_yields (hplain : r.renderers = []) (hv : v.Everywhere Value.Renderable)
    (level : Int) :
    (r.value v level).Yields (r.textAt v level) :=
  (faultless_of_plain hplain).value_yields hv level

/-- The rule of its kind writes a value: no renderer takes its place but the one which is this
rule. -/
def Opens (r : Rendering) (v : Value) : Prop :=
  ∀ renderer, r.renderer? v = some renderer →
    ∃ shape, renderer = .shaped shape ∧ Shape.ofKind? v.kind = some shape

omit [Host] in
theorem opens_of_none (h : r.renderer? v = none) : r.Opens v := by
  intro renderer hrenderer
  rw [h] at hrenderer
  cases hrenderer

omit [Host] in
theorem opens_of_plain (hplain : r.renderers = []) (v : Value) : r.Opens v :=
  opens_of_none (renderer?_of_plain hplain v)

/-- A renderer that is the rule leaves its result. -/
theorem custom_result_of_opens (h : r.Opens v) (consult : Bool) (level : Int)
    (rule : Outcome Text) : (custom consult r level v rule).result = rule.result := by
  unfold custom
  cases consult with
  | false => rfl
  | true =>
    cases hrenderer : r.renderer? v with
    | none => rfl
    | some renderer =>
      obtain ⟨shape, rfl, hshape⟩ := h renderer hrenderer
      change (Outcome.emit _ >>= fun _ ↦ r.apply level v rule (.shaped shape)).result = _
      rw [apply, ofShape, hshape, beq_self_eq_true, if_pos rfl]
      rfl

theorem custom_yields_of_opens (h : r.Opens v) {consult : Bool} {rule : Outcome Text} :
    (custom consult r level v rule).Yields t ↔ rule.Yields t := by
  rw [Yields, custom_result_of_opens h, Yields]

/-- The text of a value that shows no other one. -/
inductive Leaf (style : Style) : Value → Text → Prop
  | absent : Leaf style .absent absentText
  | hidden (type : Ty) : Leaf style (.hidden type) "<inaccessible>"
  | scalar {s : Scalar} {t : Text} (h : (s.text style).Yields t) : Leaf style (.scalar s) t
  | nil {form : PointerForm} {target : Ty} (h : ¬ style.addresses) :
      Leaf style (.pointer form target none) absentText
  | address {form : PointerForm} {target : Ty} {pointee : Option (Identity × Value)}
      (h : style.addresses) :
      Leaf style (.pointer form target pointee) (addressText (addressOf (pointee.map Prod.fst)))

/-- What a value shows in its own place. -/
inductive Through (style : Style) : Value → Value → Prop
  | pointee {form : PointerForm} {target : Ty} {object : Identity} {u : Value}
      (h : ¬ style.addresses) : Through style (.pointer form target (some (object, u))) u
  | content {type : InterfaceTy} {alternative : Option Nat} {u : Value} :
      Through style (.interface type alternative u) u

omit [Host] in
theorem Through.holds (h : Through r.style v u) : v.Holds none u := by
  cases h with
  | pointee => exact .pointee
  | content => exact .content

/-- A value is a leaf, shows another one in its place, or is composite. -/
theorem leaf_or_through_or_composite (hv : v.Renderable) (style : Style) :
    (∃ t, Leaf style v t) ∨ (∃ u, Through style v u) ∨ v.IsComposite := by
  cases v with
  | absent => exact .inl ⟨_, .absent⟩
  | hidden type => exact .inl ⟨_, .hidden type⟩
  | scalar s => exact .inl ((Scalar.text_returns hv style).imp fun _ ↦ .scalar)
  | pointer form target pointee =>
    by_cases haddresses : style.addresses
    · exact .inl ⟨_, .address haddresses⟩
    · rcases pointee with _ | ⟨object, u⟩
      · exact .inl ⟨_, .nil haddresses⟩
      · exact .inr (.inl ⟨u, .pointee haddresses⟩)
  | interface type alternative u => exact .inr (.inl ⟨u, .content⟩)
  | record name fields => exact .inr (.inr trivial)
  | sequence form element storage elements => exact .inr (.inr trivial)
  | map rule key mapped storage entries => exact .inr (.inr trivial)

theorem Leaf.textAt_of_opens (hopens : r.Opens v) (h : Leaf r.style v t) (level : Int) :
    r.textAt v level = r.style.leaf level t := by
  apply textAt_of_yields
  cases h with
  | absent => exact yields_pure.mpr rfl
  | hidden type => exact yields_pure.mpr rfl
  | scalar h =>
    rw [value, text, custom_yields_of_opens hopens]
    exact h.bind (yields_pure.mpr rfl)
  | nil h =>
    rw [value, text, custom_yields_of_opens hopens, if_neg h]
    exact yields_pure.mpr rfl
  | @address form target pointee h =>
    rcases pointee with _ | ⟨object, u⟩
    · rw [value, text, custom_yields_of_opens hopens, if_pos h]
      exact yields_pure.mpr rfl
    · rw [value, text, custom_yields_of_opens hopens, if_pos h]
      exact yields_pure.mpr rfl

/-- Without renderers a leaf is written by the rule of its kind. -/
theorem Leaf.textAt (hplain : r.renderers = []) (h : Leaf r.style v t) (level : Int) :
    r.textAt v level = r.style.leaf level t :=
  h.textAt_of_opens (opens_of_plain hplain v) level

theorem Through.textAt_of_opens (hopens : r.Opens v) (h : Through r.style v u) (level : Int) :
    r.textAt v level = r.textAt u level := by
  unfold Rendering.textAt
  cases h with
  | pointee h => rw [value, text, custom_result_of_opens hopens, if_neg h, value]
  | content => rw [value, text, custom_result_of_opens hopens, value]

/-- Without renderers pointers and interfaces read like what they hold. -/
theorem Through.textAt (hplain : r.renderers = []) (h : Through r.style v u) (level : Int) :
    r.textAt v level = r.textAt u level :=
  h.textAt_of_opens (opens_of_plain hplain v) level

/-- A part behind its label, without the tabs in front of it. -/
def partText (r : Rendering) (level : Int) (item : Text × Value) : Text :=
  item.1 ++ r.style.untab (r.textAt item.2 level) (r.style.depth level)

/-- Where a composite value has a text, all that it shows has one. -/
theorem textAt_yields_of_composite (hopens : r.Opens v) (hcomposite : v.IsComposite)
    (h : (r.value v level).Yields t) :
    (∀ item ∈ r.shownParts v,
      (r.value item.2 (level + 1)).Yields (r.textAt item.2 (level + 1))) ∧
      t = r.style.composite level v.opening ((r.shownParts v).map (r.partText (level + 1))) := by
  have hnested {u : Value} {s : Text}
      (h : (r.nested (level + 1) (text true u r (level + 1))).Yields s) :
      (r.value u (level + 1)).Yields (r.textAt u (level + 1)) ∧
        s = r.style.untab (r.textAt u (level + 1)) (r.style.depth (level + 1)) := by
    obtain ⟨t, ht, h⟩ := yields_bind.mp h
    rw [textAt_of_yields ht]
    exact ⟨ht, (yields_pure.mp h).symm⟩
  -- A part has its text behind a label, which is empty for elements.
  have hlabelled {u : Value} {label s : Text}
      (h : (do pure (label ++ (← r.nested (level + 1) (text true u r (level + 1)))) :
        Outcome Text).Yields s) :
      (r.value u (level + 1)).Yields (r.textAt u (level + 1)) ∧
        s = r.partText (level + 1) (label, u) := by
    obtain ⟨s', hs', h⟩ := yields_bind.mp h
    obtain ⟨ht, rfl⟩ := hnested hs'
    exact ⟨ht, (yields_pure.mp h).symm⟩
  cases v with
  | record name fields =>
    rw [value, text, custom_yields_of_opens hopens, fieldTexts_eq_map] at h
    obtain ⟨parts, hparts, h⟩ := yields_bind.mp h
    obtain ⟨htexts, rfl⟩ := of_yields_sequence_map (fun field _ s hs ↦ hlabelled hs) hparts
    rw [shownParts, List.forall_mem_map, List.map_map]
    exact ⟨htexts, (yields_pure.mp h).symm⟩
  | sequence form element storage elements =>
    rw [value, text, custom_yields_of_opens hopens, elementTexts_eq_map] at h
    obtain ⟨parts, hparts, h⟩ := yields_bind.mp h
    obtain ⟨htexts, rfl⟩ := of_yields_sequence_map (fun u _ s hs ↦ hnested hs) hparts
    rw [shownParts, List.forall_mem_map, List.map_map]
    exact ⟨htexts, (yields_pure.mp h).symm⟩
  | map rule key mapped storage entries =>
    rw [value, text, custom_yields_of_opens hopens] at h
    obtain ⟨keys, hkeys, h⟩ := yields_bind.mp h
    have hsorted : (r.sortedKeys (.map rule key mapped storage entries)).Yields keys := by
      rwa [← sortKeys_keyTexts]
    obtain ⟨-, rfl⟩ := sortedKeys_yields.mp hsorted
    simp only [find?_entryTexts] at h
    obtain ⟨parts, hparts, h⟩ := yields_bind.mp h
    obtain ⟨htexts, rfl⟩ := of_yields_sequence_map (fun item _ s hs ↦ hlabelled hs) hparts
    rw [shownParts, List.forall_mem_map, List.map_map]
    exact ⟨htexts, (yields_pure.mp h).symm⟩
  | _ => cases hcomposite

/-- The text of a composite value is made of its opening and of the texts of what it shows. -/
theorem textAt_composite_of_opens (hr : r.Faultless) (hopens : r.Opens v)
    (hv : v.Everywhere Value.Renderable) (hcomposite : v.IsComposite) (level : Int) :
    r.textAt v level =
      r.style.composite level v.opening ((r.shownParts v).map (r.partText (level + 1))) :=
  (textAt_yields_of_composite hopens hcomposite (hr.value_yields hv level)).2

/-- A composite value reads as its parts in their layout. -/
theorem textAt_composite (hplain : r.renderers = []) (hv : v.Everywhere Value.Renderable)
    (hcomposite : v.IsComposite) (level : Int) : r.textAt v level =
      r.style.composite level v.opening ((r.shownParts v).map (r.partText (level + 1))) :=
  textAt_composite_of_opens (faultless_of_plain hplain) (opens_of_plain hplain v) hv hcomposite
    level

/-! ## On one line -/

/-- A part of a composite value on one line. -/
def linePart (r : Rendering) (level : Int) (item : Text × Value) : Text :=
  item.1 ++ r.textAt item.2 level

theorem partText_of_flat (hflat : r.style.flat) (level : Int) :
    r.partText level = r.linePart level := by
  funext item
  rw [partText, linePart, Style.untab_of_flat hflat]

theorem textAt_composite_of_flat (hflat : r.style.flat) (hplain : r.renderers = [])
    (hv : v.Everywhere Value.Renderable) (hcomposite : v.IsComposite) (level : Int) :
    r.textAt v level = v.opening ++
      (Text.joinWith ", " ((r.shownParts v).map (r.linePart (level + 1))) ++ "\x7d") := by
  rw [textAt_composite hplain hv hcomposite, Style.composite_of_flat hflat,
    partText_of_flat hflat, List.append_assoc]

end Rendering

end Discrepancy
