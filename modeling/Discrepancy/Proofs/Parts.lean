import Discrepancy.Value

/-!
# Parts of values

A value is made of parts: the object of a pointer, the fields of a record, the elements of a
sequence, the keys and values of a map, and the content of an interface.  Parts are smaller than
what they are part of, so that values admit induction on their parts.  A condition on single values
holds everywhere in a value when it holds for the value, its parts, their parts and so on.
-/

namespace Discrepancy.Value

section Places

variable {α β γ : Type} {xs : List α} {ys : List β} {i : Nat} {x : α} {y : β}

/-- Lists with the same image have the same image at each place. -/
theorem eq_of_map_eq {f : α → γ} {g : β → γ} (h : xs.map f = ys.map g) (hx : xs[i]? = some x)
    (hy : ys[i]? = some y) : f x = g y := by
  simpa [hx, hy] using congrArg (fun images ↦ images[i]?) h

theorem exists_getElem?_of_length (h : xs.length = ys.length) (hx : xs[i]? = some x) :
    ∃ y, ys[i]? = some y := by
  obtain ⟨hi, -⟩ := List.getElem?_eq_some_iff.mp hx
  exact ⟨_, List.getElem?_eq_getElem (h ▸ hi)⟩

theorem mem_of_lookup_eq_some [BEq α] [LawfulBEq α] {table : List (α × β)}
    (h : table.lookup x = some y) : (x, y) ∈ table := by
  obtain ⟨front, back, rfl, -⟩ := List.lookup_eq_some_iff.mp h
  exact List.mem_append_right front List.mem_cons_self

end Places

/-- The keys and values of some entries in a row. -/
def flatEntries (entries : List (Value × Value)) : List Value :=
  entries.flatMap fun entry ↦ [entry.1, entry.2]

def parts : Value → List Value
  | pointer _ _ pointee => (pointee.map Prod.snd).toList
  | record _ fields => fields.map Prod.snd
  | sequence _ _ _ elements => elements
  | map _ _ _ _ entries => flatEntries entries
  | interface _ _ content => [content]
  | _ => []

theorem mem_flatEntries {u : Value} {entries : List (Value × Value)} :
    u ∈ flatEntries entries ↔ ∃ entry ∈ entries, u = entry.1 ∨ u = entry.2 := by
  simp [flatEntries]

theorem key_mem_parts {rule : KeyRule} {key mapped : Ty} {storage : Identity}
    {entries : List (Value × Value)} {entry : Value × Value} (h : entry ∈ entries) :
    entry.1 ∈ (map rule key mapped storage entries).parts :=
  mem_flatEntries.mpr ⟨entry, h, .inl rfl⟩

theorem mapped_mem_parts {rule : KeyRule} {key mapped : Ty} {storage : Identity}
    {entries : List (Value × Value)} {entry : Value × Value} (h : entry ∈ entries) :
    entry.2 ∈ (map rule key mapped storage entries).parts :=
  mem_flatEntries.mpr ⟨entry, h, .inr rfl⟩

theorem sizeOf_lt_of_mem_parts {u v : Value} (h : u ∈ v.parts) : sizeOf u < sizeOf v := by
  cases v with
  | pointer form target pointee =>
    rcases pointee with _ | ⟨object, w⟩
    · simp [parts] at h
    · obtain rfl : u = w := by simpa [parts] using h
      rw [pointer.sizeOf_spec, Option.some.sizeOf_spec, Prod.mk.sizeOf_spec]
      omega
  | record name fields =>
    obtain ⟨field, hmem, rfl⟩ := List.mem_map.mp h
    have hlt := List.sizeOf_lt_of_mem hmem
    obtain ⟨name, w⟩ := field
    rw [Prod.mk.sizeOf_spec] at hlt
    rw [record.sizeOf_spec]
    dsimp only
    omega
  | sequence form element storage elements =>
    have hlt : sizeOf u < sizeOf elements := List.sizeOf_lt_of_mem h
    rw [sequence.sizeOf_spec]
    omega
  | map rule key mapped storage entries =>
    obtain ⟨entry, hmem, hu⟩ := mem_flatEntries.mp h
    have hlt := List.sizeOf_lt_of_mem hmem
    obtain ⟨k, w⟩ := entry
    rw [Prod.mk.sizeOf_spec] at hlt
    rw [map.sizeOf_spec]
    rcases hu with rfl | rfl <;> omega
  | interface type alternative content =>
    obtain rfl : u = content := by simpa [parts] using h
    rw [interface.sizeOf_spec]
    omega
  | _ => simp [parts] at h

/-- Induction on the parts of a value. -/
theorem induction_parts {motive : Value → Prop}
    (h : ∀ v, (∀ u ∈ v.parts, motive u) → motive v) (v : Value) : motive v :=
  h v fun u _ ↦ induction_parts h u
termination_by v
decreasing_by exact sizeOf_lt_of_mem_parts (by assumption)

/-- A value stands within itself and within whatever its parts stand within. -/
inductive Within (u : Value) : Value → Prop
  | self : Within u u
  | part {v w : Value} : Within u v → v ∈ w.parts → Within u w

/-- Holds for a value and for whatever stands within it. -/
def Everywhere (p : Value → Prop) (v : Value) : Prop :=
  ∀ u, Within u v → p u

namespace Everywhere

variable {p q : Value → Prop} {v w : Value}

theorem self (h : Everywhere p v) : p v :=
  h v .self

theorem part (h : Everywhere p v) (hw : w ∈ v.parts) : Everywhere p w :=
  fun u hu ↦ h u (hu.part hw)

theorem within (h : Everywhere p v) (hw : Within w v) : Everywhere p w := by
  induction hw with
  | self => exact h
  | part _ hmem ih => exact ih (h.part hmem)

theorem mono (h : Everywhere p v) (hpq : ∀ u, p u → q u) : Everywhere q v :=
  fun u hu ↦ hpq u (h u hu)

/-- What holds everywhere in the parts and for the whole holds everywhere in the whole. -/
theorem ofParts (hself : p v) (hparts : ∀ u ∈ v.parts, Everywhere p u) : Everywhere p v := by
  intro u hu
  cases hu with
  | self => exact hself
  | part hu hmem => exact hparts _ hmem u hu

end Everywhere

/-! ## Enumeration -/

mutual

/-- All values that stand within a value. -/
def subvalues : Value → List Value
  | pointer form target none => [pointer form target none]
  | pointer form target (some (object, v)) => pointer form target (some (object, v)) :: subvalues v
  | record name fields => record name fields :: fieldSubvalues fields
  | sequence form element storage elements =>
    sequence form element storage elements :: elementSubvalues elements
  | map rule key mapped storage entries =>
    map rule key mapped storage entries :: entrySubvalues entries
  | interface type alternative content => interface type alternative content :: subvalues content
  | absent => [absent]
  | hidden type => [hidden type]
  | scalar s => [scalar s]
termination_by structural v => v

def fieldSubvalues : List (Text × Value) → List Value
  | [] => []
  | (_, v) :: rest => subvalues v ++ fieldSubvalues rest
termination_by structural fields => fields

def elementSubvalues : List Value → List Value
  | [] => []
  | v :: rest => subvalues v ++ elementSubvalues rest
termination_by structural elements => elements

def entrySubvalues : List (Value × Value) → List Value
  | [] => []
  | (k, v) :: rest => subvalues k ++ (subvalues v ++ entrySubvalues rest)
termination_by structural entries => entries

end

theorem fieldSubvalues_eq (fields : List (Text × Value)) :
    fieldSubvalues fields = (fields.map Prod.snd).flatMap subvalues := by
  induction fields with
  | nil => rfl
  | cons field rest ih => simp only [fieldSubvalues, ih, List.map_cons, List.flatMap_cons]

theorem elementSubvalues_eq (elements : List Value) :
    elementSubvalues elements = elements.flatMap subvalues := by
  induction elements with
  | nil => rfl
  | cons v rest ih => simp only [elementSubvalues, ih, List.flatMap_cons]

theorem entrySubvalues_eq (entries : List (Value × Value)) :
    entrySubvalues entries = (flatEntries entries).flatMap subvalues := by
  induction entries with
  | nil => rfl
  | cons entry rest ih =>
    simp only [entrySubvalues, ih, flatEntries, List.flatMap_cons, List.cons_append,
      List.nil_append]

theorem subvalues_eq (v : Value) : v.subvalues = v :: v.parts.flatMap subvalues := by
  cases v with
  | pointer form target pointee =>
    rcases pointee with _ | ⟨object, u⟩
    · rfl
    · simp [subvalues, parts]
  | record name fields => rw [subvalues, fieldSubvalues_eq, parts]
  | sequence form element storage elements => rw [subvalues, elementSubvalues_eq, parts]
  | map rule key mapped storage entries => rw [subvalues, entrySubvalues_eq, parts]
  | interface type alternative content => simp [subvalues, parts]
  | _ => rfl

theorem mem_subvalues_iff {u v : Value} : u ∈ v.subvalues ↔ Within u v := by
  induction v using induction_parts with
  | h v ih =>
    rw [subvalues_eq, List.mem_cons, List.mem_flatMap]
    constructor
    · rintro (rfl | ⟨w, hw, hu⟩)
      · exact .self
      · exact ((ih w hw).mp hu).part hw
    · intro h
      cases h with
      | self => exact .inl rfl
      | part hu hw => exact .inr ⟨_, hw, (ih _ hw).mpr hu⟩

instance {p : Value → Prop} [DecidablePred p] (v : Value) : Decidable (v.Everywhere p) :=
  decidable_of_iff (∀ u ∈ v.subvalues, p u) (forall_congr' fun _ ↦ imp_congr_left mem_subvalues_iff)

end Discrepancy.Value
