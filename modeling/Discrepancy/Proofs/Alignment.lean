import Discrepancy.Proofs.Totality

/-!
# Aligned values

Two values are aligned when they are of one shape down to their leaves, where a relation of choice
holds.  Structural equality is alignment by the equality of leaves, and sameness of shape alignment
by no condition.  Maps are aligned when each key of either is a key of the other, as far as the
maps themselves can tell.
-/

namespace Discrepancy

namespace Value

def storage? : Value → Option Identity
  | sequence .vector _ storage _ => storage
  | map _ _ _ storage _ => some storage
  | _ => none

/-- No vector or map of one value is kept in the storage of one of another value. -/
def Unshared (v w : Value) : Prop :=
  ∀ u u', Within u v → Within u' w → u.storage? = u'.storage? → u.storage? = none

instance (v w : Value) : Decidable (Unshared v w) :=
  decidable_of_iff (∀ u ∈ v.subvalues, ∀ u' ∈ w.subvalues, u.storage? = u'.storage? →
      u.storage? = none) <| by
    simp only [mem_subvalues_iff, Unshared]
    exact ⟨fun h u u' hu hu' ↦ h u hu u' hu', fun h u hu u' hu' ↦ h u u' hu hu'⟩

/-- What is kept apart is kept apart in its parts. -/
theorem Unshared.part {v w u u' : Value} (h : Unshared v w) (hu : u ∈ v.parts)
    (hu' : u' ∈ w.parts) : Unshared u u' :=
  fun x x' hx hx' ↦ h x x' (hx.part hu) (hx'.part hu')

end Value

namespace Comparison

variable [Host]

/-- Values of one shape whose leaves are related by `leaf`, and whose maps have numbers of entries
that are related by `count`. -/
inductive Aligned (leaf : Scalar → Scalar → Prop) (count : Nat → Nat → Prop) : Value → Value → Prop
  | absent : Aligned leaf count .absent .absent
  | scalar {s t : Scalar} (hidentity : s.ty.identity = t.ty.identity) (hleaf : leaf s t) :
      Aligned leaf count (.scalar s) (.scalar t)
  | nil {form : PointerForm} {target : Ty} :
      Aligned leaf count (.pointer form target none) (.pointer form target none)
  | pointer {form : PointerForm} {target : Ty} {object object' : Identity} {v w : Value}
      (h : Aligned leaf count v w) :
      Aligned leaf count (.pointer form target (some (object, v)))
        (.pointer form target (some (object', w)))
  | record {name : Text} {fields others : List (Text × Value)}
      (hlength : fields.length = others.length)
      (h : ∀ (i : Nat) field other, fields[i]? = some field → others[i]? = some other →
        Aligned leaf count field.2 other.2) :
      Aligned leaf count (.record name fields) (.record name others)
  | sequence {form : SequenceForm} {element : Ty} {storage storage' : Option Identity}
      {elements others : List Value} (hlength : elements.length = others.length)
      (h : ∀ (i : Nat) v w, elements[i]? = some v → others[i]? = some w → Aligned leaf count v w) :
      Aligned leaf count (.sequence form element storage elements)
        (.sequence form element storage' others)
  | map {rule rule' : KeyRule} {key mapped : Ty} {storage storage' : Identity}
      {entries others : List (Value × Value)} (hform : rule.form = rule'.form)
      (hcount : count entries.length others.length)
      (hforth : ∀ k v, (k, v) ∈ entries → (Table.find? rule' k others).isSome)
      (hback : ∀ k w, (k, w) ∈ others → (Table.find? rule k entries).isSome)
      (h : ∀ k v w, (k, v) ∈ entries → Table.find? rule' k others = some w →
        Aligned leaf count v w)
      (h' : ∀ k v w, (k, w) ∈ others → Table.find? rule k entries = some v →
        Aligned leaf count v w) :
      Aligned leaf count (.map rule key mapped storage entries)
        (.map rule' key mapped storage' others)
  | interface {type : InterfaceTy} {alternative alternative' : Option Nat} {v w : Value}
      (h : Aligned leaf count v w) :
      Aligned leaf count (.interface type alternative v) (.interface type alternative' w)

/-- Structural equality. -/
def Equal : Value → Value → Prop :=
  Aligned Scalar.Equal fun _ _ ↦ True

/-- One shape, whatever the leaves are. -/
def SameShape : Value → Value → Prop :=
  Aligned (fun _ _ ↦ True) Eq

namespace Aligned

variable {leaf : Scalar → Scalar → Prop} {count : Nat → Nat → Prop} {want found v w : Value}
  {step : Option Step} {r : Rendering} {ops : Options}

theorem identity (h : Aligned leaf count want found) : want.identity? = found.identity? := by
  cases h with
  | scalar hidentity => exact congrArg some hidentity
  | map hform => exact Value.map_identity_inj.mpr ⟨hform, rfl, rfl⟩
  | _ => rfl

theorem isPresent (h : Aligned leaf count want found) : want.isPresent = found.isPresent := by
  cases h <;> rfl

theorem isAccessible (h : Aligned leaf count want found) :
    want.isAccessible ∧ found.isAccessible := by
  cases h <;> exact ⟨rfl, rfl⟩

/-- Aligned values are inspected, unless they are absent or skipped. -/
theorem inspected (h : Aligned leaf count want found) (hskip : ¬ ops.isSkipped)
    (hpresent : want.isPresent) : Inspected want found ops :=
  ⟨hskip, ⟨hpresent, h.isPresent ▸ hpresent⟩, h.isAccessible, h.identity⟩

/-- Aligned values have aligned parts. -/
theorem part (h : Aligned leaf count want found) (hpart : Part r want found step v w) :
    Aligned leaf count v w := by
  cases hpart with
  | pointee =>
    cases h with
    | pointer h => exact h
  | content =>
    cases h with
    | interface h => exact h
  | field i hwant hfound =>
    cases h with
    | record hlength h => exact h i _ _ hwant hfound
  | element i hwant hfound =>
    cases h with
    | sequence hlength h => exact h i _ _ hwant hfound
  | mapped hwant hfound hlabel =>
    cases h with
    | map _ hcount hforth hback h h' => exact h _ _ _ hwant hfound

/-- An aligned map with a value under each key lacks none of the keys of the other one. -/
theorem not_lacks (h : Aligned leaf count want found) (hvalued : found.Valued) (label : Text) :
    ¬ Lacks r want found label := by
  intro hlacks
  cases hlacks with
  | intro hwant hfound hlabel =>
    cases h with
    | map _ hcount hforth hback h h' =>
      obtain ⟨w, hw⟩ := Option.isSome_iff_exists.mp (hforth _ _ hwant)
      obtain ⟨k', hmem⟩ := Table.exists_mem_of_find? hw
      exact hfound w hw (hvalued _ hmem)

end Aligned

end Comparison

end Discrepancy
