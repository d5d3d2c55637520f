import Discrepancy.Proofs.Locations
import Discrepancy.Proofs.PlainText

/-!
# Reading texts on one line

A text on one line has no lengths in it: types, braces, commas, labels and quoted strings stand one
behind the other.  Values of one type are told apart by it nevertheless, and so labels tell keys
apart.  A word ends at the first stop and a quoted text at its own closing mark; what is nil is
written by a word that no text of an object begins with; and whether a further part follows is told
by the byte behind a part.  The argument goes by induction on what a value shows, for texts with
anything behind them that begins with a stop.
-/

namespace Discrepancy

section Lists

variable {α β γ : Type} {xs : List α} {ys : List β} {a : α} {b : β}

theorem getElem?_of_forall₂ {R : α → β → Prop} (h : List.Forall₂ R xs ys) {i : Nat}
    (ha : xs[i]? = some a) (hb : ys[i]? = some b) : R a b := by
  induction h generalizing i with
  | nil => cases ha
  | cons hhead _ ih =>
    cases i with
    | zero =>
      cases ha
      cases hb
      exact hhead
    | succ i => exact ih ha hb

theorem eq_of_mem_zip {f : α → γ} {g : β → γ} (h : xs.map f = ys.map g)
    (hmem : (a, b) ∈ xs.zip ys) : f a = g b := by
  have hall : List.Forall₂ Eq (xs.map f) (ys.map g) := by rw [List.forall₂_eq_eq_eq, h]
  rw [List.forall₂_map_left_iff, List.forall₂_map_right_iff] at hall
  exact List.forall₂_zip hall hmem

end Lists

/-! ## Words -/

namespace Text

variable {s t x y : Text}

/-- The bytes of words: ASCII letters, digits and the underscore. -/
def isWordByte (b : UInt8) : Bool :=
  (48 ≤ b && b ≤ 57) || (65 ≤ b && b ≤ 90) || (97 ≤ b && b ≤ 122) || b == byte '_'

/-- The word which a text begins with, if it does. -/
def firstWord (t : Text) : Text :=
  t.takeWhile isWordByte

/-- A stop behind a text does not change its first word. -/
theorem firstWord_append (h : ∀ b ∈ t.head?, ¬ isWordByte b) (s : Text) :
    firstWord (s ++ t) = firstWord s := by
  have hnil : t.takeWhile isWordByte = [] := by
    cases t with
    | nil => rfl
    | cons b t => exact List.takeWhile_cons_of_neg (h b rfl)
  rw [firstWord, firstWord, List.takeWhile_append, hnil, List.append_nil]
  split_ifs with hall
  · have hword : firstWord s <+: s := List.takeWhile_prefix isWordByte
    exact (hword.eq_of_length hall).symm
  · rfl

theorem IsStop.not_isWordByte {b : UInt8} (h : IsStop b) : ¬ isWordByte b := by
  rcases h with rfl | rfl | rfl | rfl <;> decide

/-- A text that cannot be taken for the end of a composite value. -/
def IsItem (t : Text) : Prop :=
  t ≠ [] ∧ t.head? ≠ some (byte '\x7d')

instance : DecidablePred IsItem :=
  fun t ↦ inferInstanceAs (Decidable (t ≠ [] ∧ t.head? ≠ some (byte '\x7d')))

theorem isItem_of_firstWord (h : firstWord t ≠ []) : IsItem t := by
  cases t with
  | nil => exact (h rfl).elim
  | cons b t =>
    refine ⟨List.cons_ne_nil b t, fun hb ↦ h ?_⟩
    exact List.takeWhile_cons_of_neg (Option.some.inj hb ▸ by decide)

theorem IsItem.append (h : IsItem s) (t : Text) : IsItem (s ++ t) := by
  refine ⟨List.append_ne_nil_of_left_ne_nil h.1 t, ?_⟩
  rw [List.head?_append_of_ne_nil _ h.1]
  exact h.2

/-- An item is not the end of a composite value. -/
theorem IsItem.append_ne (h : IsItem s) (x y : Text) : s ++ x ≠ byte '\x7d' :: y := fun heq ↦
  (h.append x).2 (by rw [heq]; rfl)

/-- A stop follows each of the parts of a composite value. -/
theorem separates_stop :
    Separates ", " (byte '\x7d') fun x : Text ↦ ∀ b ∈ x.head?, IsStop b where
  between _ b hb := .inr (.inl (Option.mem_some_iff.mp hb).symm)
  behind _ b hb := .inr (.inr (.inl (Option.mem_some_iff.mp hb).symm))
  apart _ _ heq := absurd (List.cons.inj heq).1 (by decide)

end Text

/-! ## Conditions -/

/-- The types some of whose values are written like nil. -/
def Ty.isNilable : Ty → Bool
  | pointer .. | variant _ => true
  | atom (.string type) => type.isBorrowed
  | _ => false

namespace Value

/-- A truth value, an integer, a well-formed string, a composite value, or a pointer to objects that
are not written like nil.  Only a borrowed string may be nil. -/
inductive Elementary : Value → Prop
  | bool (b : Bool) : Elementary (scalar (.bool b))
  | integer (type : IntegerTy) (n : Int) : Elementary (scalar (.integer type n))
  | nil {type : StringTy} {place : Identity} (h : type.isBorrowed) :
      Elementary (scalar (.string type none place))
  | string {type : StringTy} {t : Text} {place : Identity} (ht : t.isWellFormed) :
      Elementary (scalar (.string type (some t) place))
  | pointer {form : PointerForm} {target : Ty} {pointee : Option (Identity × Value)}
      (h : ¬ target.unqualified.isNilable) : Elementary (pointer form target pointee)
  | record {name : Text} {fields : List (Text × Value)} : Elementary (record name fields)
  | sequence {form : SequenceForm} {element : Ty} {storage : Option Identity}
      {elements : List Value} : Elementary (sequence form element storage elements)
  | map {rule : KeyRule} {key mapped : Ty} {storage : Identity} {entries : List (Value × Value)} :
      Elementary (map rule key mapped storage entries)

instance : DecidablePred Elementary
  | scalar (.bool b) => isTrue (.bool b)
  | scalar (.integer type n) => isTrue (.integer type n)
  | scalar (.string type none _) => decidable_of_iff type.isBorrowed ⟨.nil, fun | .nil h => h⟩
  | scalar (.string _ (some t) _) =>
    decidable_of_iff t.isWellFormed ⟨.string, fun | .string ht => ht⟩
  | pointer _ target _ =>
    decidable_of_iff (¬ target.unqualified.isNilable) ⟨.pointer, fun | .pointer h => h⟩
  | record .. => isTrue .record
  | sequence .. => isTrue .sequence
  | map .. => isTrue .map
  | scalar (.float ..) | scalar (.complex ..) | scalar (.func ..) | scalar (.chan ..)
  | scalar (.span ..) | scalar (.instant ..) | scalar (.sealed ..) | absent | hidden _
  | interface .. => isFalse nofun

/-- The parts of a value are of the types which its own type asks for, where a record type asks for
the fields that it was declared with. -/
def Typed (declared : Text → List (Text × Ty)) : Value → Prop
  | pointer _ target pointee => ∀ object ∈ pointee, object.2.ty? = some target.unqualified
  | record name fields =>
    (fields.map fun field ↦ (field.1, field.2.ty?)) =
      (declared name).map fun field ↦ (field.1, some field.2)
  | sequence _ element _ elements => ∀ u ∈ elements, u.ty? = some element.unqualified
  | map _ _ mapped _ entries => ∀ entry ∈ entries, entry.2.ty? = some mapped.unqualified
  | _ => True

instance (declared : Text → List (Text × Ty)) : DecidablePred (Typed declared)
  | pointer _ target pointee => inferInstanceAs (Decidable
      (∀ object ∈ pointee, object.2.ty? = some target.unqualified))
  | record name fields => inferInstanceAs (Decidable
      ((fields.map fun field ↦ (field.1, field.2.ty?)) =
        (declared name).map fun field ↦ (field.1, some field.2)))
  | sequence _ element _ elements => inferInstanceAs (Decidable
      (∀ u ∈ elements, u.ty? = some element.unqualified))
  | map _ _ mapped _ entries => inferInstanceAs (Decidable
      (∀ entry ∈ entries, entry.2.ty? = some mapped.unqualified))
  | absent | hidden _ | scalar _ | interface .. => isTrue trivial

/-- The type of an array in place is named after its elements, whose type may have any name; it has
one that begins with a word, which is not the one for nil. -/
def Titled : Value → Prop
  | sequence (.inPlace size) element storage elements =>
    Text.firstWord (sequence (.inPlace size) element storage elements).typeName ∉
      [[], Rendering.absentText]
  | _ => True

instance : DecidablePred Titled
  | sequence (.inPlace size) element storage elements => inferInstanceAs (Decidable
      (Text.firstWord (sequence (.inPlace size) element storage elements).typeName ∉
        [[], Rendering.absentText]))
  | sequence .vector .. | sequence (.array _) .. | absent | hidden _ | scalar _ | pointer ..
  | record .. | map .. | interface .. => isTrue trivial

theorem Titled.firstWord_typeName {form : SequenceForm} {element : Ty} {storage : Option Identity}
    {elements : List Value} (h : (sequence form element storage elements).Titled) :
    Text.firstWord (sequence form element storage elements).typeName ∉
      [[], Rendering.absentText] := by
  cases form with
  | vector => exact (by decide : Text.utf8 "std" ∉ [[], Rendering.absentText])
  | array size => exact (by decide : Text.utf8 "std" ∉ [[], Rendering.absentText])
  | inPlace size => exact h

theorem firstWord_typeName_map {rule : KeyRule} {key mapped : Ty} {storage : Identity}
    {entries : List (Value × Value)} :
    Text.firstWord (map rule key mapped storage entries).typeName ∉
      [[], Rendering.absentText] := by
  obtain ⟨⟨ordered, comparator⟩, state⟩ := rule
  cases ordered with
  | false => exact (by decide : Text.utf8 "std" ∉ [[], Rendering.absentText])
  | true => exact (by decide : Text.utf8 "std" ∉ [[], Rendering.absentText])

variable [Host]

/-- What makes the text of a value readable. -/
structure Readable (declared : Text → List (Text × Ty)) (v : Value) : Prop where
  elementary : v.Elementary
  typed : v.Typed declared
  keyed : v.Keyed
  plain : v.PlainKeys
  titled : v.Titled

instance (declared : Text → List (Text × Ty)) : DecidablePred (Readable declared) := fun v ↦
  decidable_of_iff (v.Elementary ∧ v.Typed declared ∧ v.Keyed ∧ v.PlainKeys ∧ v.Titled)
    ⟨fun ⟨h₁, h₂, h₃, h₄, h₅⟩ ↦ ⟨h₁, h₂, h₃, h₄, h₅⟩,
      fun h ↦ ⟨h.elementary, h.typed, h.keyed, h.plain, h.titled⟩⟩

variable {declared : Text → List (Text × Ty)} {v w : Value}

theorem Elementary.renderable (h : v.Elementary) : v.Renderable := by
  rw [renderable_iff]
  cases h <;> exact ⟨by first | exact Bool.false_ne_true | trivial, trivial⟩

/-- Two values of one make and one type. -/
inductive Beside : Value → Value → Prop
  | scalars {s s' : Scalar} (htype : s.ty = s'.ty) : Beside (scalar s) (scalar s')
  | pointers {form : PointerForm} {target : Ty} (pointee pointee' : Option (Identity × Value)) :
      Beside (pointer form target pointee) (pointer form target pointee')
  | records {name : Text} (fields fields' : List (Text × Value)) :
      Beside (record name fields) (record name fields')
  | sequences {form : SequenceForm} {element : Ty} (storage storage' : Option Identity)
      (elements elements' : List Value) :
      Beside (sequence form element storage elements) (sequence form element storage' elements')
  | maps {rule rule' : KeyRule} {key mapped : Ty} (hform : rule.form = rule'.form)
      (storage storage' : Identity) (entries entries' : List (Value × Value)) :
      Beside (map rule key mapped storage entries) (map rule' key mapped storage' entries')

omit [Host] in
theorem Elementary.beside (hv : v.Elementary) (hw : w.Elementary) (htype : v.ty? = w.ty?) :
    Beside v w := by
  -- Elementary values of different makes are of different types.
  cases hv <;> cases hw
  all_goals first
    | exact .scalars (Option.some.inj htype)
    | (cases htype; constructor)
    | (injection Option.some.inj htype with hform hkey hmapped; subst hkey hmapped
       exact .maps hform ..)
    | cases htype

end Value

namespace Rendering

open Text (IsStop IsItem byte)
open Comparison (Equal)

variable [Host] {declared : Text → List (Text × Ty)} {r : Rendering} {v w : Value} {level : Int}
  {x y t : Text}

/-- A rendering on one line, by the rules of the kinds alone and without addresses. -/
structure Bare (r : Rendering) : Prop where
  flat : r.style.flat
  plain : r.renderers = []
  addresses : ¬ r.style.addresses

theorem Bare.textAt_scalar (hr : r.Bare) {s : Scalar} (hs : (s.text r.style).Yields t)
    (level : Int) : r.textAt (.scalar s) level = t := by
  rw [(Leaf.scalar hs).textAt hr.plain, Style.leaf_of_flat hr.flat]

theorem Bare.text_string (hr : r.Bare) (type : StringTy) (t : Text) (place : Identity) :
    (Scalar.text r.style (.string type (some t) place)).Yields t.quoted := by
  rw [Scalar.text, Style.stringText, if_pos (by simp [hr.flat])]
  exact Outcome.yields_pure.mpr rfl

theorem Bare.textAt_nil (hr : r.Bare) (form : PointerForm) (target : Ty) (level : Int) :
    r.textAt (.pointer form target none) level = absentText := by
  rw [(Leaf.nil hr.addresses).textAt hr.plain, Style.leaf_of_flat hr.flat]

theorem Bare.textAt_pointer (hr : r.Bare) (form : PointerForm) (target : Ty) (object : Identity)
    (u : Value) (level : Int) :
    r.textAt (.pointer form target (some (object, u))) level = r.textAt u level :=
  (Through.pointee hr.addresses).textAt hr.plain level

/-- What is readable can be rendered. -/
theorem renderable_of_readable (hv : v.Everywhere (Value.Readable declared)) :
    v.Everywhere Value.Renderable :=
  hv.mono fun _ h ↦ h.elementary.renderable

theorem Bare.textAt_composite (hr : r.Bare) (hv : v.Everywhere (Value.Readable declared))
    (hcomposite : v.IsComposite) (level : Int) : r.textAt v level = v.opening ++
      (Text.joinWith ", " ((r.shownParts v).map (r.linePart (level + 1))) ++ "\x7d") :=
  textAt_composite_of_flat hr.flat hr.plain (renderable_of_readable hv) hcomposite level

/-! ## Beginnings -/

/-- The text of an object begins with another word than nil. -/
theorem Bare.firstWord_textAt (hr : r.Bare) (hv : v.Everywhere (Value.Readable declared))
    {type : Ty} (htype : v.ty? = some type) (hnil : ¬ type.isNilable) (level : Int) :
    Text.firstWord (r.textAt v level) ≠ absentText := by
  have htold {name rest : Text} (hname : Text.firstWord name ∉ [[], absentText]) :
      Text.firstWord ((name ++ "\x7b") ++ rest) ≠ absentText := by
    rw [List.append_assoc, Text.firstWord_append]
    · exact fun h ↦ hname (h ▸ List.mem_cons_of_mem _ List.mem_cons_self)
    · rintro b ⟨⟩
      decide
  cases hv.self.elementary with
  | bool b =>
    rw [hr.textAt_scalar (Outcome.yields_pure.mpr rfl)]
    cases b <;> decide
  | integer type n =>
    rw [hr.textAt_scalar (Outcome.yields_pure.mpr rfl)]
    intro hword
    have hmem : byte 'n' ∈ Text.firstWord (Text.ofInt n) := hword ▸ List.mem_cons_self
    exact absurd (Text.mem_ofInt (List.takeWhile_subset _ hmem)) (by decide)
  | nil h =>
    cases htype
    exact (hnil h).elim
  | @string type t place ht =>
    rw [hr.textAt_scalar (hr.text_string type t place), Text.quoted, List.append_assoc]
    exact (List.cons_ne_nil _ _).symm
  | pointer h =>
    cases htype
    exact (hnil rfl).elim
  | record =>
    rw [hr.textAt_composite hv trivial]
    exact (List.cons_ne_nil _ _).symm
  | sequence =>
    rw [hr.textAt_composite hv trivial]
    exact htold hv.self.titled.firstWord_typeName
  | map =>
    rw [hr.textAt_composite hv trivial]
    exact htold Value.firstWord_typeName_map

/-- No text of a value can be taken for the end of a composite value. -/
theorem Bare.isItem_textAt (hr : r.Bare) (hv : v.Everywhere (Value.Readable declared))
    (level : Int) : IsItem (r.textAt v level) := by
  induction v using Value.induction_parts with
  | h v ih =>
    have htitle {name : Text} (h : Text.firstWord name ∉ [[], absentText]) : IsItem name :=
      Text.isItem_of_firstWord fun hword ↦ h (hword ▸ List.mem_cons_self)
    cases hv.self.elementary with
    | bool b =>
      rw [hr.textAt_scalar (Outcome.yields_pure.mpr rfl)]
      cases b <;> decide
    | integer type n =>
      rw [hr.textAt_scalar (Outcome.yields_pure.mpr rfl)]
      refine ⟨Text.ofInt_ne_nil n, fun hhead ↦ ?_⟩
      exact absurd (Text.mem_ofInt (List.mem_of_mem_head? hhead)) (by decide)
    | nil h =>
      rw [hr.textAt_scalar (Outcome.yields_pure.mpr rfl)]
      decide
    | @string type t place ht =>
      rw [hr.textAt_scalar (hr.text_string type t place), Text.quoted, List.append_assoc]
      exact Text.IsItem.append (by decide) _
    | @pointer form target pointee h =>
      rcases pointee with _ | ⟨object, u⟩
      · rw [hr.textAt_nil]
        decide
      · have hu : u ∈ (Value.pointer form target (some (object, u))).parts := by simp [Value.parts]
        rw [hr.textAt_pointer]
        exact ih u hu (hv.part hu)
    | record =>
      rw [hr.textAt_composite hv trivial]
      exact Text.IsItem.append (s := "\x7b") (by decide) _
    | sequence =>
      rw [hr.textAt_composite hv trivial]
      exact ((htitle hv.self.titled.firstWord_typeName).append _).append _
    | map =>
      rw [hr.textAt_composite hv trivial]
      exact ((htitle Value.firstWord_typeName_map).append _).append _

/-! ## Telling values apart -/

/-- Two values are equal if their texts begin one text, and are as long in it. -/
def Told (r : Rendering) (v w : Value) : Prop :=
  ∀ level x y, (∀ b ∈ x.head?, IsStop b) → (∀ b ∈ y.head?, IsStop b) →
    r.textAt v level ++ x = r.textAt w level ++ y → Equal v w ∧ x = y

theorem Bare.told_scalar (hr : r.Bare) {s s' : Scalar} (hs : (Value.scalar s).Elementary)
    (hs' : (Value.scalar s').Elementary) (htype : s.ty = s'.ty) :
    r.Told (.scalar s) (.scalar s') := by
  intro level x y hx hy h
  have hnil {t x y : Text} : absentText ++ x ≠ t.quoted ++ y := by
    rw [Text.quoted, List.append_assoc, List.append_assoc]
    exact fun heq ↦ absurd (List.cons.inj heq).1 (by decide)
  cases hs with
  | bool b =>
    cases hs' with
    | bool b' =>
      rw [hr.textAt_scalar (Outcome.yields_pure.mpr rfl),
        hr.textAt_scalar (Outcome.yields_pure.mpr rfl)] at h
      obtain ⟨hb, rfl⟩ := Value.IsPlainKey.eq_of_label (.bool b) (.bool b') rfl hx hy h
      cases hb
      exact ⟨.scalar rfl (.bool b), rfl⟩
    | _ => cases htype
  | integer type n =>
    cases hs' with
    | integer type' n' =>
      rw [hr.textAt_scalar (Outcome.yields_pure.mpr rfl),
        hr.textAt_scalar (Outcome.yields_pure.mpr rfl)] at h
      obtain ⟨hn, rfl⟩ := Value.IsPlainKey.eq_of_label (.integer type n) (.integer type' n')
        (congrArg some htype) hx hy h
      cases hn
      exact ⟨.scalar rfl (.integer n), rfl⟩
    | _ => cases htype
  | @nil type _ _ =>
    rw [hr.textAt_scalar (Outcome.yields_pure.mpr rfl)] at h
    cases hs' with
    | nil _ =>
      rw [hr.textAt_scalar (Outcome.yields_pure.mpr rfl)] at h
      cases htype
      exact ⟨.scalar rfl (.string none), List.append_cancel_left h⟩
    | @string type' t' place' _ =>
      rw [hr.textAt_scalar (hr.text_string type' t' place')] at h
      exact (hnil h).elim
    | _ => cases htype
  | @string type t place ht =>
    rw [hr.textAt_scalar (hr.text_string type t place)] at h
    cases hs' with
    | nil _ =>
      rw [hr.textAt_scalar (Outcome.yields_pure.mpr rfl)] at h
      exact (hnil h.symm).elim
    | @string type' t' place' ht' =>
      rw [hr.textAt_scalar (hr.text_string type' t' place')] at h
      obtain ⟨rfl, rfl⟩ := Text.quoted_append_inj ht ht' h
      cases htype
      exact ⟨.scalar rfl (.string (some t)), rfl⟩
    | _ => cases htype

/-- Pointers are told apart by their objects, and nil by its word. -/
theorem Bare.told_pointer (hr : r.Bare) {form : PointerForm} {target : Ty}
    {pointee pointee' : Option (Identity × Value)}
    (hv : (Value.pointer form target pointee).Everywhere (Value.Readable declared))
    (hw : (Value.pointer form target pointee').Everywhere (Value.Readable declared))
    (hparts : ∀ object ∈ pointee, ∀ object' ∈ pointee', r.Told object.2 object'.2) :
    r.Told (.pointer form target pointee) (.pointer form target pointee') := by
  intro level x y hx hy h
  have hobject {object : Identity} {u : Value} {pointee : Option (Identity × Value)}
      (hv : (Value.pointer form target pointee).Everywhere (Value.Readable declared))
      (hpointee : pointee = some (object, u)) {x y : Text} (hx : ∀ b ∈ x.head?, IsStop b)
      (hy : ∀ b ∈ y.head?, IsStop b) : absentText ++ x ≠ r.textAt u level ++ y := by
    subst hpointee
    intro heq
    have htype := hv.self.typed (object, u) rfl
    have hnil : ¬ target.unqualified.isNilable := by
      cases hv.self.elementary with
      | pointer h => exact h
    have hu := hv.part (w := u) (by simp [Value.parts])
    have hword := congrArg Text.firstWord heq
    rw [Text.firstWord_append fun b hb ↦ (hx b hb).not_isWordByte,
      Text.firstWord_append fun b hb ↦ (hy b hb).not_isWordByte] at hword
    exact hr.firstWord_textAt hu htype hnil level (hword.symm.trans (by decide))
  rcases pointee with _ | ⟨object, u⟩ <;> rcases pointee' with _ | ⟨object', u'⟩
  · rw [hr.textAt_nil] at h
    exact ⟨.nil, List.append_cancel_left h⟩
  · rw [hr.textAt_nil, hr.textAt_pointer] at h
    exact (hobject hw rfl hx hy h).elim
  · rw [hr.textAt_pointer, hr.textAt_nil] at h
    exact (hobject hv rfl hy hx h.symm).elim
  · rw [hr.textAt_pointer, hr.textAt_pointer] at h
    obtain ⟨hequal, hrest⟩ := hparts _ rfl _ rfl level x y hx hy h
    exact ⟨.pointer hequal, hrest⟩

/-- Composite values of one opening are told apart by what they show. -/
theorem Bare.forall₂_of_textAt (hr : r.Bare) (hv : v.Everywhere (Value.Readable declared))
    (hw : w.Everywhere (Value.Readable declared)) (hvs : v.IsComposite) (hws : w.IsComposite)
    (hopening : v.opening = w.opening) {R : Text × Value → Text × Value → Prop}
    (hstep : ∀ a b, (a, b) ∈ (r.shownParts v).zip (r.shownParts w) → ∀ x y,
      (∀ c ∈ x.head?, IsStop c) → (∀ c ∈ y.head?, IsStop c) →
        r.linePart (level + 1) a ++ x = r.linePart (level + 1) b ++ y → R a b ∧ x = y)
    (hitems : (r.shownParts v).length = (r.shownParts w).length ∨
      ∀ item, item ∈ r.shownParts v ∨ item ∈ r.shownParts w →
        IsItem (r.linePart (level + 1) item))
    (h : r.textAt v level ++ x = r.textAt w level ++ y) :
    List.Forall₂ R (r.shownParts v) (r.shownParts w) ∧ x = y := by
  rw [hr.textAt_composite hv hvs, hr.textAt_composite hw hws, hopening, List.append_assoc,
    List.append_assoc, List.append_assoc, List.append_assoc] at h
  exact Text.separates_stop.joinWith_append_inj hstep
    (hitems.imp_right fun hitem a ha ↦ (hitem a ha).append_ne) (List.append_cancel_left h)

section Composites

variable {name : Text} {fields fields' : List (Text × Value)} {form : SequenceForm} {element : Ty}
  {storage storage' : Option Identity} {elements elements' : List Value} {rule rule' : KeyRule}
  {key mapped : Ty} {place place' : Identity} {entries entries' : List (Value × Value)}

/-- Records of one type have as many parts, with the same names in front of them. -/
theorem Bare.told_record (hr : r.Bare)
    (hv : (Value.record name fields).Everywhere (Value.Readable declared))
    (hw : (Value.record name fields').Everywhere (Value.Readable declared))
    (hparts : ∀ u ∈ fields.map Prod.snd, ∀ u' ∈ fields'.map Prod.snd, u.ty? = u'.ty? →
      r.Told u u') : r.Told (.record name fields) (.record name fields') := by
  intro level x y hx hy h
  have hfields : (fields.map fun field ↦ (field.1, field.2.ty?)) =
      fields'.map fun field ↦ (field.1, field.2.ty?) := hv.self.typed.trans hw.self.typed.symm
  have hlength : fields.length = fields'.length := by simpa using congrArg List.length hfields
  have hshown : (r.shownParts (.record name fields)).length =
      (r.shownParts (.record name fields')).length := by simpa [shownParts] using hlength
  refine (hr.forall₂_of_textAt (R := fun a b ↦ Equal a.2 b.2) hv hw trivial trivial rfl ?_
    (.inl hshown) h).imp_left fun hall ↦ ?_
  · intro a b hmem x y hx hy heq
    rw [shownParts, shownParts, List.zip_map] at hmem
    obtain ⟨⟨field, other⟩, hpair, hab⟩ := List.mem_map.mp hmem
    cases hab
    have hpaired := eq_of_mem_zip hfields hpair
    obtain ⟨hname, htype⟩ := Prod.mk.inj hpaired
    obtain ⟨hfield, hother⟩ := List.of_mem_zip hpair
    rw [linePart, linePart] at heq
    dsimp only at heq
    rw [hname, List.append_assoc, List.append_assoc _ _ y] at heq
    exact hparts _ (List.mem_map_of_mem hfield) _ (List.mem_map_of_mem hother) htype _ x y hx hy
      (List.append_cancel_left heq)
  · rw [shownParts, shownParts, List.forall₂_map_left_iff, List.forall₂_map_right_iff] at hall
    exact .record hlength fun i field other ↦ getElem?_of_forall₂ hall

/-- Sequences of one type are told apart by their elements, which no brace is taken for. -/
theorem Bare.told_sequence (hr : r.Bare)
    (hv : (Value.sequence form element storage elements).Everywhere (Value.Readable declared))
    (hw : (Value.sequence form element storage' elements').Everywhere (Value.Readable declared))
    (hparts : ∀ u ∈ elements, ∀ u' ∈ elements', u.ty? = u'.ty? → r.Told u u') :
    r.Told (.sequence form element storage elements)
      (.sequence form element storage' elements') := by
  intro level x y hx hy h
  have hitem {storage : Option Identity} {elements : List Value}
      (hv : (Value.sequence form element storage elements).Everywhere (Value.Readable declared))
      {item : Text × Value} (hmem : item ∈ elements.map fun u ↦ (([] : Text), u)) :
      IsItem (r.linePart (level + 1) item) := by
    obtain ⟨u, hu, rfl⟩ := List.mem_map.mp hmem
    exact hr.isItem_textAt (hv.part hu) _
  refine (hr.forall₂_of_textAt (R := fun a b ↦ Equal a.2 b.2) hv hw trivial trivial rfl ?_
    (.inr fun item hmem ↦ hmem.elim (hitem hv) (hitem hw)) h).imp_left fun hall ↦ ?_
  · intro a b hmem x y hx hy heq
    rw [shownParts, shownParts, List.zip_map] at hmem
    obtain ⟨⟨u, u'⟩, hpair, hab⟩ := List.mem_map.mp hmem
    cases hab
    obtain ⟨hu, hu'⟩ := List.of_mem_zip hpair
    have htype := (hv.self.typed u hu).trans (hw.self.typed u' hu').symm
    exact hparts u hu u' hu' htype _ x y hx hy heq
  · rw [shownParts, shownParts, List.forall₂_map_left_iff, List.forall₂_map_right_iff] at hall
    exact .sequence hall.length_eq fun i u u' ↦ getElem?_of_forall₂ hall

variable [LawfulHost]

/-- A map with plain keys finds its own entries. -/
theorem find?_of_readable (hv : (Value.map rule key mapped place entries).Readable declared)
    {k u : Value} (hmem : (k, u) ∈ entries) : Table.find? rule k entries = some u :=
  Table.find?_of_mem hv.keyed.2 hmem (.inr ((hv.plain _ hmem).same_self rule))

/-- A map shows its own entries, whatever their order. -/
theorem mem_shownParts_map (hplain : r.renderers = [])
    (hv : (Value.map rule key mapped place entries).Readable declared) {a : Text × Value} :
    a ∈ r.shownParts (.map rule key mapped place entries) ↔
      ∃ k u, (k, u) ∈ entries ∧ a = (k.plainLabel ++ ": ", u) := by
  have hshown {k u : Value} (hmem : (k, u) ∈ entries) :
      (r.label k ++ ": ", shownFor rule entries k) = (k.plainLabel ++ ": ", u) := by
    have hk : k.IsPlainKey := hv.plain _ hmem
    rw [label_of_yields (keyLabel_of_isPlainKey hplain hk), shownFor, find?_of_readable hv hmem]
    rfl
  rw [shownParts, List.mem_map]
  constructor
  · rintro ⟨labelled, hlabelled, rfl⟩
    obtain ⟨⟨k, u⟩, hmem, rfl⟩ :=
      List.mem_map.mp ((Table.sortLabelled_perm _).mem_iff.mp hlabelled)
    exact ⟨k, u, hmem, hshown hmem⟩
  · rintro ⟨k, u, hmem, rfl⟩
    exact ⟨_, (Table.sortLabelled_perm _).mem_iff.mpr (List.mem_map_of_mem hmem), hshown hmem⟩

omit [LawfulHost] in
/-- The label of a plain key begins like a word or a quoted text. -/
theorem isItem_plainLabel {k : Value} (hk : k.IsPlainKey) : IsItem k.plainLabel := by
  cases hk with
  | bool b =>
    change IsItem (if b then "true" else "false")
    cases b <;> decide
  | integer type n =>
    refine ⟨Text.ofInt_ne_nil n, fun hhead ↦ ?_⟩
    exact absurd (Text.mem_ofInt (List.mem_of_mem_head? hhead)) (by decide)
  | @string type t hown ht =>
    rw [Value.plainLabel, Text.quoted, List.append_assoc]
    exact Text.IsItem.append (s := "\"") (by decide) _

/-- Maps with plain keys are equal if each entry of one is met by an equal one of the other. -/
theorem equal_of_met (hform : rule.form = rule'.form)
    (hv : (Value.map rule key mapped place entries).Readable declared)
    (hw : (Value.map rule' key mapped place' entries').Readable declared)
    (hforth : ∀ k u, (k, u) ∈ entries → ∃ u', (k, u') ∈ entries' ∧ Equal u u')
    (hback : ∀ k u', (k, u') ∈ entries' → ∃ u, (k, u) ∈ entries ∧ Equal u u') :
    Equal (.map rule key mapped place entries) (.map rule' key mapped place' entries') := by
  refine .map hform trivial (fun k u hmem ↦ ?_) (fun k u' hmem ↦ ?_)
    (fun k u u' hmem hfind ↦ ?_) fun k u u' hmem hfind ↦ ?_
  · obtain ⟨u', hmem', -⟩ := hforth k u hmem
    rw [find?_of_readable hw hmem']
    rfl
  · obtain ⟨u, hmem', -⟩ := hback k u' hmem
    rw [find?_of_readable hv hmem']
    rfl
  · obtain ⟨v', hmem', hequal⟩ := hforth k u hmem
    rw [find?_of_readable hw hmem'] at hfind
    cases hfind
    exact hequal
  · obtain ⟨v', hmem', hequal⟩ := hback k u' hmem
    rw [find?_of_readable hv hmem'] at hfind
    cases hfind
    exact hequal

/-- Maps of one type are told apart by their keys, which are read off their labels, and by what
stands behind these. -/
theorem Bare.told_map (hr : r.Bare) (hform : rule.form = rule'.form)
    (hv : (Value.map rule key mapped place entries).Everywhere (Value.Readable declared))
    (hw : (Value.map rule' key mapped place' entries').Everywhere (Value.Readable declared))
    (hparts : ∀ entry ∈ entries, ∀ entry' ∈ entries', entry.2.ty? = entry'.2.ty? →
      r.Told entry.2 entry'.2) :
    r.Told (.map rule key mapped place entries) (.map rule' key mapped place' entries') := by
  intro level x y hx hy h
  have hmem {a : Text × Value} := mem_shownParts_map (a := a) hr.plain hv.self
  have hmem' {a : Text × Value} := mem_shownParts_map (a := a) hr.plain hw.self
  have hkeys {k u k' u' : Value} (hk : (k, u) ∈ entries) (hk' : (k', u') ∈ entries') {x y : Text}
      (hx : ∀ b ∈ x.head?, IsStop b) (hy : ∀ b ∈ y.head?, IsStop b)
      (h : k.plainLabel ++ x = k'.plainLabel ++ y) : k = k' ∧ x = y := by
    have htype := (hv.self.keyed.1 _ hk).2.trans (hw.self.keyed.1 _ hk').2.symm
    exact (hv.self.plain _ hk).eq_of_label (hw.self.plain _ hk') htype hx hy h
  have hcolon (x : Text) : ∀ b ∈ (": " ++ x : Text).head?, IsStop b :=
    fun b hb ↦ .inr (.inr (.inr (Option.mem_some_iff.mp hb).symm))
  have hlabels {k u k' u' : Value} (hk : (k, u) ∈ entries) (hk' : (k', u') ∈ entries')
      (h : (k.plainLabel ++ ": " : Text) = k'.plainLabel ++ ": ") : k = k' :=
    (hkeys hk hk' (hcolon []) (hcolon []) h).1
  have hopening : (Value.map rule key mapped place entries).opening =
      (Value.map rule' key mapped place' entries').opening := by
    change Value.typeName _ ++ _ = Value.typeName _ ++ _
    rw [Value.typeName, Value.typeName, Value.ty?, Value.ty?, hform]
  refine (hr.forall₂_of_textAt (R := fun a b ↦ a.1 = b.1 ∧ Equal a.2 b.2) hv hw trivial trivial
    hopening ?_ (.inr fun item hitem ↦ ?_) h).imp_left fun hall ↦ ?_
  · intro a b hpair x y hx hy heq
    obtain ⟨ha, hb⟩ := List.of_mem_zip hpair
    obtain ⟨k, u, hk, rfl⟩ := hmem.mp ha
    obtain ⟨k', u', hk', rfl⟩ := hmem'.mp hb
    rw [linePart, linePart, List.append_assoc, List.append_assoc, List.append_assoc,
      List.append_assoc] at heq
    obtain ⟨rfl, hrest⟩ := hkeys hk hk' (hcolon _) (hcolon _) heq
    have htype := (hv.self.typed _ hk).trans (hw.self.typed _ hk').symm
    obtain ⟨hequal, rfl⟩ := hparts _ hk _ hk' htype _ x y hx hy (List.append_cancel_left hrest)
    exact ⟨⟨rfl, hequal⟩, rfl⟩
  · rw [linePart]
    apply IsItem.append
    rcases hitem with hitem | hitem
    · obtain ⟨k, u, hk, rfl⟩ := hmem.mp hitem
      exact (isItem_plainLabel (hv.self.plain _ hk)).append _
    · obtain ⟨k, u, hk, rfl⟩ := hmem'.mp hitem
      exact (isItem_plainLabel (hw.self.plain _ hk)).append _
  · refine equal_of_met hform hv.self hw.self (fun k u hk ↦ ?_)
      fun k u' hk' ↦ ?_
    · obtain ⟨item, hitem, hlabel, hequal⟩ :=
        Outcome.exists_of_mem_left hall (hmem.mpr ⟨k, u, hk, rfl⟩)
      obtain ⟨k', u', hk', rfl⟩ := hmem'.mp hitem
      obtain rfl := hlabels hk hk' hlabel
      exact ⟨u', hk', hequal⟩
    · obtain ⟨item, hitem, hlabel, hequal⟩ :=
        Outcome.exists_of_mem_right hall (hmem'.mpr ⟨k, u', hk', rfl⟩)
      obtain ⟨k', u, hk, rfl⟩ := hmem.mp hitem
      obtain rfl := hlabels hk hk' hlabel
      exact ⟨u, hk, hequal⟩

end Composites

/-- Readable values of one type are told apart by their texts, wherever these end. -/
theorem Bare.told [LawfulHost] (hr : r.Bare) (hv : v.Everywhere (Value.Readable declared))
    (hw : w.Everywhere (Value.Readable declared)) (htype : v.ty? = w.ty?) : r.Told v w := by
  induction v using Value.induction_parts generalizing w with
  | h v ih =>
    have hparts (u : Value) (hu : u ∈ v.parts) (u' : Value) (hu' : u' ∈ w.parts)
        (htype : u.ty? = u'.ty?) : r.Told u u' := ih u hu (hv.part hu) (hw.part hu') htype
    cases hv.self.elementary.beside hw.self.elementary htype with
    | scalars hscalars => exact hr.told_scalar hv.self.elementary hw.self.elementary hscalars
    | pointers pointee pointee' =>
      refine hr.told_pointer hv hw fun object hobject object' hobject' ↦ ?_
      have htype := (hv.self.typed _ hobject).trans (hw.self.typed _ hobject').symm
      exact hparts _ (by simp [Value.parts, Option.mem_def.mp hobject]) _
        (by simp [Value.parts, Option.mem_def.mp hobject']) htype
    | records fields fields' => exact hr.told_record hv hw hparts
    | sequences storage storage' elements elements' => exact hr.told_sequence hv hw hparts
    | maps hform storage storage' entries entries' =>
      refine hr.told_map hform hv hw fun entry hentry entry' hentry' htype ↦ ?_
      exact hparts _ (Value.mapped_mem_parts hentry) _ (Value.mapped_mem_parts hentry') htype

/-- Texts of readable values of one type are the same only if the values are equal. -/
theorem Bare.equal_of_textAt_eq [LawfulHost] (hr : r.Bare)
    (hv : v.Everywhere (Value.Readable declared)) (hw : w.Everywhere (Value.Readable declared))
    (htype : v.ty? = w.ty?)
    (h : r.textAt v level = r.textAt w level) : Equal v w :=
  (hr.told hv hw htype level [] [] (by simp) (by simp) (by rw [h])).1

omit [Host] in
/-- Under one trail, different labels give different trails. -/
theorem extend_key_inj {base l l' : Text}
    (h : Trail.extend base (.key l) = Trail.extend base (.key l')) : l = l' :=
  List.append_cancel_left (List.append_cancel_right h)

/-- Texts on one line tell readable values of one type apart, and so do labels and the segments of
trails that are made of them. -/
theorem equal_of_line_eq [LawfulHost] (hplain : r.renderers = []) (haddresses : ¬ r.style.addresses)
    (hv : v.Everywhere (Value.Readable declared)) (hw : w.Everywhere (Value.Readable declared))
    (htype : v.ty? = w.ty?) :
    (r.style.flat → ∀ level, ∃ t t', (r.value v level).Yields t ∧ (r.value w level).Yields t' ∧
      (t = t' → Equal v w)) ∧
    ∃ l l', (r.keyLabel v).Yields l ∧ (r.keyLabel w).Yields l' ∧ (l = l' → Equal v w) ∧
      ∀ base, Trail.extend base (.key l) = Trail.extend base (.key l') → Equal v w := by
  have hvalue {r : Rendering} (hr : r.Bare) (level : Int) :
      (r.value v level).Yields (r.textAt v level) ∧ (r.value w level).Yields (r.textAt w level) :=
    ⟨value_yields hr.plain (renderable_of_readable hv) level,
      value_yields hr.plain (renderable_of_readable hw) level⟩
  have hkeys : r.forKeys.Bare := ⟨rfl, forKeys_plain hplain, haddresses⟩
  refine ⟨fun hflat level ↦ ?_, ?_⟩
  · have hr : r.Bare := ⟨hflat, hplain, haddresses⟩
    exact ⟨_, _, (hvalue hr level).1, (hvalue hr level).2, hr.equal_of_textAt_eq hv hw htype⟩
  · have hlabels (h : r.forKeys.textAt v 0 = r.forKeys.textAt w 0) : Equal v w :=
      hkeys.equal_of_textAt_eq hv hw htype h
    exact ⟨_, _, (hvalue hkeys 0).1, (hvalue hkeys 0).2, hlabels,
      fun base h ↦ hlabels (extend_key_inj h)⟩

end Rendering

/-! ## Samples -/

namespace Rendering

open scoped Sample

def wordsUnderKey (words : List (Option Text)) : Value :=
  .map .sorted Sample.string (Sample.vectorOf (.pointer .optional Sample.string)) 0
    [(Comparison.word "nullptr\x7d", .sequence .vector (.pointer .optional Sample.string) (some 1)
      (words.map fun t? ↦
        .pointer .optional Sample.string (t?.map fun t ↦ (2, Comparison.word t))))]

/-- A string that reads like two words is not mistaken for them. -/
theorem equal_of_line_eq_wordsUnderKey :
    ∃ l l', (Rendering.keyLabel {} (wordsUnderKey [some "a\", nullptr"])).Yields l ∧
      (Rendering.keyLabel {} (wordsUnderKey [some "a", none])).Yields l' ∧ l ≠ l' := by
  have hv : (wordsUnderKey [some "a\", nullptr"]).Everywhere (Value.Readable fun _ ↦ []) := by
    decide
  have hw : (wordsUnderKey [some "a", none]).Everywhere (Value.Readable fun _ ↦ []) := by decide
  obtain ⟨l, l', hl, hl', hequal, -⟩ := (equal_of_line_eq (r := {}) rfl (by decide) hv hw rfl).2
  refine ⟨l, l', hl, hl', fun h ↦ ?_⟩
  cases hequal h with
  | map _ _ _ _ hmapped _ =>
    cases hmapped _ _ _ (List.mem_singleton_self _) rfl with
    | sequence hlength => exact absurd hlength (by decide)

end Rendering

end Discrepancy
