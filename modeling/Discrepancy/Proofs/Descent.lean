import Discrepancy.Proofs.Inspection
import Discrepancy.Proofs.LeafEquality
import Discrepancy.Proofs.Rendered
import Discrepancy.Proofs.Tables

/-!
# Descent

Two values have parts in common: the objects of two pointers, fields and elements at one place, and
the values under one key.  Where a comparison looks at two values, it goes on with exactly these,
and with the keys which the second map lacks.
-/

namespace Discrepancy

namespace Value

theorem eq_absent {v : Value} (h : ¬ v.isPresent) : v = absent := by
  cases v with
  | absent => rfl
  | _ => exact (h rfl).elim

/-! ### Values of one type -/

theorem pointer_identity_inj {form form' : PointerForm} {target target' : Ty}
    {pointee pointee' : Option (Identity × Value)} :
    (pointer form target pointee).identity? = (pointer form' target' pointee').identity? ↔
      form = form' ∧ target = target' := by
  simp [identity?, ty?, Ty.identity]

/-- Records are of one type if they have one name; their fields are no part of it. -/
theorem record_identity_inj {name name' : Text} {fields others : List (Text × Value)} :
    (record name fields).identity? = (record name' others).identity? ↔ name = name' := by
  simp [identity?, ty?, Ty.identity]

theorem sequence_identity_inj {form form' : SequenceForm} {element element' : Ty}
    {storage storage' : Option Identity} {elements others : List Value} :
    (sequence form element storage elements).identity? =
        (sequence form' element' storage' others).identity? ↔
      form = form' ∧ element = element' := by
  simp [identity?, ty?, Ty.identity]

/-- Maps are of one type if their forms, key types and mapped types are; the states of their
comparators do not count. -/
theorem map_identity_inj {rule rule' : KeyRule} {key key' mapped mapped' : Ty}
    {storage storage' : Identity} {entries others : List (Value × Value)} :
    (map rule key mapped storage entries).identity? =
        (map rule' key' mapped' storage' others).identity? ↔
      rule.form = rule'.form ∧ key = key' ∧ mapped = mapped' := by
  simp [identity?, ty?, Ty.identity]

/-! ### Conditions -/

/-- The keys of a map are of its key type, and none comes twice. -/
def Keyed [Host] : Value → Prop
  | map rule key _ _ entries =>
    (∀ entry ∈ entries, entry.1.isAccessible ∧ entry.1.ty? = some key) ∧
      Table.Distinct rule entries
  | _ => True

instance [Host] : DecidablePred Keyed
  | map rule key _ _ entries => inferInstanceAs (Decidable
      ((∀ entry ∈ entries, entry.1.isAccessible ∧ entry.1.ty? = some key) ∧
        Table.Distinct rule entries))
  | absent | hidden _ | scalar _ | pointer .. | record .. | sequence .. | interface .. =>
    isTrue trivial

/-- A map finds what it has for a key of its key type. -/
theorem lookup_eq [Host] {rule : KeyRule} {key mapped : Ty} {storage : Identity}
    {entries : List (Value × Value)} {k : Value} (haccessible : k.isAccessible)
    (htype : k.ty? = some key) :
    (map rule key mapped storage entries).lookup k =
      pure ((Table.find? rule k entries).getD absent) := by
  have hcast : k.castFault? key = none := by
    simp [castFault?, haccessible, htype]
  rw [lookup, cast, hcast]
  exact Outcome.pure_bind _ _

/-- No mapped value is absent, as all values of a unit type are. -/
def Valued : Value → Prop
  | map _ _ _ _ entries => ∀ entry ∈ entries, entry.2.isPresent
  | _ => True

instance : DecidablePred Valued
  | map _ _ _ _ entries => inferInstanceAs (Decidable (∀ entry ∈ entries, entry.2.isPresent))
  | absent | hidden _ | scalar _ | pointer .. | record .. | sequence .. | interface .. =>
    isTrue trivial

/-- What a map finds its entries by. -/
def rule? : Value → Option KeyRule
  | map rule .. => some rule
  | _ => none

/-- The comparators of maps of one type are in one state. -/
def Agreeing (v w : Value) : Prop :=
  ∀ u ∈ v.subvalues, ∀ u' ∈ w.subvalues, u.identity? = u'.identity? →
    ∀ rule ∈ u.rule?, ∀ rule' ∈ u'.rule?, rule = rule'

instance (v w : Value) : Decidable (Agreeing v w) :=
  inferInstanceAs (Decidable (∀ u ∈ v.subvalues, ∀ u' ∈ w.subvalues, u.identity? = u'.identity? →
    ∀ rule ∈ u.rule?, ∀ rule' ∈ u'.rule?, rule = rule'))

theorem Agreeing.part {v w u u' : Value} (h : Agreeing v w) (hu : u ∈ v.parts)
    (hu' : u' ∈ w.parts) : Agreeing u u' := by
  intro x hx x' hx'
  exact h x (mem_subvalues_iff.mpr ((mem_subvalues_iff.mp hx).part hu)) x'
    (mem_subvalues_iff.mpr ((mem_subvalues_iff.mp hx').part hu'))

/-- Maps of one type find their entries by one rule. -/
theorem Agreeing.rule_eq {rule rule' : KeyRule} {key key' mapped mapped' : Ty}
    {storage storage' : Identity} {entries others : List (Value × Value)}
    (h : Agreeing (map rule key mapped storage entries) (map rule' key' mapped' storage' others))
    (hidentity : (map rule key mapped storage entries).identity? =
      (map rule' key' mapped' storage' others).identity?) : rule = rule' :=
  h _ (mem_subvalues_iff.mpr .self) _ (mem_subvalues_iff.mpr .self) hidentity rule rfl rule' rfl

def size? : Value → Option Nat
  | sequence _ _ _ elements => some elements.length
  | map _ _ _ _ entries => some entries.length
  | _ => none

/-- Two values of one make which have their parts side by side. -/
def Parallel : Value → Value → Prop
  | pointer _ _ (some _), pointer _ _ (some _) => True
  | record _ fields, record _ others => fields.length = others.length
  | sequence _ _ _ elements, sequence _ _ _ others => elements.length = others.length
  | map _ _ _ _ entries, map _ _ _ _ others => entries.length = others.length
  | interface .., interface .. => True
  | _, _ => False

/-- Two vectors or two maps are kept in one storage. -/
def SharesStorage : Value → Value → Prop
  | sequence form _ storage _, sequence _ _ storage' _ => form = .vector ∧ storage = storage'
  | map _ _ _ storage _, map _ _ _ storage' _ => storage = storage'
  | _, _ => False

end Value

namespace Comparison

open Outcome

variable [Host]

/-- Two parts which two values have in common, with the step that leads to them.  Keys are labelled
by a rendering. -/
inductive Part (r : Rendering) : Value → Value → Option Step → Value → Value → Prop
  | pointee {form form' : PointerForm} {target target' : Ty} {object object' : Identity}
      {v w : Value} :
      Part r (.pointer form target (some (object, v))) (.pointer form' target' (some (object', w)))
        none v w
  | content {type type' : InterfaceTy} {alternative alternative' : Option Nat} {v w : Value} :
      Part r (.interface type alternative v) (.interface type' alternative' w) none v w
  | field {record record' name name' : Text} {fields others : List (Text × Value)} {v w : Value}
      (i : Nat) (hwant : fields[i]? = some (name, v)) (hfound : others[i]? = some (name', w)) :
      Part r (.record record fields) (.record record' others) (some (.field name)) v w
  | element {form form' : SequenceForm} {element element' : Ty} {storage storage' : Option Identity}
      {elements others : List Value} {v w : Value}
      (i : Nat) (hwant : elements[i]? = some v) (hfound : others[i]? = some w) :
      Part r (.sequence form element storage elements) (.sequence form' element' storage' others)
        (some (.index i)) v w
  | mapped {rule rule' : KeyRule} {key key' mapped mapped' : Ty} {storage storage' : Identity}
      {entries others : List (Value × Value)} {k v w : Value} {label : Text}
      (hwant : (k, v) ∈ entries) (hfound : Table.find? rule' k others = some w)
      (hlabel : (r.keyLabel k).Yields label) :
      Part r (.map rule key mapped storage entries) (.map rule' key' mapped' storage' others)
        (some (.key label)) v w

/-- The sub-values of two values at the end of a path.  Pointers are followed and interfaces
unwrapped without a step. -/
inductive Located (r : Rendering) : Value → Value → List Step → Value → Value → Prop
  | here {want found : Value} : Located r want found [] want found
  | into {want found v w u u' : Value} {step : Option Step} {path : List Step}
      (hpart : Part r want found step v w) (h : Located r v w path u u') :
      Located r want found (step.toList ++ path) u u'

/-- A key of a map, given by its label, for which another map finds something, or nothing, with
`p`. -/
inductive Finds (r : Rendering) (p : Option Value → Prop) : Value → Value → Text → Prop
  | intro {rule rule' : KeyRule} {key key' mapped mapped' : Ty} {storage storage' : Identity}
      {entries others : List (Value × Value)} {k v : Value} {label : Text}
      (hwant : (k, v) ∈ entries) (hfound : p (Table.find? rule' k others))
      (hlabel : (r.keyLabel k).Yields label) :
      Finds r p (.map rule key mapped storage entries)
        (.map rule' key' mapped' storage' others) label

/-- There is no value under a key. -/
abbrev Lacks (r : Rendering) : Value → Value → Text → Prop :=
  Finds r fun other ↦ ∀ w, other = some w → ¬ w.isPresent

/-- What a comparison goes on with below two values.  A field without a value is passed over, and a
key without a value is taken to be lacking. -/
inductive Leads (r : Rendering) (want found : Value) : Branch → Prop
  | part {step : Option Step} {v w : Value} (h : Part r want found step v w)
      (hfield : ∀ name, step = some (.field name) → v.isPresent)
      (hkey : ∀ label, step = some (.key label) → w.isPresent) :
      Leads r want found (.part step v w)
  | missing {label : Text} (h : Lacks r want found label) : Leads r want found (.missing label)

variable {r : Rendering} {want found v w : Value} {step : Option Step} {ops : Options} {b : Branch}

theorem Part.mem_parts (h : Part r want found step v w) : v ∈ want.parts ∧ w ∈ found.parts := by
  cases h with
  | pointee => simp [Value.parts]
  | content => simp [Value.parts]
  | field i hwant hfound =>
    exact ⟨List.mem_map_of_mem (List.mem_of_getElem? hwant),
      List.mem_map_of_mem (List.mem_of_getElem? hfound)⟩
  | element i hwant hfound => exact ⟨List.mem_of_getElem? hwant, List.mem_of_getElem? hfound⟩
  | mapped hwant hfound hlabel =>
    obtain ⟨k', hmem⟩ := Table.exists_mem_of_find? hfound
    exact ⟨Value.mapped_mem_parts hwant, Value.mapped_mem_parts hmem⟩

/-- What a comparison goes on with is a part of both values. -/
theorem Leads.toPart (h : Leads r want found (.part step v w)) : Part r want found step v w := by
  cases h with
  | part hpart => exact hpart

/-- What stands under a key is present where all mapped values are. -/
theorem Part.isPresent_of_key (h : Part r want found step v w) (hvalued : found.Valued)
    {label : Text} (hstep : step = some (.key label)) : w.isPresent := by
  cases h with
  | mapped hwant hfound hlabel =>
    obtain ⟨k', hmem⟩ := Table.exists_mem_of_find? hfound
    exact hvalued _ hmem
  | _ => cases hstep

/-! ## Branches -/

omit [Host] in
theorem mem_fieldBranches {fields others : List (Text × Value)} :
    b ∈ fieldBranches fields others ↔ ∃ (i : Nat) (name name' : Text) (v w : Value),
      fields[i]? = some (name, v) ∧ others[i]? = some (name', w) ∧ v.isPresent ∧
        b = .part (some (.field name)) v w := by
  induction fields generalizing others with
  | nil => simp [fieldBranches]
  | cons field rest ih =>
    cases others with
    | nil => simp [fieldBranches]
    | cons other others =>
      rw [← Nat.or_exists_add_one]
      simp only [List.getElem?_cons_succ, List.getElem?_cons_zero, ← ih, fieldBranches]
      split_ifs with hpresent
      · rw [List.mem_cons]
        refine or_congr_left ⟨?_, ?_⟩
        · rintro rfl
          exact ⟨_, _, _, _, rfl, rfl, hpresent, rfl⟩
        · rintro ⟨name, name', v, w, hv, hw, -, rfl⟩
          cases hv
          cases hw
          rfl
      · refine (or_iff_right ?_).symm
        rintro ⟨name, name', v, w, hv, -, hv', -⟩
        cases hv
        exact hpresent hv'

omit [Host] in
/-- The branches of two sequences are their elements at common indices. -/
theorem mem_elementBranches {elements others : List Value} {start : Nat} :
    b ∈ elementBranches elements others start ↔ ∃ (i : Nat) (v w : Value),
      elements[i]? = some v ∧ others[i]? = some w ∧ b = .part (some (.index (start + i))) v w := by
  induction elements generalizing others start with
  | nil => simp [elementBranches]
  | cons v rest ih =>
    cases others with
    | nil => simp [elementBranches]
    | cons w others =>
      rw [← Nat.or_exists_add_one]
      simp only [List.getElem?_cons_succ, List.getElem?_cons_zero, elementBranches, List.mem_cons,
        ih, Nat.add_zero, Nat.add_assoc, Nat.add_comm 1]
      refine or_congr_left ⟨?_, ?_⟩
      · rintro rfl
        exact ⟨v, w, rfl, rfl, rfl⟩
      · rintro ⟨v, w, hv, hw, rfl⟩
        cases hv
        cases hw
        rfl

/-- The branch of a key goes by what the other map finds for it. -/
theorem keyBranch_eq [LawfulHost] {rule rule' : KeyRule} {key mapped mapped' : Ty}
    {storage storage' : Identity} {entries others : List (Value × Value)} {k v : Value}
    {label : Text} (hform : rule.form = rule'.form)
    (hkeyed : (Value.map rule key mapped storage entries).Keyed) (hmem : (k, v) ∈ entries) :
    keyBranch (.map rule' key mapped' storage' others) rule entries label k =
      (Table.find? rule' k others).elim (.missing label) fun w ↦
        if w.isPresent then .part (some (.key label)) v w else .missing label := by
  obtain ⟨haccessible, htype⟩ := hkeyed.1 (k, v) hmem
  rw [keyBranch, Value.lookup_eq haccessible htype]
  cases hfound : Table.find? rule' k others with
  | none => rfl
  | some w =>
    have hself := (Table.ordered_or_same_of_find? hfound).imp (hform ▸ ·)
      (KeyRule.same_self_of_form hform.symm)
    have hown : Table.find? rule k entries = some v := Table.find?_of_mem hkeyed.2 hmem hself
    rw [hown]
    rfl

/-- The branches of two maps are the parts they have in common and the keys which are lacking. -/
theorem mem_keyBranches [LawfulHost] {rule rule' : KeyRule} {key mapped mapped' : Ty}
    {storage storage' : Identity} {entries others : List (Value × Value)}
    {keys : List (Text × Value)} (hform : rule.form = rule'.form)
    (hkeyed : (Value.map rule key mapped storage entries).Keyed)
    (hkeys : (r.sortedKeys (.map rule key mapped storage entries)).Yields keys) :
    b ∈ keys.map (fun (label, k) ↦
        keyBranch (.map rule' key mapped' storage' others) rule entries label k) ↔
      Leads r (.map rule key mapped storage entries) (.map rule' key mapped' storage' others)
        b := by
  obtain ⟨hreturns, rfl⟩ := Rendering.sortedKeys_yields.mp hkeys
  rw [((Table.sortLabelled_perm _).map _).mem_iff, List.map_map, List.mem_map]
  constructor
  · rintro ⟨⟨k, v⟩, hmem, rfl⟩
    have hlabel := Rendering.keyLabel_yields (hreturns (k, v) hmem)
    rw [Function.comp_apply]
    dsimp only
    rw [keyBranch_eq hform hkeyed hmem]
    cases hfound : Table.find? rule' k others with
    | none => exact .missing (.intro hmem (by simp [hfound]) hlabel)
    | some w =>
      rw [Option.elim_some]
      split_ifs with hpresent
      · exact .part (.mapped hmem hfound hlabel) nofun fun _ _ ↦ hpresent
      · exact .missing (.intro hmem (by simpa [hfound] using hpresent) hlabel)
  · intro h
    cases h with
    | part h hfield hkey =>
      cases h with
      | mapped hmem hfound hlabel =>
        refine ⟨_, hmem, ?_⟩
        rw [Function.comp_apply]
        dsimp only
        rw [keyBranch_eq hform hkeyed hmem, hfound, Rendering.label_of_yields hlabel]
        exact if_pos (hkey _ rfl)
    | missing h =>
      cases h with
      | @intro _ _ _ _ _ _ _ _ _ _ k v _ hmem hfound hlabel =>
        refine ⟨_, hmem, ?_⟩
        rw [Function.comp_apply]
        dsimp only
        rw [keyBranch_eq hform hkeyed hmem, Rendering.label_of_yields hlabel]
        cases hother : Table.find? rule' k others with
        | none => rfl
        | some w => exact if_neg (hfound w hother)

/-! ## Verdicts -/

/-- What a look at two values may show. -/
inductive Look (r : Rendering) : Value → Value → Verdict → Prop
  | scalars {s t : Scalar} : Look r (.scalar s) (.scalar t) (.leaf (decide (s.Equal t)))
  | nils {form form' : PointerForm} {target target' : Ty} :
      Look r (.pointer form target none) (.pointer form' target' none) (.leaf true)
  | oneNil {form form' : PointerForm} {target target' : Ty}
      {pointee pointee' : Option (Identity × Value)} (h : pointee.isSome ≠ pointee'.isSome) :
      Look r (.pointer form target pointee) (.pointer form' target' pointee') (.leaf false)
  | lengths {want found : Value} {m n : Nat} (hwant : want.size? = some m)
      (hfound : found.size? = some n) (hne : m ≠ n) : Look r want found (.lengths m n)
  | shared {want found : Value} (hsize : want.size? = found.size?)
      (hshared : want.SharesStorage found) : Look r want found (.leaf true)
  | branches {want found : Value} {below : List Branch} (hparallel : want.Parallel found)
      (hapart : ¬ want.SharesStorage found) (hbelow : ∀ b, b ∈ below ↔ Leads r want found b) :
      Look r want found (.branches below)

/-- Whatever is left to be compared is a part of both values. -/
theorem Look.part_of_mem {below : List Branch} (h : Look r want found (.branches below))
    (hmem : .part step v w ∈ below) : Part r want found step v w := by
  cases h with
  | branches _ _ hbelow => exact ((hbelow _).mp hmem).toPart

theorem mem_single_iff (hpart : ∀ {step v' w'}, Part r want found step v' w' ↔
      step = none ∧ v' = v ∧ w' = w) (hlacks : ∀ label, ¬ Lacks r want found label) :
    b ∈ [.part none v w] ↔ Leads r want found b := by
  rw [List.mem_singleton]
  constructor
  · rintro rfl
    exact .part (hpart.mpr ⟨rfl, rfl, rfl⟩) nofun nofun
  · intro h
    cases h with
    | part h hfield =>
      obtain ⟨rfl, rfl, rfl⟩ := hpart.mp h
      rfl
    | missing h => exact (hlacks _ h).elim

theorem look_pointees {form form' : PointerForm} {target target' : Ty} {object object' : Identity} :
    Look r (.pointer form target (some (object, v))) (.pointer form' target' (some (object', w)))
      (.branches [.part none v w]) := by
  refine .branches trivial not_false fun b ↦ mem_single_iff ⟨fun h ↦ ?_, ?_⟩ nofun
  · cases h
    exact ⟨rfl, rfl, rfl⟩
  · rintro ⟨rfl, rfl, rfl⟩
    exact .pointee

theorem look_contents {type type' : InterfaceTy} {alternative alternative' : Option Nat} :
    Look r (.interface type alternative v) (.interface type' alternative' w)
      (.branches [.part none v w]) := by
  refine .branches trivial not_false fun b ↦ mem_single_iff ⟨fun h ↦ ?_, ?_⟩ nofun
  · cases h
    exact ⟨rfl, rfl, rfl⟩
  · rintro ⟨rfl, rfl, rfl⟩
    exact .content

theorem look_fields {record record' : Text} {fields others : List (Text × Value)}
    (hlength : fields.length = others.length) :
    Look r (.record record fields) (.record record' others)
      (.branches (fieldBranches fields others)) := by
  refine .branches hlength not_false fun b ↦ mem_fieldBranches.trans ⟨?_, fun h ↦ ?_⟩
  · rintro ⟨i, name, name', v, w, hv, hw, hpresent, rfl⟩
    exact .part (.field i hv hw) (fun _ _ ↦ hpresent) nofun
  · cases h with
    | part h hfield =>
      cases h with
      | field i hv hw => exact ⟨i, _, _, _, _, hv, hw, hfield _ rfl, rfl⟩
    | missing h => cases h

/-- The branches of two sequences are their parts. -/
theorem mem_elementBranches_iff_leads {form form' : SequenceForm} {element element' : Ty}
    {storage storage' : Option Identity} {elements others : List Value} :
    b ∈ elementBranches elements others 0 ↔
      Leads r (.sequence form element storage elements)
        (.sequence form' element' storage' others) b := by
  refine mem_elementBranches.trans ⟨?_, fun h ↦ ?_⟩
  · rintro ⟨i, v, w, hv, hw, rfl⟩
    rw [Nat.zero_add]
    exact .part (.element i hv hw) nofun nofun
  · cases h with
    | part h hfield =>
      cases h with
      | element i hv hw => exact ⟨i, _, _, hv, hw, by rw [Nat.zero_add]⟩
    | missing h => cases h

theorem look_elements {form form' : SequenceForm} {element element' : Ty}
    {storage storage' : Option Identity} {elements others : List Value}
    (hlength : elements.length = others.length) (hapart : ¬ (form = .vector ∧ storage = storage')) :
    Look r (.sequence form element storage elements) (.sequence form' element' storage' others)
      (.branches (elementBranches elements others 0)) :=
  .branches hlength hapart fun _ ↦ mem_elementBranches_iff_leads

/-- A look at two values of one type shows what they are. -/
theorem look_of_inspect [LawfulHost] {verdict : Verdict}
    (hidentity : want.identity? = found.identity?) (hkeyed : want.Keyed)
    (hverdict : (inspect want found ops).Yields verdict) :
    Look ops.rendering want found verdict := by
  unfold inspect at hverdict
  split at hverdict
  · obtain ⟨equal, hequal, rfl⟩ := yields_map.mp hverdict
    rw [scalarsAgree_yields hequal]
    exact .scalars
  · exact yields_pure.mp hverdict ▸ .nils
  · exact yields_pure.mp hverdict ▸ .oneNil nofun
  · exact yields_pure.mp hverdict ▸ .oneNil nofun
  · exact yields_pure.mp hverdict ▸ look_pointees
  · obtain ⟨_, hlength, hverdict⟩ := yields_bind.mp hverdict
    exact yields_pure.mp hverdict ▸ look_fields (beq_iff_eq.mp (yields_assert.mp hlength))
  · split_ifs at hverdict with hlength hshared
    · exact yields_pure.mp hverdict ▸ .lengths rfl rfl (bne_iff_ne.mp hlength)
    · rw [Bool.and_eq_true, beq_iff_eq, beq_iff_eq] at hshared
      exact yields_pure.mp hverdict ▸ .shared (by simpa [Value.size?] using hlength) hshared
    · rw [Bool.and_eq_true, beq_iff_eq, beq_iff_eq] at hshared
      exact yields_pure.mp hverdict ▸ look_elements (by simpa using hlength) hshared
  · obtain ⟨hform, rfl, rfl⟩ := Value.map_identity_inj.mp hidentity
    split_ifs at hverdict with hlength hshared
    · exact yields_pure.mp hverdict ▸ .lengths rfl rfl (bne_iff_ne.mp hlength)
    · rw [beq_iff_eq] at hshared
      exact yields_pure.mp hverdict ▸ .shared (by simpa [Value.size?] using hlength) hshared
    · obtain ⟨keys, hkeys, hverdict⟩ := yields_bind.mp hverdict
      rw [beq_iff_eq] at hshared
      exact yields_pure.mp hverdict ▸ .branches (by simpa [Value.Parallel] using hlength) hshared
        fun b ↦ mem_keyBranches hform hkeyed hkeys
  · exact yields_pure.mp hverdict ▸ look_contents
  · -- Whatever is neither of one make nor a scalar has no equality.
    obtain ⟨equal, hequal, -⟩ := yields_map.mp hverdict
    obtain ⟨s, t, hs, ht, -⟩ := Value.equals_yields hidentity hequal
    have hscalars : ∀ s t, want = .scalar s → found = .scalar t → False := by assumption
    exact (hscalars s t hs ht).elim

end Comparison

end Discrepancy
