import Discrepancy.Proofs.Totality

/-!
# Values through their operations

Comparisons and renderings can be written down in terms of the operations by which values are looked
at: the kind of a value says which operations to use, and the parts are whatever these operations
yield.  For values that were made from objects nothing is refused on the way, and one equation for
comparisons and one for renderings says that each does what its operations do.
-/

namespace Discrepancy

open Outcome

/-- Different identities have different addresses, and nil has one of its own. -/
theorem addressOf_injective : Function.Injective addressOf := by
  intro s t h
  cases s with
  | none =>
    cases t with
    | none => rfl
    | some j => exact (Nat.zero_ne_add_one j h).elim
  | some i =>
    cases t with
    | none => exact (Nat.zero_ne_add_one i h.symm).elim
    | some j => exact congrArg some (Nat.add_right_cancel h)

namespace Value

theorem index_eq {form : SequenceForm} {element : Ty} {storage : Option Identity}
    {elements : List Value} {i : Nat} (hi : i < elements.length) :
    (sequence form element storage elements).index i = pure (elements[i]?.getD absent) := by
  rw [index, Outcome.assert, if_pos (by simpa using hi)]
  rfl

/-- What an operation may give: a part, or nothing. -/
def Offers (v u : Value) : Prop :=
  u ∈ v.parts ∨ u = absent

/-- What an operation gives has the properties of all that stands within the value. -/
theorem Offers.everywhere {p : Value → Prop} {v u : Value} (h : v.Offers u) (hv : v.Everywhere p)
    (habsent : p absent) : u.Everywhere p := by
  rcases h with hpart | rfl
  · exact hv.part hpart
  · exact everywhere_absent habsent

theorem sizeOf_absent_lt {v : Value} (h : v.isPresent) : sizeOf absent < sizeOf v := by
  cases v with
  | absent => cases h
  | hidden type => cases type <;> simp +arith
  | scalar s => cases s <;> simp +arith
  | pointer form target pointee => cases pointee <;> simp +arith
  | record name fields => cases fields <;> simp +arith
  | sequence form element storage elements => cases elements <;> simp +arith
  | map rule key mapped storage entries => cases rule; simp +arith
  | interface type alternative content => cases alternative <;> simp +arith

/-- Operations lead to smaller values, so that depth bounds them. -/
theorem Offers.sizeOf_lt {v u : Value} (h : v.Offers u) (hpresent : v.isPresent) :
    sizeOf u < sizeOf v := by
  rcases h with hpart | rfl
  · exact sizeOf_lt_of_mem_parts hpart
  · exact sizeOf_absent_lt hpresent

theorem offers_index {v u : Value} {i : Nat} (h : (v.index i).Yields u) : v.Offers u := by
  cases v with
  | sequence form element storage elements =>
    obtain ⟨_, hassert, hu⟩ := yields_bind.mp h
    have hi : i < elements.length := by simpa using yields_assert.mp hassert
    rw [List.getElem?_eq_getElem hi] at hu
    exact .inl (yields_pure.mp hu ▸ List.getElem_mem hi)
  | _ => exact (not_yields_fail _ h).elim

theorem offers_elem {v u : Value} (h : v.elem.Yields u) : v.Offers u := by
  cases v with
  | pointer form target pointee =>
    obtain ⟨_, hassert, hu⟩ := yields_bind.mp h
    obtain ⟨⟨object, w⟩, rfl⟩ := Option.isSome_iff_exists.mp (yields_assert.mp hassert)
    exact .inl (yields_pure.mp hu ▸ List.mem_singleton_self _)
  | interface type alternative content =>
    exact .inl (yields_pure.mp h ▸ List.mem_singleton_self _)
  | _ => exact (not_yields_fail _ h).elim

theorem offers_fields {v : Value} {fields : List (Text × Value)} (h : v.fields.Yields fields)
    {field : Text × Value} (hfield : field ∈ fields) : v.Offers field.2 := by
  cases v with
  | record name fields' =>
    obtain rfl := yields_pure.mp h
    exact .inl (List.mem_map_of_mem hfield)
  | _ => exact (not_yields_fail _ h).elim

theorem offers_keys {v k : Value} {keys : List Value} (h : v.keys.Yields keys) (hk : k ∈ keys) :
    v.Offers k := by
  cases v with
  | map rule key mapped storage entries =>
    obtain rfl := yields_pure.mp h
    obtain ⟨entry, hmem, rfl⟩ := List.mem_map.mp hk
    exact .inl (key_mem_parts hmem)
  | _ => exact (not_yields_fail _ h).elim

/-- A lookup gives a part of the map or nothing. -/
theorem offers_lookup [Host] {v k u : Value} (h : (v.lookup k).Yields u) : v.Offers u := by
  cases v with
  | map rule key mapped storage entries =>
    obtain ⟨_, -, hu⟩ := yields_bind.mp h
    rw [← yields_pure.mp hu]
    cases hfound : Table.find? rule _ entries with
    | none => exact .inr rfl
    | some w =>
      obtain ⟨k', hmem⟩ := Table.exists_mem_of_find? hfound
      exact .inl (mapped_mem_parts hmem)
  | _ => exact (not_yields_fail _ h).elim

/-- Going through all indices is going through all elements. -/
theorem map_range_index {α : Type} (form : SequenceForm) (element : Ty) (storage : Option Identity)
    (elements : List Value) (f : Value → Outcome α) :
    (List.range elements.length).map
        (fun i ↦ (sequence form element storage elements).index i >>= f) = elements.map f := by
  apply List.ext_getElem
  · simp
  · intro i hi hi'
    have hlt : i < elements.length := by simpa using hi'
    simp [index_eq hlt, hlt]

end Value

/-! ## Comparisons -/

namespace Comparison

variable [Host]

section Kinds

variable (rest : Value → Rest) (want found : Value) (ops : Options)

def fieldsByKind (fields others : List (Text × Value)) : Outcome (List Notice) := do
  let parts ← Outcome.sequence ((fields.zip others).map fun (field, other) ↦
    if field.2.isPresent then rest field.2 other.2 (ops.below (.field field.1)) else pure [])
  pure parts.flatten

def recordsByKind : Outcome (List Notice) := do
  let fields ← want.fields
  let others ← found.fields
  Outcome.assert (fields.length == others.length) .fieldCountsAgree
  fieldsByKind rest ops fields others

def contentsByKind : Outcome (List Notice) := do
  let v ← want.elem
  let w ← found.elem
  rest v w ops

def elementsByKind (count : Nat) : Outcome (List Notice) := do
  let parts ← Outcome.sequence ((List.range count).map fun i ↦ do
    let v ← want.index i
    let w ← found.index i
    rest v w (ops.below (.index i)))
  pure parts.flatten

def storageByKind : Outcome Bool :=
  if want.kind == .slice then do
    let storage ← want.storage
    let foundStorage ← found.storage
    pure (storage == foundStorage)
  else pure false

def sequencesByKind : Outcome (List Notice) := do
  let count ← want.len
  let foundCount ← found.len
  if count != foundCount then lengthMismatch want found count foundCount ops
  else do
    let shared ← storageByKind want found
    if shared then leaf true want found ops else elementsByKind rest want found ops count

def keyByKind (label : Text) (key : Value) : Outcome (List Notice) := do
  let other ← found.lookup key
  if other.isPresent then do
    let own ← want.lookup key
    rest own other (ops.below (.key label))
  else do
    (ops.below (.key label)).visit false
    pure [← mismatch found .absent (ops.below (.key label)).toContext]

def mapsByKind : Outcome (List Notice) := do
  let count ← want.len
  let foundCount ← found.len
  if count != foundCount then lengthMismatch want found count foundCount ops
  else do
    let storage ← want.storage
    let foundStorage ← found.storage
    if storage == foundStorage then leaf true want found ops
    else do
      let keys ← ops.rendering.sortedKeys want
      let parts ← Outcome.sequence (keys.map fun (label, key) ↦
        keyByKind rest want found ops label key)
      pure parts.flatten

/-- Compares two values of one type by the operations of its kind, and parts in some way. -/
def compareByKind : Outcome (List Notice) :=
  match want.kind with
  | .pointer => do
    let wantNil ← want.isNil
    let foundNil ← found.isNil
    if wantNil || foundNil then leaf (wantNil && foundNil) want found ops
    else contentsByKind rest want found ops
  | .record => recordsByKind rest want found ops
  | .array | .slice => sequencesByKind rest want found ops
  | .map => mapsByKind rest want found ops
  | .interface => contentsByKind rest want found ops
  | .bool => do
    let b ← want.boolValue
    let c ← found.boolValue
    leaf (b == c) want found ops
  | .int => do
    let m ← want.intValue
    let n ← found.intValue
    leaf (m == n) want found ops
  | .uint => do
    let m ← want.uintValue
    let n ← found.uintValue
    leaf (m == n) want found ops
  | .float => do
    let x ← want.floatValue
    let y ← found.floatValue
    leaf (x.equal y) want found ops
  | .complex => do
    let (re, im) ← want.complexValue
    let (re', im') ← found.complexValue
    leaf (re.equal re' && im.equal im') want found ops
  | .string => do
    let wantNil ← want.isNil
    let foundNil ← found.isNil
    let s ← want.stringValue
    let t ← found.stringValue
    leaf (wantNil == foundNil && s == t) want found ops
  | .func | .chan => do
    let m ← want.address
    let n ← found.address
    leaf (m == n) want found ops
  | .other | .invalid => do
    let equal ← want.equals found
    leaf equal want found ops

end Kinds

variable {want found : Value} {ops : Options}

theorem fieldsByKind_eq (fields others : List (Text × Value)) (ops : Options) :
    fieldsByKind compare ops fields others = compareFields fields others ops := by
  induction fields generalizing others with
  | nil => rfl
  | cons field rest ih =>
    cases others with
    | nil => rfl
    | cons other others =>
      rw [compareFields, ← ih]
      by_cases hpresent : field.2.isPresent <;>
        simp [fieldsByKind, Outcome.sequence_cons, hpresent]

theorem compareElements_eq_sequence {elements others : List Value}
    (hlength : elements.length = others.length) (start : Nat) (ops : Options) :
    compareElements elements others start ops = (do
      let parts ← Outcome.sequence ((List.range elements.length).map fun i ↦
        compare (elements[i]?.getD .absent) (others[i]?.getD .absent)
          (ops.below (.index (start + i))))
      pure parts.flatten) := by
  induction elements generalizing others start with
  | nil => rfl
  | cons v rest ih =>
    cases others with
    | nil => cases hlength
    | cons w others =>
      rw [compareElements, ih (Nat.succ.inj hlength), List.length_cons, List.range_succ_eq_map]
      simp [Outcome.sequence_cons, Function.comp_def, Nat.add_assoc, Nat.add_comm 1]

theorem elementsByKind_eq {form form' : SequenceForm} {element element' : Ty}
    {storage storage' : Option Identity} {elements others : List Value}
    (hlength : elements.length = others.length) (ops : Options) :
    elementsByKind compare (.sequence form element storage elements)
        (.sequence form' element' storage' others) ops elements.length =
      compareElements elements others 0 ops := by
  rw [compareElements_eq_sequence hlength, elementsByKind]
  congr 2
  apply List.map_congr_left
  intro i hi
  have hwant : i < elements.length := List.mem_range.mp hi
  have hfound : i < others.length := hlength ▸ hwant
  rw [Value.index_eq hwant, Value.index_eq hfound, Nat.zero_add]
  rfl

omit [Host] in
/-- Addresses are equal if identities are. -/
theorem addressOf_beq (s t : Option Identity) : (addressOf s == addressOf t) = (s == t) := by
  rw [Bool.eq_iff_iff, beq_iff_eq, beq_iff_eq, addressOf_injective.eq_iff]

omit [Host] in
/-- Strings are equal if both or none of them are nil, and their bytes are the same. -/
theorem contents_beq (s t : Option Text) :
    (s.isNone == t.isNone && s.getD [] == t.getD []) = (s == t) := by
  cases s <;> cases t <;> simp

theorem scalarsByKind_eq {s t : Scalar} (hs : (Value.scalar s).Unsealed)
    (ht : (Value.scalar t).Unsealed)
    (hidentity : (Value.scalar s).identity? = (Value.scalar t).identity?) :
    compareByKind compare (.scalar s) (.scalar t) ops =
      scalarsAgree s t >>= fun equal ↦ leaf equal (.scalar s) (.scalar t) ops := by
  -- Scalars of different make have different types, and most of one make are compared outright.
  cases s <;> cases t <;> first
    | exact (hs rfl).elim
    | exact (ht rfl).elim
    | (simp [Value.identity?, Value.ty?, Scalar.ty, Ty.identity] at hidentity; done)
    | rfl
    | skip
  case integer.integer type m type' n =>
    obtain rfl : type = type' := by
      simpa [Value.identity?, Value.ty?, Scalar.ty, Ty.identity] using hidentity
    cases type <;> rfl
  case string.string type s place type' t place' =>
    change leaf (s.isNone == t.isNone && s.getD [] == t.getD []) _ _ ops = _
    rw [contents_beq]
    rfl
  case func.func form result parameters s form' result' parameters' t =>
    change leaf (addressOf s == addressOf t) _ _ ops = _
    rw [addressOf_beq]
    rfl
  case chan.chan name s name' t =>
    change leaf (addressOf s == addressOf t) _ _ ops = _
    rw [addressOf_beq]
    rfl

theorem sequencesByKind_eq {form form' : SequenceForm} {element element' : Ty}
    {storage storage' : Option Identity} {elements others : List Value} :
    sequencesByKind compare (.sequence form element storage elements)
        (.sequence form' element' storage' others) ops =
      inspect (.sequence form element storage elements)
          (.sequence form' element' storage' others) ops >>=
        conclude (.sequence form element storage elements)
          (.sequence form' element' storage' others) ops := by
  have hstorage : storageByKind (.sequence form element storage elements)
      (.sequence form' element' storage' others) =
        pure (form == .vector && storage == storage') := by
    cases form <;> rfl
  rw [inspect]
  change (if elements.length != others.length then _ else storageByKind _ _ >>= _) = _
  rw [hstorage, Outcome.pure_bind]
  split_ifs with hlength hshared
  · rfl
  · rfl
  · exact (elementsByKind_eq (by simpa using hlength) ops).trans
      (compareElements_eq _ elements others 0 ops)

theorem mapsByKind_eq {rule rule' : KeyRule} {key mapped : Ty}
    {storage storage' : Identity} {entries others : List (Value × Value)}
    (hkeyed : (Value.map rule key mapped storage entries).Keyed) :
    mapsByKind compare (.map rule key mapped storage entries)
        (.map rule' key mapped storage' others) ops =
      inspect (.map rule key mapped storage entries)
          (.map rule' key mapped storage' others) ops >>=
        conclude (.map rule key mapped storage entries)
          (.map rule' key mapped storage' others) ops := by
  rw [inspect]
  change (if entries.length != others.length then _ else if storage == storage' then _ else _) = _
  split_ifs with hlength hstorage
  · rfl
  · rfl
  rw [Outcome.bind_assoc]
  apply bind_congr_of_yields
  intro keys hkeys
  have hkey : ∀ item ∈ keys, keyByKind compare (.map rule key mapped storage entries)
      (.map rule' key mapped storage' others) ops item.1 item.2 =
        (keyBranch (.map rule' key mapped storage' others) rule entries item.1 item.2).run
          (.map rule' key mapped storage' others) ops := by
    intro item hitem
    obtain ⟨v, hmem, -⟩ := Rendering.exists_mem_of_sortedKeys hkeys hitem
    obtain ⟨haccessible, htype⟩ := hkeyed.1 _ hmem
    rw [keyByKind, keyBranch, Value.lookup_eq haccessible htype, Value.lookup_eq haccessible htype]
    generalize (Table.find? rule' item.2 others).getD .absent = other
    rw [Outcome.pure_bind, Outcome.pure_bind]
    change _ = Branch.run _ ops (if other.isPresent then _ else _)
    split_ifs <;> rfl
  rw [List.map_congr_left hkey]
  simp only [Outcome.pure_bind, conclude, List.map_map]
  rfl

/-- A look at two values, with the conclusions from it, is what the operations of their kind do. -/
theorem compareByKind_eq (hinspected : Inspected want found ops) (hwant : want.Unsealed)
    (hfound : found.Unsealed) (hkeyed : want.Keyed) :
    compareByKind compare want found ops =
      inspect want found ops >>= conclude want found ops := by
  -- Values of one type are of one make, and all other pairs of constructors are ruled out.
  have hrank := Value.rank_eq_of_identity hinspected.accessible hwant hfound hinspected.identity
  cases want with
  | absent => cases hinspected.present.1
  | hidden type => cases hinspected.accessible.1
  | scalar s =>
    cases found with
    | scalar t =>
      rw [scalarsByKind_eq hwant hfound hinspected.identity, inspect,
        bind_map_left]
      rfl
    | _ => cases hrank
  | pointer form target pointee =>
    cases found with
    | pointer form' target' pointee' =>
      cases pointee <;> cases pointee'
      · rfl
      · rfl
      · rfl
      · exact (conclude_single (.pointer form target none) _ _ _ ops).symm
    | _ => cases hrank
  | record name fields =>
    cases found with
    | record name' others =>
      change Outcome.assert (fields.length == others.length) .fieldCountsAgree >>= (fun _ ↦
        fieldsByKind compare ops fields others) = _
      rw [inspect, Outcome.bind_assoc, fieldsByKind_eq]
      exact bind_congr fun _ ↦ compareFields_eq _ fields others ops
    | _ => cases hrank
  | sequence form element storage elements =>
    cases found with
    | sequence form' element' storage' others =>
      rw [← sequencesByKind_eq]
      cases form <;> rfl
    | _ => cases hrank
  | map rule key mapped storage entries =>
    cases found with
    | map rule' key' mapped' storage' others =>
      obtain ⟨-, rfl, rfl⟩ := Value.map_identity_inj.mp hinspected.identity
      exact mapsByKind_eq hkeyed
    | _ => cases hrank
  | interface type alternative content =>
    cases found with
    | interface type' alternative' content' =>
      cases type <;>
        exact (conclude_single (.interface type' alternative' content') _ _ _ ops).symm
    | _ => cases hrank

/-! ## Parts -/

section Congruence

variable {f g : Value → Rest}
    (h : ∀ v, want.Offers v → ∀ w, found.Offers w → ∀ step : Option Step,
      f v w (ops.follow step) = g v w (ops.follow step))

include h

omit [Host] in
theorem fieldsByKind_congr {fields others : List (Text × Value)}
    (hfields : want.fields.Yields fields) (hothers : found.fields.Yields others) :
    fieldsByKind f ops fields others = fieldsByKind g ops fields others := by
  rw [fieldsByKind, fieldsByKind]
  congr 2
  apply List.map_congr_left
  intro (field, other) hmem
  obtain ⟨hfield, hother⟩ := List.of_mem_zip hmem
  have hpart := h field.2 (Value.offers_fields hfields hfield) other.2
    (Value.offers_fields hothers hother) (some (.field field.1))
  exact congrArg (if field.2.isPresent then · else pure []) hpart

omit [Host] in
theorem elementsByKind_congr (count : Nat) :
    elementsByKind f want found ops count = elementsByKind g want found ops count := by
  rw [elementsByKind, elementsByKind]
  congr 2
  apply List.map_congr_left
  intro i _
  apply bind_congr_of_yields
  intro v hv
  apply bind_congr_of_yields
  intro w hw
  exact h v (Value.offers_index hv) w (Value.offers_index hw) (some (.index i))

theorem keyByKind_congr (label : Text) (key : Value) :
    keyByKind f want found ops label key = keyByKind g want found ops label key := by
  apply bind_congr_of_yields
  intro other hother
  split_ifs
  · apply bind_congr_of_yields
    intro own hown
    exact h own (Value.offers_lookup hown) other (Value.offers_lookup hother) (some (.key label))
  · rfl

/-- Operations lead to parts and nowhere else. -/
theorem compareByKind_congr : compareByKind f want found ops = compareByKind g want found ops := by
  have hcontents : contentsByKind f want found ops = contentsByKind g want found ops := by
    apply bind_congr_of_yields
    intro v hv
    apply bind_congr_of_yields
    intro w hw
    exact h v (Value.offers_elem hv) w (Value.offers_elem hw) none
  have hsequences : sequencesByKind f want found ops = sequencesByKind g want found ops := by
    simp only [sequencesByKind, elementsByKind_congr h]
  have hmaps : mapsByKind f want found ops = mapsByKind g want found ops := by
    simp only [mapsByKind, keyByKind_congr h]
  have hrecords : recordsByKind f want found ops = recordsByKind g want found ops := by
    apply bind_congr_of_yields
    intro fields hfields
    apply bind_congr_of_yields
    intro others hothers
    rw [fieldsByKind_congr h hfields hothers]
  simp only [compareByKind, hcontents, hsequences, hmaps, hrecords]

end Congruence

/-- Compares two values by operations alone, down to some depth. -/
def compareWithin : (depth : Nat) → Value → Rest
  | 0, _, _, _ => .fail .untyped
  | depth + 1, want, found, ops => do
    match ← settle want found ops with
    | some notices => pure notices
    | none => compareByKind (compareWithin depth) want found ops

/-- A comparison is what it does by operations alone. -/
theorem compareWithin_eq {declared : Text → List Text} {depth : Nat} (hdepth : sizeOf want < depth)
    (hwant : want.Everywhere (Value.Made declared))
    (hfound : found.Everywhere (Value.Made declared)) :
    compareWithin depth want found ops = compare want found ops := by
  induction depth generalizing want found ops with
  | zero => exact (Nat.not_lt_zero _ hdepth).elim
  | succ depth ih =>
    rw [compare_eq]
    apply bind_congr_of_yields
    intro settled hsettled
    cases settled with
    | some notices => rfl
    | none =>
      have hinspected := inspected_of_settle hsettled
      rw [resume, ← compareByKind_eq hinspected hwant.self.unsealed hfound.self.unsealed
        hwant.self.keyed]
      apply compareByKind_congr
      intro v hv w hw step
      -- A look-up that finds nothing gives no part, but that is smaller than the map as well.
      have hsmaller := hv.sizeOf_lt hinspected.present.1
      have hnothing : Value.absent.Made declared := ⟨trivial, trivial, trivial, trivial⟩
      exact ih (by omega) (hv.everywhere hwant hnothing) (hw.everywhere hfound hnothing)

end Comparison

end Discrepancy
