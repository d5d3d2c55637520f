import Discrepancy.Proofs.Inspection

/-!
# Thorough comparison

A thorough comparison goes by the same rules as a comparison, save that it never looks at the
storage of slices and maps: it always compares their parts.  One equation says of it what the
equation of comparisons says of these, with a look that finds branches where the other look may be
content with the storage.
-/

namespace Discrepancy.Comparison

variable [Host]

mutual

/-- The notices of all places where two values differ, whatever storage the values are kept in. -/
def compareThoroughly : Value → Value → Options → Outcome (List Notice)
  | .pointer form target (some (object, v)), found, ops => do
    let want := Value.pointer form target (some (object, v))
    match ← settle want found ops with
    | some notices => pure notices
    | none => match found with
      | .pointer _ _ none => leaf false want found ops
      | .pointer _ _ (some (_, w)) => compareThoroughly v w ops
      | _ => whole want found ops
  | .record name fields, found, ops => do
    let want := Value.record name fields
    match ← settle want found ops with
    | some notices => pure notices
    | none => match found with
      | .record _ others => do
        Outcome.assert (fields.length == others.length) .fieldCountsAgree
        compareFieldsThoroughly fields others ops
      | _ => whole want found ops
  | .sequence form element storage elements, found, ops => do
    let want := Value.sequence form element storage elements
    match ← settle want found ops with
    | some notices => pure notices
    | none => match found with
      | .sequence _ _ _ elements' =>
        if elements.length != elements'.length then
          lengthMismatch want found elements.length elements'.length ops
        else compareElementsThoroughly elements elements' 0 ops
      | _ => whole want found ops
  | .map rule key mapped storage entries, found, ops => do
    let want := Value.map rule key mapped storage entries
    match ← settle want found ops with
    | some notices => pure notices
    | none => match found with
      | .map _ _ _ _ entries' =>
        if entries.length != entries'.length then
          lengthMismatch want found entries.length entries'.length ops
        else do
          let keys ← ops.rendering.sortedKeys want
          let parts := thoroughComparisons entries
          let notices ← Outcome.sequence
            (keys.map fun (label, key) ↦ compareKey found rule parts ops label key)
          pure notices.flatten
      | _ => whole want found ops
  | .interface type alternative content, found, ops => do
    let want := Value.interface type alternative content
    match ← settle want found ops with
    | some notices => pure notices
    | none => match found with
      | .interface _ _ content' => compareThoroughly content content' ops
      | _ => whole want found ops
  -- What has no parts has nothing to be thorough about.
  | want, found, ops => compare want found ops
termination_by structural want => want

def compareFieldsThoroughly :
    List (Text × Value) → List (Text × Value) → Options → Outcome (List Notice)
  | (name, v) :: rest, (_, w) :: others, ops => do
    let notices ←
      if v.isPresent then compareThoroughly v w (ops.below (.field name)) else pure []
    pure (notices ++ (← compareFieldsThoroughly rest others ops))
  | _, _, _ => pure []
termination_by structural fields => fields

def compareElementsThoroughly : List Value → List Value → Nat → Options → Outcome (List Notice)
  | v :: rest, w :: others, i, ops => do
    let notices ← compareThoroughly v w (ops.below (.index i))
    pure (notices ++ (← compareElementsThoroughly rest others (i + 1) ops))
  | _, _, _, _ => pure []
termination_by structural elements => elements

def thoroughComparisons : List (Value × Value) → List (Value × Rest)
  | [] => []
  | (key, v) :: rest => (key, compareThoroughly v) :: thoroughComparisons rest
termination_by structural entries => entries

end

/-- A look at two values, whatever storage they are kept in. -/
def inspectThoroughly (want found : Value) (ops : Options) : Outcome Verdict :=
  match want, found with
  | .sequence _ _ _ elements, .sequence _ _ _ elements' =>
    if elements.length != elements'.length then
      pure (.lengths elements.length elements'.length)
    else pure (.branches (elementBranches elements elements' 0))
  | .map rule key mapped storage entries, .map rule' key' mapped' storage' entries' =>
    if entries.length != entries'.length then pure (.lengths entries.length entries'.length)
    else do
      let keys ← ops.rendering.sortedKeys (.map rule key mapped storage entries)
      pure (.branches (keys.map fun (label, key) ↦
        keyBranch (.map rule' key' mapped' storage' entries') rule entries label key))
  | want, found => inspect want found ops

/-- One layer of a thorough comparison: parts are compared in some other way. -/
def layer (f : Value → Rest) (want found : Value) (ops : Options) : Outcome (List Notice) :=
  settle want found ops >>= fun
    | some notices => pure notices
    | none => inspectThoroughly want found ops >>= concludeWith f want found ops

/-! ## The equation of thorough comparisons -/

theorem compareFieldsThoroughly_eq (found : Value) (fields others : List (Text × Value))
    (ops : Options) :
    compareFieldsThoroughly fields others ops =
      concludeWith compareThoroughly found found ops (.branches (fieldBranches fields others)) := by
  induction fields generalizing others with
  | nil => rfl
  | cons field rest ih =>
    cases others with
    | nil => rfl
    | cons other others =>
      simp only [compareFieldsThoroughly, fieldBranches, ih, concludeWith]
      split <;> simp [Outcome.sequence_cons, Branch.runWith, Options.follow]

theorem compareElementsThoroughly_eq (found : Value) (elements others : List Value) (i : Nat)
    (ops : Options) :
    compareElementsThoroughly elements others i ops =
      concludeWith compareThoroughly found found ops
        (.branches (elementBranches elements others i)) := by
  induction elements generalizing others i with
  | nil => rfl
  | cons v rest ih =>
    cases others with
    | nil => rfl
    | cons w others =>
      simp [compareElementsThoroughly, elementBranches, ih, concludeWith, Outcome.sequence_cons,
        Branch.runWith, Options.follow]

theorem thoroughComparisons_eq_map (entries : List (Value × Value)) :
    thoroughComparisons entries = entries.map fun entry ↦ (entry.1, compareThoroughly entry.2) := by
  induction entries with
  | nil => rfl
  | cons entry rest ih => simp only [thoroughComparisons, ih, List.map_cons]

theorem compareThoroughly_absent (found : Value) (ops : Options) :
    compareThoroughly .absent found ops = settle .absent found ops >>= fun settled ↦
      pure (settled.getD []) := by
  rw [compareThoroughly.eq_def]
  exact compare_absent found ops

theorem concludeWith_single (f : Value → Rest) (want found v w : Value) (ops : Options) :
    concludeWith f want found ops (.branches [.part none v w]) = f v w ops := by
  simp [concludeWith, Branch.runWith, Options.follow, Outcome.sequence_cons]

/-- A leaf is found by the same look, and concluded from in the same way. -/
theorem resume_none_eq_of_leaf {f : Value → Rest} {want found : Value} {ops : Options}
    {x : Outcome Bool} (h : inspect want found ops = Verdict.leaf <$> x) :
    resume want found ops none = inspect want found ops >>= concludeWith f want found ops := by
  rw [resume, h, bind_map_left, bind_map_left]
  rfl

theorem whole_eq_concludeWith {f : Value → Rest} {want found : Value} {ops : Options}
    (h : inspect want found ops = .leaf <$> want.equals found) :
    whole want found ops = inspect want found ops >>= concludeWith f want found ops :=
  (whole_eq h).trans (resume_none_eq_of_leaf h)

/-- What is compared as a leaf is compared thoroughly. -/
theorem compare_eq_layer_of_leaf {f : Value → Rest} {want found : Value} {ops : Options}
    {x : Outcome Bool} (h : inspect want found ops = Verdict.leaf <$> x)
    (h' : inspectThoroughly want found ops = inspect want found ops) :
    compare want found ops = layer f want found ops := by
  rw [compare_eq, layer, h']
  exact bind_congr fun | some notices => rfl | none => resume_none_eq_of_leaf h

theorem compareThoroughly_pointer_eq (form : PointerForm) (target : Ty)
    (pointee : Option (Identity × Value)) (found : Value) (ops : Options) :
    compareThoroughly (.pointer form target pointee) found ops =
      layer compareThoroughly (.pointer form target pointee) found ops := by
  rcases pointee with _ | ⟨object, v⟩
  · rw [compareThoroughly.eq_def]
    cases found with
    | pointer form' target' pointee =>
      cases pointee
      · exact compare_eq_layer_of_leaf (rfl : inspect _ _ _ = Verdict.leaf <$> pure true) rfl
      · exact compare_eq_layer_of_leaf (rfl : inspect _ _ _ = Verdict.leaf <$> pure false) rfl
    | _ => exact compare_eq_layer_of_leaf (rfl : inspect _ _ _ = Verdict.leaf <$> _) rfl
  · rw [compareThoroughly.eq_def]
    refine bind_congr fun | some notices => rfl | none => ?_
    cases found with
    | pointer form' target' pointee =>
      rcases pointee with _ | ⟨object', w⟩
      · rfl
      · exact (concludeWith_single _ (.pointer form target none) _ v w ops).symm
    | _ => exact whole_eq_concludeWith rfl

theorem compareThoroughly_record_eq (name : Text) (fields : List (Text × Value)) (found : Value)
    (ops : Options) :
    compareThoroughly (.record name fields) found ops =
      layer compareThoroughly (.record name fields) found ops := by
  rw [compareThoroughly.eq_def]
  refine bind_congr fun | some notices => rfl | none => ?_
  cases found with
  | record name' others =>
    change _ = inspect (.record name fields) (.record name' others) ops >>= _
    rw [inspect, bind_assoc]
    exact bind_congr fun _ ↦ compareFieldsThoroughly_eq _ fields others ops
  | _ => exact whole_eq_concludeWith rfl

theorem compareThoroughly_sequence_eq (form : SequenceForm) (element : Ty)
    (storage : Option Identity) (elements : List Value) (found : Value) (ops : Options) :
    compareThoroughly (.sequence form element storage elements) found ops =
      layer compareThoroughly (.sequence form element storage elements) found ops := by
  rw [compareThoroughly.eq_def]
  refine bind_congr fun | some notices => rfl | none => ?_
  cases found with
  | sequence form' element' storage' elements' =>
    dsimp only
    rw [inspectThoroughly]
    split_ifs with hlen
    · rfl
    · exact compareElementsThoroughly_eq _ elements elements' 0 ops
  | _ => exact whole_eq_concludeWith rfl

theorem compareThoroughly_map_eq (rule : KeyRule) (key mapped : Ty) (storage : Identity)
    (entries : List (Value × Value)) (found : Value) (ops : Options) :
    compareThoroughly (.map rule key mapped storage entries) found ops =
      layer compareThoroughly (.map rule key mapped storage entries) found ops := by
  rw [compareThoroughly.eq_def]
  refine bind_congr fun | some notices => rfl | none => ?_
  cases found with
  | map rule' key' mapped' storage' entries' =>
    dsimp only
    rw [inspectThoroughly]
    split_ifs with hlen
    · rfl
    · rw [bind_assoc]
      refine bind_congr fun keys ↦ ?_
      simp only [pure_bind, concludeWith, List.map_map, thoroughComparisons_eq_map,
        compareKey_map_eq compareThoroughly_absent]
      rfl
  | _ => exact whole_eq_concludeWith rfl

theorem compareThoroughly_interface_eq (type : InterfaceTy) (alternative : Option Nat)
    (content found : Value) (ops : Options) :
    compareThoroughly (.interface type alternative content) found ops =
      layer compareThoroughly (.interface type alternative content) found ops := by
  rw [compareThoroughly.eq_def]
  refine bind_congr fun | some notices => rfl | none => ?_
  cases found with
  | interface type' alternative' content' =>
    exact (concludeWith_single compareThoroughly (.interface type alternative content) _ content
      content' ops).symm
  | _ => exact whole_eq_concludeWith rfl

/-- A thorough comparison settles, looks thoroughly and concludes. -/
theorem compareThoroughly_eq (want found : Value) (ops : Options) :
    compareThoroughly want found ops = layer compareThoroughly want found ops := by
  cases want with
  | absent =>
    rw [compareThoroughly.eq_def]
    exact compare_eq_layer_of_leaf (rfl : inspect _ _ _ = Verdict.leaf <$> _) rfl
  | hidden type =>
    rw [compareThoroughly.eq_def]
    exact compare_eq_layer_of_leaf (rfl : inspect _ _ _ = Verdict.leaf <$> _) rfl
  | scalar s =>
    rw [compareThoroughly.eq_def]
    cases found <;> exact compare_eq_layer_of_leaf (rfl : inspect _ _ _ = Verdict.leaf <$> _) rfl
  | pointer form target pointee => exact compareThoroughly_pointer_eq ..
  | record name fields => exact compareThoroughly_record_eq ..
  | sequence form element storage elements => exact compareThoroughly_sequence_eq ..
  | map rule key mapped storage entries => exact compareThoroughly_map_eq ..
  | interface type alternative content => exact compareThoroughly_interface_eq ..

end Discrepancy.Comparison
