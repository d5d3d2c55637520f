import Discrepancy.Compare.Comparison
import Discrepancy.Proofs.Results

/-!
# Inspection

A comparison settles what it can from outside, inspects two values when that was not enough, and
concludes from what it has seen.  The inspection finds a leaf, containers of different length, or
branches, which are compared in their turn.  One equation says so for values of all kinds, and an
account of one step says how a comparison without checkers comes by its notices.
-/

namespace Discrepancy

/-- The options at a part: a step below, or at the location of the whole. -/
def Options.follow (ops : Options) : Option Step → Options
  | none => ops
  | some step => ops.below step

namespace Comparison

/-- What is left to be compared below two values. -/
inductive Branch where
  | part (step : Option Step) (want found : Value)
  /-- A key which the other map does not have. -/
  | missing (label : Text)
  /-- A look-up which fails. -/
  | refused (fault : Fault)

/-- What a look at two values shows. -/
inductive Verdict where
  | leaf (equal : Bool)
  | lengths (wantLength foundLength : Nat)
  | branches (below : List Branch)

/-- The branches of two records.  A field without a value has none. -/
def fieldBranches : List (Text × Value) → List (Text × Value) → List Branch
  | (name, v) :: rest, (_, w) :: others =>
    if v.isPresent then .part (some (.field name)) v w :: fieldBranches rest others
    else fieldBranches rest others
  | _, _ => []

def elementBranches : List Value → List Value → Nat → List Branch
  | v :: rest, w :: others, i => .part (some (.index i)) v w :: elementBranches rest others (i + 1)
  | _, _, _ => []

def keyBranch [Host] (found : Value) (rule : KeyRule) (entries : List (Value × Value))
    (label : Text) (key : Value) : Branch :=
  match (found.lookup key).result with
  | .error fault => .refused fault
  | .ok other =>
    if other.isPresent then
      .part (some (.key label)) ((Table.find? rule key entries).getD .absent) other
    else .missing label

variable [Host]

/-- A look at two values. -/
def inspect (want found : Value) (ops : Options) : Outcome Verdict :=
  match want, found with
  | .scalar s, .scalar t => .leaf <$> scalarsAgree s t
  | .pointer _ _ none, .pointer _ _ none => pure (.leaf true)
  | .pointer _ _ none, .pointer _ _ (some _) => pure (.leaf false)
  | .pointer _ _ (some _), .pointer _ _ none => pure (.leaf false)
  | .pointer _ _ (some (_, v)), .pointer _ _ (some (_, w)) => pure (.branches [.part none v w])
  | .record _ fields, .record _ others => do
    Outcome.assert (fields.length == others.length) .fieldCountsAgree
    pure (.branches (fieldBranches fields others))
  | .sequence form _ storage elements, .sequence _ _ storage' elements' =>
    if elements.length != elements'.length then
      pure (.lengths elements.length elements'.length)
    else if form == .vector && storage == storage' then pure (.leaf true)
    else pure (.branches (elementBranches elements elements' 0))
  | .map rule key mapped storage entries, .map rule' key' mapped' storage' entries' =>
    if entries.length != entries'.length then pure (.lengths entries.length entries'.length)
    else if storage == storage' then pure (.leaf true)
    else do
      let keys ← ops.rendering.sortedKeys (.map rule key mapped storage entries)
      pure (.branches (keys.map fun (label, key) ↦
        keyBranch (.map rule' key' mapped' storage' entries') rule entries label key))
  | .interface _ _ v, .interface _ _ w => pure (.branches [.part none v w])
  | want, found => .leaf <$> want.equals found

def Branch.run (found : Value) (ops : Options) : Branch → Outcome (List Notice)
  | part step v w => compare v w (ops.follow step)
  | missing label => do
    (ops.below (.key label)).visit false
    pure [← mismatch found .absent (ops.below (.key label)).toContext]
  | refused fault => .fail fault

/-- Compares what is left by some way of comparing parts. -/
def Branch.runWith (f : Value → Rest) (found : Value) (ops : Options) :
    Branch → Outcome (List Notice)
  | part step v w => f v w (ops.follow step)
  | missing label => run found ops (missing label)
  | refused fault => .fail fault

theorem Branch.runWith_compare (found : Value) (ops : Options) :
    Branch.runWith compare found ops = Branch.run found ops := by
  funext branch
  cases branch <;> rfl

/-- Draws the conclusion of a look at two values. -/
def conclude (want found : Value) (ops : Options) : Verdict → Outcome (List Notice)
  | .leaf equal => leaf equal want found ops
  | .lengths wantLength foundLength => lengthMismatch want found wantLength foundLength ops
  | .branches below => do
    pure (← Outcome.sequence (below.map (Branch.run found ops))).flatten

def concludeWith (f : Value → Rest) (want found : Value) (ops : Options) :
    Verdict → Outcome (List Notice)
  | .branches below => do
    pure (← Outcome.sequence (below.map (Branch.runWith f found ops))).flatten
  | verdict => conclude want found ops verdict

theorem concludeWith_compare (want found : Value) (ops : Options) :
    concludeWith compare want found ops = conclude want found ops := by
  funext verdict
  cases verdict with
  | branches below => rw [concludeWith, conclude, Branch.runWith_compare]
  | _ => rfl

/-! ## The equation of comparisons -/

theorem compareFields_eq (found : Value) (fields others : List (Text × Value)) (ops : Options) :
    compareFields fields others ops =
      conclude found found ops (.branches (fieldBranches fields others)) := by
  induction fields generalizing others with
  | nil => rfl
  | cons field rest ih =>
    cases others with
    | nil => rfl
    | cons other others =>
      simp only [compareFields, fieldBranches, ih, conclude]
      split <;> simp [Outcome.sequence_cons, Branch.run, Options.follow]

theorem compareElements_eq (found : Value) (elements others : List Value) (i : Nat)
    (ops : Options) :
    compareElements elements others i ops =
      conclude found found ops (.branches (elementBranches elements others i)) := by
  induction elements generalizing others i with
  | nil => rfl
  | cons v rest ih =>
    cases others with
    | nil => rfl
    | cons w others =>
      simp [compareElements, elementBranches, ih, conclude, Outcome.sequence_cons, Branch.run,
        Options.follow]

/-- A look-up leaves no events. -/
theorem lookup_events (container key : Value) : (container.lookup key).events = [] := by
  cases container with
  | map rule keyType mapped storage entries =>
    simp only [Value.lookup, Value.cast]
    split <;> rfl
  | _ => rfl

theorem compare_absent (found : Value) (ops : Options) :
    compare .absent found ops = settle .absent found ops >>= fun settled ↦
      pure (settled.getD []) := by
  rw [compare]

/-- However parts are compared, a key is compared by its branch. -/
theorem compareKey_map_eq {f : Value → Rest}
    (hf : ∀ found ops, f .absent found ops = settle .absent found ops >>= fun settled ↦
      pure (settled.getD []))
    (found : Value) (rule : KeyRule) (entries : List (Value × Value)) (ops : Options)
    (label : Text) (key : Value) :
    compareKey found rule (entries.map fun entry ↦ (entry.1, f entry.2)) ops label key =
      (keyBranch found rule entries label key).runWith f found ops := by
  have hevents := lookup_events found key
  unfold compareKey keyBranch
  generalize found.lookup key = outcome at hevents ⊢
  obtain ⟨events, result⟩ := outcome
  obtain rfl : events = [] := hevents
  cases result with
  | error fault => rfl
  | ok other =>
    change (pure other : Outcome Value) >>= _ = _
    rw [Outcome.pure_bind, Table.find?_map]
    by_cases hpresent : other.isPresent
    · simp only [hpresent, if_true]
      cases Table.find? rule key entries with
      | none => exact (hf other _).symm
      | some v => rfl
    · simp only [hpresent]
      rfl

theorem compareKey_eq (found : Value) (rule : KeyRule) (entries : List (Value × Value))
    (ops : Options) (label : Text) (key : Value) :
    compareKey found rule (comparisons entries) ops label key =
      (keyBranch found rule entries label key).run found ops := by
  rw [comparisons_eq_map, compareKey_map_eq compare_absent, Branch.runWith_compare]

/-- Continues with what was settled, or looks at the values where nothing was. -/
def resume (want found : Value) (ops : Options) : Option (List Notice) → Outcome (List Notice)
  | some notices => pure notices
  | none => inspect want found ops >>= conclude want found ops

theorem settle_bind_getD {want found : Value} (ops : Options)
    (h : ¬ want.isPresent ∨ ¬ want.isAccessible) :
    (settle want found ops >>= fun settled ↦ pure (settled.getD [])) =
      settle want found ops >>= resume want found ops := by
  have hsettled (x : Outcome (List Notice)) :
      (some <$> x >>= fun settled ↦ pure (settled.getD [])) =
        some <$> x >>= resume want found ops := by
    rw [bind_map_left, bind_map_left]
    rfl
  have hvisited (skipped : Bool) (notices : List Notice) :
      ((do ops.visit skipped; pure (some notices)) >>= fun settled ↦ pure (settled.getD [])) =
        (do ops.visit skipped; pure (some notices)) >>= resume want found ops := by
    rw [bind_assoc, bind_assoc]
    rfl
  unfold settle
  by_cases hskip : ops.isSkipped
  · rw [if_pos hskip]
    exact hvisited true []
  rw [if_neg hskip]
  by_cases habsent : !want.isPresent || !found.isPresent
  · rw [if_pos habsent]
    exact hsettled _
  rw [if_neg habsent]
  by_cases hhidden : !want.isAccessible || !found.isAccessible
  · rw [if_pos hhidden]
    exact hvisited true _
  · simp only [Bool.or_eq_true, Bool.not_eq_true', not_or, Bool.not_eq_false] at habsent hhidden
    exact absurd h (by simp [habsent.1, hhidden.1])

theorem whole_eq {want found : Value} {ops : Options}
    (h : inspect want found ops = .leaf <$> want.equals found) :
    whole want found ops = resume want found ops none := by
  rw [resume, h, whole, bind_map_left]
  rfl

theorem conclude_single (want found v w : Value) (ops : Options) :
    conclude want found ops (.branches [.part none v w]) = compare v w ops := by
  simp [conclude, Branch.run, Options.follow, Outcome.sequence_cons]

theorem compare_scalar_eq (s : Scalar) (found : Value) (ops : Options) :
    compare (.scalar s) found ops =
      settle (.scalar s) found ops >>= resume (.scalar s) found ops := by
  rw [compare.eq_def]
  refine bind_congr fun | some notices => rfl | none => ?_
  cases found with
  | scalar t =>
    rw [resume, inspect, bind_map_left]
    rfl
  | _ => exact whole_eq rfl

theorem compare_pointer_eq (form : PointerForm) (target : Ty)
    (pointee : Option (Identity × Value)) (found : Value) (ops : Options) :
    compare (.pointer form target pointee) found ops =
      settle (.pointer form target pointee) found ops >>=
        resume (.pointer form target pointee) found ops := by
  rcases pointee with _ | ⟨object, v⟩
  · rw [compare.eq_def]
    refine bind_congr fun | some notices => rfl | none => ?_
    cases found with
    | pointer form' target' pointee => cases pointee <;> rfl
    | _ => exact whole_eq rfl
  · rw [compare.eq_def]
    refine bind_congr fun | some notices => rfl | none => ?_
    cases found with
    | pointer form' target' pointee =>
      rcases pointee with _ | ⟨object', w⟩
      · rfl
      · exact (conclude_single (.pointer form target none) _ v w ops).symm
    | _ => exact whole_eq rfl

theorem compare_record_eq (name : Text) (fields : List (Text × Value)) (found : Value)
    (ops : Options) :
    compare (.record name fields) found ops =
      settle (.record name fields) found ops >>= resume (.record name fields) found ops := by
  rw [compare.eq_def]
  refine bind_congr fun | some notices => rfl | none => ?_
  cases found with
  | record name' others =>
    rw [resume, inspect, bind_assoc]
    exact bind_congr fun _ ↦ compareFields_eq _ fields others ops
  | _ => exact whole_eq rfl

theorem compare_sequence_eq (form : SequenceForm) (element : Ty) (storage : Option Identity)
    (elements : List Value) (found : Value) (ops : Options) :
    compare (.sequence form element storage elements) found ops =
      settle (.sequence form element storage elements) found ops >>=
        resume (.sequence form element storage elements) found ops := by
  rw [compare.eq_def]
  refine bind_congr fun | some notices => rfl | none => ?_
  cases found with
  | sequence form' element' storage' elements' =>
    dsimp only
    rw [resume, inspect]
    split_ifs with hlen hstorage
    · rfl
    · rfl
    · exact compareElements_eq _ elements elements' 0 ops
  | _ => exact whole_eq rfl

theorem compare_map_eq (rule : KeyRule) (key mapped : Ty) (storage : Identity)
    (entries : List (Value × Value)) (found : Value) (ops : Options) :
    compare (.map rule key mapped storage entries) found ops =
      settle (.map rule key mapped storage entries) found ops >>=
        resume (.map rule key mapped storage entries) found ops := by
  rw [compare.eq_def]
  refine bind_congr fun | some notices => rfl | none => ?_
  cases found with
  | map rule' key' mapped' storage' entries' =>
    dsimp only
    rw [resume, inspect]
    split_ifs with hlen hstorage
    · rfl
    · rfl
    · rw [bind_assoc]
      refine bind_congr fun keys ↦ ?_
      simp only [pure_bind, conclude, List.map_map, compareKey_eq]
      rfl
  | _ => exact whole_eq rfl

theorem compare_interface_eq (type : InterfaceTy) (alternative : Option Nat) (content found : Value)
    (ops : Options) :
    compare (.interface type alternative content) found ops =
      settle (.interface type alternative content) found ops >>=
        resume (.interface type alternative content) found ops := by
  rw [compare.eq_def]
  refine bind_congr fun | some notices => rfl | none => ?_
  cases found with
  | interface type' alternative' content' =>
    exact (conclude_single (.interface type alternative content) _ content content' ops).symm
  | _ => exact whole_eq rfl

/-- A comparison settles, inspects and concludes. -/
theorem compare_eq (want found : Value) (ops : Options) :
    compare want found ops = settle want found ops >>= resume want found ops := by
  cases want with
  | absent => exact (compare_absent found ops).trans (settle_bind_getD ops (.inl (by decide)))
  | hidden type =>
    rw [compare.eq_def]
    exact settle_bind_getD ops (.inr nofun)
  | scalar s => exact compare_scalar_eq s found ops
  | pointer form target pointee => exact compare_pointer_eq form target pointee found ops
  | record name fields => exact compare_record_eq name fields found ops
  | sequence form element storage elements =>
    exact compare_sequence_eq form element storage elements found ops
  | map rule key mapped storage entries =>
    exact compare_map_eq rule key mapped storage entries found ops
  | interface type alternative content =>
    exact compare_interface_eq type alternative content found ops

end Comparison

/-! ## The account of one step -/

namespace Options

@[simp]
theorem follow_rendering (ops : Options) (step : Option Step) :
    (ops.follow step).rendering = ops.rendering := by
  cases step <;> rfl

@[simp]
theorem follow_skipTrails (ops : Options) (step : Option Step) :
    (ops.follow step).skipTrails = ops.skipTrails := by
  cases step <;> rfl

end Options

/-- No checkers take the place of the rules. -/
structure Options.Unchecked (ops : Options) : Prop where
  trails : ops.trailCheckers = []
  types : ops.typeCheckers = []

namespace Options

theorem Unchecked.follow {ops : Options} (h : ops.Unchecked) (step : Option Step) :
    (ops.follow step).Unchecked := by
  cases step with
  | none => exact h
  | some step => exact ⟨h.trails, h.types⟩

theorem visit_yields (ops : Options) (skipped : Bool) : (ops.visit skipped).Yields () := by
  unfold visit
  split
  · exact rfl
  · exact Outcome.yields_emit _

end Options

namespace Comparison

variable [Host] {want found : Value} {ops : Options} {notices : List Notice}

theorem run_missing_yields {label : Text} :
    ((Branch.missing label).run found ops).Yields notices ↔
      ∃ notice, (mismatch found .absent (ops.below (.key label)).toContext).Yields notice ∧
        notices = [notice] := by
  rw [Branch.run, ((ops.below (.key label)).visit_yields false).bind_iff, Outcome.yields_bind]
  simp only [Outcome.yields_pure, eq_comm]

theorem lengthMismatch_yields {m n : Nat} :
    (lengthMismatch want found m n ops).Yields notices ↔
      ∃ notice, (mismatch want found ops.toContext).Yields notice ∧
        notices = [(notice.prepend "have len" (Text.ofNat n)).prepend "want len"
          (Text.ofNat m)] := by
  rw [lengthMismatch, (ops.visit_yields false).bind_iff, Outcome.yields_bind]
  simp only [Outcome.yields_pure, eq_comm]

theorem concludeWith_branches_yields {f : Value → Rest} {below : List Branch} :
    (concludeWith f want found ops (.branches below)).Yields notices ↔
      ∃ parts, List.Forall₂ (fun branch part ↦ (Branch.runWith f found ops branch).Yields part)
        below parts ∧ notices = parts.flatten := by
  rw [concludeWith, Outcome.yields_bind]
  simp only [Outcome.yields_sequence, List.forall₂_map_left_iff, Outcome.yields_pure, eq_comm]

theorem conclude_branches_yields {below : List Branch} :
    (conclude want found ops (.branches below)).Yields notices ↔
      ∃ parts, List.Forall₂ (fun branch part ↦ (Branch.run found ops branch).Yields part) below
        parts ∧ notices = parts.flatten := by
  rw [← concludeWith_compare, concludeWith_branches_yields, Branch.runWith_compare]

/-- Nothing is concluded from branches of which nothing comes. -/
theorem conclude_branches_yields_nil {below : List Branch} :
    (conclude want found ops (.branches below)).Yields [] ↔
      ∀ branch ∈ below, (Branch.run found ops branch).Yields [] := by
  rw [conclude_branches_yields]
  constructor
  · rintro ⟨parts, hparts, hnil⟩ branch hbranch
    obtain ⟨part, hpart, hrun⟩ := Outcome.exists_of_mem_left hparts hbranch
    rwa [List.flatten_eq_nil_iff.mp hnil.symm part hpart] at hrun
  · intro h
    refine ⟨below.map fun _ ↦ [], ?_, by simp⟩
    rw [List.forall₂_map_right_iff, List.forall₂_same]
    exact h

/-- What is concluded from branches is what comes of them. -/
theorem mem_iff_of_conclude_branches {below : List Branch} {notice : Notice}
    (h : (conclude want found ops (.branches below)).Yields notices) :
    notice ∈ notices ↔ ∃ branch ∈ below, ∃ part,
      (Branch.run found ops branch).Yields part ∧ notice ∈ part := by
  obtain ⟨parts, hparts, rfl⟩ := conclude_branches_yields.mp h
  rw [List.mem_flatten]
  constructor
  · rintro ⟨part, hpart, hmem⟩
    obtain ⟨branch, hbranch, hrun⟩ := Outcome.exists_of_mem_right hparts hpart
    exact ⟨branch, hbranch, part, hrun, hmem⟩
  · rintro ⟨branch, hbranch, part, hrun, hmem⟩
    obtain ⟨part', hpart, hrun'⟩ := Outcome.exists_of_mem_left hparts hbranch
    exact ⟨part', hpart, hrun.unique hrun' ▸ hmem⟩

/-- What makes a leaf of two values before they are looked at: there is only one, or their types
differ. -/
inductive Unlike (want found : Value) : Prop
  | absent (h : want.isPresent ≠ found.isPresent)
  | types (hpresent : want.isPresent ∧ found.isPresent)
      (haccessible : want.isAccessible ∧ found.isAccessible) (h : want.identity? ≠ found.identity?)

/-- Two values are looked at when nothing outside decides. -/
structure Inspected (want found : Value) (ops : Options) : Prop where
  unskipped : ¬ ops.isSkipped
  present : want.isPresent ∧ found.isPresent
  accessible : want.isAccessible ∧ found.isAccessible
  identity : want.identity? = found.identity?

/-- How a comparison without checkers comes by its notices. -/
inductive Account (want found : Value) (ops : Options) : List Notice → Prop
  | skipped (hskip : ops.isSkipped) : Account want found ops []
  | absent (hskip : ¬ ops.isSkipped) (habsent : ¬ want.isPresent ∧ ¬ found.isPresent) :
      Account want found ops []
  | unlike {notice : Notice} (hskip : ¬ ops.isSkipped) (hunlike : Unlike want found)
      (hnotice : (mismatch want found ops.toContext).Yields notice) :
      Account want found ops [notice]
  | hidden (hskip : ¬ ops.isSkipped) (hpresent : want.isPresent ∧ found.isPresent)
      (hhidden : ¬ (want.isAccessible ∧ found.isAccessible)) :
      Account want found ops (if ops.skipHidden then [] else [hiddenNotice ops.trail])
  | inspected {verdict : Verdict} {notices : List Notice} (hinspected : Inspected want found ops)
      (hverdict : (inspect want found ops).Yields verdict)
      (hnotices : (conclude want found ops verdict).Yields notices) :
      Account want found ops notices

theorem leaf_yields_true : (leaf true want found ops).Yields notices ↔ notices = [] := by
  rw [leaf, (ops.visit_yields false).bind_iff, if_pos rfl, Outcome.yields_pure, eq_comm]

theorem leaf_yields_false :
    (leaf false want found ops).Yields notices ↔
      ∃ notice, (mismatch want found ops.toContext).Yields notice ∧ notices = [notice] := by
  rw [leaf, (ops.visit_yields false).bind_iff, if_neg Bool.false_ne_true, Outcome.yields_bind]
  simp only [Outcome.yields_pure, eq_comm]

theorem leaf_yields_nil {equal : Bool} : (leaf equal want found ops).Yields [] ↔ equal := by
  cases equal with
  | false =>
    rw [leaf_yields_false]
    simp
  | true => simp only [leaf_yields_true]

theorem settled_yields (x : Outcome (List Notice)) :
    (some <$> x >>= resume want found ops).Yields notices ↔ x.Yields notices := by
  rw [bind_map_left]
  exact (bind_pure x).symm ▸ Iff.rfl

theorem visited_yields (skipped : Bool) (settled : Option (List Notice)) :
    ((do ops.visit skipped; pure settled) >>= resume want found ops).Yields notices ↔
      (resume want found ops settled).Yields notices := by
  rw [bind_assoc, (ops.visit_yields skipped).bind_iff, pure_bind]

theorem settle_skipped (hskip : ops.isSkipped) :
    settle want found ops = (do ops.visit true; pure (some [])) := by
  rw [settle, if_pos hskip]

theorem settle_absent (hskip : ¬ ops.isSkipped) (habsent : ¬ want.isPresent ∧ ¬ found.isPresent) :
    settle want found ops = some <$> leaf true want found ops := by
  have hboth : (!want.isPresent && !found.isPresent) = true := by simpa using habsent
  rw [settle, if_neg hskip, if_pos (by simp [habsent]), hboth]

theorem settle_unlike (hskip : ¬ ops.isSkipped) (hunlike : Unlike want found) :
    settle want found ops = some <$> leaf false want found ops := by
  cases hunlike with
  | absent h =>
    rw [settle, if_neg hskip]
    cases hwant : want.isPresent <;> cases hfound : found.isPresent <;> simp_all
  | types hpresent haccessible h =>
    rw [settle, if_neg hskip, if_neg (by simp [hpresent]), if_neg (by simp [haccessible]),
      if_pos (bne_iff_ne.mpr h)]

theorem settle_hidden (hskip : ¬ ops.isSkipped) (hpresent : want.isPresent ∧ found.isPresent)
    (hhidden : ¬ (want.isAccessible ∧ found.isAccessible)) :
    settle want found ops =
      (do
        ops.visit true
        pure (some (if ops.skipHidden then [] else [hiddenNotice ops.trail]))) := by
  rw [settle, if_neg hskip, if_neg (by simp [hpresent]), if_pos]
  rwa [← Bool.not_and, Bool.not_eq_true', ← Bool.not_eq_true, Bool.and_eq_true]

omit [Host] in
theorem checker?_eq_none (hops : ops.Unchecked) : checker? want ops = none := by
  simp [checker?, hops.trails, hops.types]

theorem settle_inspected (hops : ops.Unchecked) (h : Inspected want found ops) :
    settle want found ops = pure none := by
  rw [settle, if_neg h.unskipped, if_neg (by simp [h.present]), if_neg (by simp [h.accessible]),
    if_neg (by simp [h.identity]), checker?_eq_none hops]

theorem compare_yields_of_inspected (hops : ops.Unchecked) (h : Inspected want found ops) :
    (compare want found ops).Yields notices ↔
      ∃ verdict, (inspect want found ops).Yields verdict ∧
        (conclude want found ops verdict).Yields notices := by
  rw [compare_eq, settle_inspected hops h, pure_bind, resume, Outcome.yields_bind]

omit [Host] in
/-- Whatever is not settled from outside is inspected. -/
theorem inspected_of_not_unlike (hskip : ¬ ops.isSkipped)
    (habsent : ¬ (¬ want.isPresent ∧ ¬ found.isPresent)) (hunlike : ¬ Unlike want found) :
    want.isPresent ∧ found.isPresent ∧
      (want.isAccessible ∧ found.isAccessible → Inspected want found ops) := by
  have hpresent : want.isPresent = found.isPresent := of_not_not fun h ↦ hunlike (.absent h)
  have hfound : found.isPresent := by
    by_contra hfound
    exact habsent ⟨hpresent ▸ hfound, hfound⟩
  have hwant : want.isPresent := hpresent.trans hfound
  exact ⟨hwant, hfound, fun haccessible ↦ ⟨hskip, ⟨hwant, hfound⟩, haccessible,
    of_not_not fun h ↦ hunlike (.types ⟨hwant, hfound⟩ haccessible h)⟩⟩

/-- Only values that have to be looked at are left unsettled. -/
theorem inspected_of_settle (h : (settle want found ops).Yields none) :
    Inspected want found ops := by
  have hvisited (skipped : Bool) (notices : List Notice) :
      ¬ Outcome.Yields (do ops.visit skipped; pure (some notices)) none := by
    rw [(ops.visit_yields skipped).bind_iff, Outcome.yields_pure]
    exact nofun
  have hleft (equal : Bool) : ¬ (some <$> leaf equal want found ops).Yields none := by
    rw [Outcome.yields_map]
    exact fun ⟨_, _, hsome⟩ ↦ nomatch hsome
  by_cases hskip : ops.isSkipped
  · exact (hvisited true [] (settle_skipped hskip ▸ h)).elim
  by_cases habsent : ¬ want.isPresent ∧ ¬ found.isPresent
  · exact (hleft true (settle_absent hskip habsent ▸ h)).elim
  by_cases hunlike : Unlike want found
  · exact (hleft false (settle_unlike hskip hunlike ▸ h)).elim
  obtain ⟨hwant, hfound, hinspected⟩ := inspected_of_not_unlike hskip habsent hunlike
  by_cases haccessible : want.isAccessible ∧ found.isAccessible
  · exact hinspected haccessible
  · exact (hvisited true _ (settle_hidden hskip ⟨hwant, hfound⟩ haccessible ▸ h)).elim

/-- The account of a comparison is complete. -/
theorem compare_yields_iff (hops : ops.Unchecked) :
    (compare want found ops).Yields notices ↔ Account want found ops notices := by
  constructor
  · intro h
    by_cases hskip : ops.isSkipped
    · rw [compare_eq, settle_skipped hskip, visited_yields, resume, Outcome.yields_pure] at h
      exact h ▸ .skipped hskip
    by_cases habsent : ¬ want.isPresent ∧ ¬ found.isPresent
    · rw [compare_eq, settle_absent hskip habsent, settled_yields, leaf_yields_true] at h
      exact h ▸ .absent hskip habsent
    by_cases hunlike : Unlike want found
    · rw [compare_eq, settle_unlike hskip hunlike, settled_yields, leaf_yields_false] at h
      obtain ⟨notice, hnotice, rfl⟩ := h
      exact .unlike hskip hunlike hnotice
    obtain ⟨hwant, hfound, hinspected⟩ := inspected_of_not_unlike hskip habsent hunlike
    by_cases haccessible : want.isAccessible ∧ found.isAccessible
    · obtain ⟨verdict, hverdict, hnotices⟩ :=
        (compare_yields_of_inspected hops (hinspected haccessible)).mp h
      exact .inspected (hinspected haccessible) hverdict hnotices
    · rw [compare_eq, settle_hidden hskip ⟨hwant, hfound⟩ haccessible, visited_yields, resume,
        Outcome.yields_pure] at h
      exact h ▸ .hidden hskip ⟨hwant, hfound⟩ haccessible
  · intro h
    cases h with
    | skipped hskip =>
      rw [compare_eq, settle_skipped hskip, visited_yields, resume, Outcome.yields_pure]
    | absent hskip habsent =>
      rw [compare_eq, settle_absent hskip habsent, settled_yields, leaf_yields_true]
    | unlike hskip hunlike hnotice =>
      rw [compare_eq, settle_unlike hskip hunlike, settled_yields, leaf_yields_false]
      exact ⟨_, hnotice, rfl⟩
    | hidden hskip hpresent hhidden =>
      rw [compare_eq, settle_hidden hskip hpresent hhidden, visited_yields, resume,
        Outcome.yields_pure]
    | inspected hinspected hverdict hnotices =>
      exact (compare_yields_of_inspected hops hinspected).mpr ⟨_, hverdict, hnotices⟩

end Comparison

end Discrepancy
