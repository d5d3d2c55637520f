import Discrepancy.Proofs.Correspondence
import Discrepancy.Proofs.Descent

/-!
# Comparisons side by side

Two comparisons without checkers tell the same, in whatever sense is chosen, when they stay in step.
A simulation relates the meetings of the one to the meetings of the other: pairs of values with the
options that hold there.  Related meetings look alike from outside, what they tell of themselves
corresponds, and a look at either finds related meetings below.  From this step the whole follows
by induction on the wanted value.
-/

namespace Discrepancy.Comparison

open Outcome

variable [Host]

/-- Two values that meet in a comparison, and the options which hold there. -/
structure Meeting where
  want : Value
  found : Value
  ops : Options

namespace Meeting

def mismatch (m : Meeting) : Outcome Notice :=
  Comparison.mismatch m.want m.found m.ops.toContext

/-- What is told of a key which the found value lacks. -/
def lacking (m : Meeting) (label : Text) : Outcome Notice :=
  Comparison.mismatch m.found .absent (m.ops.below (.key label)).toContext

/-- Two meetings are the same as far as can be seen from outside. -/
structure Alike (m m' : Meeting) : Prop where
  skipped : m.ops.isSkipped = m'.ops.isSkipped
  skipHidden : m.ops.skipHidden = m'.ops.skipHidden
  present : m.want.isPresent = m'.want.isPresent ∧ m.found.isPresent = m'.found.isPresent
  accessible : m.want.isAccessible = m'.want.isAccessible ∧
    m.found.isAccessible = m'.found.isAccessible
  identity : m.want.identity? = m'.want.identity? ∧ m.found.identity? = m'.found.identity?

end Meeting

section Matching

variable (strict : Bool) (N : Notice → Notice → Prop) (R : Meeting → Meeting → Prop)
  (m m' : Meeting)

/-- Two branches of which corresponding notices come. -/
inductive Branch.Matches : Branch → Branch → Prop
  | part {step step' : Option Step} {v w v' w' : Value} (hmem : v ∈ m.want.parts)
      (h : R ⟨v, w, m.ops.follow step⟩ ⟨v', w', m'.ops.follow step'⟩) :
      Branch.Matches (.part step v w) (.part step' v' w')
  | missing {label label' : Text} (h : Corresponds N (m.lacking label) (m'.lacking label')) :
      Branch.Matches (.missing label) (.missing label')
  | refused {fault fault' : Fault} : Branch.Matches (.refused fault) (.refused fault')

/-- Two looks that show the same. -/
inductive Verdict.Matches : Verdict → Verdict → Prop
  | leaf (equal : Bool) : Verdict.Matches (.leaf equal) (.leaf equal)
  | lengths (wantLength foundLength : Nat) :
      Verdict.Matches (.lengths wantLength foundLength) (.lengths wantLength foundLength)
  | branches {below below' : List Branch}
      (h : Matched strict (Branch.Matches N R m m') below below') :
      Verdict.Matches (.branches below) (.branches below')

end Matching

/-- Meetings related by `R` lead to meetings related by `R`, and to notices related by `N`. -/
structure Simulation (strict : Bool) (N : Notice → Notice → Prop)
    (R : Meeting → Meeting → Prop) : Prop where
  unchecked {m m' : Meeting} : R m m' → m.ops.Unchecked ∧ m'.ops.Unchecked
  alike {m m' : Meeting} : R m m' → m.Alike m'
  mismatch {m m' : Meeting} : R m m' → Corresponds N m.mismatch m'.mismatch
  hidden {m m' : Meeting} : R m m' → N (hiddenNotice m.ops.trail) (hiddenNotice m'.ops.trail)
  prepend {n n' : Notice} (name value : Text) :
    N n n' → N (n.prepend name value) (n'.prepend name value)
  inspect {m m' : Meeting} : R m m' → Inspected m.want m.found m.ops →
    Corresponds (Verdict.Matches strict N R m m') (inspect m.want m.found m.ops)
      (inspect m'.want m'.found m'.ops)

namespace Simulation

variable {strict : Bool} {N : Notice → Notice → Prop} {R : Meeting → Meeting → Prop}
  {m m' : Meeting}

omit [Host] in
theorem visit (ops ops' : Options) (skipped skipped' : Bool) :
    Corresponds (fun _ _ ↦ True) (ops.visit skipped) (ops'.visit skipped') :=
  .of_yields (ops.visit_yields skipped) (ops'.visit_yields skipped') trivial

omit [Host] in
theorem matched_single {n n' : Notice} (h : N n n') : Matched strict N [n] [n'] :=
  .of_forall₂ (.cons h .nil)

theorem leaf (sim : Simulation strict N R) (h : R m m') (equal : Bool) :
    Corresponds (Matched strict N) (leaf equal m.want m.found m.ops)
      (leaf equal m'.want m'.found m'.ops) := by
  refine (visit m.ops m'.ops false false).bind fun _ _ _ _ _ ↦ ?_
  cases equal with
  | true => exact corresponds_pure (.of_forall₂ .nil)
  | false => exact (sim.mismatch h).bind fun _ _ _ _ hn ↦ corresponds_pure (matched_single hn)

theorem lengthMismatch (sim : Simulation strict N R) (h : R m m') (wantLength foundLength : Nat) :
    Corresponds (Matched strict N) (lengthMismatch m.want m.found wantLength foundLength m.ops)
      (lengthMismatch m'.want m'.found wantLength foundLength m'.ops) :=
  (visit m.ops m'.ops false false).bind fun _ _ _ _ _ ↦ (sim.mismatch h).bind fun _ _ _ _ hn ↦
    corresponds_pure (matched_single (sim.prepend _ _ (sim.prepend _ _ hn)))

/-- What is settled from outside is settled alike. -/
theorem settle (sim : Simulation strict N R) (h : R m m') :
    Corresponds (Option.Rel (Matched strict N)) (settle m.want m.found m.ops)
      (settle m'.want m'.found m'.ops) := by
  have halike := sim.alike h
  have hleaf (equal : Bool) : Corresponds (Option.Rel (Matched strict N))
      (some <$> Comparison.leaf equal m.want m.found m.ops)
      (some <$> Comparison.leaf equal m'.want m'.found m'.ops) :=
    (sim.leaf h equal).map fun _ _ ↦ .some
  rw [Comparison.settle, Comparison.settle, checker?_eq_none (sim.unchecked h).1,
    checker?_eq_none (sim.unchecked h).2, ← halike.skipped, ← halike.present.1, ← halike.present.2,
    ← halike.accessible.1, ← halike.accessible.2, ← halike.identity.1, ← halike.identity.2,
    ← halike.skipHidden]
  split_ifs
  · exact (visit ..).bind fun _ _ _ _ _ ↦ corresponds_pure (.some (.of_forall₂ .nil))
  · exact hleaf _
  · exact (visit ..).bind fun _ _ _ _ _ ↦ corresponds_pure (.some (.of_forall₂ .nil))
  · exact (visit ..).bind fun _ _ _ _ _ ↦ corresponds_pure (.some (matched_single (sim.hidden h)))
  · exact hleaf false
  · exact corresponds_pure .none

/-- What comes of matching branches corresponds, given that it does for the parts. -/
theorem run {b b' : Branch} (hb : Branch.Matches N R m m' b b')
    (ih : ∀ v ∈ m.want.parts, ∀ n n' : Meeting, n.want = v → R n n' →
      Corresponds (Matched strict N) (compare n.want n.found n.ops)
        (compare n'.want n'.found n'.ops)) :
    Corresponds (Matched strict N) (b.run m.found m.ops) (b'.run m'.found m'.ops) := by
  cases hb with
  | part hmem h => exact ih _ hmem _ _ rfl h
  | missing h =>
    exact (visit ..).bind fun _ _ _ _ _ ↦ h.bind fun _ _ _ _ hn ↦
      corresponds_pure (matched_single hn)
  | refused => exact corresponds_of_never (fun _ ↦ not_yields_fail _) fun _ ↦ not_yields_fail _

/-- Comparisons that stay in step tell the same. -/
theorem compare (sim : Simulation strict N R) (h : R m m') :
    Corresponds (Matched strict N) (compare m.want m.found m.ops)
      (compare m'.want m'.found m'.ops) := by
  obtain ⟨want, found, ops⟩ := m
  induction want using Value.induction_parts generalizing found ops m' with
  | h want ih =>
    rw [compare_eq, compare_eq]
    refine (sim.settle h).bind fun settled settled' hsettled _ hrel ↦ ?_
    cases hrel with
    | some hnotices => exact corresponds_pure hnotices
    | none =>
      refine (sim.inspect h (inspected_of_settle hsettled)).bind fun _ _ _ _ hverdict ↦ ?_
      cases hverdict with
      | leaf equal => exact sim.leaf h equal
      | lengths wantLength foundLength => exact sim.lengthMismatch h wantLength foundLength
      | branches hbelow =>
        have hrun := hbelow.map (f := Branch.run found ops) (g := Branch.run m'.found m'.ops)
          fun _ _ _ _ hb ↦ run hb fun v hv n n' hn hR ↦ by
            obtain ⟨_, found', ops'⟩ := n
            subst hn
            exact ih _ hv found' ops' hR
        exact (corresponds_sequence_of_matched hrun).bind fun _ _ _ _ hparts ↦
          corresponds_pure hparts.flatten

end Simulation

/-! ## One look under two options -/

variable {strict : Bool} {N : Notice → Notice → Prop} {R : Meeting → Meeting → Prop}
  {want found : Value} {ops ops' : Options}

section Self

variable
    (hpart : ∀ step step' v w, (strict → step = step') → Part ops.rendering want found step v w →
      R ⟨v, w, ops.follow step⟩ ⟨v, w, ops'.follow step'⟩)
    (hlacking : ∀ label label', (strict → label = label') →
      Corresponds N (Meeting.lacking ⟨want, found, ops⟩ label)
        (Meeting.lacking ⟨want, found, ops'⟩ label'))

include hpart hlacking

/-- What a look shows matches itself under other options. -/
theorem Look.matches_self {verdict : Verdict} (h : Look ops.rendering want found verdict) :
    Verdict.Matches strict N R ⟨want, found, ops⟩ ⟨want, found, ops'⟩ verdict verdict := by
  have hbranches {below : List Branch}
      (hbelow : ∀ b, b ∈ below ↔ Leads ops.rendering want found b) :
      Verdict.Matches strict N R ⟨want, found, ops⟩ ⟨want, found, ops'⟩ (.branches below)
        (.branches below) := by
    refine .branches (.of_forall₂ (List.forall₂_same.mpr fun b hb ↦ ?_))
    cases (hbelow b).mp hb with
    | part h => exact .part h.mem_parts.1 (hpart _ _ _ _ (fun _ ↦ rfl) h)
    | missing => exact .missing (hlacking _ _ fun _ ↦ rfl)
  cases h with
  | lengths => exact .lengths _ _
  | branches _ _ hbelow => exact hbranches hbelow
  | _ => exact .leaf _

variable [LawfulHost]

/-- The branches of two maps match when their keys are visited in corresponding ways. -/
theorem keyBranch_matches_self {rule rule' : KeyRule} {key mapped mapped' : Ty}
    {storage storage' : Identity} {entries others : List (Value × Value)} {label label' : Text}
    {k v : Value} (hwant : want = .map rule key mapped storage entries)
    (hfound : found = .map rule' key mapped' storage' others)
    (hform : rule.form = rule'.form) (hkeyed : want.Keyed) (hmem : (k, v) ∈ entries)
    (hyields : (ops.rendering.keyLabel k).Yields label) (hlabel : strict → label = label') :
    Branch.Matches N R ⟨want, found, ops⟩ ⟨want, found, ops'⟩
      (keyBranch found rule entries label k) (keyBranch found rule entries label' k) := by
  subst hwant hfound
  have hmissing := Branch.Matches.missing (R := R) (hlacking label label' hlabel)
  rw [keyBranch_eq hform hkeyed hmem, keyBranch_eq hform hkeyed hmem]
  cases hother : Table.find? rule' k others with
  | none => exact hmissing
  | some w =>
    rw [Option.elim_some, Option.elim_some]
    split_ifs
    · exact .part (Value.mapped_mem_parts hmem)
        (hpart _ _ _ _ (fun h ↦ by rw [hlabel h]) (.mapped hmem hother hyields))
    · exact hmissing

/-- A look at one pair of values under two options shows the same, given that keys are visited in
corresponding ways. -/
theorem corresponds_inspect_self (hidentity : want.identity? = found.identity?)
    (hkeyed : want.Keyed)
    (hkeys : Corresponds
      (Matched strict fun item item' ↦ (strict → item.1 = item'.1) ∧ item.2 = item'.2)
      (ops.rendering.sortedKeys want) (ops'.rendering.sortedKeys want)) :
    Corresponds (Verdict.Matches strict N R ⟨want, found, ops⟩ ⟨want, found, ops'⟩)
      (inspect want found ops) (inspect want found ops') := by
  by_cases hmaps : want.rank = 5 ∧ found.rank = 5
  · cases want with
    | map rule key mapped storage entries =>
      cases found with
      | map rule' key' mapped' storage' others =>
        obtain ⟨hform, rfl, rfl⟩ := Value.map_identity_inj.mp hidentity
        rw [inspect, inspect]
        split_ifs
        · exact corresponds_pure (.lengths _ _)
        · exact corresponds_pure (.leaf true)
        refine hkeys.bind fun keys keys' hyields _ hmatched ↦
          corresponds_pure (.branches (hmatched.map ?_))
        rintro ⟨label, k⟩ hitem ⟨label', k'⟩ - ⟨hlabel, hkey⟩
        obtain ⟨v, hv, hk⟩ := Rendering.exists_mem_of_sortedKeys hyields hitem
        obtain rfl : k = k' := hkey
        exact keyBranch_matches_self hpart hlacking rfl rfl hform hkeyed hv hk hlabel
      | _ => cases hmaps.2
    | _ => cases hmaps.1
  · have hsame : inspect want found ops = inspect want found ops' := by
      unfold inspect
      split <;> first | rfl | exact (hmaps ⟨rfl, rfl⟩).elim
    have hself {verdict : Verdict} (h : (inspect want found ops).Yields verdict) :=
      (look_of_inspect hidentity hkeyed h).matches_self hpart hlacking
    rw [← hsame]
    exact ⟨fun h ↦ ⟨_, h, hself h⟩, fun h ↦ ⟨_, h, hself h⟩⟩

end Self

end Discrepancy.Comparison
