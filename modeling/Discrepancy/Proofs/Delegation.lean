import Discrepancy.Proofs.Correspondence
import Discrepancy.Proofs.KeyOrder
import Discrepancy.Proofs.Totality
import Discrepancy.Sample.Checkers

/-!
# Delegation to the rules

A checker may hand two values back to the rules of the library, without the other checkers.  Where
all checkers do so, a comparison tells what it tells without them: the rules are started again at
the location where the checker is consulted, with the options that hold there, and the way from
notices to a report and back loses nothing.  Above that location no checker was consulted, and the
rules were followed all along.
-/

namespace Discrepancy

open Outcome

/-- A report holds the notices from which it was made. -/
theorem Report.noticesOf_ofNotices? (notices : List Notice) :
    noticesOf (ofNotices? notices) = notices := by
  cases notices <;> rfl

/-- Every checker hands back to the rules. -/
def Options.Delegating [Host] (ops : Options) : Prop :=
  ∀ checker, ops.Registers checker → checker = Checker.descend []

/-- Registers a checker that hands back to the rules. -/
inductive Setting.Delegates [Host] : Setting → Prop
  | trail (trail : Text) : Delegates (.trailChecker trail (Checker.descend []))
  | type (type : Ty) : Delegates (.typeChecker type (Checker.descend []))

namespace Options

variable [Host] {ops : Options}

/-- Delegating checkers remain the only ones on the way down. -/
theorem Delegating.follow (h : ops.Delegating) (step : Option Step) :
    (ops.follow step).Delegating :=
  fun checker hchecker ↦ h checker (registers_follow.mp hchecker)

theorem Unchecked.delegating (h : ops.Unchecked) : ops.Delegating :=
  fun checker hchecker ↦ (h.not_registers checker hchecker).elim

omit [Host] in
theorem mem_assign {κ α : Type} [BEq κ] {key : κ} {a : α} {table : List (κ × α)} {entry : κ × α}
    (h : entry ∈ assign key a table) : entry = (key, a) ∨ entry ∈ table := by
  rcases List.mem_cons.mp h with heq | hmem
  · exact .inl heq
  · exact .inr (List.mem_of_mem_filter hmem)

/-- Another checker that hands back changes nothing else. -/
theorem apply_of_delegates {setting : Setting} (hsetting : setting.Delegates)
    (h : ops.Delegating) :
    ∃ registered, (setting.apply ops).Yields registered ∧ registered.Delegating ∧
      registered.withoutCheckers = ops.withoutCheckers := by
  cases hsetting with
  | trail trail =>
    refine ⟨_, rfl, ?_, rfl⟩
    rintro checker (⟨key, hmem⟩ | htype)
    · rcases mem_assign hmem with heq | hmem
      · exact (Prod.mk.inj heq).2
      · exact h checker (.inl ⟨key, hmem⟩)
    · exact h checker (.inr htype)
  | type type =>
    refine ⟨_, rfl, ?_, rfl⟩
    rintro checker (htrail | ⟨key, hmem⟩)
    · exact h checker (.inl htrail)
    · rcases mem_assign hmem with heq | hmem
      · exact (Prod.mk.inj heq).2
      · exact h checker (.inr ⟨key, hmem⟩)

theorem configure_of_delegates {settings : List Setting}
    (hsettings : ∀ setting ∈ settings, setting.Delegates) (h : ops.Delegating) :
    ∃ registered, (ops.configure settings).Yields registered ∧ registered.Delegating ∧
      registered.withoutCheckers = ops.withoutCheckers := by
  induction settings generalizing ops with
  | nil => exact ⟨ops, rfl, h, rfl⟩
  | cons setting rest ih =>
    obtain ⟨hsetting, hrest⟩ := List.forall_mem_cons.mp hsettings
    obtain ⟨next, hnext, hdelegating, hcontext⟩ := apply_of_delegates hsetting h
    obtain ⟨registered, hregistered, hall, hcontext'⟩ := ih hrest hdelegating
    exact ⟨registered, hnext.bind hregistered, hall, hcontext'.trans hcontext⟩

end Options

namespace Comparison

variable [Host] {declared : Text → List Text} {want found : Value} {ops : Options}
  {verdict : Verdict}

/-- A notice tells a location, and is rendered; nothing else that holds there matters to it. -/
theorem mismatch_congr {context context' : Context} (htrail : context.trail = context'.trail)
    (hrendering : context.rendering = context'.rendering) :
    mismatch want found context = mismatch want found context' := by
  rw [mismatch, mismatch, htrail, hrendering]

/-- Conclusions at one location are the same, given that they are for the parts. -/
theorem corresponds_conclude {ops' : Options} (htrail : ops.trail = ops'.trail)
    (hrendering : ops.rendering = ops'.rendering)
    (hparts : ∀ below, verdict = .branches below → ∀ step v w, .part step v w ∈ below →
      Corresponds Eq (compare v w (ops.follow step)) (compare v w (ops'.follow step))) :
    Corresponds Eq (conclude want found ops verdict) (conclude want found ops' verdict) := by
  cases verdict with
  | leaf equal =>
    apply corresponds_eq_iff.mpr
    intro notices
    cases equal with
    | true => exact leaf_yields_true.trans leaf_yields_true.symm
    | false =>
      rw [conclude, conclude, leaf_yields_false, leaf_yields_false,
        mismatch_congr htrail hrendering]
  | lengths wantLength foundLength =>
    apply corresponds_eq_iff.mpr
    intro notices
    rw [conclude, conclude, lengthMismatch_yields, lengthMismatch_yields,
      mismatch_congr htrail hrendering]
  | branches below =>
    have hrun : ∀ branch ∈ below, Corresponds Eq (Branch.run found ops branch)
        (Branch.run found ops' branch) := by
      intro branch hbranch
      cases branch with
      | part step v w => exact hparts below rfl step v w hbranch
      | missing label =>
        have htrail' : (ops.below (.key label)).trail = (ops'.below (.key label)).trail :=
          congrArg (Trail.extend · (.key label)) htrail
        apply corresponds_eq_iff.mpr
        intro notices
        rw [run_missing_yields, run_missing_yields, mismatch_congr htrail' hrendering]
      | refused fault => exact corresponds_refl fun _ ↦ rfl
    apply (corresponds_sequence_map_self hrun).bind
    intro parts parts' _ _ hall
    rw [List.forall₂_eq_eq_eq] at hall
    exact corresponds_pure (congrArg List.flatten hall)

/-- A checker that descends without further settings tells what the rules tell. -/
theorem descend_nil_yields {situation : Situation} {report : Option Report} :
    (Checker.descend [] want found situation).Yields report ↔
      ∃ notices, (compare want found { toContext := situation.toContext }).Yields notices ∧
        Report.ofNotices? notices = report := by
  change (compare want found { toContext := situation.toContext } >>= fun notices ↦
    pure (Report.ofNotices? notices)).Yields report ↔ _
  simp only [yields_bind, yields_pure]

/-- A checker that hands back to the rules has their notices. -/
theorem compare_of_delegate (hinspected : Inspected want found ops)
    (hchecker : checker? want ops = some (Checker.descend [])) (notices : List Notice) :
    (compare want found ops).Yields notices ↔
      (compare want found ops.withoutCheckers).Yields notices := by
  rw [compare_of_checker hinspected hchecker]
  constructor
  · rintro ⟨report, hreport, rfl⟩
    obtain ⟨notices, hnotices, rfl⟩ := descend_nil_yields.mp hreport
    rw [Report.noticesOf_ofNotices?]
    exact hnotices
  · intro h
    exact ⟨_, descend_nil_yields.mpr ⟨notices, h, rfl⟩, Report.noticesOf_ofNotices? notices⟩

variable [LawfulHost]

/-- Where all checkers hand back to the rules, a comparison yields what it yields without them. -/
theorem corresponds_compare_withoutCheckers (hdelegating : ops.Delegating)
    (hkeyed : want.Everywhere Value.Keyed) :
    Corresponds Eq (compare want found ops) (compare want found ops.withoutCheckers) := by
  induction want using Value.induction_parts generalizing found ops with
  | h want ih =>
    -- The induction is for the last case alone: a consulted checker compares the same two values.
    by_cases hinspected : Inspected want found ops
    swap
    · rw [compare_withoutCheckers hinspected]
      exact corresponds_refl fun _ ↦ rfl
    cases hchecker : checker? want ops with
    | some checker =>
      obtain rfl := hdelegating checker (registers_of_checker? hchecker)
      exact corresponds_eq_iff.mpr (compare_of_delegate hinspected hchecker)
    | none =>
      have hinspected' : Inspected want found ops.withoutCheckers :=
        ⟨hinspected.unskipped, hinspected.present, hinspected.accessible, hinspected.identity⟩
      have hplain : checker? want ops.withoutCheckers = none :=
        checker?_eq_none ops.unchecked_withoutCheckers
      rw [compare_of_no_checker hinspected hchecker, compare_of_no_checker hinspected' hplain]
      apply (corresponds_refl (p := Eq) fun _ ↦ rfl).bind
      intro verdict _ hverdict _ heq
      subst heq
      apply corresponds_conclude
      · rfl
      · rfl
      intro below hbelow step v w hmem
      subst hbelow
      have hlook := look_of_inspect hinspected.identity hkeyed.self hverdict
      have hv := (hlook.part_of_mem hmem).mem_parts.1
      rw [Options.withoutCheckers_follow]
      exact ih v hv (hdelegating.follow step) (hkeyed.part hv)

/-- The settings that register a checker which hands back to the rules, for some trails and for some
types. -/
def delegations (trails : List Text) (types : List Ty) : List Setting :=
  trails.map (.trailChecker · (Checker.descend [])) ++
    types.map (.typeChecker · (Checker.descend []))

omit [LawfulHost] in
theorem delegates_of_mem_delegations {trails : List Text} {types : List Ty} {setting : Setting}
    (h : setting ∈ delegations trails types) : setting.Delegates := by
  rcases List.mem_append.mp h with htrail | htype
  · obtain ⟨trail, -, rfl⟩ := List.mem_map.mp htrail
    exact .trail trail
  · obtain ⟨type, -, rfl⟩ := List.mem_map.mp htype
    exact .type type

/-- Checkers that hand back to the rules, registered for whatever trails and types, change no
notices. -/
theorem yields_iff_of_delegations (hops : ops.Unchecked)
    (hwant : want.Everywhere (Value.Made declared))
    (hfound : found.Everywhere (Value.Made declared)) (trails : List Text) (types : List Ty) :
    ∃ registered, (ops.configure (delegations trails types)).Yields registered ∧
      (∀ notices, (compare want found registered).Yields notices ↔
        (compare want found ops).Yields notices) ∧
      (ops.rendering.Faultless → want.Everywhere Value.Formatted →
        found.Everywhere Value.Formatted →
        ∃ notices, (compare want found ops).Yields notices ∧
          (compare want found registered).Yields notices) := by
  obtain ⟨registered, hregistered, hdelegating, hcontext⟩ :=
    Options.configure_of_delegates (fun _ ↦ delegates_of_mem_delegations) hops.delegating
  have hkeyed : want.Everywhere Value.Keyed := hwant.mono fun _ h ↦ h.keyed
  have hsame (notices : List Notice) : (compare want found registered).Yields notices ↔
      (compare want found ops).Yields notices := by
    have hplain : Corresponds Eq (compare want found registered)
        (compare want found registered.withoutCheckers) :=
      corresponds_compare_withoutCheckers hdelegating hkeyed
    rw [hcontext, hops.withoutCheckers_eq] at hplain
    exact hplain.yields_iff notices
  refine ⟨registered, hregistered, hsame, fun hr hformatted hformatted' ↦ ?_⟩
  obtain ⟨notices, hnotices⟩ := compare_returns hops hr (hwant.genuine hformatted)
    (hfound.genuine hformatted')
  exact ⟨notices, hnotices, (hsame notices).mpr hnotices⟩

end Comparison

/-! ## Samples -/

namespace Comparison

open scoped Sample

def shelf (storage : Identity) (m n : Int) : Value :=
  .map .sorted Sample.string (Sample.vectorOf Sample.int) storage
    [(.scalar (.string .owned (some "a")), .sequence .vector Sample.int (some storage)
      [.scalar (.integer .int m), .scalar (.integer .int n)])]

theorem yields_iff_of_delegations_shelf :
    ∃ registered,
      (Options.configure {} (delegations ["", "[\"a\"]"] [Sample.int])).Yields registered ∧
      (∀ notices, (compare (shelf 0 1 2) (shelf 1 1 3) registered).Yields notices ↔
        (compare (shelf 0 1 2) (shelf 1 1 3) {}).Yields notices) ∧
      ∃ notices, (compare (shelf 0 1 2) (shelf 1 1 3) {}).Yields notices ∧
        (compare (shelf 0 1 2) (shelf 1 1 3) registered).Yields notices := by
  have hops : ({} : Options).Unchecked := ⟨rfl, rfl⟩
  have hwant : (shelf 0 1 2).Everywhere (Value.Made fun _ ↦ []) := by decide
  have hfound : (shelf 1 1 3).Everywhere (Value.Made fun _ ↦ []) := by decide
  obtain ⟨registered, hregistered, hsame, hreturns⟩ :=
    yields_iff_of_delegations hops hwant hfound ["", "[\"a\"]"] [Sample.int]
  exact ⟨registered, hregistered, hsame, hreturns Rendering.faultless_empty (by decide) (by decide)⟩

/-- Checkers at the root, below it and for a type hand back in turn. -/
example :
    (Outcome.result do
      let ops ← Options.configure {} (delegations ["", "[\"a\"]"] [Sample.int])
      compare (shelf 0 1 2) (shelf 1 1 3) ops).toOption.map (List.map Notice.trail) =
        some (["[\"a\"][1]"] : List Text) := by
  decide

end Comparison

end Discrepancy
