import Discrepancy.Proofs.KeyOrder
import Discrepancy.Proofs.Reach
import Discrepancy.Proofs.Totality

/-!
# One more skipped trail

Options that skip one more trail leave out notices, and only such as lie at that trail or below it.
What is left are the same notices in the same order.  For the two comparisons go the same way until
one of them stops at the trail, and all that the other one tells from there on has a trail which
continues it.
-/

namespace Discrepancy

open Outcome

/-! ## Trails below a trail -/

namespace Trail

/-- A trail is the one above, or continues it with a step.  All trails continue the empty one. -/
def Covers (above trail : Text) : Prop :=
  above = [] ∨ trail = above ∨ above ++ ("." : Text) <+: trail ∨ above ++ ("[" : Text) <+: trail

instance (above trail : Text) : Decidable (Covers above trail) :=
  inferInstanceAs (Decidable (above = [] ∨ trail = above ∨ _ ∨ _))

theorem covers_self (trail : Text) : Covers trail trail :=
  .inr (.inl rfl)

/-- A step leads on from a trail that is not empty by a point or a bracket. -/
theorem point_or_bracket_isPrefix {trail : Text} (h : trail ≠ []) (step : Step) :
    trail ++ ("." : Text) <+: extend trail step ∨ trail ++ ("[" : Text) <+: extend trail step := by
  cases step with
  | field name =>
    rw [extend, if_neg (by simpa using h)]
    exact .inl (List.prefix_append _ _)
  | index i =>
    rw [extend, List.append_assoc]
    exact .inr (List.prefix_append _ _)
  | key label =>
    rw [extend, List.append_assoc]
    exact .inr (List.prefix_append _ _)

theorem isPrefix_extend (trail : Text) (step : Step) : trail <+: extend trail step := by
  by_cases h : trail = []
  · rw [h]
    exact List.nil_prefix
  · rcases point_or_bracket_isPrefix h step with hstep | hstep
    · exact (List.prefix_append _ _).trans hstep
    · exact (List.prefix_append _ _).trans hstep

theorem Covers.extend {above trail : Text} (h : Covers above trail) (step : Step) :
    Covers above (extend trail step) := by
  have hstep := isPrefix_extend trail step
  rcases h with hempty | rfl | hpoint | hbracket
  · exact .inl hempty
  · by_cases hempty : trail = []
    · exact .inl hempty
    · exact .inr (.inr (point_or_bracket_isPrefix hempty step))
  · exact .inr (.inr (.inl (hpoint.trans hstep)))
  · exact .inr (.inr (.inr (hbracket.trans hstep)))

/-- Whatever path is taken from a trail, it stays below. -/
theorem covers_foldl (trail : Text) (path : List Step) :
    Covers trail (path.foldl Trail.extend trail) := by
  have hfold (below : Text) (h : Covers trail below) :
      Covers trail (path.foldl Trail.extend below) := by
    induction path generalizing below with
    | nil => exact h
    | cons step path ih => exact ih _ (h.extend step)
  exact hfold trail (covers_self trail)

end Trail

/-! ## Options -/

namespace Options

def skip (ops : Options) (trail : Text) : Options :=
  { ops with skipTrails := ops.skipTrails ++ [trail] }

theorem skip_follow (ops : Options) (trail : Text) (step : Option Step) :
    (ops.skip trail).follow step = (ops.follow step).skip trail := by
  cases step <;> rfl

/-- Skipping one more trail registers no checkers. -/
theorem Unchecked.skip {ops : Options} (h : ops.Unchecked) (trail : Text) :
    (ops.skip trail).Unchecked :=
  ⟨h.trails, h.types⟩

/-- One more trail is skipped at that trail alone. -/
theorem isSkipped_skip {ops : Options} {trail : Text} :
    (ops.skip trail).isSkipped ↔ ops.isSkipped ∨ ops.trail = trail := by
  simp [isSkipped, skip]

end Options

namespace Comparison

variable {want found : Value} {ops : Options} {notices : List Notice} {notice : Notice}
  {trail : Text}

/-! ## Notices that are left out -/

/-- Some notices are left of others when those below a trail may be left out. -/
structure Omits (trail : Text) (kept notices : List Notice) : Prop where
  sublist : kept.Sublist notices
  outside : kept.filter (fun notice ↦ ¬ Trail.Covers trail notice.trail) =
    notices.filter fun notice ↦ ¬ Trail.Covers trail notice.trail

namespace Omits

theorem refl (trail : Text) (notices : List Notice) : Omits trail notices notices :=
  ⟨.refl _, rfl⟩

/-- Nothing need be left where all lies below the trail. -/
theorem nil_left (h : ∀ notice ∈ notices, Trail.Covers trail notice.trail) :
    Omits trail [] notices where
  sublist := List.nil_sublist _
  outside := (List.filter_eq_nil_iff.mpr (by simpa using h)).symm

/-- What is left of parts is left of the whole. -/
theorem flatten {parts keptParts : List (List Notice)}
    (h : List.Forall₂ (Omits trail) keptParts parts) :
    Omits trail keptParts.flatten parts.flatten := by
  induction h with
  | nil => exact refl trail []
  | cons hhead _ ih =>
    refine ⟨hhead.sublist.append ih.sublist, ?_⟩
    rw [List.flatten_cons, List.flatten_cons, List.filter_append, List.filter_append,
      hhead.outside, ih.outside]

/-- Every notice which is left out lies below the trail. -/
theorem covers_of_mem_diff {kept : List Notice} (h : Omits trail kept notices)
    (hmem : notice ∈ notices.diff kept) : Trail.Covers trail notice.trail := by
  by_contra hnot
  have hcount (l : List Notice) :
      (l.filter fun notice ↦ ¬ Trail.Covers trail notice.trail).count notice = l.count notice :=
    List.count_filter (by simpa using hnot)
  have hsame : kept.count notice = notices.count notice := by
    rw [← hcount kept, ← hcount notices, h.outside]
  have hpos := List.count_pos_iff.mpr hmem
  rw [List.count_diff, hsame, Nat.sub_self] at hpos
  exact Nat.lt_irrefl 0 hpos

end Omits

variable [Host]

/-! ## Trails of notices -/

/-- Every notice stands at the end of a path from the start. -/
theorem Makes.exists_path (h : Makes want found ops notice) :
    ∃ path : List Step, notice.trail = path.foldl Trail.extend ops.trail := by
  cases h with
  | unlike _ _ hnotice => exact ⟨[], mismatch_trail hnotice⟩
  | hidden => exact ⟨[], rfl⟩
  | unequal _ _ hnotice => exact ⟨[], mismatch_trail hnotice⟩
  | lengths _ _ _ _ hnotice =>
    have htrail := mismatch_trail hnotice
    exact ⟨[], htrail⟩
  | missing _ _ hnotice => exact ⟨[.key _], mismatch_trail hnotice⟩

variable [LawfulHost]

/-- The trail of every notice continues the one at which the comparison starts. -/
theorem covers_of_mem (hops : ops.Unchecked) (hkeyed : want.Everywhere Value.Keyed)
    (h : (compare want found ops).Yields notices) (hmem : notice ∈ notices) :
    Trail.Covers ops.trail notice.trail := by
  obtain ⟨path, u, u', -, hmakes⟩ := exists_arrives_of_mem hops hkeyed h hmem
  obtain ⟨path', htrail⟩ := hmakes.exists_path
  rw [htrail, Options.descend_trail, ← List.foldl_append]
  exact Trail.covers_foldl ops.trail (path ++ path')

/-! ## Two runs -/

omit [LawfulHost] in
/-- What comes of some branches with one more skipped trail, if so it is for each of them. -/
theorem exists_conclude_of_branches {below : List Branch}
    (h : (conclude want found ops (.branches below)).Yields notices)
    (hbelow : ∀ branch ∈ below, ∀ part, (branch.run found ops).Yields part →
      ∃ kept, (branch.run found (ops.skip trail)).Yields kept ∧ Omits trail kept part) :
    ∃ kept, (conclude want found (ops.skip trail) (.branches below)).Yields kept ∧
      Omits trail kept notices := by
  obtain ⟨parts, hparts, rfl⟩ := conclude_branches_yields.mp h
  obtain ⟨keptParts, hruns, hall⟩ := exists_forall₂ hparts hbelow
  exact ⟨keptParts.flatten, conclude_branches_yields.mpr ⟨keptParts, hruns, rfl⟩, .flatten hall⟩

/-- A comparison that returns does so with one more skipped trail, and leaves out what lies below
it. -/
theorem exists_omits (hops : ops.Unchecked) (hkeyed : want.Everywhere Value.Keyed)
    (h : (compare want found ops).Yields notices) :
    ∃ kept, (compare want found (ops.skip trail)).Yields kept ∧ Omits trail kept notices := by
  induction want using Value.induction_parts generalizing found ops notices with
  | h want ih =>
    have hyields {kept : List Notice} (h : Account want found (ops.skip trail) kept) :
        (compare want found (ops.skip trail)).Yields kept :=
      (compare_yields_iff (hops.skip trail)).mpr h
    -- Either the new trail ends the comparison here, or the same rule applies as without it.
    by_cases hskip : (ops.skip trail).isSkipped
    · refine ⟨[], hyields (.skipped hskip), .nil_left fun notice hmem ↦ ?_⟩
      rcases Options.isSkipped_skip.mp hskip with hskipped | htrail
      · have hnil : (compare want found ops).Yields [] :=
          (compare_yields_iff hops).mpr (.skipped hskipped)
        rw [h.unique hnil] at hmem
        cases hmem
      · rw [← htrail]
        exact covers_of_mem hops hkeyed h hmem
    have hsame {kept : List Notice} (h : Account want found (ops.skip trail) kept) :
        ∃ kept', (compare want found (ops.skip trail)).Yields kept' ∧ Omits trail kept' kept :=
      ⟨kept, hyields h, .refl trail kept⟩
    cases (compare_yields_iff hops).mp h with
    | skipped hskipped => exact (hskip (Options.isSkipped_skip.mpr (.inl hskipped))).elim
    | absent _ habsent => exact hsame (.absent hskip habsent)
    | unlike _ hunlike hnotice => exact hsame (.unlike hskip hunlike hnotice)
    | hidden _ hpresent hhidden => exact hsame (.hidden hskip hpresent hhidden)
    | @inspected verdict _ hinspected hverdict hnotices =>
      have hinspected' : Inspected want found (ops.skip trail) :=
        ⟨hskip, hinspected.present, hinspected.accessible, hinspected.identity⟩
      cases verdict with
      | leaf equal => exact hsame (.inspected hinspected' hverdict hnotices)
      | lengths m n => exact hsame (.inspected hinspected' hverdict hnotices)
      | branches below =>
        have hbelow : ∀ b, b ∈ below ↔ Leads ops.rendering want found b := by
          cases look_of_inspect hinspected.identity hkeyed.self hverdict with
          | branches _ _ hbelow => exact hbelow
        have hbranches (branch : Branch) (hbranch : branch ∈ below) (part : List Notice)
            (hrun : (branch.run found ops).Yields part) :
            ∃ kept, (branch.run found (ops.skip trail)).Yields kept ∧ Omits trail kept part := by
          cases branch with
          | part step v w =>
            have hv := ((hbelow _).mp hbranch).mem_parts
            obtain ⟨kept, hkept, homits⟩ := ih v hv (hops.follow step) (hkeyed.part hv) hrun
            rw [← Options.skip_follow] at hkept
            exact ⟨kept, hkept, homits⟩
          | missing label => exact ⟨part, hrun, .refl trail part⟩
          | refused fault => exact (not_yields_fail fault hrun).elim
        obtain ⟨kept, hkept, homits⟩ := exists_conclude_of_branches hnotices hbranches
        exact ⟨kept, hyields (.inspected hinspected' hverdict hkept), homits⟩

/-- Whenever a comparison returns, it does so with one more skipped trail as well: the notices are
then left in their order, but for some at that trail or below it.  Of values made from objects it
does return if the registered renderers do. -/
theorem exists_sublist_of_skip (trail : Text) (hops : ops.Unchecked)
    (hkeyed : want.Everywhere Value.Keyed) :
    (ops.rendering.Faultless → ∀ declared, want.Everywhere (Value.Genuine declared) →
        found.Everywhere (Value.Genuine declared) → (compare want found ops).Returns) ∧
      ∀ notices, (compare want found ops).Yields notices →
        ∃ kept, (compare want found (ops.skip trail)).Yields kept ∧ kept.Sublist notices ∧
          ∀ notice ∈ notices.diff kept, Trail.Covers trail notice.trail := by
  refine ⟨fun hr _ ↦ compare_returns hops hr, fun notices hnotices ↦ ?_⟩
  obtain ⟨kept, hkept, homits⟩ := exists_omits hops hkeyed hnotices
  exact ⟨kept, hkept, homits.sublist, fun notice ↦ homits.covers_of_mem_diff⟩

end Comparison

/-! ## Samples -/

namespace Comparison

open scoped Sample

def inAndInner (i j : Int) : Value :=
  .record "Outer" [("In", .scalar (.integer .int i)), ("Inner", .scalar (.integer .int j))]

def differ (trail wantText foundText : Text) : Notice where
  header := "expected values to be equal"
  trail := trail
  rows := [⟨"want", wantText⟩, ⟨"have", foundText⟩]

/-- Skipping `In` leaves the notice at `Inner`. -/
theorem exists_sublist_of_skip_in :
    (compare (inAndInner 1 2) (inAndInner 3 4) {}).Returns ∧
      ∃ kept, (compare (inAndInner 1 2) (inAndInner 3 4) (({} : Options).skip "In")).Yields kept ∧
        kept.Sublist [differ "In" "1" "3", differ "Inner" "2" "4"] ∧
        ∀ notice ∈ [differ "In" "1" "3", differ "Inner" "2" "4"].diff kept,
          Trail.Covers "In" notice.trail := by
  have hwant : (inAndInner 1 2).Everywhere (Value.Genuine fun _ ↦ ["In", "Inner"]) := by decide
  have hfound : (inAndInner 3 4).Everywhere (Value.Genuine fun _ ↦ ["In", "Inner"]) := by decide
  have hyields : (compare (inAndInner 1 2) (inAndInner 3 4) {}).Yields
      [differ "In" "1" "3", differ "Inner" "2" "4"] := by decide
  have hkeyed := hwant.mono fun _ h ↦ h.keyed
  exact ⟨(exists_sublist_of_skip "In" ⟨rfl, rfl⟩ hkeyed).1 Rendering.faultless_empty _ hwant hfound,
    (exists_sublist_of_skip "In" ⟨rfl, rfl⟩ hkeyed).2 _ hyields⟩

/-- What only begins with the same letters is still compared. -/
example : (compare (inAndInner 1 2) (inAndInner 3 4) (({} : Options).skip "In")).Yields
    [differ "Inner" "2" "4"] := by
  decide

end Comparison

end Discrepancy
