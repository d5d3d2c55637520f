import Discrepancy.Proofs.KeyOrder
import Discrepancy.Proofs.Layout
import Discrepancy.Proofs.Omission

/-!
# Hidden values counting as equal

Options may let hidden values count as equal.  All that this changes is whether their notices are
given: the same parts are compared in the same order, and every other notice stays what it is.  For
nothing below a hidden value is compared either way, and what decides before it or after it does not
look at the option.
-/

namespace Discrepancy

open Outcome

def Notice.tellsHidden (n : Notice) : Bool :=
  n.header == "cannot compare values"

/-- The options where hidden values count as equal, or do not. -/
def Options.hiding (ops : Options) (skipHidden : Bool) : Options :=
  { ops with skipHidden }

/-- Whether hidden values count as equal is not changed on the way down. -/
theorem Options.follow_hiding (ops : Options) (skipHidden : Bool) (step : Option Step) :
    (ops.hiding skipHidden).follow step = (ops.follow step).hiding skipHidden := by
  cases step <;> rfl

theorem Options.Unchecked.hiding {ops : Options} (h : ops.Unchecked) (skipHidden : Bool) :
    (ops.hiding skipHidden).Unchecked :=
  ⟨h.trails, h.types⟩

namespace Comparison

variable [Host] {declared : Text → List Text} {want found : Value} {ops : Options}
  {notices : List Notice}

/-! ## Notices without those of hidden values -/

/-- What is left of some notices without those of hidden values. -/
def Silenced (notices kept : List Notice) : Prop :=
  kept = notices.filter fun notice ↦ !notice.tellsHidden

omit [Host] in
theorem silenced_self (h : ∀ notice ∈ notices, ¬ notice.tellsHidden) : Silenced notices notices :=
  (List.filter_eq_self.mpr (by simpa using h)).symm

omit [Host] in
theorem silenced_flatten {parts kept : List (List Notice)} (h : List.Forall₂ Silenced parts kept) :
    Silenced parts.flatten kept.flatten := by
  induction h with
  | nil => rfl
  | cons hhead _ ih =>
    rw [Silenced, List.flatten_cons, List.flatten_cons, List.filter_append, hhead, ih]

omit [Host] in
/-- What gives no notice of a hidden value is left as it is. -/
theorem corresponds_silenced_self {x : Outcome (List Notice)}
    (h : ∀ notices, x.Yields notices → ∀ notice ∈ notices, ¬ notice.tellsHidden) :
    Corresponds Silenced x x :=
  ⟨fun hx ↦ ⟨_, hx, silenced_self (h _ hx)⟩, fun hx ↦ ⟨_, hx, silenced_self (h _ hx)⟩⟩

theorem not_tellsHidden_of_mismatch {context : Context} {notice : Notice}
    (h : (mismatch want found context).Yields notice) : ¬ notice.tellsHidden := by
  obtain ⟨wantText, foundText, rfl⟩ := eq_of_mismatch h
  change ¬ (("expected values to be equal" : Text) == "cannot compare values") = true
  decide

theorem corresponds_silenced_leaf (equal : Bool) (want found : Value) (ops : Options) :
    Corresponds Silenced (leaf equal want found ops) (leaf equal want found ops) := by
  refine corresponds_silenced_self fun notices hnotices ↦ ?_
  cases equal with
  | true =>
    rw [leaf_yields_true.mp hnotices]
    exact List.forall_mem_nil _
  | false =>
    obtain ⟨notice, hnotice, rfl⟩ := leaf_yields_false.mp hnotices
    exact List.forall_mem_singleton.mpr (not_tellsHidden_of_mismatch hnotice)

theorem corresponds_silenced_lengthMismatch (want found : Value) (m n : Nat) (ops : Options) :
    Corresponds Silenced (lengthMismatch want found m n ops)
      (lengthMismatch want found m n ops) := by
  refine corresponds_silenced_self fun notices hnotices ↦ ?_
  obtain ⟨notice, hnotice, rfl⟩ := lengthMismatch_yields.mp hnotices
  have hheader : ¬ notice.tellsHidden := not_tellsHidden_of_mismatch hnotice
  exact List.forall_mem_singleton.mpr hheader

/-! ## The two comparisons -/

/-- From outside nothing is settled otherwise, save what is told of a hidden value. -/
theorem corresponds_settle_hiding (hops : ops.Unchecked) :
    Corresponds (Option.Rel Silenced) (settle want found (ops.hiding false))
      (settle want found (ops.hiding true)) := by
  have hvisited {notices kept : List Notice} (h : Silenced notices kept) :
      Corresponds (Option.Rel Silenced) (do ops.visit true; pure (some notices))
        (do ops.visit true; pure (some kept)) :=
    .of_yields ((ops.visit_yields true).bind rfl) ((ops.visit_yields true).bind rfl) (.some h)
  have hleaf (equal : Bool) : Corresponds (Option.Rel Silenced)
      (some <$> leaf equal want found ops) (some <$> leaf equal want found ops) :=
    (corresponds_silenced_leaf equal want found ops).map fun _ _ ↦ .some
  by_cases hskip : ops.isSkipped
  · have hsettle (skipHidden : Bool) : settle want found (ops.hiding skipHidden) =
        (do ops.visit true; pure (some [])) := settle_skipped hskip
    rw [hsettle, hsettle]
    exact hvisited rfl
  by_cases habsent : ¬ want.isPresent ∧ ¬ found.isPresent
  · have hsettle (skipHidden : Bool) : settle want found (ops.hiding skipHidden) =
        some <$> leaf true want found ops := settle_absent hskip habsent
    rw [hsettle, hsettle]
    exact hleaf true
  by_cases hunlike : Unlike want found
  · have hsettle (skipHidden : Bool) : settle want found (ops.hiding skipHidden) =
        some <$> leaf false want found ops := settle_unlike hskip hunlike
    rw [hsettle, hsettle]
    exact hleaf false
  have hinspected (skipHidden : Bool) : want.isPresent ∧ found.isPresent ∧
      (want.isAccessible ∧ found.isAccessible → Inspected want found (ops.hiding skipHidden)) :=
    inspected_of_not_unlike hskip habsent hunlike
  by_cases haccessible : want.isAccessible ∧ found.isAccessible
  · have hsettle (skipHidden : Bool) : settle want found (ops.hiding skipHidden) = pure none :=
      settle_inspected (hops.hiding skipHidden) ((hinspected skipHidden).2.2 haccessible)
    rw [hsettle, hsettle]
    exact corresponds_pure .none
  · have hsettle (skipHidden : Bool) : settle want found (ops.hiding skipHidden) =
        (do ops.visit true; pure (some (if skipHidden then [] else [hiddenNotice ops.trail]))) :=
      settle_hidden hskip ⟨(hinspected skipHidden).1, (hinspected skipHidden).2.1⟩ haccessible
    rw [hsettle, hsettle]
    exact hvisited rfl

variable [LawfulHost]

/-- The comparison where hidden values count as equal gives what the other one gives without the
notices of hidden values. -/
theorem corresponds_hiding (hops : ops.Unchecked) (hkeyed : want.Everywhere Value.Keyed) :
    Corresponds Silenced (compare want found (ops.hiding false))
      (compare want found (ops.hiding true)) := by
  induction want using Value.induction_parts generalizing found ops with
  | h want ih =>
    rw [compare_eq, compare_eq]
    refine (corresponds_settle_hiding hops).bind ?_
    rintro _ _ hsettled - (h | _)
    · exact corresponds_pure h
    -- Both look at the values, and see the same.
    have hidentity := (inspected_of_settle hsettled).identity
    have hinspect : Corresponds Eq (inspect want found (ops.hiding false))
        (inspect want found (ops.hiding true)) := corresponds_refl fun _ ↦ rfl
    refine hinspect.bind fun verdict _ hverdict _ heq ↦ heq ▸ ?_
    cases verdict with
    | leaf equal => exact corresponds_silenced_leaf equal want found ops
    | lengths m n => exact corresponds_silenced_lengthMismatch want found m n ops
    | branches below =>
      have hlook := look_of_inspect hidentity hkeyed.self hverdict
      have hbelow : ∀ branch ∈ below, Corresponds Silenced
          (Branch.run found (ops.hiding false) branch)
          (Branch.run found (ops.hiding true) branch) := by
        intro branch hbranch
        cases branch with
        | part step v w =>
          have hv := (hlook.part_of_mem hbranch).mem_parts.1
          rw [Branch.run, Branch.run, Options.follow_hiding, Options.follow_hiding]
          exact ih v hv (hops.follow step) (hkeyed.part hv)
        | missing label =>
          refine corresponds_silenced_self fun notices hnotices ↦ ?_
          obtain ⟨notice, hnotice, rfl⟩ := run_missing_yields.mp hnotices
          exact List.forall_mem_singleton.mpr (not_tellsHidden_of_mismatch hnotice)
        | refused fault =>
          exact corresponds_of_never (fun _ ↦ not_yields_fail fault) fun _ ↦ not_yields_fail fault
      exact (corresponds_sequence_map_self hbelow).bind fun parts kept _ _ hparts ↦
        corresponds_pure (silenced_flatten hparts)

/-- Where hidden values count as equal, a comparison returns if and only if it does where they do
not, and gives the same notices in the same order, except for those which tell of hidden values: of
these it gives none.  Values made from objects have a comparison that returns. -/
theorem yields_filter_of_hiding (hops : ops.Unchecked) (hkeyed : want.Everywhere Value.Keyed) :
    (ops.rendering.Faultless → ∀ declared, want.Everywhere (Value.Genuine declared) →
        found.Everywhere (Value.Genuine declared) →
        (compare want found (ops.hiding false)).Returns) ∧
      ((compare want found (ops.hiding false)).Returns ↔
        (compare want found (ops.hiding true)).Returns) ∧
      ∀ notices, (compare want found (ops.hiding false)).Yields notices →
        (compare want found (ops.hiding true)).Yields
          (notices.filter fun notice ↦ !notice.tellsHidden) := by
  have hcorresponds : Corresponds Silenced (compare want found (ops.hiding false))
    (compare want found (ops.hiding true)) := corresponds_hiding hops hkeyed
  refine ⟨fun hr _ ↦ compare_returns (hops.hiding false) hr, hcorresponds.returns_iff, ?_⟩
  intro notices hnotices
  obtain ⟨kept, hkept, rfl⟩ := hcorresponds.forth hnotices
  exact hkept

end Comparison

/-! ## Samples -/

namespace Comparison

open scoped Sample

def halfHidden (i j : Int) : Value :=
  .record "Outer" [("First", .scalar (.integer .int i)),
    ("secret", .hidden (.atom (.integer .int))), ("Last", .scalar (.integer .int j))]

theorem yields_filter_of_hiding_halfHidden :
    (compare (halfHidden 1 2) (halfHidden 3 4) (({} : Options).hiding false)).Returns ∧
      (compare (halfHidden 1 2) (halfHidden 3 4) (({} : Options).hiding false)).Yields
        [differ "First" "1" "3", hiddenNotice "secret", differ "Last" "2" "4"] ∧
      (compare (halfHidden 1 2) (halfHidden 3 4) (({} : Options).hiding true)).Yields
        [differ "First" "1" "3", differ "Last" "2" "4"] := by
  have hwant : (halfHidden 1 2).Everywhere
    (Value.Genuine fun _ ↦ ["First", "secret", "Last"]) := by decide
  have hfound : (halfHidden 3 4).Everywhere
    (Value.Genuine fun _ ↦ ["First", "secret", "Last"]) := by decide
  have hnotices : (compare (halfHidden 1 2) (halfHidden 3 4) (({} : Options).hiding false)).Yields
    [differ "First" "1" "3", hiddenNotice "secret", differ "Last" "2" "4"] := by decide
  have hunchecked : ({} : Options).Unchecked := ⟨rfl, rfl⟩
  obtain ⟨hreturns, -, hyields⟩ :=
    yields_filter_of_hiding hunchecked (hwant.mono fun _ h ↦ h.keyed)
  exact ⟨hreturns Rendering.faultless_empty _ hwant hfound, hnotices, hyields _ hnotices⟩

end Comparison

end Discrepancy
