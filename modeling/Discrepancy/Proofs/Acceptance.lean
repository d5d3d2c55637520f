import Discrepancy.Proofs.Delegation
import Discrepancy.Proofs.KeyOrder
import Discrepancy.Proofs.Omission

/-!
# Accepted locations

A location may be kept out of a comparison in two ways: its trail is skipped, or a checker for the
trail finds all values equal.  Skipping comes first of all, and a checker is consulted only for
values which are there, are not hidden and are of one type.  Where a comparison first gets to such
values at the trail, the two ways are the same.  A comparison ends there, so that it does not matter
what stands at the same trail behind pointers and variants.
-/

namespace Discrepancy

open Outcome

/-! ## Options -/

/-- A checker finds all values equal. -/
def Checker.Accepts (checker : Checker) : Prop :=
  ∀ want found situation, (checker want found situation).Yields none

namespace Options

variable {ops : Options} {trail : Text} {checker : Checker}

/-- The options where a trail is left to a checker. -/
def entrust (ops : Options) (trail : Text) (checker : Checker) : Options :=
  { ops with trailCheckers := assign trail checker ops.trailCheckers }

/-- Entrusting a trail and going a step down can be exchanged. -/
theorem entrust_follow (ops : Options) (trail : Text) (checker : Checker) (step : Option Step) :
    (ops.entrust trail checker).follow step = (ops.follow step).entrust trail checker := by
  cases step <;> rfl

end Options

namespace Comparison

variable [Host] {declared : Text → List Text} {want found : Value} {ops : Options} {trail : Text}
  {checker : Checker}

omit [Host] in
theorem checker?_entrust_self (h : ops.trail = trail) :
    checker? want (ops.entrust trail checker) = some checker := by
  subst h
  have hlookup : (ops.entrust ops.trail checker).trailCheckers.lookup ops.trail = some checker :=
    List.lookup_cons_self
  rw [checker?]
  exact hlookup ▸ Option.some_or

omit [Host] in
/-- At other trails nothing changes. -/
theorem checker?_entrust_of_ne (hops : ops.Unchecked) (h : ops.trail ≠ trail) :
    checker? want (ops.entrust trail checker) = none := by
  have htable : (ops.entrust trail checker).trailCheckers = [(trail, checker)] := by
    rw [Options.entrust, hops.trails]
    rfl
  have htypes : (ops.entrust trail checker).typeCheckers = [] := hops.types
  have hlookup : [(trail, checker)].lookup ops.trail = none := by
    rw [List.lookup_cons, beq_false_of_ne h]
    rfl
  rw [checker?, htable, htypes]
  change ([(trail, checker)].lookup ops.trail).or _ = none
  rw [hlookup]
  cases want.identity? <;> rfl

/-- Away from the trail both ways settle the same. -/
theorem settle_skip_eq (hops : ops.Unchecked) (h : ops.trail ≠ trail) :
    settle want found (ops.skip trail) = settle want found (ops.entrust trail checker) := by
  have hskip : (ops.skip trail).isSkipped = (ops.entrust trail checker).isSkipped := by
    apply Bool.eq_iff_iff.mpr
    exact Options.isSkipped_skip.trans (or_iff_left h)
  rw [settle, settle, hskip, checker?_eq_none (hops.skip trail), checker?_entrust_of_ne hops h]
  rfl

/-! ## First arrivals -/

/-- A comparison gets to two values at a trail, and to none at that trail on the way. -/
inductive FirstArrives (trail : Text) : Options → Value → Value → Value → Value → Prop
  | here {ops : Options} {want found : Value} (h : ops.trail = trail) :
      FirstArrives trail ops want found want found
  | further {ops : Options} {want found v w u u' : Value} {step : Option Step}
      (hne : ops.trail ≠ trail) (hentered : Entered want found ops)
      (hleads : Leads ops.rendering want found (.part step v w))
      (h : FirstArrives trail (ops.follow step) v w u u') :
      FirstArrives trail ops want found u u'

/-- Two values are there, neither is hidden, and they are of one type. -/
structure Comparable (want found : Value) : Prop where
  present : want.isPresent ∧ found.isPresent
  accessible : want.isAccessible ∧ found.isAccessible
  identity : want.identity? = found.identity?

instance (want found : Value) : Decidable (Comparable want found) :=
  decidable_of_iff ((want.isPresent ∧ found.isPresent) ∧
      (want.isAccessible ∧ found.isAccessible) ∧ want.identity? = found.identity?)
    ⟨fun h ↦ ⟨h.1, h.2.1, h.2.2⟩, fun h ↦ ⟨h.present, h.accessible, h.identity⟩⟩

/-- A comparison tells nothing of values which a checker accepts. -/
theorem compare_entrust_yields_nil (haccepts : checker.Accepts) (h : ops.trail = trail)
    (hcomparable : Comparable want found) :
    (compare want found (ops.entrust trail checker)).Yields [] := by
  by_cases hskip : ops.isSkipped
  · have hskip' : (ops.entrust trail checker).isSkipped := hskip
    rw [compare_eq, settle_skipped hskip', visited_yields, resume, yields_pure]
  · have hinspected : Inspected want found (ops.entrust trail checker) :=
      ⟨hskip, hcomparable.present, hcomparable.accessible, hcomparable.identity⟩
    exact (compare_of_checker hinspected (checker?_entrust_self h)).mpr
      ⟨none, haccepts want found _, rfl⟩

/-! ## Two runs -/

variable [LawfulHost]

/-- Where a trail is skipped, a comparison yields what it yields where a checker accepts all values
there. -/
theorem corresponds_skip_entrust (hops : ops.Unchecked) (hkeyed : want.Everywhere Value.Keyed)
    (haccepts : checker.Accepts)
    (hfirst : ∀ u u', FirstArrives trail ops want found u u' → Comparable u u') :
    Corresponds Eq (compare want found (ops.skip trail))
      (compare want found (ops.entrust trail checker)) := by
  induction want using Value.induction_parts generalizing found ops with
  | h want ih =>
    by_cases htrail : ops.trail = trail
    · -- Both end here, each in its own way.
      have hskipped : (compare want found (ops.skip trail)).Yields [] :=
        (compare_yields_iff (hops.skip trail)).mpr
          (.skipped (Options.isSkipped_skip.mpr (.inr htrail)))
      exact .of_yields hskipped
        (compare_entrust_yields_nil haccepts htrail (hfirst want found (.here htrail))) rfl
    · rw [compare_eq, compare_eq, settle_skip_eq hops htrail]
      apply (corresponds_refl (p := Eq) fun _ ↦ rfl).bind
      intro settled _ hsettled _ heq
      subst heq
      cases settled with
      | some notices => exact corresponds_pure rfl
      | none =>
        have hinspected : Inspected want found ops := by
          obtain ⟨hskip, hpresent, haccessible, hidentity⟩ := inspected_of_settle hsettled
          exact ⟨hskip, hpresent, haccessible, hidentity⟩
        have hinspect : Corresponds Eq (inspect want found (ops.skip trail))
            (inspect want found (ops.entrust trail checker)) := corresponds_refl fun _ ↦ rfl
        apply hinspect.bind
        intro verdict _ hverdict _ heq
        subst heq
        have hlook := look_of_inspect hinspected.identity hkeyed.self hverdict
        apply corresponds_conclude
        · rfl
        · rfl
        intro below hbelow step v w hmem
        subst hbelow
        have hv := (hlook.part_of_mem hmem).mem_parts.1
        rw [Options.skip_follow, Options.entrust_follow]
        apply ih v hv (hops.follow step) (hkeyed.part hv)
        intro u u' h
        cases hlook with
        | branches hparallel hapart hbelow =>
          exact hfirst u u'
            (.further htrail ⟨hinspected, hparallel, hapart⟩ ((hbelow _).mp hmem) h)

/-- To skip a trail and to register a checker for it which accepts all values come to the same, if
wherever the trail is first arrived at there are two values that can be compared. -/
theorem yields_iff_of_accepted (hops : ops.Unchecked)
    (hwant : want.Everywhere (Value.Made declared))
    (hfound : found.Everywhere (Value.Made declared)) (trail : Text)
    (haccepts : checker.Accepts)
    (hfirst : ∀ u u', FirstArrives trail ops want found u u' → Comparable u u') :
    ∃ skipping accepting, ((Setting.skipTrail trail).apply ops).Yields skipping ∧
      ((Setting.trailChecker trail checker).apply ops).Yields accepting ∧
      (∀ notices, (compare want found skipping).Yields notices ↔
        (compare want found accepting).Yields notices) ∧
      (ops.rendering.Faultless → want.Everywhere Value.Formatted →
        found.Everywhere Value.Formatted →
        ∃ notices, (compare want found skipping).Yields notices ∧
          (compare want found accepting).Yields notices) := by
  have hkeyed : want.Everywhere Value.Keyed := hwant.mono fun _ h ↦ h.keyed
  have hsame (notices : List Notice) : (compare want found (ops.skip trail)).Yields notices ↔
      (compare want found (ops.entrust trail checker)).Yields notices :=
    (corresponds_skip_entrust hops hkeyed haccepts hfirst).yields_iff notices
  refine ⟨ops.skip trail, ops.entrust trail checker, rfl, rfl, hsame,
    fun hr hformatted hformatted' ↦ ?_⟩
  have hreturns : (compare want found (ops.skip trail)).Returns :=
    compare_returns (hops.skip trail) hr (hwant.genuine hformatted) (hfound.genuine hformatted')
  obtain ⟨notices, hnotices⟩ := hreturns
  exact ⟨notices, hnotices, (hsame notices).mp hnotices⟩

end Comparison

/-! ## Samples -/

namespace Comparison

open scoped Sample

/-- A seat which may be taken, by the number of its guest. -/
def seat (object : Identity) (n : Int) : Value :=
  .interface (.variant [.pointer .optional Sample.int]) (some 0)
    (.pointer .optional Sample.int (some (object, .scalar (.integer .int n))))

def hall (storage object : Identity) (n : Int) : Value :=
  .record "Dyn" [("Seats", .map .sorted Sample.string (.variant [.pointer .optional Sample.int])
    storage [(.scalar (.string .owned (some "a")), seat object n)])]

/-- Skipping the seat and leaving it to a checker that finds all values equal come to the same. -/
theorem yields_iff_of_accepted_hall :
    ∃ skipping accepting, ((Setting.skipTrail "Seats[\"a\"]").apply {}).Yields skipping ∧
      ((Setting.trailChecker "Seats[\"a\"]" Checker.accept).apply {}).Yields accepting ∧
      (∀ notices, (compare (hall 0 1 2) (hall 3 4 5) skipping).Yields notices ↔
        (compare (hall 0 1 2) (hall 3 4 5) accepting).Yields notices) ∧
      ∃ notices, (compare (hall 0 1 2) (hall 3 4 5) skipping).Yields notices ∧
        (compare (hall 0 1 2) (hall 3 4 5) accepting).Yields notices := by
  have hwant : (hall 0 1 2).Everywhere (Value.Made fun _ ↦ ["Seats"]) := by decide
  have hfound : (hall 3 4 5).Everywhere (Value.Made fun _ ↦ ["Seats"]) := by decide
  have hops : ({} : Options).Unchecked := ⟨rfl, rfl⟩
  have haccepts : Checker.Accepts Checker.accept := fun _ _ _ ↦ rfl
  have hfirst (u u' : Value)
      (h : FirstArrives "Seats[\"a\"]" {} (hall 0 1 2) (hall 3 4 5) u u') : Comparable u u' := by
    cases h with
    | here h => exact absurd h (by decide)
    | further _ _ hleads h =>
      cases hleads.toPart with
      | field i hv hw =>
        obtain ⟨rfl, rfl⟩ := Prod.mk.inj (List.mem_singleton.mp (List.mem_of_getElem? hv))
        obtain ⟨rfl, rfl⟩ := Prod.mk.inj (List.mem_singleton.mp (List.mem_of_getElem? hw))
        cases h with
        | here h => exact absurd h (by decide)
        | further _ _ hleads h =>
          cases hleads.toPart with
          | mapped hv hw hlabel =>
            obtain ⟨rfl, rfl⟩ := Prod.mk.inj (List.mem_singleton.mp hv)
            obtain ⟨k, hk⟩ := Table.exists_mem_of_find? hw
            obtain ⟨rfl, rfl⟩ := Prod.mk.inj (List.mem_singleton.mp hk)
            have hquoted : (Rendering.keyLabel {} (.scalar (.string .owned (some "a")))).Yields
                "\"a\"" := by decide
            obtain rfl := hquoted.unique hlabel
            cases h with
            | here => decide
            | further hne => exact absurd rfl hne
  obtain ⟨skipping, accepting, hskipping, haccepting, hsame, hreturns⟩ :=
    yields_iff_of_accepted hops hwant hfound "Seats[\"a\"]" haccepts hfirst
  exact ⟨skipping, accepting, hskipping, haccepting, hsame, 
    hreturns Rendering.faultless_empty (by decide) (by decide)⟩

/-- Hidden values are told of where a checker accepts all values, and not where they are skipped. -/
example :
    (compare (.hidden Sample.int) (.hidden Sample.int)
      (({} : Options).entrust "" Checker.accept)).Yields [hiddenNotice ""] ∧
    (compare (.hidden Sample.int) (.hidden Sample.int) (({} : Options).skip "")).Yields [] := by
  decide

end Comparison

end Discrepancy
