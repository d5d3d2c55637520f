import Discrepancy.Proofs.Descent

/-!
# Consulted checkers

Two values that have to be looked at are left to a checker, if there is one for their location or
for their type.  Apart from that a comparison goes its way as it would without checkers, so that the
checkers it consults are told by a relation over the way down.  Whatever a consulted checker reports
stands in the notices of the whole comparison, in one piece.
-/

namespace Discrepancy

open Outcome

def Options.withoutCheckers (ops : Options) : Options :=
  { toContext := ops.toContext }

namespace Options

theorem unchecked_withoutCheckers (ops : Options) : ops.withoutCheckers.Unchecked :=
  ⟨rfl, rfl⟩

/-- Checkers are not changed on the way down, so they may be left out at the start. -/
theorem withoutCheckers_follow (ops : Options) (step : Option Step) :
    ops.withoutCheckers.follow step = (ops.follow step).withoutCheckers := by
  cases step <;> rfl

/-- Options that have no checkers lose none. -/
theorem Unchecked.withoutCheckers_eq {ops : Options} (h : ops.Unchecked) :
    ops.withoutCheckers = ops := by
  obtain ⟨context, trailCheckers, typeCheckers⟩ := ops
  obtain ⟨rfl, rfl⟩ := h
  rfl

/-- A checker is registered for a trail or for a type. -/
def Registers (ops : Options) (checker : Checker) : Prop :=
  (∃ trail, (trail, checker) ∈ ops.trailCheckers) ∨ ∃ type, (type, checker) ∈ ops.typeCheckers

theorem registers_follow {ops : Options} {step : Option Step} {checker : Checker} :
    (ops.follow step).Registers checker ↔ ops.Registers checker := by
  cases step <;> rfl

theorem Unchecked.not_registers {ops : Options} (h : ops.Unchecked) (checker : Checker) :
    ¬ ops.Registers checker := by
  simp [Registers, h.trails, h.types]

end Options

namespace Comparison

variable [Host] {want found v w : Value} {ops : Options} {step : Option Step}
  {notices : List Notice} {below : List Branch} {checker : Checker}

/-- Leaves two values to a checker, if there is one. -/
def consult (want found : Value) (ops : Options) : Outcome (Option (List Notice)) :=
  match checker? want ops with
  | none => pure none
  | some checker => do
    ops.visit false
    let report ← checker want found ops.situation
    pure (some (Report.noticesOf report))

/-- Where no look at the values is needed, checkers play no part. -/
theorem settle_withoutCheckers (h : ¬ Inspected want found ops) :
    settle want found ops.withoutCheckers = settle want found ops := by
  by_cases hskip : ops.isSkipped
  · have hskip' : ops.withoutCheckers.isSkipped := hskip
    exact (settle_skipped hskip').trans (settle_skipped hskip).symm
  have hskip' : ¬ ops.withoutCheckers.isSkipped := hskip
  by_cases habsent : ¬ want.isPresent ∧ ¬ found.isPresent
  · exact (settle_absent hskip' habsent).trans (settle_absent hskip habsent).symm
  by_cases hunlike : Unlike want found
  · exact (settle_unlike hskip' hunlike).trans (settle_unlike hskip hunlike).symm
  obtain ⟨hwant, hfound, hinspected⟩ := inspected_of_not_unlike hskip habsent hunlike
  have hhidden : ¬ (want.isAccessible ∧ found.isAccessible) := mt hinspected h
  exact (settle_hidden hskip' ⟨hwant, hfound⟩ hhidden).trans
    (settle_hidden hskip ⟨hwant, hfound⟩ hhidden).symm

/-- Where a look is needed, checkers come first. -/
theorem settle_of_inspected (h : Inspected want found ops) :
    settle want found ops = consult want found ops := by
  rw [settle, if_neg h.unskipped, if_neg (by simp [h.present]), if_neg (by simp [h.accessible]),
    if_neg (by simp [h.identity])]
  rfl

omit [Host] in
/-- Only registered checkers are consulted. -/
theorem registers_of_checker? (h : checker? want ops = some checker) : ops.Registers checker := by
  rcases Option.or_eq_some_iff.mp h with htrail | ⟨-, htype⟩
  · exact .inl ⟨_, Value.mem_of_lookup_eq_some htrail⟩
  · obtain ⟨type, -, hlookup⟩ := Option.bind_eq_some_iff.mp htype
    exact .inr ⟨type, Value.mem_of_lookup_eq_some hlookup⟩

/-- Checkers make no difference where two values are not looked at. -/
theorem compare_withoutCheckers (h : ¬ Inspected want found ops) :
    compare want found ops.withoutCheckers = compare want found ops := by
  rw [compare_eq, compare_eq, settle_withoutCheckers h]
  refine bind_congr_of_yields fun settled hsettled ↦ ?_
  cases settled with
  | none => exact (h (inspected_of_settle hsettled)).elim
  | some notices => rfl

theorem compare_eq_of_checker (hinspected : Inspected want found ops)
    (hchecker : checker? want ops = some checker) :
    compare want found ops = ops.visit false >>= fun _ ↦
      checker want found ops.situation >>= fun report ↦ pure (Report.noticesOf report) := by
  rw [compare_eq, settle_of_inspected hinspected, consult, hchecker]
  simp only [bind_assoc, pure_bind, resume]

theorem compare_of_checker (hinspected : Inspected want found ops)
    (hchecker : checker? want ops = some checker) :
    (compare want found ops).Yields notices ↔
      ∃ report, (checker want found ops.situation).Yields report ∧
        Report.noticesOf report = notices := by
  rw [compare_eq_of_checker hinspected hchecker, (ops.visit_yields false).bind_iff, yields_bind]
  simp only [yields_pure]

/-- Without a checker for the location the rules decide. -/
theorem compare_of_no_checker (hinspected : Inspected want found ops)
    (hchecker : checker? want ops = none) :
    compare want found ops = inspect want found ops >>= conclude want found ops := by
  rw [compare_eq, settle_of_inspected hinspected, consult, hchecker]
  exact Outcome.pure_bind _ _

/-! ## Consultations -/

/-- A checker with what it is asked about. -/
structure Consultation where
  checker : Checker
  want : Value
  found : Value
  situation : Situation

def Consultation.answer (c : Consultation) : Outcome (Option Report) :=
  c.checker c.want c.found c.situation

/-- A comparison goes on with two parts of its values. -/
structure GoesOn (want found : Value) (ops : Options) (step : Option Step) (v w : Value) :
    Prop where
  inspected : Inspected want found ops
  unchecked : checker? want ops = none
  branch : ∃ below, (inspect want found ops).Yields (.branches below) ∧ .part step v w ∈ below

/-- A checker is consulted in the course of a comparison. -/
inductive Consults : Options → Value → Value → Consultation → Prop
  | here {ops : Options} {want found : Value} {checker : Checker}
      (hinspected : Inspected want found ops) (hchecker : checker? want ops = some checker) :
      Consults ops want found ⟨checker, want, found, ops.situation⟩
  | further {ops : Options} {want found v w : Value} {step : Option Step} {c : Consultation}
      (hgoes : GoesOn want found ops step v w) (h : Consults (ops.follow step) v w c) :
      Consults ops want found c

/-- What comes of two parts stands in what comes of the whole. -/
theorem GoesOn.exists_infix (hgoes : GoesOn want found ops step v w)
    (h : (compare want found ops).Yields notices) :
    ∃ part, (compare v w (ops.follow step)).Yields part ∧ part <:+: notices := by
  obtain ⟨hinspected, hchecker, below, hbelow, hmem⟩ := hgoes
  rw [compare_of_no_checker hinspected hchecker, hbelow.bind_iff] at h
  obtain ⟨parts, hparts, rfl⟩ := conclude_branches_yields.mp h
  obtain ⟨part, hpart, hrun⟩ := exists_of_mem_left hparts hmem
  exact ⟨part, hrun, List.infix_of_mem_flatten hpart⟩

/-- A consulted checker has an answer, and what it reports stands in what the comparison reports. -/
theorem Consults.exists_infix {c : Consultation} (hconsults : Consults ops want found c)
    (h : (compare want found ops).Yields notices) :
    ∃ report, c.answer.Yields report ∧ Report.noticesOf report <:+: notices := by
  induction hconsults generalizing notices with
  | here hinspected hchecker =>
    obtain ⟨report, hreport, rfl⟩ := (compare_of_checker hinspected hchecker).mp h
    exact ⟨report, hreport, List.infix_refl _⟩
  | further hgoes _ ih =>
    obtain ⟨part, hpart, hinfix⟩ := hgoes.exists_infix h
    obtain ⟨report, hreport, hwithin⟩ := ih hpart
    exact ⟨report, hreport, hwithin.trans hinfix⟩

/-- Only checkers that are registered are consulted. -/
theorem Consults.registers {c : Consultation} (hconsults : Consults ops want found c) :
    ops.Registers c.checker := by
  induction hconsults with
  | here _ hchecker => exact registers_of_checker? hchecker
  | further _ _ ih => exact Options.registers_follow.mp ih

end Comparison

end Discrepancy
