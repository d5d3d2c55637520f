import Discrepancy.Sample.Checkers
import Discrepancy.Proofs.Rerendering

/-!
# Answers of checkers

The answer of a checker is no report, or a report with notices.  The notices of all reports that are
given on the way are put in a row, and the whole comparison reports whatever there is in the row.
Hence a comparison reports an error whenever a checker does that tells something.  A report without
notices adds nothing to the row and cannot be told from none.
-/

namespace Discrepancy.Comparison

open Outcome

variable [Host] {want found : Value} {ops : Options} {c : Consultation} {report : Report}
  {environment : Option Text} {settings : List Setting}

variable [LawfulHost]

/-- Comparisons of whole values return when the consulted checkers answer. -/
theorem returns_of_answers {declared : Text → List Text}
    (hops : (Options.default environment settings).Yields ops) (hr : ops.rendering.Faultless)
    (hwant : want.Everywhere (Value.Genuine declared))
    (hfound : found.Everywhere (Value.Genuine declared))
    (hanswers : ∀ c, Consults ops want found c → c.answer.Returns) :
    (equalValues environment want found settings).Returns ∧
      (notEqualValues environment want found settings).Returns := by
  have hrenderable : want.Everywhere Value.Renderable := hwant.mono fun _ h ↦ h.renderable
  have hrenderable' : found.Everywhere Value.Renderable := hfound.mono fun _ h ↦ h.renderable
  obtain ⟨notices, hnotices⟩ := (compare_returns_iff hr hwant hfound).mpr hanswers
  obtain ⟨result, hresult, -⟩ :=
    exists_notEqualValues_yields hops hnotices hr hrenderable hrenderable'
  exact ⟨⟨_, equalValues_yields hops hnotices⟩, result, hresult⟩

omit [LawfulHost] in
/-- What a consulted checker reports is in the report of the whole comparison. -/
theorem exists_whole_of_answer {result : Option Report}
    (hops : (Options.default environment settings).Yields ops)
    (hconsults : Consults ops want found c) (hanswer : c.answer.Yields (some report))
    (htold : report.notices ≠ [])
    (hresult : (equalValues environment want found settings).Yields result) :
    ∃ whole, result = some whole ∧ report.notices <:+: whole.notices := by
  rw [equalValues, hops.bind_iff] at hresult
  obtain ⟨notices, hnotices, hresult⟩ := yields_bind.mp hresult
  obtain ⟨answer, hanswer', hinfix⟩ := hconsults.exists_infix hnotices
  obtain rfl : some report = answer := hanswer.unique hanswer'
  have hne : notices ≠ [] := hinfix.ne_nil htold
  refine ⟨⟨notices⟩, ?_, hinfix⟩
  rw [← yields_pure.mp hresult, Report.ofNotices?, if_neg (mt List.isEmpty_iff.mp hne)]

/-- An error which a consulted checker reports, at whatever depth, is reported for the whole
comparison, in one piece, provided that it has notices; and no comparison that consults the checker
finds the values equal. -/
theorem reported_of_answer (hops : (Options.default environment settings).Yields ops)
    (hconsults : Consults ops want found c) (hanswer : c.answer.Yields (some report))
    (htold : report.notices ≠ []) :
    (∀ result, (equalValues environment want found settings).Yields result →
      ∃ whole, result = some whole ∧ report.notices <:+: whole.notices) ∧
      (∀ result, (notEqualValues environment want found settings).Yields result →
        result = none) ∧
      ∀ declared, ops.rendering.Faultless → want.Everywhere (Value.Genuine declared) →
        found.Everywhere (Value.Genuine declared) →
        (∀ c, Consults ops want found c → c.answer.Returns) →
        (equalValues environment want found settings).Returns ∧
          (notEqualValues environment want found settings).Returns := by
  refine ⟨fun result hresult ↦ exists_whole_of_answer hops hconsults hanswer htold hresult,
    fun result hresult ↦ ?_, fun _ hr hwant hfound ↦ returns_of_answers hops hr hwant hfound⟩
  obtain ⟨equal, hequal, hresult⟩ := yields_bind.mp hresult
  obtain ⟨whole, rfl, -⟩ := exists_whole_of_answer hops hconsults hanswer htold hequal
  exact (yields_pure.mp hresult).symm

end Discrepancy.Comparison

/-! ## Samples -/

namespace Discrepancy.Comparison

open scoped Sample

open Outcome

/-- Options with a checker under one key, which finds everything odd. -/
def checkSecond : Options where
  trailCheckers := [("[2]", Checker.rejectBare "odd")]

def secondConsultation : Consultation where
  checker := Checker.rejectBare "odd"
  want := .scalar (.integer .int 4)
  found := .scalar (.integer .int 4)
  situation := { trail := "[2]", checkedTrails := ["[2]"] }

theorem consults_second :
    Consults checkSecond (twoMap 0 3 4) (twoMap 1 3 4) secondConsultation := by
  have hbranches : (inspect (twoMap 0 3 4) (twoMap 1 3 4) checkSecond).Yields
      (.branches [
        .part (some (.key "1")) (.scalar (.integer .int 3)) (.scalar (.integer .int 3)),
        .part (some (.key "2")) (.scalar (.integer .int 4)) (.scalar (.integer .int 4))]) := rfl
  have hmaps : Inspected (twoMap 0 3 4) (twoMap 1 3 4) checkSecond :=
    ⟨by decide, by decide, by decide, by decide⟩
  have hvalues : Inspected (.scalar (.integer .int 4)) (.scalar (.integer .int 4))
      (checkSecond.follow (some (.key "2"))) := ⟨by decide, by decide, by decide, by decide⟩
  apply Consults.further ⟨hmaps, rfl, _, hbranches, List.mem_cons_of_mem _ List.mem_cons_self⟩
  exact Consults.here hvalues rfl

theorem reported_of_answer_second :
    (∀ result,
      (equalValues none (twoMap 0 3 4) (twoMap 1 3 4)
        [.trailChecker "[2]" (Checker.rejectBare "odd")]).Yields result →
      ∃ whole, result = some whole ∧ [{ header := "odd" }] <:+: whole.notices) ∧
      (∀ result,
        (notEqualValues none (twoMap 0 3 4) (twoMap 1 3 4)
          [.trailChecker "[2]" (Checker.rejectBare "odd")]).Yields result → result = none) ∧
      (equalValues none (twoMap 0 3 4) (twoMap 1 3 4)
        [.trailChecker "[2]" (Checker.rejectBare "odd")]).Returns ∧
      (notEqualValues none (twoMap 0 3 4) (twoMap 1 3 4)
        [.trailChecker "[2]" (Checker.rejectBare "odd")]).Returns := by
  have hops : (Options.default none
      [.trailChecker "[2]" (Checker.rejectBare "odd")]).Yields checkSecond := rfl
  have hanswer : secondConsultation.answer.Yields (some ⟨[{ header := "odd" }]⟩) := rfl
  have hreported := reported_of_answer hops consults_second hanswer (List.cons_ne_nil _ _)
  have hanswers (c : Consultation) (hc : Consults checkSecond (twoMap 0 3 4) (twoMap 1 3 4) c) :
      c.answer.Returns := by
    obtain ⟨checker, want, found, situation⟩ := c
    obtain rfl : checker = Checker.rejectBare "odd" := by
      simpa [Options.Registers, checkSecond] using hc.registers
    exact returns_pure _
  have hwant : (twoMap 0 3 4).Everywhere (Value.Genuine fun _ ↦ []) := by decide
  have hfound : (twoMap 1 3 4).Everywhere (Value.Genuine fun _ ↦ []) := by decide
  exact ⟨hreported.1, hreported.2.1,
    hreported.2.2 _ Rendering.faultless_empty hwant hfound hanswers⟩

/-- An error without notices is lost. -/
theorem not_reported_of_bare_error :
    ¬ ∀ (environment : Option Text) (want found : Value) (settings : List Setting) (ops : Options)
      (c : Consultation) (report : Report), (Options.default environment settings).Yields ops →
      Consults ops want found c → c.answer.Yields (some report) →
      ∃ whole, (equalValues environment want found settings).Yields (some whole) := by
  intro hreported
  have hinspected : Inspected (.scalar (.integer .int 1)) (.scalar (.integer .int 2))
      { typeCheckers := [(Sample.int, Checker.rejectMany 0)] } :=
    ⟨by decide, by decide, by decide, by decide⟩
  have hlost : (equalValues none (.scalar (.integer .int 1)) (.scalar (.integer .int 2))
      [.typeChecker Sample.int (Checker.rejectMany 0)]).Yields none := rfl
  obtain ⟨whole, hwhole⟩ := hreported none _ _ [.typeChecker Sample.int (Checker.rejectMany 0)] _
    _ ⟨[]⟩ rfl (.here hinspected rfl) rfl
  cases hlost.unique hwhole

end Discrepancy.Comparison
