import Discrepancy.Compare.OptionList
import Discrepancy.Proofs.Equality
import Discrepancy.Proofs.Shortcuts
import Discrepancy.Proofs.Simulation

/-!
# Renderings do not decide

A rendering says in which order the keys of a map are visited, where they are, and how values are
told of.  It does not say what is compared: under two renderings that give every value a text, the
same pairs of values meet, in different orders and at different trails, and as many notices come of
them.  This takes that nothing is skipped by its trail.
-/

namespace Discrepancy.Comparison

open Outcome

variable [Host] {declared : Text → List Text} {want found : Value} {ops : Options} {m m' : Meeting}

/-- The same values meet under two renderings, and no trail is skipped. -/
structure Rerendered (m m' : Meeting) : Prop where
  want : m.want = m'.want
  found : m.found = m'.found
  unchecked : m.ops.Unchecked ∧ m'.ops.Unchecked
  unskipped : m.ops.skipTrails = [] ∧ m'.ops.skipTrails = []
  skipHidden : m.ops.skipHidden = m'.ops.skipHidden
  faultless : m.ops.rendering.Faultless ∧ m'.ops.rendering.Faultless
  renderable : m.want.Everywhere Value.Renderable ∧ m.found.Everywhere Value.Renderable
  keyed : m.want.Everywhere Value.Keyed

/-- Only maps have keys. -/
theorem not_sortedKeys_yields {r : Rendering} {v : Value} (h : v.rank ≠ 5)
    (keys : List (Text × Value)) : ¬ (r.sortedKeys v).Yields keys := by
  cases v with
  | map => exact (h rfl).elim
  | _ => exact nofun

/-- Two renderings sort the same keys, each in its own way. -/
theorem corresponds_sortedKeys {r r' : Rendering} {v : Value} (hr : r.Faultless)
    (hr' : r'.Faultless) (hv : v.Everywhere Value.Renderable) :
    Corresponds (Matched false fun item item' ↦ (false → item.1 = item'.1) ∧ item.2 = item'.2)
      (r.sortedKeys v) (r'.sortedKeys v) := by
  cases v with
  | map rule key mapped storage entries =>
    refine .of_yields (Rendering.sortedKeys_yields.mpr ⟨hr.labels hv, rfl⟩)
      (Rendering.sortedKeys_yields.mpr ⟨hr'.labels hv, rfl⟩) ?_
    have hkeys : List.Forall₂
        (fun item item' : Text × Value ↦ (false → item.1 = item'.1) ∧ item.2 = item'.2)
        (entries.map fun entry ↦ (r.label entry.1, entry.1))
        (entries.map fun entry ↦ (r'.label entry.1, entry.1)) := by
      rw [List.forall₂_map_left_iff, List.forall₂_map_right_iff, List.forall₂_same]
      exact fun entry _ ↦ ⟨nofun, rfl⟩
    obtain ⟨items, hall, hperm⟩ :=
      List.perm_comp_forall₂ (Table.sortLabelled_perm _) hkeys
    exact ⟨items, hall, hperm.trans (Table.sortLabelled_perm _).symm⟩
  | _ => exact corresponds_of_never (not_sortedKeys_yields nofun) (not_sortedKeys_yields nofun)

theorem corresponds_mismatch {context context' : Context} (hr : context.rendering.Faultless)
    (hr' : context'.rendering.Faultless) (hwant : want.Everywhere Value.Renderable)
    (hfound : found.Everywhere Value.Renderable) :
    Corresponds (fun _ _ ↦ True) (mismatch want found context) (mismatch want found context') :=
  .of_returns (mismatch_returns hr hwant hfound) (mismatch_returns hr' hwant hfound)
    fun _ _ _ _ ↦ trivial

/-- Two renderings may label a key differently and still meet the same values under it. -/
theorem Rerendered.follow (h : Rerendered m m') {v w : Value} (hv : v ∈ m.want.parts)
    (hw : w ∈ m.found.parts) (step step' : Option Step) :
    Rerendered ⟨v, w, m.ops.follow step⟩ ⟨v, w, m'.ops.follow step'⟩ where
  want := rfl
  found := rfl
  unchecked := h.unchecked.imp (·.follow step) (·.follow step')
  unskipped := by simpa using h.unskipped
  skipHidden := by simpa only [Options.follow_skipHidden] using h.skipHidden
  faultless := by simpa using h.faultless
  renderable := h.renderable.imp (·.part hv) (·.part hw)
  keyed := h.keyed.part hv

theorem Rerendered.alike (h : Rerendered m m') : m.Alike m' where
  skipped := by
    rw [Options.isSkipped, Options.isSkipped, h.unskipped.1, h.unskipped.2]
    rfl
  skipHidden := h.skipHidden
  present := by
    rw [h.want, h.found]
    exact ⟨rfl, rfl⟩
  accessible := by
    rw [h.want, h.found]
    exact ⟨rfl, rfl⟩
  identity := by
    rw [h.want, h.found]
    exact ⟨rfl, rfl⟩

/-- Comparisons under two renderings stay in step, but for the order of keys. -/
theorem rerendered_simulation [LawfulHost] : Simulation false (fun _ _ ↦ True) Rerendered where
  unchecked h := h.unchecked
  alike h := h.alike
  mismatch {m m'} h := by
    rw [Meeting.mismatch, Meeting.mismatch, ← h.want, ← h.found]
    exact corresponds_mismatch h.faultless.1 h.faultless.2 h.renderable.1 h.renderable.2
  hidden _ := trivial
  prepend _ _ _ := trivial
  inspect {m m'} h hinspected := by
    obtain ⟨want, found, ops⟩ := m
    obtain ⟨want', found', ops'⟩ := m'
    obtain rfl : want = want' := h.want
    obtain rfl : found = found' := h.found
    refine corresponds_inspect_self
      (fun step step' v w _ hpart ↦ h.follow hpart.mem_parts.1 hpart.mem_parts.2 step step')
      (fun label label' _ ↦ ?_) hinspected.identity h.keyed.self
      (corresponds_sortedKeys h.faultless.1 h.faultless.2 h.renderable.1)
    exact corresponds_mismatch h.faultless.1 h.faultless.2 h.renderable.2
      (Value.everywhere_absent (.of_not_scalar nofun))

/-! ## Verdicts -/

omit [Host] in
theorem isNone_ofNotices? {notices : List Notice} :
    (Report.ofNotices? notices).isNone ↔ notices.length = 0 := by
  cases notices <;> simp [Report.ofNotices?]

/-- The report consists of the notices of the comparison. -/
theorem equalValues_yields {environment : Option Text} {settings : List Setting}
    {notices : List Notice} (hops : (Options.default environment settings).Yields ops)
    (hnotices : (compare want found ops).Yields notices) :
    (equalValues environment want found settings).Yields (Report.ofNotices? notices) :=
  hops.bind (hnotices.bind rfl)

/-- No difference is found missing exactly where there is one. -/
theorem exists_notEqualValues_yields {environment : Option Text} {settings : List Setting}
    {notices : List Notice} (hops : (Options.default environment settings).Yields ops)
    (hnotices : (compare want found ops).Yields notices) (hr : ops.rendering.Faultless)
    (hwant : want.Everywhere Value.Renderable) (hfound : found.Everywhere Value.Renderable) :
    ∃ report, (notEqualValues environment want found settings).Yields report ∧
      (report.isNone ↔ notices.length ≠ 0) := by
  rw [notEqualValues]
  simp only [(equalValues_yields hops hnotices).bind_iff]
  cases notices with
  | nil =>
    have hmismatch : (mismatch want found ops.toContext).Returns := mismatch_returns hr hwant hfound
    obtain ⟨notice, hnotice⟩ := hmismatch
    exact ⟨_, hops.bind (hnotice.bind rfl), by simp⟩
  | cons notice rest => exact ⟨none, rfl, by simp⟩

end Discrepancy.Comparison

/-! ## Samples -/

namespace Discrepancy.Comparison

open scoped Sample

open Outcome

def twoMap (storage : Identity) (m n : Int) : Value :=
  .map .sorted Sample.int Sample.int storage
    [(.scalar (.integer .int 1), .scalar (.integer .int m)),
      (.scalar (.integer .int 2), .scalar (.integer .int n))]

def blurred : Rendering :=
  ({} : Rendering).register Sample.int (Sample.constant "some")

end Discrepancy.Comparison
