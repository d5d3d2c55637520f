import Discrepancy.Proofs.Locations
import Discrepancy.Proofs.Simulation

/-!
# Comparisons that start elsewhere

A comparison may start at a trail that is not empty, as where its values are parts of something.  It
is then the comparison from the root with every trail moved to the new start: those of the notices
and those that are skipped.

A trail from the root begins with a field or with a bracket.  In front of a field that comes first
there is no dot, and moving the trail restores it.  No two trails are moved to one place, so that
the same locations are skipped, and moving goes along with every step on the way down.
-/

namespace Discrepancy

open Outcome

/-! ## Moving trails -/

namespace Trail

variable {base : Text} {step : Step}

/-- The trail from another start: the start itself for the root, with a bracket next to it, and with
a dot in between for a field. -/
def relocate (base trail : Text) : Text :=
  base ++ restore trail

@[simp]
theorem relocate_nil (base : Text) : relocate base [] = base :=
  List.append_nil base

theorem relocate_ne_nil (hbase : base ≠ []) (trail : Text) : relocate base trail ≠ [] :=
  List.append_ne_nil_of_left_ne_nil hbase _

/-- A restored trail begins with a bracket where the trail did, and with one more byte elsewhere. -/
theorem restore_injective : Function.Injective restore := by
  intro s t h
  cases s with
  | nil =>
    cases t with
    | nil => rfl
    | cons b t =>
      rw [restore, restore] at h
      split_ifs at h
  | cons a s =>
    cases t with
    | nil =>
      rw [restore, restore] at h
      split_ifs at h
    | cons b t =>
      rw [restore, restore] at h
      split_ifs at h with ha hb hb
      · exact h
      · exact absurd ((List.cons.inj h).1.symm.trans ha) (by decide)
      · exact absurd ((List.cons.inj h).1.trans hb) (by decide)
      · exact (List.cons.inj h).2

/-- Different trails stay different from another start. -/
theorem relocate_injective (base : Text) : Function.Injective (relocate base) := by
  intro s t h
  exact restore_injective (List.append_cancel_left h)

/-- A step goes the same way from wherever the trail was moved to. -/
theorem relocate_extend (hbase : base ≠ []) (hstep : ∀ name, step = .field name → IsHead name)
    (trail : Text) : relocate base (extend trail step) = extend (relocate base trail) step := by
  rw [extend_of_ne_nil (relocate_ne_nil hbase trail)]
  by_cases htrail : trail = []
  · rw [htrail, relocate, restore_extend_nil hstep, relocate_nil]
  · calc
      relocate base (extend trail step) = base ++ restore (trail ++ segment step) := by
        rw [relocate, extend_of_ne_nil htrail]
      _ = base ++ restore trail ++ segment step := by
        rw [restore_append htrail, List.append_assoc]

end Trail

def Notice.relocate (base : Text) (notice : Notice) : Notice :=
  { notice with trail := Trail.relocate base notice.trail }

namespace Options

variable {base : Text} {ops : Options}

def relocate (base : Text) (ops : Options) : Options :=
  { ops with
    trail := Trail.relocate base ops.trail
    skipTrails := ops.skipTrails.map (Trail.relocate base) }

/-- The same locations are skipped. -/
theorem isSkipped_relocate (base : Text) (ops : Options) :
    (ops.relocate base).isSkipped = ops.isSkipped := by
  rw [Bool.eq_iff_iff, isSkipped, isSkipped, List.contains_iff_mem, List.contains_iff_mem]
  exact List.mem_map_of_injective (Trail.relocate_injective base)

/-- Going a step down and starting elsewhere can be exchanged. -/
theorem follow_relocate {step : Option Step} (hbase : base ≠ [])
    (hstep : ∀ name, step = some (.field name) → Trail.IsHead name) :
    (ops.relocate base).follow step = (ops.follow step).relocate base := by
  cases step with
  | none => rfl
  | some step =>
    have htrail := Trail.relocate_extend hbase (fun name h ↦ hstep name (congrArg some h)) ops.trail
    rw [follow, follow, below, below, moveTo, moveTo, relocate, relocate, htrail]

end Options

/-- No field of a record has a name that is taken for something else at the beginning of a
trail. -/
def Value.Headed : Value → Prop
  | record _ fields => ∀ field ∈ fields, Trail.IsHead field.1
  | _ => True

instance : DecidablePred Value.Headed
  | .record _ fields => inferInstanceAs (Decidable (∀ field ∈ fields, Trail.IsHead field.1))
  | .absent | .hidden _ | .scalar _ | .pointer .. | .sequence .. | .map .. | .interface .. =>
    isTrue trivial

namespace Comparison

variable [Host] {declared : Text → List Text} {base : Text} {want found : Value} {ops : Options}
  {notices : List Notice} {m m' : Meeting}

theorem Part.isHead {r : Rendering} {name : Text} {v w : Value} (hwant : want.Headed)
    (h : Part r want found (some (.field name)) v w) : Trail.IsHead name := by
  cases h with
  | field i hfield hother => exact hwant _ (List.mem_of_getElem? hfield)

theorem corresponds_mismatch_relocate {context context' : Context}
    (hrendering : context'.rendering = context.rendering)
    (htrail : context'.trail = Trail.relocate base context.trail) :
    Corresponds (fun notice notice' ↦ notice' = notice.relocate base)
      (mismatch want found context) (mismatch want found context') := by
  rw [mismatch, mismatch, hrendering, htrail]
  refine (corresponds_refl (p := Eq) fun _ ↦ rfl).bind fun wantText _ _ _ hwant ↦ ?_
  subst hwant
  refine (corresponds_refl (p := Eq) fun _ ↦ rfl).bind fun foundText _ _ _ hfound ↦ ?_
  subst hfound
  dsimp only
  split_ifs <;> exact corresponds_pure rfl

/-! ## Comparisons -/

/-- The same values meet from the root and from another start. -/
structure Relocated (base : Text) (m m' : Meeting) : Prop where
  relocated : m' = ⟨m.want, m.found, m.ops.relocate base⟩
  unchecked : m.ops.Unchecked
  keyed : m.want.Everywhere Value.Keyed
  headed : m.want.Everywhere Value.Headed

/-- Comparisons from two starts stay in step. -/
theorem relocated_simulation [LawfulHost] (hbase : base ≠ []) :
    Simulation true (fun notice notice' ↦ notice' = notice.relocate base) (Relocated base) where
  unchecked h := by
    obtain ⟨rfl, hops, -⟩ := h
    exact ⟨hops, hops.trails, hops.types⟩
  alike {m m'} h := by
    obtain ⟨rfl, -⟩ := h
    exact ⟨(m.ops.isSkipped_relocate base).symm, rfl, ⟨rfl, rfl⟩, ⟨rfl, rfl⟩, ⟨rfl, rfl⟩⟩
  mismatch h := by
    obtain ⟨rfl, -⟩ := h
    exact corresponds_mismatch_relocate rfl rfl
  hidden h := by
    obtain ⟨rfl, -⟩ := h
    rfl
  prepend name value h := by
    rw [h]
    rfl
  inspect {m m'} h hinspected := by
    obtain ⟨rfl, hops, hkeyed, hheaded⟩ := h
    refine corresponds_inspect_self (fun step step' v w hstep hpart ↦ ?_)
      (fun label label' hlabel ↦ ?_) hinspected.identity hkeyed.self ?_
    · obtain rfl := hstep rfl
      have hfollow : (m.ops.relocate base).follow step = (m.ops.follow step).relocate base :=
        Options.follow_relocate hbase fun name hname ↦ (hname ▸ hpart).isHead hheaded.self
      have hv := hpart.mem_parts.1
      exact ⟨hfollow ▸ rfl, hops.follow step, hkeyed.part hv, hheaded.part hv⟩
    · obtain rfl := hlabel rfl
      have htrail : Trail.relocate base (Trail.extend m.ops.trail (.key label)) =
          Trail.extend (Trail.relocate base m.ops.trail) (.key label) :=
        Trail.relocate_extend hbase (fun _ h ↦ by cases h) m.ops.trail
      exact corresponds_mismatch_relocate rfl htrail.symm
    · exact corresponds_refl fun _ ↦
        .of_forall₂ (List.forall₂_same.mpr fun _ _ ↦ ⟨fun _ ↦ rfl, rfl⟩)

/-- A comparison with moved trails yields the moved notices, if any. -/
theorem compare_relocate_yields [LawfulHost] (hbase : base ≠ []) (hops : ops.Unchecked)
    (hkeyed : want.Everywhere Value.Keyed) (hheaded : want.Everywhere Value.Headed) :
    (compare want found (ops.relocate base)).Yields notices ↔
      ∃ before, (compare want found ops).Yields before ∧
        notices = before.map (Notice.relocate base) := by
  have hmap (before after : List Notice)
      (h : Matched true (fun notice notice' ↦ notice' = notice.relocate base) before after) :
      after = before.map (Notice.relocate base) := by
    have hall : List.Forall₂ Eq (before.map (Notice.relocate base)) after :=
      List.forall₂_map_left_iff.mpr ((matched_true.mp h).imp fun _ _ ↦ Eq.symm)
    exact (List.forall₂_eq_eq_eq ▸ hall).symm
  have hrelocated : Relocated base ⟨want, found, ops⟩ ⟨want, found, ops.relocate base⟩ :=
    ⟨rfl, hops, hkeyed, hheaded⟩
  have hcompare := (relocated_simulation hbase).compare hrelocated
  constructor
  · intro h
    obtain ⟨before, hbefore, hmatched⟩ := hcompare.back h
    exact ⟨before, hbefore, hmap before notices hmatched⟩
  · rintro ⟨before, hbefore, rfl⟩
    obtain ⟨after, hafter, hmatched⟩ := hcompare.forth hbefore
    exact hmap before after hmatched ▸ hafter

/-- A comparison that starts at a trail yields what the comparison from the root yields, with all
trails moved to the start. -/
theorem yields_at_iff_yields_at_root [LawfulHost] (hops : ops.Unchecked)
    (hwant : want.Everywhere (Value.Made declared))
    (hfound : found.Everywhere (Value.Made declared)) (hheaded : want.Everywhere Value.Headed)
    (hbase : base ≠ []) (skips : List Text) :
    (∀ notices,
      (compare want found { ops with
          trail := base, skipTrails := skips.map (Trail.relocate base) }).Yields notices ↔
        ∃ before, (compare want found { ops with trail := [], skipTrails := skips }).Yields before ∧
          notices = before.map (Notice.relocate base)) ∧
      (ops.rendering.Faultless → want.Everywhere Value.Formatted →
        found.Everywhere Value.Formatted →
        (compare want found { ops with trail := [], skipTrails := skips }).Returns) := by
  have hroot : Options.Unchecked { ops with trail := [], skipTrails := skips } :=
    ⟨hops.trails, hops.types⟩
  have hstart : { ops with trail := base, skipTrails := skips.map (Trail.relocate base) } =
      Options.relocate base { ops with trail := [], skipTrails := skips } := by
    rw [Options.relocate, Trail.relocate_nil]
  constructor
  · intro notices
    rw [hstart]
    exact compare_relocate_yields hbase hroot (hwant.mono fun _ h ↦ h.keyed) hheaded
  · intro hr hformatted hformatted'
    exact compare_returns hroot hr (hwant.genuine hformatted) (hfound.genuine hformatted')

end Comparison

/-! ## Samples -/

namespace Comparison

open scoped Sample

def ledger (storage : Identity) (m n : Int) : Value :=
  .record "Ledger"
    [("Rows", .sequence .vector Sample.int (some storage)
        [.scalar (.integer .int m), .scalar (.integer .int n)]),
      ("Totals", .map .sorted Sample.string Sample.int storage
        [(.scalar (.string .owned (some "all")), .scalar (.integer .int (m + n)))])]

/-- A skipped row is skipped from another start, too. -/
theorem yields_at_iff_yields_at_root_ledger :
    (∀ notices,
      (compare (ledger 0 1 2) (ledger 1 3 4)
          { trail := "Books", skipTrails := ["Books.Rows[1]"] }).Yields notices ↔
        ∃ before,
          (compare (ledger 0 1 2) (ledger 1 3 4) { skipTrails := ["Rows[1]"] }).Yields before ∧
            notices = before.map (Notice.relocate "Books")) ∧
      (compare (ledger 0 1 2) (ledger 1 3 4) { skipTrails := ["Rows[1]"] }).Returns := by
  have hwant : (ledger 0 1 2).Everywhere (Value.Made fun _ ↦ ["Rows", "Totals"]) := by decide
  have hfound : (ledger 1 3 4).Everywhere (Value.Made fun _ ↦ ["Rows", "Totals"]) := by decide
  have hheaded : (ledger 0 1 2).Everywhere Value.Headed := by decide
  have hskips : List.map (Trail.relocate "Books") ["Rows[1]"] = ["Books.Rows[1]"] := by decide
  have hops : ({} : Options).Unchecked := ⟨rfl, rfl⟩
  have hbase : ("Books" : Text) ≠ [] := by decide
  have hyields := yields_at_iff_yields_at_root hops hwant hfound hheaded hbase ["Rows[1]"]
  rw [hskips] at hyields
  exact ⟨hyields.1, hyields.2 Rendering.faultless_empty (by decide) (by decide)⟩

/-- What comes first from the root comes behind a dot from elsewhere. -/
example :
    (Outcome.result (compare (ledger 0 1 2) (ledger 1 3 4)
      { trail := "Books", skipTrails := ["Books.Rows[1]"] })).toOption.map
        (List.map Notice.trail) =
          some (["Books.Rows[0]", "Books.Totals[\"all\"]"] : List Text) := by
  decide

end Comparison

end Discrepancy
