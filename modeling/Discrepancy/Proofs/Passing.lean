import Discrepancy.Proofs.Reach
import Discrepancy.Proofs.Totality

/-!
# Comparisons without a difference

A comparison without checkers gives no notice in one of four ways.  Its location is skipped, both
values are absent, one of them is hidden and hidden values count as equal, or a look shows that the
two values accord.  They accord by themselves, by their storage, or in their parts, where the
comparisons of these decide.
-/

namespace Discrepancy

open Outcome

/-! ## Pairs of values -/

namespace Value

/-- The number of parts of a value which has its parts in a row. -/
def extent? : Value → Option Nat
  | pointer _ _ pointee => pointee.map fun _ ↦ 1
  | record _ fields => some fields.length
  | sequence _ _ _ elements => some elements.length
  | map _ _ _ _ entries => some entries.length
  | interface _ _ _ => some 1
  | _ => none

theorem parallel_iff {v w : Value} :
    v.Parallel w ↔ v.rank = w.rank ∧ v.extent?.isSome ∧ v.extent? = w.extent? := by
  cases v with
  | pointer form target pointee =>
    cases pointee <;> cases w with
    | pointer form' target' pointee' => cases pointee' <;> simp [Parallel, rank, extent?]
    | _ => simp [Parallel, rank, extent?]
  | _ => cases w <;> simp [Parallel, rank, extent?]

theorem Parallel.symm {v w : Value} (h : v.Parallel w) : w.Parallel v := by
  obtain ⟨hrank, hsome, hextent⟩ := parallel_iff.mp h
  exact parallel_iff.mpr ⟨hrank.symm, hextent ▸ hsome, hextent.symm⟩

theorem Parallel.trans {u v w : Value} (h : u.Parallel v) (h' : v.Parallel w) : u.Parallel w := by
  obtain ⟨hrank, hsome, hextent⟩ := parallel_iff.mp h
  obtain ⟨hrank', -, hextent'⟩ := parallel_iff.mp h'
  exact parallel_iff.mpr ⟨hrank.trans hrank', hsome, hextent.trans hextent'⟩

theorem SharesStorage.symm {v w : Value} (hidentity : v.identity? = w.identity?)
    (h : v.SharesStorage w) : w.SharesStorage v := by
  cases v with
  | sequence form element storage elements =>
    cases w with
    | sequence form' element' storage' others =>
      obtain ⟨rfl, rfl⟩ := sequence_identity_inj.mp hidentity
      exact ⟨h.1, Eq.symm h.2⟩
    | _ => exact h.elim
  | map rule key mapped storage entries =>
    cases w with
    | map => exact Eq.symm h
    | _ => exact h.elim
  | _ => exact h.elim

end Value

namespace Comparison

variable [Host] {r : Rendering} {want found : Value} {ops : Options}

omit [Host] in
theorem Inspected.symm (h : Inspected want found ops) : Inspected found want ops :=
  ⟨h.unskipped, h.present.symm, h.accessible.symm, h.identity.symm⟩

omit [Host] in
theorem Inspected.trans {v : Value} (h : Inspected want v ops) (h' : Inspected v found ops) :
    Inspected want found ops where
  unskipped := h.unskipped
  present := ⟨h.present.1, h'.present.2⟩
  accessible := ⟨h.accessible.1, h'.accessible.2⟩
  identity := h.identity.trans h'.identity

omit [Host] in
theorem Entered.symm (h : Entered want found ops) : Entered found want ops where
  toInspected := h.toInspected.symm
  parallel := h.parallel.symm
  apart := fun hshared ↦ h.apart (hshared.symm h.identity.symm)

/-! ## Accord -/

/-- Two values show no difference at a look, and none in their parts as `p` decides. -/
inductive Accord (r : Rendering) (p : Option Step → Value → Value → Prop) : Value → Value → Prop
  | scalars {s t : Scalar} (h : s.Equal t) : Accord r p (.scalar s) (.scalar t)
  | nils {form form' : PointerForm} {target target' : Ty} :
      Accord r p (.pointer form target none) (.pointer form' target' none)
  | shared {want found : Value} (hsize : want.size? = found.size?)
      (hshared : want.SharesStorage found) : Accord r p want found
  | parts {want found : Value} (hparallel : want.Parallel found)
      (hapart : ¬ want.SharesStorage found) (hlabels : r.Labels want)
      (hparts : ∀ step v w, Leads r want found (.part step v w) → p step v w)
      (hlacks : ∀ label, ¬ Lacks r want found label) : Accord r p want found

/-- Values which are entered accord in their parts. -/
theorem accord_iff_of_entered {p : Option Step → Value → Value → Prop}
    (h : Entered want found ops) :
    Accord r p want found ↔ r.Labels want ∧
      (∀ step v w, Leads r want found (.part step v w) → p step v w) ∧
        ∀ label, ¬ Lacks r want found label := by
  refine ⟨fun haccord ↦ ?_, fun ⟨hlabels, hparts, hlacks⟩ ↦
    .parts h.parallel h.apart hlabels hparts hlacks⟩
  have hparallel := h.parallel
  cases haccord with
  | scalars => exact hparallel.elim
  | nils => exact hparallel.elim
  | shared _ hshared => exact (h.apart hshared).elim
  | parts _ _ hlabels hparts hlacks => exact ⟨hlabels, hparts, hlacks⟩

/-! ## Looks -/

theorem inspect_of_sharesStorage (hsize : want.size? = found.size?)
    (hshared : want.SharesStorage found) : inspect want found ops = pure (.leaf true) := by
  cases want with
  | sequence form element storage elements =>
    cases found with
    | sequence form' element' storage' others =>
      have hlength : elements.length = others.length := Option.some.inj hsize
      obtain ⟨rfl, rfl⟩ := hshared
      rw [inspect, if_neg (by simp [hlength]), if_pos (by simp)]
    | _ => exact hshared.elim
  | map rule key mapped storage entries =>
    cases found with
    | map rule' key' mapped' storage' others =>
      have hlength : entries.length = others.length := Option.some.inj hsize
      obtain rfl : storage = storage' := hshared
      rw [inspect, if_neg (by simp [hlength]), if_pos (beq_self_eq_true storage)]
    | _ => exact hshared.elim
  | _ => exact hshared.elim

/-- Values side by side can be looked at when their keys have labels. -/
theorem inspect_returns_of_parallel (hparallel : want.Parallel found)
    (hlabels : ops.rendering.Labels want) : (inspect want found ops).Returns := by
  cases want with
  | pointer form target pointee =>
    cases found with
    | pointer form' target' pointee' => cases pointee <;> cases pointee' <;> exact returns_pure _
    | _ => cases pointee <;> exact hparallel.elim
  | record name fields =>
    cases found with
    | record name' others =>
      rw [inspect, show fields.length = others.length from hparallel, beq_self_eq_true]
      exact Returns.bind ⟨(), rfl⟩ fun _ ↦ returns_pure _
    | _ => exact hparallel.elim
  | sequence form element storage elements =>
    cases found with
    | sequence form' element' storage' others =>
      rw [inspect]
      split_ifs <;> exact returns_pure _
    | _ => exact hparallel.elim
  | map rule key mapped storage entries =>
    cases found with
    | map rule' key' mapped' storage' others =>
      rw [inspect]
      split_ifs
      · exact returns_pure _
      · exact returns_pure _
      · exact Returns.bind ⟨_, Rendering.sortedKeys_yields.mpr ⟨hlabels, rfl⟩⟩
          fun _ ↦ returns_pure _
    | _ => exact hparallel.elim
  | interface type alternative content =>
    cases found with
    | interface type' alternative' content' => exact returns_pure _
    | _ => exact hparallel.elim
  | _ => exact hparallel.elim

/-- Where a look finds branches, the keys have labels. -/
theorem labels_of_inspect {below : List Branch} (hparallel : want.Parallel found)
    (h : (inspect want found ops).Yields (.branches below)) : ops.rendering.Labels want := by
  cases want with
  | map rule key mapped storage entries =>
    cases found with
    | map rule' key' mapped' storage' others =>
      rw [inspect] at h
      split_ifs at h
      · cases yields_pure.mp h
      · cases yields_pure.mp h
      · obtain ⟨keys, hkeys, -⟩ := yields_bind.mp h
        exact (Rendering.sortedKeys_yields.mp hkeys).1
    | _ => exact hparallel.elim
  | _ => trivial

variable [LawfulHost]

/-- Nothing is told of two values that are looked at exactly when they accord. -/
theorem yields_nil_iff_accord (hops : ops.Unchecked) (hkeyed : want.Keyed)
    (hinspected : Inspected want found ops) :
    (compare want found ops).Yields [] ↔
      Accord ops.rendering (fun step v w ↦ (compare v w (ops.follow step)).Yields [])
        want found := by
  rw [compare_yields_of_inspected hops hinspected]
  constructor
  · rintro ⟨verdict, hverdict, hconclude⟩
    cases look_of_inspect hinspected.identity hkeyed hverdict with
    | scalars => exact .scalars (decide_eq_true_iff.mp (leaf_yields_nil.mp hconclude))
    | nils => exact .nils
    | oneNil => cases leaf_yields_nil.mp hconclude
    | lengths =>
      obtain ⟨notice, -, hnotice⟩ := lengthMismatch_yields.mp hconclude
      cases hnotice
    | shared hsize hshared => exact .shared hsize hshared
    | branches hparallel hapart hbelow =>
      rw [conclude_branches_yields_nil] at hconclude
      refine .parts hparallel hapart (labels_of_inspect hparallel hverdict)
        (fun step v w hleads ↦ hconclude _ ((hbelow _).mpr hleads)) fun label hlacks ↦ ?_
      obtain ⟨notice, -, hnotice⟩ :=
        run_missing_yields.mp (hconclude _ ((hbelow _).mpr (.missing hlacks)))
      cases hnotice
  · intro h
    cases h with
    | scalars h =>
      exact ⟨_, yields_map.mpr ⟨true, scalarsAgree_yields_true_iff.mpr h, rfl⟩,
        leaf_yields_nil.mpr rfl⟩
    | nils => exact ⟨.leaf true, yields_pure.mpr rfl, leaf_yields_nil.mpr rfl⟩
    | shared hsize hshared =>
      rw [inspect_of_sharesStorage hsize hshared]
      exact ⟨.leaf true, yields_pure.mpr rfl, leaf_yields_nil.mpr rfl⟩
    | parts hparallel hapart hlabels hparts hlacks =>
      obtain ⟨verdict, hverdict⟩ := inspect_returns_of_parallel hparallel hlabels
      have hlook := look_of_inspect hinspected.identity hkeyed hverdict
      obtain ⟨below, rfl, hbelow⟩ := hlook.eq_branches ⟨hinspected, hparallel, hapart⟩
      refine ⟨_, hverdict, conclude_branches_yields_nil.mpr fun branch hbranch ↦ ?_⟩
      cases (hbelow branch).mp hbranch with
      | part hpart hfield hkey => exact hparts _ _ _ (.part hpart hfield hkey)
      | missing h => exact (hlacks _ h).elim

/-! ## Passing -/

/-- How a comparison without checkers comes to give no notice. -/
inductive Passes (want found : Value) (ops : Options) : Prop
  | skipped (hskip : ops.isSkipped)
  | absent (habsent : ¬ want.isPresent ∧ ¬ found.isPresent)
  | hidden (hpresent : want.isPresent ∧ found.isPresent)
      (hhidden : ¬ (want.isAccessible ∧ found.isAccessible)) (hpass : ops.skipHidden)
  | accord (hinspected : Inspected want found ops)
      (h : Accord ops.rendering (fun step v w ↦ (compare v w (ops.follow step)).Yields [])
        want found)

theorem yields_nil_iff_passes (hops : ops.Unchecked) (hkeyed : want.Keyed) :
    (compare want found ops).Yields [] ↔ Passes want found ops := by
  constructor
  · intro h
    generalize hnil : ([] : List Notice) = notices at h
    cases (compare_yields_iff hops).mp h with
    | skipped hskip => exact .skipped hskip
    | absent _ habsent => exact .absent habsent
    | unlike => cases hnil
    | hidden _ hpresent hhidden =>
      split_ifs at hnil with hpass
      exact .hidden hpresent hhidden hpass
    | inspected hinspected =>
      exact .accord hinspected ((yields_nil_iff_accord hops hkeyed hinspected).mp (hnil ▸ h))
  · intro h
    by_cases hskip : ops.isSkipped
    · exact (compare_yields_iff hops).mpr (.skipped hskip)
    cases h with
    | skipped hskipped => exact (hskip hskipped).elim
    | absent habsent => exact (compare_yields_iff hops).mpr (.absent hskip habsent)
    | hidden hpresent hhidden hpass =>
      have hyields := (compare_yields_iff hops).mpr (.hidden hskip hpresent hhidden)
      rwa [if_pos hpass] at hyields
    | accord hinspected h => exact (yields_nil_iff_accord hops hkeyed hinspected).mpr h

omit [LawfulHost] in
/-- What passes without being skipped is there on both sides or on neither. -/
theorem isPresent_eq_of_yields_nil (hops : ops.Unchecked) (hskip : ¬ ops.isSkipped)
    (h : (compare want found ops).Yields []) : want.isPresent = found.isPresent := by
  generalize hnil : ([] : List Notice) = notices at h
  cases (compare_yields_iff hops).mp h with
  | skipped hskipped => exact (hskip hskipped).elim
  | absent _ habsent => rw [Value.eq_absent habsent.1, Value.eq_absent habsent.2]
  | unlike => cases hnil
  | hidden _ hpresent => exact hpresent.1.trans hpresent.2.symm
  | inspected hinspected => exact hinspected.present.1.trans hinspected.present.2.symm

end Comparison

end Discrepancy
