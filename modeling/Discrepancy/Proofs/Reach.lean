import Discrepancy.Proofs.Descent

/-!
# The reach of a comparison

A comparison without checkers starts at its two values, and from any two values which it enters it
gets to their parts.  Wherever it arrives it may make notices of its own.  The notices it gives are
exactly those which are made where it arrives, which follows from one step by induction on the
parts of the wanted value.
-/

namespace Discrepancy

open Outcome

def Options.descend (ops : Options) (path : List Step) : Options :=
  path.foldl Options.below ops

namespace Options

theorem descend_append (ops : Options) (step : Option Step) (path : List Step) :
    ops.descend (step.toList ++ path) = (ops.follow step).descend path := by
  cases step <;> rfl

/-- Nothing but the trail changes on the way down. -/
theorem descend_eq (ops : Options) (path : List Step) :
    ops.descend path = ops.moveTo (path.foldl Trail.extend ops.trail) := by
  induction path generalizing ops with
  | nil => rfl
  | cons step path ih => exact ih (ops.below step)

/-- The trail at the end of a path continues the one at its start, step by step. -/
theorem descend_trail (ops : Options) (path : List Step) :
    (ops.descend path).trail = path.foldl Trail.extend ops.trail := by
  rw [descend_eq]
  rfl

theorem descend_rendering (ops : Options) (path : List Step) :
    (ops.descend path).rendering = ops.rendering := by
  rw [descend_eq]
  rfl

theorem descend_skipTrails (ops : Options) (path : List Step) :
    (ops.descend path).skipTrails = ops.skipTrails := by
  rw [descend_eq]
  rfl

theorem descend_skipHidden (ops : Options) (path : List Step) :
    (ops.descend path).skipHidden = ops.skipHidden := by
  rw [descend_eq]
  rfl

end Options

/-- Parallel containers have the same size. -/
theorem Value.Parallel.size {v w : Value} (h : v.Parallel w) : v.size? = w.size? := by
  cases v with
  | sequence form element storage elements =>
    cases w with
    | sequence => exact congrArg some h
    | _ => exact h.elim
  | map rule key mapped storage entries =>
    cases w with
    | map => exact congrArg some h
    | _ => exact h.elim
  | pointer form target pointee =>
    cases pointee <;> cases w <;> first | rfl | exact h.elim
  | _ => cases w <;> first | rfl | exact h.elim

namespace Comparison

variable [Host] {r : Rendering} {want found v w : Value} {ops : Options} {step : Option Step}
  {notices : List Notice} {notice : Notice}

/-- A comparison goes on below two values. -/
structure Entered (want found : Value) (ops : Options) : Prop extends Inspected want found ops where
  parallel : want.Parallel found
  apart : ¬ want.SharesStorage found

/-- A comparison gets to two values at the end of a path. -/
inductive Arrives : Options → Value → Value → List Step → Value → Value → Prop
  | start {ops : Options} {want found : Value} : Arrives ops want found [] want found
  | enter {ops : Options} {want found v w u u' : Value} {step : Option Step} {path : List Step}
      (hentered : Entered want found ops) (hleads : Leads ops.rendering want found (.part step v w))
      (h : Arrives (ops.follow step) v w path u u') :
      Arrives ops want found (step.toList ++ path) u u'

/-- What makes a leaf of two values of one type. -/
inductive Unequal : Value → Value → Prop
  | scalars {s t : Scalar} (h : ¬ s.Equal t) : Unequal (.scalar s) (.scalar t)
  | oneNil {form form' : PointerForm} {target target' : Ty}
      {pointee pointee' : Option (Identity × Value)} (h : pointee.isSome ≠ pointee'.isSome) :
      Unequal (.pointer form target pointee) (.pointer form' target' pointee')

/-- The notices which a comparison makes at two values, not counting those of their parts. -/
inductive Makes (want found : Value) (ops : Options) : Notice → Prop
  | unlike {notice : Notice} (hskip : ¬ ops.isSkipped) (hunlike : Unlike want found)
      (hnotice : (mismatch want found ops.toContext).Yields notice) : Makes want found ops notice
  | hidden (hskip : ¬ ops.isSkipped) (hpresent : want.isPresent ∧ found.isPresent)
      (hhidden : ¬ (want.isAccessible ∧ found.isAccessible)) (htold : ops.skipHidden = false) :
      Makes want found ops (hiddenNotice ops.trail)
  | unequal {notice : Notice} (hinspected : Inspected want found ops)
      (hunequal : Unequal want found)
      (hnotice : (mismatch want found ops.toContext).Yields notice) : Makes want found ops notice
  | lengths {notice : Notice} {m n : Nat} (hinspected : Inspected want found ops)
      (hwant : want.size? = some m) (hfound : found.size? = some n) (hne : m ≠ n)
      (hnotice : (mismatch want found ops.toContext).Yields notice) :
      Makes want found ops
        ((notice.prepend "have len" (Text.ofNat n)).prepend "want len" (Text.ofNat m))
  | missing {notice : Notice} {label : Text} (hentered : Entered want found ops)
      (hlacks : Lacks ops.rendering want found label)
      (hnotice : (mismatch found .absent (ops.below (.key label)).toContext).Yields notice) :
      Makes want found ops notice

theorem Leads.mem_parts (h : Leads r want found (.part step v w)) : v ∈ want.parts :=
  h.toPart.mem_parts.1

/-! ## One step -/

/-- A look at unequal leaves shows just that. -/
theorem Look.eq_leaf {verdict : Verdict} (h : Look r want found verdict)
    (hunequal : Unequal want found) : verdict = .leaf false := by
  cases hunequal with
  | scalars hunequal =>
    cases h with
    | scalars => rw [decide_eq_false hunequal]
    | lengths hwant => cases hwant
    | shared _ hshared => exact hshared.elim
    | branches hparallel => exact hparallel.elim
  | @oneNil _ _ _ _ pointee pointee' hone =>
    cases h with
    | nils => exact (hone rfl).elim
    | oneNil => rfl
    | lengths hwant => cases hwant
    | shared _ hshared => exact hshared.elim
    | branches hparallel =>
      cases pointee <;> cases pointee' <;> first | exact hparallel.elim | exact (hone rfl).elim

/-- A look at containers of different length shows their lengths. -/
theorem Look.eq_lengths {verdict : Verdict} {m n : Nat} (h : Look r want found verdict)
    (hwant : want.size? = some m) (hfound : found.size? = some n) (hne : m ≠ n) :
    verdict = .lengths m n := by
  have hsizes : want.size? ≠ found.size? := by
    rw [hwant, hfound]
    exact fun heq ↦ hne (Option.some.inj heq)
  cases h with
  | lengths hwant' hfound' =>
    rw [Option.some.inj (hwant.symm.trans hwant'), Option.some.inj (hfound.symm.trans hfound')]
  | shared hsize => exact (hsizes hsize).elim
  | branches hparallel => exact (hsizes hparallel.size).elim
  | _ => cases hwant

/-- A look at values which are entered shows their branches. -/
theorem Look.eq_branches {verdict : Verdict} (h : Look r want found verdict)
    (hentered : Entered want found ops) :
    ∃ below, verdict = .branches below ∧ ∀ b, b ∈ below ↔ Leads r want found b := by
  have hparallel := hentered.parallel
  cases h with
  | scalars => exact hparallel.elim
  | nils => exact hparallel.elim
  | @oneNil _ _ _ _ pointee pointee' hone =>
    cases pointee <;> cases pointee' <;> first | exact hparallel.elim | exact (hone rfl).elim
  | lengths hwant hfound hne =>
    exact (hne (Option.some.inj (hwant.symm.trans (hparallel.size.trans hfound)))).elim
  | shared _ hshared => exact (hentered.apart hshared).elim
  | branches _ _ hbelow => exact ⟨_, rfl, hbelow⟩

variable [LawfulHost]

/-- What a comparison goes on with returns when the comparison does. -/
theorem exists_yields_of_entered (hops : ops.Unchecked) (hkeyed : want.Keyed)
    (h : (compare want found ops).Yields notices) (hentered : Entered want found ops) :
    ∃ below, (conclude want found ops (.branches below)).Yields notices ∧
      ∀ b, b ∈ below ↔ Leads ops.rendering want found b := by
  obtain ⟨verdict, hverdict, hnotices⟩ :=
    (compare_yields_of_inspected hops hentered.toInspected).mp h
  have hlook := look_of_inspect hentered.identity hkeyed hverdict
  obtain ⟨below, rfl, hbelow⟩ := hlook.eq_branches hentered
  exact ⟨below, hnotices, hbelow⟩

theorem exists_yields_of_leads (hops : ops.Unchecked) (hkeyed : want.Keyed)
    (h : (compare want found ops).Yields notices) (hentered : Entered want found ops)
    (hleads : Leads ops.rendering want found (.part step v w)) :
    ∃ part, (compare v w (ops.follow step)).Yields part ∧ ∀ notice ∈ part, notice ∈ notices := by
  obtain ⟨below, hnotices, hbelow⟩ := exists_yields_of_entered hops hkeyed h hentered
  have hmem := (hbelow _).mpr hleads
  obtain ⟨parts, hparts, rfl⟩ := conclude_branches_yields.mp hnotices
  obtain ⟨part, hpart, hrun⟩ := exists_of_mem_left hparts hmem
  exact ⟨part, hrun, fun notice hnotice ↦ List.mem_flatten_of_mem hpart hnotice⟩

/-- What a comparison makes of its own is among its notices. -/
theorem mem_of_makes (hops : ops.Unchecked) (hkeyed : want.Keyed)
    (h : (compare want found ops).Yields notices) (hmakes : Makes want found ops notice) :
    notice ∈ notices := by
  cases hmakes with
  | unlike hskip hunlike hnotice =>
    have hyields := (compare_yields_iff hops).mpr (.unlike hskip hunlike hnotice)
    rw [h.unique hyields]
    exact List.mem_singleton_self _
  | hidden hskip hpresent hhidden htold =>
    have hyields := (compare_yields_iff hops).mpr (.hidden hskip hpresent hhidden)
    rw [h.unique hyields, htold]
    exact List.mem_singleton_self _
  | unequal hinspected hunequal hnotice =>
    obtain ⟨verdict, hverdict, hnotices⟩ := (compare_yields_of_inspected hops hinspected).mp h
    obtain rfl := (look_of_inspect hinspected.identity hkeyed hverdict).eq_leaf hunequal
    obtain ⟨notice', hnotice', rfl⟩ := leaf_yields_false.mp hnotices
    exact List.mem_singleton.mpr (hnotice.unique hnotice')
  | lengths hinspected hwant hfound hne hnotice =>
    obtain ⟨verdict, hverdict, hnotices⟩ := (compare_yields_of_inspected hops hinspected).mp h
    obtain rfl :=
      (look_of_inspect hinspected.identity hkeyed hverdict).eq_lengths hwant hfound hne
    obtain ⟨notice', hnotice', rfl⟩ := lengthMismatch_yields.mp hnotices
    rw [hnotice.unique hnotice']
    exact List.mem_singleton_self _
  | missing hentered hlacks hnotice =>
    obtain ⟨below, hnotices, hbelow⟩ := exists_yields_of_entered hops hkeyed h hentered
    exact (mem_iff_of_conclude_branches hnotices).mpr ⟨_, (hbelow _).mpr (.missing hlacks), _,
      run_missing_yields.mpr ⟨_, hnotice, rfl⟩, List.mem_singleton_self _⟩

/-- A notice is made here or comes of a part. -/
theorem makes_or_leads_of_mem (hops : ops.Unchecked) (hkeyed : want.Keyed)
    (h : (compare want found ops).Yields notices) (hmem : notice ∈ notices) :
    Makes want found ops notice ∨ Entered want found ops ∧ ∃ step v w part,
      Leads ops.rendering want found (.part step v w) ∧
        (compare v w (ops.follow step)).Yields part ∧ notice ∈ part := by
  cases (compare_yields_iff hops).mp h with
  | skipped => cases hmem
  | absent => cases hmem
  | unlike hskip hunlike hnotice =>
    obtain rfl := List.mem_singleton.mp hmem
    exact .inl (.unlike hskip hunlike hnotice)
  | hidden hskip hpresent hhidden =>
    split_ifs at hmem with htold
    · cases hmem
    · obtain rfl := List.mem_singleton.mp hmem
      exact .inl (.hidden hskip hpresent hhidden (eq_false_of_ne_true htold))
  | inspected hinspected hverdict hnotices =>
    cases look_of_inspect hinspected.identity hkeyed hverdict with
    | @scalars s t =>
      by_cases hequal : s.Equal t
      · rw [decide_eq_true hequal] at hnotices
        obtain rfl := leaf_yields_true.mp hnotices
        cases hmem
      · rw [decide_eq_false hequal] at hnotices
        obtain ⟨notice', hnotice', rfl⟩ := leaf_yields_false.mp hnotices
        obtain rfl := List.mem_singleton.mp hmem
        exact .inl (.unequal hinspected (.scalars hequal) hnotice')
    | nils =>
      obtain rfl := leaf_yields_true.mp hnotices
      cases hmem
    | oneNil hone =>
      obtain ⟨notice', hnotice', rfl⟩ := leaf_yields_false.mp hnotices
      obtain rfl := List.mem_singleton.mp hmem
      exact .inl (.unequal hinspected (.oneNil hone) hnotice')
    | lengths hwant hfound hne =>
      obtain ⟨notice', hnotice', rfl⟩ := lengthMismatch_yields.mp hnotices
      obtain rfl := List.mem_singleton.mp hmem
      exact .inl (.lengths hinspected hwant hfound hne hnotice')
    | shared =>
      obtain rfl := leaf_yields_true.mp hnotices
      cases hmem
    | branches hparallel hapart hbelow =>
      obtain ⟨branch, hbranch, part, hrun, hpart⟩ :=
        (mem_iff_of_conclude_branches hnotices).mp hmem
      have hentered : Entered want found ops := ⟨hinspected, hparallel, hapart⟩
      cases (hbelow branch).mp hbranch with
      | part hleads hfield hkey =>
        exact .inr ⟨hentered, _, _, _, part, .part hleads hfield hkey, hrun, hpart⟩
      | missing hlacks =>
        obtain ⟨notice', hnotice', rfl⟩ := run_missing_yields.mp hrun
        obtain rfl := List.mem_singleton.mp hpart
        exact .inl (.missing hentered hlacks hnotice')

omit [LawfulHost] in
/-- A notice of a mismatch stands where its values were met. -/
theorem mismatch_trail {context : Context} (h : (mismatch want found context).Yields notice) :
    notice.trail = context.trail := by
  obtain ⟨wantText, -, h⟩ := yields_bind.mp h
  obtain ⟨foundText, -, h⟩ := yields_bind.mp h
  dsimp only at h
  split at h <;> exact yields_pure.mp h ▸ rfl

/-- A key which is lacking gives a notice at its own trail. -/
theorem exists_mem_of_lacks {label : Text} (hops : ops.Unchecked) (hkeyed : want.Keyed)
    (h : (compare want found ops).Yields notices) (hentered : Entered want found ops)
    (hlacks : Lacks ops.rendering want found label) :
    ∃ notice ∈ notices, notice.trail = Trail.extend ops.trail (.key label) := by
  obtain ⟨below, hnotices, hbelow⟩ := exists_yields_of_entered hops hkeyed h hentered
  obtain ⟨parts, hparts, rfl⟩ := conclude_branches_yields.mp hnotices
  obtain ⟨part, hpart, hrun⟩ := exists_of_mem_left hparts ((hbelow _).mpr (.missing hlacks))
  obtain ⟨notice, hnotice, rfl⟩ := run_missing_yields.mp hrun
  exact ⟨notice, List.mem_flatten_of_mem hpart (List.mem_singleton_self _),
    mismatch_trail hnotice⟩

/-! ## A whole run -/

/-- Where a comparison arrives, it gives the notices of the comparison which starts there. -/
theorem exists_yields_of_arrives {u u' : Value} {path : List Step}
    (harrives : Arrives ops want found path u u') (hops : ops.Unchecked)
    (hkeyed : want.Everywhere Value.Keyed) (h : (compare want found ops).Yields notices) :
    u.Keyed ∧ (ops.descend path).Unchecked ∧ ∃ part,
      (compare u u' (ops.descend path)).Yields part ∧ ∀ notice ∈ part, notice ∈ notices := by
  induction harrives generalizing notices with
  | start => exact ⟨hkeyed.self, hops, notices, h, fun _ hmem ↦ hmem⟩
  | @enter ops want found v w u u' step path hentered hleads _ ih =>
    obtain ⟨part, hpart, hsub⟩ := exists_yields_of_leads hops hkeyed.self h hentered hleads
    obtain ⟨hu, hchecked, part', hpart', hsub'⟩ :=
      ih (hops.follow step) (hkeyed.part hleads.mem_parts) hpart
    rw [Options.descend_append]
    exact ⟨hu, hchecked, part', hpart', fun notice hmem ↦ hsub notice (hsub' notice hmem)⟩

/-- Every notice of a comparison is made where it arrives. -/
theorem exists_arrives_of_mem (hops : ops.Unchecked) (hkeyed : want.Everywhere Value.Keyed)
    (h : (compare want found ops).Yields notices) (hmem : notice ∈ notices) :
    ∃ path u u', Arrives ops want found path u u' ∧ Makes u u' (ops.descend path) notice := by
  induction want using Value.induction_parts generalizing found ops notices with
  | h want ih =>
    rcases makes_or_leads_of_mem hops hkeyed.self h hmem with hmakes | ⟨hentered, hleads⟩
    · exact ⟨[], want, found, .start, hmakes⟩
    obtain ⟨step, v, w, part, hleads, hyields, hmem⟩ := hleads
    obtain ⟨path, u, u', harrives, hmakes⟩ :=
      ih v hleads.mem_parts (hops.follow step) (hkeyed.part hleads.mem_parts) hyields hmem
    rw [← Options.descend_append] at hmakes
    exact ⟨step.toList ++ path, u, u', .enter hentered hleads harrives, hmakes⟩

/-- The notices of a comparison are those made where it arrives. -/
theorem mem_notices_iff (hops : ops.Unchecked) (hkeyed : want.Everywhere Value.Keyed)
    (h : (compare want found ops).Yields notices) :
    notice ∈ notices ↔ ∃ path u u', Arrives ops want found path u u' ∧
      Makes u u' (ops.descend path) notice := by
  refine ⟨exists_arrives_of_mem hops hkeyed h, ?_⟩
  rintro ⟨path, u, u', harrives, hmakes⟩
  obtain ⟨hu, hchecked, part, hpart, hsub⟩ := exists_yields_of_arrives harrives hops hkeyed h
  exact hsub notice (mem_of_makes hchecked hu hpart hmakes)

end Comparison

end Discrepancy
