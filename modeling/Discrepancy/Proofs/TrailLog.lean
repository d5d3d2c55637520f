import Discrepancy.Proofs.KeyOrder
import Discrepancy.Proofs.Reach
import Discrepancy.Proofs.Totality
import Discrepancy.Proofs.Visits

/-!
# The trail log

A comparison without checkers goes on from some pairs of values to their parts and stops at all
others, as it does at keys which are missing.  Wherever it stops it notes one visit, at the trail of
the stop, and gives at most one notice, at the same trail; elsewhere it does neither.  So the trail
log and the notices are two columns of one ledger of stops.  A stop is known by its place, the
numbers of the branches that lead to it: trails would not do, for keys may share a label.

The ledger of two values is put together of those of their branches, by induction on the parts of
the wanted value.
-/

namespace Discrepancy.Comparison

open Outcome

section

variable [Host]

/-! ## Places -/

/-- A comparison gets to two values, with the options it has there, by branches with given
numbers. -/
inductive Gets : Options → Value → Value → List Nat → Options → Value → Value → Prop
  | start {ops : Options} {want found : Value} : Gets ops want found [] ops want found
  | enter {ops ops' : Options} {want found v w u u' : Value} {step : Option Step}
      {below : List Branch} {i : Nat} {place : List Nat} (hentered : Entered want found ops)
      (hverdict : (inspect want found ops).Yields (.branches below))
      (hbranch : below[i]? = some (.part step v w))
      (h : Gets (ops.follow step) v w place ops' u u') :
      Gets ops want found (i :: place) ops' u u'

/-- The comparison of two values is not made: their trail is skipped, or one of them is hidden. -/
def Unseen (want found : Value) (ops : Options) : Prop :=
  ops.isSkipped ∨
    (want.isPresent ∧ found.isPresent) ∧ ¬ (want.isAccessible ∧ found.isAccessible)

/-- The comparison of two values is suppressed by the options. -/
def Suppressed (want found : Value) (ops : Options) : Prop :=
  ops.isSkipped ∨
    ((want.isPresent ∧ found.isPresent) ∧ ¬ (want.isAccessible ∧ found.isAccessible)) ∧
      ops.skipHidden

/-- A stop of a comparison: its place, the visit which is noted there, and the notice, if there is
one. -/
structure Stop where
  place : List Nat
  visit : Visit
  notice? : Option Notice

def Stop.under (i : Nat) (stop : Stop) : Stop :=
  { stop with place := i :: stop.place }

/-- Where a comparison stops, and what it notes and tells there. -/
inductive Stops (ops : Options) (want found : Value) : Stop → Prop
  | pair {place : List Nat} {ops' : Options} {u u' : Value} {skipped : Bool}
      {notice? : Option Notice} (hgets : Gets ops want found place ops' u u')
      (hends : ¬ Entered u u' ops') (hskipped : skipped = true ↔ Unseen u u' ops')
      (hnotice : (compare u u' ops').Yields notice?.toList) :
      Stops ops want found ⟨place, ⟨ops'.trail, skipped⟩, notice?⟩
  | missing {place : List Nat} {ops' : Options} {u u' : Value} {below : List Branch} {i : Nat}
      {label : Text} {notice : Notice} (hgets : Gets ops want found place ops' u u')
      (hentered : Entered u u' ops') (hverdict : (inspect u u' ops').Yields (.branches below))
      (hbranch : below[i]? = some (.missing label))
      (hnotice : (mismatch u' .absent (ops'.below (.key label)).toContext).Yields notice) :
      Stops ops want found
        ⟨place ++ [i], ⟨(ops'.below (.key label)).trail, false⟩, some notice⟩

/-- Where a comparison stops in what is left below two values. -/
def Branch.Stops (found : Value) (ops : Options) : Branch → Stop → Prop
  | part step v w, stop => Comparison.Stops (ops.follow step) v w stop
  | missing label, stop =>
    ∃ notice, (mismatch found .absent (ops.below (.key label)).toContext).Yields notice ∧
      stop = ⟨[], ⟨(ops.below (.key label)).trail, false⟩, some notice⟩
  | refused _, _ => False

variable {log : Identity} {declared : Text → List Text} {want found u u' : Value}
  {ops ops' : Options} {notices : List Notice} {notice : Notice} {below : List Branch}
  {place : List Nat} {stop : Stop}

/-- A comparison that does not go on stops at once. -/
theorem stops_iff_of_not_entered (hends : ¬ Entered want found ops) :
    Stops ops want found stop ↔ ∃ skipped notice?, (skipped = true ↔ Unseen want found ops) ∧
      (compare want found ops).Yields notice?.toList ∧
        stop = ⟨[], ⟨ops.trail, skipped⟩, notice?⟩ := by
  constructor
  · intro h
    cases h with
    | pair hgets _ hskipped hnotice =>
      cases hgets with
      | start => exact ⟨_, _, hskipped, hnotice, rfl⟩
      | enter hentered => exact (hends hentered).elim
    | missing hgets hentered =>
      cases hgets with
      | start => exact (hends hentered).elim
      | enter hentered => exact (hends hentered).elim
  · rintro ⟨skipped, notice?, hskipped, hnotice, rfl⟩
    exact .pair .start hends hskipped hnotice

/-- A comparison that goes on stops where its branches do. -/
theorem stops_iff_of_entered (hentered : Entered want found ops)
    (hverdict : (inspect want found ops).Yields (.branches below)) :
    Stops ops want found stop ↔ ∃ (i : Nat) (branch : Branch) (stop' : Stop),
      below[i]? = some branch ∧ branch.Stops found ops stop' ∧ stop = stop'.under i := by
  have hsame {below' : List Branch}
      (h : (inspect want found ops).Yields (.branches below')) : below' = below := by
    injection h.unique hverdict
  constructor
  · intro h
    cases h with
    | pair hgets hends hskipped hnotice =>
      cases hgets with
      | start => exact (hends hentered).elim
      | enter _ hverdict' hbranch hgets =>
        obtain rfl := hsame hverdict'
        exact ⟨_, _, _, hbranch, Stops.pair hgets hends hskipped hnotice, rfl⟩
    | missing hgets hentered' hverdict' hbranch hnotice =>
      cases hgets with
      | start =>
        obtain rfl := hsame hverdict'
        exact ⟨_, _, _, hbranch, ⟨_, hnotice, rfl⟩, rfl⟩
      | enter _ hverdict'' hbranch' hgets =>
        obtain rfl := hsame hverdict''
        exact ⟨_, _, _, hbranch', Stops.missing hgets hentered' hverdict' hbranch hnotice, rfl⟩
  · rintro ⟨i, branch, stop', hbranch, hstops, rfl⟩
    cases branch with
    | part step v w =>
      cases hstops with
      | pair hgets hends hskipped hnotice =>
        exact .pair (.enter hentered hverdict hbranch hgets) hends hskipped hnotice
      | missing hgets hentered' hverdict' hbranch' hnotice =>
        exact .missing (.enter hentered hverdict hbranch hgets) hentered' hverdict' hbranch' hnotice
    | missing label =>
      obtain ⟨notice, hnotice, rfl⟩ := hstops
      exact .missing .start hentered hverdict hbranch hnotice
    | refused fault => exact hstops.elim

/-! ## One step -/

omit [Host] in
theorem Inspected.not_unseen (h : Inspected want found ops) : ¬ Unseen want found ops :=
  fun hunseen ↦ hunseen.elim h.unskipped fun hhidden ↦ hhidden.2 h.accessible

omit [Host] in
theorem Unlike.not_unseen (h : Unlike want found) (hskip : ¬ ops.isSkipped) :
    ¬ Unseen want found ops := by
  rintro (hskip' | ⟨hpresent, hhidden⟩)
  · exact hskip hskip'
  · cases h with
    | absent h => exact h (hpresent.1.trans hpresent.2.symm)
    | types _ haccessible => exact hhidden haccessible

theorem Logged.visits_marked (h : Logged log ops) (skipped : Bool) :
    ((do ops.visit skipped; pure (some notices)) >>= resume want found ops).visits log =
      [⟨ops.trail, skipped⟩] := by
  rw [bind_assoc, visits_bind (ops.visit_yields skipped), h.visits_visit, pure_bind, resume]
  rfl

theorem Logged.visits_settled (h : Logged log ops) (equal : Bool) :
    (some <$> leaf equal want found ops >>= resume want found ops).visits log =
      [⟨ops.trail, false⟩] := by
  rw [bind_map_left]
  exact (congrArg (visits log) (Outcome.bind_pure _)).trans (h.visits_leaf equal)

/-- Where values are looked at, the conclusion makes the visits. -/
theorem Logged.visits_inspected (h : Logged log ops) (hops : ops.Unchecked)
    (hinspected : Inspected want found ops) {verdict : Verdict}
    (hverdict : (inspect want found ops).Yields verdict) :
    (compare want found ops).visits log = (conclude want found ops verdict).visits log := by
  rw [compare_eq, settle_inspected hops hinspected, pure_bind, resume,
    (inspect_silent h.silent).visits_bind hverdict]

/-- A comparison notes one visit, at its own trail, and gives at most one notice. -/
def OneStop (log : Identity) (want found : Value) (ops : Options) (notices : List Notice) : Prop :=
  ∃ skipped notice?, (skipped = true ↔ Unseen want found ops) ∧ notices = Option.toList notice? ∧
    (compare want found ops).visits log = [⟨ops.trail, skipped⟩]

theorem Logged.oneStop_leaf (h : Logged log ops) (hops : ops.Unchecked)
    (hinspected : Inspected want found ops) {equal : Bool}
    (hverdict : (inspect want found ops).Yields (.leaf equal))
    (hnotices : (leaf equal want found ops).Yields notices) :
    OneStop log want found ops notices := by
  have hseen : false = true ↔ Unseen want found ops := iff_of_false nofun hinspected.not_unseen
  have hvisits := (h.visits_inspected hops hinspected hverdict).trans (h.visits_leaf equal)
  cases equal with
  | true => exact ⟨false, none, hseen, leaf_yields_true.mp hnotices, hvisits⟩
  | false =>
    obtain ⟨notice, -, rfl⟩ := leaf_yields_false.mp hnotices
    exact ⟨false, some notice, hseen, rfl, hvisits⟩

theorem oneStop_of_not_entered [LawfulHost] (hops : ops.Unchecked) (hlog : Logged log ops)
    (hkeyed : want.Keyed) (hends : ¬ Entered want found ops)
    (h : (compare want found ops).Yields notices) : OneStop log want found ops notices := by
  cases (compare_yields_iff hops).mp h with
  | skipped hskip =>
    refine ⟨true, none, iff_of_true rfl (.inl hskip), rfl, ?_⟩
    rw [compare_eq, settle_skipped hskip, hlog.visits_marked]
  | absent hskip habsent =>
    refine ⟨false, none, iff_of_false nofun ?_, rfl, ?_⟩
    · exact fun hunseen ↦ hunseen.elim hskip fun hhidden ↦ habsent.1 hhidden.1.1
    · rw [compare_eq, settle_absent hskip habsent, hlog.visits_settled]
  | @unlike notice hskip hunlike =>
    refine ⟨false, some notice, iff_of_false nofun (hunlike.not_unseen hskip), rfl, ?_⟩
    rw [compare_eq, settle_unlike hskip hunlike, hlog.visits_settled]
  | hidden hskip hpresent hhidden =>
    refine ⟨true, if ops.skipHidden then none else some (hiddenNotice ops.trail),
      iff_of_true rfl (.inr ⟨hpresent, hhidden⟩), ?_, ?_⟩
    · cases ops.skipHidden <;> rfl
    · rw [compare_eq, settle_hidden hskip hpresent hhidden, hlog.visits_marked]
  | inspected hinspected hverdict hnotices =>
    cases look_of_inspect hinspected.identity hkeyed hverdict with
    | scalars => exact hlog.oneStop_leaf hops hinspected hverdict hnotices
    | nils => exact hlog.oneStop_leaf hops hinspected hverdict hnotices
    | oneNil hone => exact hlog.oneStop_leaf hops hinspected hverdict hnotices
    | lengths hwant hfound hne =>
      obtain ⟨notice, -, rfl⟩ := lengthMismatch_yields.mp hnotices
      exact ⟨false, some _, iff_of_false nofun hinspected.not_unseen, rfl,
        (hlog.visits_inspected hops hinspected hverdict).trans (hlog.visits_lengthMismatch _ _)⟩
    | shared => exact hlog.oneStop_leaf hops hinspected hverdict hnotices
    | branches hparallel hapart hbelow => exact (hends ⟨hinspected, hparallel, hapart⟩).elim

/-! ## Ledgers -/

/-- A ledger of a computation: its visits and its notices stop by stop, where the stops are those
with a property and have a place each. -/
structure Ledger (log : Identity) (x : Outcome (List Notice)) (p : Stop → Prop)
    (stops : List Stop) : Prop where
  visits : x.visits log = stops.map Stop.visit
  notices : x.Yields (stops.filterMap Stop.notice?)
  places : (stops.map Stop.place).Nodup
  mem_iff : ∀ stop, stop ∈ stops ↔ p stop

namespace Ledger

variable {x y : Outcome (List Notice)} {p q : Stop → Prop} {stops others : List Stop}

omit [Host] in
theorem congr (h : Ledger log x p stops) (hiff : ∀ stop, p stop ↔ q stop) :
    Ledger log x q stops :=
  { h with mem_iff := fun stop ↦ (h.mem_iff stop).trans (hiff stop) }

omit [Host] in
/-- What stops once, with one visit, has a ledger of that stop. -/
theorem single (hvisits : x.visits log = [stop.visit])
    (hnotices : x.Yields stop.notice?.toList) (hiff : ∀ other, p other ↔ other = stop) :
    Ledger log x p [stop] where
  visits := hvisits
  notices := by
    rw [List.filterMap_cons]
    cases hnotice : stop.notice? with
    | none => rwa [hnotice] at hnotices
    | some notice => rwa [hnotice] at hnotices
  places := List.nodup_singleton _
  mem_iff other := List.mem_singleton.trans (hiff other).symm

omit [Host] in
theorem under (h : Ledger log x p stops) (i : Nat) :
    Ledger log x (fun stop ↦ ∃ stop', p stop' ∧ stop = stop'.under i)
      (stops.map (Stop.under i)) where
  visits := by
    rw [h.visits, List.map_map]
    rfl
  notices := by
    rw [List.filterMap_map]
    exact h.notices
  places := by
    have hplaces : (stops.map (Stop.under i)).map Stop.place =
        (stops.map Stop.place).map (List.cons i) := by
      rw [List.map_map, List.map_map]
      rfl
    rw [hplaces]
    exact h.places.map List.cons_injective
  mem_iff stop := by
    rw [List.mem_map]
    exact exists_congr fun stop' ↦ and_congr (h.mem_iff stop') eq_comm

omit [Host] in
/-- One computation after another has the stops of both. -/
theorem append (hx : Ledger log x p stops) (hy : Ledger log y q others)
    (hapart : ∀ stop stop', p stop → q stop' → stop.place ≠ stop'.place) :
    Ledger log (do pure ((← x) ++ (← y))) (fun stop ↦ p stop ∨ q stop) (stops ++ others) where
  visits := by
    rw [visits_bind hx.notices, visits_bind_pure, hx.visits, hy.visits, List.map_append]
  notices := by
    rw [List.filterMap_append]
    exact hx.notices.bind (hy.notices.bind (yields_pure.mpr rfl))
  places := by
    rw [List.map_append]
    refine hx.places.append hy.places fun place hmem hmem' ↦ ?_
    obtain ⟨stop, hstop, rfl⟩ := List.mem_map.mp hmem
    obtain ⟨stop', hstop', hplace⟩ := List.mem_map.mp hmem'
    exact hapart stop stop' ((hx.mem_iff stop).mp hstop) ((hy.mem_iff stop').mp hstop') hplace.symm
  mem_iff stop := by rw [List.mem_append, hx.mem_iff, hy.mem_iff]

omit [Host] in
/-- There is one stop at the place of each. -/
theorem filter_place (h : Ledger log x p stops) (hstop : p stop) :
    stops.filter (fun other ↦ other.place = stop.place) = [stop] := by
  obtain ⟨before, after, rfl⟩ := List.append_of_mem ((h.mem_iff stop).mpr hstop)
  have hplaces := h.places
  rw [List.map_append, List.map_cons, List.nodup_middle, List.nodup_cons, ← List.map_append]
    at hplaces
  have hothers : (before ++ after).filter (fun other ↦ other.place = stop.place) = [] := by
    refine List.filter_eq_nil_iff.mpr fun other hmem hsame ↦ hplaces.1 ?_
    exact of_decide_eq_true hsame ▸ List.mem_map_of_mem hmem
  rw [List.filter_append, List.append_eq_nil_iff] at hothers
  rw [List.filter_append, List.filter_cons_of_pos (by simp), hothers.1, hothers.2, List.nil_append]

end Ledger

theorem conclude_branches_cons (branch : Branch) (rest : List Branch) :
    conclude want found ops (.branches (branch :: rest)) =
      (do pure ((← branch.run found ops) ++ (← conclude want found ops (.branches rest)))) := by
  simp [conclude, sequence_cons]

/-- The ledger of some branches is put together of theirs, under their numbers. -/
theorem exists_ledger_branches
    (hbranches : ∀ branch ∈ below, ∃ stops,
      Ledger log (Branch.run found ops branch) (branch.Stops found ops) stops) (n : Nat) :
    ∃ stops, Ledger log (conclude want found ops (.branches below))
      (fun stop ↦ ∃ (i : Nat) (branch : Branch) (stop' : Stop), below[i]? = some branch ∧
        branch.Stops found ops stop' ∧ stop = stop'.under (n + i)) stops := by
  induction below generalizing n with
  | nil => exact ⟨[], rfl, rfl, List.nodup_nil, by simp⟩
  | cons branch rest ih =>
    obtain ⟨hbranch, hrest⟩ := List.forall_mem_cons.mp hbranches
    obtain ⟨stops, hstops⟩ := hbranch
    obtain ⟨others, hothers⟩ := ih hrest (n + 1)
    rw [conclude_branches_cons]
    refine ⟨stops.map (Stop.under n) ++ others,
      ((hstops.under n).append hothers ?_).congr fun stop ↦ ?_⟩
    · rintro stop stop' ⟨s, -, rfl⟩ ⟨i, _, s', -, -, rfl⟩ hplace
      have hnumber : n = n + 1 + i := (List.cons.inj hplace).1
      omega
    · refine Iff.trans ?_ Nat.or_exists_add_one
      simp only [List.getElem?_cons_succ, List.getElem?_cons_zero, Option.some.injEq, Nat.add_zero,
        Nat.add_assoc, Nat.add_comm 1, exists_and_left, exists_eq_left']

omit [Host] in
theorem eq_of_toList {notice? notice?' : Option Notice} (h : notice?.toList = notice?'.toList) :
    notice? = notice?' := by
  cases notice? <;> cases notice?' <;> simp_all

/-- A comparison that does not go on has a ledger of one stop. -/
theorem exists_ledger_of_not_entered [LawfulHost] (hops : ops.Unchecked) (hlog : Logged log ops)
    (hkeyed : want.Keyed) (hends : ¬ Entered want found ops)
    (h : (compare want found ops).Yields notices) :
    ∃ stops, Ledger log (compare want found ops) (Stops ops want found) stops := by
  obtain ⟨skipped, notice?, hskipped, rfl, hvisits⟩ :=
    oneStop_of_not_entered hops hlog hkeyed hends h
  refine ⟨[⟨[], ⟨ops.trail, skipped⟩, notice?⟩], .single hvisits h fun stop ↦ ?_⟩
  rw [stops_iff_of_not_entered hends]
  constructor
  · rintro ⟨skipped', notice?', hskipped', h', rfl⟩
    rw [Bool.eq_iff_iff.mpr (hskipped'.trans hskipped.symm), eq_of_toList (h'.unique h)]
  · rintro rfl
    exact ⟨skipped, notice?, hskipped, h, rfl⟩

/-- So has a key that is missing. -/
theorem exists_ledger_missing (hlog : Logged log ops) {label : Text}
    (h : ((Branch.missing label).run found ops).Yields notices) :
    ∃ stops, Ledger log ((Branch.missing label).run found ops)
      ((Branch.missing label).Stops found ops) stops := by
  obtain ⟨notice, hnotice, rfl⟩ := run_missing_yields.mp h
  refine ⟨[⟨[], ⟨(ops.below (.key label)).trail, false⟩, some notice⟩],
    .single (hlog.visits_missing label) h fun stop ↦ ?_⟩
  constructor
  · rintro ⟨notice', hnotice', rfl⟩
    rw [hnotice'.unique hnotice]
  · rintro rfl
    exact ⟨notice, hnotice, rfl⟩

/-- A comparison without checkers which returns has a ledger. -/
theorem exists_ledger [LawfulHost] (hops : ops.Unchecked) (hlog : Logged log ops)
    (hkeyed : want.Everywhere Value.Keyed) (h : (compare want found ops).Yields notices) :
    ∃ stops, Ledger log (compare want found ops) (Stops ops want found) stops := by
  induction want using Value.induction_parts generalizing found ops notices with
  | h want ih =>
    by_cases hentered : Entered want found ops
    swap
    · exact exists_ledger_of_not_entered hops hlog hkeyed.self hentered h
    obtain ⟨verdict, hverdict, hnotices⟩ :=
      (compare_yields_of_inspected hops hentered.toInspected).mp h
    have hlook := look_of_inspect hentered.identity hkeyed.self hverdict
    obtain ⟨below, rfl, -⟩ := hlook.eq_branches hentered
    obtain ⟨parts, hparts, -⟩ := conclude_branches_yields.mp hnotices
    have hbranches : ∀ branch ∈ below, ∃ stops,
        Ledger log (Branch.run found ops branch) (branch.Stops found ops) stops := by
      intro branch hbranch
      obtain ⟨part, -, hrun⟩ := exists_of_mem_left hparts hbranch
      cases branch with
      | part step v w =>
        have hmem := (hlook.part_of_mem hbranch).mem_parts.1
        exact ih v hmem (hops.follow step) (hlog.follow step) (hkeyed.part hmem) hrun
      | missing label => exact exists_ledger_missing hlog hrun
      | refused fault => cases hrun
    -- The comparison itself notes nothing here, so its ledger is that of its branches.
    obtain ⟨stops, hstops⟩ := exists_ledger_branches hbranches 0
    refine ⟨stops, ?_, ?_, hstops.places, fun stop ↦ ?_⟩
    · exact (hlog.visits_inspected hops hentered.toInspected hverdict).trans hstops.visits
    · exact (compare_yields_of_inspected hops hentered.toInspected).mpr
        ⟨_, hverdict, hstops.notices⟩
    · simp only [stops_iff_of_entered hentered hverdict, hstops.mem_iff, Nat.zero_add]

/-! ## What a ledger tells -/

theorem Gets.logged (h : Gets ops want found place ops' u u') (hlog : Logged log ops) :
    Logged log ops' := by
  induction h with
  | start => exact hlog
  | @enter _ _ _ _ _ _ _ _ step _ _ _ _ _ _ _ ih => exact ih (hlog.follow step)

/-- What a comparison gets to by its branches is what it arrives at along a path. -/
theorem Gets.exists_arrives [LawfulHost] (h : Gets ops want found place ops' u u')
    (hkeyed : want.Everywhere Value.Keyed) :
    ∃ path, Arrives ops want found path u u' ∧ ops' = ops.descend path := by
  induction h with
  | start => exact ⟨[], .start, rfl⟩
  | @enter ops ops' want found v w u u' step below i place hentered hverdict hbranch _ ih =>
    have hlook := look_of_inspect hentered.identity hkeyed.self hverdict
    obtain ⟨below', hsame, hbelow⟩ := hlook.eq_branches hentered
    injection hsame with hsame
    have hleads := (hbelow _).mp (hsame ▸ List.mem_of_getElem? hbranch)
    obtain ⟨path, harrives, rfl⟩ := ih (hkeyed.part hleads.mem_parts)
    exact ⟨step.toList ++ path, .enter hentered hleads harrives,
      (ops.descend_append step path).symm⟩

theorem Arrives.exists_gets [LawfulHost] {path : List Step} (h : Arrives ops want found path u u')
    (hops : ops.Unchecked) (hkeyed : want.Everywhere Value.Keyed)
    (hyields : (compare want found ops).Yields notices) :
    ∃ place, Gets ops want found place (ops.descend path) u u' := by
  induction h generalizing notices with
  | start => exact ⟨[], .start⟩
  | @enter ops want found v w u u' step path hentered hleads _ ih =>
    obtain ⟨part, hpart, -⟩ := exists_yields_of_leads hops hkeyed.self hyields hentered hleads
    obtain ⟨place, hgets⟩ := ih (hops.follow step) (hkeyed.part hleads.mem_parts) hpart
    obtain ⟨verdict, hverdict, -⟩ :=
      (compare_yields_of_inspected hops hentered.toInspected).mp hyields
    have hlook := look_of_inspect hentered.identity hkeyed.self hverdict
    obtain ⟨below, rfl, hbelow⟩ := hlook.eq_branches hentered
    obtain ⟨i, hbranch⟩ := List.mem_iff_getElem?.mp ((hbelow _).mpr hleads)
    rw [Options.descend_append]
    exact ⟨i :: place, .enter hentered hverdict hbranch hgets⟩

/-- A comparison that does not go on tells of its own trail alone. -/
theorem Makes.trail_eq (h : Makes want found ops notice) (hends : ¬ Entered want found ops) :
    notice.trail = ops.trail := by
  cases h with
  | unlike _ _ hnotice => exact mismatch_trail hnotice
  | hidden => rfl
  | unequal _ _ hnotice => exact mismatch_trail hnotice
  | lengths _ _ _ _ hnotice => exact (mismatch_trail hnotice :)
  | missing hentered => exact (hends hentered).elim

theorem Stops.trail_eq [LawfulHost] (h : Stops ops want found stop) (hops : ops.Unchecked)
    (hkeyed : want.Everywhere Value.Keyed) (hyields : (compare want found ops).Yields notices)
    (hnotice : notice ∈ stop.notice?) : notice.trail = stop.visit.trail := by
  cases h with
  | @pair place ops' u u' skipped notice? hgets hends _ hpart =>
    obtain ⟨path, harrives, rfl⟩ := hgets.exists_arrives hkeyed
    obtain ⟨hu, hchecked, -⟩ := exists_yields_of_arrives harrives hops hkeyed hyields
    have hmem : notice ∈ notice?.toList := Option.mem_toList.mpr hnotice
    rcases makes_or_leads_of_mem hchecked hu hpart hmem with hmakes | ⟨hentered, -⟩
    · exact hmakes.trail_eq hends
    · exact (hends hentered).elim
  | missing _ _ _ _ hmissing =>
    obtain rfl := Option.some.inj hnotice
    exact mismatch_trail hmissing

/-- What is not seen passes exactly if the options suppress the comparison. -/
theorem yields_nil_iff_suppressed (hops : ops.Unchecked) (hunseen : Unseen want found ops) :
    (compare want found ops).Yields [] ↔ Suppressed want found ops := by
  by_cases hskip : ops.isSkipped
  · exact iff_of_true ((compare_yields_iff hops).mpr (.skipped hskip)) (.inl hskip)
  have hhidden := hunseen.resolve_left hskip
  have hyields := (compare_yields_iff hops).mpr (.hidden hskip hhidden.1 hhidden.2)
  constructor
  · intro h
    refine .inr ⟨hhidden, ?_⟩
    by_contra htold
    rw [if_neg htold] at hyields
    cases h.unique hyields
  · intro h
    rw [if_pos (h.resolve_left hskip).2] at hyields
    exact hyields

/-- A stop without a notice: the comparison there is suppressed, or succeeds. -/
inductive Passed (ops : Options) (want found : Value) : Stop → Prop
  | suppressed {place : List Nat} {ops' : Options} {u u' : Value}
      (hgets : Gets ops want found place ops' u u') (h : Suppressed u u' ops') :
      Passed ops want found ⟨place, ⟨ops'.trail, true⟩, none⟩
  | equal {place : List Nat} {ops' : Options} {u u' : Value}
      (hgets : Gets ops want found place ops' u u') (h : (compare u u' ops').Yields []) :
      Passed ops want found ⟨place, ⟨ops'.trail, false⟩, none⟩

theorem Stops.passed [LawfulHost] (h : Stops ops want found stop) (hops : ops.Unchecked)
    (hkeyed : want.Everywhere Value.Keyed) (hyields : (compare want found ops).Yields notices)
    (hnone : stop.notice? = none) : Passed ops want found stop := by
  cases h with
  | @pair place ops' u u' skipped notice? hgets _ hskipped hpart =>
    obtain rfl : notice? = none := hnone
    cases skipped with
    | false => exact .equal hgets hpart
    | true =>
      obtain ⟨path, harrives, rfl⟩ := hgets.exists_arrives hkeyed
      obtain ⟨-, hchecked, -⟩ := exists_yields_of_arrives harrives hops hkeyed hyields
      exact .suppressed hgets ((yields_nil_iff_suppressed hchecked (hskipped.mp rfl)).mp hpart)
  | missing => cases hnone

/-- Where a comparison gets and does not go on it has a stop. -/
theorem Gets.exists_stops [LawfulHost] (h : Gets ops want found place ops' u u')
    (hends : ¬ Entered u u' ops') (hops : ops.Unchecked) (hlog : Logged log ops)
    (hkeyed : want.Everywhere Value.Keyed)
    (hyields : (compare want found ops).Yields notices) :
    ∃ skipped notice?, (skipped = true ↔ Unseen u u' ops') ∧
      (compare u u' ops').Yields (Option.toList notice?) ∧
        Stops ops want found ⟨place, ⟨ops'.trail, skipped⟩, notice?⟩ := by
  have hlogged := h.logged hlog
  obtain ⟨path, harrives, rfl⟩ := h.exists_arrives hkeyed
  obtain ⟨hu, hchecked, part, hpart, -⟩ := exists_yields_of_arrives harrives hops hkeyed hyields
  obtain ⟨skipped, notice?, hskipped, rfl, -⟩ :=
    oneStop_of_not_entered hchecked hlogged hu hends hpart
  exact ⟨skipped, notice?, hskipped, hpart, .pair h hends hskipped hpart⟩

omit [Host] in
/-- Notices come at the trails of their stops, in the order of these. -/
theorem sublist_of_trail_eq {stops : List Stop}
    (h : ∀ stop ∈ stops, ∀ notice ∈ stop.notice?, notice.trail = stop.visit.trail) :
    ((stops.filterMap Stop.notice?).map Notice.trail).Sublist
      (stops.map fun stop ↦ stop.visit.trail) := by
  induction stops with
  | nil => exact .slnil
  | cons stop rest ih =>
    obtain ⟨hhead, hrest⟩ := List.forall_mem_cons.mp h
    cases hnotice : stop.notice? with
    | none =>
      rw [List.filterMap_cons_none hnotice]
      exact (ih hrest).cons _
    | some notice =>
      rw [List.filterMap_cons_some hnotice, List.map_cons, List.map_cons, hhead notice hnotice]
      exact (ih hrest).cons_cons _

/-- Every notice is backed by the trail log, in order.  The log and the notices of a comparison are
the columns of a ledger: a notice has the trail which is logged at its stop, a stop without a notice
is one where the comparison was suppressed or succeeded, and each pair of values at which the
comparison arrives, and from which it does not go on, is logged exactly once. -/
theorem exists_ledger_of_logged [LawfulHost] (hops : ops.Unchecked) (hlog : Logged log ops)
    (hkeyed : want.Everywhere Value.Keyed) :
    (∀ declared, ops.rendering.Faultless → want.Everywhere (Value.Genuine declared) →
      found.Everywhere (Value.Genuine declared) → (compare want found ops).Returns) ∧
    ∀ notices, (compare want found ops).Yields notices → ∃ stops : List Stop,
      (compare want found ops).trailLog log = stops.map (fun stop ↦ stop.visit.entry) ∧
      notices = stops.filterMap Stop.notice? ∧
      (notices.map Notice.trail).Sublist (stops.map fun stop ↦ stop.visit.trail) ∧
      (∀ stop ∈ stops, (∀ notice ∈ stop.notice?, notice.trail = stop.visit.trail) ∧
        (stop.notice? = none → Passed ops want found stop)) ∧
      ∀ place ops' u u', Gets ops want found place ops' u u' → ¬ Entered u u' ops' →
        ∃ skipped notice?, stops.filter (fun stop ↦ stop.place = place) =
            [⟨place, ⟨ops'.trail, skipped⟩, notice?⟩] ∧
          (skipped = true ↔ Unseen u u' ops') ∧ (compare u u' ops').Yields notice?.toList := by
  refine ⟨fun declared ↦ compare_returns hops, fun notices hyields ↦ ?_⟩
  obtain ⟨stops, hledger⟩ := exists_ledger hops hlog hkeyed hyields
  obtain rfl := hyields.unique hledger.notices
  have htrail : ∀ stop ∈ stops, ∀ notice ∈ stop.notice?, notice.trail = stop.visit.trail :=
    fun stop hmem notice ↦ ((hledger.mem_iff stop).mp hmem).trail_eq hops hkeyed hyields
  refine ⟨stops, ?_, rfl, ?_, fun stop hmem ↦ ⟨htrail stop hmem, ?_⟩, ?_⟩
  · rw [trailLog_eq, hledger.visits, List.map_map]
    rfl
  · exact sublist_of_trail_eq htrail
  · exact ((hledger.mem_iff stop).mp hmem).passed hops hkeyed hyields
  · intro place ops' u u' hgets hends
    obtain ⟨skipped, notice?, hskipped, hpart, hstops⟩ :=
      hgets.exists_stops hends hops hlog hkeyed hyields
    exact ⟨skipped, notice?, hledger.filter_place hstops, hskipped, hpart⟩

end

/-! ## Samples -/

open scoped Sample

def account (owner : Text) : Value :=
  .record "Account"
    [("mBalance", .hidden Sample.int), ("Owner", .scalar (.string .owned (some owner)))]

def loggedAt (trail : Text) : Options :=
  { trail := trail, log? := some 0 }

theorem logged_loggedAt {trail : Text} (h : trail ≠ []) : Logged 0 (loggedAt trail) :=
  ⟨rfl, h, Rendering.silent_of_plain rfl⟩

theorem entered_account {ops : Options} (owner owner' : Text) (hskip : ¬ ops.isSkipped) :
    Entered (account owner) (account owner') ops :=
  ⟨⟨hskip, ⟨rfl, rfl⟩, ⟨rfl, rfl⟩, rfl⟩, rfl, not_false⟩

theorem exists_ledger_of_logged_account :
    (compare (account "joe") (account "ann") (loggedAt "A")).Returns ∧
    ∀ notices, (compare (account "joe") (account "ann") (loggedAt "A")).Yields notices →
      ∃ stops : List Stop,
        (compare (account "joe") (account "ann") (loggedAt "A")).trailLog 0 =
          stops.map (fun stop ↦ stop.visit.entry) ∧
        notices = stops.filterMap Stop.notice? ∧
        (notices.map Notice.trail).Sublist (stops.map fun stop ↦ stop.visit.trail) ∧
        ∃ skipped notice?, stops.filter (fun stop ↦ stop.place = [0]) =
          [⟨[0], ⟨"A.mBalance", skipped⟩, notice?⟩] := by
  have hlogged : Logged 0 (loggedAt "A") := logged_loggedAt (by decide)
  have hkeyed : (account "joe").Everywhere Value.Keyed := by decide
  have hbalance : Gets (loggedAt "A") (account "joe") (account "ann") [0]
      ((loggedAt "A").below (.field "mBalance")) (.hidden Sample.int) (.hidden Sample.int) :=
    .enter (entered_account "joe" "ann" (by decide)) rfl rfl .start
  obtain ⟨hreturns, hledger⟩ := exists_ledger_of_logged ⟨rfl, rfl⟩ hlogged hkeyed
  refine ⟨hreturns (fun _ ↦ ["mBalance", "Owner"]) Rendering.faultless_empty (by decide)
    (by decide), fun notices hyields ↦ ?_⟩
  obtain ⟨stops, htrails, hnotices, hsublist, -, honce⟩ := hledger notices hyields
  obtain ⟨skipped, notice?, hfilter, -, -⟩ := honce _ _ _ _ hbalance fun h ↦ h.parallel
  exact ⟨stops, htrails, hnotices, hsublist, skipped, notice?, hfilter⟩

/-- The hidden balance is marked, and the notice about it comes first. -/
example : (compare (account "joe") (account "ann") (loggedAt "A")).trailLog 0 =
    ["A.mBalance <skipped>", "A.Owner"] := by
  decide

end Discrepancy.Comparison
