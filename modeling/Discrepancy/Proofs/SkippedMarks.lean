import Discrepancy.Proofs.TrailLog

/-!
# Marks in the trail log

A trail is marked as skipped where a comparison is not made.  If the stops of a comparison have
different trails, then the mark of a trail can be held against the notices: whether one of them has
this trail is settled at one stop.  Whatever the options suppress is marked and silent.  But a mark
alone does not promise silence: values which cannot be accessed are marked as skipped, although
their notice is given unless the options tell to skip them.
-/

namespace Discrepancy.Comparison

open Outcome

section

variable [Host] {log : Identity} {want found : Value} {ops : Options} {notices : List Notice}
  {stop : Stop} {stops : List Stop}

/-! ## Where comparisons are not made -/

/-- The stops of a comparison have different trails: those with one trail are at one place. -/
def DistinctTrails (ops : Options) (want found : Value) : Prop :=
  ∀ stop stop', Stops ops want found stop → Stops ops want found stop' →
    stop.visit.trail = stop'.visit.trail → stop.place = stop'.place

omit [Host] in
/-- What is suppressed is not seen. -/
theorem Suppressed.unseen (h : Suppressed want found ops) : Unseen want found ops :=
  h.imp_right And.left

omit [Host] in
/-- The options suppress a comparison that is not made if they skip its trail, or hidden values. -/
theorem suppressed_iff (hunseen : Unseen want found ops) :
    Suppressed want found ops ↔ ops.trail ∈ ops.skipTrails ∨ ops.skipHidden := by
  rw [← List.contains_iff_mem]
  constructor
  · exact Or.imp_right And.right
  · rintro (hskip | hhide)
    · exact .inl hskip
    · exact hunseen.imp_right fun hhidden ↦ ⟨hhidden, hhide⟩

omit [Host] in
/-- What is not seen is not entered. -/
theorem Unseen.not_entered (h : Unseen want found ops) : ¬ Entered want found ops :=
  fun hentered ↦ hentered.toInspected.not_unseen h

variable [LawfulHost]

/-- A marked stop is one where the comparison is not made. -/
theorem Stops.exists_unseen (h : Stops ops want found stop)
    (hkeyed : want.Everywhere Value.Keyed) (hskipped : stop.visit.skipped = true) :
    ∃ path u u', Arrives ops want found path u u' ∧ Unseen u u' (ops.descend path) ∧
      (ops.descend path).trail = stop.visit.trail ∧
        (compare u u' (ops.descend path)).Yields stop.notice?.toList := by
  cases h with
  | pair hgets _ hunseen hnotice =>
    obtain ⟨path, harrives, rfl⟩ := hgets.exists_arrives hkeyed
    exact ⟨path, _, _, harrives, hunseen.mp hskipped, rfl, hnotice⟩
  | missing => cases hskipped

/-! ## Marks and notices -/

/-- In a ledger with one stop for each trail, a trail has a notice if its stop has one. -/
theorem exists_told_iff (hops : ops.Unchecked) (hkeyed : want.Everywhere Value.Keyed)
    (hdistinct : DistinctTrails ops want found)
    (hledger : Ledger log (compare want found ops) (Stops ops want found) stops)
    (hstop : stop ∈ stops) :
    (∃ notice ∈ stops.filterMap Stop.notice?, notice.trail = stop.visit.trail) ↔
      stop.notice? ≠ none := by
  have htrail {other : Stop} {notice : Notice} (hother : other ∈ stops)
      (hnotice : other.notice? = some notice) : notice.trail = other.visit.trail :=
    ((hledger.mem_iff other).mp hother).trail_eq hops hkeyed hledger.notices hnotice
  constructor
  · rintro ⟨notice, hmem, heq⟩
    obtain ⟨other, hother, hnotice⟩ := List.mem_filterMap.mp hmem
    have hplace : other.place = stop.place := hdistinct other stop ((hledger.mem_iff _).mp hother)
      ((hledger.mem_iff _).mp hstop) ((htrail hother hnotice).symm.trans heq)
    obtain rfl := List.inj_on_of_nodup_map hledger.places hother hstop hplace
    exact Option.ne_none_iff_exists'.mpr ⟨notice, hnotice⟩
  · intro hsome
    obtain ⟨notice, hnotice⟩ := Option.ne_none_iff_exists'.mp hsome
    exact ⟨notice, List.mem_filterMap.mpr ⟨stop, hstop, hnotice⟩, htrail hstop hnotice⟩

/-- A marked trail has a notice unless the options suppress the comparison there. -/
theorem exists_told_iff_of_marked (hops : ops.Unchecked) (hkeyed : want.Everywhere Value.Keyed)
    (hdistinct : DistinctTrails ops want found)
    (hledger : Ledger log (compare want found ops) (Stops ops want found) stops)
    (hstop : stop ∈ stops) (hskipped : stop.visit.skipped = true) :
    (∃ notice ∈ stops.filterMap Stop.notice?, notice.trail = stop.visit.trail) ↔
      stop.visit.trail ∉ ops.skipTrails ∧ ops.skipHidden = false := by
  obtain ⟨path, u, u', harrives, hunseen, htrail, hnotice⟩ :=
    ((hledger.mem_iff stop).mp hstop).exists_unseen hkeyed hskipped
  obtain ⟨-, hchecked, -⟩ := exists_yields_of_arrives harrives hops hkeyed hledger.notices
  have hsuppressed : stop.notice? = none ↔ Suppressed u u' (ops.descend path) := by
    rw [← yields_nil_iff_suppressed hchecked hunseen]
    constructor
    · intro hnone
      rwa [hnone] at hnotice
    · exact fun hnil ↦ Option.toList_eq_nil_iff.mp (hnotice.unique hnil)
  rw [exists_told_iff hops hkeyed hdistinct hledger hstop, Ne, hsuppressed, suppressed_iff hunseen,
    htrail, ops.descend_skipTrails, ops.descend_skipHidden, not_or, Bool.not_eq_true]

/-- A trail is marked if the comparison arrives there at values which it does not compare. -/
theorem marked_iff_unseen (hops : ops.Unchecked) (hlog : Logged log ops)
    (hkeyed : want.Everywhere Value.Keyed)
    (hledger : Ledger log (compare want found ops) (Stops ops want found) stops) (trail : Text) :
    ⟨trail, true⟩ ∈ stops.map Stop.visit ↔ ∃ path u u', Arrives ops want found path u u' ∧
      Unseen u u' (ops.descend path) ∧ (ops.descend path).trail = trail := by
  constructor
  · intro hmarked
    obtain ⟨stop, hstop, hvisit⟩ := List.mem_map.mp hmarked
    obtain ⟨path, u, u', harrives, hunseen, htrail, -⟩ :=
      ((hledger.mem_iff stop).mp hstop).exists_unseen hkeyed (congrArg Visit.skipped hvisit)
    exact ⟨path, u, u', harrives, hunseen, htrail.trans (congrArg Visit.trail hvisit)⟩
  · rintro ⟨path, u, u', harrives, hunseen, rfl⟩
    obtain ⟨place, hgets⟩ := harrives.exists_gets hops hkeyed hledger.notices
    obtain ⟨skipped, notice?, hskipped, -, hstops⟩ :=
      hgets.exists_stops hunseen.not_entered hops hlog hkeyed hledger.notices
    rw [hskipped.mpr hunseen] at hstops
    exact List.mem_map_of_mem ((hledger.mem_iff _).mpr hstops)

/-- The marks of a trail log tell where comparisons are not made.  If the stops of a comparison have
different trails, then a trail is marked exactly if the comparison got there to values which it did
not compare; a marked trail is without a notice exactly if the options skip this trail or hidden
values; and wherever the options suppress the comparison the trail is marked and has no notice. -/
theorem marked_told_iff (hops : ops.Unchecked) (hlog : Logged log ops)
    (hkeyed : want.Everywhere Value.Keyed) (hdistinct : DistinctTrails ops want found) :
    (∀ declared, ops.rendering.Faultless → want.Everywhere (Value.Genuine declared) →
      found.Everywhere (Value.Genuine declared) → (compare want found ops).Returns) ∧
    ∀ notices, (compare want found ops).Yields notices → ∃ visits : List Visit,
      (compare want found ops).trailLog log = visits.map Visit.entry ∧
      (∀ trail, ⟨trail, true⟩ ∈ visits ↔ ∃ path u u', Arrives ops want found path u u' ∧
        Unseen u u' (ops.descend path) ∧ (ops.descend path).trail = trail) ∧
      (∀ trail, ⟨trail, true⟩ ∈ visits → ((∃ notice ∈ notices, notice.trail = trail) ↔
        trail ∉ ops.skipTrails ∧ ops.skipHidden = false)) ∧
      ∀ path u u', Arrives ops want found path u u' → Suppressed u u' (ops.descend path) →
        ⟨(ops.descend path).trail, true⟩ ∈ visits ∧
          ∀ notice ∈ notices, notice.trail ≠ (ops.descend path).trail := by
  refine ⟨fun declared ↦ compare_returns hops, fun notices hyields ↦ ?_⟩
  obtain ⟨stops, hledger⟩ := exists_ledger hops hlog hkeyed hyields
  obtain rfl := hyields.unique hledger.notices
  have htold (trail : Text) (hmarked : ⟨trail, true⟩ ∈ stops.map Stop.visit) :
      (∃ notice ∈ stops.filterMap Stop.notice?, notice.trail = trail) ↔
        trail ∉ ops.skipTrails ∧ ops.skipHidden = false := by
    obtain ⟨stop, hstop, hvisit⟩ := List.mem_map.mp hmarked
    have htrail : stop.visit.trail = trail := congrArg Visit.trail hvisit
    rw [← htrail]
    exact exists_told_iff_of_marked hops hkeyed hdistinct hledger hstop
      (congrArg Visit.skipped hvisit)
  have hmarked := marked_iff_unseen hops hlog hkeyed hledger
  have hentries : (compare want found ops).trailLog log =
      (stops.map Stop.visit).map Visit.entry := by rw [trailLog_eq, hledger.visits]
  refine ⟨stops.map Stop.visit, hentries, hmarked, htold, ?_⟩
  intro path u u' harrives hsuppressed
  have hmark := (hmarked _).mpr ⟨path, u, u', harrives, hsuppressed.unseen, rfl⟩
  refine ⟨hmark, fun notice hnotice htrail ↦ ?_⟩
  obtain ⟨hunskipped, hshown⟩ := (htold _ hmark).mp ⟨notice, hnotice, htrail⟩
  rcases (suppressed_iff hsuppressed.unseen).mp hsuppressed with hskip | hhide
  · exact hunskipped (ops.descend_skipTrails path ▸ hskip)
  · rw [ops.descend_skipHidden, hshown] at hhide
    cases hhide

/-- The stops have different trails if the log has. -/
theorem distinctTrails_of_nodup (hops : ops.Unchecked) (hlog : Logged log ops)
    (hkeyed : want.Everywhere Value.Keyed) (hyields : (compare want found ops).Yields notices)
    (h : (((compare want found ops).visits log).map Visit.trail).Nodup) :
    DistinctTrails ops want found := by
  obtain ⟨stops, hledger⟩ := exists_ledger hops hlog hkeyed hyields
  rw [hledger.visits, List.map_map] at h
  intro stop stop' hstop hstop' htrail
  exact congrArg Stop.place (List.inj_on_of_nodup_map h ((hledger.mem_iff stop).mpr hstop)
    ((hledger.mem_iff stop').mpr hstop') htrail)

end

/-! ## Samples -/

open scoped Sample

theorem compare_account_yields :
    (compare (account "joe") (account "joe") (loggedAt "A")).Yields
      [hiddenNotice "A.mBalance"] := by
  decide

theorem distinctTrails_account : DistinctTrails (loggedAt "A") (account "joe") (account "joe") :=
  distinctTrails_of_nodup ⟨rfl, rfl⟩ (logged_loggedAt (by decide)) (by decide)
    compare_account_yields (by decide)

theorem arrives_balance :
    Arrives (loggedAt "A") (account "joe") (account "joe") [.field "mBalance"]
      (.hidden Sample.int) (.hidden Sample.int) :=
  .enter (entered_account "joe" "joe" (by decide))
    (.part (.field 0 rfl rfl) (fun _ _ ↦ rfl) nofun) .start

/-- A comparison of two accounts marks their balance as skipped, and tells of it. -/
theorem marked_told_iff_account : ∃ visits : List Visit,
    (compare (account "joe") (account "joe") (loggedAt "A")).trailLog 0 =
      visits.map Visit.entry ∧
    ⟨"A.mBalance", true⟩ ∈ visits ∧
    ∃ notice ∈ [hiddenNotice "A.mBalance"], notice.trail = "A.mBalance" := by
  have hkeyed : (account "joe").Everywhere Value.Keyed := by decide
  obtain ⟨-, hmarks⟩ := marked_told_iff ⟨rfl, rfl⟩ (logged_loggedAt (by decide)) hkeyed
    distinctTrails_account
  obtain ⟨visits, hlog, hmarked, htold, -⟩ := hmarks _ compare_account_yields
  have hbalance : ⟨"A.mBalance", true⟩ ∈ visits :=
    (hmarked _).mpr ⟨_, _, _, arrives_balance, .inr ⟨by decide, by decide⟩, rfl⟩
  exact ⟨visits, hlog, hbalance, (htold _ hbalance).mpr ⟨List.not_mem_nil, rfl⟩⟩

/-- A mark in the trail log does not promise that there is no notice. -/
theorem not_marked_silent :
    ¬ ∀ (declared : Text → List Text) (log : Identity) (want found : Value) (ops : Options)
      (notices : List Notice), ops.Unchecked → Logged log ops →
        want.Everywhere (Value.Genuine declared) → found.Everywhere (Value.Genuine declared) →
          DistinctTrails ops want found → (compare want found ops).Yields notices →
            ∀ trail, ⟨trail, true⟩ ∈ (compare want found ops).visits log →
              ∀ notice ∈ notices, notice.trail ≠ trail := by
  intro hsilent
  have hgenuine : (account "joe").Everywhere
    (Value.Genuine fun _ ↦ ["mBalance", "Owner"]) := by decide
  exact hsilent _ 0 _ _ _ _ ⟨rfl, rfl⟩ (logged_loggedAt (by decide)) hgenuine hgenuine
    distinctTrails_account compare_account_yields "A.mBalance" (by decide) _
    (List.mem_singleton_self _) rfl

end Discrepancy.Comparison
