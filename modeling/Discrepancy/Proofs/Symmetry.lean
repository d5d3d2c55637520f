import Discrepancy.Proofs.KeyOrder
import Discrepancy.Proofs.Literals

/-!
# Symmetry

A comparison that finds no difference finds none the other way round either, with one exception:
a field without a value is not compared, whatever the other record has in its place.  Apart from
these fields both ways go through the same parts.  The keys of the second map are those of the
first one, by their number, and the trails are the same because records of one type have the same
field names and equal keys have one label.  A comparator that takes keys of different labels for
equal breaks this, for a trail is skipped by its text.
-/

namespace Discrepancy

open Outcome

namespace Value

/-- Whether the values in a map are there is fixed by their type. -/
def Filled (filled : Ty → Bool) : Value → Prop
  | map _ _ mapped _ entries => ∀ entry ∈ entries, entry.2.isPresent = filled mapped
  | _ => True

instance (filled : Ty → Bool) : DecidablePred (Filled filled)
  | map _ _ mapped _ entries => inferInstanceAs (Decidable
      (∀ entry ∈ entries, entry.2.isPresent = filled mapped))
  | absent | hidden _ | scalar _ | pointer .. | record .. | sequence .. | interface .. =>
    isTrue trivial

variable [Host]

/-- A value with literal keys, whose types fix the fields of records and the presence of values in
maps. -/
structure Regular (declared : Text → List Text) (filled : Ty → Bool) (v : Value) : Prop
    extends LiterallyKeyed v where
  declared : v.Declared declared
  filled : v.Filled filled

instance (declared : Text → List Text) (filled : Ty → Bool) :
    DecidablePred (Regular declared filled) := fun v ↦
  decidable_of_iff (v.Keyed ∧ v.LiteralKeys ∧ v.Declared declared ∧ v.Filled filled)
    ⟨fun ⟨h₁, h₂, h₃, h₄⟩ ↦ ⟨⟨h₁, h₂⟩, h₃, h₄⟩,
      fun h ↦ ⟨h.keyed, h.literal, h.declared, h.filled⟩⟩

end Value

namespace Comparison

variable [Host] [LawfulHost] {declared : Text → List Text} {filled : Ty → Bool} {r : Rendering}
  {want found v w : Value} {ops : Options} {step : Option Step}

/-! ## Parts -/

/-- The same step leads to the same parts the other way round. -/
theorem Part.symm (h : Part r want found step v w) (hidentity : want.identity? = found.identity?)
    (halike : Value.Alike r want found) (hwant : want.Regular declared filled)
    (hfound : found.Regular declared filled) : Part r found want step w v := by
  cases h with
  | pointee => exact .pointee
  | content => exact .content
  | @field record record' name name' fields others _ _ i hv hw =>
    obtain rfl := Value.record_identity_inj.mp hidentity
    obtain rfl : name = name' :=
      Value.eq_of_map_eq (hwant.declared.trans hfound.declared.symm) hv hw
    exact .field i hw hv
  | element i hv hw => exact .element i hw hv
  | mapped hmem hfind hlabel =>
    obtain rfl := halike.agreeing.rule_eq hidentity
    obtain ⟨k', hother, hsame⟩ := (find?_eq_some_iff_exists hwant.toLiterallyKeyed
      hfound.toLiterallyKeyed hmem).mp hfind
    have hsame' := KeyRule.same_symm hsame
    have hback := (find?_eq_some_iff_exists hfound.toLiterallyKeyed hwant.toLiterallyKeyed
      hother).mpr ⟨_, hmem, hsame'⟩
    have hshares := halike.labelled.sharesLabels hidentity
    exact .mapped hother hback ((keyLabel_of_same hshares hmem hother hsame').mp hlabel)

omit [LawfulHost] in
/-- Under a key there are two values or none. -/
theorem Part.isPresent_eq_of_key (h : Part r want found step v w)
    (hidentity : want.identity? = found.identity?) (hwant : want.Filled filled)
    (hfound : found.Filled filled) {label : Text} (hstep : step = some (.key label)) :
    v.isPresent = w.isPresent := by
  cases h with
  | mapped hmem hfind hlabel =>
    obtain ⟨-, rfl, rfl⟩ := Value.map_identity_inj.mp hidentity
    obtain ⟨k', hmem'⟩ := Table.exists_mem_of_find? hfind
    exact (hwant _ hmem).trans (hfound _ hmem').symm
  | _ => cases hstep

/-- Where a comparison goes on one way it goes on the other way. -/
theorem Leads.symm (h : Leads r want found (.part step v w)) (hpresent : w.isPresent)
    (hidentity : want.identity? = found.identity?) (halike : Value.Alike r want found)
    (hwant : want.Regular declared filled) (hfound : found.Regular declared filled) :
    Leads r found want (.part step w v) := by
  cases h with
  | part hpart hfield hkey =>
    exact .part (hpart.symm hidentity halike hwant hfound) (fun _ _ ↦ hpresent) fun label hstep ↦
      (hpart.isPresent_eq_of_key hidentity hwant.filled hfound.filled hstep).trans hpresent

/-- Where no key is lacking, none is the other way round, and the keys have the same labels. -/
theorem not_lacks_symm (hidentity : want.identity? = found.identity?)
    (halike : Value.Alike r want found) (hparallel : want.Parallel found)
    (hwant : want.Regular declared filled) (hfound : found.Regular declared filled)
    (hlabels : r.Labels want)
    (hlacks : ∀ label, ¬ Lacks r want found label) :
    r.Labels found ∧ ∀ label, ¬ Lacks r found want label := by
  cases found with
  | map rule' key' mapped' storage' others =>
    cases want with
    | map rule key mapped storage entries =>
      obtain rfl := halike.agreeing.rule_eq hidentity
      obtain ⟨-, rfl, rfl⟩ := Value.map_identity_inj.mp hidentity
      have hkeys := hwant.toLiterallyKeyed
      have hkeys' := hfound.toLiterallyKeyed
      have hforth (k v : Value) (hmem : (k, v) ∈ entries) :
          ∃ k' w, (k', w) ∈ others ∧ rule.same k' k ∧ w.isPresent :=
        exists_mem_of_not_lacks hkeys hkeys' hlabels hlacks hmem
      have hback (k w : Value) (hmem : (k, w) ∈ others) :
          ∃ k' v, (k', v) ∈ entries ∧ rule.same k' k := by
        refine exists_mem_of_length hkeys hkeys' hparallel (fun k v hmem' ↦ ?_) hmem
        obtain ⟨k', w, hw, hsame, -⟩ := hforth k v hmem'
        exact ⟨k', w, hw, hsame⟩
      refine ⟨fun other hmem ↦ ?_, fun label h ↦ ?_⟩
      · obtain ⟨k, v, hv, hsame⟩ := hback _ _ hmem
        obtain ⟨label, hlabel⟩ := hlabels (k, v) hv
        exact ⟨label, (keyLabel_of_same (halike.labelled.sharesLabels hidentity) hv hmem hsame).mp
          hlabel⟩
      · cases h with
        | @intro _ _ _ _ _ _ _ _ _ _ k w _ hmem hnone hlabel =>
          obtain ⟨k', v, hv, hsame⟩ := hback k w hmem
          obtain ⟨k'', w', hw', -, hpresent⟩ := hforth k' v hv
          refine hnone v ((find?_eq_some_iff_exists hkeys' hkeys hmem).mpr ⟨k', hv, hsame⟩) ?_
          exact (hwant.filled _ hv).trans ((hfound.filled _ hw').symm.trans hpresent)
    | pointer form target pointee => cases pointee <;> exact hparallel.elim
    | _ => exact hparallel.elim
  | _ => exact ⟨trivial, nofun⟩

/-! ## Fields that are passed over -/

/-- Two records of which the second one has a value in a field where the first one has none. -/
inductive Overlooks : Value → Value → Options → Prop
  | intro {record record' name name' : Text} {fields others : List (Text × Value)} {w : Value}
      {ops : Options} (hentered : Entered (.record record fields) (.record record' others) ops)
      (i : Nat) (hwant : fields[i]? = some (name, .absent)) (hfound : others[i]? = some (name', w))
      (hpresent : w.isPresent) (hskip : ¬ (ops.below (.field name)).isSkipped) :
      Overlooks (.record record fields) (.record record' others) ops

omit [Host] [LawfulHost] in
theorem Overlooks.entered (h : Overlooks want found ops) : Entered want found ops := by
  cases h with
  | intro hentered => exact hentered

/-- A field that is passed over makes a difference the other way round. -/
theorem Overlooks.exists_part (h : Overlooks want found ops)
    (halike : Value.Alike ops.rendering want found) (hwant : want.Regular declared filled)
    (hfound : found.Regular declared filled) :
    ∃ step w, Leads ops.rendering found want (.part step w .absent) ∧ w.isPresent ∧
      ¬ (ops.follow step).isSkipped := by
  cases h with
  | @intro record record' _ _ fields others _ _ hentered i hv hw hpresent hskip =>
    have hpart : Part ops.rendering (.record record fields) (.record record' others) _ _ _ :=
      .field i hv hw
    exact ⟨_, _,
      .part (hpart.symm hentered.identity halike hwant hfound) (fun _ _ ↦ hpresent) nofun,
      hpresent, hskip⟩

/-- What a comparison goes on with the other way round, it goes on with this way, unless it passes
over the field. -/
theorem Leads.leads_or_overlooks (h : Leads ops.rendering found want (.part step w v))
    (hentered : Entered want found ops) (halike : Value.Alike ops.rendering want found)
    (hwant : want.Regular declared filled)
    (hfound : found.Regular declared filled) (hskip : ¬ (ops.follow step).isSkipped) :
    Leads ops.rendering want found (.part step v w) ∨ Overlooks want found ops := by
  by_cases hpresent : v.isPresent
  · exact .inl (h.symm hpresent hentered.identity.symm halike.symm hfound hwant)
  obtain rfl := Value.eq_absent hpresent
  cases h with
  | part hpart hfield hkey =>
    cases hpart.symm hentered.identity.symm halike.symm hfound hwant with
    | field i hv hw => exact .inr (.intro hentered i hv hw (hfield _ rfl) hskip)
    | pointee => exact .inl (.part .pointee nofun nofun)
    | content => exact .inl (.part .content nofun nofun)
    | element i hv hw => exact .inl (.part (.element i hv hw) nofun nofun)
    | mapped => cases hkey _ rfl

/-! ## The other way round -/

omit [LawfulHost] in
/-- Values that pass without being entered do so the other way round. -/
theorem Passes.symm_of_not_entered (h : Passes want found ops)
    (hentered : ¬ Entered want found ops) : Passes found want ops := by
  cases h with
  | skipped hskip => exact .skipped hskip
  | absent habsent => exact .absent habsent.symm
  | hidden hpresent hhidden hpass =>
    exact .hidden hpresent.symm (fun haccessible ↦ hhidden haccessible.symm) hpass
  | accord hinspected h =>
    refine .accord hinspected.symm ?_
    cases h with
    | scalars h => exact .scalars h.symm
    | nils => exact .nils
    | shared hsize hshared => exact .shared hsize.symm (hshared.symm hinspected.identity)
    | parts hparallel hapart => exact (hentered ⟨hinspected, hparallel, hapart⟩).elim

/-- One step: values which are entered pass the other way round exactly if their parts do and no
field is passed over. -/
theorem yields_nil_swap_iff_of_entered (hops : ops.Unchecked) (hentered : Entered want found ops)
    (halike : Value.Alike ops.rendering want found)
    (hwant : want.Everywhere (Value.Regular declared filled))
    (hfound : found.Everywhere (Value.Regular declared filled))
    (h : (compare want found ops).Yields []) :
    (compare found want ops).Yields [] ↔ ¬ Overlooks want found ops ∧
      ∀ step v w, Leads ops.rendering want found (.part step v w) →
        (compare w v (ops.follow step)).Yields [] := by
  obtain ⟨hlabels, hparts, hlacks⟩ := (accord_iff_of_entered hentered).mp
    ((yields_nil_iff_accord hops hwant.self.keyed hentered.toInspected).mp h)
  have hback :=
    not_lacks_symm hentered.identity halike hentered.parallel hwant.self hfound.self hlabels
    hlacks
  rw [yields_nil_iff_accord hops hfound.self.keyed hentered.symm.toInspected,
    accord_iff_of_entered hentered.symm]
  constructor
  · rintro ⟨-, hall, -⟩
    refine ⟨fun hoverlooks ↦ ?_, fun step v w hleads ↦ ?_⟩
    · obtain ⟨step, w, hleads, hpresent, hskip⟩ := hoverlooks.exists_part halike hwant.self
        hfound.self
      have heq := isPresent_eq_of_yields_nil (hops.follow step) hskip (hall step w _ hleads)
      cases hpresent.symm.trans heq
    · by_cases hpresent : w.isPresent
      · exact hall step w v (hleads.symm hpresent hentered.identity halike hwant.self hfound.self)
      refine (compare_yields_iff (hops.follow step)).mpr ?_
      by_cases hskip : (ops.follow step).isSkipped
      · exact .skipped hskip
      · have heq := isPresent_eq_of_yields_nil (hops.follow step) hskip (hparts step v w hleads)
        exact .absent hskip ⟨hpresent, heq ▸ hpresent⟩
  · rintro ⟨hno, hall⟩
    refine ⟨hback.1, fun step w v hleads ↦ ?_, hback.2⟩
    -- Under a skipped trail a field may be passed over without any consequence.
    by_cases hskip : (ops.follow step).isSkipped
    · exact (compare_yields_iff (hops.follow step)).mpr (.skipped hskip)
    rcases hleads.leads_or_overlooks hentered halike hwant.self hfound.self hskip with
      hforth | hoverlooks
    · exact hall step v w hforth
    · exact (hno hoverlooks).elim

/-- If a comparison finds no difference, then it finds none the other way round exactly if it
nowhere passes over a field without a value where the other record has one. -/
theorem yields_nil_swap_iff (hops : ops.Unchecked)
    (hwant : want.Everywhere (Value.Regular declared filled))
    (hfound : found.Everywhere (Value.Regular declared filled))
    (halike : Value.Alike ops.rendering want found) (h : (compare want found ops).Yields []) :
    (compare found want ops).Yields [] ↔
      ∀ path u u', Arrives ops want found path u u' → ¬ Overlooks u u' (ops.descend path) := by
  induction want using Value.induction_parts generalizing found ops with
  | h want ih =>
    by_cases hentered : Entered want found ops
    · rw [yields_nil_swap_iff_of_entered hops hentered halike hwant hfound h]
      have hpart {step : Option Step} {v w : Value}
          (hleads : Leads ops.rendering want found (.part step v w)) :
          (compare w v (ops.follow step)).Yields [] ↔ ∀ path u u',
            Arrives (ops.follow step) v w path u u' →
              ¬ Overlooks u u' ((ops.follow step).descend path) := by
        have haccord := (yields_nil_iff_accord hops hwant.self.keyed hentered.toInspected).mp h
        have hparts := ((accord_iff_of_entered hentered).mp haccord).2.1
        cases hleads with
        | part hpart hfield hkey =>
          obtain ⟨hv, hw⟩ := hpart.mem_parts
          exact ih v hv (hops.follow step) (hwant.part hv) (hfound.part hw)
            (ops.follow_rendering step ▸ halike.part hv hw)
            (hparts step v w (.part hpart hfield hkey))
      constructor
      · rintro ⟨hno, hall⟩ path u u' harrives
        cases harrives with
        | start => exact hno
        | @enter _ _ _ v w _ _ step path _ hleads harrives =>
          rw [Options.descend_append]
          exact (hpart hleads).mp (hall step v w hleads) path u u' harrives
      · intro hno
        refine ⟨hno [] want found .start, fun step v w hleads ↦ (hpart hleads).mpr ?_⟩
        intro path u u' harrives
        rw [← Options.descend_append]
        exact hno _ u u' (.enter hentered hleads harrives)
    · have hpasses := (yields_nil_iff_passes hops hwant.self.keyed).mp h
      refine iff_of_true ?_ fun path u u' harrives hoverlooks ↦ ?_
      · exact (yields_nil_iff_passes hops hfound.self.keyed).mpr
          (hpasses.symm_of_not_entered hentered)
      · cases harrives with
        | start => exact hentered hoverlooks.entered
        | enter hentered' => exact hentered hentered'

end Comparison

/-! ## Samples -/

namespace Comparison

open scoped Sample

def dyn (x : Value) : Value :=
  .record "Dyn" [("x", x)]

def dynUnderKey (storage : Identity) (x : Value) : Value :=
  .map .sorted Sample.int (Sample.record "Dyn") storage [(.scalar (.integer .int 1), dyn x)]

/-- The field that is missing in the first record is there in the second one. -/
theorem yields_nil_swap_iff_dynUnderKey :
    (compare (dynUnderKey 1 (.scalar (.integer .int 1))) (dynUnderKey 0 .absent) {}).Yields [] ↔
      ∀ path u u', Arrives {} (dynUnderKey 0 .absent) (dynUnderKey 1 (.scalar (.integer .int 1)))
        path u u' → ¬ Overlooks u u' (Options.descend {} path) := by
  have hwant : (dynUnderKey 0 .absent).Everywhere
      (Value.Regular (fun _ ↦ ["x"]) fun _ ↦ true) := by decide
  have hfound : (dynUnderKey 1 (.scalar (.integer .int 1))).Everywhere
      (Value.Regular (fun _ ↦ ["x"]) fun _ ↦ true) := by decide
  have halike : (dynUnderKey 0 .absent).Alike {}
      (dynUnderKey 1 (.scalar (.integer .int 1))) := by decide
  have hyields : (compare (dynUnderKey 0 .absent) (dynUnderKey 1 (.scalar (.integer .int 1)))
      {}).Yields [] := by decide
  exact yields_nil_swap_iff ⟨rfl, rfl⟩ hwant hfound halike hyields

def skipUpper : Options where
  skipTrails := ["[\"A\"]"]

/-- A field without a value passes whatever it is compared with, but not the other way round.  Under
a comparator that folds case a value may stand under a skipped trail on one side alone, and of two
comparators one may take keys for equal which the other one does not. -/
theorem not_yields_nil_swap :
    (¬ ∀ (declared : Text → List Text) (filled : Ty → Bool) (want found : Value) (ops : Options),
      ops.Unchecked → want.Everywhere (Value.Regular declared filled) →
      found.Everywhere (Value.Regular declared filled) → want.Alike ops.rendering found →
      ((compare want found ops).Yields [] ↔ (compare found want ops).Yields [])) ∧
    ((compare (Sample.foldedMap 0 0 "A" 1) (Sample.foldedMap 0 1 "a" 2) skipUpper).Yields [] ∧
      ¬ (compare (Sample.foldedMap 0 1 "a" 2) (Sample.foldedMap 0 0 "A" 1) skipUpper).Yields []) ∧
    ((compare (Sample.foldedMap 1 0 "a" 1) (Sample.foldedMap 0 1 "A" 1) {}).Yields [] ∧
      ¬ (compare (Sample.foldedMap 0 1 "A" 1) (Sample.foldedMap 1 0 "a" 1) {}).Yields []) := by
  refine ⟨fun h ↦ ?_, by decide, by decide⟩
  have hwant : (dyn .absent).Everywhere (Value.Regular (fun _ ↦ ["x"]) fun _ ↦ true) := by decide
  have hfound : (dyn (.scalar (.integer .int 1))).Everywhere
      (Value.Regular (fun _ ↦ ["x"]) fun _ ↦ true) := by decide
  have halike : (dyn .absent).Alike {} (dyn (.scalar (.integer .int 1))) := by decide
  have hforth : (compare (dyn .absent) (dyn (.scalar (.integer .int 1))) {}).Yields [] := by decide
  have hback := (h _ _ _ _ {} ⟨rfl, rfl⟩ hwant hfound halike).mp hforth
  revert hback
  decide

end Comparison

end Discrepancy
