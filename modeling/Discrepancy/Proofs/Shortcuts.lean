import Discrepancy.Proofs.Equality
import Discrepancy.Proofs.Passing
import Discrepancy.Proofs.Thorough

/-!
# Storage as a shortcut

A comparison takes containers in one storage to be equal without a look at their parts.  For values
that are equal to themselves this is a shortcut and nothing else: whatever a thorough comparison
tells, the comparison tells the same.  Where the storage is not the same both go through the same
parts; where it is, the two containers are one value, of which a thorough comparison with itself
has nothing to tell.  Only a registered renderer that fails on a key makes the two differ, for the
shortcut does not ask for labels.
-/

namespace Discrepancy

open Outcome

namespace Value

variable [Host]

/-- A value made from an object which is equal to itself: leaves and keys are, no mapped value is
missing, and nothing is hidden unless hidden values count as equal. -/
structure Stable (declared : Text → List Text) (skipHidden : Bool) (v : Value) : Prop
    extends Made declared v where
  valued : v.Valued
  definite : v.Definite
  seen : v.isAccessible ∨ skipHidden

instance (declared : Text → List Text) (skipHidden : Bool) :
    DecidablePred (Stable declared skipHidden) := fun v ↦
  decidable_of_iff (v.Made declared ∧ v.Valued ∧ v.Definite ∧ (v.isAccessible ∨ skipHidden))
    ⟨fun ⟨h₁, h₂, h₃, h₄⟩ ↦ ⟨h₁, h₂, h₃, h₄⟩, fun h ↦ ⟨h.toMade, h.valued, h.definite, h.seen⟩⟩

/-- Two containers of one size are kept in one storage. -/
def Shortened (v w : Value) : Prop :=
  v.SharesStorage w ∧ v.size? = w.size?

end Value

theorem Options.follow_skipHidden (ops : Options) (step : Option Step) :
    (ops.follow step).skipHidden = ops.skipHidden := by
  cases step <;> rfl

namespace Comparison

variable [Host] {declared : Text → List Text} {r : Rendering} {want found v w : Value}
  {ops : Options}
  {step : Option Step} {notices : List Notice} {f g : Value → Rest}

/-! ## Looks -/

theorem inspectThoroughly_eq_inspect (h : ¬ want.Shortened found) :
    inspectThoroughly want found ops = inspect want found ops := by
  cases want with
  | sequence form element storage elements =>
    cases found with
    | sequence form' element' storage' others =>
      rw [inspectThoroughly, inspect]
      split_ifs with hlength hshared
      · rfl
      · refine (h ⟨?_, ?_⟩).elim
        · rwa [Bool.and_eq_true, beq_iff_eq, beq_iff_eq] at hshared
        · simpa [Value.size?] using hlength
      · rfl
    | _ => rfl
  | map rule key mapped storage entries =>
    cases found with
    | map rule' key' mapped' storage' others =>
      rw [inspectThoroughly, inspect]
      split_ifs with hlength hshared
      · rfl
      · refine (h ⟨?_, ?_⟩).elim
        · rwa [beq_iff_eq] at hshared
        · simpa [Value.size?] using hlength
      · rfl
    | _ => rfl
  | _ => rfl

/-- A thorough look at containers in one storage finds all that a comparison could go on with. -/
theorem exists_branches_of_shortened [LawfulHost] {verdict : Verdict} (h : want.Shortened found)
    (hidentity : want.identity? = found.identity?) (hkeyed : want.Keyed)
    (hverdict : (inspectThoroughly want found ops).Yields verdict) :
    ∃ below, verdict = .branches below ∧ ∀ b, b ∈ below ↔ Leads ops.rendering want found b := by
  obtain ⟨hshared, hsize⟩ := h
  cases want with
  | sequence form element storage elements =>
    cases found with
    | sequence form' element' storage' others =>
      have hlength : elements.length = others.length := Option.some.inj hsize
      rw [inspectThoroughly, if_neg (by simp [hlength]), yields_pure] at hverdict
      exact ⟨_, hverdict.symm, fun _ ↦ mem_elementBranches_iff_leads⟩
    | _ => exact hshared.elim
  | map rule key mapped storage entries =>
    cases found with
    | map rule' key' mapped' storage' others =>
      obtain ⟨hform, rfl, rfl⟩ := Value.map_identity_inj.mp hidentity
      have hlength : entries.length = others.length := Option.some.inj hsize
      rw [inspectThoroughly, if_neg (by simp [hlength])] at hverdict
      obtain ⟨keys, hkeys, hverdict⟩ := yields_bind.mp hverdict
      exact ⟨_, (yields_pure.mp hverdict).symm, fun _ ↦ mem_keyBranches hform hkeyed hkeys⟩
    | _ => exact hshared.elim
  | _ => exact hshared.elim

/-! ## Layers -/

/-- How a layer comes by its notices. -/
theorem layer_yields (hops : ops.Unchecked) :
    (layer f want found ops).Yields notices ↔
      (settle want found ops).Yields (some notices) ∨ Inspected want found ops ∧
        ∃ verdict, (inspectThoroughly want found ops).Yields verdict ∧
          (concludeWith f want found ops verdict).Yields notices := by
  rw [layer, yields_bind]
  constructor
  · rintro ⟨settled, hsettled, h⟩
    cases settled with
    | none => exact .inr ⟨inspected_of_settle hsettled, yields_bind.mp h⟩
    | some notices' => exact .inl (yields_pure.mp h ▸ hsettled)
  · rintro (hsettled | ⟨hinspected, h⟩)
    · exact ⟨_, hsettled, yields_pure.mpr rfl⟩
    · refine ⟨none, ?_, yields_bind.mpr h⟩
      rw [settle_inspected hops hinspected]
      exact yields_pure.mpr rfl

/-- Where the storage is no shortcut, a comparison goes layer by layer. -/
theorem compare_eq_layer (h : ¬ want.Shortened found) :
    compare want found ops = layer compare want found ops := by
  rw [compare_eq, layer, inspectThoroughly_eq_inspect h, concludeWith_compare]
  refine bind_congr fun settled ↦ ?_
  cases settled <;> rfl

theorem compare_yields_of_settle (h : (settle want found ops).Yields (some notices)) :
    (compare want found ops).Yields notices := by
  rw [compare_eq]
  exact h.bind (yields_pure.mpr rfl)

/-- What comes of one way of comparing parts comes of another one, if so it is for each branch. -/
theorem concludeWith_mono {verdict : Verdict}
    (h : ∀ below, verdict = .branches below → ∀ branch ∈ below, ∀ part,
      (branch.runWith f found ops).Yields part → (branch.runWith g found ops).Yields part)
    (hnotices : (concludeWith f want found ops verdict).Yields notices) :
    (concludeWith g want found ops verdict).Yields notices := by
  cases verdict with
  | branches below =>
    obtain ⟨parts, hparts, rfl⟩ := concludeWith_branches_yields.mp hnotices
    refine concludeWith_branches_yields.mpr ⟨parts, ?_, rfl⟩
    exact ((List.forall₂_and_left _ _).mpr ⟨h below rfl, hparts⟩).imp fun _ part ⟨himp, hrun⟩ ↦
      himp part hrun
  | leaf equal => exact hnotices
  | lengths m n => exact hnotices

/-! ## Values compared with themselves -/

/-- A part of a value and itself is twice the same. -/
theorem Part.eq_of_self [LawfulHost] (h : Part r want want step v w) (hkeyed : want.Keyed)
    (hdefinite : want.Definite) : v = w := by
  cases h with
  | pointee => rfl
  | content => rfl
  | field i hv hw => rw [(Prod.mk.inj (Option.some.inj (hv.symm.trans hw))).2]
  | element i hv hw => exact Option.some.inj (hv.symm.trans hw)
  | mapped hmem hfind hlabel =>
    have hown := Table.find?_of_mem hkeyed.2 hmem (.inr (hdefinite _ hmem))
    exact Option.some.inj (hown.symm.trans hfind)

/-- A map lacks none of its own keys. -/
theorem not_lacks_self [LawfulHost] (hkeyed : want.Keyed) (hvalued : want.Valued)
    (hdefinite : want.Definite) (label : Text) : ¬ Lacks r want want label := by
  intro h
  cases h with
  | intro hmem hnone hlabel =>
    exact hnone _ (Table.find?_of_mem hkeyed.2 hmem (.inr (hdefinite _ hmem))) (hvalued _ hmem)

/-- Nothing is settled of a value and itself but that it is equal. -/
theorem eq_nil_of_settle_self (hops : ops.Unchecked) (hseen : want.isAccessible ∨ ops.skipHidden)
    (h : (settle want want ops).Yields (some notices)) : notices = [] := by
  cases (compare_yields_iff hops).mp (compare_yields_of_settle h) with
  | skipped => rfl
  | absent => rfl
  | unlike _ hunlike =>
    cases hunlike with
    | absent hne => exact (hne rfl).elim
    | types _ _ hne => exact (hne rfl).elim
  | hidden _ _ hhidden =>
    exact if_pos (hseen.resolve_left fun haccessible ↦ hhidden ⟨haccessible, haccessible⟩)
  | inspected hinspected =>
    rw [settle_inspected hops hinspected] at h
    cases yields_pure.mp h

/-- A thorough comparison has nothing to tell of a value and itself. -/
theorem eq_nil_of_thorough_self [LawfulHost] (hops : ops.Unchecked)
    (hwant : want.Everywhere (Value.Stable declared ops.skipHidden))
    (h : (compareThoroughly want want ops).Yields notices) : notices = [] := by
  induction want using Value.induction_parts generalizing ops notices with
  | h want ih =>
    have hself := hwant.self
    have hbranches {below : List Branch}
        (hbelow : ∀ b, b ∈ below ↔ Leads ops.rendering want want b)
        (hnotices : (concludeWith compareThoroughly want want ops
          (.branches below)).Yields notices) : notices = [] := by
      obtain ⟨parts, hparts, rfl⟩ := concludeWith_branches_yields.mp hnotices
      refine List.flatten_eq_nil_iff.mpr fun part hpart ↦ ?_
      obtain ⟨branch, hbranch, hrun⟩ := exists_of_mem_right hparts hpart
      cases (hbelow branch).mp hbranch with
      | missing hlacks =>
        exact (not_lacks_self hself.keyed hself.valued hself.definite _ hlacks).elim
      | @part step u u' hleads =>
        obtain rfl := hleads.eq_of_self hself.keyed hself.definite
        have hu := hleads.mem_parts.1
        exact ih u hu (hops.follow step) ((ops.follow_skipHidden step).symm ▸ hwant.part hu) hrun
    rw [compareThoroughly_eq] at h
    rcases (layer_yields hops).mp h with hsettled | ⟨hinspected, verdict, hverdict, hnotices⟩
    · exact eq_nil_of_settle_self hops hself.seen hsettled
    by_cases hshort : want.Shortened want
    · obtain ⟨below, rfl, hbelow⟩ := exists_branches_of_shortened hshort rfl hself.keyed hverdict
      exact hbranches hbelow hnotices
    rw [inspectThoroughly_eq_inspect hshort] at hverdict
    cases look_of_inspect rfl hself.keyed hverdict with
    | @scalars s =>
      have hequal : s.Equal s := hself.definite
      rw [decide_eq_true hequal] at hnotices
      exact leaf_yields_true.mp hnotices
    | nils => exact leaf_yields_true.mp hnotices
    | oneNil hone => exact (hone rfl).elim
    | lengths hm hn hne => exact (hne (Option.some.inj (hm.symm.trans hn))).elim
    | shared => exact leaf_yields_true.mp hnotices
    | branches _ _ hbelow => exact hbranches hbelow hnotices

/-! ## Both comparisons -/

theorem inspectThoroughly_returns (hr : ops.rendering.Faultless)
    (hinspected : Inspected want found ops) (hwant : want.Everywhere (Value.Genuine declared))
    (hfound : found.Everywhere (Value.Genuine declared)) :
    (inspectThoroughly want found ops).Returns := by
  by_cases hshort : want.Shortened found
  · have hshared := hshort.1
    cases want with
    | sequence form element storage elements =>
      cases found with
      | sequence form' element' storage' others =>
        rw [inspectThoroughly]
        split_ifs <;> exact returns_pure _
      | _ => exact hshared.elim
    | map rule key mapped storage entries =>
      cases found with
      | map rule' key' mapped' storage' others =>
        have hlabels := hr.labels (hwant.mono fun _ h ↦ h.renderable)
        rw [inspectThoroughly]
        split_ifs
        · exact returns_pure _
        · exact Returns.bind ⟨_, Rendering.sortedKeys_yields.mpr ⟨hlabels, rfl⟩⟩
            fun _ ↦ returns_pure _
      | _ => exact hshared.elim
    | _ => exact hshared.elim
  · rw [inspectThoroughly_eq_inspect hshort]
    exact inspect_returns hr hinspected hwant hfound

/-- A thorough comparison returns as a comparison does. -/
theorem compareThoroughly_returns [LawfulHost] (hops : ops.Unchecked) (hr : ops.rendering.Faultless)
    (hwant : want.Everywhere (Value.Genuine declared))
    (hfound : found.Everywhere (Value.Genuine declared)) :
    (compareThoroughly want found ops).Returns := by
  induction want using Value.induction_parts generalizing found ops with
  | h want ih =>
    have hrenderable : want.Everywhere Value.Renderable := hwant.mono fun _ h ↦ h.renderable
    have hrenderable' : found.Everywhere Value.Renderable := hfound.mono fun _ h ↦ h.renderable
    have hparts (step : Option Step) (v w : Value)
        (hpart : Part ops.rendering want found step v w) :
        (compareThoroughly v w (ops.follow step)).Returns :=
      ih v hpart.mem_parts.1 (hops.follow step) ((ops.follow_rendering step).symm ▸ hr)
        (hwant.part hpart.mem_parts.1) (hfound.part hpart.mem_parts.2)
    obtain ⟨notices, hnotices⟩ := compare_returns hops hr hwant hfound
    rw [compare_eq] at hnotices
    obtain ⟨settled, hsettled, -⟩ := yields_bind.mp hnotices
    rw [compareThoroughly_eq]
    cases settled with
    | some notices => exact ⟨notices, (layer_yields hops).mpr (.inl hsettled)⟩
    | none =>
      have hinspected := inspected_of_settle hsettled
      obtain ⟨verdict, hverdict⟩ := inspectThoroughly_returns hr hinspected hwant hfound
      have hconclude : (concludeWith compareThoroughly want found ops verdict).Returns := by
        by_cases hshort : want.Shortened found
        · obtain ⟨below, rfl, hbelow⟩ := exists_branches_of_shortened hshort hinspected.identity
            hwant.self.keyed hverdict
          exact returns_iff_faultsOnly.mpr (concludeWith_branches_faultsOnly hbelow hr hrenderable'
            fun step v w hmem ↦ (hparts step v w ((hbelow _).mp hmem).toPart).faultsOnly _)
        · rw [inspectThoroughly_eq_inspect hshort] at hverdict
          have hlook := look_of_inspect hinspected.identity hwant.self.keyed hverdict
          refine returns_iff_faultsOnly.mpr (concludeWith_faultsOnly hlook hr hrenderable
            hrenderable' fun below hbelow step v w hmem ↦ ?_)
          subst hbelow
          exact (hparts step v w (hlook.part_of_mem hmem)).faultsOnly _
      obtain ⟨notices, hnotices⟩ := hconclude
      exact ⟨notices, (layer_yields hops).mpr (.inr ⟨hinspected, verdict, hverdict, hnotices⟩)⟩

/-- What a thorough comparison tells, a comparison tells. -/
theorem compare_yields_of_thorough [LawfulHost] (hops : ops.Unchecked)
    (hwant : want.Everywhere (Value.Stable declared ops.skipHidden))
    (hfound : found.Everywhere Value.Stored) (hcoherent : Value.Coherent want found)
    (h : (compareThoroughly want found ops).Yields notices) :
    (compare want found ops).Yields notices := by
  induction want using Value.induction_parts generalizing found ops notices with
  | h want ih =>
    have hthorough := h
    rw [compareThoroughly_eq] at h
    -- Containers in one storage are one value, so that no induction is needed below them.
    rcases (layer_yields hops).mp h with hsettled | ⟨hinspected, verdict, hverdict, hnotices⟩
    · exact compare_yields_of_settle hsettled
    by_cases hshort : want.Shortened found
    · obtain rfl := eq_of_sharesStorage hinspected.identity hshort.1 hcoherent
        hwant.self.stored hfound.self
      obtain rfl := eq_nil_of_thorough_self hops hwant hthorough
      refine (compare_yields_of_inspected hops hinspected).mpr ⟨.leaf true, ?_, ?_⟩
      · rw [inspect_of_sharesStorage hshort.2 hshort.1, yields_pure]
      · exact leaf_yields_true.mpr rfl
    rw [compare_eq_layer hshort]
    refine (layer_yields hops).mpr (.inr ⟨hinspected, verdict, hverdict, ?_⟩)
    refine concludeWith_mono (fun below hbelow branch hbranch part hrun ↦ ?_) hnotices
    subst hbelow
    rw [inspectThoroughly_eq_inspect hshort] at hverdict
    cases look_of_inspect hinspected.identity hwant.self.keyed hverdict with
    | branches _ _ hleads =>
      cases branch with
      | part step v w =>
        obtain ⟨hv, hw⟩ := ((hleads _).mp hbranch).toPart.mem_parts
        exact ih v hv (hops.follow step) ((ops.follow_skipHidden step).symm ▸ hwant.part hv)
          (hfound.part hw) (hcoherent.part hv hw) hrun
      | missing label => exact hrun
      | refused fault => exact hrun

/-- A comparison and a thorough one return, if the registered renderers and the formatting library
do, and tell the same.  Whatever these do, a comparison tells what a thorough one tells. -/
theorem yields_of_thorough [LawfulHost] (hops : ops.Unchecked)
    (hwant : want.Everywhere (Value.Stable declared ops.skipHidden))
    (hfound : found.Everywhere (Value.Stable declared ops.skipHidden))
    (hcoherent : Value.Coherent want found) :
    (ops.rendering.Faultless → want.Everywhere Value.Formatted → found.Everywhere Value.Formatted →
        ∃ notices, (compareThoroughly want found ops).Yields notices ∧
          (compare want found ops).Yields notices) ∧
      ∀ notices, (compareThoroughly want found ops).Yields notices →
        (compare want found ops).Yields notices := by
  have hforth (notices : List Notice) (h : (compareThoroughly want found ops).Yields notices) :
      (compare want found ops).Yields notices :=
    compare_yields_of_thorough hops hwant (hfound.mono fun _ h ↦ h.stored) hcoherent h
  refine ⟨fun hr hformatted hformatted' ↦ ?_, hforth⟩
  obtain ⟨notices, hnotices⟩ := compareThoroughly_returns hops hr
    ((hwant.mono fun _ h ↦ h.toMade).genuine hformatted)
    ((hfound.mono fun _ h ↦ h.toMade).genuine hformatted')
  exact ⟨notices, hnotices, hforth notices hnotices⟩

end Comparison

/-! ## Samples -/

namespace Comparison

open scoped Sample

def mapAndInt (n : Int) : Value :=
  .record "Pair" [("First", pairMap 0 1 2), ("Second", .scalar (.integer .int n))]

def secondsDiffer : Notice where
  header := "expected values to be equal"
  trail := "Second"
  rows := [⟨"want", "3"⟩, ⟨"have", "4"⟩]

/-- The maps in one storage are passed over, and the integers differ. -/
theorem yields_of_thorough_mapAndInt :
    (∃ notices, (compareThoroughly (mapAndInt 3) (mapAndInt 4) {}).Yields notices ∧
        (compare (mapAndInt 3) (mapAndInt 4) {}).Yields notices) ∧
      (compare (mapAndInt 3) (mapAndInt 4) {}).Yields [secondsDiffer] := by
  have hwant : (mapAndInt 3).Everywhere (Value.Stable (fun _ ↦ ["First", "Second"]) false) := by
    decide
  have hfound : (mapAndInt 4).Everywhere (Value.Stable (fun _ ↦ ["First", "Second"]) false) := by
    decide
  have hcoherent : Value.Coherent (mapAndInt 3) (mapAndInt 4) := by
    rw [Value.coherent_iff]
    simp [mapAndInt, pairMap, Value.subvalues, Value.fieldSubvalues, Value.entrySubvalues,
      Value.storage?]
  have hthorough : (compareThoroughly (mapAndInt 3) (mapAndInt 4) {}).Yields [secondsDiffer] := by
    decide
  exact ⟨(yields_of_thorough ⟨rfl, rfl⟩ hwant hfound hcoherent).1 Rendering.faultless_empty
      (by decide) (by decide),
    (yields_of_thorough ⟨rfl, rfl⟩ hwant hfound hcoherent).2 _ hthorough⟩

/-- A renderer that refuses a key keeps a map from being compared with itself thoroughly, and spans
in one storage whose counts are not numbers do not compare as equal. -/
theorem not_yields_iff_thorough :
    (¬ ∀ (declared : Text → List Text) (want found : Value) (ops : Options) (notices : List Notice),
      ops.Unchecked → want.Everywhere (Value.Stable declared ops.skipHidden) →
      found.Everywhere (Value.Stable declared ops.skipHidden) → Value.Coherent want found →
      ((compare want found ops).Yields notices ↔
        (compareThoroughly want found ops).Yields notices)) ∧
    ((compare undefinedSpans undefinedSpans {}).Yields [] ∧
      ¬ (compareThoroughly undefinedSpans undefinedSpans {}).Yields []) := by
  refine ⟨fun h ↦ ?_, by decide, by decide⟩
  have hwant : (pairMap 0 1 2).Everywhere (Value.Stable (fun _ ↦ []) false) := by decide
  have hcoherent : Value.Coherent (pairMap 0 1 2) (pairMap 0 1 2) := by
    rw [Value.coherent_iff]
    simp [pairMap, Value.subvalues, Value.entrySubvalues, Value.storage?]
  let ops : Options := { rendering := ({} : Rendering).register Sample.int .byte }
  have hyields : (compare (pairMap 0 1 2) (pairMap 0 1 2) ops).Yields [] := by decide
  have hthorough := (h _ _ _ ops [] ⟨rfl, rfl⟩ hwant hwant hcoherent).mp hyields
  revert hthorough
  decide

end Comparison

end Discrepancy
