import Discrepancy.Proofs.Alignment
import Discrepancy.Proofs.KeyOrder

/-!
# Soundness and completeness of comparisons

Without skipped trails and checkers a comparison returns, and it gives no notice exactly when the
two values are structurally equal.  The comparison of maps looks at the keys of one side alone: that
the other side has no further keys follows from the number of entries, if both sides have one idea
of which keys are equal.  Containers in one storage pass without a look at their parts, for which it
matters that every value equals itself.
-/

namespace Discrepancy

open Outcome

namespace Value

/-- A value is not hidden, and neither are its fields missing. -/
def Shown : Value → Prop
  | hidden _ => False
  | record _ fields => ∀ field ∈ fields, field.2.isPresent
  | _ => True

instance : DecidablePred Shown
  | hidden _ => isFalse id
  | record _ fields => inferInstanceAs (Decidable (∀ field ∈ fields, field.2.isPresent))
  | absent | scalar _ | pointer .. | sequence .. | map .. | interface .. => isTrue trivial

theorem Shown.isAccessible {v : Value} (h : v.Shown) : v.isAccessible := by
  cases v with
  | hidden type => exact h.elim
  | _ => rfl

variable [Host]

/-- Leaves and keys equal themselves, which not-a-number does not. -/
def Definite : Value → Prop
  | scalar s => s.Equal s
  | map rule _ _ _ entries => ∀ entry ∈ entries, rule.same entry.1 entry.1
  | _ => True

instance : DecidablePred Definite
  | scalar s => inferInstanceAs (Decidable (s.Equal s))
  | map rule _ _ _ entries => inferInstanceAs
      (Decidable (∀ entry ∈ entries, rule.same entry.1 entry.1))
  | absent | hidden _ | pointer .. | record .. | sequence .. | interface .. => isTrue trivial

/-- A value made from an object, of which everything can be seen and equals itself. -/
structure Plain (declared : Text → List Text) (v : Value) : Prop extends Genuine declared v where
  shown : v.Shown
  valued : v.Valued
  definite : v.Definite

instance (declared : Text → List Text) : DecidablePred (Plain declared) := fun v ↦
  decidable_of_iff (v.Genuine declared ∧ v.Shown ∧ v.Valued ∧ v.Definite)
    ⟨fun ⟨h₁, h₂, h₃, h₄⟩ ↦ ⟨h₁, h₂, h₃, h₄⟩, fun h ↦ ⟨h.toGenuine, h.shown, h.valued, h.definite⟩⟩

omit [Host]

/-- What is of one type and kept in one storage is one value. -/
def Coherent (v w : Value) : Prop :=
  ∀ u u' i, Within u v → Within u' w → u.storage? = some i → u'.storage? = some i →
    u.identity? = u'.identity? → u = u'

/-- Coherence can be checked sub-value by sub-value. -/
theorem coherent_iff {v w : Value} : Coherent v w ↔ ∀ u ∈ v.subvalues, ∀ u' ∈ w.subvalues,
    ∀ i, u.storage? = some i → u'.storage? = some i → u.identity? = u'.identity? → u = u' := by
  simp only [mem_subvalues_iff]
  exact ⟨fun h u hu u' hu' i ↦ h u u' i hu hu', fun h u u' i hu hu' ↦ h u hu u' hu' i⟩

theorem Coherent.part {v w u u' : Value} (h : Coherent v w) (hu : u ∈ v.parts)
    (hu' : u' ∈ w.parts) : Coherent u u' :=
  fun x x' i hx hx' ↦ h x x' i (hx.part hu) (hx'.part hu')

/-- What shares no storage is coherent. -/
theorem Unshared.coherent {v w : Value} (h : Unshared v w) : Coherent v w := by
  intro u u' i hu hu' hi hi' _
  rw [h u u' hu hu' (hi.trans hi'.symm)] at hi
  cases hi

end Value

namespace Comparison

variable [Host] {declared : Text → List Text} {want found : Value} {ops : Options}

/-- A field is present where no field is missing. -/
theorem Part.isPresent_of_field {r : Rendering} {step : Option Step} {v w : Value}
    (h : Part r want found step v w) (hshown : want.Shown) {name : Text}
    (hstep : step = some (.field name)) : v.isPresent := by
  cases h with
  | field i hwant hfound => exact hshown _ (List.mem_of_getElem? hwant)
  | _ => cases hstep

variable [LawfulHost]

/-- Every value equals itself. -/
theorem equal_self {v : Value} (h : v.Everywhere (Value.Plain declared)) : Equal v v := by
  induction v using Value.induction_parts with
  | h v ih =>
    have hpart {u : Value} (hu : u ∈ v.parts) : Equal u u := ih u hu (h.part hu)
    cases v with
    | absent => exact .absent
    | hidden type => exact h.self.shown.elim
    | scalar s => exact .scalar rfl h.self.definite
    | pointer form target pointee =>
      rcases pointee with _ | ⟨object, u⟩
      · exact .nil
      · exact .pointer (hpart (by simp [Value.parts]))
    | record name fields =>
      refine .record rfl fun i field other hfield hother ↦ ?_
      obtain rfl : field = other := Option.some.inj (hfield.symm.trans hother)
      exact hpart (List.mem_map_of_mem (List.mem_of_getElem? hfield))
    | sequence form element storage elements =>
      refine .sequence rfl fun i u u' hu hu' ↦ ?_
      obtain rfl : u = u' := Option.some.inj (hu.symm.trans hu')
      exact hpart (List.mem_of_getElem? hu)
    | map rule key mapped storage entries =>
      have hfind (k u : Value) (hmem : (k, u) ∈ entries) :
          Table.find? rule k entries = some u :=
        Table.find?_of_mem h.self.keyed.2 hmem (.inr (h.self.definite _ hmem))
      have hsome (k u : Value) (hmem : (k, u) ∈ entries) :
          (Table.find? rule k entries).isSome := by
        rw [hfind k u hmem]
        rfl
      refine .map rfl trivial hsome hsome (fun k u u' hu hu' ↦ ?_) fun k u u' hu' hu ↦ ?_
      · obtain rfl : u = u' := Option.some.inj ((hfind k u hu).symm.trans hu')
        exact hpart (Value.mapped_mem_parts hu)
      · obtain rfl : u' = u := Option.some.inj ((hfind k u' hu').symm.trans hu)
        exact hpart (Value.mapped_mem_parts hu')
    | interface type alternative content => exact .interface (hpart List.mem_cons_self)

/-- Equal containers have the same size. -/
theorem Equal.size (h : Equal want found) (hagreeing : Value.Agreeing want found)
    (hwant : want.Plain declared) (hfound : found.Plain declared) : want.size? = found.size? := by
  cases h with
  | sequence hlength => exact congrArg some hlength
  | map hform hcount hforth hback =>
    obtain rfl := hagreeing.rule_eq (Value.map_identity_inj.mpr ⟨hform, rfl, rfl⟩)
    have hle := (Table.length_le_of_found hwant.keyed.2 hwant.definite hfound.definite hforth).1
    have hle' := (Table.length_le_of_found hfound.keyed.2 hfound.definite hwant.definite hback).1
    exact congrArg some (Nat.le_antisymm hle hle')
  | _ => rfl

omit [Host] [LawfulHost] in
/-- Containers in one storage are one value. -/
theorem eq_of_sharesStorage (hidentity : want.identity? = found.identity?)
    (hshared : want.SharesStorage found) (hcoherent : Value.Coherent want found)
    (hwant : want.Stored) (hfound : found.Stored) : want = found := by
  cases want with
  | sequence form element storage elements =>
    cases found with
    | sequence form' element' storage' elements' =>
      obtain ⟨rfl, rfl⟩ := hshared
      obtain ⟨rfl, rfl⟩ := Value.sequence_identity_inj.mp hidentity
      cases storage with
      | none =>
        obtain rfl : elements = [] := hwant
        obtain rfl : elements' = [] := hfound
        rfl
      | some i => exact hcoherent _ _ i .self .self rfl rfl hidentity
    | _ => cases hshared
  | map rule key mapped storage entries =>
    cases found with
    | map rule' key' mapped' storage' entries' =>
      obtain rfl : storage = storage' := hshared
      exact hcoherent _ _ storage .self .self rfl rfl hidentity
    | _ => cases hshared
  | _ => cases hshared

/-- Maps of one size are equal when the keys of one find equal values in the other.  That the other
has no further keys is a count. -/
theorem equal_of_entries {rule : KeyRule} {key mapped : Ty} {storage storage' : Identity}
    {entries others : List (Value × Value)}
    (hwant : (Value.map rule key mapped storage entries).Plain declared)
    (hfound : (Value.map rule key mapped storage' others).Plain declared)
    (hlength : entries.length = others.length)
    (hforth : ∀ k v, (k, v) ∈ entries → (Table.find? rule k others).isSome)
    (hvalues : ∀ k v w, (k, v) ∈ entries → Table.find? rule k others = some w → Equal v w) :
    Equal (.map rule key mapped storage entries) (.map rule key mapped storage' others) := by
  have hcount := Table.length_le_of_found hwant.keyed.2 hwant.definite hfound.definite hforth
  have hback := hcount.2 (Nat.le_of_eq hlength.symm)
  refine .map rfl trivial hforth hback hvalues fun k v w hmem hfind ↦ ?_
  obtain ⟨k', hmem', hsame⟩ := Table.exists_same_of_find? (hfound.definite _ hmem)
    hwant.definite hfind
  apply hvalues k' v w hmem'
  rw [Table.find?_congr hsame]
  exact Table.find?_of_mem hfound.keyed.2 hmem (.inr (hfound.definite _ hmem))

/-- Values side by side are equal when their parts are and no key is lacking. -/
theorem equal_of_parts {r : Rendering} (hr : r.Faultless) (hagreeing : Value.Agreeing want found)
    (hidentity : want.identity? = found.identity?) (hparallel : want.Parallel found)
    (hwant : want.Everywhere (Value.Plain declared)) (hfound : found.Plain declared)
    (hparts : ∀ step v w, Part r want found step v w → Equal v w)
    (hlacks : ∀ label, ¬ Lacks r want found label) : Equal want found := by
  cases want with
  | pointer form target pointee =>
    rcases pointee with _ | ⟨object, v⟩
    · exact hparallel.elim
    cases found with
    | pointer form' target' pointee' =>
      rcases pointee' with _ | ⟨object', w⟩
      · exact hparallel.elim
      obtain ⟨rfl, rfl⟩ := Value.pointer_identity_inj.mp hidentity
      exact .pointer (hparts _ v w .pointee)
    | _ => exact hparallel.elim
  | record name fields =>
    cases found with
    | record name' others =>
      obtain rfl := Value.record_identity_inj.mp hidentity
      exact .record hparallel fun i field other hfield hother ↦
        hparts _ field.2 other.2 (.field i hfield hother)
    | _ => exact hparallel.elim
  | sequence form element storage elements =>
    cases found with
    | sequence form' element' storage' others =>
      obtain ⟨rfl, rfl⟩ := Value.sequence_identity_inj.mp hidentity
      exact .sequence hparallel fun i v w hv hw ↦ hparts _ v w (.element i hv hw)
    | _ => exact hparallel.elim
  | map rule key mapped storage entries =>
    cases found with
    | map rule' key' mapped' storage' others =>
      obtain rfl := hagreeing.rule_eq hidentity
      obtain ⟨-, rfl, rfl⟩ := Value.map_identity_inj.mp hidentity
      have hlabel (k v : Value) (hmem : (k, v) ∈ entries) : (r.keyLabel k).Yields (r.label k) :=
        Rendering.keyLabel_yields (hr.labels (hwant.mono fun _ h ↦ h.renderable) (k, v) hmem)
      apply equal_of_entries hwant.self hfound hparallel
      · intro k v hmem
        by_contra hnone
        refine hlacks _ (.intro hmem (fun w hw ↦ absurd ?_ hnone) (hlabel k v hmem))
        rw [hw]
        rfl
      · intro k v w hmem hfind
        exact hparts _ v w (.mapped hmem hfind (hlabel k v hmem))
    | _ => exact hparallel.elim
  | interface type alternative content =>
    cases found with
    | interface type' alternative' content' =>
      obtain rfl : type = type' := by
        cases type <;> cases type' <;> cases hidentity <;> rfl
      exact .interface (hparts _ content content' .content)
    | _ => exact hparallel.elim
  | _ => exact hparallel.elim

/-- The conclusion from a look is that there is nothing to tell exactly where the values are equal,
if so it is for their parts. -/
theorem conclude_yields_nil_iff {verdict : Verdict} (hr : ops.rendering.Faultless)
    (hlook : Look ops.rendering want found verdict) (hidentity : want.identity? = found.identity?)
    (hwant : want.Everywhere (Value.Plain declared))
    (hfound : found.Everywhere (Value.Plain declared)) (hcoherent : Value.Coherent want found)
    (hagreeing : Value.Agreeing want found)
    (hparts : ∀ step v w, Part ops.rendering want found step v w →
      ((compare v w (ops.follow step)).Yields [] ↔ Equal v w)) :
    (conclude want found ops verdict).Yields [] ↔ Equal want found := by
  cases hlook with
  | @scalars s t =>
    refine leaf_yields_nil.trans <| decide_eq_true_iff.trans
      ⟨fun h ↦ .scalar (Option.some.inj hidentity) h, fun h ↦ ?_⟩
    cases h with
    | scalar _ hleaf => exact hleaf
  | @nils form form' target target' =>
    obtain ⟨rfl, rfl⟩ := Value.pointer_identity_inj.mp hidentity
    exact leaf_yields_nil.trans (iff_of_true rfl .nil)
  | oneNil hone =>
    refine leaf_yields_nil.trans (iff_of_false Bool.false_ne_true fun h ↦ ?_)
    cases h <;> exact hone rfl
  | lengths hm hn hne =>
    refine iff_of_false (fun h ↦ ?_) fun h ↦ ?_
    · obtain ⟨notice, -, hnotice⟩ := lengthMismatch_yields.mp h
      cases hnotice
    · have hsize := h.size hagreeing hwant.self hfound.self
      exact hne (Option.some.inj (hm.symm.trans (hsize.trans hn)))
  | shared hsize hshared =>
    obtain rfl := eq_of_sharesStorage hidentity hshared hcoherent hwant.self.stored
      hfound.self.stored
    exact leaf_yields_nil.trans (iff_of_true rfl (equal_self hwant))
  | branches hparallel hapart hbelow =>
    rw [conclude_branches_yields_nil]
    constructor
    · intro h
      refine equal_of_parts hr hagreeing hidentity hparallel hwant hfound.self
        (fun step v w hpart ↦ ?_) fun label hlacks ↦ ?_
      · exact (hparts step v w hpart).mp (h _ ((hbelow _).mpr (.part hpart
          (fun _ ↦ hpart.isPresent_of_field hwant.self.shown)
          fun _ ↦ hpart.isPresent_of_key hfound.self.valued)))
      · obtain ⟨notice, -, hnotice⟩ :=
          run_missing_yields.mp (h _ ((hbelow _).mpr (.missing hlacks)))
        cases hnotice
    · intro h branch hbranch
      cases (hbelow branch).mp hbranch with
      | part hpart hfield hkey => exact (hparts _ _ _ hpart).mpr (h.part hpart)
      | missing hlacks => exact (h.not_lacks hfound.self.valued _ hlacks).elim

/-- Where renderers return, no notice and structural equality come to the same. -/
theorem compare_yields_nil_iff (hops : ops.Unchecked) (hskip : ops.skipTrails = [])
    (hr : ops.rendering.Faultless) (hwant : want.Everywhere (Value.Plain declared))
    (hfound : found.Everywhere (Value.Plain declared)) (hcoherent : Value.Coherent want found)
    (hagreeing : Value.Agreeing want found) :
    (compare want found ops).Yields [] ↔ Equal want found := by
  induction want using Value.induction_parts generalizing found ops with
  | h want ih =>
    have hunskipped : ¬ ops.isSkipped := by simp [Options.isSkipped, hskip]
    have hconclude {verdict : Verdict} (hinspected : Inspected want found ops)
        (hverdict : (inspect want found ops).Yields verdict) :
        (conclude want found ops verdict).Yields [] ↔ Equal want found :=
      conclude_yields_nil_iff hr (look_of_inspect hinspected.identity hwant.self.keyed hverdict)
        hinspected.identity hwant hfound hcoherent hagreeing fun step v w hpart ↦
          ih v hpart.mem_parts.1 (hops.follow step) ((ops.follow_skipTrails step).trans hskip)
            ((ops.follow_rendering step).symm ▸ hr) (hwant.part hpart.mem_parts.1)
            (hfound.part hpart.mem_parts.2) (hcoherent.part hpart.mem_parts.1 hpart.mem_parts.2)
            (hagreeing.part hpart.mem_parts.1 hpart.mem_parts.2)
    constructor
    · intro h
      generalize hnil : ([] : List Notice) = notices at h
      cases (compare_yields_iff hops).mp h with
      | skipped hskipped => exact (hunskipped hskipped).elim
      | absent _ habsent =>
        rw [Value.eq_absent habsent.1, Value.eq_absent habsent.2]
        exact .absent
      | unlike => cases hnil
      | hidden _ _ hhidden => exact (hhidden ⟨hwant.self.shown.isAccessible,
          hfound.self.shown.isAccessible⟩).elim
      | inspected hinspected hverdict hnotices =>
        exact (hconclude hinspected hverdict).mp (hnil ▸ hnotices)
    · intro h
      by_cases hpresent : want.isPresent
      · have hinspected := h.inspected hunskipped hpresent
        obtain ⟨verdict, hverdict⟩ := inspect_returns hr hinspected
          (hwant.mono fun _ h ↦ h.toGenuine) (hfound.mono fun _ h ↦ h.toGenuine)
        exact (compare_yields_of_inspected hops hinspected).mpr
          ⟨verdict, hverdict, (hconclude hinspected hverdict).mpr h⟩
      · exact (compare_yields_iff hops).mpr (.absent hunskipped ⟨hpresent, h.isPresent ▸ hpresent⟩)

/-- A comparison without skipped trails and checkers returns, if the registered renderers do, and it
gives no notice exactly when the values are structurally equal. -/
theorem compare_nil_iff_equal (hops : ops.Unchecked) (hskip : ops.skipTrails = [])
    (hr : ops.rendering.Faultless) (hwant : want.Everywhere (Value.Plain declared))
    (hfound : found.Everywhere (Value.Plain declared)) (hcoherent : Value.Coherent want found)
    (hagreeing : Value.Agreeing want found) :
    ∃ notices, (compare want found ops).Yields notices ∧ (notices = [] ↔ Equal want found) := by
  obtain ⟨notices, hnotices⟩ := compare_returns hops hr (hwant.mono fun _ h ↦ h.toGenuine)
    (hfound.mono fun _ h ↦ h.toGenuine)
  refine ⟨notices, hnotices, ?_⟩
  rw [← compare_yields_nil_iff hops hskip hr hwant hfound hcoherent hagreeing]
  exact ⟨fun h ↦ h ▸ hnotices, fun h ↦ hnotices.unique h⟩

end Comparison

/-! ## Samples -/

namespace Comparison

open scoped Sample

def pairMap (storage : Identity) (k n : Int) : Value :=
  .map .sorted Sample.int Sample.int storage
    [(.scalar (.integer .int k), .scalar (.integer .int n))]

/-- Maps with different values under one key. -/
theorem compare_nil_iff_equal_pairMap :
    ∃ notices, (compare (pairMap 0 1 2) (pairMap 1 1 3) {}).Yields notices ∧
      (notices = [] ↔ Equal (pairMap 0 1 2) (pairMap 1 1 3)) := by
  have hwant : (pairMap 0 1 2).Everywhere (Value.Plain fun _ ↦ []) := by decide
  have hfound : (pairMap 1 1 3).Everywhere (Value.Plain fun _ ↦ []) := by decide
  have hunshared : Value.Unshared (pairMap 0 1 2) (pairMap 1 1 3) := by decide
  exact compare_nil_iff_equal ⟨rfl, rfl⟩ rfl Rendering.faultless_empty hwant hfound
    hunshared.coherent (by decide)

/-- A vector with one span, the number of whose seconds is not a number. -/
def undefinedSpans : Value :=
  let seconds : AtomTy := .float .double
  .sequence .vector (.atom (.span seconds ⟨1, 1⟩)) (some 0) [.scalar (.span seconds ⟨1, 1⟩ .nan)]

/-- A renderer that refuses a key keeps equal maps from being compared.  Nothing is told where
complex numbers are the same in double precision, where the counts of spans in one storage are not
numbers, and where only one of two comparators takes the keys for equal. -/
theorem not_compare_nil_iff_equal :
    (¬ ∀ (declared : Text → List Text) (want found : Value) (ops : Options), ops.Unchecked →
      ops.skipTrails = [] → want.Everywhere (Value.Plain declared) →
      found.Everywhere (Value.Plain declared) → Value.Coherent want found →
      Value.Agreeing want found → ((compare want found ops).Yields [] ↔ Equal want found)) ∧
    ((compare (preciseComplex (.finite false (2 ^ 60 + 1) (-60))) (preciseComplex (.ofInt 1))
        {}).Yields [] ∧ ¬ (Binary.finite false (2 ^ 60 + 1) (-60)).SameSize (.ofInt 1)) ∧
    ((compare undefinedSpans undefinedSpans {}).Yields [] ∧
      ¬ Equal undefinedSpans undefinedSpans) ∧
    ((compare (Sample.foldedMap 1 0 "a" 1) (Sample.foldedMap 0 1 "A" 1) {}).Yields [] ∧
      ¬ Equal (Sample.foldedMap 1 0 "a" 1) (Sample.foldedMap 0 1 "A" 1)) := by
  refine ⟨fun h ↦ ?_, ⟨by decide +kernel, by decide +kernel⟩, ⟨by decide, fun h ↦ ?_⟩,
    ⟨by decide, fun h ↦ ?_⟩⟩
  · have hwant : (pairMap 0 1 2).Everywhere (Value.Plain fun _ ↦ []) := by decide
    have hfound : (pairMap 1 1 2).Everywhere (Value.Plain fun _ ↦ []) := by decide
    have hcoherent : Value.Coherent (pairMap 0 1 2) (pairMap 1 1 2) :=
      Value.Unshared.coherent (by decide)
    have hdefault : (compare (pairMap 0 1 2) (pairMap 1 1 2) {}).Yields [] := by decide
    have hequal : Equal (pairMap 0 1 2) (pairMap 1 1 2) :=
      (compare_yields_nil_iff ⟨rfl, rfl⟩ rfl Rendering.faultless_empty hwant hfound hcoherent
        (by decide)).mp hdefault
    have hyields := (h _ _ _ { rendering := ({} : Rendering).register Sample.int .byte }
      ⟨rfl, rfl⟩ rfl hwant hfound hcoherent (by decide)).mpr hequal
    revert hyields
    decide
  · cases h with
    | sequence hlength hparts =>
      cases hparts 0 _ _ rfl rfl with
      | scalar _ hleaf =>
        revert hleaf
        decide
  · cases h with
    | map hform hcount hforth hback =>
      have hfound := hback (.scalar (.string .owned (some "A"))) _ List.mem_cons_self
      revert hfound
      decide

end Comparison

end Discrepancy
