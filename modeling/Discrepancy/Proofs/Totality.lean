import Discrepancy.Proofs.Consultation

/-!
# Comparisons return

A comparison of values which were made from objects has a result, whatever the two values are: a
fault could come from something sealed, from records of one type with different fields, or from
keys which are not of the type of their map, and objects have none of these.  What remains are
refusals of renderers and of the formatting library, and the checkers: where nothing is refused, a
comparison returns exactly if all of the checkers answer which it consults.
-/

namespace Discrepancy

open Outcome

namespace Value

/-- The fields of a record are those which are declared for its type. -/
def Declared (declared : Text → List Text) : Value → Prop
  | record name fields => fields.map Prod.fst = declared name
  | _ => True

/-- A vector without storage has no elements. -/
def Stored : Value → Prop
  | sequence .vector _ none elements => elements = []
  | _ => True

instance (declared : Text → List Text) : DecidablePred (Declared declared)
  | record name fields => inferInstanceAs (Decidable (fields.map Prod.fst = declared name))
  | absent | hidden _ | scalar _ | pointer .. | sequence .. | map .. | interface .. =>
    isTrue trivial

instance : DecidablePred Stored
  | sequence .vector _ none elements => decidable_of_iff elements.isEmpty List.isEmpty_iff
  | sequence .vector _ (some _) _ | sequence (.array _) _ _ _ | sequence (.inPlace _) _ _ _
  | absent | hidden _ | scalar _ | pointer .. | record .. | map .. | interface .. => isTrue trivial

/-- What a value keeps to that was made from an object. -/
structure Made [Host] (declared : Text → List Text) (v : Value) : Prop where
  unsealed : v.Unsealed
  keyed : v.Keyed
  declared : v.Declared declared
  stored : v.Stored

instance [Host] (declared : Text → List Text) : DecidablePred (Made declared) := fun v ↦
  decidable_of_iff (v.Unsealed ∧ v.Keyed ∧ v.Declared declared ∧ v.Stored)
    ⟨fun ⟨h₁, h₂, h₃, h₄⟩ ↦ ⟨h₁, h₂, h₃, h₄⟩, fun h ↦ ⟨h.unsealed, h.keyed, h.declared, h.stored⟩⟩

/-- A value was made from an object which the formatting library has a text for, if it is left to
it. -/
structure Genuine [Host] (declared : Text → List Text) (v : Value) : Prop extends
    Made declared v where
  formatted : v.Formatted

instance [Host] (declared : Text → List Text) : DecidablePred (Genuine declared) := fun v ↦
  decidable_of_iff (v.Made declared ∧ v.Formatted)
    ⟨fun ⟨h₁, h₂⟩ ↦ ⟨h₁, h₂⟩, fun h ↦ ⟨h.toMade, h.formatted⟩⟩

theorem Genuine.renderable [Host] {declared : Text → List Text} {v : Value}
    (h : v.Genuine declared) : v.Renderable :=
  renderable_iff.mpr ⟨h.unsealed, h.formatted⟩

/-- What was made from objects can be told wherever the formatting library has texts. -/
theorem Everywhere.genuine [Host] {declared : Text → List Text} {v : Value}
    (h : v.Everywhere (Made declared)) (hformatted : v.Everywhere Formatted) :
    v.Everywhere (Genuine declared) :=
  fun u hu ↦ ⟨h u hu, hformatted u hu⟩

theorem everywhere_absent {p : Value → Prop} (h : p absent) : absent.Everywhere p :=
  Everywhere.ofParts h (List.forall_mem_nil _)

/-- The rank of the values of a kind, sealed ones apart. -/
def rankOf : Kind → Nat
  | .invalid => 0
  | .pointer => 2
  | .record => 3
  | .array | .slice => 4
  | .map => 5
  | .interface => 6
  | _ => 1

theorem rank_eq_rankOf {v : Value} (haccessible : v.isAccessible) (hunsealed : v.Unsealed) :
    v.rank = rankOf v.kind := by
  cases v with
  | hidden type => cases haccessible
  | scalar s =>
    cases s with
    | integer type n => cases type <;> rfl
    | sealed name kind => exact (hunsealed rfl).elim
    | _ => rfl
  | sequence form element storage elements => cases form <;> rfl
  | interface type alternative content => cases type <;> rfl
  | _ => rfl

/-- Identities are of the kind of their types. -/
theorem kind_identity (t : Ty) : t.identity.kind = t.kind := by
  cases t with
  | atom a => cases a <;> rfl
  | _ => rfl

/-- Values of one type are of one make. -/
theorem rank_eq_of_identity {v w : Value} (haccessible : v.isAccessible ∧ w.isAccessible)
    (hv : v.Unsealed) (hw : w.Unsealed) (h : v.identity? = w.identity?) : v.rank = w.rank := by
  have hkind (u : Value) : u.kind = (u.identity?.map Ty.kind).getD .invalid := by
    unfold kind identity?
    cases u.ty? with
    | none => rfl
    | some t => exact (kind_identity t).symm
  rw [rank_eq_rankOf haccessible.1 hv, rank_eq_rankOf haccessible.2 hw, hkind v, hkind w, h]

end Value

namespace Comparison

theorem scalarsAgree_returns {s t : Scalar} (hs : (Value.scalar s).Unsealed)
    (ht : (Value.scalar t).Unsealed)
    (hidentity : (Value.scalar s).identity? = (Value.scalar t).identity?) :
    (scalarsAgree s t).Returns := by
  cases s <;> cases t <;> first
    | exact returns_pure _
    | exact (hs rfl).elim
    | exact (ht rfl).elim
    | simp [Value.identity?, Value.ty?, Scalar.ty, Ty.identity] at hidentity
  all_goals
    simp only [scalarsAgree, Value.equals]
    split <;> exact returns_pure _

variable [Host] {p : Fault → Prop} {declared : Text → List Text} {want found : Value}
  {ops : Options}

/-- Values of one type are of one make. -/
theorem inspect_faultsOnly (hr : ops.rendering.Confined p) (hinspected : Inspected want found ops)
    (hmade : want.Made declared ∧ found.Made declared)
    (hwant : want.Everywhere (Value.RenderableUpTo p)) : (inspect want found ops).FaultsOnly p := by
  obtain ⟨hmade, hmade'⟩ := hmade
  have hrank := Value.rank_eq_of_identity hinspected.accessible hmade.unsealed hmade'.unsealed
    hinspected.identity
  cases want with
  | absent => cases hinspected.present.1
  | hidden type => cases hinspected.accessible.1
  | scalar s =>
    cases found with
    | scalar t =>
      have hequal := scalarsAgree_returns hmade.unsealed hmade'.unsealed hinspected.identity
      exact hequal.map.faultsOnly p
    | _ => cases hrank
  | pointer form target pointee =>
    cases found with
    | pointer form' target' pointee' => cases pointee <;> cases pointee' <;> exact faultsOnly_pure _
    | _ => cases hrank
  | record name fields =>
    cases found with
    | record name' others =>
      obtain rfl := Value.record_identity_inj.mp hinspected.identity
      have hcount : fields.length = others.length := by
        have hnames : fields.map Prod.fst = others.map Prod.fst :=
          hmade.declared.trans hmade'.declared.symm
        simpa using congrArg List.length hnames
      rw [inspect, hcount, beq_self_eq_true]
      exact faultsOnly_pure _
    | _ => cases hrank
  | sequence form element storage elements =>
    cases found with
    | sequence form' element' storage' elements' =>
      rw [inspect]
      split_ifs <;> exact faultsOnly_pure _
    | _ => cases hrank
  | map rule key mapped storage entries =>
    cases found with
    | map rule' key' mapped' storage' entries' =>
      rw [inspect]
      split_ifs
      · exact faultsOnly_pure _
      · exact faultsOnly_pure _
      · exact (Rendering.sortedKeys_faultsOnly hr hwant).bind fun _ _ ↦ faultsOnly_pure _
    | _ => cases hrank
  | interface type alternative content =>
    cases found with
    | interface type' alternative' content' => exact faultsOnly_pure _
    | _ => cases hrank

theorem inspect_returns (hr : ops.rendering.Faultless) (hinspected : Inspected want found ops)
    (hwant : want.Everywhere (Value.Genuine declared))
    (hfound : found.Everywhere (Value.Genuine declared)) : (inspect want found ops).Returns :=
  returns_iff_faultsOnly.mpr <| inspect_faultsOnly hr hinspected
    ⟨hwant.self.toMade, hfound.self.toMade⟩ (hwant.mono fun _ h ↦ h.renderable)

/-! ## Conclusions -/

omit [Host] in
theorem visit_faultsOnly (skipped : Bool) : (ops.visit skipped).FaultsOnly p :=
  Returns.faultsOnly ⟨(), ops.visit_yields skipped⟩ p

theorem leaf_faultsOnly (hr : ops.rendering.Confined p)
    (hwant : want.Everywhere (Value.RenderableUpTo p))
    (hfound : found.Everywhere (Value.RenderableUpTo p)) (equal : Bool) :
    (leaf equal want found ops).FaultsOnly p := by
  refine (visit_faultsOnly false).bind fun _ _ ↦ ?_
  split
  · exact faultsOnly_pure _
  · exact (mismatch_faultsOnly hr hwant hfound).bind fun _ _ ↦ faultsOnly_pure _

theorem run_missing_faultsOnly (hr : ops.rendering.Confined p)
    (hfound : found.Everywhere (Value.RenderableUpTo p)) (label : Text) :
    ((Branch.missing label).run found ops).FaultsOnly p := by
  have habsent : Value.absent.Everywhere (Value.RenderableUpTo p) :=
    Value.everywhere_absent (.of_not_scalar nofun)
  refine (visit_faultsOnly false).bind fun _ _ ↦ ?_
  exact FaultsOnly.bind (mismatch_faultsOnly hr hfound habsent) fun _ _ ↦ faultsOnly_pure _

/-- What is left to be compared can be concluded from when the comparisons of the parts return. -/
theorem concludeWith_branches_faultsOnly {f : Value → Rest} {below : List Branch}
    (hbelow : ∀ b, b ∈ below ↔ Leads ops.rendering want found b) (hr : ops.rendering.Confined p)
    (hfound : found.Everywhere (Value.RenderableUpTo p))
    (hparts : ∀ step v w, .part step v w ∈ below → (f v w (ops.follow step)).FaultsOnly p) :
    (concludeWith f want found ops (.branches below)).FaultsOnly p := by
  refine (compositional_faultsOnly.of_sequence_map fun branch hmem ↦ ?_).bind
    fun _ _ ↦ faultsOnly_pure _
  cases (hbelow branch).mp hmem with
  | part h hfield hkey => exact hparts _ _ _ hmem
  | missing h => exact run_missing_faultsOnly hr hfound _

theorem concludeWith_faultsOnly {f : Value → Rest} {verdict : Verdict}
    (hlook : Look ops.rendering want found verdict) (hr : ops.rendering.Confined p)
    (hwant : want.Everywhere (Value.RenderableUpTo p))
    (hfound : found.Everywhere (Value.RenderableUpTo p))
    (hparts : ∀ below, verdict = .branches below → ∀ step v w, .part step v w ∈ below →
      (f v w (ops.follow step)).FaultsOnly p) :
    (concludeWith f want found ops verdict).FaultsOnly p := by
  cases verdict with
  | leaf equal => exact leaf_faultsOnly hr hwant hfound equal
  | lengths m n =>
    exact (visit_faultsOnly false).bind fun _ _ ↦
      (mismatch_faultsOnly hr hwant hfound).bind fun _ _ ↦ faultsOnly_pure _
  | branches below =>
    cases hlook with
    | branches _ _ hbelow => exact concludeWith_branches_faultsOnly hbelow hr hfound (hparts _ rfl)

/-! ## Comparisons -/

/-- What is decided without a look at the values can be told of. -/
theorem settle_faultsOnly (h : ¬ Inspected want found ops) (hr : ops.rendering.Confined p)
    (hwant : want.Everywhere (Value.RenderableUpTo p))
    (hfound : found.Everywhere (Value.RenderableUpTo p)) :
    (settle want found ops).FaultsOnly p := by
  by_cases hskip : ops.isSkipped
  · rw [settle_skipped hskip]
    exact (visit_faultsOnly true).bind fun _ _ ↦ faultsOnly_pure _
  by_cases habsent : ¬ want.isPresent ∧ ¬ found.isPresent
  · rw [settle_absent hskip habsent]
    exact (leaf_faultsOnly hr hwant hfound true).map
  by_cases hunlike : Unlike want found
  · rw [settle_unlike hskip hunlike]
    exact (leaf_faultsOnly hr hwant hfound false).map
  obtain ⟨hpresent, hpresent', hinspected⟩ := inspected_of_not_unlike hskip habsent hunlike
  rw [settle_hidden hskip ⟨hpresent, hpresent'⟩ (mt hinspected h)]
  exact (visit_faultsOnly true).bind fun _ _ ↦ faultsOnly_pure _

theorem compare_faultsOnly_of_not_inspected (h : ¬ Inspected want found ops)
    (hr : ops.rendering.Confined p) (hwant : want.Everywhere (Value.RenderableUpTo p))
    (hfound : found.Everywhere (Value.RenderableUpTo p)) :
    (compare want found ops).FaultsOnly p := by
  rw [compare_eq]
  refine (settle_faultsOnly h hr hwant hfound).bind fun settled hsettled ↦ ?_
  cases settled with
  | none => exact (h (inspected_of_settle hsettled)).elim
  | some notices => exact faultsOnly_pure _

/-- A comparison has no faults but those of renderers, of the formatting library and of the checkers
which it consults. -/
theorem compare_faultsOnly [LawfulHost] (hr : ops.rendering.Confined p)
    (hmade : want.Everywhere (Value.Made declared))
    (hmade' : found.Everywhere (Value.Made declared))
    (hwant : want.Everywhere (Value.RenderableUpTo p))
    (hfound : found.Everywhere (Value.RenderableUpTo p))
    (hanswers : ∀ c, Consults ops want found c → c.answer.FaultsOnly p) :
    (compare want found ops).FaultsOnly p := by
  induction want using Value.induction_parts generalizing found ops with
  | h want ih =>
    by_cases hinspected : Inspected want found ops
    swap
    · exact compare_faultsOnly_of_not_inspected hinspected hr hwant hfound
    cases hchecker : checker? want ops with
    | some checker =>
      rw [compare_eq_of_checker hinspected hchecker]
      exact (visit_faultsOnly false).bind fun _ _ ↦
        (hanswers _ (.here hinspected hchecker)).bind fun _ _ ↦ faultsOnly_pure _
    | none =>
      rw [compare_of_no_checker hinspected hchecker, ← concludeWith_compare]
      refine (inspect_faultsOnly hr hinspected ⟨hmade.self, hmade'.self⟩ hwant).bind
        fun verdict hverdict ↦ ?_
      have hlook := look_of_inspect hinspected.identity hmade.self.keyed hverdict
      refine concludeWith_faultsOnly hlook hr hwant hfound fun below hbelow step v w hmem ↦ ?_
      subst hbelow
      have hgoes : GoesOn want found ops step v w := ⟨hinspected, hchecker, below, hverdict, hmem⟩
      have hpart := (hlook.part_of_mem hmem).mem_parts
      exact ih v hpart.1 ((ops.follow_rendering step).symm ▸ hr) (hmade.part hpart.1)
        (hmade'.part hpart.2) (hwant.part hpart.1) (hfound.part hpart.2)
        fun c hconsults ↦ hanswers c (.further hgoes hconsults)

/-- A comparison returns exactly if the checkers answer which it consults. -/
theorem compare_returns_iff [LawfulHost] (hr : ops.rendering.Faultless)
    (hwant : want.Everywhere (Value.Genuine declared))
    (hfound : found.Everywhere (Value.Genuine declared)) :
    (compare want found ops).Returns ↔ ∀ c, Consults ops want found c → c.answer.Returns := by
  constructor
  · rintro ⟨notices, hnotices⟩ c hconsults
    obtain ⟨report, hreport, -⟩ := hconsults.exists_infix hnotices
    exact ⟨report, hreport⟩
  · intro hanswers
    exact returns_iff_faultsOnly.mpr <| compare_faultsOnly hr (hwant.mono fun _ h ↦ h.toMade)
      (hfound.mono fun _ h ↦ h.toMade) (hwant.mono fun _ h ↦ h.renderable)
      (hfound.mono fun _ h ↦ h.renderable) fun c hc ↦ returns_iff_faultsOnly.mp (hanswers c hc)

/-- A comparison without checkers returns. -/
theorem compare_returns [LawfulHost] (hops : ops.Unchecked) (hr : ops.rendering.Faultless)
    (hwant : want.Everywhere (Value.Genuine declared))
    (hfound : found.Everywhere (Value.Genuine declared)) : (compare want found ops).Returns := by
  apply (compare_returns_iff hr hwant hfound).mpr
  intro c hconsults
  exact (hops.not_registers c.checker hconsults.registers).elim

end Comparison

end Discrepancy
