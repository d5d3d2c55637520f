import Discrepancy.Proofs.Equality
import Discrepancy.Proofs.Literals

/-!
# Transitivity

If nothing is told of a first and a second value, and nothing of the second and a third one, then
nothing is told of the first and the third one.  A part that the outer two have in common has a
counterpart in the value between them, under the same step and the same trail.  Containers in one
storage are one value, whichever two of the three share it.  For this the fields of records need
fixed names, and equal keys need one label: otherwise a part may stand under a skipped trail in one
of the two comparisons and not in the third.
-/

namespace Discrepancy

open Outcome

namespace Value

/-- Parts are hidden only as fields of records, and which of them are is fixed by the type. -/
def Masked (shown : Text → List Bool) : Value → Prop
  | record name fields => fields.map (fun field ↦ field.2.isAccessible) = shown name
  | v => ∀ u ∈ v.parts, u.isAccessible

instance (shown : Text → List Bool) : DecidablePred (Masked shown)
  | record name fields => inferInstanceAs (Decidable
      (fields.map (fun field ↦ field.2.isAccessible) = shown name))
  | absent | hidden _ | scalar _ => isTrue nofun
  | pointer form target pointee => inferInstanceAs (Decidable
      (∀ u ∈ (pointer form target pointee).parts, u.isAccessible))
  | sequence _ _ _ elements => inferInstanceAs (Decidable (∀ u ∈ elements, u.isAccessible))
  | map _ _ _ _ entries => inferInstanceAs (Decidable
      (∀ u ∈ flatEntries entries, u.isAccessible))
  | interface _ _ content => inferInstanceAs (Decidable (∀ u ∈ [content], u.isAccessible))

variable [Host]

/-- A value made from an object, with literal keys and with the hidden fields of its types. -/
structure Uniform (declared : Text → List Text) (shown : Text → List Bool) (v : Value) : Prop
    extends Made declared v where
  literal : v.LiteralKeys
  masked : v.Masked shown

instance (declared : Text → List Text) (shown : Text → List Bool) :
    DecidablePred (Uniform declared shown) := fun v ↦
  decidable_of_iff (v.Made declared ∧ v.LiteralKeys ∧ v.Masked shown)
    ⟨fun ⟨h₁, h₂, h₃⟩ ↦ ⟨h₁, h₂, h₃⟩, fun h ↦ ⟨h.toMade, h.literal, h.masked⟩⟩

theorem Uniform.literallyKeyed {declared : Text → List Text} {shown : Text → List Bool} {v : Value}
    (h : v.Uniform declared shown) : v.LiterallyKeyed :=
  ⟨h.keyed, h.literal⟩

end Value

namespace Comparison

variable [Host] [LawfulHost] {declared : Text → List Text} {shown : Text → List Bool}
  {r : Rendering} {a b c v w : Value} {ops : Options} {step : Option Step}

omit [LawfulHost] in
/-- Parts under one step are both hidden or both not. -/
theorem Part.isAccessible_eq (h : Part r a b step v w) (hidentity : a.identity? = b.identity?)
    (ha : a.Masked shown) (hb : b.Masked shown) : v.isAccessible = w.isAccessible := by
  obtain ⟨hv, hw⟩ := h.mem_parts
  cases h with
  | @field record record' _ _ fields others _ _ i hfield hother =>
    obtain rfl := Value.record_identity_inj.mp hidentity
    have hmask := Value.eq_of_map_eq (ha.trans hb.symm) hfield hother
    exact hmask
  | pointee => exact (ha v hv).trans (hb w hw).symm
  | content => exact (ha v hv).trans (hb w hw).symm
  | element => exact (ha v hv).trans (hb w hw).symm
  | mapped => exact (ha v hv).trans (hb w hw).symm

omit [LawfulHost] in
/-- Under a key that is not lacking there is a value. -/
theorem Part.isPresent_of_not_lacks (h : Part r a b step v w)
    (hlacks : ∀ label, ¬ Lacks r a b label) {label : Text} (hstep : step = some (.key label)) :
    w.isPresent := by
  cases h with
  | mapped hmem hfind hlabel =>
    by_contra habsent
    refine hlacks _ (.intro hmem (fun w' hw' ↦ ?_) hlabel)
    rwa [← Option.some.inj (hfind.symm.trans hw')]
  | _ => cases hstep

/-! ## Three values side by side -/

/-- Three values that go side by side, with literal keys of which the second map lacks none of the
first one's. -/
structure Chained (r : Rendering) (declared : Text → List Text) (shown : Text → List Bool)
    (a b c : Value) : Prop where
  first : a.Uniform declared shown
  second : b.Uniform declared shown
  third : c.Uniform declared shown
  identity : a.identity? = b.identity?
  identity' : b.identity? = c.identity?
  alike : a.Alike r b
  agreeing : Value.Agreeing b c
  parallel : a.Parallel b
  labels : r.Labels a
  lacks : ∀ label, ¬ Lacks r a b label

namespace Chained

/-- What the outer values have in common has a counterpart in the one between them. -/
theorem exists_part (h : Chained r declared shown a b c) (hpart : Part r a c step v w) :
    ∃ u, Part r a b step v u ∧ Part r b c step u w := by
  have hparallel := h.parallel
  cases hpart with
  | pointee =>
    cases b with
    | pointer form target pointee =>
      rcases pointee with _ | ⟨object, u⟩
      · exact hparallel.elim
      · exact ⟨u, .pointee, .pointee⟩
    | _ => exact hparallel.elim
  | content =>
    cases b with
    | interface type alternative u => exact ⟨u, .content, .content⟩
    | _ => exact hparallel.elim
  | @field record record' name name' fields others _ _ i hv hw =>
    cases b with
    | record record'' middle =>
      obtain rfl := Value.record_identity_inj.mp h.identity
      obtain ⟨⟨name'', u⟩, hu⟩ := Value.exists_getElem?_of_length hparallel hv
      obtain rfl : name = name'' :=
        Value.eq_of_map_eq (h.first.declared.trans h.second.declared.symm) hv hu
      exact ⟨u, .field i hv hu, .field i hu hw⟩
    | _ => exact hparallel.elim
  | @element _ _ _ _ _ _ elements others _ _ i hv hw =>
    cases b with
    | sequence form element storage middle =>
      obtain ⟨u, hu⟩ := Value.exists_getElem?_of_length hparallel hv
      exact ⟨u, .element i hv hu, .element i hu hw⟩
    | _ => exact hparallel.elim
  | @mapped rule _ key _ mapped _ _ _ entries others k _ _ _ hmem hfind hlabel =>
    cases b with
    | map rule' key' mapped' storage' middle =>
      obtain rfl := h.alike.agreeing.rule_eq h.identity
      obtain rfl := h.agreeing.rule_eq h.identity'
      have hkeys := h.first.literallyKeyed
      have hkeys' := h.second.literallyKeyed
      obtain ⟨k', u, hu, hsame, -⟩ := exists_mem_of_not_lacks hkeys hkeys' h.labels h.lacks hmem
      have hsame' := KeyRule.same_symm hsame
      rw [Table.find?_congr hsame'] at hfind
      exact ⟨u, .mapped hmem ((find?_eq_some_iff_exists hkeys hkeys' hmem).mpr ⟨k', hu, hsame⟩)
        hlabel, .mapped hu hfind ((keyLabel_of_same (h.alike.labelled.sharesLabels h.identity) hmem
          hu hsame').mp hlabel)⟩
    | _ => exact hparallel.elim

/-- A key which the third value lacks is lacking from the second on. -/
theorem exists_lacks {label : Text} (h : Chained r declared shown a b c)
    (hlacks : Lacks r a c label) : ∃ label, Lacks r b c label := by
  have hparallel := h.parallel
  cases hlacks with
  | @intro rule _ key _ mapped _ _ _ entries others k _ _ hmem hfound hlabel =>
    cases b with
    | map rule' key' mapped' storage' middle =>
      obtain rfl := h.alike.agreeing.rule_eq h.identity
      obtain rfl := h.agreeing.rule_eq h.identity'
      obtain ⟨k', u, hu, hsame, -⟩ := exists_mem_of_not_lacks h.first.literallyKeyed
        h.second.literallyKeyed h.labels h.lacks hmem
      have hsame' := KeyRule.same_symm hsame
      rw [Table.find?_congr hsame'] at hfound
      exact ⟨label, .intro hu hfound ((keyLabel_of_same
        (h.alike.labelled.sharesLabels h.identity) hmem hu hsame').mp hlabel)⟩
    | _ => exact hparallel.elim

/-- Where the outer values lead to, the one between them leads as well, as long as nothing is
missing on the way. -/
theorem exists_leads (h : Chained r declared shown a b c)
    (hleads : Leads r a c (.part step v w)) :
    ∃ u, Leads r a b (.part step v u) ∧
      (v.isPresent = u.isPresent → Leads r b c (.part step u w)) := by
  cases hleads with
  | part hpart hfield hkey =>
    obtain ⟨u, hvu, huw⟩ := h.exists_part hpart
    exact ⟨u, .part hvu hfield fun _ ↦ hvu.isPresent_of_not_lacks h.lacks,
      fun hpresent ↦ .part huw (fun name hstep ↦ hpresent ▸ hfield name hstep) hkey⟩

/-- The outer values accord by their storage or in their parts. -/
theorem accord {p : Option Step → Value → Value → Prop} (h : Chained r declared shown a b c)
    (hparallel : b.Parallel c) (hlacks : ∀ label, ¬ Lacks r b c label)
    (hparts : ∀ step v w, Leads r a c (.part step v w) → p step v w) : Accord r p a c := by
  have hparallel' := h.parallel.trans hparallel
  by_cases hshared : a.SharesStorage c
  · exact .shared hparallel'.size hshared
  · refine .parts hparallel' hshared h.labels hparts fun label hlacking ↦ ?_
    obtain ⟨label, hlacking⟩ := h.exists_lacks hlacking
    exact hlacks label hlacking

/-- One step: parts of the outer values pass if those of the value between them pass and parts that
go side by side can be chained. -/
theorem yields_nil_of_leads (h : Chained ops.rendering declared shown a b c) (hops : ops.Unchecked)
    (hparts : ∀ step v u, Leads ops.rendering a b (.part step v u) →
      (compare v u (ops.follow step)).Yields [])
    (hchain : ∀ step v u w, Leads ops.rendering a b (.part step v u) →
      Leads ops.rendering b c (.part step u w) → (compare v w (ops.follow step)).Yields [])
    (hleads : Leads ops.rendering a c (.part step v w)) :
    (compare v w (ops.follow step)).Yields [] := by
  -- A skipped part may be there on one side only, so that it need not be gone on with.
  by_cases hskip : (ops.follow step).isSkipped
  · exact (compare_yields_iff (hops.follow step)).mpr (.skipped hskip)
  obtain ⟨u, hvu, huw⟩ := h.exists_leads hleads
  have hpresent := isPresent_eq_of_yields_nil (hops.follow step) hskip (hparts step v u hvu)
  exact hchain step v u w hvu (huw hpresent)

end Chained

/-! ## Chains of comparisons -/

omit [LawfulHost] in
/-- What passes after a value that is looked at is looked at as well. -/
theorem Passes.accord_of_accessible (h : Passes b c ops) (hskip : ¬ ops.isSkipped)
    (hpresent : b.isPresent) (haccessible : b.isAccessible ∧ c.isAccessible) :
    Inspected b c ops ∧ Accord ops.rendering
      (fun step v w ↦ (compare v w (ops.follow step)).Yields []) b c := by
  cases h with
  | skipped hskipped => exact (hskip hskipped).elim
  | absent habsent => exact (habsent.1 hpresent).elim
  | hidden _ hhidden => exact (hhidden haccessible).elim
  | accord hinspected h => exact ⟨hinspected, h⟩

/-- If a first value compares without a difference with a second one, and that one with a third one,
then the first one does with the third one. -/
theorem yields_nil_trans (hops : ops.Unchecked) (ha : a.Everywhere (Value.Uniform declared shown))
    (hb : b.Everywhere (Value.Uniform declared shown))
    (hc : c.Everywhere (Value.Uniform declared shown)) (hab : Value.Coherent a b)
    (hbc : Value.Coherent b c) (halike : a.Alike ops.rendering b)
    (hagreeing : Value.Agreeing b c) (haccess : a.isAccessible = b.isAccessible)
    (haccess' : b.isAccessible = c.isAccessible) (h : (compare a b ops).Yields [])
    (h' : (compare b c ops).Yields []) : (compare a c ops).Yields [] := by
  -- The way in which the first pair passes decides which ways are left to the second pair.
  induction a using Value.induction_parts generalizing b c ops with
  | h a ih =>
    have hpasses := (yields_nil_iff_passes hops ha.self.keyed).mp h
    have hpasses' := (yields_nil_iff_passes hops hb.self.keyed).mp h'
    refine (yields_nil_iff_passes hops ha.self.keyed).mpr ?_
    by_cases hskip : ops.isSkipped
    · exact .skipped hskip
    have hpresent' := isPresent_eq_of_yields_nil hops hskip h'
    cases hpasses with
    | skipped hskipped => exact (hskip hskipped).elim
    | absent habsent => exact .absent ⟨habsent.1, hpresent' ▸ habsent.2⟩
    | hidden hpresent hhidden hpass =>
      refine .hidden ⟨hpresent.1, hpresent' ▸ hpresent.2⟩ (fun haccessible ↦ ?_) hpass
      exact hhidden ⟨haccessible.1, haccess ▸ haccessible.1⟩
    | accord hinspected haccord =>
      obtain ⟨hinspected', haccord'⟩ := hpasses'.accord_of_accessible hskip hinspected.present.2
        ⟨hinspected.accessible.2, haccess' ▸ hinspected.accessible.2⟩
      have hinspected'' := hinspected.trans hinspected'
      cases haccord with
      | scalars hst =>
        cases haccord' with
        | scalars htu => exact .accord hinspected'' (.scalars (hst.trans htu))
        | shared _ hshared => exact hshared.elim
        | parts hparallel => exact hparallel.elim
      | nils =>
        cases haccord' with
        | nils => exact .accord hinspected'' .nils
        | shared _ hshared => exact hshared.elim
        | parts hparallel => exact hparallel.elim
      | shared _ hshared =>
        obtain rfl := eq_of_sharesStorage hinspected.identity hshared hab ha.self.stored
          hb.self.stored
        exact (yields_nil_iff_passes hops ha.self.keyed).mp h'
      | parts hparallel hapart hlabels hparts hlacks =>
        cases haccord' with
        | scalars => exact hparallel.symm.elim
        | nils => exact hparallel.symm.elim
        | shared _ hshared =>
          obtain rfl := eq_of_sharesStorage hinspected'.identity hshared hbc hb.self.stored
            hc.self.stored
          exact (yields_nil_iff_passes hops ha.self.keyed).mp h
        | parts hparallel' _ _ hparts' hlacks' =>
          have hchained : Chained ops.rendering declared shown a b c :=
            ⟨ha.self, hb.self, hc.self, hinspected.identity, hinspected'.identity, halike,
              hagreeing, hparallel, hlabels, hlacks⟩
          refine .accord hinspected'' (hchained.accord hparallel' hlacks' fun step v w ↦ ?_)
          refine hchained.yields_nil_of_leads hops hparts fun step v u w hvu huw ↦ ?_
          obtain ⟨hv, hu⟩ := hvu.toPart.mem_parts
          have hw := huw.toPart.mem_parts.2
          apply ih v hv (hops.follow step) (ha.part hv) (hb.part hu) (hc.part hw) (hab.part hv hu)
            (hbc.part hu hw) (ops.follow_rendering step ▸ halike.part hv hu)
            (hagreeing.part hu hw)
          · exact hvu.toPart.isAccessible_eq hinspected.identity ha.self.masked hb.self.masked
          · exact huw.toPart.isAccessible_eq hinspected'.identity hb.self.masked hc.self.masked
          · exact hparts step v u hvu
          · exact hparts' step u w huw

end Comparison

/-! ## Samples -/

namespace Comparison

open scoped Sample

/-- A map from one key to an account, of which the balance is hidden. -/
def accountUnderKey (storage : Identity) (owner : Text) : Value :=
  .map .sorted Sample.int (Sample.record "Account") storage
    [(.scalar (.integer .int 1), .record "Account"
      [("mBalance", .hidden Sample.int), ("Owner", .scalar (.string .owned (some owner)))])]

/-- Options that look neither at the owner nor at what is hidden. -/
def regardlessOfOwner : Options where
  skipTrails := ["[1].Owner"]
  skipHidden := true

theorem yields_nil_trans_accountUnderKey :
    (compare (accountUnderKey 0 "a") (accountUnderKey 2 "c") regardlessOfOwner).Yields [] := by
  have ha : (accountUnderKey 0 "a").Everywhere
      (Value.Uniform (fun _ ↦ ["mBalance", "Owner"]) fun _ ↦ [false, true]) := by decide
  have hb : (accountUnderKey 1 "b").Everywhere
      (Value.Uniform (fun _ ↦ ["mBalance", "Owner"]) fun _ ↦ [false, true]) := by decide
  have hc : (accountUnderKey 2 "c").Everywhere
      (Value.Uniform (fun _ ↦ ["mBalance", "Owner"]) fun _ ↦ [false, true]) := by decide
  have hunshared : Value.Unshared (accountUnderKey 0 "a") (accountUnderKey 1 "b") := by decide
  have hunshared' : Value.Unshared (accountUnderKey 1 "b") (accountUnderKey 2 "c") := by decide
  exact yields_nil_trans ⟨rfl, rfl⟩ ha hb hc hunshared.coherent hunshared'.coherent (by decide)
    (by decide) rfl rfl (by decide) (by decide)

def oneField (name : Text) (n : Int) : Value :=
  .record "Dyn" [(name, .scalar (.integer .int n))]

def skipLower : Options where
  skipTrails := ["y", "[\"a\"]"]

/-- Records of one type may have fields of different names, and a comparator that folds case takes
keys of different labels for equal, so that a part is skipped in one comparison and not in another.
Of two comparators one may take keys for equal which the other one does not. -/
theorem not_yields_nil_trans :
    (¬ ∀ (shown : Text → List Bool) (a b c : Value) (ops : Options), ops.Unchecked →
      (∀ v ∈ [a, b, c], v.Everywhere fun u ↦
        u.Unsealed ∧ u.Keyed ∧ u.Stored ∧ u.LiteralKeys ∧ u.Masked shown) →
      Value.Coherent a b → Value.Coherent b c → a.Alike ops.rendering b → Value.Agreeing b c →
      a.isAccessible = b.isAccessible → b.isAccessible = c.isAccessible →
      (compare a b ops).Yields [] → (compare b c ops).Yields [] → (compare a c ops).Yields []) ∧
    ((compare (Sample.foldedMap 0 0 "A" 1) (Sample.foldedMap 0 1 "a" 1) skipLower).Yields [] ∧
      (compare (Sample.foldedMap 0 1 "a" 1) (Sample.foldedMap 0 2 "a" 2) skipLower).Yields [] ∧
      ¬ (compare (Sample.foldedMap 0 0 "A" 1) (Sample.foldedMap 0 2 "a" 2) skipLower).Yields []) ∧
    ((compare (Sample.foldedMap 1 0 "a" 1) (Sample.foldedMap 0 1 "A" 1) {}).Yields [] ∧
      (compare (Sample.foldedMap 0 1 "A" 1) (Sample.foldedMap 1 2 "A" 1) {}).Yields [] ∧
      ¬ (compare (Sample.foldedMap 1 0 "a" 1) (Sample.foldedMap 1 2 "A" 1) {}).Yields []) := by
  refine ⟨fun h ↦ ?_, by decide, by decide⟩
  have hall : ∀ v ∈ [oneField "x" 1, oneField "y" 1, oneField "x" 2], v.Everywhere fun u ↦
      u.Unsealed ∧ u.Keyed ∧ u.Stored ∧ u.LiteralKeys ∧ u.Masked fun _ ↦ [true] := by decide
  have hunshared : Value.Unshared (oneField "x" 1) (oneField "y" 1) := by decide
  have hunshared' : Value.Unshared (oneField "y" 1) (oneField "x" 2) := by decide
  have hyields := h _ _ _ _ skipLower ⟨rfl, rfl⟩ hall hunshared.coherent hunshared'.coherent
    (by decide) (by decide) rfl rfl (by decide) (by decide)
  revert hyields
  decide

end Comparison

end Discrepancy
