import Discrepancy.Proofs.Passing

/-!
# Literal keys

Truth values, integers and strings are literals, which equal themselves whatever a map takes for
equal.  What a map with literal keys has under a key of another map is therefore an entry with an
equal key, and two maps have equal keys when they are of one size and none is lacking on one side.
Comparisons name keys by their labels; so it matters whether equal keys have one label.
-/

namespace Discrepancy

namespace Value

def LiteralKeys : Value → Prop
  | map _ _ _ _ entries => ∀ entry ∈ entries, entry.1.IsLiteral
  | _ => True

instance : DecidablePred LiteralKeys
  | map _ _ _ _ entries => inferInstanceAs (Decidable (∀ entry ∈ entries, entry.1.IsLiteral))
  | absent | hidden _ | scalar _ | pointer .. | record .. | sequence .. | interface .. =>
    isTrue trivial

variable [Host]

/-- A map with literal keys, none of which comes twice. -/
structure LiterallyKeyed (v : Value) : Prop where
  keyed : v.Keyed
  literal : v.LiteralKeys

/-- The keys of two maps which are equal to the first one have one label. -/
def SharesLabels (r : Rendering) : Value → Value → Prop
  | map rule _ _ _ entries, map _ _ _ _ others => ∀ entry ∈ entries, ∀ other ∈ others,
    rule.same entry.1 other.1 → (r.keyLabel entry.1).result = (r.keyLabel other.1).result
  | _, _ => True

instance (r : Rendering) : ∀ v w : Value, Decidable (v.SharesLabels r w)
  | map rule _ _ _ entries, map _ _ _ _ others => inferInstanceAs (Decidable
      (∀ entry ∈ entries, ∀ other ∈ others,
        rule.same entry.1 other.1 → (r.keyLabel entry.1).result = (r.keyLabel other.1).result))
  | map .., absent | map .., hidden _ | map .., scalar _ | map .., pointer .. | map .., record ..
  | map .., sequence .. | map .., interface .. | absent, _ | hidden _, _ | scalar _, _
  | pointer .., _ | record .., _ | sequence .., _ | interface .., _ => isTrue trivial

/-- Maps of one type within two values take only keys of one label for equal. -/
def LabelledAlike (r : Rendering) (v w : Value) : Prop :=
  ∀ u ∈ v.subvalues, ∀ u' ∈ w.subvalues, u.identity? = u'.identity? → u.SharesLabels r u'

instance (r : Rendering) (v w : Value) : Decidable (LabelledAlike r v w) :=
  inferInstanceAs (Decidable (∀ u ∈ v.subvalues, ∀ u' ∈ w.subvalues,
    u.identity? = u'.identity? → u.SharesLabels r u'))

theorem LabelledAlike.part {r : Rendering} {v w u u' : Value} (h : LabelledAlike r v w)
    (hu : u ∈ v.parts) (hu' : u' ∈ w.parts) : LabelledAlike r u u' := by
  intro x hx x' hx'
  exact h x (mem_subvalues_iff.mpr ((mem_subvalues_iff.mp hx).part hu)) x'
    (mem_subvalues_iff.mpr ((mem_subvalues_iff.mp hx').part hu'))

theorem LabelledAlike.sharesLabels {r : Rendering} {v w : Value} (h : LabelledAlike r v w)
    (hidentity : v.identity? = w.identity?) : v.SharesLabels r w :=
  h v (mem_subvalues_iff.mpr .self) w (mem_subvalues_iff.mpr .self) hidentity

/-- Maps of one type within two values go by one rule, which takes only keys of one label for
equal. -/
structure Alike (r : Rendering) (v w : Value) : Prop where
  agreeing : Agreeing v w
  labelled : LabelledAlike r v w

instance (r : Rendering) (v w : Value) : Decidable (Alike r v w) :=
  decidable_of_iff (Agreeing v w ∧ LabelledAlike r v w)
    ⟨fun ⟨h₁, h₂⟩ ↦ ⟨h₁, h₂⟩, fun h ↦ ⟨h.agreeing, h.labelled⟩⟩

theorem Alike.part {r : Rendering} {v w u u' : Value} (h : Alike r v w) (hu : u ∈ v.parts)
    (hu' : u' ∈ w.parts) : Alike r u u' :=
  ⟨h.agreeing.part hu hu', h.labelled.part hu hu'⟩

/-- To be alike is symmetric, since equality of keys is. -/
theorem Alike.symm [LawfulHost] {r : Rendering} {v w : Value} (h : Alike r v w) : Alike r w v where
  agreeing u hu u' hu' hidentity rule hrule rule' hrule' :=
    (h.agreeing u' hu' u hu hidentity.symm rule' hrule' rule hrule).symm
  labelled u hu u' hu' hidentity := by
    have hlabels := h.labelled u' hu' u hu hidentity.symm
    have hrule := h.agreeing u' hu' u hu hidentity.symm
    unfold SharesLabels
    split
    · intro entry hentry other hother hsame
      obtain rfl := hrule _ rfl _ rfl
      exact (hlabels other hother entry hentry (KeyRule.same_symm hsame)).symm
    · trivial

end Value

/-! ## Maps with literal keys -/

namespace Comparison

variable [Host] [LawfulHost] {r : Rendering} {rule : KeyRule} {key key' mapped mapped' : Ty}
  {storage storage' : Identity} {entries others : List (Value × Value)} {k v w : Value}

/-- What one map finds under a key of another is an entry of its own with an equal key. -/
theorem find?_eq_some_iff_exists
    (hwant : (Value.map rule key mapped storage entries).LiterallyKeyed)
    (hfound : (Value.map rule key' mapped' storage' others).LiterallyKeyed)
    (hmem : (k, v) ∈ entries) :
    Table.find? rule k others = some w ↔ ∃ k', (k', w) ∈ others ∧ rule.same k' k :=
  Table.find?_eq_some_iff hfound.keyed.2
    (KeyRule.same_self_of_literal rule (hwant.literal _ hmem))
    fun other hother ↦ KeyRule.same_self_of_literal rule (hfound.literal other hother)

/-- Where no key is lacking, every key has a value in the other map. -/
theorem exists_mem_of_not_lacks
    (hwant : (Value.map rule key mapped storage entries).LiterallyKeyed)
    (hfound : (Value.map rule key' mapped' storage' others).LiterallyKeyed)
    (hlabels : r.Labels (.map rule key mapped storage entries))
    (hlacks : ∀ label, ¬ Lacks r (.map rule key mapped storage entries)
      (.map rule key' mapped' storage' others) label)
    (hmem : (k, v) ∈ entries) : ∃ k' w, (k', w) ∈ others ∧ rule.same k' k ∧ w.isPresent := by
  by_contra hnone
  have hlabel := Rendering.keyLabel_yields (hlabels _ hmem)
  refine hlacks _ (.intro hmem (fun w hw hpresent ↦ hnone ?_) hlabel)
  obtain ⟨k', hmem', hsame⟩ := (find?_eq_some_iff_exists hwant hfound hmem).mp hw
  exact ⟨k', w, hmem', hsame, hpresent⟩

/-- Of two maps of one size neither has keys of its own if the first has none. -/
theorem exists_mem_of_length
    (hwant : (Value.map rule key mapped storage entries).LiterallyKeyed)
    (hfound : (Value.map rule key' mapped' storage' others).LiterallyKeyed)
    (hlength : entries.length = others.length)
    (hforth : ∀ k v, (k, v) ∈ entries → ∃ k' w, (k', w) ∈ others ∧ rule.same k' k)
    (hmem : (k, w) ∈ others) : ∃ k' v, (k', v) ∈ entries ∧ rule.same k' k := by
  have hcount := Table.length_le_of_found hwant.keyed.2
    (fun entry hentry ↦ KeyRule.same_self_of_literal rule (hwant.literal entry hentry))
    (fun other hother ↦ KeyRule.same_self_of_literal rule (hfound.literal other hother))
    fun k v hentry ↦ by
      obtain ⟨k', w, hmem', hsame⟩ := hforth k v hentry
      rw [(find?_eq_some_iff_exists hwant hfound hentry).mpr ⟨k', hmem', hsame⟩]
      rfl
  obtain ⟨v, hv⟩ := Option.isSome_iff_exists.mp (hcount.2 (Nat.le_of_eq hlength.symm) k w hmem)
  obtain ⟨k', hmem', hsame⟩ := (find?_eq_some_iff_exists hfound hwant hmem).mp hv
  exact ⟨k', v, hmem', hsame⟩

omit [LawfulHost] in
/-- A label of a key is one of an equal key. -/
theorem keyLabel_of_same {label : Text} {k' : Value}
    (hlabels : (Value.map rule key mapped storage entries).SharesLabels r
      (.map rule key' mapped' storage' others))
    (hmem : (k, v) ∈ entries) (hmem' : (k', w) ∈ others) (hsame : rule.same k k') :
    (r.keyLabel k).Yields label ↔ (r.keyLabel k').Yields label := by
  rw [Outcome.Yields, Outcome.Yields, hlabels _ hmem _ hmem' hsame]

end Comparison

end Discrepancy
