import Discrepancy.Proofs.Correspondence
import Discrepancy.Proofs.Equality

/-!
# Missing keys

Two maps of one size which are kept apart are compared key by key, in the order of the labels, and
every key of the first one gets its part of the notices.  The part says that the key is missing
exactly when the second map does not map it to a value that is present.  A key which is there is
therefore told to be missing where its value is absent, as the values of a unit type are; in maps
whose values are all present this never happens, and equal copies pass.
-/

namespace Discrepancy

open Outcome

namespace Value

variable [Host]

def MapsTo : (container key value : Value) → Prop
  | map rule _ _ _ entries, key, value => ∃ entry ∈ entries, rule.same entry.1 key ∧ entry.2 = value
  | _, _, _ => False

/-- What a map has under its keys is present where no value is absent. -/
theorem MapsTo.isPresent {container key value : Value} (h : container.MapsTo key value)
    (hvalued : container.Valued) : value.isPresent := by
  cases container with
  | map rule keyType mapped storage entries =>
    obtain ⟨entry, hmem, -, rfl⟩ := h
    exact hvalued entry hmem
  | _ => exact h.elim

/-- A map finds what it has under a key. -/
theorem find?_eq_some_iff_mapsTo [LawfulHost] {rule : KeyRule} {key mapped : Ty}
    {storage : Identity} {entries : List (Value × Value)} {k w : Value}
    (hkeyed : (map rule key mapped storage entries).Keyed)
    (hself : (map rule key mapped storage entries).Definite) (hk : rule.same k k) :
    Table.find? rule k entries = some w ↔
      (map rule key mapped storage entries).MapsTo k w := by
  rw [Table.find?_eq_some_iff hkeyed.2 hk hself]
  constructor
  · rintro ⟨k', hmem, hsame⟩
    exact ⟨(k', w), hmem, hsame, rfl⟩
  · rintro ⟨⟨k', w'⟩, hmem, hsame, rfl⟩
    exact ⟨k', hmem, hsame⟩

/-- Two maps of one type and one size which are kept apart, all keys of which equal themselves. -/
inductive Opposite : Value → Value → Prop
  | intro {rule rule' : KeyRule} {key mapped : Ty} {storage storage' : Identity}
      {entries others : List (Value × Value)} (hform : rule.form = rule'.form)
      (hwant : (map rule key mapped storage entries).Keyed)
      (hfound : (map rule' key mapped storage' others).Keyed)
      (hself : (map rule key mapped storage entries).Definite)
      (hself' : (map rule' key mapped storage' others).Definite)
      (hsize : entries.length = others.length) (hapart : storage ≠ storage') :
      Opposite (map rule key mapped storage entries) (map rule' key mapped storage' others)

end Value

namespace Comparison

variable [Host]

/-- What is told of a key of a map, which is given with its label: that another map has no value
for it, or what the comparison of the two values tells. -/
inductive KeyAccount (want found : Value) (ops : Options) : Text × Value → List Notice → Prop
  | missing {label : Text} {k : Value} {notice : Notice}
      (hmissing : ∀ w, found.MapsTo k w → ¬ w.isPresent)
      (hnotice : (mismatch found .absent (ops.below (.key label)).toContext).Yields notice) :
      KeyAccount want found ops (label, k) [notice]
  | paired {label : Text} {k v w : Value} {part : List Notice} (hwant : want.MapsTo k v)
      (hfound : found.MapsTo k w) (hpresent : w.isPresent)
      (hpart : (compare v w (ops.below (.key label))).Yields part) :
      KeyAccount want found ops (label, k) part

variable {declared : Text → List Text} {want found : Value} {ops : Options} {notices : List Notice}

/-- Of the branch of a key comes what is told of the key. -/
theorem run_keyBranch_yields [LawfulHost] {rule rule' : KeyRule} {key mapped : Ty}
    {storage storage' : Identity} {entries others : List (Value × Value)} {k v : Value}
    {label : Text} {part : List Notice}
    (hopposite : Value.Opposite (.map rule key mapped storage entries)
      (.map rule' key mapped storage' others)) (hmem : (k, v) ∈ entries) :
    ((keyBranch (.map rule' key mapped storage' others) rule entries label k).run
        (.map rule' key mapped storage' others) ops).Yields part ↔
      KeyAccount (.map rule key mapped storage entries) (.map rule' key mapped storage' others)
        ops (label, k) part := by
  obtain ⟨hform, hkeyed, hkeyed', hself, hself', -, -⟩ := hopposite
  have hk : rule.same k k := hself (k, v) hmem
  have hown (v' : Value) (h : (Value.map rule key mapped storage entries).MapsTo k v') :
      v' = v := by
    have hfind : Table.find? rule k entries = some v :=
      Table.find?_of_mem hkeyed.2 hmem (.inr hk)
    have hfind' := (Value.find?_eq_some_iff_mapsTo hkeyed hself hk).mpr h
    exact Option.some.inj (hfind'.symm.trans hfind)
  have hother {w : Value} := Value.find?_eq_some_iff_mapsTo (w := w) hkeyed' hself'
    (KeyRule.same_self_of_form hform hk)
  rw [keyBranch_eq hform hkeyed hmem]
  by_cases hpresent : ∃ w, Table.find? rule' k others = some w ∧ w.isPresent
  · obtain ⟨w, hfind, hw⟩ := hpresent
    rw [hfind, Option.elim_some, if_pos hw]
    constructor
    · exact fun h ↦ .paired ⟨(k, v), hmem, hk, rfl⟩ (hother.mp hfind) hw h
    · intro h
      cases h with
      | missing hmissing => exact (hmissing w (hother.mp hfind) hw).elim
      | paired hwant hfound _ hpart =>
        obtain rfl := hown _ hwant
        obtain rfl := Option.some.inj (hfind.symm.trans (hother.mpr hfound))
        exact hpart
  · have hbranch : (Table.find? rule' k others).elim (.missing label) (fun w ↦
        if w.isPresent then .part (some (.key label)) v w else .missing label) =
          Branch.missing label := by
      cases hfind : Table.find? rule' k others with
      | none => rfl
      | some w => exact if_neg fun hw ↦ hpresent ⟨w, hfind, hw⟩
    rw [hbranch, run_missing_yields]
    constructor
    · rintro ⟨notice, hnotice, rfl⟩
      exact .missing (fun w hfound hw ↦ hpresent ⟨w, hother.mpr hfound, hw⟩) hnotice
    · intro h
      cases h with
      | missing _ hnotice => exact ⟨_, hnotice, rfl⟩
      | paired _ hfound hw => exact (hpresent ⟨_, hother.mpr hfound, hw⟩).elim

/-- A look at two maps which are kept apart finds the keys of the first one. -/
theorem inspect_yields_of_opposite {rule rule' : KeyRule} {key mapped : Ty}
    {storage storage' : Identity} {entries others : List (Value × Value)} {verdict : Verdict}
    (hsize : entries.length = others.length) (hapart : storage ≠ storage') :
    (inspect (.map rule key mapped storage entries) (.map rule' key mapped storage' others)
        ops).Yields verdict ↔
      ∃ keys, (ops.rendering.sortedKeys (.map rule key mapped storage entries)).Yields keys ∧
        verdict = .branches (keys.map fun (label, k) ↦
          keyBranch (.map rule' key mapped storage' others) rule entries label k) := by
  rw [inspect, if_neg (by simpa using hsize), if_neg (by simpa using hapart), yields_bind]
  simp only [yields_pure, eq_comm]

/-- Of the branches of all keys comes what is told of each of them. -/
theorem forall₂_keyBranch_iff [LawfulHost] {rule rule' : KeyRule} {key mapped : Ty}
    {storage storage' : Identity} {entries others : List (Value × Value)}
    {keys : List (Text × Value)} {parts : List (List Notice)}
    (hopposite : Value.Opposite (.map rule key mapped storage entries)
      (.map rule' key mapped storage' others))
    (hkeys : (ops.rendering.sortedKeys (.map rule key mapped storage entries)).Yields keys) :
    List.Forall₂ (fun branch part ↦
        (Branch.run (.map rule' key mapped storage' others) ops branch).Yields part)
      (keys.map fun (label, k) ↦
        keyBranch (.map rule' key mapped storage' others) rule entries label k) parts ↔
    List.Forall₂ (KeyAccount (.map rule key mapped storage entries)
      (.map rule' key mapped storage' others) ops) keys parts := by
  rw [List.forall₂_map_left_iff]
  refine forall₂_congr_of_mem fun (label, k) hmem part ↦ ?_
  obtain ⟨v, hv, -⟩ := Rendering.exists_mem_of_sortedKeys hkeys hmem
  exact run_keyBranch_yields hopposite hv

/-- A comparison of two maps tells of the keys of the first one, in the order of their labels. -/
theorem compare_yields_iff_keyAccount [LawfulHost] (hops : ops.Unchecked) (hskip : ¬ ops.isSkipped)
    (hopposite : Value.Opposite want found) :
    (compare want found ops).Yields notices ↔ ∃ keys parts,
      (ops.rendering.sortedKeys want).Yields keys ∧
        List.Forall₂ (KeyAccount want found ops) keys parts ∧ notices = parts.flatten := by
  have hkeys := hopposite
  cases hopposite with
  | @intro rule rule' key mapped storage storage' entries others hform _ _ _ _ hsize hapart =>
    have hidentity : (Value.map rule key mapped storage entries).identity? =
        (Value.map rule' key mapped storage' others).identity? := by
      rw [Value.identity?, Value.identity?, Value.ty?, Value.ty?, hform]
    have hinspected : Inspected (.map rule key mapped storage entries)
        (.map rule' key mapped storage' others) ops :=
      ⟨hskip, ⟨rfl, rfl⟩, ⟨rfl, rfl⟩, hidentity⟩
    rw [compare_yields_of_inspected hops hinspected]
    constructor
    · rintro ⟨verdict, hverdict, hnotices⟩
      obtain ⟨keys, hyields, rfl⟩ := (inspect_yields_of_opposite hsize hapart).mp hverdict
      obtain ⟨parts, hall, rfl⟩ := conclude_branches_yields.mp hnotices
      exact ⟨keys, parts, hyields, (forall₂_keyBranch_iff hkeys hyields).mp hall, rfl⟩
    · rintro ⟨keys, parts, hyields, hall, rfl⟩
      exact ⟨_, (inspect_yields_of_opposite hsize hapart).mpr ⟨keys, hyields, rfl⟩,
        conclude_branches_yields.mpr
          ⟨parts, (forall₂_keyBranch_iff hkeys hyields).mpr hall, rfl⟩⟩

/-- A comparison of two maps of one type and size which are kept apart returns if they are made from
objects and the renderers return.  It tells of every key of the first map, in the order of the
labels, and says that it is missing if and only if the second map has no value that is present for
it.  Where none of the values in the second map is absent this means that it does not have the key;
and an equal copy in which nothing is absent passes. -/
theorem told_missing_iff [LawfulHost] (hops : ops.Unchecked) (hskip : ops.skipTrails = [])
    (hopposite : Value.Opposite want found) :
    (ops.rendering.Faultless → ∀ declared, want.Everywhere (Value.Genuine declared) →
        found.Everywhere (Value.Genuine declared) → (compare want found ops).Returns) ∧
      (∀ notices, (compare want found ops).Yields notices ↔ ∃ keys parts,
        (ops.rendering.sortedKeys want).Yields keys ∧
          List.Forall₂ (KeyAccount want found ops) keys parts ∧ notices = parts.flatten) ∧
      (∀ keys own, (ops.rendering.sortedKeys want).Yields keys → want.keys.Yields own →
        (keys.map Prod.snd).Perm own) ∧
      (found.Valued → ∀ k, (∀ w, found.MapsTo k w → ¬ w.isPresent) ↔ ∀ w, ¬ found.MapsTo k w) ∧
      (ops.rendering.Faultless → ∀ declared, want.Everywhere (Value.Plain declared) →
        found.Everywhere (Value.Plain declared) → Value.Coherent want found →
          Value.Agreeing want found → Equal want found → (compare want found ops).Yields []) := by
  have hunskipped : ¬ ops.isSkipped := by simp [Options.isSkipped, hskip]
  refine ⟨fun hr _ ↦ compare_returns hops hr, fun notices ↦
    compare_yields_iff_keyAccount hops hunskipped hopposite, ?_, ?_, ?_⟩
  · intro keys own hkeys hown
    cases hopposite with
    | intro =>
      obtain ⟨-, rfl⟩ := Rendering.sortedKeys_yields.mp hkeys
      obtain rfl := yields_pure.mp hown
      refine ((Table.sortLabelled_perm _).map Prod.snd).trans (.of_eq ?_)
      rw [List.map_map]
      rfl
  · intro hvalued k
    exact ⟨fun h w hw ↦ h w hw (hw.isPresent hvalued), fun h w hw ↦ (h w hw).elim⟩
  · intro hr declared hwant hfound hcoherent hagreeing hequal
    exact (compare_yields_nil_iff hops hskip hr hwant hfound hcoherent hagreeing).mpr hequal

end Comparison

/-! ## Samples -/

namespace Comparison

open scoped Sample

def twoKeys (storage : Identity) (other : Text) : Value :=
  .map .sorted Sample.string Sample.int storage
    [(.scalar (.string .owned (some "a")), .scalar (.integer .int 1)),
      (.scalar (.string .owned (some other)), .scalar (.integer .int 2))]

def lacksB : Notice where
  header := "expected values to be equal"
  trail := "[\"b\"]"
  rows := [⟨"want", "std::map<std::string, int>\x7b\n  \"a\": 1,\n  \"c\": 2,\n\x7d"⟩,
    ⟨"have", "nullptr"⟩, ⟨"want type", "std::map<std::string, int>"⟩,
    ⟨"have type", "std::nullptr_t"⟩]

/-- One map lacks a key of the other one, and a map agrees with its copy. -/
theorem told_missing_iff_twoKeys :
    (∃ keys parts, (({} : Rendering).sortedKeys (twoKeys 0 "b")).Yields keys ∧
        List.Forall₂ (KeyAccount (twoKeys 0 "b") (twoKeys 1 "c") {}) keys parts ∧
          [lacksB] = parts.flatten) ∧
      (compare (twoKeys 0 "b") (twoKeys 1 "c") {}).Returns ∧
      (compare (twoKeys 0 "b") (twoKeys 1 "b") {}).Yields [] := by
  have hwant : (twoKeys 0 "b").Everywhere (Value.Plain fun _ ↦ []) := by decide
  have hfound : (twoKeys 1 "c").Everywhere (Value.Plain fun _ ↦ []) := by decide
  have hcopy : (twoKeys 1 "b").Everywhere (Value.Plain fun _ ↦ []) := by decide
  have hunshared : Value.Unshared (twoKeys 0 "b") (twoKeys 1 "b") := by decide
  have hagreeing : Value.Agreeing (twoKeys 0 "b") (twoKeys 1 "b") := by decide
  have hunchecked : ({} : Options).Unchecked := ⟨rfl, rfl⟩
  have hequal : Equal (twoKeys 0 "b") (twoKeys 1 "b") :=
    (compare_yields_nil_iff hunchecked rfl Rendering.faultless_empty hwant hcopy
      hunshared.coherent hagreeing).mp (by decide)
  have hopposite : Value.Opposite (twoKeys 0 "b") (twoKeys 1 "c") :=
    .intro rfl hwant.self.keyed hfound.self.keyed hwant.self.definite hfound.self.definite rfl
      (by decide)
  have hopposite' : Value.Opposite (twoKeys 0 "b") (twoKeys 1 "b") :=
    .intro rfl hwant.self.keyed hcopy.self.keyed hwant.self.definite hcopy.self.definite rfl
      (by decide)
  obtain ⟨hreturns, htold, -⟩ := told_missing_iff hunchecked rfl hopposite
  obtain ⟨-, -, -, -, hpasses⟩ := told_missing_iff hunchecked rfl hopposite'
  exact ⟨(htold [lacksB]).mp (by decide),
    hreturns Rendering.faultless_empty _ (hwant.mono fun _ h ↦ h.toGenuine)
      (hfound.mono fun _ h ↦ h.toGenuine),
    hpasses Rendering.faultless_empty _ hwant hcopy hunshared.coherent hagreeing hequal⟩

/-- A map from a key to a value of a unit type. -/
def unitMap (storage : Identity) : Value :=
  .map .sorted Sample.string (.atom .unit) storage [(.scalar (.string .owned (some "a")), .absent)]

def lacksUnit : Notice where
  header := "expected values to be equal"
  trail := "[\"a\"]"
  rows := [⟨"want", "std::map<std::string, std::monostate>\x7b\n  \"a\": nullptr,\n\x7d"⟩,
    ⟨"have", "nullptr"⟩, ⟨"want type", "std::map<std::string, std::monostate>"⟩,
    ⟨"have type", "std::nullptr_t"⟩]

/-- Keys whose values are absent are told to be missing where they are not. -/
theorem not_told_missing_iff_lacking :
    ¬ ∀ (want found : Value) (ops : Options) (notices : List Notice), ops.Unchecked →
      ops.skipTrails = [] → Value.Opposite want found → (compare want found ops).Yields notices →
        ∀ k v label notice, want.MapsTo k v → (ops.rendering.keyLabel k).Yields label →
          (mismatch found .absent (ops.below (.key label)).toContext).Yields notice →
            (notice ∈ notices ↔ ∀ w, ¬ found.MapsTo k w) := by
  intro h
  have hopposite : Value.Opposite (unitMap 0) (unitMap 1) :=
    .intro rfl (by decide) (by decide) (by decide) (by decide) rfl (by decide)
  have hyields : (compare (unitMap 0) (unitMap 1) {}).Yields [lacksUnit] := by decide
  have hmaps (storage : Identity) :
      (unitMap storage).MapsTo (.scalar (.string .owned (some "a"))) .absent :=
    ⟨_, List.mem_singleton_self _, by decide, rfl⟩
  have hnotice := h _ _ {} _ ⟨rfl, rfl⟩ rfl hopposite hyields _ _ "\"a\"" lacksUnit (hmaps 0)
    (by decide) (by decide)
  exact hnotice.mp (List.mem_singleton_self _) .absent (hmaps 1)

end Comparison

end Discrepancy
