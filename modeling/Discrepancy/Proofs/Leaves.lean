import Mathlib.Data.List.Sort
import Discrepancy.Proofs.Alignment
import Discrepancy.Proofs.KeyOrder
import Discrepancy.Proofs.Reach

/-!
# Leaves

Two values of one shape have their leaves in pairs, which can be enumerated without a comparison:
fields in the order of their declaration, elements by index, entries of maps by their labels.  A
comparison gives one notice for each pair that differs, in this order, and no others.  For the
enumeration follows the branches of a comparison, of which each is compared in its turn.
-/

namespace Discrepancy

open Outcome

/-- Sorting by labels is the library's stable sort. -/
theorem Table.sortLabelled_eq {α : Type} (items : List (Text × α)) :
    sortLabelled items = items.insertionSort fun a b ↦ Text.le a.1 b.1 := by
  have hplace (label : Text) (a : α) (items : List (Text × α)) :
      placeLabelled label a items =
        items.orderedInsert (fun a b ↦ Text.le a.1 b.1) (label, a) := by
    induction items with
    | nil => rfl
    | cons item rest ih => rw [placeLabelled, ih, List.orderedInsert_cons]
  induction items with
  | nil => rfl
  | cons item rest ih => rw [sortLabelled, ih, hplace, List.insertionSort_cons]

namespace Comparison

/-! ## Pairs of leaves -/

/-- A leaf of one value and a leaf of another one, both at the end of one path. -/
structure LeafPair where
  path : List Step
  want : Scalar
  found : Scalar

namespace LeafPair

def under (step : Option Step) (pair : LeafPair) : LeafPair :=
  { pair with path := step.toList ++ pair.path }

def differs (pair : LeafPair) : Bool :=
  !decide (pair.want.Equal pair.found)

end LeafPair

variable [Host]

mutual

/-- The pairs of leaves of two values of one shape, depth first. -/
def leafPairs (r : Rendering) : Value → Value → List LeafPair
  | .scalar s, w => match w with
    | .scalar t => [⟨[], s, t⟩]
    | _ => []
  | .pointer _ _ (some (_, v)), w => match w with
    | .pointer _ _ (some (_, w)) => leafPairs r v w
    | _ => []
  | .record _ fields, w => match w with
    | .record _ others => fieldPairs r fields others
    | _ => []
  | .sequence _ _ _ elements, w => match w with
    | .sequence _ _ _ others => elementPairs r elements others 0
    | _ => []
  | .map _ _ _ _ entries, w => match w with
    | .map rule _ _ _ others =>
      ((entryPairs r rule entries others).insertionSort fun a b ↦ Text.le a.1 b.1).flatMap
        Prod.snd
    | _ => []
  | .interface _ _ v, w => match w with
    | .interface _ _ w => leafPairs r v w
    | _ => []
  | _, _ => []
termination_by structural v => v

def fieldPairs (r : Rendering) : List (Text × Value) → List (Text × Value) → List LeafPair
  | (name, v) :: rest, (_, w) :: others =>
    (leafPairs r v w).map (LeafPair.under (some (.field name))) ++ fieldPairs r rest others
  | _, _ => []
termination_by structural fields => fields

def elementPairs (r : Rendering) : List Value → List Value → Nat → List LeafPair
  | v :: rest, w :: others, i =>
    (leafPairs r v w).map (LeafPair.under (some (.index i))) ++ elementPairs r rest others (i + 1)
  | _, _, _ => []
termination_by structural elements => elements

/-- The pairs of leaves under the keys of a map, with the labels of the keys. -/
def entryPairs (r : Rendering) (rule : KeyRule) :
    List (Value × Value) → List (Value × Value) → List (Text × List LeafPair)
  | [], _ => []
  | (k, v) :: rest, others =>
    (r.label k, match Table.find? rule k others with
      | some w => (leafPairs r v w).map (LeafPair.under (some (.key (r.label k))))
      | none => []) :: entryPairs r rule rest others
termination_by structural entries => entries

end

/-! ## Branches -/

def branchPairs (r : Rendering) : Branch → List LeafPair
  | .part step v w => (leafPairs r v w).map (LeafPair.under step)
  | _ => []

variable {r : Rendering} {want found v w : Value} {ops : Options} {notices : List Notice}
  {notice : Notice} {pair : LeafPair}

omit [Host] in
theorem under_none : LeafPair.under none = id :=
  rfl

theorem fieldPairs_eq (fields others : List (Text × Value)) :
    fieldPairs r fields others = (fieldBranches fields others).flatMap (branchPairs r) := by
  induction fields generalizing others with
  | nil => rfl
  | cons field rest ih =>
    cases others with
    | nil => rfl
    | cons other others =>
      obtain ⟨name, v⟩ := field
      rw [fieldPairs, fieldBranches, ih]
      split_ifs with hpresent
      · rw [List.flatMap_cons, branchPairs]
      · rw [Value.eq_absent hpresent]
        rfl

theorem elementPairs_eq (elements others : List Value) (i : Nat) :
    elementPairs r elements others i =
      (elementBranches elements others i).flatMap (branchPairs r) := by
  induction elements generalizing others i with
  | nil => rfl
  | cons v rest ih =>
    cases others with
    | nil => rfl
    | cons w others =>
      rw [elementPairs, elementBranches, ih, List.flatMap_cons, branchPairs]

/-- No leaf stands beside an absent value. -/
theorem leafPairs_absent (v : Value) : leafPairs r v .absent = [] := by
  cases v with
  | pointer form target pointee => rcases pointee with _ | ⟨object, v⟩ <;> rfl
  | _ => rfl

/-- The pairs of leaves under a key. -/
def keyPairs (r : Rendering) (rule : KeyRule) (others : List (Value × Value)) (k v : Value) :
    List LeafPair :=
  match Table.find? rule k others with
  | some w => (leafPairs r v w).map (LeafPair.under (some (.key (r.label k))))
  | none => []

theorem entryPairs_eq_map (rule : KeyRule) (entries others : List (Value × Value)) :
    entryPairs r rule entries others =
      entries.map fun entry ↦ (r.label entry.1, keyPairs r rule others entry.1 entry.2) := by
  induction entries with
  | nil => rfl
  | cons entry rest ih =>
    rw [entryPairs, ih, List.map_cons]
    rfl

/-- The pairs of leaves under a key are those below its branch. -/
theorem keyPairs_eq [LawfulHost] {rule rule' : KeyRule} {key mapped mapped' : Ty}
    {storage storage' : Identity} {entries others : List (Value × Value)} {k v : Value}
    (hform : rule.form = rule'.form)
    (hkeyed : (Value.map rule key mapped storage entries).Keyed) (hmem : (k, v) ∈ entries) :
    keyPairs r rule' others k v = branchPairs r
      (keyBranch (.map rule' key mapped' storage' others) rule entries (r.label k) k) := by
  rw [keyPairs, keyBranch_eq hform hkeyed hmem]
  cases Table.find? rule' k others with
  | none => rfl
  | some w =>
    dsimp only [Option.elim_some]
    split_ifs with hpresent
    · rfl
    · rw [Value.eq_absent hpresent, leafPairs_absent]
      rfl

/-- The enumeration of maps follows the branches in the order of their labels. -/
theorem mapPairs_eq [LawfulHost] {rule rule' : KeyRule} {key mapped mapped' : Ty}
    {storage storage' : Identity} {entries others : List (Value × Value)}
    (hform : rule.form = rule'.form)
    (hkeyed : (Value.map rule key mapped storage entries).Keyed) :
    leafPairs r (.map rule key mapped storage entries) (.map rule' key mapped' storage' others) =
      ((Table.sortLabelled (entries.map fun entry ↦ (r.label entry.1, entry.1))).map
        fun (label, k) ↦ keyBranch (.map rule' key mapped' storage' others) rule entries label
          k).flatMap (branchPairs r) := by
  let found := Value.map rule' key mapped' storage' others
  let sorted := entries.insertionSort fun a b ↦ Text.le (r.label a.1) (r.label b.1)
  have hsort {α : Type} (f : Value × Value → Text × α)
      (hf : ∀ entry, (f entry).1 = r.label entry.1) :
      (entries.map f).insertionSort (fun a b ↦ Text.le a.1 b.1) = sorted.map f := by
    refine (List.map_insertionSort _ _ f entries fun a _ b _ ↦ ?_).symm
    rw [hf, hf]
  calc
    _ = ((entryPairs r rule' entries others).insertionSort
          fun a b ↦ Text.le a.1 b.1).flatMap Prod.snd := rfl
    _ = sorted.flatMap fun entry ↦ keyPairs r rule' others entry.1 entry.2 := by
      rw [entryPairs_eq_map, hsort _ fun _ ↦ rfl, List.flatMap_map]
    _ = sorted.flatMap fun entry ↦ branchPairs r
          (keyBranch found rule entries (r.label entry.1) entry.1) :=
      List.flatMap_congr fun entry hmem ↦ keyPairs_eq hform hkeyed
        ((List.mem_insertionSort _).mp hmem)
    _ = _ := by
      rw [Table.sortLabelled_eq, hsort _ fun _ ↦ rfl, List.map_map, List.flatMap_map]
      rfl

/-- The enumeration follows the branches of a comparison. -/
theorem leafPairs_eq_of_branches [LawfulHost] {below : List Branch}
    (hidentity : want.identity? = found.identity?) (hkeyed : want.Keyed)
    (h : (inspect want found ops).Yields (.branches below)) :
    leafPairs ops.rendering want found = below.flatMap (branchPairs ops.rendering) := by
  have hsingle (v w : Value) : leafPairs ops.rendering v w =
      [Branch.part none v w].flatMap (branchPairs ops.rendering) := by
    rw [List.flatMap_singleton, branchPairs, under_none, List.map_id]
  unfold inspect at h
  split at h
  · obtain ⟨equal, -, hverdict⟩ := yields_map.mp h
    cases hverdict
  · cases yields_pure.mp h
  · cases yields_pure.mp h
  · cases yields_pure.mp h
  · cases yields_pure.mp h
    exact hsingle _ _
  · obtain ⟨_, -, h⟩ := yields_bind.mp h
    cases yields_pure.mp h
    exact fieldPairs_eq _ _
  · split_ifs at h
    · cases yields_pure.mp h
    · cases yields_pure.mp h
    · cases yields_pure.mp h
      exact elementPairs_eq _ _ 0
  · obtain ⟨hform, rfl, rfl⟩ := Value.map_identity_inj.mp hidentity
    split_ifs at h
    · cases yields_pure.mp h
    · cases yields_pure.mp h
    · obtain ⟨keys, hkeys, h⟩ := yields_bind.mp h
      obtain ⟨-, rfl⟩ := Rendering.sortedKeys_yields.mp hkeys
      cases yields_pure.mp h
      exact mapPairs_eq hform hkeyed
  · cases yields_pure.mp h
    exact hsingle _ _
  · obtain ⟨equal, -, hverdict⟩ := yields_map.mp h
    cases hverdict

/-! ## Enumeration -/

/-- A pair below some branches is below one of them. -/
theorem mem_branches_pairs_iff {below : List Branch} :
    pair ∈ below.flatMap (branchPairs r) ↔ ∃ step v w, .part step v w ∈ below ∧
      ∃ inner ∈ leafPairs r v w, inner.under step = pair := by
  rw [List.mem_flatMap]
  constructor
  · rintro ⟨branch, hbranch, hpair⟩
    cases branch with
    | part step v w => exact ⟨step, v, w, hbranch, List.mem_map.mp hpair⟩
    | missing label => cases hpair
    | refused fault => cases hpair
  · rintro ⟨step, v, w, hbranch, hpair⟩
    exact ⟨_, hbranch, List.mem_map.mpr hpair⟩

theorem mem_mapPairs_iff {rule rule' : KeyRule} {key key' mapped mapped' : Ty}
    {storage storage' : Identity} {entries others : List (Value × Value)} :
    pair ∈ leafPairs r (.map rule key mapped storage entries)
        (.map rule' key' mapped' storage' others) ↔
      ∃ k v w, (k, v) ∈ entries ∧ Table.find? rule' k others = some w ∧
        ∃ inner ∈ leafPairs r v w, inner.under (some (.key (r.label k))) = pair := by
  rw [leafPairs, entryPairs_eq_map, ((List.perm_insertionSort _ _).flatMap_right _).mem_iff,
    List.flatMap_map, List.mem_flatMap]
  constructor
  · rintro ⟨⟨k, v⟩, hmem, hpair⟩
    dsimp only [keyPairs] at hpair
    split at hpair
    · exact ⟨k, v, _, hmem, ‹_›, List.mem_map.mp hpair⟩
    · cases hpair
  · rintro ⟨k, v, w, hmem, hfound, hpair⟩
    refine ⟨(k, v), hmem, ?_⟩
    dsimp only [keyPairs]
    rw [hfound]
    exact List.mem_map.mpr hpair

/-- A pair of leaves is the two values themselves or comes of parts which they have in common. -/
theorem mem_leafPairs_cases (hlabels : ∀ u ∈ want.parts, (r.keyLabel u).Returns)
    (h : pair ∈ leafPairs r want found) :
    (want = .scalar pair.want ∧ found = .scalar pair.found ∧ pair.path = []) ∨
      ∃ step v w, Part r want found step v w ∧ ∃ inner ∈ leafPairs r v w,
        inner.under step = pair := by
  cases want with
  | scalar s =>
    cases found with
    | scalar t =>
      obtain rfl := List.mem_singleton.mp h
      exact .inl ⟨rfl, rfl, rfl⟩
    | _ => cases h
  | pointer form target pointee =>
    cases pointee with
    | none => cases h
    | some pointee =>
      cases found with
      | pointer form' target' pointee' =>
        cases pointee' with
        | none => cases h
        | some pointee' => exact .inr ⟨none, _, _, .pointee, pair, h, rfl⟩
      | _ => cases h
  | record name fields =>
    cases found with
    | record name' others =>
      rw [leafPairs, fieldPairs_eq, mem_branches_pairs_iff] at h
      obtain ⟨step, v, w, hbranch, hpair⟩ := h
      obtain ⟨i, name, name', v, w, hv, hw, -, heq⟩ := mem_fieldBranches.mp hbranch
      cases heq
      exact .inr ⟨_, v, w, .field i hv hw, hpair⟩
    | _ => cases h
  | sequence form element storage elements =>
    cases found with
    | sequence form' element' storage' others =>
      rw [leafPairs, elementPairs_eq, mem_branches_pairs_iff] at h
      obtain ⟨step, v, w, hbranch, hpair⟩ := h
      obtain ⟨i, v, w, hv, hw, heq⟩ := mem_elementBranches.mp hbranch
      rw [Nat.zero_add] at heq
      cases heq
      exact .inr ⟨_, v, w, .element i hv hw, hpair⟩
    | _ => cases h
  | map rule key mapped storage entries =>
    cases found with
    | map rule' key' mapped' storage' others =>
      obtain ⟨k, v, w, hmem, hfound, hpair⟩ := mem_mapPairs_iff.mp h
      have hlabel := Rendering.keyLabel_yields (hlabels k (Value.key_mem_parts hmem))
      exact .inr ⟨_, v, w, .mapped hmem hfound hlabel, hpair⟩
    | _ => cases h
  | interface type alternative v =>
    cases found with
    | interface type' alternative' w => exact .inr ⟨none, v, w, .content, pair, h, rfl⟩
    | _ => cases h
  | _ => cases h

/-- The leaves of common parts are leaves of the wholes, a step further down. -/
theorem mem_leafPairs_of_part {step : Option Step} (hpart : Part r want found step v w)
    (h : pair ∈ leafPairs r v w) : pair.under step ∈ leafPairs r want found := by
  cases hpart with
  | pointee => exact h
  | content => exact h
  | field i hv hw =>
    have hpresent : v.isPresent := by
      by_contra habsent
      rw [Value.eq_absent habsent] at h
      cases h
    rw [leafPairs, fieldPairs_eq, mem_branches_pairs_iff]
    exact ⟨_, v, w, mem_fieldBranches.mpr ⟨i, _, _, v, w, hv, hw, hpresent, rfl⟩, pair, h, rfl⟩
  | element i hv hw =>
    rw [leafPairs, elementPairs_eq, mem_branches_pairs_iff]
    refine ⟨_, v, w, mem_elementBranches.mpr ⟨i, v, w, hv, hw, ?_⟩, pair, h, rfl⟩
    rw [Nat.zero_add]
  | mapped hmem hfound hlabel =>
    rw [mem_mapPairs_iff, ← Rendering.label_of_yields hlabel]
    exact ⟨_, v, w, hmem, hfound, pair, h, rfl⟩

/-- The enumeration holds all leaves which two values have at one place, and nothing else. -/
theorem mem_leafPairs_iff {path : List Step} {s t : Scalar} (hr : r.Faultless)
    (hwant : want.Everywhere Value.Renderable) :
    ⟨path, s, t⟩ ∈ leafPairs r want found ↔
      Located r want found path (.scalar s) (.scalar t) := by
  constructor
  · intro h
    induction want using Value.induction_parts generalizing found path with
    | h want ih =>
      have hlabels (u : Value) (hu : u ∈ want.parts) : (r.keyLabel u).Returns :=
        Rendering.keyLabel_returns hr (hwant.part hu)
      rcases mem_leafPairs_cases hlabels h with hhere | hparts
      · obtain ⟨rfl, rfl, rfl⟩ := hhere
        exact .here
      · obtain ⟨step, v, w, hpart, inner, hinner, heq⟩ := hparts
        have hv := hpart.mem_parts.1
        cases heq
        exact .into hpart (ih v hv (hwant.part hv) hinner)
  · intro h
    generalize hu : Value.scalar s = u at h
    generalize hu' : Value.scalar t = u' at h
    clear hwant
    induction h with
    | here =>
      subst hu hu'
      exact List.mem_singleton_self _
    | into hpart _ ih => exact mem_leafPairs_of_part hpart (ih hu hu')

/-! ## Notices of leaves -/

/-- A notice tells of two leaves: it is the notice of their mismatch at the end of their path. -/
structure Tells (ops : Options) (pair : LeafPair) (notice : Notice) : Prop where
  trail : notice.trail = pair.path.foldl Trail.extend ops.trail
  shown : (mismatch (.scalar pair.want) (.scalar pair.found)
    (ops.descend pair.path).toContext).Yields notice

/-- Some notices tell of some pairs, one of each that differs, in their order. -/
def TellAll (ops : Options) (pairs : List LeafPair) (notices : List Notice) : Prop :=
  List.Forall₂ (Tells ops) (pairs.filter LeafPair.differs) notices

/-- The notice of a mismatch of two leaves tells of them. -/
theorem tells_of_mismatch {s t : Scalar}
    (h : (mismatch (.scalar s) (.scalar t) ops.toContext).Yields notice) :
    Tells ops ⟨[], s, t⟩ notice :=
  ⟨mismatch_trail h, h⟩

theorem Tells.under {step : Option Step} (h : Tells (ops.follow step) pair notice) :
    Tells ops (pair.under step) notice where
  trail := calc
    notice.trail = ((ops.follow step).descend pair.path).trail := by
      rw [h.trail, Options.descend_trail]
    _ = (ops.descend (step.toList ++ pair.path)).trail := by
      rw [Options.descend_append]
    _ = (pair.under step).path.foldl Trail.extend ops.trail := by
      rw [Options.descend_trail]
      rfl
  shown := by
    have hshown := h.shown
    rwa [← Options.descend_append] at hshown

/-- What is told below a step is told from above. -/
theorem TellAll.under {step : Option Step} {pairs : List LeafPair}
    (h : TellAll (ops.follow step) pairs notices) :
    TellAll ops (pairs.map (LeafPair.under step)) notices := by
  have hdiffers : LeafPair.differs ∘ LeafPair.under step = LeafPair.differs := rfl
  rw [TellAll, List.filter_map, hdiffers, List.forall₂_map_left_iff]
  exact List.Forall₂.imp (fun _ _ ↦ Tells.under) h

/-- Notices that tell of the pairs branch by branch tell of all of them in order. -/
theorem TellAll.flatMap {below : List Branch} {parts : List (List Notice)}
    (h : List.Forall₂ (fun branch part ↦ TellAll ops (branchPairs r branch) part) below parts) :
    TellAll ops (below.flatMap (branchPairs r)) parts.flatten := by
  rw [TellAll, List.filter_flatMap]
  exact List.rel_flatten (List.forall₂_map_left_iff.mpr h)

theorem SameShape.size (h : SameShape want found) : want.size? = found.size? := by
  cases h with
  | sequence hlength => exact congrArg some hlength
  | map hform hcount => exact congrArg some hcount
  | _ => rfl

/-- Values of one shape are both there and of one type. -/
theorem SameShape.not_unlike (h : SameShape want found) : ¬ Unlike want found := by
  intro hunlike
  cases hunlike with
  | absent hne => exact hne h.isPresent
  | types _ _ hne => exact hne h.identity

/-- Only vectors without elements share their storage. -/
theorem leafPairs_eq_nil_of_sharesStorage (hunshared : Value.Unshared want found)
    (hstored : want.Stored) (hshared : want.SharesStorage found)
    (hshape : SameShape want found) : leafPairs r want found = [] := by
  have hnone (h : want.storage? = found.storage?) : want.storage? = none :=
    hunshared want found .self .self h
  cases want with
  | sequence form element storage elements =>
    cases found with
    | sequence form' element' storage' others =>
      obtain ⟨rfl, rfl⟩ := hshared
      cases hshape
      obtain rfl : storage = none := hnone rfl
      obtain rfl : elements = [] := hstored
      rfl
    | _ => exact hshared.elim
  | map rule key mapped storage entries =>
    cases found with
    | map rule' key' mapped' storage' others => cases hnone (congrArg some hshared)
    | _ => exact hshared.elim
  | _ => exact hshared.elim

/-- What follows from a look at values of one shape tells of their leaves, if this holds for their
parts. -/
theorem tellAll_of_look [LawfulHost] {verdict : Verdict}
    (hlook : Look ops.rendering want found verdict)
    (hverdict : (inspect want found ops).Yields verdict) (hkeyed : want.Keyed)
    (hstored : want.Stored) (hvalued : found.Valued) (hshape : SameShape want found)
    (hunshared : Value.Unshared want found)
    (hnotices : (conclude want found ops verdict).Yields notices)
    (hparts : ∀ step v w notices, Part ops.rendering want found step v w →
      (compare v w (ops.follow step)).Yields notices →
        TellAll (ops.follow step) (leafPairs ops.rendering v w) notices) :
    TellAll ops (leafPairs ops.rendering want found) notices := by
  cases hlook with
  | @scalars s t =>
    by_cases hequal : s.Equal t
    · rw [decide_eq_true hequal] at hnotices
      rw [leaf_yields_true.mp hnotices, TellAll, leafPairs,
        List.filter_cons_of_neg (by simp [LeafPair.differs, hequal])]
      exact .nil
    · rw [decide_eq_false hequal] at hnotices
      obtain ⟨notice, hnotice, rfl⟩ := leaf_yields_false.mp hnotices
      rw [TellAll, leafPairs, List.filter_cons_of_pos (by simp [LeafPair.differs, hequal])]
      exact .cons (tells_of_mismatch hnotice) .nil
  | nils =>
    rw [leaf_yields_true.mp hnotices]
    exact .nil
  | oneNil hone =>
    cases hshape with
    | nil => exact (hone rfl).elim
    | pointer => exact (hone rfl).elim
  | lengths hwant hfound hne =>
    have hsize := hwant.symm.trans (hshape.size.trans hfound)
    exact (hne (Option.some.inj hsize)).elim
  | shared _ hshared =>
    rw [leaf_yields_true.mp hnotices,
      leafPairs_eq_nil_of_sharesStorage hunshared hstored hshared hshape]
    exact .nil
  | @branches _ _ below _ _ hbelow =>
    obtain ⟨parts, hruns, rfl⟩ := conclude_branches_yields.mp hnotices
    rw [leafPairs_eq_of_branches hshape.identity hkeyed hverdict]
    have hleads : List.Forall₂ (fun branch part ↦ Leads ops.rendering want found branch ∧
        (branch.run found ops).Yields part) below parts :=
      (List.forall₂_and_left ..).mpr ⟨fun branch ↦ (hbelow branch).mp, hruns⟩
    apply TellAll.flatMap
    refine List.Forall₂.imp (fun branch part hbranch ↦ ?_) hleads
    obtain ⟨hleads, hrun⟩ := hbranch
    cases hleads with
    | part hpart => exact (hparts _ _ _ _ hpart hrun).under
    | missing hlacks => exact (hshape.not_lacks hvalued _ hlacks).elim

/-- A comparison tells of leaves exactly what there is to tell. -/
theorem tellAll_leafPairs [LawfulHost] (hops : ops.Unchecked) (hskip : ops.skipTrails = [])
    (hwant : want.Everywhere fun v ↦ v.Keyed ∧ v.Stored) (hfound : found.Everywhere Value.Valued)
    (hshape : SameShape want found) (hunshared : Value.Unshared want found)
    (h : (compare want found ops).Yields notices) :
    TellAll ops (leafPairs ops.rendering want found) notices := by
  induction want using Value.induction_parts generalizing found ops notices with
  | h want ih =>
    have hskipped : ¬ ops.isSkipped := by simp [Options.isSkipped, hskip]
    cases (compare_yields_iff hops).mp h with
    | skipped hskip => exact (hskipped hskip).elim
    | absent _ habsent =>
      rw [Value.eq_absent habsent.1]
      exact .nil
    | unlike _ hunlike => exact (hshape.not_unlike hunlike).elim
    | hidden _ _ hhidden => exact (hhidden hshape.isAccessible).elim
    | inspected hinspected hverdict hnotices =>
      obtain ⟨hkeyed, hstored⟩ := hwant.self
      have hlook := look_of_inspect hinspected.identity hkeyed hverdict
      refine tellAll_of_look hlook hverdict hkeyed hstored hfound.self hshape hunshared hnotices ?_
      intro step v w notices hpart hyields
      obtain ⟨hv, hw⟩ := hpart.mem_parts
      rw [← ops.follow_rendering step]
      exact ih v hv (hops.follow step) ((ops.follow_skipTrails step).trans hskip) (hwant.part hv)
        (hfound.part hw) (hshape.part hpart) (hunshared.part hv hw) hyields

/-- A comparison of values of one shape returns, if the registered renderers do, and tells of their
leaves. -/
theorem exists_tellAll_leafPairs [LawfulHost] {declared : Text → List Text} (hops : ops.Unchecked)
    (hskip : ops.skipTrails = []) (hr : ops.rendering.Faultless)
    (hwant : want.Everywhere (Value.Genuine declared))
    (hfound : found.Everywhere (Value.Genuine declared)) (hvalued : found.Everywhere Value.Valued)
    (hshape : SameShape want found) (hunshared : Value.Unshared want found) :
    ∃ notices, (compare want found ops).Yields notices ∧
      TellAll ops (leafPairs ops.rendering want found) notices := by
  obtain ⟨notices, hnotices⟩ := compare_returns hops hr hwant hfound
  have hkept : want.Everywhere fun v ↦ v.Keyed ∧ v.Stored :=
    hwant.mono fun _ h ↦ ⟨h.keyed, h.stored⟩
  exact ⟨notices, hnotices,
    tellAll_leafPairs hops hskip hkept hvalued hshape hunshared hnotices⟩

end Comparison

/-! ## Samples -/

namespace Comparison

open scoped Sample

/-- A map from one string to a vector of two integers, of which the first one is 1. -/
def table (storage : Identity) (n : Int) : Value :=
  .map .sorted Sample.string (Sample.vectorOf Sample.int) storage
    [(.scalar (.string .owned (some "a")), .sequence .vector Sample.int (some (storage + 1))
      [.scalar (.integer .int 1), .scalar (.integer .int n)])]

theorem sameShape_table (storage storage' : Identity) (m n : Int) :
    SameShape (table storage m) (table storage' n) := by
  have hvector (i : Nat) (v w : Value)
      (hv : [Value.scalar (.integer .int 1), .scalar (.integer .int m)][i]? = some v)
      (hw : [Value.scalar (.integer .int 1), .scalar (.integer .int n)][i]? = some w) :
      SameShape v w := by
    have hint {x y : Int} : SameShape (.scalar (.integer .int x)) (.scalar (.integer .int y)) :=
      .scalar rfl trivial
    match i with
    | 0 => cases hv; cases hw; exact hint
    | 1 => cases hv; cases hw; exact hint
    | _ + 2 => cases hv
  refine .map rfl rfl ?_ ?_ ?_ ?_ <;> intro k v
  · intro hmem
    cases List.mem_singleton.mp hmem
    rfl
  · intro hmem
    cases List.mem_singleton.mp hmem
    rfl
  · intro w hmem hfound
    cases List.mem_singleton.mp hmem
    cases hfound
    exact .sequence rfl hvector
  · intro w hmem hfound
    cases List.mem_singleton.mp hmem
    cases hfound
    exact .sequence rfl hvector

/-- The tables differ at the second index of the vector. -/
theorem exists_tellAll_leafPairs_table :
    ∃ notices, (compare (table 0 2) (table 2 3) {}).Yields notices ∧
      TellAll {} (leafPairs {} (table 0 2) (table 2 3)) notices := by
  have hwant : (table 0 2).Everywhere (Value.Genuine fun _ ↦ []) := by decide
  have hfound : (table 2 3).Everywhere (Value.Genuine fun _ ↦ []) := by decide
  have hvalued : (table 2 3).Everywhere Value.Valued := by decide
  have hunshared : Value.Unshared (table 0 2) (table 2 3) := by decide
  exact exists_tellAll_leafPairs ⟨rfl, rfl⟩ rfl Rendering.faultless_empty hwant hfound hvalued
    (sameShape_table 0 2 2 3) hunshared

/-- The integers differ at index 1 under the key. -/
example : ((leafPairs {} (table 0 2) (table 2 3)).filter LeafPair.differs).map LeafPair.path =
    [[.key "\"a\"", .index 1]] := by
  decide

/-- A renderer that refuses a key keeps values of one shape from being compared, and nothing is told
of complex numbers that are the same in double precision. -/
theorem not_exists_tellAll_leafPairs :
    (¬ ∀ (declared : Text → List Text) (want found : Value) (ops : Options), ops.Unchecked →
      ops.skipTrails = [] → want.Everywhere (Value.Genuine declared) →
      found.Everywhere (Value.Genuine declared) → found.Everywhere Value.Valued →
      SameShape want found → Value.Unshared want found →
      ∃ notices, (compare want found ops).Yields notices ∧
        TellAll ops (leafPairs ops.rendering want found) notices) ∧
    ((compare (preciseComplex (.finite false (2 ^ 60 + 1) (-60))) (preciseComplex (.ofInt 1))
        {}).Yields [] ∧ ¬ (Binary.finite false (2 ^ 60 + 1) (-60)).SameSize (.ofInt 1)) := by
  refine ⟨fun h ↦ ?_, by decide +kernel, by decide +kernel⟩
  have hwant : (table 0 2).Everywhere (Value.Genuine fun _ ↦ []) := by decide
  have hfound : (table 2 2).Everywhere (Value.Genuine fun _ ↦ []) := by decide
  have hvalued : (table 2 2).Everywhere Value.Valued := by decide
  have hunshared : Value.Unshared (table 0 2) (table 2 2) := by decide
  obtain ⟨notices, hnotices, htell⟩ := h _ _ _
    { rendering := ({} : Rendering).register Sample.string .byte }
    ⟨rfl, rfl⟩ rfl hwant hfound hvalued (sameShape_table 0 2 2 2) hunshared
  obtain rfl : notices = [] := List.forall₂_nil_left_iff.mp htell
  revert hnotices
  decide

end Comparison

end Discrepancy
