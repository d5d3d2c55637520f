import Discrepancy.Proofs.Reordering
import Discrepancy.Proofs.Rerendering

/-!
# Enumeration is not seen

The order in which unordered maps enumerate their entries shows nowhere in a comparison, as long as
no two keys of one map have one label.  Keys are sorted by their labels before they are visited and
before they are rendered; distinct labels can be sorted in one way only.  Labels are texts of keys,
in which maps may stand in their turn, so that the argument goes by induction from the inside to the
outside, over texts first and over comparisons with these.

Registered renderers see the values themselves and could tell their enumeration, or refuse them;
they are taken not to tell.
-/

namespace Discrepancy

open Outcome

/-! ## Sorted labels -/

namespace Table

variable {α : Type} {p : α → α → Prop} {items items' : List (Text × α)}

theorem placeLabelled_forall₂ {label : Text} {a a' : α} (ha : p a a')
    (h : List.Forall₂ (fun item item' ↦ item.1 = item'.1 ∧ p item.2 item'.2) items items') :
    List.Forall₂ (fun item item' ↦ item.1 = item'.1 ∧ p item.2 item'.2)
      (placeLabelled label a items) (placeLabelled label a' items') := by
  induction h with
  | nil => exact .cons ⟨rfl, ha⟩ .nil
  | @cons item item' _ _ hhead hrest ih =>
    obtain ⟨other, b⟩ := item
    obtain ⟨other', b'⟩ := item'
    obtain rfl : other = other' := hhead.1
    rw [placeLabelled, placeLabelled]
    split_ifs
    · exact .cons ⟨rfl, ha⟩ (.cons hhead hrest)
    · exact .cons hhead ih

/-- Sorting goes by labels alone. -/
theorem sortLabelled_forall₂
    (h : List.Forall₂ (fun item item' ↦ item.1 = item'.1 ∧ p item.2 item'.2) items items') :
    List.Forall₂ (fun item item' ↦ item.1 = item'.1 ∧ p item.2 item'.2) (sortLabelled items)
      (sortLabelled items') := by
  induction h with
  | nil => exact .nil
  | @cons item item' _ _ hhead _ ih =>
    rw [sortLabelled, sortLabelled, ← hhead.1]
    exact placeLabelled_forall₂ hhead.2 ih

/-- Items with distinct labels are sorted in one way, however they come. -/
theorem sortLabelled_eq_of_perm (hperm : items.Perm items')
    (hdistinct : (items.map Prod.fst).Nodup) : sortLabelled items = sortLabelled items' := by
  refine List.Perm.eq_of_pairwise (fun a b ha hb hab hba ↦ ?_) (sortLabelled_pairwise items)
    (sortLabelled_pairwise items')
    ((sortLabelled_perm items).trans (hperm.trans (sortLabelled_perm items').symm))
  have ha := (sortLabelled_perm items).mem_iff.mp ha
  have hb := hperm.mem_iff.mpr ((sortLabelled_perm items').mem_iff.mp hb)
  exact List.inj_on_of_nodup_map hdistinct ha hb (Text.le_antisymm hab hba)

end Table

/-! ## Conditions -/

/-- Two computations have no result in common. -/
def Outcome.Apart {α : Type} (x y : Outcome α) : Prop :=
  ∀ a, x.Yields a → ¬ y.Yields a

instance {α : Type} [DecidableEq α] (x y : Outcome α) : Decidable (x.Apart y) :=
  match h : x.result with
  | .ok b => decidable_of_iff (¬ y.Yields b)
    ⟨fun hb _ ha ↦ (show x.Yields b from h).unique ha ▸ hb, fun hapart ↦ hapart b h⟩
  | .error _ => isTrue fun a ha ↦ by simp [Yields, h] at ha

namespace Rendering

variable [Host]

def DistinctLabels (r : Rendering) : Value → Prop
  | .map _ _ _ _ entries => entries.Pairwise fun a b ↦ (r.keyLabel a.1).Apart (r.keyLabel b.1)
  | _ => True

instance (r : Rendering) : DecidablePred r.DistinctLabels
  | .map _ _ _ _ entries => inferInstanceAs (Decidable
      (entries.Pairwise fun a b ↦ (r.keyLabel a.1).Apart (r.keyLabel b.1)))
  | .absent | .hidden _ | .scalar _ | .pointer .. | .record .. | .sequence .. | .interface .. =>
    isTrue trivial

/-- A renderer of the program does not tell how maps are enumerated, wherever it is consulted. -/
def Indifferent (r : Rendering) (v : Value) : Prop :=
  ∀ name, r.renderer? v = some (.own name) → ∀ v', v.Reordered v' → ∀ r', r.Near r' → ∀ level,
    Corresponds Eq (Host.renderer name r' level v) (Host.renderer name r' level v')

/-- What keeps the enumeration of maps out of texts. -/
structure Steady (r : Rendering) (v : Value) : Prop where
  keyed : v.Keyed
  labels : r.DistinctLabels v
  indifferent : r.Indifferent v

variable {r : Rendering} {v v' : Value}

theorem Steady.forKeys (h : r.Steady v) : r.forKeys.Steady v where
  keyed := h.keyed
  labels := by cases v <;> exact h.labels
  indifferent := fun name hrenderer v' hv r' hnear ↦
    h.indifferent name hrenderer v' hv r' hnear.of_withStyle

/-- Without registered renderers nothing tells how maps are enumerated. -/
theorem indifferent_of_plain (h : r.renderers = []) (v : Value) : r.Indifferent v := by
  intro name hrenderer
  rw [renderer?_of_plain h] at hrenderer
  cases hrenderer

end Rendering

/-! ## Texts -/

namespace Rendering

variable [Host] {r : Rendering} {v v' : Value}

omit [Host] in
/-- The renderer for bytes takes no maps. -/
theorem ofByte_eq_of_reordered (hv : v.Reordered v') (level : Int) :
    r.ofByte level v = r.ofByte level v' := by
  have hfault : v.castFault? byteTy = v'.castFault? byteTy := by
    rw [Value.castFault?, Value.castFault?, hv.isAccessible_eq, hv.typeName_eq, hv.ty?_eq]
  rw [ofByte, ofByte, Value.cast, Value.cast, ← hfault]
  cases hcast : v.castFault? byteTy with
  | some fault => rfl
  | none =>
    have hbyte : v.isAccessible ∧ v.ty? = some byteTy := by
      unfold Value.castFault? at hcast
      split_ifs at hcast with haccessible hty
      exact ⟨by simpa using haccessible, beq_iff_eq.mp hty⟩
    obtain ⟨n, rfl⟩ := exists_eq_byte (by rw [Value.identity?, hbyte.2]; rfl) hbyte.1
    cases hv
    rfl

/-- No renderer tells reordered values apart, if those of the program do not. -/
theorem corresponds_apply (hv : v.Reordered v') (hindifferent : r.Indifferent v)
    {renderer : Renderer} (hrenderer : r.renderer? v = some renderer) {rule rule' : Outcome Text}
    (hrule : Corresponds Eq rule rule') (level : Int) :
    Corresponds Eq (r.apply level v rule renderer) (r.apply level v' rule' renderer) := by
  cases renderer with
  | byte =>
    rw [apply, apply, ofByte_eq_of_reordered hv]
    exact corresponds_refl fun _ ↦ rfl
  | shaped shape =>
    rw [apply, apply, ofShape, ofShape, hv.kind_eq, hv.typeName_eq]
    split_ifs
    · exact hrule
    · exact corresponds_refl fun _ ↦ rfl
  | own name => exact hindifferent name hrenderer v' hv r (.inl rfl) level

theorem corresponds_custom (hv : v.Reordered v') (hindifferent : r.Indifferent v)
    {rule rule' : Outcome Text} (hrule : Corresponds Eq rule rule') (consult : Bool) (level : Int) :
    Corresponds Eq (custom consult r level v rule) (custom consult r level v' rule') := by
  have hsame : r.renderer? v' = r.renderer? v := by rw [renderer?, renderer?, hv.identity?_eq]
  rw [custom, custom, hsame, ← hv.typeName_eq]
  cases consult with
  | false => exact hrule
  | true =>
    cases hchosen : r.renderer? v with
    | none => exact hrule
    | some renderer =>
      exact (corresponds_refl fun _ ↦ rfl).bind fun _ _ _ _ _ ↦
        corresponds_apply hv hindifferent hchosen hrule level

omit [Host] in
/-- Texts that correspond do so without the tabs in front of them. -/
theorem corresponds_nested {part part' : Outcome Text} (h : Corresponds Eq part part')
    (level : Int) : Corresponds Eq (r.nested level part) (r.nested level part') :=
  h.bind fun _ _ _ _ heq ↦ heq ▸ corresponds_pure rfl

omit [Host] in
/-- Parts that correspond do so behind a label. -/
theorem corresponds_labelled {part part' : Outcome Text} {level : Int}
    (h : Corresponds Eq part part') (label : Text) :
    Corresponds Eq (do pure (label ++ ": " ++ (← r.nested level part)))
      (do pure (label ++ ": " ++ (← r.nested level part'))) :=
  (corresponds_nested h level).bind fun _ _ _ _ heq ↦ heq ▸ corresponds_pure rfl

omit [Host] in
/-- Parts that correspond make composite values that do. -/
theorem corresponds_composite {α β : Type} {xs : List α} {ys : List β} {f : α → Outcome Text}
    {g : β → Outcome Text} (h : List.Forall₂ (fun x y ↦ Corresponds Eq (f x) (g y)) xs ys)
    (compose : List Text → Text) :
    Corresponds Eq (do pure (compose (← Outcome.sequence (xs.map f))))
      (do pure (compose (← Outcome.sequence (ys.map g)))) :=
  (corresponds_sequence_map h).bind fun _ _ _ _ hall ↦
    corresponds_pure (congrArg compose (List.forall₂_eq_eq_eq ▸ hall))

/-- Keys with distinct labels leave no ties to be broken by the enumeration. -/
theorem nodup_labels {rule : KeyRule} {key mapped : Ty} {storage : Identity}
    {entries : List (Value × Value)}
    (hlabels : r.DistinctLabels (.map rule key mapped storage entries))
    (hreturns : ∀ entry ∈ entries, (r.keyLabel entry.1).Returns) :
    ((entries.map fun entry ↦ (r.label entry.1, entry.1)).map Prod.fst).Nodup := by
  rw [List.map_map, List.Nodup, List.pairwise_map]
  refine List.Pairwise.imp_of_mem (fun {a b} ha hb h heq ↦ ?_) hlabels
  have heq : r.label a.1 = r.label b.1 := heq
  exact h _ (keyLabel_yields (hreturns a ha)) (heq ▸ keyLabel_yields (hreturns b hb))

/-- Reordered maps have their keys in one order, given that their keys have the same labels. -/
theorem corresponds_sortedKeys_of_reordered (hv : v.Reordered v') (hlabels : r.DistinctLabels v)
    (hkeys : ∀ k ∈ v.parts, ∀ k', k.Reordered k' → Corresponds Eq (r.keyLabel k) (r.keyLabel k')) :
    Corresponds (List.Forall₂ fun item item' ↦ item.1 = item'.1 ∧ item.2.Reordered item'.2)
      (r.sortedKeys v) (r.sortedKeys v') := by
  cases hv with
  | @map rule key mapped storage entries permuted others hperm hordered hks hvs =>
    have hentry {entry : Value × Value} (hmem : entry ∈ permuted) : entry ∈ entries :=
      hperm.mem_iff.mpr hmem
    have hall : List.Forall₂ (fun entry other ↦ Corresponds Eq (r.keyLabel entry.1)
        (r.keyLabel other.1) ∧ entry.1.Reordered other.1) permuted others := by
      rw [List.forall₂_map_left_iff, List.forall₂_map_right_iff] at hks
      refine (forall₂_mem_left hks).imp fun entry other h ↦ ?_
      exact ⟨hkeys _ (Value.key_mem_parts (hentry h.1)) _ h.2, h.2⟩
    by_cases hreturns : ∀ entry ∈ entries, (r.keyLabel entry.1).Returns
    · have hreturns' : ∀ other ∈ others, (r.keyLabel other.1).Returns := by
        intro other hother
        obtain ⟨entry, hmem, h, -⟩ := exists_of_mem_right hall hother
        exact h.returns_iff.mp (hreturns entry (hentry hmem))
      refine .of_yields (sortedKeys_yields.mpr ⟨hreturns, rfl⟩)
        (sortedKeys_yields.mpr ⟨hreturns', rfl⟩) ?_
      rw [Table.sortLabelled_eq_of_perm (hperm.map _) (nodup_labels hlabels hreturns)]
      refine Table.sortLabelled_forall₂ ?_
      rw [List.forall₂_map_left_iff, List.forall₂_map_right_iff]
      refine (forall₂_mem_left hall).imp ?_
      rintro entry other ⟨hmem, h, hre⟩
      obtain ⟨label, hlabel⟩ := hreturns entry (hentry hmem)
      exact ⟨(label_of_yields hlabel).trans (label_of_yields ((h.yields_iff label).mp hlabel)).symm,
        hre⟩
    · refine corresponds_of_never (fun _ h ↦ hreturns (sortedKeys_yields.mp h).1) fun _ hothers ↦ ?_
      refine hreturns fun entry hmem ↦ ?_
      obtain ⟨other, hother, h, -⟩ := exists_of_mem_left hall (hperm.mem_iff.mp hmem)
      exact h.returns_iff.mpr ((sortedKeys_yields.mp hothers).1 other hother)
  | _ => exact corresponds_of_never (fun _ ↦ nofun) (fun _ ↦ nofun)

variable [LawfulHost]

/-- The rule of a kind writes reordered values alike, given this of their parts and labels. -/
theorem corresponds_text_false [SteadyHost] (hv : v.Reordered v') (hkeyed : v.Keyed)
    (hlabels : r.DistinctLabels v)
    (hparts : ∀ u ∈ v.parts, ∀ u', u.Reordered u' → ∀ level,
      Corresponds Eq (text true u r level) (text true u' r level))
    (hkeys : ∀ k ∈ v.parts, ∀ k', k.Reordered k' → Corresponds Eq (r.keyLabel k) (r.keyLabel k'))
    (level : Int) : Corresponds Eq (text false v r level) (text false v' r level) := by
  have hsame {x : Outcome Text} : Corresponds Eq x x := corresponds_refl fun _ ↦ rfl
  have hsorted := corresponds_sortedKeys_of_reordered hv hlabels hkeys
  have hlookup := hv
  cases hv with
  | absent => exact hsame
  | hidden type => exact hsame
  | scalar s => exact hsame
  | nil form target => exact hsame
  | pointee form target object h =>
    rw [text, text, custom_false, custom_false]
    split_ifs
    · exact hsame
    · exact hparts _ (by simp [Value.parts]) _ h level
  | record name hnames h =>
    rw [text, text, custom_false, custom_false, fieldTexts_eq_map, fieldTexts_eq_map]
    refine corresponds_composite ?_ _
    refine (forall₂_mem_left (forall₂_pairs_of_eq hnames h)).imp ?_
    rintro field field' ⟨hmem, hname, hre⟩
    rw [← hname]
    exact corresponds_labelled (hparts _ (List.mem_map_of_mem hmem) _ hre _) field.1
  | sequence form element storage h =>
    rw [text, text, custom_false, custom_false, elementTexts_eq_map, elementTexts_eq_map]
    refine corresponds_composite ?_ _
    exact (forall₂_mem_left h).imp fun u u' hu ↦ corresponds_nested (hparts u hu.1 u' hu.2 _) _
  | @map rule key mapped storage entries permuted others =>
    rw [text, text, custom_false, custom_false, entryTexts_eq_map, entryTexts_eq_map,
      sortKeys_keyTexts, sortKeys_keyTexts]
    refine hsorted.bind fun keys keys' _ _ hall ↦ corresponds_composite (hall.imp ?_) _
    rintro ⟨label, k⟩ ⟨label', k'⟩ ⟨hlabel, hk⟩
    obtain rfl : label = label' := hlabel
    refine corresponds_labelled ?_ label
    rw [Table.find?_map rule k fun u ↦ text true u r (level + 1),
      Table.find?_map rule k' fun u ↦ text true u r (level + 1)]
    have hfound := hlookup.find?_rel hkeyed hk
    generalize hu : Table.find? rule k entries = u at hfound
    generalize Table.find? rule k' others = u' at hfound
    cases hfound with
    | none => exact hsame
    | some hre =>
      obtain ⟨k, hmem⟩ := Table.exists_mem_of_find? hu
      exact hparts _ (Value.mapped_mem_parts hmem) _ hre _
  | interface type alternative h => exact hparts _ List.mem_cons_self _ h level

/-- Values have one text, however the maps in them are enumerated. -/
theorem corresponds_text [SteadyHost] (hv : v.Reordered v') (hsteady : v.Everywhere r.Steady)
    (consult : Bool) (level : Int) :
    Corresponds Eq (text consult v r level) (text consult v' r level) := by
  induction v using Value.induction_parts generalizing v' r consult level with
  | h v ih =>
    have hrule := corresponds_text_false hv hsteady.self.keyed hsteady.self.labels
      (fun u hu u' hre ↦ ih u hu hre (hsteady.part hu) true)
      (fun k hk k' hre ↦ ih k hk hre ((hsteady.part hk).mono fun _ h ↦ h.forKeys) true 0) level
    by_cases haccessible : v.isAccessible
    · rw [text_eq_custom haccessible consult,
        text_eq_custom (hv.isAccessible_eq ▸ haccessible) consult]
      exact corresponds_custom hv hsteady.self.indifferent hrule consult level
    · rwa [text_of_not_accessible haccessible consult,
        text_of_not_accessible (hv.isAccessible_eq ▸ haccessible) consult]

end Rendering

/-! ## Comparisons -/

namespace Comparison

variable [Host] {want want' found found' : Value} {ops : Options} {m m' : Meeting}

/-- Notices bring no renderer of the program along. -/
theorem noticeRendering_indifferent {r : Rendering} {v : Value} (h : r.Indifferent v) :
    (noticeRendering r).Indifferent v := by
  intro name hrenderer v' hv r' hnear level
  refine h name ?_ v' hv r' (near_of_noticeRendering hnear) level
  unfold noticeRendering at hrenderer
  split_ifs at hrenderer
  · exact hrenderer
  · exact (Rendering.renderer?_register hrenderer).resolve_left (by simp)

/-- What keeps the enumeration of maps out of comparisons. -/
structure Orderly (r : Rendering) (v : Value) : Prop extends r.Steady v where
  noticeLabels : (noticeRendering r).DistinctLabels v

/-- What keeps the enumeration of maps out of a comparison keeps it out of its notices as well. -/
theorem Orderly.toNotice {r : Rendering} {v : Value} (h : Orderly r v) :
    (noticeRendering r).Steady v where
  keyed := h.keyed
  labels := h.noticeLabels
  indifferent := noticeRendering_indifferent h.indifferent

theorem orderly_absent (r : Rendering) : Orderly r .absent where
  keyed := trivial
  labels := trivial
  indifferent := nofun
  noticeLabels := trivial

/-- Mismatches of reordered values are told alike. -/
theorem corresponds_mismatch_of_reordered [LawfulHost] [SteadyHost] {context : Context}
    (hwant : want.Reordered want') (hfound : found.Reordered found')
    (horderly : want.Everywhere (Orderly context.rendering))
    (horderly' : found.Everywhere (Orderly context.rendering)) :
    Corresponds Eq (mismatch want found context) (mismatch want' found' context) := by
  have hwantText := Rendering.corresponds_text hwant (horderly.mono fun _ h ↦ h.toNotice) true 0
  have hfoundText := Rendering.corresponds_text hfound (horderly'.mono fun _ h ↦ h.toNotice) true 0
  rw [mismatch, mismatch, hwant.typeName_eq, hfound.typeName_eq, hwant.identity?_eq,
    hfound.identity?_eq]
  refine hwantText.bind fun wantText _ _ _ heq ↦ hfoundText.bind fun foundText _ _ _ heq' ↦ ?_
  subst heq heq'
  exact corresponds_refl fun _ ↦ rfl

/-- Reordered values meet under the same options. -/
structure Rearranged (m m' : Meeting) : Prop where
  want : m.want.Reordered m'.want
  found : m.found.Reordered m'.found
  ops : m.ops = m'.ops
  unchecked : m.ops.Unchecked
  orderly : m.want.Everywhere (Orderly m.ops.rendering) ∧
    m.found.Everywhere (Orderly m.ops.rendering)

theorem Rearranged.alike (h : Rearranged m m') : m.Alike m' where
  skipped := by rw [h.ops]
  skipHidden := by rw [h.ops]
  present := ⟨h.want.isPresent_eq, h.found.isPresent_eq⟩
  accessible := ⟨h.want.isAccessible_eq, h.found.isAccessible_eq⟩
  identity := ⟨h.want.identity?_eq, h.found.identity?_eq⟩

/-- Reordered values remain so part by part, under the same options. -/
theorem Rearranged.follow (h : Rearranged m m') {v w v' w' : Value} (hv : v ∈ m.want.parts)
    (hw : w ∈ m.found.parts) (hre : v.Reordered v') (hre' : w.Reordered w')
    (step : Option Step) :
    Rearranged ⟨v, w, m.ops.follow step⟩ ⟨v', w', m'.ops.follow step⟩ where
  want := hre
  found := hre'
  ops := by rw [h.ops]
  unchecked := h.unchecked.follow step
  orderly := by
    rw [Options.follow_rendering]
    exact h.orderly.imp (·.part hv) (·.part hw)

/-- Comparisons of reordered values stay in step. -/
theorem rearranged_simulation [LawfulHost] [SteadyHost] : Simulation true Eq Rearranged where
  unchecked h := ⟨h.unchecked, h.ops ▸ h.unchecked⟩
  alike h := h.alike
  mismatch {m m'} h := by
    rw [Meeting.mismatch, Meeting.mismatch, ← h.ops]
    exact corresponds_mismatch_of_reordered h.want h.found h.orderly.1 h.orderly.2
  hidden h := by rw [h.ops]
  prepend _ _ h := h ▸ rfl
  inspect {m m'} h hinspected := by
    refine corresponds_inspect h.want h.found hinspected.identity
      ⟨h.orderly.1.self.keyed, h.orderly.2.self.keyed⟩ ?_ ?_ ?_
    · rw [← h.ops]
      refine (Rendering.corresponds_sortedKeys_of_reordered h.want h.orderly.1.self.labels ?_).imp
        fun _ _ hall ↦ .of_forall₂ (hall.imp fun _ _ hitem ↦ ⟨fun _ ↦ hitem.1, hitem.2⟩)
      intro k hk k' hre
      exact Rendering.corresponds_text hre
        ((h.orderly.1.part hk).mono fun _ h ↦ h.toSteady.forKeys) true 0
    · intro step step' v w v' w' hstep hv hw hre hre'
      obtain rfl := hstep rfl
      exact h.follow hv hw hre hre' step
    · intro label label' hlabel
      obtain rfl := hlabel rfl
      rw [Meeting.lacking, Meeting.lacking, ← h.ops]
      exact corresponds_mismatch_of_reordered h.found .absent h.orderly.2
        (Value.everywhere_absent (orderly_absent _))

/-- Comparisons do not see how unordered maps are enumerated: they return the same notices, or
neither returns; and they do return where the registered renderers do. -/
theorem yields_iff_of_reordered [LawfulHost] [SteadyHost] (hops : ops.Unchecked)
    (hwant : want.Reordered want') (hfound : found.Reordered found')
    (horderly : want.Everywhere (Orderly ops.rendering))
    (horderly' : found.Everywhere (Orderly ops.rendering)) :
    (∀ notices, (compare want found ops).Yields notices ↔
        (compare want' found' ops).Yields notices) ∧
      (ops.rendering.Faultless → ∀ declared, want.Everywhere (Value.Genuine declared) →
        found.Everywhere (Value.Genuine declared) → ∃ notices,
          (compare want found ops).Yields notices ∧ (compare want' found' ops).Yields notices) := by
  have hmeetings : Rearranged ⟨want, found, ops⟩ ⟨want', found', ops⟩ :=
    { want := hwant
      found := hfound
      ops := rfl
      unchecked := hops
      orderly := ⟨horderly, horderly'⟩ }
  have hsame : Corresponds Eq (compare want found ops) (compare want' found' ops) :=
    (rearranged_simulation.compare hmeetings).imp fun _ _ hmatched ↦
      List.forall₂_eq_eq_eq ▸ matched_true.mp hmatched
  refine ⟨hsame.yields_iff, fun hr _ hgenuine hgenuine' ↦ ?_⟩
  obtain ⟨notices, hnotices⟩ := compare_returns hops hr hgenuine hgenuine'
  exact ⟨notices, hnotices, (hsame.yields_iff notices).mp hnotices⟩

/-- Under all renderings with `p`, comparisons return the same notices however maps are enumerated,
given distinct labels. -/
def BlindWhere (p : Rendering → Prop) : Prop :=
  ∀ (declared : Text → List Text) (want want' found found' : Value) (ops : Options),
    ops.Unchecked → p ops.rendering → want.Reordered want' → found.Reordered found' →
    want.Everywhere (Value.Genuine declared) → found.Everywhere (Value.Genuine declared) →
    want.Everywhere ops.rendering.DistinctLabels → found.Everywhere ops.rendering.DistinctLabels →
    want.Everywhere (noticeRendering ops.rendering).DistinctLabels →
    found.Everywhere (noticeRendering ops.rendering).DistinctLabels →
    ∃ notices, (compare want found ops).Yields notices ∧ (compare want' found' ops).Yields notices

end Comparison

/-! ## Samples -/

namespace Comparison

open scoped Sample

def tally (storage : Identity) (counts : List (Int × Int)) : Value :=
  .map .hashed Sample.int Sample.int storage
    (counts.map fun count ↦ (.scalar (.integer .int count.1), .scalar (.integer .int count.2)))

theorem tally_reordered (storage : Identity) {counts permuted : List (Int × Int)}
    (h : counts.Perm permuted) : (tally storage counts).Reordered (tally storage permuted) :=
  .map .hashed Sample.int Sample.int storage (h.map _) nofun
    (List.forall₂_same.mpr fun _ _ ↦ .refl _) (List.forall₂_same.mpr fun _ _ ↦ .refl _)

theorem yields_iff_of_reordered_tally :
    (∀ notices, (compare (tally 0 [(1, 3), (2, 4)]) (tally 1 [(1, 3), (2, 5)]) {}).Yields notices ↔
        (compare (tally 0 [(2, 4), (1, 3)]) (tally 1 [(2, 5), (1, 3)]) {}).Yields notices) ∧
      ∃ notices, (compare (tally 0 [(1, 3), (2, 4)]) (tally 1 [(1, 3), (2, 5)]) {}).Yields notices ∧
        (compare (tally 0 [(2, 4), (1, 3)]) (tally 1 [(2, 5), (1, 3)]) {}).Yields notices := by
  have hops : ({} : Options).Unchecked := ⟨rfl, rfl⟩
  have hseen (v : Value) (h : v.Everywhere fun u ↦ u.Keyed ∧ ({} : Rendering).DistinctLabels u ∧
      (noticeRendering {}).DistinctLabels u) : v.Everywhere (Orderly {}) :=
    h.mono fun u hu ↦ ⟨⟨hu.1, hu.2.1, Rendering.indifferent_of_plain rfl u⟩, hu.2.2⟩
  have hwant : (tally 0 [(1, 3), (2, 4)]).Everywhere (Value.Genuine fun _ ↦ []) := by decide
  have hfound : (tally 1 [(1, 3), (2, 5)]).Everywhere (Value.Genuine fun _ ↦ []) := by decide
  have hsame := yields_iff_of_reordered hops (tally_reordered 0 (.swap (2, 4) (1, 3) []))
    (tally_reordered 1 (.swap (2, 5) (1, 3) [])) (hseen _ (by decide)) (hseen _ (by decide))
  exact hsame.imp_right fun h ↦ h Rendering.faultless_empty _ hwant hfound

def twoTooMany (first : Text) : Notice where
  header := "expected values to be equal"
  rows := [⟨"want len", "2"⟩, ⟨"have len", "0"⟩, ⟨"want", first⟩, ⟨"have", "none"⟩]

/-- A renderer may refuse a key, and one which returns may tell how a map is enumerated. -/
theorem not_blindWhere : ¬ BlindWhere (fun _ ↦ True) ∧ ¬ BlindWhere Rendering.Faultless := by
  constructor
  · intro h
    have hwant : (tally 0 [(1, 2)]).Everywhere (Value.Genuine fun _ ↦ []) := by decide
    have hfound : (tally 1 [(1, 2)]).Everywhere (Value.Genuine fun _ ↦ []) := by decide
    let ops : Options := { rendering := ({} : Rendering).register Sample.int Renderer.byte }
    obtain ⟨notices, hnotices, -⟩ := h _ _ _ _ _ ops ⟨rfl, rfl⟩ trivial (.refl _) (.refl _) hwant
      hfound (by decide) (by decide) (by decide) (by decide)
    have hfails : (compare (tally 0 [(1, 2)]) (tally 1 [(1, 2)]) ops).result.toBool = false := by
      decide
    rw [hnotices] at hfails
    cases hfails
  · intro h
    have hwant : (tally 0 [(1, 3), (2, 4)]).Everywhere (Value.Genuine fun _ ↦ []) := by decide
    have hfound : (tally 1 []).Everywhere (Value.Genuine fun _ ↦ []) := by decide
    let ops : Options :=
      { rendering :=
          ({} : Rendering).register (.map .hashed Sample.int Sample.int) (.own "firstKey") }
    have hfaultless : ops.rendering.Faultless :=
      Rendering.faultless_register fun v _ _ _ _ _ _ ↦ by
        change (Sample.firstKey v).Returns
        unfold Sample.firstKey
        split <;> exact returns_pure _
    obtain ⟨notices, hnotices, hnotices'⟩ := h _ _ _ _ _ ops ⟨rfl, rfl⟩ hfaultless
      (tally_reordered 0 (.swap (2, 4) (1, 3) [])) (.refl _) hwant hfound (by decide) (by decide)
      (by decide) (by decide)
    have hfirst : (compare (tally 0 [(1, 3), (2, 4)]) (tally 1 []) ops).Yields
        [twoTooMany "1"] := by decide
    have hfirst' : (compare (tally 0 [(2, 4), (1, 3)]) (tally 1 []) ops).Yields
        [twoTooMany "2"] := by decide
    have hsame := (hnotices.unique hfirst).symm.trans (hnotices'.unique hfirst')
    revert hsame
    decide

end Comparison

end Discrepancy
