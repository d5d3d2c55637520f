import Discrepancy.Compare.Comparison
import Discrepancy.Proofs.Parts
import Discrepancy.Proofs.Results

/-!
# Values that can be rendered

Every value has a text unless something sealed stands within it, or a registered renderer or the
formatting library refuses it.  So do the keys of maps and the two sides of a notice.  What
renderers do is not known here; it is only taken for granted with which faults they may end, if any,
and the one for bytes, which notices bring along, ends with none.
-/

namespace Discrepancy

open Outcome

/-- Whether nothing but the type of a scalar can be learned. -/
def Scalar.isSealed : Scalar → Bool
  | sealed .. => true
  | _ => false

namespace Value

def Unsealed : Value → Prop
  | scalar s => ¬ s.isSealed
  | _ => True

instance : DecidablePred Unsealed
  | scalar s => inferInstanceAs (Decidable (¬ s.isSealed))
  | absent | hidden _ | pointer .. | record .. | sequence .. | map .. | interface .. =>
    isTrue trivial

variable [Host]

/-- The formatting library refuses a value with some fault. -/
inductive Refused : Value → Fault → Prop
  | span {type : AtomTy} {period : Period} {count : Binary} {message : Text}
      (h : Host.spanText type period count = .error message) :
      Refused (scalar (.span type period count)) (.unformattable message)
  | instant {type : AtomTy} {period : Period} {count : Binary} {message : Text}
      (h : Host.instantText type period count = .error message) :
      Refused (scalar (.instant type period count)) (.unformattable message)

/-- The formatting library has a text for a value which is left to it. -/
def Formatted : Value → Prop
  | scalar (.span type period count) => (Host.spanText type period count).isOk
  | scalar (.instant type period count) => (Host.instantText type period count).isOk
  | _ => True

instance : DecidablePred Formatted
  | scalar (.span type period count) =>
    inferInstanceAs (Decidable ((Host.spanText type period count).isOk = true))
  | scalar (.instant type period count) =>
    inferInstanceAs (Decidable ((Host.instantText type period count).isOk = true))
  | scalar (.bool _) | scalar (.integer ..) | scalar (.float ..) | scalar (.complex ..)
  | scalar (.string ..) | scalar (.func ..) | scalar (.chan ..) | scalar (.sealed ..)
  | absent | hidden _ | pointer .. | record .. | sequence .. | map .. | interface .. =>
    isTrue trivial

theorem Formatted.not_refused {v : Value} (h : v.Formatted) (fault : Fault) :
    ¬ v.Refused fault := by
  rintro (h' | h') <;> simp [Formatted, h', Except.isOk, Except.toBool] at h

/-- A value has a text of its own, unless the formatting library refuses it with a fault for which
`p` holds. -/
structure RenderableUpTo (p : Fault → Prop) (v : Value) : Prop where
  unsealed : v.Unsealed
  refused : ∀ fault, v.Refused fault → p fault

/-- A value has a text of its own. -/
abbrev Renderable : Value → Prop :=
  RenderableUpTo fun _ ↦ False

/-- A value has a text of its own unless it is sealed or refused. -/
theorem renderable_iff {v : Value} : v.Renderable ↔ v.Unsealed ∧ v.Formatted := by
  refine ⟨fun h ↦ ⟨h.unsealed, ?_⟩, fun h ↦ ⟨h.1, h.2.not_refused⟩⟩
  unfold Formatted
  split
  · rename_i type period count
    cases htext : Host.spanText type period count with
    | ok text => rfl
    | error message => exact (h.refused _ (.span htext)).elim
  · rename_i type period count
    cases htext : Host.instantText type period count with
    | ok text => rfl
    | error message => exact (h.refused _ (.instant htext)).elim
  · trivial

instance : DecidablePred Renderable := fun _ ↦ decidable_of_iff _ renderable_iff.symm

/-- What is no scalar has a text if its parts have. -/
theorem RenderableUpTo.of_not_scalar {p : Fault → Prop} {v : Value} (h : ∀ s, v ≠ scalar s) :
    v.RenderableUpTo p where
  unsealed := by
    cases v with
    | scalar s => exact (h s rfl).elim
    | _ => trivial
  refused := by
    rintro fault (h' | h') <;> exact (h _ rfl).elim

end Value

section

variable [Host] {p : Fault → Prop}

theorem Scalar.text_faultsOnly {s : Scalar} (h : (Value.scalar s).RenderableUpTo p)
    (style : Style) : (s.text style).FaultsOnly p := by
  cases s with
  | string type content place => cases content <;> exact faultsOnly_pure _
  | sealed name kind => exact (h.unsealed rfl).elim
  | span type period count =>
    cases htext : Host.spanText type period count with
    | ok t =>
      simp only [Scalar.text, Value.render, htext]
      exact faultsOnly_pure _
    | error message =>
      simp only [Scalar.text, Value.render, htext]
      exact fun fault hfault ↦ Except.error.inj hfault ▸ h.refused _ (.span htext)
  | instant type period count =>
    cases htext : Host.instantText type period count with
    | ok t =>
      simp only [Scalar.text, Value.render, htext]
      exact faultsOnly_pure _
    | error message =>
      simp only [Scalar.text, Value.render, htext]
      exact fun fault hfault ↦ Except.error.inj hfault ▸ h.refused _ (.instant htext)
  | _ => exact faultsOnly_pure _

theorem Scalar.text_returns {s : Scalar} (h : (Value.scalar s).Renderable) (style : Style) :
    (s.text style).Returns :=
  returns_iff_faultsOnly.mpr (text_faultsOnly h style)

end

/-- Without the entries of another key, a key still finds its own. -/
theorem lookup_filter {κ α : Type} [BEq κ] [LawfulBEq κ] {key other : κ} (h : key ≠ other)
    (table : List (κ × α)) :
    (table.filter fun entry ↦ entry.1 != other).lookup key = table.lookup key := by
  induction table with
  | nil => rfl
  | cons entry rest ih =>
    obtain ⟨key', a⟩ := entry
    by_cases hother : key' = other
    · subst hother
      rw [List.filter_cons_of_neg (by simp), List.lookup_cons, beq_false_of_ne h]
      exact ih
    · rw [List.filter_cons_of_pos (by simp [hother]), List.lookup_cons, List.lookup_cons, ih]

namespace Rendering

/-- The renderings in which the renderers of a rendering are consulted: those with the same ones,
and those of notices. -/
def Near (r r' : Rendering) : Prop :=
  r'.renderers = r.renderers ∨ r'.renderers = (Comparison.noticeRendering r).renderers

variable [Host] {p : Fault → Prop} {r : Rendering}

/-- Registered renderers end with a text, or with a fault for which `p` holds, for all values they
are consulted for. -/
def Confined (p : Fault → Prop) (r : Rendering) : Prop :=
  ∀ v renderer, r.renderer? v = some renderer → v.isAccessible → ∀ r', r.Near r' →
    ∀ level rule, rule.FaultsOnly p → (r'.apply level v rule renderer).FaultsOnly p

/-- Registered renderers return a text for all values they are consulted for. -/
abbrev Faultless : Rendering → Prop :=
  Confined fun _ ↦ False

omit [Host] in
/-- The style has no part in which renderers are consulted. -/
theorem Near.of_withStyle {style : Style} {r' : Rendering}
    (h : ({ r with style := style } : Rendering).Near r') : r.Near r' := by
  refine h.imp_right fun hnotice ↦ hnotice.trans ?_
  have hsame :
      ({ r with style := style } : Rendering).hasRenderer byteTy = r.hasRenderer byteTy := rfl
  unfold Comparison.noticeRendering
  by_cases hbyte : r.hasRenderer byteTy
  · rw [if_pos (hsame.trans hbyte), if_pos hbyte]
  · rw [if_neg (hsame ▸ hbyte), if_neg hbyte]
    rfl

theorem Confined.withStyle (h : r.Confined p) (style : Style) :
    ({ r with style := style } : Rendering).Confined p :=
  fun v renderer hrenderer haccessible r' hnear ↦
    h v renderer hrenderer haccessible r' hnear.of_withStyle

theorem Confined.forKeys (h : r.Confined p) : r.forKeys.Confined p :=
  h.withStyle r.style.forKeys

theorem custom_faultsOnly (h : r.Confined p) {v : Value} (haccessible : v.isAccessible)
    {rule : Outcome Text} (hrule : rule.FaultsOnly p) (consult : Bool) (level : Int) :
    (custom consult r level v rule).FaultsOnly p := by
  unfold custom
  cases consult with
  | false => exact hrule
  | true =>
    cases hrenderer : r.renderer? v with
    | none => exact hrule
    | some renderer =>
      exact (Returns.faultsOnly ⟨(), yields_emit _⟩ p).bind fun _ _ ↦
        h v renderer hrenderer haccessible r (.inl rfl) level rule hrule

section

variable {P : ∀ {α : Type}, Outcome α → Prop} (hP : Compositional P)
include hP

omit [Host] in
theorem sortKeys_compositional {α : Type} {labels : List (α × Outcome Text)}
    (h : ∀ label ∈ labels, P label.2) : P (sortKeys labels) :=
  hP.of_bind (hP.of_sequence_map h) fun _ _ ↦ hP.of_pure _

omit [Host] in
/-- A part keeps the property without the tabs in front of it and behind its label. -/
theorem labelled_compositional {part : Outcome Text} (h : P part) (level : Int) (label : Text) :
    P (do pure (label ++ ": " ++ (← r.nested level part)) : Outcome Text) :=
  hP.of_bind (hP.of_bind h fun _ _ ↦ hP.of_pure _) fun _ _ ↦ hP.of_pure _

/-- The rule of a kind has a property which is kept along chains, if the texts of the parts and of
the labels have it. -/
theorem text_false_compositional {v : Value} (hscalar : ∀ s, v = .scalar s → P (s.text r.style))
    (hparts : ∀ u ∈ v.parts, ∀ level, P (text true u r level))
    (hlabels : ∀ u ∈ v.parts, P (text true u r.forKeys 0)) (level : Int) :
    P (text false v r level) := by
  cases v with
  | absent => exact hP.of_pure _
  | hidden type => exact hP.of_pure _
  | scalar s => exact hP.of_bind (hscalar s rfl) fun _ _ ↦ hP.of_pure _
  | pointer form target pointee =>
    rcases pointee with _ | ⟨object, u⟩
    · exact hP.of_pure _
    · rw [text, custom_false]
      split
      · exact hP.of_pure _
      · exact hparts u (by simp [Value.parts]) level
  | record name fields =>
    rw [text, custom_false, fieldTexts_eq_map]
    refine hP.of_bind (hP.of_sequence_map fun field hmem ↦ ?_) fun _ _ ↦ hP.of_pure _
    exact labelled_compositional hP (hparts field.2 (List.mem_map_of_mem hmem) _) _ _
  | sequence form element storage elements =>
    rw [text, custom_false, elementTexts_eq_map]
    refine hP.of_bind (hP.of_sequence_map fun u hmem ↦ ?_) fun _ _ ↦ hP.of_pure _
    exact hP.of_bind (hparts u hmem _) fun _ _ ↦ hP.of_pure _
  | map rule key mapped storage entries =>
    rw [text, custom_false, keyTexts_eq_map, entryTexts_eq_map]
    refine hP.of_bind (sortKeys_compositional hP fun label hlabel ↦ ?_) fun keys _ ↦
      hP.of_bind (hP.of_sequence_map fun item _ ↦ ?_) fun _ _ ↦ hP.of_pure _
    · obtain ⟨entry, hmem, rfl⟩ := List.mem_map.mp hlabel
      exact hlabels entry.1 (Value.key_mem_parts hmem)
    · refine labelled_compositional hP ?_ _ _
      rw [Table.find?_map rule item.2 fun u ↦ text true u r (level + 1)]
      cases hfound : Table.find? rule item.2 entries with
      | none => exact hP.of_pure _
      | some u =>
        obtain ⟨k, hmem⟩ := Table.exists_mem_of_find? hfound
        exact hparts u (Value.mapped_mem_parts hmem) _
  | interface type alternative content => exact hparts content List.mem_cons_self level

end

/-- Every value without sealed parts has a text, unless a renderer or the formatting library
refuses. -/
theorem text_faultsOnly (h : r.Confined p) {v : Value} (hv : v.Everywhere (Value.RenderableUpTo p))
    (consult : Bool) (level : Int) : (text consult v r level).FaultsOnly p := by
  induction v using Value.induction_parts generalizing r consult level with
  | h v ih =>
    have hrule : (text false v r level).FaultsOnly p := by
      refine text_false_compositional compositional_faultsOnly ?_
        (fun u hu ↦ ih u hu h (hv.part hu) true)
        (fun u hu ↦ ih u hu h.forKeys (hv.part hu) true 0) level
      rintro s rfl
      exact Scalar.text_faultsOnly hv.self r.style
    by_cases haccessible : v.isAccessible
    · rw [text_eq_custom haccessible consult]
      exact custom_faultsOnly h haccessible hrule consult level
    · rwa [text_of_not_accessible haccessible consult]

/-- Where renderers are without fault, what can be rendered is rendered. -/
theorem text_returns (h : r.Faultless) {v : Value} (hv : v.Everywhere Value.Renderable)
    (consult : Bool) (level : Int) : (text consult v r level).Returns :=
  returns_iff_faultsOnly.mpr (text_faultsOnly h hv consult level)

theorem any_returns (h : r.Faultless) {v : Value} (hv : v.Everywhere Value.Renderable) :
    (r.any v).Returns :=
  text_returns h hv true 0

theorem keyLabel_faultsOnly (h : r.Confined p) {key : Value}
    (hkey : key.Everywhere (Value.RenderableUpTo p)) : (r.keyLabel key).FaultsOnly p :=
  text_faultsOnly h.forKeys hkey true 0

theorem keyLabel_returns (h : r.Faultless) {key : Value} (hkey : key.Everywhere Value.Renderable) :
    (r.keyLabel key).Returns :=
  any_returns h.forKeys hkey

omit [Host] in
/-- Where a type was registered anew, the new renderer is consulted, elsewhere the one before. -/
theorem renderer?_register {type : Ty} {renderer rule : Renderer} {v : Value}
    (h : (r.register type rule).renderer? v = some renderer) :
    (v.identity? = some type.identity ∧ renderer = rule) ∨ r.renderer? v = some renderer := by
  obtain ⟨identity, hidentity, hlookup⟩ := Option.bind_eq_some_iff.mp h
  by_cases heq : identity = type.identity
  · subst heq
    rw [register, List.lookup_cons_self] at hlookup
    exact .inl ⟨hidentity, (Option.some.inj hlookup).symm⟩
  · rw [register, List.lookup_cons, beq_false_of_ne heq] at hlookup
    exact .inr (Option.bind_eq_some_iff.mpr
      ⟨identity, hidentity, (lookup_filter heq r.renderers).symm.trans hlookup⟩)

omit [Host] in
/-- Without registered renderers none is consulted. -/
theorem renderer?_of_plain (h : r.renderers = []) (v : Value) : r.renderer? v = none := by
  rw [renderer?, h]
  cases v.identity? <;> rfl

theorem confined_of_plain (h : r.renderers = []) : r.Confined p := by
  intro v renderer hrenderer
  rw [renderer?_of_plain h] at hrenderer
  cases hrenderer

/-- Without registered renderers none can fail. -/
theorem faultless_of_plain (h : r.renderers = []) : r.Faultless :=
  confined_of_plain h

theorem faultless_empty : ({} : Rendering).Faultless :=
  faultless_of_plain rfl

/-- A renderer that returns for the values of its type may be registered alone. -/
theorem faultless_register {type : Ty} {renderer : Renderer}
    (hrenderer : ∀ v, v.identity? = some type.identity → v.isAccessible → ∀ r level rule,
      rule.Returns → (apply r level v rule renderer).Returns) :
    (({} : Rendering).register type renderer).Faultless := by
  intro v renderer' hregistered haccessible r' _ level rule hrule
  rcases renderer?_register hregistered with ⟨hidentity, rfl⟩ | hregistered
  · exact returns_iff_faultsOnly.mp
      (hrenderer v hidentity haccessible r' level rule (returns_iff_faultsOnly.mpr hrule))
  · rw [renderer?_of_plain rfl] at hregistered
    cases hregistered

end Rendering

/-! ## Labels -/

namespace Rendering

variable [Host] {p : Fault → Prop} {r : Rendering}

/-- The label of a key, empty where it has none. -/
def label (r : Rendering) (key : Value) : Text :=
  match (r.keyLabel key).result with
  | .ok label => label
  | .error _ => []

theorem label_of_yields {key : Value} {label : Text} (h : (r.keyLabel key).Yields label) :
    r.label key = label := by
  rw [Rendering.label, h]

theorem keyLabel_yields {key : Value} (h : (r.keyLabel key).Returns) :
    (r.keyLabel key).Yields (r.label key) := by
  obtain ⟨label, hlabel⟩ := h
  rwa [label_of_yields hlabel]

theorem labels_yields {keys : List Value} {labels : List Text} :
    List.Forall₂ (fun key label ↦ (r.keyLabel key).Yields label) keys labels ↔
      (∀ key ∈ keys, (r.keyLabel key).Returns) ∧ labels = keys.map r.label := by
  induction keys generalizing labels with
  | nil => simp
  | cons key rest ih =>
    rw [List.forall₂_cons_left_iff, List.forall_mem_cons, List.map_cons]
    constructor
    · rintro ⟨label, others, hlabel, hothers, rfl⟩
      obtain ⟨hreturns, rfl⟩ := ih.mp hothers
      exact ⟨⟨⟨label, hlabel⟩, hreturns⟩, by rw [label_of_yields hlabel]⟩
    · rintro ⟨⟨hkey, hrest⟩, rfl⟩
      exact ⟨r.label key, rest.map r.label, keyLabel_yields hkey, ih.mpr ⟨hrest, rfl⟩, rfl⟩

/-- All keys of a map have labels. -/
def Labels (r : Rendering) : Value → Prop
  | .map _ _ _ _ entries => ∀ entry ∈ entries, (r.keyLabel entry.1).Returns
  | _ => True

theorem Confined.labels (h : r.Faultless) {v : Value} (hv : v.Everywhere Value.Renderable) :
    r.Labels v := by
  cases v with
  | map rule key mapped storage entries =>
    exact fun entry hmem ↦ keyLabel_returns h (hv.part (Value.key_mem_parts hmem))
  | _ => trivial

/-- The keys of a map are sorted by their labels, where all of them have one. -/
theorem sortedKeys_yields {rule : KeyRule} {key mapped : Ty} {storage : Identity}
    {entries : List (Value × Value)} {keys : List (Text × Value)} :
    (r.sortedKeys (.map rule key mapped storage entries)).Yields keys ↔
      (∀ entry ∈ entries, (r.keyLabel entry.1).Returns) ∧
        keys = Table.sortLabelled (entries.map fun entry ↦ (r.label entry.1, entry.1)) := by
  have hsequence (texts : List Text) :
      (Outcome.sequence (entries.map fun entry ↦ r.keyLabel entry.1)).Yields texts ↔
        (∀ entry ∈ entries, (r.keyLabel entry.1).Returns) ∧
          texts = entries.map fun entry ↦ r.label entry.1 := by
    have hlabels : List.Forall₂ (fun key label ↦ (r.keyLabel key).Yields label)
        (entries.map Prod.fst) texts ↔ _ := labels_yields
    rw [List.forall₂_map_left_iff, List.forall_mem_map, List.map_map] at hlabels
    rw [yields_sequence, List.forall₂_map_left_iff]
    exact hlabels
  have hzip : (entries.map fun entry ↦ r.label entry.1).zip (entries.map Prod.fst) =
      entries.map fun entry ↦ (r.label entry.1, entry.1) := List.zip_map'
  have hsorted : r.sortedKeys (.map rule key mapped storage entries) =
      Outcome.sequence (entries.map fun entry ↦ r.keyLabel entry.1) >>= fun texts ↦
        pure (Table.sortLabelled (texts.zip (entries.map Prod.fst))) := by
    simp [sortedKeys, Value.keys, sortKeys, Function.comp_def]
  rw [hsorted, yields_bind]
  constructor
  · rintro ⟨texts, htexts, hkeys⟩
    obtain ⟨hreturns, rfl⟩ := (hsequence texts).mp htexts
    rw [hzip, yields_pure] at hkeys
    exact ⟨hreturns, hkeys.symm⟩
  · rintro ⟨hreturns, rfl⟩
    refine ⟨_, (hsequence _).mpr ⟨hreturns, rfl⟩, ?_⟩
    rw [hzip, yields_pure]

/-- Sorted keys are keys of the map, each with its own label. -/
theorem exists_mem_of_sortedKeys {rule : KeyRule} {key mapped : Ty}
    {storage : Identity} {entries : List (Value × Value)} {keys : List (Text × Value)}
    {item : Text × Value}
    (hkeys : (r.sortedKeys (.map rule key mapped storage entries)).Yields keys)
    (hitem : item ∈ keys) :
    ∃ v, (item.2, v) ∈ entries ∧ (r.keyLabel item.2).Yields item.1 := by
  obtain ⟨hreturns, rfl⟩ := sortedKeys_yields.mp hkeys
  obtain ⟨⟨k, v⟩, hmem, rfl⟩ :=
    List.mem_map.mp ((Table.sortLabelled_perm _).mem_iff.mp hitem)
  exact ⟨v, hmem, keyLabel_yields (hreturns _ hmem)⟩

theorem sortedKeys_faultsOnly (h : r.Confined p) {rule : KeyRule} {key mapped : Ty}
    {storage : Identity} {entries : List (Value × Value)}
    (hv : (Value.map rule key mapped storage entries).Everywhere (Value.RenderableUpTo p)) :
    (r.sortedKeys (.map rule key mapped storage entries)).FaultsOnly p := by
  rw [sortedKeys, Value.keys, pure_bind]
  refine sortKeys_compositional compositional_faultsOnly fun label hlabel ↦ ?_
  rw [List.map_map] at hlabel
  obtain ⟨entry, hmem, rfl⟩ := List.mem_map.mp hlabel
  exact keyLabel_faultsOnly h (hv.part (Value.key_mem_parts hmem))

theorem sortKeys_keyTexts {rule : KeyRule} {key mapped : Ty} {storage : Identity}
    (entries : List (Value × Value)) :
    sortKeys (keyTexts entries r) = r.sortedKeys (.map rule key mapped storage entries) := by
  rw [keyTexts_eq_map, sortedKeys, Value.keys, pure_bind, List.map_map]
  rfl

end Rendering

/-! ## Notices -/

/-- Nothing but bytes is of their type. -/
theorem exists_eq_byte {v : Value} (hidentity : v.identity? = some byteTy.identity)
    (haccessible : v.isAccessible) : ∃ n, v = .scalar (.integer .unsignedChar n) := by
  cases v with
  | scalar s =>
    cases s with
    | integer type n =>
      obtain rfl : type = .unsignedChar := by simpa [Value.identity?, Value.ty?, Scalar.ty,
        byteTy, Ty.identity] using hidentity
      exact ⟨n, rfl⟩
    | _ => simp [Value.identity?, Value.ty?, Scalar.ty, byteTy, Ty.identity] at hidentity
  | hidden type => cases haccessible
  | interface type alternative content =>
    cases type <;>
      simp [Value.identity?, Value.ty?, InterfaceTy.ty, byteTy, Ty.identity] at hidentity
  | _ => simp [Value.identity?, Value.ty?, byteTy, Ty.identity] at hidentity

theorem Rendering.ofByte_returns {v : Value} (hidentity : v.identity? = some byteTy.identity)
    (haccessible : v.isAccessible) (r : Rendering) (level : Int) : (r.ofByte level v).Returns := by
  obtain ⟨n, rfl⟩ := exists_eq_byte hidentity haccessible
  exact returns_pure _

namespace Comparison

/-- In notices there is always a renderer for bytes. -/
theorem hasRenderer_noticeRendering (r : Rendering) : (noticeRendering r).hasRenderer byteTy := by
  unfold noticeRendering
  split_ifs with hbyte
  · exact hbyte
  · simp [Rendering.hasRenderer, Rendering.register]

/-- Notices add nothing to what they are rendered in. -/
theorem noticeRendering_noticeRendering (r : Rendering) :
    noticeRendering (noticeRendering r) = noticeRendering r :=
  if_pos (hasRenderer_noticeRendering r)

/-- What is consulted in notices of notices is consulted in notices. -/
theorem near_of_noticeRendering {r r' : Rendering} (h : (noticeRendering r).Near r') :
    r.Near r' :=
  .inr (h.elim id fun h ↦ h.trans (by rw [noticeRendering_noticeRendering]))

variable [Host] {p : Fault → Prop}

theorem noticeRendering_confined {r : Rendering} (h : r.Confined p) :
    (noticeRendering r).Confined p := by
  intro v renderer hrenderer haccessible r' hnear level rule hrule
  have hown (h' : r.renderer? v = some renderer) : (r'.apply level v rule renderer).FaultsOnly p :=
    h v renderer h' haccessible r' (near_of_noticeRendering hnear) level rule hrule
  unfold noticeRendering at hrenderer
  split_ifs at hrenderer
  · exact hown hrenderer
  · rcases Rendering.renderer?_register hrenderer with ⟨hidentity, rfl⟩ | hrenderer
    · exact (Rendering.ofByte_returns hidentity haccessible r' level).faultsOnly p
    · exact hown hrenderer

/-- A mismatch can be told, unless a renderer or the formatting library refuses. -/
theorem mismatch_faultsOnly {want found : Value} {context : Context}
    (h : context.rendering.Confined p) (hwant : want.Everywhere (Value.RenderableUpTo p))
    (hfound : found.Everywhere (Value.RenderableUpTo p)) :
    (mismatch want found context).FaultsOnly p := by
  have hr := noticeRendering_confined h
  refine (Rendering.text_faultsOnly hr hwant true 0).bind fun wantText _ ↦
    (Rendering.text_faultsOnly hr hfound true 0).bind fun foundText _ ↦ ?_
  dsimp only
  split <;> exact faultsOnly_pure _

theorem mismatch_returns {want found : Value} {context : Context}
    (h : context.rendering.Faultless) (hwant : want.Everywhere Value.Renderable)
    (hfound : found.Everywhere Value.Renderable) : (mismatch want found context).Returns :=
  returns_iff_faultsOnly.mpr (mismatch_faultsOnly h hwant hfound)

end Comparison

end Discrepancy
