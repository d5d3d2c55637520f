import Mathlib.Algebra.Order.BigOperators.Group.List
import Discrepancy.Proofs.PlainText
import Discrepancy.Sample.Host

/-!
# Labels in trails and in notices

The keys of a map have labels in two places: in the trails below it, and in the text of a notice
which shows it.  Trails take the rendering of the options, while notices add a renderer for bytes
where there is none.  The two agree, and so does the order of the entries, exactly if no label shows
a byte without a renderer; for the renderer writes a letter that no number has, and whatever else is
written around it, this letter stays.

Registered renderers go on with the parts of a value as the library would, so that bytes are shown
behind them as well.  What a renderer of the program does with the one for bytes is not known; where
it writes something else because of it, it is taken for granted that it does not write the letter
less often.
-/

namespace Discrepancy

open Outcome

/-! ## A letter that marks bytes -/

namespace Text

/-- How often the letter stands in a text that the numbers of bytes are written with. -/
def marks (t : Text) : Nat :=
  t.count (byte 'x')

theorem marks_append (s t : Text) : (s ++ t).marks = s.marks + t.marks :=
  List.count_append

/-- No number has the letter. -/
theorem marks_ofInt (n : Int) : (ofInt n).marks = 0 := by
  refine List.count_eq_zero_of_not_mem fun hmem ↦ ?_
  have hnot : ¬ (byte 'x' = byte '-' ∨ IsDigit (byte 'x')) := by decide
  exact hnot (mem_ofInt hmem)

theorem marks_joinWith (parts : List Text) :
    (joinWith ", " parts).marks = (parts.map marks).sum := by
  induction parts with
  | nil => rfl
  | cons t rest ih =>
    have hcomma : (", " : Text).marks = 0 := by decide
    cases rest with
    | nil => simp [joinWith]
    | cons u rest =>
      rw [joinWith, marks_append, marks_append, hcomma, ih, Nat.add_zero]
      rfl

end Text

theorem marks_byteText_pos (b : UInt8) : 0 < (byteText b).marks := by
  have hnumber : 0 < (("0x" : Text) ++ Text.ofHexPadded 2 b.toNat).marks := by
    rw [Text.marks_append]
    exact Nat.add_pos_left (by decide) _
  unfold byteText
  dsimp only
  split_ifs
  · rw [Text.marks_append, Text.marks_append, Text.marks_append]
    omega
  · exact hnumber

namespace Rendering

open Comparison (noticeRendering noticeRendering_confined)

variable [Host] {r : Rendering} {v u : Value} {level : Int} {rule : KeyRule} {key mapped : Ty}
  {storage : Identity} {entries : List (Value × Value)}

/-! ## Bytes that are shown -/

/-- The values that the text of a value is made of, where the rule of its kind writes it, with the
levels at which they are written. -/
def shown (r : Rendering) (level : Int) : Value → List (Value × Int)
  | .pointer _ _ (some (_, u)) => if r.style.addresses then [] else [(u, level)]
  | .interface _ _ u => [(u, level)]
  | .record _ fields => fields.map fun field ↦ (field.2, level + 1)
  | .sequence _ _ _ elements => elements.map fun u ↦ (u, level + 1)
  | .map rule _ _ _ entries =>
    entries.flatMap fun entry ↦ [(entry.1, 0), (shownFor rule entries entry.1, level + 1)]
  | _ => []

/-- The text of a value in a label shows a byte for which there is no renderer, or what a renderer
of the program makes of the one which notices have for bytes. -/
inductive ShowsByte (r : Rendering) : Value → Int → Prop
  | byte {n level : Int} (hnone : r.renderer? (.scalar (.integer .unsignedChar n)) = none) :
      ShowsByte r (.scalar (.integer .unsignedChar n)) level
  | own {v : Value} {level : Int} {name : Text} (haccessible : v.isAccessible)
      (hrenderer : r.renderer? v = some (.own name))
      (hchanges : Host.renderer name r.forKeys level v ≠
        Host.renderer name (noticeRendering r).forKeys level v) :
      ShowsByte r v level
  | within {v u : Value} {level inner : Int} (hopens : r.Opens v)
      (hu : (u, inner) ∈ r.shown level v) (h : ShowsByte r u inner) : ShowsByte r v level

theorem key_mem_shown {entry : Value × Value} (h : entry ∈ entries) :
    (entry.1, 0) ∈ r.shown level (.map rule key mapped storage entries) :=
  List.mem_flatMap.mpr ⟨entry, h, List.mem_cons_self⟩

theorem shownFor_mem_shown {entry : Value × Value} (h : entry ∈ entries) :
    (shownFor rule entries entry.1, level + 1) ∈
      r.shown level (.map rule key mapped storage entries) :=
  List.mem_flatMap.mpr ⟨entry, h, List.mem_cons_of_mem _ List.mem_cons_self⟩

theorem mem_parts_or_absent_of_shown {inner : Int} (h : (u, inner) ∈ r.shown level v) :
    u ∈ v.parts ∨ u = .absent := by
  cases v with
  | pointer form target pointee =>
    rcases pointee with _ | ⟨object, w⟩
    · cases h
    · simp only [shown] at h
      split_ifs at h
      · cases h
      · obtain ⟨rfl, -⟩ := Prod.mk.inj (List.mem_singleton.mp h)
        exact .inl List.mem_cons_self
  | interface type alternative w =>
    obtain ⟨rfl, -⟩ := Prod.mk.inj (List.mem_singleton.mp h)
    exact .inl List.mem_cons_self
  | record name fields =>
    obtain ⟨field, hfield, heq⟩ := List.mem_map.mp h
    obtain ⟨rfl, -⟩ := Prod.mk.inj heq
    exact .inl (List.mem_map_of_mem hfield)
  | sequence form element storage elements =>
    obtain ⟨w, hw, heq⟩ := List.mem_map.mp h
    obtain ⟨rfl, -⟩ := Prod.mk.inj heq
    exact .inl hw
  | map rule key mapped storage entries =>
    obtain ⟨entry, hentry, hu⟩ := List.mem_flatMap.mp h
    rcases List.mem_pair.mp hu with heq | heq
    · obtain ⟨rfl, -⟩ := Prod.mk.inj heq
      exact .inl (Value.key_mem_parts hentry)
    · obtain ⟨rfl, -⟩ := Prod.mk.inj heq
      rcases shownFor_eq rule entries entry.1 with habsent | ⟨k, hmem⟩
      · exact .inr habsent
      · exact .inl (Value.mapped_mem_parts hmem)
  | _ => cases h

/-- Only what can be looked at shows anything. -/
theorem isAccessible_of_shown {inner : Int} (h : (u, inner) ∈ r.shown level v) :
    v.isAccessible := by
  cases v with
  | hidden type => cases h
  | _ => rfl

/-- What is shown is shown in the place of a value, or is a part of a composite one. -/
theorem through_or_composite_of_shown {inner : Int} (h : (u, inner) ∈ r.shown level v) :
    (Through r.style v u ∧ inner = level) ∨ v.IsComposite := by
  cases v with
  | pointer form target pointee =>
    rcases pointee with _ | ⟨object, w⟩
    · cases h
    · simp only [shown] at h
      split_ifs at h with haddresses
      · cases h
      · obtain ⟨rfl, rfl⟩ := Prod.mk.inj (List.mem_singleton.mp h)
        exact .inl ⟨.pointee haddresses, rfl⟩
  | interface type alternative w =>
    obtain ⟨rfl, rfl⟩ := Prod.mk.inj (List.mem_singleton.mp h)
    exact .inl ⟨.content, rfl⟩
  | record name fields => exact .inr trivial
  | sequence form element storage elements => exact .inr trivial
  | map rule key mapped storage entries => exact .inr trivial
  | _ => cases h

theorem not_showsByte_absent : ¬ r.ShowsByte .absent level := by
  intro h
  cases h with
  | own _ hrenderer => cases hrenderer
  | within _ hu => cases hu

/-! ## Labels which show no byte -/

omit [Host] in
/-- Notices have a renderer of their own for bytes at most. -/
theorem renderer?_noticeRendering (h : v.identity? ≠ some byteTy.identity) :
    (noticeRendering r).renderer? v = r.renderer? v := by
  unfold noticeRendering
  split_ifs
  · rfl
  · unfold renderer?
    cases hidentity : v.identity? with
    | none => rfl
    | some type =>
      have htype : type ≠ byteTy.identity := fun heq ↦ h (heq ▸ hidentity)
      rw [Option.bind_some, Option.bind_some, register, List.lookup_cons, beq_false_of_ne htype]
      exact lookup_filter htype r.renderers

omit [Host] in
/-- A renderer that is registered remains so in notices. -/
theorem renderer?_noticeRendering_of_some {renderer : Renderer}
    (h : r.renderer? v = some renderer) : (noticeRendering r).renderer? v = some renderer := by
  by_cases hidentity : v.identity? = some byteTy.identity
  · have hbytes : r.hasRenderer byteTy := by
      rw [renderer?, hidentity, Option.bind_some] at h
      rw [hasRenderer, h, Option.isSome_some]
    rw [noticeRendering, if_pos hbytes, h]
  · rw [renderer?_noticeRendering hidentity, h]

/-- What has parts to show is written by the rule of its kind in notices, if it is in trails. -/
theorem opens_noticeRendering {inner : Int} (h : r.Opens v)
    (hu : (u, inner) ∈ r.shown level v) : (noticeRendering r).Opens v := by
  have hidentity : v.identity? ≠ some byteTy.identity := by
    intro hidentity
    obtain ⟨n, rfl⟩ := exists_eq_byte hidentity (isAccessible_of_shown hu)
    cases hu
  intro renderer hrenderer
  exact h renderer ((renderer?_noticeRendering hidentity).symm.trans hrenderer)

/-- What shows no byte has the renderer in notices which it has in trails. -/
theorem renderer?_of_not_showsByte (haccessible : v.isAccessible) (h : ¬ r.ShowsByte v level) :
    (noticeRendering r).renderer? v = r.renderer? v := by
  by_cases hidentity : v.identity? = some byteTy.identity
  · obtain ⟨n, rfl⟩ := exists_eq_byte hidentity haccessible
    have hbytes : r.hasRenderer byteTy :=
      Option.isSome_iff_ne_none.mpr fun hnone ↦ h (.byte hnone)
    rw [noticeRendering, if_pos hbytes]
  · exact renderer?_noticeRendering hidentity

omit [Host] in
/-- Notices are laid out as labels are, and differ in renderers alone. -/
theorem style_noticeRendering (r : Rendering) : (noticeRendering r).style = r.style := by
  unfold noticeRendering
  split_ifs <;> rfl

theorem custom_of_renderer {renderer : Renderer} (h : r.renderer? v = some renderer) (level : Int)
    (rule : Outcome Text) : custom true r level v rule =
      (do emit (.customRenderer v.typeName); r.apply level v rule renderer) := by
  rw [custom, if_pos rfl, h]

/-- A renderer that shows no byte does not mind the one for bytes. -/
theorem apply_notice {renderer : Renderer} {own notice : Outcome Text}
    (haccessible : v.isAccessible) (hrenderer : r.renderer? v = some renderer)
    (h : ¬ r.ShowsByte v level) (hrule : r.Opens v → notice = own) :
    (noticeRendering r).forKeys.apply level v notice renderer =
      r.forKeys.apply level v own renderer := by
  cases renderer with
  | byte => simp only [apply, ofByte, forKeys, style_noticeRendering]
  | shaped shape =>
    by_cases hshape : Shape.ofKind? v.kind = some shape
    · have hopens : r.Opens v := fun other hother ↦
        ⟨shape, Option.some.inj (hother.symm.trans hrenderer), hshape⟩
      simp only [apply, ofShape, hshape, hrule hopens, beq_self_eq_true, if_true]
    · simp only [apply, ofShape, beq_false_of_ne hshape, forKeys, style_noticeRendering]
      rfl
  | own name =>
    by_contra hchanges
    exact h (.own haccessible hrenderer (Ne.symm hchanges))

theorem custom_notice {own notice : Outcome Text} (haccessible : v.isAccessible)
    (h : ¬ r.ShowsByte v level) (hrule : r.Opens v → notice = own) :
    custom true (noticeRendering r).forKeys level v notice = custom true r.forKeys level v own := by
  have hsame : (noticeRendering r).renderer? v = r.renderer? v :=
    renderer?_of_not_showsByte haccessible h
  cases hrenderer : r.renderer? v with
  | none =>
    rw [custom_of_none (r := r.forKeys) hrenderer,
      custom_of_none (r := (noticeRendering r).forKeys) (hsame.trans hrenderer)]
    exact hrule (opens_of_none hrenderer)
  | some renderer =>
    rw [custom_of_renderer (r := r.forKeys) hrenderer,
      custom_of_renderer (r := (noticeRendering r).forKeys) (hsame.trans hrenderer),
      apply_notice haccessible hrenderer h hrule]

/-! ## Two renderings in one style -/

section

variable {r' : Rendering} (hstyle : r'.style = r.style)
include hstyle

omit [Host] in
theorem nested_of_style (level : Int) (part : Outcome Text) :
    r'.nested level part = r.nested level part := by
  rw [nested, nested, hstyle]

/-- The rule for maps writes the same where keys and what is shown for them have the same texts. -/
theorem text_map_congr
    (hkeys : ∀ entry ∈ entries, text true entry.1 r'.forKeys 0 = text true entry.1 r.forKeys 0)
    (hshown : ∀ entry ∈ entries, text true (shownFor rule entries entry.1) r' (level + 1) =
      text true (shownFor rule entries entry.1) r (level + 1)) :
    text false (.map rule key mapped storage entries) r' level =
      text false (.map rule key mapped storage entries) r level := by
  rw [text, text, custom_false, custom_false, keyTexts_congr hkeys]
  refine bind_congr_of_yields fun keys hyields ↦ ?_
  have hsorted : (r.sortedKeys (.map rule key mapped storage entries)).Yields keys := by
    rwa [← sortKeys_keyTexts]
  simp only [find?_entryTexts]
  rw [hstyle]
  refine congrArg (· >>= _) (congrArg sequence (List.map_congr_left fun item hitem ↦ ?_))
  obtain ⟨u, hmem, -⟩ := exists_mem_of_sortedKeys hsorted hitem
  rw [hshown _ hmem, nested_of_style hstyle]

/-- The rule of a kind writes the same where the values which it writes have the same texts. -/
theorem text_false_congr (hkeys : r.forKeys = r) (hkeys' : r'.forKeys = r')
    (h : ∀ item ∈ r.shown level v, text true item.1 r' item.2 = text true item.1 r item.2) :
    text false v r' level = text false v r level := by
  cases v with
  | absent => rw [text, text, hstyle]
  | hidden type => rw [text, text, hstyle]
  | scalar s => rw [text, text, custom_false, custom_false, hstyle]
  | pointer form target pointee =>
    rcases pointee with _ | ⟨object, u⟩
    · rw [text, text, custom_false, custom_false, hstyle]
    · rw [text, text, custom_false, custom_false, hstyle]
      split_ifs with haddresses
      · rfl
      · exact h (u, level) (by simp [shown, haddresses])
  | record name fields =>
    have hfields : fieldTexts fields r' (level + 1) = fieldTexts fields r (level + 1) :=
      fieldTexts_congr (nested_of_style hstyle _) fun field hmem ↦
        h (field.2, level + 1) (List.mem_map_of_mem hmem)
    rw [text, text, custom_false, custom_false, hstyle, hfields]
  | sequence form element storage elements =>
    have helements : elementTexts elements r' (level + 1) = elementTexts elements r (level + 1) :=
      elementTexts_congr (nested_of_style hstyle _) fun u hmem ↦
        h (u, level + 1) (List.mem_map_of_mem hmem)
    rw [text, text, custom_false, custom_false, hstyle, helements]
  | map rule key mapped storage entries =>
    refine text_map_congr hstyle (fun entry hmem ↦ ?_) fun entry hmem ↦
      h _ (shownFor_mem_shown hmem)
    rw [hkeys, hkeys']
    exact h _ (key_mem_shown hmem)
  | interface type alternative content =>
    rw [text, text, custom_false, custom_false]
    exact h _ (List.mem_singleton_self _)

end

/-- What shows no byte without a renderer is written in notices as it is in trails. -/
theorem text_notice (h : ¬ r.ShowsByte v level) :
    text true v (noticeRendering r).forKeys level = text true v r.forKeys level := by
  induction v using Value.induction_parts generalizing level with
  | h v ih =>
    by_cases haccessible : v.isAccessible
    · rw [text_eq_custom haccessible true, text_eq_custom haccessible true]
      refine custom_notice haccessible h fun hopens ↦ text_false_congr ?_ rfl rfl ?_
      · rw [forKeys, style_noticeRendering]
        rfl
      · rintro ⟨u, inner⟩ hu
        have hnot : ¬ r.ShowsByte u inner := fun hshows ↦ h (.within hopens hu hshows)
        rcases mem_parts_or_absent_of_shown hu with hpart | rfl
        · exact ih u hpart hnot
        · rw [text, text, forKeys, style_noticeRendering]
          rfl
    · cases v with
      | hidden type =>
        rw [text, text, forKeys, style_noticeRendering]
        rfl
      | _ => exact (haccessible rfl).elim

/-! ## Letters that come with the renderer -/

/-- The letters of a composite text stand in its opening and in its parts. -/
theorem marks_textAt (hflat : r.style.flat) (hr : r.Faultless) (hopens : r.Opens v)
    (hv : v.Everywhere Value.Renderable) (hcomposite : v.IsComposite) (level : Int) :
    (r.textAt v level).marks = v.opening.marks + ((r.shownParts v).map fun item ↦
      item.1.marks + (r.textAt item.2 (level + 1)).marks).sum := by
  have hclosing : ("\x7d" : Text).marks = 0 := by decide
  have hpart : Text.marks ∘ r.linePart (level + 1) = fun item ↦
      item.1.marks + (r.textAt item.2 (level + 1)).marks := by
    funext item
    exact Text.marks_append item.1 _
  calc (r.textAt v level).marks
    _ = (v.opening ++ Text.joinWith ", " ((r.shownParts v).map (r.linePart (level + 1))) ++
          "\x7d").marks := by
      rw [textAt_composite_of_opens hr hopens hv hcomposite, Style.composite_of_flat hflat,
        partText_of_flat hflat]
    _ = v.opening.marks +
          (((r.shownParts v).map (r.linePart (level + 1))).map Text.marks).sum := by
      rw [Text.marks_append, Text.marks_append, hclosing, Text.marks_joinWith, Nat.add_zero]
    _ = _ := by
      rw [List.map_map, hpart]

theorem marks_textAt_map (hflat : r.style.flat) (hr : r.Faultless)
    (hopens : r.Opens (.map rule key mapped storage entries))
    (hv : (Value.map rule key mapped storage entries).Everywhere Value.Renderable) (level : Int) :
    (r.textAt (.map rule key mapped storage entries) level).marks =
      (Value.map rule key mapped storage entries).opening.marks + (entries.map fun entry ↦
        (r.label entry.1).marks +
          (r.textAt (shownFor rule entries entry.1) (level + 1)).marks).sum := by
  let labelled := entries.map fun entry ↦ (r.label entry.1, entry.1)
  let line (item : Text × Value) := item.1.marks +
    (r.textAt (shownFor rule entries item.2) (level + 1)).marks
  have hcolon (t : Text) : (t ++ (": " : Text)).marks = t.marks := by
    rw [Text.marks_append]
    rfl
  calc (r.textAt (.map rule key mapped storage entries) level).marks
    _ = (Value.map rule key mapped storage entries).opening.marks +
          ((Table.sortLabelled labelled).map line).sum := by
      rw [marks_textAt hflat hr hopens hv trivial, shownParts, List.map_map]
      simp only [Function.comp_def, hcolon, line, labelled]
    _ = (Value.map rule key mapped storage entries).opening.marks +
          (labelled.map line).sum := by
      rw [((Table.sortLabelled_perm labelled).map line).sum_eq]
    _ = _ := by
      rw [List.map_map]
      rfl

/-- Where no byte shows, a label reads the same in a notice. -/
theorem textAt_notice (h : ¬ r.ShowsByte v level) :
    (noticeRendering r).forKeys.textAt v level = r.forKeys.textAt v level := by
  rw [textAt, textAt, value, value, text_notice h]

/-- A byte that is shown gets a letter with its renderer. -/
theorem marks_textAt_byte_lt {n : Int}
    (hnone : r.renderer? (.scalar (.integer .unsignedChar n)) = none) (level : Int) :
    (r.forKeys.textAt (.scalar (.integer .unsignedChar n)) level).marks <
      ((noticeRendering r).forKeys.textAt (.scalar (.integer .unsignedChar n)) level).marks := by
  have hleaf : Leaf r.forKeys.style (.scalar (.integer .unsignedChar n)) (Text.ofInt n) :=
    .scalar rfl
  have hbytes : ¬ r.hasRenderer byteTy := fun h ↦ by
    have hlookup : r.renderers.lookup byteTy.identity = none := hnone
    rw [hasRenderer, hlookup] at h
    cases h
  have hbyte : (noticeRendering r).forKeys.textAt (.scalar (.integer .unsignedChar n)) level =
      r.forKeys.style.leaf level (byteText n.toNat.toUInt8) := by
    rw [noticeRendering, if_neg hbytes]
    apply textAt_of_yields
    rw [value, text, custom_of_renderer (r := (r.register byteTy .byte).forKeys) rfl]
    exact (yields_emit _).bind rfl
  calc (r.forKeys.textAt (.scalar (.integer .unsignedChar n)) level).marks
    _ = (Text.ofInt n).marks := by
      rw [hleaf.textAt_of_opens (r := r.forKeys) (opens_of_none hnone), Style.leaf_of_flat rfl]
    _ = 0 := Text.marks_ofInt n
    _ < (byteText n.toNat.toUInt8).marks := marks_byteText_pos _
    _ = _ := by
      rw [hbyte, Style.leaf_of_flat rfl]

/-- A renderer of the program writes the letter more often where the renderer for bytes makes it
write something else. -/
def Telling (r : Rendering) : Prop :=
  ∀ v name level, v.isAccessible → r.renderer? v = some (.own name) →
    Host.renderer name r.forKeys level v ≠ Host.renderer name (noticeRendering r).forKeys level v →
      ∀ t t', (Host.renderer name r.forKeys level v).Yields t →
        (Host.renderer name (noticeRendering r).forKeys level v).Yields t' → t.marks < t'.marks

/-- What a renderer of the program writes is the text of a value. -/
theorem Faultless.own_yields (hr : r.Faultless) (r' : Rendering) {name : Text} (hnear : r.Near r')
    (haccessible : v.isAccessible) (hrenderer : r.renderer? v = some (.own name))
    (hrenderer' : r'.renderer? v = some (.own name)) (level : Int) :
    (Host.renderer name r' level v).Yields (r'.textAt v level) := by
  have hreturns : (Host.renderer name r' level v).Returns :=
    returns_iff_faultsOnly.mpr (hr v (.own name) hrenderer haccessible r' hnear level
      (pure []) (faultsOnly_pure _))
  obtain ⟨t, ht⟩ := hreturns
  have htext : (r'.value v level).Yields t := by
    rw [value, text_eq_custom haccessible true, custom_of_renderer hrenderer']
    exact (yields_emit _).bind ht
  rwa [textAt_of_yields htext]

/-- Where no byte is shown, all letters stay. -/
theorem marks_textAt_le_of_lt (hlt : r.ShowsByte v level →
      (r.forKeys.textAt v level).marks < ((noticeRendering r).forKeys.textAt v level).marks) :
    (r.forKeys.textAt v level).marks ≤ ((noticeRendering r).forKeys.textAt v level).marks := by
  by_cases hshows : r.ShowsByte v level
  · exact (hlt hshows).le
  · rw [textAt_notice hshows]

/-- The parts of a composite value have their letters side by side under both renderings, though
maps may have them in another order. -/
theorem marks_composite_lt (hr : r.Faultless) (hv : v.Everywhere Value.Renderable)
    (hcomposite : v.IsComposite)
    (hopens : r.Opens v ∧ (noticeRendering r).Opens v)
    (hle : ∀ item ∈ r.shown level v, (r.forKeys.textAt item.1 item.2).marks ≤
      ((noticeRendering r).forKeys.textAt item.1 item.2).marks)
    (hlt : ∃ item ∈ r.shown level v, (r.forKeys.textAt item.1 item.2).marks <
      ((noticeRendering r).forKeys.textAt item.1 item.2).marks) :
    (r.forKeys.textAt v level).marks < ((noticeRendering r).forKeys.textAt v level).marks := by
  have hfaultless : (noticeRendering r).forKeys.Faultless := (noticeRendering_confined hr).forKeys
  obtain ⟨u, hu, hlt⟩ := hlt
  have hsum (items : List (Text × Value))
      (hitems : items.map (fun item ↦ (item.2, level + 1)) = r.shown level v) :
      (items.map fun item ↦ item.1.marks + (r.forKeys.textAt item.2 (level + 1)).marks).sum <
        (items.map fun item ↦
          item.1.marks + ((noticeRendering r).forKeys.textAt item.2 (level + 1)).marks).sum := by
    rw [← hitems] at hu hle
    obtain ⟨item, hitem, rfl⟩ := List.mem_map.mp hu
    exact List.sum_lt_sum _ _ (fun other hother ↦
      Nat.add_le_add_left (hle _ (List.mem_map_of_mem hother)) _)
        ⟨item, hitem, Nat.add_lt_add_left hlt _⟩
  have hlisted {items : List (Text × Value)} (hparts : r.forKeys.shownParts v = items)
      (hparts' : (noticeRendering r).forKeys.shownParts v = items)
      (hitems : items.map (fun item ↦ (item.2, level + 1)) = r.shown level v) :
      (r.forKeys.textAt v level).marks < ((noticeRendering r).forKeys.textAt v level).marks := by
    calc (r.forKeys.textAt v level).marks
      _ = v.opening.marks + (items.map fun item ↦
            item.1.marks + (r.forKeys.textAt item.2 (level + 1)).marks).sum := by
        rw [marks_textAt (r := r.forKeys) rfl hr.forKeys hopens.1 hv hcomposite, hparts]
      _ < v.opening.marks + (items.map fun item ↦
            item.1.marks + ((noticeRendering r).forKeys.textAt item.2 (level + 1)).marks).sum :=
        Nat.add_lt_add_left (hsum items hitems) _
      _ = ((noticeRendering r).forKeys.textAt v level).marks := by
        rw [marks_textAt (r := (noticeRendering r).forKeys) rfl hfaultless hopens.2 hv hcomposite,
          hparts']
  -- The labels of a map change with the rendering, so that its lines are not parts of one list.
  cases v with
  | record name fields =>
    exact hlisted rfl rfl (by simp [shownParts, shown, Function.comp_def])
  | sequence form element storage elements =>
    exact hlisted rfl rfl (by simp [shownParts, shown, Function.comp_def])
  | map rule key mapped storage entries =>
    rw [marks_textAt_map (r := r.forKeys) rfl hr.forKeys hopens.1 hv,
      marks_textAt_map (r := (noticeRendering r).forKeys) rfl hfaultless hopens.2 hv]
    have hkey {entry : Value × Value} (h : entry ∈ entries) := hle _ (key_mem_shown h)
    have hmapped {entry : Value × Value} (h : entry ∈ entries) := hle _ (shownFor_mem_shown h)
    obtain ⟨entry, hentry, hmem⟩ := List.mem_flatMap.mp hu
    refine Nat.add_lt_add_left (List.sum_lt_sum _ _
      (fun entry h ↦ Nat.add_le_add (hkey h) (hmapped h)) ⟨entry, hentry, ?_⟩) _
    rcases List.mem_pair.mp hmem with rfl | rfl
    · exact Nat.add_lt_add_of_lt_of_le hlt (hmapped hentry)
    · exact Nat.add_lt_add_of_le_of_lt (hkey hentry) hlt
  | _ => cases hcomposite

/-- What is written around a byte takes no letter away. -/
theorem marks_textAt_lt (hr : r.Faultless) (htelling : r.Telling)
    (hv : v.Everywhere Value.Renderable) (h : r.ShowsByte v level) :
    (r.forKeys.textAt v level).marks < ((noticeRendering r).forKeys.textAt v level).marks := by
  induction v using Value.induction_parts generalizing level with
  | h v ih =>
    cases h with
    | @byte n _ hnone => exact marks_textAt_byte_lt hnone level
    | @own _ _ name haccessible hrenderer hchanges =>
      have hrenderer' : (noticeRendering r).renderer? v = some (.own name) :=
        renderer?_noticeRendering_of_some hrenderer
      exact htelling v name level haccessible hrenderer hchanges _ _
        (hr.own_yields r.forKeys (.inl rfl) haccessible hrenderer hrenderer level)
        (hr.own_yields (noticeRendering r).forKeys (.inr rfl) haccessible hrenderer
          hrenderer' level)
    | @within _ u _ inner hopens hu hshows =>
      have hopens' : (noticeRendering r).Opens v := opens_noticeRendering hopens hu
      have hlt {item : Value × Int} (hitem : item ∈ r.shown level v)
          (hshows : r.ShowsByte item.1 item.2) :
          (r.forKeys.textAt item.1 item.2).marks <
            ((noticeRendering r).forKeys.textAt item.1 item.2).marks := by
        rcases mem_parts_or_absent_of_shown hitem with hpart | habsent
        · exact ih item.1 hpart (hv.part hpart) hshows
        · exact (not_showsByte_absent (habsent ▸ hshows)).elim
      rcases through_or_composite_of_shown (r := r.forKeys) hu with ⟨hthrough, rfl⟩ | hcomposite
      · have hthrough' : Through (noticeRendering r).forKeys.style v u := by
          rwa [forKeys, style_noticeRendering]
        rw [hthrough.textAt_of_opens (r := r.forKeys) hopens,
          hthrough'.textAt_of_opens (r := (noticeRendering r).forKeys) hopens']
        exact hlt hu hshows
      · exact marks_composite_lt hr hv hcomposite ⟨hopens, hopens'⟩
          (fun item hitem ↦ marks_textAt_le_of_lt (hlt hitem)) ⟨_, hu, hlt hu hshows⟩

end Rendering

/-! ## Labels -/

namespace Comparison

variable [Host] {r : Rendering} {rule : KeyRule} {key mapped : Ty} {storage : Identity}
  {entries : List (Value × Value)}

open Rendering

/-- Where no key shows a byte without a renderer, notices label keys as trails do. -/
theorem sortedKeys_noticeRendering (h : ∀ entry ∈ entries, ¬ r.ShowsByte entry.1 0) :
    (noticeRendering r).sortedKeys (.map rule key mapped storage entries) =
      r.sortedKeys (.map rule key mapped storage entries) := by
  rw [← sortKeys_keyTexts, ← sortKeys_keyTexts,
    keyTexts_congr fun entry hmem ↦ text_notice (h entry hmem)]

/-- The letters of the labels are those of the keys, in whatever order they are. -/
theorem sum_marks_of_sortedKeys {keys : List (Text × Value)}
    (hkeys : (r.sortedKeys (.map rule key mapped storage entries)).Yields keys) :
    ((keys.map Prod.fst).map Text.marks).sum =
      (entries.map fun entry ↦ (r.forKeys.textAt entry.1 0).marks).sum := by
  obtain ⟨-, rfl⟩ := sortedKeys_yields.mp hkeys
  let labelled := entries.map fun entry ↦ (r.label entry.1, entry.1)
  calc (((Table.sortLabelled labelled).map Prod.fst).map Text.marks).sum
    _ = ((labelled.map Prod.fst).map Text.marks).sum :=
      (((Table.sortLabelled_perm labelled).map Prod.fst).map Text.marks).sum_eq
    _ = _ := by
      rw [List.map_map, List.map_map]
      rfl

/-- Where a key shows a byte without a renderer, notices have other labels than trails. -/
theorem labels_ne_of_showsByte {keys keys' : List (Text × Value)} {entry : Value × Value}
    (hr : r.Faultless) (htelling : r.Telling)
    (hrenderable : ∀ entry ∈ entries, entry.1.Everywhere Value.Renderable)
    (hkeys : (r.sortedKeys (.map rule key mapped storage entries)).Yields keys)
    (hkeys' :
      ((noticeRendering r).sortedKeys (.map rule key mapped storage entries)).Yields keys')
    (hentry : entry ∈ entries) (hshows : r.ShowsByte entry.1 0) :
    keys.map Prod.fst ≠ keys'.map Prod.fst := by
  intro hlabels
  have hlt : ∀ other ∈ entries, r.ShowsByte other.1 0 → (r.forKeys.textAt other.1 0).marks <
      ((noticeRendering r).forKeys.textAt other.1 0).marks :=
    fun other hother ↦ marks_textAt_lt hr htelling (hrenderable other hother)
  refine lt_irrefl ((keys.map Prod.fst).map Text.marks).sum ?_
  calc ((keys.map Prod.fst).map Text.marks).sum
    _ = (entries.map fun other ↦ (r.forKeys.textAt other.1 0).marks).sum :=
      sum_marks_of_sortedKeys hkeys
    _ < (entries.map fun other ↦ ((noticeRendering r).forKeys.textAt other.1 0).marks).sum :=
      List.sum_lt_sum _ _ (fun other hother ↦ marks_textAt_le_of_lt (hlt other hother))
        ⟨entry, hentry, hlt entry hentry hshows⟩
    _ = ((keys'.map Prod.fst).map Text.marks).sum := (sum_marks_of_sortedKeys hkeys').symm
    _ = ((keys.map Prod.fst).map Text.marks).sum := by
      rw [hlabels]

/-- The text of a map has its entries behind their labels, in the order of these. -/
theorem exists_parts_of_any {text : Text} (hopens : r.Opens (.map rule key mapped storage entries))
    (htext : (r.any (.map rule key mapped storage entries)).Yields text) :
    ∃ (keys : List (Text × Value)) (parts : List Text),
      (r.sortedKeys (.map rule key mapped storage entries)).Yields keys ∧
      List.Forall₂ (fun item part ↦ ∃ rest : Text, part = item.1 ++ ": " ++ rest) keys parts ∧
        text = r.style.composite 0
          ((Value.map rule key mapped storage entries).typeName ++ "\x7b") parts := by
  rw [any, value, Rendering.text, custom_yields_of_opens hopens] at htext
  obtain ⟨keys, hkeys, htext⟩ := yields_bind.mp htext
  obtain ⟨parts, hparts, htext⟩ := yields_bind.mp htext
  rw [sortKeys_keyTexts] at hkeys
  rw [yields_sequence, List.forall₂_map_left_iff] at hparts
  refine ⟨keys, parts, hkeys, hparts.imp fun item part hpart ↦ ?_, (yields_pure.mp htext).symm⟩
  obtain ⟨rest, -, hpart⟩ := yields_bind.mp hpart
  exact ⟨rest, (yields_pure.mp hpart).symm⟩

/-- The keys of a map are labelled in notices as they are in trails, and come in the same order, if
no key shows a byte for which there is no renderer; where all renderers return, and those of the
program do not hide bytes, that is exactly when they are.  In a notice the entries of the map stand
behind these labels, if no renderer takes the place of the rule for maps. -/
theorem labels_agree_iff {m : Value} (hm : m = .map rule key mapped storage entries) :
    ((∀ entry ∈ entries, ¬ r.ShowsByte entry.1 0) →
        (noticeRendering r).sortedKeys m = r.sortedKeys m) ∧
      (r.Faultless → r.Telling → (∀ entry ∈ entries, entry.1.Everywhere Value.Renderable) →
        ∃ keys keys', (r.sortedKeys m).Yields keys ∧
          ((noticeRendering r).sortedKeys m).Yields keys' ∧
          (keys.map Prod.fst = keys'.map Prod.fst ↔
            ∀ entry ∈ entries, ¬ r.ShowsByte entry.1 0)) ∧
      ∀ text, (noticeRendering r).Opens m → ((noticeRendering r).any m).Yields text →
        ∃ (keys : List (Text × Value)) (parts : List Text),
          ((noticeRendering r).sortedKeys m).Yields keys ∧
          List.Forall₂ (fun item part ↦ ∃ rest : Text, part = item.1 ++ ": " ++ rest) keys parts ∧
            text = r.style.composite 0 (m.typeName ++ "\x7b") parts := by
  subst hm
  refine ⟨sortedKeys_noticeRendering, fun hr htelling hrenderable ↦ ?_, fun text hopens htext ↦ ?_⟩
  · have hkeys : (r.sortedKeys (.map rule key mapped storage entries)).Yields _ :=
      sortedKeys_yields.mpr ⟨fun entry hmem ↦ keyLabel_returns hr (hrenderable entry hmem), rfl⟩
    have hkeys' :
        ((noticeRendering r).sortedKeys (.map rule key mapped storage entries)).Yields _ :=
      sortedKeys_yields.mpr ⟨fun entry hmem ↦
        keyLabel_returns (noticeRendering_confined hr) (hrenderable entry hmem), rfl⟩
    refine ⟨_, _, hkeys, hkeys', fun hlabels entry hentry hshows ↦ ?_, fun h ↦ ?_⟩
    · exact labels_ne_of_showsByte hr htelling hrenderable hkeys hkeys' hentry hshows hlabels
    · rw [sortedKeys_noticeRendering h] at hkeys'
      rw [hkeys.unique hkeys']
  · rw [← style_noticeRendering r]
    exact exists_parts_of_any hopens htext

end Comparison

/-! ## Samples -/

namespace Comparison

open scoped Sample

def nineAndTen : Value :=
  .map .sorted Sample.int Sample.int 0
    [(.scalar (.integer .int 9), .scalar (.integer .int 1)),
      (.scalar (.integer .int 10), .scalar (.integer .int 2))]

/-- The labels of integers agree in trails and notices, `10` before `9`. -/
theorem labels_agree_iff_nineAndTen :
    (noticeRendering {}).sortedKeys nineAndTen = ({} : Rendering).sortedKeys nineAndTen ∧
      (∃ keys keys', (({} : Rendering).sortedKeys nineAndTen).Yields keys ∧
        ((noticeRendering {}).sortedKeys nineAndTen).Yields keys' ∧
        keys.map Prod.fst = keys'.map Prod.fst) ∧
      ∃ (keys : List (Text × Value)) (parts : List Text),
        ((noticeRendering {}).sortedKeys nineAndTen).Yields keys ∧
        List.Forall₂ (fun item part ↦ ∃ rest : Text, part = item.1 ++ ": " ++ rest) keys parts ∧
          ("std::map<int, int>\x7b\n  10: 2,\n  9: 1,\n\x7d" : Text) =
            ({} : Rendering).style.composite 0 (nineAndTen.typeName ++ "\x7b") parts := by
  obtain ⟨hsame, hlabels, htext⟩ := labels_agree_iff (r := {}) (m := nineAndTen) rfl
  have hnot : ∀ entry ∈ [((.scalar (.integer .int 9) : Value), (.scalar (.integer .int 1) : Value)),
      (.scalar (.integer .int 10), .scalar (.integer .int 2))],
        ¬ ({} : Rendering).ShowsByte entry.1 0 := by
    simp only [List.forall_mem_cons]
    refine ⟨?_, ?_, List.forall_mem_nil _⟩
    all_goals
      intro h
      cases h with
      | own _ hrenderer => cases hrenderer
      | within _ hu => cases hu
  have htelling : ({} : Rendering).Telling := by
    intro v name level _ hrenderer
    rw [Rendering.renderer?_of_plain rfl] at hrenderer
    cases hrenderer
  obtain ⟨keys, keys', hkeys, hkeys', hagree⟩ :=
    hlabels Rendering.faultless_empty htelling (by decide)
  exact ⟨hsame hnot, ⟨keys, keys', hkeys, hkeys', hagree.mpr hnot⟩,
    htext _ (Rendering.opens_of_none rfl) (by decide)⟩

def byteMap : Value :=
  .map .sorted byteTy Sample.int 0
    [(.scalar (.integer .unsignedChar 65), .scalar (.integer .int 1))]

/-- Bytes have another label in notices than in trails. -/
theorem not_labels_agree :
    ¬ ∀ (r : Rendering) (m : Value) (keys keys' : List (Text × Value)), r.Faultless →
      m.Everywhere Value.Renderable → (r.sortedKeys m).Yields keys →
        ((noticeRendering r).sortedKeys m).Yields keys' →
          keys.map Prod.fst = keys'.map Prod.fst := by
  intro h
  have hkeys : (({} : Rendering).sortedKeys byteMap).Yields
      [("65", .scalar (.integer .unsignedChar 65))] := rfl
  have hkeys' : ((noticeRendering {}).sortedKeys byteMap).Yields
      [("0x41 ('A')", .scalar (.integer .unsignedChar 65))] := rfl
  have hlabels : (["65"] : List Text) = ["0x41 ('A')"] :=
    h {} byteMap _ _ Rendering.faultless_empty (by decide) hkeys hkeys'
  revert hlabels
  decide

def tagKey : Value :=
  .record "Tag" [("b", .scalar (.integer .unsignedChar 65))]

/-- Bytes are shown behind the renderer which is the rule for records. -/
example :
    let r := ({} : Rendering).register (Sample.record "Tag") (.shaped .record)
    (r.keyLabel tagKey).Yields "\x7bb: 65\x7d" ∧
      ((noticeRendering r).keyLabel tagKey).Yields "\x7bb: 0x41 ('A')\x7d" := by
  decide

end Comparison

end Discrepancy
