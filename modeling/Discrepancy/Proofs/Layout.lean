import Discrepancy.Proofs.Rerendering

/-!
# Layout

Layout options change how the values of a notice look and nothing else.  They could do so only by
way of labels, which stand in trails, decide what is skipped, and order the keys of maps.  Labels
are rendered on one line, however: a flat rendering has no tabs at all, so that their width and the
indentation do not matter, and the style for keys quotes all strings, whatever their length.
-/

namespace Discrepancy

open Outcome

namespace Style

variable {s s' : Style} {level level' : Int}

/-! ## One line -/

theorem leaf_of_flat (h : s.flat) (level : Int) (t : Text) : s.leaf level t = t := by
  rw [leaf, tab, tabSize, if_pos h]
  rfl

theorem untab_of_flat (h : s.flat) (t : Text) (n : Int) : s.untab t n = t := by
  simp [untab, tabSize, h]

theorem items_of_flat (h : s.flat) (level : Int) (parts : List Text) :
    s.items level parts = Text.joinWith ", " parts := by
  have htab (n : Int) : s.tab n = [] := by simp [tab, tabSize, h, Text.spaces]
  induction parts with
  | nil => rfl
  | cons part rest ih =>
    cases rest with
    | nil => simp [items, htab, separator, h, Text.joinWith]
    | cons next rest =>
      rw [items, htab, ih, Text.joinWith, separator]
      simp [h]

/-- A flat composite value has its parts between commas. -/
theorem composite_of_flat (h : s.flat) (level : Int) (opening : Text) (parts : List Text) :
    s.composite level opening parts = opening ++ Text.joinWith ", " parts ++ "\x7d" := by
  rw [composite]
  split_ifs with hempty
  · rw [List.isEmpty_iff.mp hempty, leaf_of_flat h, Text.joinWith, List.append_nil]
  · rw [leaf_of_flat h, leaf_of_flat h, items_of_flat h, newline, if_pos h, List.append_nil]

/-! ## Styles that look alike -/

variable [Host]

/-- Two styles treat strings and references alike, and at two levels and all below they have the
same tabs. -/
structure Alike (s s' : Style) (level level' : Int) : Prop where
  flat : s.flat = s'.flat
  strings (t : Text) : s.stringText t = s'.stringText t
  addresses : s.addresses = s'.addresses
  tabs (n : Nat) : s.tabSize (s.depth (level + n)) = s'.tabSize (s'.depth (level' + n))

/-- On one line there are no tabs, and all strings are quoted. -/
theorem alike_of_flat (h : s.flat) (h' : s'.flat) (haddresses : s.addresses = s'.addresses)
    (level level' : Int) : Alike s s' level level' where
  flat := h.trans h'.symm
  strings t := by simp [stringText, h, h']
  addresses := haddresses
  tabs n := by rw [tabSize, tabSize, if_pos h, if_pos h']

/-- Labels are on one line whatever the layout, so only addresses can tell their styles apart. -/
theorem alike_forKeys (h : s.addresses = s'.addresses) (level level' : Int) :
    Alike s.forKeys s'.forKeys level level' := by
  apply alike_of_flat rfl rfl
  exact h

/-- Tabs are counted from the indentation on. -/
theorem alike_of_indent {indent : Nat} (h : s.indent + level = indent + level') :
    Alike s { s with indent } level level' where
  flat := rfl
  strings _ := rfl
  addresses := rfl
  tabs n := by
    have hdepth : s.depth (level + n) = ({ s with indent } : Style).depth (level' + n) := by
      rw [depth, depth, ← add_assoc, h, add_assoc]
    rw [hdepth]
    rfl

namespace Alike

variable (h : Alike s s' level level')
include h

theorem below : Alike s s' (level + 1) (level' + 1) where
  flat := h.flat
  strings := h.strings
  addresses := h.addresses
  tabs n := by
    have htabs := h.tabs (n + 1)
    push_cast at htabs
    rwa [add_comm (n : Int), ← add_assoc, ← add_assoc] at htabs

theorem tabSize_eq : s.tabSize (s.depth level) = s'.tabSize (s'.depth level') := by
  simpa using h.tabs 0

theorem leaf_eq (t : Text) : s.leaf level t = s'.leaf level' t := by
  rw [leaf, leaf, tab, tab, h.tabSize_eq]

theorem untab_eq (t : Text) : s.untab t (s.depth level) = s'.untab t (s'.depth level') := by
  rw [untab, untab, h.tabSize_eq]

theorem separator_eq (last : Bool) : s.separator last = s'.separator last := by
  rw [separator, separator, h.flat]

theorem items_eq (parts : List Text) : s.items level parts = s'.items level' parts := by
  have htab : s.tab (s.depth (level + 1)) = s'.tab (s'.depth (level' + 1)) :=
    congrArg Text.spaces h.below.tabSize_eq
  induction parts with
  | nil => rfl
  | cons part rest ih =>
    cases rest with
    | nil => rw [items, items, htab, h.separator_eq]
    | cons next rest => rw [items, items, htab, h.separator_eq, ih]

theorem composite_eq (opening : Text) (parts : List Text) :
    s.composite level opening parts = s'.composite level' opening parts := by
  rw [composite, composite, h.leaf_eq, h.leaf_eq, h.leaf_eq, h.items_eq, newline, newline, h.flat]

theorem scalar_text_eq (scalar : Scalar) : scalar.text s = scalar.text s' := by
  have htarget (target : Option Identity) : s.targetText target = s'.targetText target := by
    rw [targetText, targetText, h.addresses]
  cases scalar with
  | string type content place => cases content <;> simp only [Scalar.text, h.strings]
  | func => simp only [Scalar.text, htarget]
  | chan => simp only [Scalar.text, htarget]
  | _ => rfl

end Alike

end Style

namespace Rendering

variable [Host] {r r' : Rendering}

theorem custom_of_none {v : Value} (h : r.renderer? v = none) (consult : Bool) (level : Int)
    (rule : Outcome Text) : custom consult r level v rule = rule := by
  rw [custom, h, ite_self]

theorem custom_of_plain (h : r.renderers = []) (consult : Bool) (level : Int) (v : Value)
    (rule : Outcome Text) : custom consult r level v rule = rule :=
  custom_of_none (renderer?_of_plain h v) consult level rule

omit [Host] in
/-- The rendering of keys registers no renderers of its own. -/
theorem forKeys_plain (h : r.renderers = []) : r.forKeys.renderers = [] :=
  h

/-- No renderer is registered but the one for bytes. -/
def OnlyBytes (r : Rendering) : Prop :=
  ∀ v renderer, r.renderer? v = some renderer →
    renderer = .byte ∧ v.identity? = some byteTy.identity

omit [Host] in
theorem onlyBytes_of_plain (h : r.renderers = []) : r.OnlyBytes := by
  intro v renderer hrenderer
  rw [renderer?_of_plain h] at hrenderer
  cases hrenderer

omit [Host] in
theorem OnlyBytes.forKeys (h : r.OnlyBytes) : r.forKeys.OnlyBytes :=
  h

omit [Host] in
theorem OnlyBytes.noticeRendering (h : r.OnlyBytes) :
    (Comparison.noticeRendering r).OnlyBytes := by
  intro v renderer hrenderer
  unfold Comparison.noticeRendering at hrenderer
  split_ifs at hrenderer
  · exact h v renderer hrenderer
  · rcases renderer?_register hrenderer with ⟨hidentity, rfl⟩ | hrenderer
    · exact ⟨rfl, hidentity⟩
    · exact h v renderer hrenderer

omit [Host] in
theorem renderer?_of_same (hsame : r'.renderers = r.renderers) (v : Value) :
    r'.renderer? v = r.renderer? v := by
  rw [renderer?, renderer?, hsame]

/-- The renderer for bytes adds nothing to what a style does with a text. -/
theorem custom_of_alike (hr : r.OnlyBytes) (hsame : r'.renderers = r.renderers) {level level' : Int}
    (hstyle : Style.Alike r.style r'.style level level') {rule rule' : Outcome Text}
    (hrule : rule = rule') (consult : Bool) (v : Value) :
    custom consult r level v rule = custom consult r' level' v rule' := by
  subst hrule
  unfold custom
  rw [renderer?_of_same hsame]
  cases consult with
  | false => rfl
  | true =>
    cases hrenderer : r.renderer? v with
    | none => rfl
    | some renderer =>
      obtain ⟨rfl, -⟩ := hr v renderer hrenderer
      change (emit _ >>= fun _ ↦ r.ofByte level v) = (emit _ >>= fun _ ↦ r'.ofByte level' v)
      simp only [ofByte, hstyle.leaf_eq]

/-- The rule of a kind writes the same in styles that look alike, where it is given the same texts
for the parts. -/
theorem text_false_of_alike {v : Value} {level level' : Int}
    (hstyle : Style.Alike r.style r'.style level level')
    (hsame : ∀ u ∈ v.parts, text true u r level = text true u r' level')
    (hbelow : ∀ u ∈ v.parts, text true u r (level + 1) = text true u r' (level' + 1))
    (hlabels : ∀ u ∈ v.parts, text true u r.forKeys 0 = text true u r'.forKeys 0) :
    text false v r level = text false v r' level' := by
  have hnested (part : Outcome Text) :
      r.nested (level + 1) part = r'.nested (level' + 1) part := by
    simp only [nested, hstyle.below.untab_eq]
  cases v with
  | absent => exact congrArg pure (hstyle.leaf_eq _)
  | hidden type => exact congrArg pure (hstyle.leaf_eq _)
  | scalar s =>
    rw [text, text, custom_false, custom_false]
    simp only [hstyle.leaf_eq, hstyle.scalar_text_eq]
  | pointer form target pointee =>
    rcases pointee with _ | ⟨object, u⟩
    · rw [text, text, custom_false, custom_false, hstyle.leaf_eq, hstyle.addresses]
    · rw [text, text, custom_false, custom_false, hstyle.leaf_eq, hstyle.addresses,
        hsame u (by simp [Value.parts])]
  | record name fields =>
    have hfields : fieldTexts fields r (level + 1) = fieldTexts fields r' (level' + 1) :=
      fieldTexts_congr hnested fun field hmem ↦ hbelow field.2 (List.mem_map_of_mem hmem)
    rw [text, text, custom_false, custom_false, hfields]
    simp only [hstyle.composite_eq]
  | sequence form element storage elements =>
    have helements : elementTexts elements r (level + 1) = elementTexts elements r' (level' + 1) :=
      elementTexts_congr hnested hbelow
    rw [text, text, custom_false, custom_false, helements]
    simp only [hstyle.composite_eq]
  | map rule key mapped storage entries =>
    have hkeys : keyTexts entries r = keyTexts entries r' :=
      keyTexts_congr fun entry hmem ↦ hlabels entry.1 (Value.key_mem_parts hmem)
    have hentries : entryTexts entries r (level + 1) = entryTexts entries r' (level' + 1) :=
      entryTexts_congr fun entry hmem ↦ hbelow entry.2 (Value.mapped_mem_parts hmem)
    rw [text, text, custom_false, custom_false, hkeys, hentries]
    simp only [hstyle.below.leaf_eq, hnested, hstyle.composite_eq]
  | interface type alternative content => exact hsame content List.mem_cons_self

/-- A value has the same text in styles that look alike. -/
theorem text_of_alike (hr : r.OnlyBytes) (hsame : r'.renderers = r.renderers) {level level' : Int}
    (hstyle : Style.Alike r.style r'.style level level') (consult : Bool) (v : Value) :
    text consult v r level = text consult v r' level' := by
  induction v using Value.induction_parts generalizing r r' consult level level' with
  | h v ih =>
    have hrule : text false v r level = text false v r' level' := by
      refine text_false_of_alike hstyle (fun u hu ↦ ih u hu hr hsame hstyle true)
        (fun u hu ↦ ih u hu hr hsame hstyle.below true) fun u hu ↦ ?_
      exact ih u hu hr.forKeys (show r'.forKeys.renderers = r.forKeys.renderers from hsame)
        (Style.alike_forKeys hstyle.addresses 0 0) true
    by_cases haccessible : v.isAccessible
    · rw [text_eq_custom haccessible consult, text_eq_custom haccessible consult]
      exact custom_of_alike hr hsame hstyle hrule consult v
    · rw [text_of_not_accessible haccessible consult, text_of_not_accessible haccessible consult,
        hrule]

/-- On one line a value has one text, at all levels. -/
theorem text_of_flat (hr : r.renderers = []) (hr' : r'.renderers = []) (hflat : r.style.flat)
    (hflat' : r'.style.flat) (haddresses : r.style.addresses = r'.style.addresses) (consult : Bool)
    (v : Value) (level level' : Int) : text consult v r level = text consult v r' level' :=
  text_of_alike (onlyBytes_of_plain hr) (hr'.trans hr.symm)
    (Style.alike_of_flat hflat hflat' haddresses level level') consult v

/-- Labels are the same under all layouts. -/
theorem keyLabel_eq_of_alike (hr : r.OnlyBytes) (hsame : r'.renderers = r.renderers)
    (haddresses : r.style.addresses = r'.style.addresses) (key : Value) :
    r.keyLabel key = r'.keyLabel key := by
  rw [keyLabel, keyLabel, any, any, value, value]
  exact text_of_alike hr.forKeys (show r'.forKeys.renderers = r.forKeys.renderers from hsame)
    (Style.alike_forKeys haddresses 0 0) true key

theorem keyTexts_eq_of_alike (hr : r.OnlyBytes) (hsame : r'.renderers = r.renderers)
    (haddresses : r.style.addresses = r'.style.addresses) (entries : List (Value × Value)) :
    keyTexts entries r = keyTexts entries r' := by
  rw [keyTexts_eq_map, keyTexts_eq_map]
  refine List.map_congr_left fun entry _ ↦ ?_
  exact congrArg (Prod.mk entry.1) (keyLabel_eq_of_alike hr hsame haddresses entry.1)

/-- Without registered renderers, labels depend on nothing but whether addresses are shown. -/
theorem keyLabel_eq_of_plain (hr : r.renderers = []) (hr' : r'.renderers = [])
    (haddresses : r.style.addresses = r'.style.addresses) (key : Value) :
    r.keyLabel key = r'.keyLabel key :=
  keyLabel_eq_of_alike (onlyBytes_of_plain hr) (hr'.trans hr.symm) haddresses key

/-! ## Texts under two layouts -/

/-- Under one registry of renderers, a value is refused in two layouts if its rule is. -/
theorem corresponds_custom_of_layouts (hr : r.OnlyBytes) (hsame : r'.renderers = r.renderers)
    {v : Value} (haccessible : v.isAccessible) {rule rule' : Outcome Text}
    (hrule : Corresponds (fun _ _ ↦ True) rule rule') (consult : Bool) (level level' : Int) :
    Corresponds (fun _ _ ↦ True) (custom consult r level v rule)
      (custom consult r' level' v rule') := by
  unfold custom
  rw [renderer?_of_same hsame]
  cases consult with
  | false => exact hrule
  | true =>
    cases hrenderer : r.renderer? v with
    | none => exact hrule
    | some renderer =>
      obtain ⟨rfl, hidentity⟩ := hr v renderer hrenderer
      have hreturns (r : Rendering) (level : Int) : (r.apply level v rule .byte).Returns :=
        ofByte_returns hidentity haccessible r level
      have hreturns' (r : Rendering) (level : Int) : (r.apply level v rule' .byte).Returns :=
        ofByte_returns hidentity haccessible r level
      exact .of_returns (.bind ⟨(), yields_emit _⟩ fun _ ↦ hreturns r level)
        (.bind ⟨(), yields_emit _⟩ fun _ ↦ hreturns' r' level') fun _ _ _ _ ↦ trivial

/-- The formatting library is not told about the style. -/
theorem corresponds_scalar_text (s : Scalar) (style style' : Style) :
    Corresponds (fun _ _ ↦ True) (s.text style) (s.text style') := by
  cases s with
  | string type content place => cases content <;> exact corresponds_pure trivial
  | func => exact corresponds_pure trivial
  | chan => exact corresponds_pure trivial
  | _ => exact corresponds_refl fun _ ↦ trivial

omit [Host] in
theorem corresponds_nested_of_layouts {part part' : Outcome Text}
    (h : Corresponds (fun _ _ ↦ True) part part') (level level' : Int) :
    Corresponds (fun _ _ ↦ True) (r.nested level part) (r'.nested level' part') :=
  h.bind fun _ _ _ _ _ ↦ corresponds_pure trivial

/-- The line of a map entry is refused in all layouts or in none. -/
theorem corresponds_entry_of_layouts {rule : KeyRule} {entries : List (Value × Value)}
    {level level' : Int} (h : ∀ entry ∈ entries, Corresponds (fun _ _ ↦ True)
      (text true entry.2 r level) (text true entry.2 r' level')) (label : Text) (key : Value) :
    Corresponds (fun _ _ ↦ True)
      (do
        let absent := pure (r.style.leaf level absentText)
        let part ← r.nested level ((Table.find? rule key (entryTexts entries r level)).getD absent)
        pure (label ++ ": " ++ part) : Outcome Text)
      (do
        let absent := pure (r'.style.leaf level' absentText)
        let part ← r'.nested level'
          ((Table.find? rule key (entryTexts entries r' level')).getD absent)
        pure (label ++ ": " ++ part)) := by
  refine (corresponds_nested_of_layouts ?_ _ _).bind fun _ _ _ _ _ ↦ corresponds_pure trivial
  rw [entryTexts_eq_map, entryTexts_eq_map,
    Table.find?_map rule key fun u ↦ text true u r level,
    Table.find?_map rule key fun u ↦ text true u r' level']
  cases hfound : Table.find? rule key entries with
  | none => exact corresponds_pure trivial
  | some u =>
    obtain ⟨key', hmem⟩ := Table.exists_mem_of_find? hfound
    exact h (key', u) hmem

omit [Host] in
/-- Composite values are refused in all layouts or in none, as their parts are. -/
theorem corresponds_composite_of_layouts {α : Type} {xs : List α} {f g : α → Outcome Text}
    (h : ∀ x ∈ xs, Corresponds (fun _ _ ↦ True) (f x) (g x)) (compose compose' : List Text → Text) :
    Corresponds (fun _ _ ↦ True) (do pure (compose (← Outcome.sequence (xs.map f))))
      (do pure (compose' (← Outcome.sequence (xs.map g)))) :=
  (corresponds_sequence_map_self h).bind fun _ _ _ _ _ ↦ corresponds_pure trivial

/-- The rule of a kind refuses a value in all layouts or in none, given this of its parts. -/
theorem corresponds_text_false_of_layouts (hr : r.OnlyBytes) (hsame : r'.renderers = r.renderers)
    (haddresses : r.style.addresses = r'.style.addresses) {v : Value}
    (hparts : ∀ u ∈ v.parts, ∀ level level' : Int,
      Corresponds (fun _ _ ↦ True) (text true u r level) (text true u r' level'))
    (level level' : Int) :
    Corresponds (fun _ _ ↦ True) (text false v r level) (text false v r' level') := by
  cases v with
  | absent => exact corresponds_pure trivial
  | hidden type => exact corresponds_pure trivial
  | scalar s =>
    exact (corresponds_scalar_text s _ _).bind fun _ _ _ _ _ ↦ corresponds_pure trivial
  | pointer form target pointee =>
    rcases pointee with _ | ⟨object, u⟩
    · exact corresponds_pure trivial
    · rw [text, text, custom_false, custom_false, ← haddresses]
      split
      · exact corresponds_pure trivial
      · exact hparts u (by simp [Value.parts]) level level'
  | record name fields =>
    rw [text, text, custom_false, custom_false, fieldTexts_eq_map, fieldTexts_eq_map]
    refine corresponds_composite_of_layouts (fun field hmem ↦ ?_) _ _
    have hfield := hparts field.2 (List.mem_map_of_mem hmem) (level + 1) (level' + 1)
    exact (corresponds_nested_of_layouts hfield _ _).bind fun _ _ _ _ _ ↦ corresponds_pure trivial
  | sequence form element storage elements =>
    rw [text, text, custom_false, custom_false, elementTexts_eq_map, elementTexts_eq_map]
    exact corresponds_composite_of_layouts
      (fun u hmem ↦ corresponds_nested_of_layouts (hparts u hmem _ _) _ _) _ _
  | map rule key mapped storage entries =>
    rw [text, text, custom_false, custom_false, keyTexts_eq_of_alike hr hsame haddresses]
    refine (corresponds_refl fun _ ↦ rfl).bind fun keys keys' _ _ hsame' ↦ ?_
    subst hsame'
    exact corresponds_composite_of_layouts (fun item _ ↦ corresponds_entry_of_layouts
      (fun entry hmem ↦ hparts entry.2 (Value.mapped_mem_parts hmem) _ _) item.1 item.2) _ _
  | interface type alternative content => exact hparts content List.mem_cons_self level level'

/-- A value is refused in all layouts or in none. -/
theorem corresponds_text_of_layouts (hr : r.OnlyBytes) (hsame : r'.renderers = r.renderers)
    (haddresses : r.style.addresses = r'.style.addresses) (consult : Bool) (v : Value)
    (level level' : Int) :
    Corresponds (fun _ _ ↦ True) (text consult v r level) (text consult v r' level') := by
  induction v using Value.induction_parts generalizing consult level level' with
  | h v ih =>
    have hrule := corresponds_text_false_of_layouts hr hsame haddresses
      (fun u hu ↦ ih u hu true) level level'
    by_cases haccessible : v.isAccessible
    · rw [text_eq_custom haccessible consult, text_eq_custom haccessible consult]
      exact corresponds_custom_of_layouts hr hsame haccessible hrule consult level level'
    · rwa [text_of_not_accessible haccessible consult, text_of_not_accessible haccessible consult]

end Rendering

/-! ## Notices -/

/-- Two notices differ at most in how they render what was wanted and what was found. -/
structure Notice.SameButTexts (n n' : Notice) : Prop where
  header : n.header = n'.header
  trail : n.trail = n'.trail
  rows : List.Forall₂ (fun row row' ↦ row.name = row'.name ∧
    (row.name ≠ ("want" : Text) → row.name ≠ ("have" : Text) → row.value = row'.value))
      n.rows n'.rows

namespace Notice.SameButTexts

variable {n n' : Notice}

theorem refl (n : Notice) : n.SameButTexts n :=
  ⟨rfl, rfl, List.forall₂_same.mpr fun _ _ ↦ ⟨rfl, fun _ _ ↦ rfl⟩⟩

theorem prepend (h : n.SameButTexts n') (name value : Text) :
    (n.prepend name value).SameButTexts (n'.prepend name value) :=
  ⟨h.header, h.trail, .cons ⟨rfl, fun _ _ ↦ rfl⟩ h.rows⟩

end Notice.SameButTexts

def Options.relayout (ops : Options) (flat : Bool) (quoteUpTo indent tabWidth : Nat) : Options :=
  { ops with rendering.style := { ops.rendering.style with flat, quoteUpTo, indent, tabWidth } }

namespace Comparison

variable [Host] {declared : Text → List Text} {want found : Value} {ops : Options} {m m' : Meeting}
  {flat : Bool} {quoteUpTo indent tabWidth : Nat}

omit [Host] in
/-- Without registered renderers, notices have the one for bytes and no other. -/
theorem noticeRendering_of_plain {r : Rendering} (hplain : r.renderers = []) :
    noticeRendering r = r.register byteTy .byte := by
  rw [noticeRendering, if_neg]
  simp [Rendering.hasRenderer, hplain]

/-- The rows which tell that the types of two values differ. -/
def typeRows (want found : Value) : List Row :=
  if want.typeName != found.typeName || want.identity? != found.identity? then
    [⟨"want type", want.typeName⟩, ⟨"have type", found.typeName⟩]
  else []

theorem mismatch_eq (want found : Value) (context : Context) :
    mismatch want found context = (do
      let wantText ← (noticeRendering context.rendering).any want
      let foundText ← (noticeRendering context.rendering).any found
      pure { header := "expected values to be equal"
             trail := context.trail
             rows := ⟨"want", wantText⟩ :: ⟨"have", foundText⟩ :: typeRows want found }) := by
  unfold mismatch typeRows
  split_ifs <;> rfl

/-- The notice of a mismatch shows both values, and their types where these differ. -/
theorem eq_of_mismatch {context : Context} {notice : Notice}
    (h : (mismatch want found context).Yields notice) : ∃ wantText foundText, notice =
      { header := "expected values to be equal"
        trail := context.trail
        rows := ⟨"want", wantText⟩ :: ⟨"have", foundText⟩ :: typeRows want found } := by
  rw [mismatch_eq] at h
  obtain ⟨wantText, -, h⟩ := yields_bind.mp h
  obtain ⟨foundText, -, h⟩ := yields_bind.mp h
  exact ⟨wantText, foundText, (yields_pure.mp h).symm⟩

/-- Two layouts refuse the same mismatches, and tell of the others alike but for the texts. -/
theorem corresponds_mismatch_of_relayout (hplain : ops.rendering.renderers = [])
    (flat : Bool) (quoteUpTo indent tabWidth : Nat) (want found : Value) :
    Corresponds Notice.SameButTexts (mismatch want found ops.toContext)
      (mismatch want found (ops.relayout flat quoteUpTo indent tabWidth).toContext) := by
  have htext (v : Value) : Corresponds (fun _ _ ↦ True) ((noticeRendering ops.rendering).any v)
      ((noticeRendering (ops.relayout flat quoteUpTo indent tabWidth).rendering).any v) := by
    have hplain' : (ops.relayout flat quoteUpTo indent tabWidth).rendering.renderers = [] := hplain
    have hbytes := (Rendering.onlyBytes_of_plain hplain).noticeRendering
    refine Rendering.corresponds_text_of_layouts hbytes ?_ ?_ true v 0 0
    · rw [noticeRendering_of_plain hplain, noticeRendering_of_plain hplain']
      rfl
    · rw [noticeRendering_of_plain hplain, noticeRendering_of_plain hplain']
      rfl
  rw [mismatch_eq, mismatch_eq]
  refine (htext want).bind fun _ _ _ _ _ ↦ (htext found).bind fun _ _ _ _ _ ↦ corresponds_pure ?_
  refine ⟨rfl, rfl, .cons ⟨rfl, ?_⟩ (.cons ⟨rfl, ?_⟩ ?_)⟩
  · exact fun hne ↦ (hne rfl).elim
  · exact fun _ hne ↦ (hne rfl).elim
  · exact List.forall₂_same.mpr fun _ _ ↦ ⟨rfl, fun _ _ ↦ rfl⟩

/-! ## Comparisons -/

/-- The same values meet under two layouts, without registered renderers. -/
structure Relaid (flat : Bool) (quoteUpTo indent tabWidth : Nat) (m m' : Meeting) : Prop where
  relaid : m' = ⟨m.want, m.found, m.ops.relayout flat quoteUpTo indent tabWidth⟩
  unchecked : m.ops.Unchecked
  plain : m.ops.rendering.renderers = []
  keyed : m.want.Everywhere Value.Keyed

theorem Relaid.follow (h : Relaid flat quoteUpTo indent tabWidth m m') {v w : Value}
    (hv : v ∈ m.want.parts) (step : Option Step) :
    Relaid flat quoteUpTo indent tabWidth ⟨v, w, m.ops.follow step⟩ ⟨v, w, m'.ops.follow step⟩ where
  relaid := by
    rw [h.relaid]
    cases step <;> rfl
  unchecked := h.unchecked.follow step
  plain := by simpa using h.plain
  keyed := h.keyed.part hv

/-- The layout does not reach the order of the keys, nor their labels. -/
theorem sortedKeys_relayout (hplain : ops.rendering.renderers = []) (v : Value) :
    (ops.relayout flat quoteUpTo indent tabWidth).rendering.sortedKeys v =
      ops.rendering.sortedKeys v := by
  have hplain' : (ops.relayout flat quoteUpTo indent tabWidth).rendering.renderers = [] := hplain
  have hlabel := Rendering.keyLabel_eq_of_plain hplain' hplain rfl
  simp only [Rendering.sortedKeys, hlabel]

/-- Comparisons under two layouts stay in step. -/
theorem relaid_simulation [LawfulHost] :
    Simulation true Notice.SameButTexts (Relaid flat quoteUpTo indent tabWidth) where
  unchecked h := by
    obtain ⟨rfl, hops, -⟩ := h
    exact ⟨hops, hops.trails, hops.types⟩
  alike h := by
    obtain ⟨rfl, -⟩ := h
    exact ⟨rfl, rfl, ⟨rfl, rfl⟩, ⟨rfl, rfl⟩, ⟨rfl, rfl⟩⟩
  mismatch h := by
    obtain ⟨rfl, -⟩ := id h
    exact corresponds_mismatch_of_relayout h.plain ..
  hidden h := by
    obtain ⟨rfl, -⟩ := h
    exact .refl _
  prepend name value h := h.prepend name value
  inspect {m m'} h hinspected := by
    obtain ⟨rfl, -⟩ := id h
    refine corresponds_inspect_self (fun step step' v w hstep hpart ↦ ?_)
      (fun label label' hlabel ↦ ?_) hinspected.identity h.keyed.self ?_
    · obtain rfl := hstep rfl
      exact h.follow hpart.mem_parts.1 step
    · obtain rfl := hlabel rfl
      have hplain : (m.ops.below (.key label)).rendering.renderers = [] := h.plain
      exact corresponds_mismatch_of_relayout hplain ..
    · rw [sortedKeys_relayout h.plain]
      exact corresponds_refl fun _ ↦
        .of_forall₂ (List.forall₂_same.mpr fun _ _ ↦ ⟨fun _ ↦ rfl, rfl⟩)

/-- Two layouts give the same notices but for the texts of what was wanted and what was found, and
where the formatting library refuses one of these texts, it does so under both. -/
theorem exists_sameButTexts_of_relayout [LawfulHost] (hops : ops.Unchecked)
    (hplain : ops.rendering.renderers = []) (hwant : want.Everywhere (Value.Made declared))
    (hfound : found.Everywhere (Value.Made declared)) (flat : Bool)
    (quoteUpTo indent tabWidth : Nat) :
    Corresponds (List.Forall₂ Notice.SameButTexts) (compare want found ops)
        (compare want found (ops.relayout flat quoteUpTo indent tabWidth)) ∧
      (want.Everywhere Value.Formatted → found.Everywhere Value.Formatted →
        ∃ notices notices', (compare want found ops).Yields notices ∧
          (compare want found (ops.relayout flat quoteUpTo indent tabWidth)).Yields notices' ∧
          List.Forall₂ Notice.SameButTexts notices notices') := by
  have hmeetings : Relaid flat quoteUpTo indent tabWidth ⟨want, found, ops⟩
      ⟨want, found, ops.relayout flat quoteUpTo indent tabWidth⟩ :=
    ⟨rfl, hops, hplain, hwant.mono fun _ h ↦ h.keyed⟩
  have hnotices := (relaid_simulation.compare hmeetings).imp fun _ _ h ↦ matched_true.mp h
  refine ⟨hnotices, fun hformatted hformatted' ↦ ?_⟩
  obtain ⟨notices, hyields⟩ := compare_returns hops (Rendering.faultless_of_plain hplain)
    (hwant.genuine hformatted) (hfound.genuine hformatted')
  obtain ⟨notices', hyields', hsame⟩ := hnotices.forth hyields
  exact ⟨notices, notices', hyields, hyields', hsame⟩

end Comparison

/-! ## Samples -/

namespace Comparison

open scoped Sample

def lineMap (storage : Identity) (n : Int) : Value :=
  .map .sorted Sample.string Sample.int storage
    [(.scalar (.string .owned (some "a\nb")), .scalar (.integer .int n))]

/-- The values differ under the key, in a layout of several lines and in a flat one. -/
theorem exists_sameButTexts_of_relayout_lineMap :
    ∃ notices notices', (compare (lineMap 0 1) (lineMap 1 2) {}).Yields notices ∧
      (compare (lineMap 0 1) (lineMap 1 2) (Options.relayout {} true 5 3 8)).Yields notices' ∧
      List.Forall₂ Notice.SameButTexts notices notices' := by
  have hops : ({} : Options).Unchecked := ⟨rfl, rfl⟩
  have hwant : (lineMap 0 1).Everywhere (Value.Made fun _ ↦ []) := by decide
  have hfound : (lineMap 1 2).Everywhere (Value.Made fun _ ↦ []) := by decide
  exact (exists_sameButTexts_of_relayout hops rfl hwant hfound true 5 3 8).2 (by decide) (by decide)

end Comparison

end Discrepancy
