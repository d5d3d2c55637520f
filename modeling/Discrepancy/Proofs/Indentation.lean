import Discrepancy.Proofs.Unfolding

/-!
# Indentation

Indentation moves a text to the right and does nothing else.  Each level adds the columns of a tab
to the front of every line, and so does each step of indentation; it does not matter which of the
two a tab belongs to.

Values write the tabs of their own lines, and where one stands behind a label the first tabs are
taken away again.  What is taken away is just what was written, so that a part moves like the whole,
apart from its first line, which stands behind the label.  Labels do not move, since keys have no
tabs.  A string that is written across lines does not move either, and is left out here.
-/

namespace Discrepancy

namespace Text

variable {s t : Text}

/-! ## Moving lines -/

/-- A text with spaces in front of all of its lines but the first. -/
def hanging (n : Nat) (t : Text) : Text :=
  t.flatMap fun b ↦ if b = byte '\n' then byte '\n' :: spaces n else [b]

/-- A text with spaces in front of all of its lines. -/
def shifted (n : Nat) (t : Text) : Text :=
  spaces n ++ hanging n t

theorem hanging_append (n : Nat) (s t : Text) :
    hanging n (s ++ t) = hanging n s ++ hanging n t :=
  List.flatMap_append

theorem hanging_of_line (n : Nat) (h : byte '\n' ∉ t) : hanging n t = t := by
  have hbytes : hanging n t = t.flatMap fun b ↦ [b] :=
    List.flatMap_congr fun b hb ↦ if_neg (ne_of_mem_of_not_mem hb h)
  rw [hbytes, List.flatMap_singleton']

theorem hanging_newline_cons (n : Nat) (t : Text) :
    hanging n (byte '\n' :: t) = byte '\n' :: shifted n t := by
  rw [hanging, List.flatMap_cons, if_pos rfl]
  rfl

theorem newline_not_mem_spaces (n : Nat) : byte '\n' ∉ spaces n :=
  fun hmem ↦ absurd (List.eq_of_mem_replicate hmem) (by decide)

theorem shifted_spaces_append (n m : Nat) (t : Text) :
    shifted n (spaces m ++ t) = spaces (n + m) ++ hanging n t := by
  rw [shifted, hanging_append, hanging_of_line n (newline_not_mem_spaces m), spaces_add,
    List.append_assoc]

end Text

open Text (byte spaces hanging shifted)

/-! ## Composite texts -/

namespace Style

variable {style : Style} {level : Int}

/-- Each level below the margin has one tab more. -/
theorem tab_add (hflat : ¬ style.flat) (hlevel : 0 ≤ style.depth level) (k : Nat) :
    style.tab (style.depth (level + k)) =
      spaces (k * style.tabWidth + style.tabSize (style.depth level)) := by
  have hdepth : (style.depth (level + k)).toNat = k + (style.depth level).toNat := by
    unfold depth at hlevel ⊢
    omega
  rw [tab, tabSize, tabSize, if_neg hflat, if_neg hflat, hdepth, Nat.add_mul]

theorem leaf_add (hflat : ¬ style.flat) (hlevel : 0 ≤ style.depth level) (k : Nat) (t : Text) :
    style.leaf (level + k) (hanging (k * style.tabWidth) t) =
      shifted (k * style.tabWidth) (style.leaf level t) := by
  rw [leaf, leaf, tab_add hflat hlevel, tab, Text.shifted_spaces_append]

theorem leaf_add_of_line (hflat : ¬ style.flat) (hlevel : 0 ≤ style.depth level) (k : Nat)
    {t : Text} (ht : byte '\n' ∉ t) :
    style.leaf (level + k) t = shifted (k * style.tabWidth) (style.leaf level t) := by
  rw [← leaf_add hflat hlevel, Text.hanging_of_line _ ht]

theorem leaf_append (style : Style) (level : Int) (s t : Text) :
    style.leaf level s ++ t = style.leaf level (s ++ t) :=
  List.append_assoc ..

/-- In several lines, every item ends its line. -/
theorem items_cons_of_not_flat (hflat : ¬ style.flat) (level : Int) (part : Text)
    (rest : List Text) :
    style.items level (part :: rest) =
      style.leaf (level + 1) (part ++ (byte ',' :: byte '\n' :: style.items level rest)) := by
  have hseparator (last : Bool) : style.separator last = byte ',' :: [byte '\n'] :=
    if_pos (by simpa using hflat)
  cases rest with
  | nil => rw [leaf, items, items, hseparator, List.append_assoc]
  | cons next rest =>
    rw [items, hseparator, List.append_assoc, List.append_assoc, leaf]
    rfl

theorem items_add (hflat : ¬ style.flat) (hlevel : 0 ≤ style.depth level) (k : Nat)
    (parts : List Text) :
    style.items (level + k) (parts.map (hanging (k * style.tabWidth))) ++
        style.leaf (level + k) "\x7d" =
      shifted (k * style.tabWidth) (style.items level parts ++ style.leaf level "\x7d") := by
  have hbelow : 0 ≤ style.depth (level + 1) := by
    unfold depth at hlevel ⊢
    omega
  induction parts with
  | nil => exact leaf_add_of_line hflat hlevel k (by decide)
  | cons part rest ih =>
    calc
      _ = style.leaf (level + 1 + k) (hanging (k * style.tabWidth) part ++
          (byte ',' :: byte '\n' :: shifted (k * style.tabWidth)
            (style.items level rest ++ style.leaf level "\x7d"))) := by
        rw [← ih, List.map_cons, items_cons_of_not_flat hflat, leaf_append, List.append_assoc,
          add_right_comm]
        rfl
      _ = style.leaf (level + 1 + k) (hanging (k * style.tabWidth)
          (part ++ ([byte ','] ++ (byte '\n' ::
            (style.items level rest ++ style.leaf level "\x7d"))))) := by
        rw [Text.hanging_append, Text.hanging_append, Text.hanging_newline_cons,
          Text.hanging_of_line _ (by decide : byte '\n' ∉ [byte ','])]
        rfl
      _ = _ := by
        rw [leaf_add hflat hbelow, items_cons_of_not_flat hflat, leaf_append, List.append_assoc]
        rfl

/-- A composite value moves with its parts. -/
theorem composite_add (hflat : ¬ style.flat) (hlevel : 0 ≤ style.depth level) (k : Nat)
    {opening : Text} (hopening : byte '\n' ∉ opening) (parts : List Text) :
    style.composite (level + k) opening (parts.map (hanging (k * style.tabWidth))) =
      shifted (k * style.tabWidth) (style.composite level opening parts) := by
  by_cases hempty : parts = []
  · rw [hempty, List.map_nil, composite, composite, if_pos List.isEmpty_nil,
      if_pos List.isEmpty_nil]
    exact leaf_add_of_line hflat hlevel k (List.not_mem_append hopening (by decide))
  · calc
      _ = style.leaf (level + k) (opening ++ byte '\n' :: shifted (k * style.tabWidth)
          (style.items level parts ++ style.leaf level "\x7d")) := by
        rw [composite_of_not_flat hflat _ _ (by simpa using hempty), items_add hflat hlevel]
      _ = style.leaf (level + k) (hanging (k * style.tabWidth)
          (opening ++ byte '\n' :: (style.items level parts ++ style.leaf level "\x7d"))) := by
        rw [Text.hanging_append, Text.hanging_of_line _ hopening, Text.hanging_newline_cons]
      _ = _ := by
        rw [leaf_add hflat hlevel, composite_of_not_flat hflat level _ hempty]

end Style

/-! ## Values -/

namespace Rendering

variable [Host] {r : Rendering} {v u w : Value} {level : Int}

/-- A value is among those that the text of a value is made of, apart from its labels. -/
inductive Displays (r : Rendering) : Value → Value → Prop
  | self (v : Value) : Displays r v v
  | through {v u w : Value} (h : Through r.style v u) (hw : Displays r u w) : Displays r v w
  | part {v w : Value} {item : Text × Value} (h : item ∈ r.shownParts v)
      (hw : Displays r item.2 w) : Displays r v w

theorem Displays.everywhere (h : r.Displays v w) {p : Value → Prop} (hp : p .absent)
    (hv : v.Everywhere p) : w.Everywhere p := by
  induction h with
  | self v => exact hv
  | through h _ ih => exact ih (hv.part h.holds.mem_parts)
  | part h _ ih => exact ih (everywhere_of_mem_shownParts hp hv h)

/-- A value in whose text nothing breaks a line but the composite values: neither a name, nor a
string that the text is made of. -/
structure Ruled (r : Rendering) (v : Value) : Prop where
  renderable : v.Everywhere Value.Renderable
  captions : v.Everywhere fun u ↦ ∀ caption ∈ u.captions, byte '\n' ∉ caption
  strings : ∀ u, r.Displays v u → ¬ r.style.Splits u

theorem Ruled.through (hv : r.Ruled v) (h : Through r.style v u) : r.Ruled u where
  renderable := hv.renderable.part h.holds.mem_parts
  captions := hv.captions.part h.holds.mem_parts
  strings w hw := hv.strings w (.through h hw)

theorem Ruled.part (hv : r.Ruled v) {item : Text × Value} (h : item ∈ r.shownParts v) :
    r.Ruled item.2 where
  renderable := everywhere_of_mem_shownParts (.of_not_scalar nofun) hv.renderable h
  captions := everywhere_of_mem_shownParts (fun _ hmem ↦ nomatch hmem) hv.captions h
  strings w hw := hv.strings w (.part h hw)

/-- A text has its tabs in front. -/
theorem exists_textAt_eq_leaf (hplain : r.renderers = []) (hv : r.Ruled v) (level : Int) :
    ∃ body, r.textAt v level = r.style.leaf level body := by
  induction v using Value.induction_parts with
  | h v ih =>
    rcases leaf_or_through_or_composite hv.renderable.self r.style with
      ⟨t, hleaf⟩ | ⟨u, hu⟩ | hcomposite
    · exact ⟨t, hleaf.textAt hplain level⟩
    · rw [hu.textAt hplain]
      exact ih u hu.holds.mem_parts (hv.through hu)
    · rw [textAt_composite hplain hv.renderable hcomposite, Style.composite]
      split_ifs
      · exact ⟨_, rfl⟩
      · rw [Style.leaf, List.append_assoc, List.append_assoc, List.append_assoc]
        exact ⟨_, rfl⟩

theorem newline_not_mem_label (hplain : r.renderers = []) (hv : r.Ruled v) {item : Text × Value}
    (h : item ∈ r.shownParts v) : byte '\n' ∉ item.1 := by
  rcases label_cases h with hnil | ⟨name, hname, hcaption | ⟨k, hk, rfl⟩⟩
  · exact hnil ▸ List.not_mem_nil
  · exact hname ▸ List.not_mem_append (hv.captions.self _ hcaption) (by decide)
  · have hlabel : byte '\n' ∉ r.label k :=
      newline_not_mem_textAt (r := r.forKeys) rfl (forKeys_plain hplain) (hv.renderable.part hk)
        (hv.captions.part hk) 0
    exact hname ▸ List.not_mem_append hlabel (by decide)

/-- Behind its label a part moves but for its first line. -/
theorem partText_add (hflat : ¬ r.style.flat) (hplain : r.renderers = []) (hv : r.Ruled v)
    {item : Text × Value} (hitem : item ∈ r.shownParts v) (hlevel : 0 ≤ r.style.depth level)
    {k : Nat} (h : r.textAt item.2 (level + k) =
      shifted (k * r.style.tabWidth) (r.textAt item.2 level)) :
    r.partText (level + k) item = hanging (k * r.style.tabWidth) (r.partText level item) := by
  obtain ⟨body, hbody⟩ := exists_textAt_eq_leaf hplain (hv.part hitem) level
  have huntab (level : Int) (t : Text) :
      r.style.untab (r.style.leaf level t) (r.style.depth level) = t :=
    Style.untab_tab_append ..
  calc
    _ = item.1 ++ hanging (k * r.style.tabWidth) body := by
      rw [partText, h, hbody, ← Style.leaf_add hflat hlevel, huntab]
    _ = _ := by
      rw [partText, hbody, huntab, Text.hanging_append,
        Text.hanging_of_line _ (newline_not_mem_label hplain hv hitem)]

/-- A text moves by a tab for each level. -/
theorem textAt_add (hflat : ¬ r.style.flat) (hplain : r.renderers = []) (hv : r.Ruled v)
    (hlevel : 0 ≤ r.style.depth level) (k : Nat) :
    r.textAt v (level + k) = shifted (k * r.style.tabWidth) (r.textAt v level) := by
  induction v using Value.induction_parts generalizing level with
  | h v ih =>
    rcases leaf_or_through_or_composite hv.renderable.self r.style with
      ⟨t, hleaf⟩ | ⟨u, hu⟩ | hcomposite
    · rw [hleaf.textAt hplain, hleaf.textAt hplain]
      apply Style.leaf_add_of_line hflat hlevel
      exact hleaf.newline_not_mem hv.renderable.self.unsealed (hv.strings v (.self v))
        hv.captions.self
    · rw [hu.textAt hplain, hu.textAt hplain]
      exact ih u hu.holds.mem_parts (hv.through hu) hlevel
    · have hbelow : 0 ≤ r.style.depth (level + 1) := by
        unfold Style.depth at hlevel ⊢
        omega
      -- What a map shows for a key that it does not find is no part of it.
      have hshown (item : Text × Value) (hitem : item ∈ r.shownParts v) :
          r.textAt item.2 (level + 1 + k) =
            shifted (k * r.style.tabWidth) (r.textAt item.2 (level + 1)) := by
        rcases eq_absent_or_holds hitem with habsent | ⟨move, hholds⟩
        · rw [habsent, Leaf.absent.textAt hplain, Leaf.absent.textAt hplain]
          exact Style.leaf_add_of_line hflat hbelow k (by decide)
        · exact ih _ hholds.mem_parts (hv.part hitem) hbelow
      have hparts : (r.shownParts v).map (r.partText (level + k + 1)) =
          ((r.shownParts v).map (r.partText (level + 1))).map
            (hanging (k * r.style.tabWidth)) := by
        rw [List.map_map, add_right_comm]
        exact List.map_congr_left fun item hitem ↦
          partText_add hflat hplain hv hitem hbelow (hshown item hitem)
      rw [textAt_composite hplain hv.renderable hcomposite,
        textAt_composite hplain hv.renderable hcomposite, hparts]
      apply Style.composite_add hflat hlevel
      exact newline_not_mem_opening hv.captions.self hcomposite

/-! ## Levels and steps of indentation -/

def indentBy (r : Rendering) (n : Nat) : Rendering :=
  { r with style := { r.style with indent := n } }

/-- It does not matter whether a tab belongs to the indentation or to the level. -/
theorem value_indentBy (hplain : r.renderers = []) (v : Value) (indent level : Nat) :
    (r.indentBy indent).value v level = (r.indentBy 0).value v (indent + level) := by
  have hbytes : (r.indentBy indent).OnlyBytes := onlyBytes_of_plain hplain
  have hsame : (r.indentBy 0).renderers = (r.indentBy indent).renderers := rfl
  apply text_of_alike hbytes hsame
  apply Style.alike_of_indent
  exact (zero_add _).symm

theorem Ruled.indentBy (hv : r.Ruled v) (n : Nat) : (r.indentBy n).Ruled v where
  renderable := hv.renderable
  captions := hv.captions
  strings u hu := by
    have hdisplays : r.Displays v u := by
      clear hv
      induction hu with
      | self v => exact .self v
      | through h _ ih => exact .through (by cases h <;> constructor; assumption) ih
      | part h _ ih => exact .part h ih
    exact hv.strings u hdisplays

/-- Indentation is a shift: each level and each step of indentation moves all lines of a text by
the columns of a tab, and nothing else. -/
theorem value_shifts (hflat : ¬ r.style.flat) (hplain : r.renderers = []) (hv : r.Ruled v) :
    (∀ level k : Nat, ∃ t, (r.value v level).Yields t ∧
        (r.value v (level + k)).Yields (shifted (k * r.style.tabWidth) t)) ∧
      (∀ indent level : Nat,
        (r.indentBy indent).value v level = (r.indentBy 0).value v (indent + level)) ∧
      ∀ n level : Nat, ∃ r' t, ((RenderSetting.indent n).apply r).Yields r' ∧
        ((r.indentBy 0).value v level).Yields t ∧
          (r'.value v level).Yields (shifted (n * r.style.tabWidth) t) := by
  have hlevels {r : Rendering} (hflat : ¬ r.style.flat) (hplain : r.renderers = [])
      (hv : r.Ruled v) (level k : Nat) : (r.value v level).Yields (r.textAt v level) ∧
        (r.value v (level + k)).Yields (shifted (k * r.style.tabWidth) (r.textAt v level)) := by
    have hdepth : 0 ≤ r.style.depth level := by
      unfold Style.depth
      omega
    rw [← textAt_add hflat hplain hv hdepth]
    exact ⟨value_yields hplain hv.renderable _, value_yields hplain hv.renderable _⟩
  refine ⟨fun level k ↦ ⟨_, hlevels hflat hplain hv level k⟩, value_indentBy hplain v, ?_⟩
  intro n level
  obtain ⟨hmargin, hmoved⟩ := hlevels (r := r.indentBy 0) hflat hplain (hv.indentBy 0) level n
  refine ⟨r.indentBy n, _, Outcome.yields_pure.mpr rfl, hmargin, ?_⟩
  rw [value_indentBy hplain, add_comm]
  exact hmoved

end Rendering

/-! ## Samples -/

namespace Rendering

open scoped Sample

def shortLists : List (Value × Value) :=
  let optional : Ty := .pointer .optional Sample.string
  [(Comparison.word "two\nlines", .sequence .vector optional (some 1)
      [.pointer .optional Sample.string (some (2, Comparison.word "a\nb")),
        .pointer .optional Sample.string none]),
    (Comparison.word "", .sequence .vector optional none [])]

def shortLines : Value :=
  .map .sorted Sample.string (Sample.vectorOf (.pointer .optional Sample.string)) 0 shortLists

def wide : Rendering :=
  { style := { quoteUpTo := 3, indent := 1, tabWidth := 3 } }

theorem value_shifts_shortLines :
    (∀ level k : Nat, ∃ t, (wide.value shortLines level).Yields t ∧
        (wide.value shortLines (level + k)).Yields (shifted (k * 3) t)) ∧
      (∀ indent level : Nat, (wide.indentBy indent).value shortLines level =
        (wide.indentBy 0).value shortLines (indent + level)) ∧
      ∀ n level : Nat, ∃ r' t, ((RenderSetting.indent n).apply wide).Yields r' ∧
        ((wide.indentBy 0).value shortLines level).Yields t ∧
          (r'.value shortLines level).Yields (shifted (n * 3) t) := by
  have hstrings (u : Value) (h : wide.Displays shortLines u) : ¬ wide.style.Splits u := by
    have hentries : ∀ entry ∈ shortLists,
        entry.2.Everywhere fun u ↦ ¬ wide.style.Splits u := by decide
    have hwithin {w : Value} (hw : w.Everywhere fun u ↦ ¬ wide.style.Splits u)
        (h : wide.Displays w u) : ¬ wide.style.Splits u := (h.everywhere id hw).self
    cases h with
    | self => exact id
    | through h _ => cases h
    | part hitem h =>
      rcases eq_absent_or_holds hitem with habsent | ⟨move, hholds⟩
      · exact hwithin (habsent ▸ Value.everywhere_absent id) h
      · cases hholds with
        | mapped hentry => exact hwithin (hentries _ hentry) h
  exact value_shifts (by decide) rfl ⟨by decide, by decide, hstrings⟩

end Rendering

end Discrepancy
