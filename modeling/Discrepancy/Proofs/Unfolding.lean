import Discrepancy.Proofs.Joining

/-!
# Texts in several lines

A text in several lines holds what the text on one line holds, laid out in another way: its lines,
joined, are the text on one line.  A string must be written in one way in both, which is so where
quotation leaves it as it is, and a name must neither break a line nor be mistaken at the beginning
of one for the tabs in front of it or for the end of a composite value.

The argument goes by induction on the parts of a value.  A text brings its tabs along and begins
like a line behind them; so what stands behind a label begins in the same way, and a composite value
is joined part by part.
-/

namespace Discrepancy

/-! ## Verbatim strings -/

section Verbatim

variable [Host]

/-- A code point that prints and does not have an escape of its own. -/
def Rune.IsVerbatim : Rune → Prop
  | point code _ => code ∉ [0x0a, 0x0d, 0x09, 0x22, 0x5c] ∧ ¬ Host.isUnprintable code
  | stray _ => False

instance : DecidablePred Rune.IsVerbatim
  | .point code _ => inferInstanceAs
      (Decidable (code ∉ [0x0a, 0x0d, 0x09, 0x22, 0x5c] ∧ ¬ Host.isUnprintable code))
  | .stray _ => isFalse id

/-- A text that quotation leaves as it is. -/
def Text.IsVerbatim (t : Text) : Prop :=
  ∀ rune ∈ t.runes, rune.IsVerbatim

instance : DecidablePred Text.IsVerbatim :=
  fun t ↦ inferInstanceAs (Decidable (∀ rune ∈ t.runes, rune.IsVerbatim))

/-- A verbatim code point is written as it was read. -/
theorem Rune.IsVerbatim.quoteRune_eq {rune : Rune} (h : rune.IsVerbatim) :
    Text.quoteRune rune = rune.bytes := by
  cases rune with
  | stray b => exact h.elim
  | point code bytes =>
    obtain ⟨hescape, hprints⟩ := h
    have hother (c : Nat) (hc : c ∈ [0x0a, 0x0d, 0x09, 0x22, 0x5c]) : ¬ (code == c) = true :=
      fun heq ↦ hescape (beq_iff_eq.mp heq ▸ hc)
    rw [Text.quoteRune, if_neg (hother _ (by decide)), if_neg (hother _ (by decide)),
      if_neg (hother _ (by decide)), if_neg (hother _ (by decide)), if_neg (hother _ (by decide)),
      if_neg hprints]
    rfl

theorem Text.IsVerbatim.quoted_eq {t : Text} (h : t.IsVerbatim) : t.quoted = "\"" ++ t ++ "\"" := by
  have hbytes : t.runes.flatMap Text.quoteRune = t.runes.flatMap Rune.bytes :=
    List.flatMap_congr fun rune hrune ↦ (h rune hrune).quoteRune_eq
  rw [Text.quoted, hbytes, Text.flatMap_bytes_runes]

/-- A verbatim string has one text in all styles. -/
theorem Text.IsVerbatim.stringText_eq {t : Text} (h : t.IsVerbatim) (style : Style) :
    style.stringText t = t.quoted := by
  have hline : ¬ t.contains (Text.byte '\n') := by
    have hquoted := (Text.isLine_quoted t).1
    rw [h.quoted_eq] at hquoted
    rw [List.contains_iff_mem]
    exact fun hmem ↦ hquoted (List.mem_append_left _ (List.mem_append_right _ hmem))
  rw [Style.stringText]
  split_ifs
  · rfl
  · exact h.quoted_eq.symm

namespace Value

/-- A value that is not a string, or a string that quotation leaves as it is. -/
def IsVerbatim : Value → Prop
  | scalar (.string _ (some t) _) => t.IsVerbatim
  | _ => True

instance : DecidablePred IsVerbatim
  | scalar (.string _ (some t) _) => inferInstanceAs (Decidable t.IsVerbatim)
  | scalar (.string _ none _) | scalar (.bool _) | scalar (.integer ..) | scalar (.float ..)
  | scalar (.complex ..) | scalar (.func ..) | scalar (.chan ..) | scalar (.span ..)
  | scalar (.instant ..) | scalar (.sealed ..) | absent | hidden _ | pointer .. | record ..
  | sequence .. | map .. | interface .. => isTrue trivial

end Value

end Verbatim

/-! ## Composite texts -/

namespace Style

open Text (byte joinWith unbroken Begins)

variable {style : Style}

theorem untab_tab_append (style : Style) (t : Text) (n : Int) :
    style.untab (style.tab n ++ t) n = t := by
  have hsize : (style.tab n).length = style.tabSize n := List.length_replicate
  have hspaces : (style.tab n).all (· == byte ' ') := by
    simp [tab, Text.spaces]
  rw [untab, if_pos, ← hsize, List.drop_left]
  rw [← hsize, List.take_left, hspaces, List.length_append]
  simp

@[simp]
theorem unbroken_leaf (style : Style) (level : Int) (t : Text) :
    unbroken (style.leaf level t) = unbroken t :=
  Text.unbroken_spaces_append _ t

/-- An item stands behind its tabs and in front of a comma. -/
theorem exists_items_cons_eq (hflat : ¬ style.flat) (level : Int) (part : Text)
    (rest : List Text) :
    ∃ x, style.items level (part :: rest) =
      style.tab (style.depth (level + 1)) ++ (part ++ byte ',' :: x) := by
  have hseparator (last : Bool) : style.separator last = byte ',' :: [byte '\n'] :=
    if_pos (by simpa using hflat)
  cases rest with
  | nil => exact ⟨_, by rw [items, hseparator, List.append_assoc]⟩
  | cons next rest =>
    refine ⟨byte '\n' :: style.items level (next :: rest), ?_⟩
    rw [items, hseparator, List.append_assoc, List.append_assoc]
    rfl

/-- The items of a composite value, each on lines of its own, are joined one by one. -/
theorem unbroken_items (hflat : ¬ style.flat) (level : Int) {parts : List Text}
    (hparts : ∀ part ∈ parts, Begins part) (hne : parts ≠ []) :
    unbroken (style.items level parts ++ style.leaf level "\x7d") =
      joinWith ", " (parts.map unbroken) ++ "\x7d" := by
  have hitem (part x : Text) (last : Bool) :
      unbroken (style.tab (style.depth (level + 1)) ++ part ++ style.separator last ++ x) =
        unbroken part ++
          ((if Text.closes (Text.dropSpaces x) then [] else ", ") ++ unbroken x) := by
    rw [separator, if_pos (by simpa using hflat), List.append_assoc, List.append_assoc]
    exact (Text.unbroken_spaces_append _ _).trans (Text.unbroken_append_comma part x)
  induction parts with
  | nil => exact (hne rfl).elim
  | cons part rest ih =>
    cases rest with
    | nil =>
      have hcloses : Text.closes (Text.dropSpaces (style.leaf level "\x7d")) := by
        rw [leaf, tab, Text.dropSpaces_spaces_append]
        decide
      rw [items, hitem, if_pos hcloses, unbroken_leaf]
      rfl
    | cons next rest =>
      obtain ⟨hnext, -⟩ := List.forall_mem_cons.mp (List.forall_mem_cons.mp hparts).2
      -- A comma stays if the next item cannot be taken for the closing brace.
      have hcloses : ¬ Text.closes (Text.dropSpaces
          (style.items level (next :: rest) ++ style.leaf level "\x7d")) := by
        obtain ⟨x, hx⟩ := exists_items_cons_eq hflat level next rest
        have hbegins : Begins (next ++ byte ',' :: (x ++ style.leaf level "\x7d")) :=
          hnext.append (Text.begins_cons (by decide) _)
        rw [hx, List.append_assoc, List.append_assoc, List.cons_append, tab,
          Text.dropSpaces_spaces_append, Text.dropSpaces_of_begins hbegins]
        exact hbegins.not_closes
      rw [items, List.append_assoc, hitem, if_neg hcloses,
        ih (fun part hmem ↦ hparts part (List.mem_cons_of_mem _ hmem)) (List.cons_ne_nil _ _)]
      simp only [List.map_cons, joinWith, List.append_assoc]

theorem composite_of_not_flat (hflat : ¬ style.flat) (level : Int) (opening : Text)
    {parts : List Text} (hne : parts ≠ []) : style.composite level opening parts =
      style.leaf level (opening ++ byte '\n' ::
        (style.items level parts ++ style.leaf level "\x7d")) := by
  rw [composite, if_neg (by simpa using hne), newline, if_neg hflat]
  simp only [leaf, List.append_assoc]
  rfl

/-- The parts of a composite value are joined one by one, behind its opening. -/
theorem unbroken_composite (hflat : ¬ style.flat) (level : Int) {s : Text} (hs : Text.IsLine s)
    {parts : List Text} (hparts : ∀ part ∈ parts, Begins part) :
    unbroken (style.composite level (s ++ "\x7b") parts) =
      s ++ "\x7b" ++ (joinWith ", " (parts.map unbroken) ++ "\x7d") := by
  by_cases hempty : parts = []
  · have hline : Text.IsLine (s ++ "\x7b" ++ "\x7d") :=
      (hs.append (by decide : Text.IsLine "\x7b")).append_of_ne_nil
        (List.append_ne_nil_of_right_ne_nil _ (by decide)) (by decide)
    rw [hempty, composite, if_pos List.isEmpty_nil, unbroken_leaf, Text.unbroken_of_isLine hline]
    rfl
  · calc
      _ = unbroken (s ++ byte '\x7b' :: byte '\n' ::
          (style.items level parts ++ style.leaf level "\x7d")) := by
        rw [composite_of_not_flat hflat level _ hempty, unbroken_leaf, List.append_assoc]
        rfl
      _ = s ++ byte '\x7b' :: unbroken (style.items level parts ++ style.leaf level "\x7d") := by
        rw [Text.unbroken_opening_append hs.1, Text.dropSpaces_of_begins hs.2]
      _ = _ := by
        rw [unbroken_items hflat level hparts hempty, List.append_assoc]
        rfl

end Style

/-! ## Values -/

namespace Value

variable [Host] {v u : Value} {p : Value → Prop} {moves : List Move}

omit [Host] in
theorem Reaches.everywhere (h : v.Reaches moves u) (hv : v.Everywhere p) : u.Everywhere p := by
  induction h with
  | here => exact hv
  | into hholds h ih => exact ih (hv.part hholds.mem_parts)

/-- A value whose names are lines, and whose strings are verbatim.  The strings of the keys in it
need not be, since labels are on one line in all layouts. -/
structure IsJoinable (v : Value) : Prop where
  renderable : v.Everywhere Renderable
  captions : v.Everywhere fun u ↦ ∀ caption ∈ u.captions, Text.IsLine caption
  strings : ∀ moves u, v.Reaches moves u → u.IsVerbatim

theorem isJoinable_absent : IsJoinable .absent where
  renderable := everywhere_absent (.of_not_scalar nofun)
  captions := everywhere_absent fun _ h ↦ nomatch h
  strings _ _ h := (h.everywhere (everywhere_absent trivial)).self

/-- What a joinable value holds is joinable. -/
theorem IsJoinable.into (hv : v.IsJoinable) {move : Option Move} (h : v.Holds move u) :
    u.IsJoinable where
  renderable := hv.renderable.part h.mem_parts
  captions := hv.captions.part h.mem_parts
  strings _ _ hreaches := hv.strings _ _ (.into h hreaches)

end Value

namespace Rendering

open Text (byte IsLine Begins unbroken)

variable [Host] {r : Rendering} {v u : Value} {t : Text}

def onOneLine (r : Rendering) : Rendering :=
  { r with style := { r.style with flat := true } }

/-- A leaf has one text in all layouts if its string is verbatim. -/
theorem Leaf.onOneLine (h : Leaf r.style v t) (hv : v.IsJoinable) : Leaf r.onOneLine.style v t := by
  cases h with
  | absent => exact .absent
  | hidden type => exact .hidden type
  | nil h => exact .nil h
  | address h => exact .address h
  | @scalar s t h =>
    refine .scalar ?_
    cases s with
    | string type content place =>
      cases content with
      | none => exact h
      | some u =>
        obtain rfl := Outcome.yields_pure.mp h
        have hverbatim : u.IsVerbatim := hv.strings _ _ .here
        rw [hverbatim.stringText_eq, ← hverbatim.stringText_eq r.onOneLine.style]
        exact Outcome.yields_pure.mpr rfl
    | _ => exact h

theorem Leaf.isLine_of_isJoinable (h : Leaf r.style v t) (hv : v.IsJoinable) : IsLine t :=
  (h.onOneLine hv).isLine hv.renderable.self.unsealed (Style.not_splits_of_flat rfl v)
    hv.captions.self

omit [Host] in
theorem Through.onOneLine (h : Through r.style v u) : Through r.onOneLine.style v u := by
  cases h with
  | pointee h => exact .pointee h
  | content => exact .content

theorem shownParts_onOneLine (hplain : r.renderers = []) (v : Value) :
    r.onOneLine.shownParts v = r.shownParts v := by
  have hlabel (key : Value) : r.onOneLine.label key = r.label key := by
    have heq : r.onOneLine.keyLabel key = r.keyLabel key :=
      keyLabel_eq_of_plain hplain hplain rfl key
    rw [label, label, heq]
  cases v with
  | map => simp only [shownParts, hlabel]
  | _ => rfl

/-- The opening of a composite value is a line that ends with a brace. -/
theorem exists_opening_eq (hv : v.IsJoinable) (hcomposite : v.IsComposite) :
    ∃ s, v.opening = s ++ "\x7b" ∧ IsLine s := by
  cases v with
  | record name fields => exact ⟨[], rfl, by decide⟩
  | sequence => exact ⟨_, rfl, hv.captions.self _ (List.mem_singleton_self _)⟩
  | map => exact ⟨_, rfl, hv.captions.self _ (List.mem_singleton_self _)⟩
  | _ => cases hcomposite

theorem isJoinable_of_mem_shownParts (hv : v.IsJoinable) {item : Text × Value}
    (h : item ∈ r.shownParts v) : item.2.IsJoinable := by
  rcases eq_absent_or_holds h with habsent | ⟨move, hholds⟩
  · exact habsent ▸ Value.isJoinable_absent
  · exact hv.into hholds

/-- What stands in front of a part is a line. -/
theorem isLine_of_mem_shownParts (hplain : r.renderers = []) (hv : v.IsJoinable)
    {item : Text × Value} (h : item ∈ r.shownParts v) :
    IsLine item.1 ∧ ∀ b ∈ item.1.getLast?, b = byte ' ' := by
  rcases label_cases h with hnil | ⟨name, hname, hcaption⟩
  · rw [hnil]
    exact ⟨by decide, nofun⟩
  · have hline : IsLine name := by
      rcases hcaption with hcaption | ⟨k, hk, rfl⟩
      · exact hv.captions.self _ hcaption
      · exact isLine_textAt (r := r.forKeys) rfl (forKeys_plain hplain) (hv.renderable.part hk)
          (hv.captions.part hk) 0
    refine ⟨hname ▸ hline.append (by decide), fun b hb ↦ ?_⟩
    rw [hname, List.getLast?_append_of_ne_nil _ (by decide)] at hb
    exact (Option.mem_some_iff.mp hb).symm

/-- A text in several lines has tabs in front, and begins like a line behind them. -/
theorem exists_textAt_eq (hflat : ¬ r.style.flat) (hplain : r.renderers = []) (hv : v.IsJoinable)
    (level : Int) : ∃ body, r.textAt v level = r.style.leaf level body ∧ Begins body := by
  induction v using Value.induction_parts with
  | h v ih =>
    rcases leaf_or_through_or_composite hv.renderable.self r.style with
      ⟨t, hleaf⟩ | ⟨u, hu⟩ | hcomposite
    · exact ⟨t, hleaf.textAt hplain level, (hleaf.isLine_of_isJoinable hv).2⟩
    · rw [hu.textAt hplain]
      exact ih u hu.holds.mem_parts (hv.into hu.holds)
    · have hopening := begins_opening (fun caption h ↦ (hv.captions.self caption h).2) hcomposite
      rw [textAt_composite hplain hv.renderable hcomposite]
      by_cases hempty : (r.shownParts v).map (r.partText (level + 1)) = []
      · refine ⟨_, ?_, hopening.append_of_ne_nil (opening_ne_nil v) "\x7d"⟩
        rw [Style.composite, hempty, if_pos List.isEmpty_nil]
      · exact ⟨_, Style.composite_of_not_flat hflat level _ hempty,
          hopening.append_of_ne_nil (opening_ne_nil v) _⟩

/-- A leaf reads the same on one line. -/
theorem Leaf.unbroken_textAt (hplain : r.renderers = []) (h : Leaf r.style v t)
    (hv : v.IsJoinable) (level level' : Int) :
    unbroken (r.textAt v level) = r.onOneLine.textAt v level' := by
  rw [h.textAt hplain, (h.onOneLine hv).textAt (r := r.onOneLine) hplain, Style.unbroken_leaf,
    Text.unbroken_of_isLine (h.isLine_of_isJoinable hv), Style.leaf_of_flat rfl]

/-- A part stands behind its label without tabs, so that joining it leaves the label alone. -/
theorem unbroken_partText (hflat : ¬ r.style.flat) (hplain : r.renderers = [])
    (hv : v.IsJoinable) {item : Text × Value} (hitem : item ∈ r.shownParts v) {level level' : Int}
    (h : unbroken (r.textAt item.2 level) = r.onOneLine.textAt item.2 level') :
    Begins (r.partText level item) ∧
      unbroken (r.partText level item) = r.onOneLine.linePart level' item := by
  obtain ⟨hline, hlast⟩ := isLine_of_mem_shownParts hplain hv hitem
  obtain ⟨body, hbody, hbegins⟩ :=
    exists_textAt_eq hflat hplain (isJoinable_of_mem_shownParts hv hitem) level
  have huntab : r.partText level item = item.1 ++ body := by
    rw [partText, hbody]
    exact congrArg _ (Style.untab_tab_append ..)
  refine ⟨huntab ▸ hline.2.append hbegins, ?_⟩
  calc
    _ = item.1 ++ unbroken body := by
      rw [huntab, Text.unbroken_label_append hline hlast hbegins]
    _ = item.1 ++ unbroken (r.textAt item.2 level) := by
      rw [hbody, Style.unbroken_leaf]
    _ = _ := by
      rw [h, linePart]

/-- The lines of a text, joined, are the text on one line. -/
theorem unbroken_textAt (hflat : ¬ r.style.flat) (hplain : r.renderers = []) (hv : v.IsJoinable)
    (level level' : Int) : unbroken (r.textAt v level) = r.onOneLine.textAt v level' := by
  induction v using Value.induction_parts generalizing level level' with
  | h v ih =>
    rcases leaf_or_through_or_composite hv.renderable.self r.style with
      ⟨t, hleaf⟩ | ⟨u, hu⟩ | hcomposite
    · exact hleaf.unbroken_textAt hplain hv level level'
    · rw [hu.textAt hplain, hu.onOneLine.textAt (r := r.onOneLine) hplain]
      exact ih u hu.holds.mem_parts (hv.into hu.holds) level level'
    · obtain ⟨s, hopening, hs⟩ := exists_opening_eq hv hcomposite
      -- What a map shows for a key that it does not find is no part of it.
      have hshown (item : Text × Value) (hitem : item ∈ r.shownParts v) :
          unbroken (r.textAt item.2 (level + 1)) = r.onOneLine.textAt item.2 (level' + 1) := by
        rcases eq_absent_or_holds hitem with habsent | ⟨move, hholds⟩
        · rw [habsent]
          exact Leaf.absent.unbroken_textAt hplain Value.isJoinable_absent _ _
        · exact ih _ hholds.mem_parts (hv.into hholds) _ _
      have hpart (item : Text × Value) (hitem : item ∈ r.shownParts v) :=
        unbroken_partText hflat hplain hv hitem (hshown item hitem)
      have hparts : ((r.shownParts v).map (r.partText (level + 1))).map unbroken =
          (r.shownParts v).map (r.onOneLine.linePart (level' + 1)) := by
        rw [List.map_map]
        exact List.map_congr_left fun item hitem ↦ (hpart item hitem).2
      calc
        _ = unbroken (r.style.composite level (s ++ "\x7b")
            ((r.shownParts v).map (r.partText (level + 1)))) := by
          rw [textAt_composite hplain hv.renderable hcomposite, hopening]
        _ = s ++ "\x7b" ++ (Text.joinWith ", "
            ((r.shownParts v).map (r.onOneLine.linePart (level' + 1))) ++ "\x7d") := by
          rw [Style.unbroken_composite hflat level hs
            (List.forall_mem_map.mpr fun item hitem ↦ (hpart item hitem).1), hparts]
        _ = _ := by
          rw [textAt_composite_of_flat (r := r.onOneLine) rfl hplain hv.renderable hcomposite,
            shownParts_onOneLine hplain, hopening]

/-- A text in several lines and the text on one line hold the same, at all levels. -/
theorem value_yields_unbroken (hflat : ¬ r.style.flat) (hplain : r.renderers = [])
    (hv : v.IsJoinable) (level level' : Int) :
    ∃ t, (r.value v level).Yields t ∧ (r.onOneLine.value v level').Yields t.unbroken := by
  refine ⟨r.textAt v level, value_yields hplain hv.renderable level, ?_⟩
  rw [unbroken_textAt hflat hplain hv level level']
  exact value_yields (r := r.onOneLine) hplain hv.renderable level'

end Rendering

/-! ## Samples -/

namespace Rendering

open scoped Sample

/-- Words, or none in their places, under a key of two lines.  Some look like the end of a line or
of a composite value. -/
def wordLists : List (Value × Value) :=
  let word (object : Identity) (t : Text) : Value :=
    .pointer .optional Sample.string (some (object, Comparison.word t))
  let list (storage : Option Identity) (words : List Value) : Value :=
    .sequence .vector (.pointer .optional Sample.string) storage words
  [(Comparison.word "\"\n",
      list (some 1) [word 2 "a,", .pointer .optional Sample.string none, word 3 "\x7d"]),
    (Comparison.word "", list none [])]

def wordsOnLines : Value :=
  .map .sorted Sample.string (Sample.vectorOf (.pointer .optional Sample.string)) 0 wordLists

/-- The joined lines are the text on one line. -/
theorem value_yields_unbroken_wordsOnLines :
    ∃ t, (Rendering.value { style := { indent := 1, tabWidth := 3 } } wordsOnLines 2).Yields t ∧
      ((onOneLine { style := { indent := 1, tabWidth := 3 } }).value wordsOnLines 0).Yields
        t.unbroken := by
  have hstrings (moves : List Move) (u : Value) (h : wordsOnLines.Reaches moves u) :
      u.IsVerbatim := by
    cases h with
    | here => trivial
    | into hholds h =>
      cases hholds with
      | mapped hentry =>
        have hentries : ∀ entry ∈ wordLists, entry.2.Everywhere Value.IsVerbatim := by decide
        exact (h.everywhere (hentries _ hentry)).self
  exact value_yields_unbroken (by decide) rfl ⟨by decide, by decide, hstrings⟩ 2 0

/-- A record with a field whose name begins with a space. -/
def spaced : Value :=
  .record "Dyn" [(" x", .scalar (.integer .int 1))]

/-- A name that begins with a space loses it where it stands on a line of its own. -/
theorem not_value_yields_unbroken :
    ¬ ∀ (r : Rendering) (v : Value) (level : Int), ¬ r.style.flat → r.renderers = [] →
      v.Everywhere Value.Renderable → (∀ moves u, v.Reaches moves u → u.IsVerbatim) →
      ∃ t, (r.value v level).Yields t ∧ (r.onOneLine.value v level).Yields t.unbroken := by
  intro h
  have hverbatim : spaced.Everywhere Value.IsVerbatim := by decide
  obtain ⟨t, ht, hline⟩ := h {} spaced 0 (by decide) rfl (by decide)
    fun moves u hreaches ↦ (hreaches.everywhere hverbatim).self
  have hvalue : (Rendering.value {} spaced 0).Yields "\x7b\n   x: 1,\n\x7d" := by decide
  obtain rfl := hvalue.unique ht
  revert hline
  decide

end Rendering

end Discrepancy
