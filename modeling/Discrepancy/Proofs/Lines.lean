import Discrepancy.Proofs.PlainText
import Discrepancy.Proofs.Unquoting

/-!
# Texts on one line

A text on one line holds no line break, and it begins with what can be told from the tabs in front
of it and from the end of a composite value.  Numbers are made of bytes that neither break nor begin
a line; a quoted text writes its line breaks by an escape.  So all that can break a line is a name,
of a field, of a channel, or of the type that a sequence or map tells, and what the formatting
library writes for a span or an instant.
-/

namespace Discrepancy

namespace Text

variable {s t : Text}

/-! ## Lines -/

/-- A text begins with neither a space nor a closing brace. -/
def Begins (t : Text) : Prop :=
  ∀ b ∈ t.head?, b ≠ byte ' ' ∧ b ≠ byte '\x7d'

instance : DecidablePred Begins :=
  fun t ↦ Option.decidableForallMem (p := fun b ↦ b ≠ byte ' ' ∧ b ≠ byte '\x7d') t.head?

/-- A text without line breaks that begins with neither a space nor a closing brace. -/
def IsLine (t : Text) : Prop :=
  byte '\n' ∉ t ∧ Begins t

instance : DecidablePred IsLine :=
  fun t ↦ inferInstanceAs (Decidable (byte '\n' ∉ t ∧ Begins t))

theorem begins_cons {b : UInt8} (hb : b ≠ byte ' ' ∧ b ≠ byte '\x7d') (t : Text) :
    Begins (b :: t) := by
  rintro c ⟨⟩
  exact hb

theorem Begins.append (hs : Begins s) (ht : Begins t) : Begins (s ++ t) := by
  cases s with
  | nil => exact ht
  | cons b s => exact hs

/-- A text that is not empty begins as it did, whatever is put behind it. -/
theorem Begins.append_of_ne_nil (hs : Begins s) (hne : s ≠ []) (t : Text) : Begins (s ++ t) := by
  rw [Begins, List.head?_append_of_ne_nil _ hne]
  exact hs

theorem IsLine.append (hs : IsLine s) (ht : IsLine t) : IsLine (s ++ t) :=
  ⟨List.not_mem_append hs.1 ht.1, hs.2.append ht.2⟩

/-- A line stays one when something without a line break is put behind it. -/
theorem IsLine.append_of_ne_nil (hs : IsLine s) (hne : s ≠ []) (ht : byte '\n' ∉ t) :
    IsLine (s ++ t) :=
  ⟨List.not_mem_append hs.1 ht, hs.2.append_of_ne_nil hne t⟩

/-! ## Numbers -/

/-- A byte that neither breaks a line nor may be missed at the beginning of one. -/
def IsInk (b : UInt8) : Prop :=
  b ≠ byte '\n' ∧ b ≠ byte ' ' ∧ b ≠ byte '\x7d'

instance : DecidablePred IsInk :=
  fun b ↦ inferInstanceAs (Decidable (b ≠ byte '\n' ∧ b ≠ byte ' ' ∧ b ≠ byte '\x7d'))

def Inked (t : Text) : Prop :=
  ∀ b ∈ t, IsInk b

instance : DecidablePred Inked :=
  fun t ↦ List.decidableBAll IsInk t

theorem Inked.append (hs : Inked s) (ht : Inked t) : Inked (s ++ t) :=
  List.forall_mem_append.mpr ⟨hs, ht⟩

theorem Inked.newline_not_mem (h : Inked t) : byte '\n' ∉ t :=
  fun hmem ↦ (h _ hmem).1 rfl

theorem Inked.isLine (h : Inked t) : IsLine t :=
  ⟨h.newline_not_mem, fun b hb ↦ (h b (List.mem_of_mem_head? hb)).2⟩

theorem IsDigit.isInk {b : UInt8} (h : IsDigit b) : IsInk b := by
  obtain ⟨d, hd, rfl⟩ := h
  interval_cases d <;> decide

theorem inked_ofNat (n : Nat) : Inked (ofNat n) :=
  fun _ hb ↦ (isDigit_of_mem_ofNat hb).isInk

theorem inked_ofHex (n : Nat) : Inked (ofHex n) :=
  fun _ hb ↦ (isDigit_of_mem_ofNatBase (by decide) (by decide) hb).isInk

theorem inked_ofInt (n : Int) : Inked (ofInt n) := by
  intro b hb
  rcases mem_ofInt hb with rfl | hdigit
  · decide
  · exact hdigit.isInk

theorem inked_zeros (n : Nat) : Inked (List.replicate n (byte '0')) := by
  intro b hb
  obtain rfl := List.eq_of_mem_replicate hb
  decide

theorem inked_ofHexPadded (width n : Nat) : Inked (ofHexPadded width n) :=
  (inked_zeros _).append (inked_ofHex n)

end Text

open Comparison (word)
open Text (byte IsLine Inked inked_ofNat inked_ofInt inked_zeros)

namespace Binary

theorem inked_positional (digits : Nat) (scale : Int) : Inked (positional digits scale) := by
  unfold positional
  split_ifs
  · exact inked_ofNat _
  · have hpadded (n : Nat) : Inked (List.replicate n (byte '0') ++ Text.ofNat digits) :=
      (inked_zeros n).append (inked_ofNat digits)
    apply Text.Inked.append
    · apply Text.Inked.append
      · exact fun b hb ↦ hpadded _ b (List.mem_of_mem_take hb)
      · decide
    · exact fun b hb ↦ hpadded _ b (List.mem_of_mem_drop hb)

theorem inked_positiveText (format : Format) (m : Nat) (e : Int) :
    Inked (positiveText format m e) := by
  unfold positiveText
  split_ifs
  · exact inked_ofNat _
  · dsimp only
    split
    · exact inked_positional _ _
    · exact List.forall_mem_nil _

/-- The numeral of a floating point number never breaks a line. -/
theorem inked_text (format : Format) (x : Binary) : Inked (x.text format) := by
  have hdigits (m : Nat) (e : Int) : Inked (if m == 0 then "0" else positiveText format m e) := by
    split_ifs
    · decide
    · exact inked_positiveText format m e
  cases x with
  | nan => exact (by decide : Inked "nan")
  | infinity negative =>
    cases negative with
    | false => exact (by decide : Inked "inf")
    | true => exact (by decide : Inked "-inf")
  | finite negative m e =>
    cases negative with
    | false => exact hdigits m e
    | true => exact Text.Inked.append (by decide) (hdigits m e)

theorem inked_complexText (format : Format) (re im : Binary) :
    Inked (complexText format re im) := by
  have him := inked_text format im
  unfold complexText
  dsimp only
  apply Text.Inked.append _ (by decide)
  apply Text.Inked.append (Text.Inked.append (by decide) (inked_text format re))
  split
  · split_ifs
    · exact him
    · exact Text.Inked.append (by decide) him
  · decide

end Binary

namespace Text

/-! ## Quoted texts -/

variable [Host]

/-- Quotation escapes line ends. -/
theorem newline_not_mem_quoteRune {rune : Rune} (h : (∀ b, rune ≠ .stray b) → rune.Encoded) :
    byte '\n' ∉ quoteRune rune := by
  have hhex {s : Text} (hs : Inked s) (width n : Nat) : byte '\n' ∉ s ++ ofHexPadded width n :=
    (hs.append (inked_ofHexPadded width n)).newline_not_mem
  cases rune with
  | stray b => exact hhex (by decide) _ _
  | point code bytes =>
    obtain ⟨hcode, rfl⟩ := h fun b ↦ Rune.noConfusion
    simp only [quoteRune]
    split_ifs with hnewline
    any_goals decide
    · unfold numberEscape
      split_ifs
      · exact hhex (by decide) _ _
      · exact hhex (by decide) _ _
      · exact hhex (by decide) _ _
    · exact not_mem_ofCode hcode (by decide) fun heq ↦ hnewline (beq_iff_eq.mpr heq)

/-- A quoted text is a line, whatever is quoted. -/
theorem isLine_quoted (t : Text) : IsLine t.quoted := by
  have hrunes : byte '\n' ∉ t.runes.flatMap quoteRune := by
    intro hmem
    obtain ⟨rune, hrune, hmem⟩ := List.mem_flatMap.mp hmem
    exact newline_not_mem_quoteRune (encoded_of_mem_runesWithin hrune) hmem
  rw [quoted, List.append_assoc]
  exact IsLine.append_of_ne_nil (by decide) (by decide) (List.not_mem_append hrunes (by decide))

end Text

/-! ## Values -/

namespace Value

/-- What a value writes down as it comes: the names of its fields, that of its channel or that of
its type, or what the formatting library writes for it. -/
def captions [Host] : Value → List Text
  | record _ fields => fields.map Prod.fst
  | scalar (.chan name _) => ["(" ++ name ++ ")"]
  | scalar (.span type period count) => (Host.spanText type period count).toOption.toList
  | scalar (.instant type period count) => (Host.instantText type period count).toOption.toList
  | sequence form element storage elements => [(sequence form element storage elements).typeName]
  | map rule key mapped storage entries => [(map rule key mapped storage entries).typeName]
  | _ => []

end Value

theorem Outcome.mem_of_ofFormatted {formatted : Except Text Text} {t : Text}
    (h : (Outcome.ofFormatted formatted).Yields t) : t ∈ formatted.toOption.toList := by
  cases formatted with
  | ok u =>
    obtain rfl := Outcome.yields_pure.mp h
    exact List.mem_singleton_self _
  | error message => exact (Outcome.not_yields_fail _ h).elim

theorem isLine_addressText (address : Nat) : IsLine (addressText address) := by
  rw [addressText, List.append_assoc]
  refine IsLine.append_of_ne_nil (by decide) (by decide) ?_
  exact List.not_mem_append (Text.inked_ofHex address).newline_not_mem (by decide)

theorem Style.isLine_targetText (style : Style) (target : Option Identity) :
    IsLine (style.targetText target) := by
  unfold Style.targetText
  split_ifs
  · exact isLine_addressText _
  · decide

namespace Style

variable [Host] {style : Style}

/-- A value is a string which the style does not write on one line. -/
def Splits (style : Style) : Value → Prop
  | .scalar (.string _ (some t) _) => byte '\n' ∈ style.stringText t
  | _ => False

instance (style : Style) : DecidablePred style.Splits
  | .scalar (.string _ (some t) _) => inferInstanceAs (Decidable (byte '\n' ∈ style.stringText t))
  | .scalar (.string _ none _) | .scalar (.bool _) | .scalar (.integer ..) | .scalar (.float ..)
  | .scalar (.complex ..) | .scalar (.func ..) | .scalar (.chan ..) | .scalar (.span ..)
  | .scalar (.instant ..) | .scalar (.sealed ..) | .absent | .hidden _ | .pointer .. | .record ..
  | .sequence .. | .map .. | .interface .. => isFalse id

/-- A string is written on one line unless it is written as it stands. -/
theorem isLine_stringText {t : Text} (h : byte '\n' ∉ style.stringText t) :
    IsLine (style.stringText t) := by
  unfold stringText at h ⊢
  split_ifs at h ⊢ with hquoted hnewline
  · exact Text.isLine_quoted t
  · exact (h (List.contains_iff_mem.mp hnewline)).elim
  · rw [List.append_assoc] at h ⊢
    exact IsLine.append_of_ne_nil (by decide) (by decide) fun hmem ↦
      h (List.mem_append_right _ hmem)

/-- Flat styles write all strings on one line. -/
theorem not_splits_of_flat (hflat : style.flat) (v : Value) : ¬ style.Splits v := by
  unfold Splits
  split
  · rename_i type t place
    rw [stringText, if_pos (by simp [hflat])]
    exact (Text.isLine_quoted t).1
  · exact id

end Style

/-- A leaf is a line if its string is, and if the name of its channel does not break it, unless the
formatting library wrote it. -/
theorem Scalar.isLine_or_mem_captions [Host] {style : Style} {s : Scalar} {t : Text}
    (hs : (Value.scalar s).Unsealed) (hsplits : ¬ style.Splits (.scalar s))
    (hcaptions : ∀ caption ∈ (Value.scalar s).captions, byte '\n' ∉ caption)
    (ht : (s.text style).Yields t) : IsLine t ∨ t ∈ (Value.scalar s).captions := by
  cases s with
  | span type period count => exact .inr (Outcome.mem_of_ofFormatted ht)
  | instant type period count => exact .inr (Outcome.mem_of_ofFormatted ht)
  | sealed name kind => exact (hs rfl).elim
  | bool b =>
    obtain rfl := Outcome.yields_pure.mp ht
    cases b <;> exact .inl (by decide)
  | integer type n =>
    obtain rfl := Outcome.yields_pure.mp ht
    exact .inl (inked_ofInt n).isLine
  | float type x =>
    obtain rfl := Outcome.yields_pure.mp ht
    exact .inl (Binary.inked_text _ x).isLine
  | complex type re im =>
    obtain rfl := Outcome.yields_pure.mp ht
    exact .inl (Binary.inked_complexText _ _ _).isLine
  | string type content place =>
    cases content with
    | none =>
      obtain rfl := Outcome.yields_pure.mp ht
      exact .inl (by decide)
    | some u =>
      obtain rfl := Outcome.yields_pure.mp ht
      exact .inl (Style.isLine_stringText hsplits)
  | func form result parameters target =>
    obtain rfl := Outcome.yields_pure.mp ht
    exact .inl ((IsLine.append (by decide) (style.isLine_targetText target)).append (by decide))
  | chan name queue =>
    obtain rfl := Outcome.yields_pure.mp ht
    have hname : byte '\n' ∉ name := by
      have hcaption := hcaptions _ (List.mem_singleton_self _)
      exact fun hmem ↦ hcaption (List.mem_append_left _ (List.mem_append_right _ hmem))
    simp only [List.append_assoc]
    refine .inl (IsLine.append_of_ne_nil (by decide) (by decide) ?_)
    simp only [List.mem_append, not_or]
    exact ⟨hname, by decide, (style.isLine_targetText queue).1, by decide⟩

namespace Rendering

variable [Host] {r : Rendering} {v : Value}

/-- In front of a part stands nothing, a name of the value, or the label of a key. -/
theorem label_cases {item : Text × Value} (h : item ∈ r.shownParts v) :
    item.1 = [] ∨ ∃ name : Text, item.1 = name ++ ": " ∧
      (name ∈ v.captions ∨ ∃ k ∈ v.parts, name = r.label k) := by
  cases v with
  | record name fields =>
    obtain ⟨field, hfield, rfl⟩ := List.mem_map.mp h
    exact .inr ⟨field.1, rfl, .inl (List.mem_map_of_mem hfield)⟩
  | sequence form element storage elements =>
    obtain ⟨u, hu, rfl⟩ := List.mem_map.mp h
    exact .inl rfl
  | map rule key mapped storage entries =>
    obtain ⟨labelled, hlabelled, rfl⟩ := List.mem_map.mp h
    obtain ⟨entry, hentry, rfl⟩ :=
      List.mem_map.mp ((Table.sortLabelled_perm _).mem_iff.mp hlabelled)
    exact .inr ⟨_, rfl, .inr ⟨entry.1, Value.key_mem_parts hentry, rfl⟩⟩
  | _ => cases h

theorem newline_not_mem_opening (h : ∀ caption ∈ v.captions, byte '\n' ∉ caption)
    (hcomposite : v.IsComposite) : byte '\n' ∉ v.opening := by
  cases v with
  | record name fields => exact (by decide : byte '\n' ∉ Text.utf8 "\x7b")
  | sequence => exact List.not_mem_append (h _ (List.mem_singleton_self _)) (by decide)
  | map => exact List.not_mem_append (h _ (List.mem_singleton_self _)) (by decide)
  | _ => cases hcomposite

theorem begins_opening (h : ∀ caption ∈ v.captions, Text.Begins caption)
    (hcomposite : v.IsComposite) : Text.Begins v.opening := by
  cases v with
  | record name fields => exact (by decide : Text.Begins "\x7b")
  | sequence => exact (h _ (List.mem_singleton_self _)).append (by decide)
  | map => exact (h _ (List.mem_singleton_self _)).append (by decide)
  | _ => cases hcomposite

omit [Host] in
theorem opening_ne_nil (v : Value) : v.opening ≠ [] := by
  unfold Value.opening
  split
  · decide
  · exact List.append_ne_nil_of_right_ne_nil _ (by decide)

omit [Host] in
theorem newline_not_mem_joinWith {separator : Text} {parts : List Text}
    (hseparator : byte '\n' ∉ separator) (h : ∀ part ∈ parts, byte '\n' ∉ part) :
    byte '\n' ∉ Text.joinWith separator parts := by
  induction parts with
  | nil => exact List.not_mem_nil
  | cons part parts ih =>
    obtain ⟨hpart, hparts⟩ := List.forall_mem_cons.mp h
    cases parts with
    | nil => exact hpart
    | cons next rest =>
      exact List.not_mem_append (List.not_mem_append hpart hseparator) (ih hparts)

/-- A leaf is written on one line, unless it is one of the texts that are taken as they come. -/
theorem Leaf.isLine_or_mem_captions {style : Style} {t : Text} (h : Leaf style v t)
    (hv : v.Unsealed) (hsplits : ¬ style.Splits v)
    (hcaptions : ∀ caption ∈ v.captions, byte '\n' ∉ caption) : IsLine t ∨ t ∈ v.captions := by
  cases h with
  | absent => exact .inl (by decide)
  | hidden type => exact .inl (by decide)
  | scalar h => exact Scalar.isLine_or_mem_captions hv hsplits hcaptions h
  | nil => exact .inl (by decide)
  | address => exact .inl (isLine_addressText _)

/-- The text of a leaf breaks no line if neither its string nor the names in it do. -/
theorem Leaf.newline_not_mem {style : Style} {t : Text} (h : Leaf style v t) (hv : v.Unsealed)
    (hsplits : ¬ style.Splits v) (hcaptions : ∀ caption ∈ v.captions, byte '\n' ∉ caption) :
    byte '\n' ∉ t :=
  (h.isLine_or_mem_captions hv hsplits hcaptions).elim And.left (hcaptions t)

/-- The text of a leaf is a line if its string and the names in it are. -/
theorem Leaf.isLine {style : Style} {t : Text} (h : Leaf style v t) (hv : v.Unsealed)
    (hsplits : ¬ style.Splits v) (hcaptions : ∀ caption ∈ v.captions, IsLine caption) : IsLine t :=
  (h.isLine_or_mem_captions hv hsplits fun caption hmem ↦ (hcaptions caption hmem).1).elim id
    (hcaptions t)

/-- A text on one line holds no line break if the names in it hold none. -/
theorem newline_not_mem_textAt (hflat : r.style.flat) (hplain : r.renderers = [])
    (hv : v.Everywhere Value.Renderable)
    (hcaptions : v.Everywhere fun u ↦ ∀ caption ∈ u.captions, byte '\n' ∉ caption) (level : Int) :
    byte '\n' ∉ r.textAt v level := by
  induction v using Value.induction_parts generalizing r level with
  | h v ih =>
    have hpart {r : Rendering} (hflat : r.style.flat) (hplain : r.renderers = []) {u : Value}
        (hu : u ∈ v.parts) (level : Int) : byte '\n' ∉ r.textAt u level :=
      ih u hu hflat hplain (hv.part hu) (hcaptions.part hu) level
    rcases leaf_or_through_or_composite hv.self r.style with ⟨t, hleaf⟩ | ⟨u, hu⟩ | hcomposite
    · rw [hleaf.textAt hplain, Style.leaf_of_flat hflat]
      exact hleaf.newline_not_mem hv.self.unsealed (Style.not_splits_of_flat hflat v)
        hcaptions.self
    · rw [hu.textAt hplain]
      exact hpart hflat hplain hu.holds.mem_parts level
    · rw [textAt_composite_of_flat hflat hplain hv hcomposite]
      apply List.not_mem_append (newline_not_mem_opening hcaptions.self hcomposite)
      refine List.not_mem_append (newline_not_mem_joinWith (by decide) ?_) (by decide)
      intro t ht
      obtain ⟨item, hitem, rfl⟩ := List.mem_map.mp ht
      apply List.not_mem_append
      · rcases label_cases hitem with hnil | ⟨name, hname, hcaption | ⟨k, hk, rfl⟩⟩
        · exact hnil ▸ List.not_mem_nil
        · exact hname ▸ List.not_mem_append (hcaptions.self _ hcaption) (by decide)
        · exact hname ▸ List.not_mem_append
            (hpart (r := r.forKeys) rfl (forKeys_plain hplain) hk 0) (by decide)
      · rcases eq_absent_or_holds hitem with habsent | ⟨move, hholds⟩
        · rw [habsent, Leaf.absent.textAt hplain, Style.leaf_of_flat hflat]
          decide
        · exact hpart hflat hplain hholds.mem_parts _

/-- A text on one line begins like a line if the names in it do. -/
theorem begins_textAt (hflat : r.style.flat) (hplain : r.renderers = [])
    (hv : v.Everywhere Value.Renderable)
    (hcaptions : v.Everywhere fun u ↦ ∀ caption ∈ u.captions, IsLine caption) (level : Int) :
    Text.Begins (r.textAt v level) := by
  induction v using Value.induction_parts with
  | h v ih =>
    rcases leaf_or_through_or_composite hv.self r.style with ⟨t, hleaf⟩ | ⟨u, hu⟩ | hcomposite
    · rw [hleaf.textAt hplain, Style.leaf_of_flat hflat]
      exact (hleaf.isLine hv.self.unsealed (Style.not_splits_of_flat hflat v) hcaptions.self).2
    · rw [hu.textAt hplain]
      exact ih u hu.holds.mem_parts (hv.part hu.holds.mem_parts) (hcaptions.part hu.holds.mem_parts)
    · rw [textAt_composite_of_flat hflat hplain hv hcomposite]
      have hopening := begins_opening (fun caption h ↦ (hcaptions.self caption h).2) hcomposite
      exact hopening.append_of_ne_nil (opening_ne_nil v) _

/-- A text on one line is a line if the names in it are. -/
theorem isLine_textAt (hflat : r.style.flat) (hplain : r.renderers = [])
    (hv : v.Everywhere Value.Renderable)
    (hcaptions : v.Everywhere fun u ↦ ∀ caption ∈ u.captions, IsLine caption) (level : Int) :
    IsLine (r.textAt v level) :=
  ⟨newline_not_mem_textAt hflat hplain hv (hcaptions.mono fun _ h caption hmem ↦ (h caption hmem).1)
    level, begins_textAt hflat hplain hv hcaptions level⟩

/-- On one line a value has one text, which is its label as a key too.  It holds no line break if
the names in it hold none, and only the choice of addresses makes a difference to it. -/
theorem exists_text_of_flat (hv : v.Everywhere Value.Renderable)
    (hcaptions : v.Everywhere fun u ↦ ∀ caption ∈ u.captions, byte '\n' ∉ caption)
    (addresses : Bool) :
    ∃ t : Text, byte '\n' ∉ t ∧
      ∀ r : Rendering, r.renderers = [] → r.style.addresses = addresses →
        (r.style.flat → ∀ level, (r.value v level).Yields t) ∧ (r.keyLabel v).Yields t := by
  let line : Rendering := { style := { flat := true, addresses } }
  have hline : (line.value v 0).Yields (line.textAt v 0) := value_yields rfl hv 0
  refine ⟨line.textAt v 0, newline_not_mem_textAt rfl rfl hv hcaptions 0, ?_⟩
  intro r hplain haddresses
  constructor
  · intro hflat level
    have htext : r.value v level = line.value v 0 :=
      text_of_flat hplain rfl hflat rfl haddresses true v level 0
    exact htext ▸ hline
  · have hlabel : r.keyLabel v = line.value v 0 := by
      apply text_of_flat (forKeys_plain hplain) rfl rfl rfl
      exact haddresses
    exact hlabel ▸ hline

end Rendering

/-! ## Samples -/

namespace Rendering

open scoped Sample

def listedLines : Value :=
  .map .sorted (Sample.vectorOf Sample.string) Sample.string 0
    [(.sequence .vector Sample.string (some 1) [word "a\nb", word "\n"], word "\r\n")]

/-- The lists read alike in all flat layouts and in labels. -/
theorem exists_text_of_flat_listedLines :
    ∃ t : Text, byte '\n' ∉ t ∧
      ∀ r : Rendering, r.renderers = [] → r.style.addresses = true →
        (r.style.flat → ∀ level, (r.value listedLines level).Yields t) ∧
          (r.keyLabel listedLines).Yields t :=
  exists_text_of_flat (by decide) (by decide) true

end Rendering

end Discrepancy
