import Discrepancy.Proofs.KeyLabels
import Discrepancy.Proofs.KeyOrder
import Discrepancy.Proofs.Lines
import Discrepancy.Proofs.Omission
import Discrepancy.Proofs.Truth

/-!
# Texts of different scalars

A notice of two scalars shows a text for each of them.  Truth values and numbers that differ have
different texts, since numerals can be read back, those of bytes included.  A string takes one of
three forms: with escapes between quotation marks, as it stands between quotation marks, or as it
stands.  Each form tells the string, and the last one alone breaks the line.  Nothing tells the
first form from the second one, however.  Where the length decides between them, a string that is
quoted with escapes is mistaken for a longer one that spells these escapes out, and this is the only
case in which two different scalars have one text.
-/

namespace Discrepancy

open Outcome
open Text (byte)

/-! ## Forms of strings -/

namespace Style

variable [Host] {style : Style} {s t : Text}

/-- Whether a style quotes a string with escapes. -/
def quotes (style : Style) (t : Text) : Bool :=
  style.quoteAll || style.flat || (0 < style.quoteUpTo && t.length ≤ style.quoteUpTo)

/-- A text is short enough to be quoted with escapes, and what stands between the marks then is
another text, which is too long for it. -/
structure Mistakes (style : Style) (s t : Text) : Prop where
  broken : ¬ style.flat ∧ ¬ style.quoteAll
  lengths : s.length ≤ style.quoteUpTo ∧ style.quoteUpTo < t.length
  same : s.quoted = "\"" ++ t ++ "\""

theorem stringText_of_quotes (h : style.quotes t) : style.stringText t = t.quoted :=
  if_pos h

theorem stringText_of_not_quotes (h : ¬ style.quotes t) :
    style.stringText t = if byte '\n' ∈ t then t else "\"" ++ t ++ "\"" := by
  have hform : style.stringText t = if style.quotes t then t.quoted
      else if t.contains (byte '\n') then t else "\"" ++ t ++ "\"" := rfl
  rw [hform, if_neg h]
  simp only [List.contains_iff_mem]

/-- Only where one text is quoted with escapes and the other one is not can they be mistaken. -/
theorem mistakes_iff :
    style.Mistakes s t ↔
      style.quotes s ∧ ¬ style.quotes t ∧ s.quoted = "\"" ++ t ++ "\"" := by
  constructor
  · rintro ⟨⟨hflat, hall⟩, ⟨hshort, hlong⟩, hsame⟩
    have hpositive : 0 < style.quoteUpTo := by
      -- Only the empty text has no length, and there is nothing between its marks.
      by_contra hzero
      obtain rfl : s = [] := List.length_eq_zero_iff.mp (by omega)
      have hlength := congrArg List.length hsame
      simp only [List.length_append] at hlength
      change 2 = 1 + t.length + 1 at hlength
      omega
    refine ⟨?_, ?_, hsame⟩
    · simp [quotes, hpositive, hshort]
    · simpa [quotes, hflat, hall] using fun _ ↦ hlong
  · rintro ⟨hs, ht, hsame⟩
    simp only [quotes, Bool.or_eq_true, Bool.and_eq_true, decide_eq_true_eq, not_or, not_and,
      not_le] at hs ht
    obtain ⟨⟨hall, hflat⟩, hlong⟩ := ht
    rcases hs with (hs | hs) | ⟨hpositive, hshort⟩
    · exact (hall hs).elim
    · exact (hflat hs).elim
    · exact ⟨⟨hflat, hall⟩, ⟨hshort, hlong hpositive⟩, hsame⟩

/-- A text that is quoted with escapes is on one line, as a text between marks may be. -/
theorem quoted_eq_stringText_iff (ht : ¬ style.quotes t) :
    s.quoted = style.stringText t ↔ s.quoted = "\"" ++ t ++ "\"" := by
  have hline : byte '\n' ∉ s.quoted := (Text.isLine_quoted s).1
  rw [stringText_of_not_quotes ht]
  split_ifs with hnewline
  · constructor
    · exact fun heq ↦ (hline (heq ▸ hnewline)).elim
    · intro heq
      rw [heq] at hline
      exact (hline (List.mem_append_left _ (List.mem_append_right _ hnewline))).elim
  · rfl

/-- Strings which are not quoted with escapes are told apart by their texts. -/
theorem eq_of_stringText_eq (hs : ¬ style.quotes s) (ht : ¬ style.quotes t)
    (h : style.stringText s = style.stringText t) : s = t := by
  have hmarks {u : Text} (hu : byte '\n' ∉ u) : byte '\n' ∉ "\"" ++ u ++ "\"" :=
    List.not_mem_append (List.not_mem_append (by decide) hu) (by decide)
  rw [stringText_of_not_quotes hs, stringText_of_not_quotes ht] at h
  split_ifs at h with hs ht ht
  · exact h
  · exact (hmarks ht (h ▸ hs)).elim
  · exact (hmarks hs (h.symm ▸ ht)).elim
  · exact List.append_cancel_left (List.append_cancel_right h)

/-- Well-formed strings have one text only if they are one, or if one is mistaken for the other. -/
theorem stringText_eq_iff (hs : s.isWellFormed) (ht : t.isWellFormed) :
    style.stringText s = style.stringText t ↔
      s = t ∨ style.Mistakes s t ∨ style.Mistakes t s := by
  by_cases hquotes : style.quotes s
  · by_cases hquotes' : style.quotes t
    · have hnot : ¬ (style.Mistakes s t ∨ style.Mistakes t s) := by
        simp [mistakes_iff, hquotes, hquotes']
      rw [or_iff_left hnot, stringText_of_quotes hquotes, stringText_of_quotes hquotes']
      constructor
      · exact fun heq ↦ (Text.quoted_append_inj hs ht (congrArg (· ++ []) heq)).1
      · exact congrArg Text.quoted
    · have hne : s ≠ t := fun heq ↦ hquotes' (heq ▸ hquotes)
      rw [stringText_of_quotes hquotes, quoted_eq_stringText_iff hquotes', or_iff_right hne]
      simp [mistakes_iff, hquotes, hquotes']
  · by_cases hquotes' : style.quotes t
    · have hne : s ≠ t := fun heq ↦ hquotes (heq ▸ hquotes')
      rw [stringText_of_quotes hquotes', eq_comm, quoted_eq_stringText_iff hquotes,
        or_iff_right hne]
      simp [mistakes_iff, hquotes, hquotes']
    · have hnot : ¬ (style.Mistakes s t ∨ style.Mistakes t s) := by
        simp [mistakes_iff, hquotes, hquotes']
      rw [or_iff_left hnot]
      exact ⟨eq_of_stringText_eq hquotes hquotes', congrArg _⟩

/-- No string has the text of a nil one. -/
theorem stringText_ne_absentText (style : Style) (t : Text) :
    style.stringText t ≠ Rendering.absentText := by
  have hmark (u : Text) : ("\"" : Text) ++ u ≠ Rendering.absentText := fun heq ↦
    absurd (List.cons.inj heq).1 (by decide)
  by_cases hquotes : style.quotes t
  · rw [stringText_of_quotes hquotes, Text.quoted, List.append_assoc]
    exact hmark _
  · rw [stringText_of_not_quotes hquotes]
    split_ifs with hnewline
    · exact fun heq ↦ absurd (heq ▸ hnewline) (by decide)
    · rw [List.append_assoc]
      exact hmark _

end Style

/-! ## Numbers of bytes -/

/-- Different bytes have different texts in notices. -/
theorem byteText_injective {b c : UInt8} (h : byteText b = byteText c) : b = c := by
  have hdigits (b : UInt8) : (byteText b).take 4 = "0x" ++ Text.ofHexPadded 2 b.toNat := by
    have hlength : (("0x" : Text) ++ Text.ofHexPadded 2 b.toNat).length = 4 := by
      rw [List.length_append, Text.ofHexPadded_length (by decide) b.toNat_lt]
      rfl
    unfold byteText
    dsimp only
    split_ifs
    · rw [List.append_assoc, List.append_assoc, ← hlength, List.take_left]
    · rw [← hlength, List.take_length]
  have hnumbers : Text.ofHexPadded 2 b.toNat = Text.ofHexPadded 2 c.toNat :=
    List.append_cancel_left ((hdigits b).symm.trans ((congrArg (·.take 4) h).trans (hdigits c)))
  have hread := congrArg (Text.readDigits 16 0) hnumbers
  rw [Text.readDigits_ofHexPadded, Text.readDigits_ofHexPadded] at hread
  exact UInt8.toNat_inj.mp hread

/-! ## Scalars -/

namespace Scalar

theorem byte_inj {m n : Int} (hm : IntegerTy.unsignedChar.wrap m = m)
    (hn : IntegerTy.unsignedChar.wrap n = n) (h : m.toNat.toUInt8 = n.toNat.toUInt8) : m = n := by
  have hrange {k : Int} (hk : IntegerTy.unsignedChar.wrap k = k) : 0 ≤ k ∧ k < 256 := by
    have hmod : k.emod 256 = k := hk
    exact ⟨hmod ▸ Int.emod_nonneg k (by decide), hmod ▸ Int.emod_lt_of_pos k (by decide)⟩
  have hnat := congrArg UInt8.toNat h
  simp only [Nat.toUInt8_eq, UInt8.toNat_ofNat'] at hnat
  have := hrange hm
  have := hrange hn
  omega

theorem equal_bool_iff {a b : Bool} : (bool a).Equal (bool b) ↔ a = b := by
  refine ⟨?_, fun h ↦ h ▸ .bool a⟩
  rintro ⟨⟩
  rfl

theorem equal_integer_iff {type type' : IntegerTy} {m n : Int} :
    (integer type m).Equal (integer type' n) ↔ m = n := by
  refine ⟨?_, fun h ↦ h ▸ .integer m⟩
  rintro ⟨⟩
  rfl

theorem equal_string_iff {type type' : StringTy} {content content' : Option Text}
    {place place' : Identity} :
    (string type content place).Equal (string type' content' place') ↔ content = content' := by
  refine ⟨?_, fun h ↦ h ▸ .string content⟩
  rintro ⟨⟩
  rfl

variable [Host]

/-- A truth value, a number of its type, or a string, which is nil or well formed. -/
inductive IsProper : Scalar → Prop
  | bool (b : Bool) : IsProper (.bool b)
  | integer {type : IntegerTy} {n : Int} (h : type.wrap n = n) : IsProper (.integer type n)
  | nil (type : StringTy) (place : Identity) : IsProper (.string type none place)
  | string {type : StringTy} {t : Text} {place : Identity} (h : t.isWellFormed) :
      IsProper (.string type (some t) place)

/-- The text of a scalar in a notice, where nothing but bytes has a renderer. -/
def noticeText (style : Style) : Scalar → Text
  | bool b => if b then "true" else "false"
  | integer .unsignedChar n => byteText n.toNat.toUInt8
  | integer _ n => Text.ofInt n
  | string _ none _ => Rendering.absentText
  | string _ (some t) _ => style.stringText t
  | _ => []

/-- One of two strings is mistaken for the other one. -/
def Confused (style : Style) : Scalar → Scalar → Prop
  | string _ (some s) _, string _ (some t) _ => style.Mistakes s t ∨ style.Mistakes t s
  | _, _ => False

variable {style : Style} {s t : Scalar}

/-- Proper scalars can be made and told. -/
theorem IsProper.genuine (h : s.IsProper) :
    (Value.scalar s).Everywhere (Value.Genuine fun _ ↦ []) := by
  have hmade : (Value.scalar s).Made fun _ ↦ [] := by
    cases h <;> exact ⟨Bool.false_ne_true, trivial, trivial, trivial⟩
  have hformatted : (Value.scalar s).Formatted := by
    cases h <;> trivial
  exact .ofParts ⟨hmade, hformatted⟩ (List.forall_mem_nil _)

/-- Numbers of one type have different texts. -/
theorem noticeText_integer_inj {type : IntegerTy} {m n : Int} (hm : type.wrap m = m)
    (hn : type.wrap n = n)
    (h : noticeText style (.integer type m) = noticeText style (.integer type n)) : m = n := by
  cases type with
  | unsignedChar => exact byte_inj hm hn (byteText_injective h)
  | _ => exact Text.ofInt_injective h

/-- Two scalars of one type have one text only if they are equal or confused. -/
theorem noticeText_eq_iff (hs : s.IsProper) (ht : t.IsProper)
    (hidentity : s.ty.identity = t.ty.identity) :
    noticeText style s = noticeText style t ↔ s.Equal t ∨ Confused style s t := by
  cases hs with
  | bool a =>
    cases ht with
    | bool b =>
      rw [equal_bool_iff]
      cases a <;> cases b <;> simp [noticeText, Confused] <;> decide
    | _ => simp [ty, Ty.identity] at hidentity
  | @integer type m hm =>
    cases ht with
    | @integer type' n hn =>
      obtain rfl : type = type' := by
        simpa [ty, Ty.identity] using hidentity
      have hnot : ¬ Confused style (.integer type m) (.integer type n) := id
      rw [or_iff_left hnot, equal_integer_iff]
      exact ⟨noticeText_integer_inj hm hn, fun heq ↦ heq ▸ rfl⟩
    | _ => simp [ty, Ty.identity] at hidentity
  | nil type place =>
    cases ht with
    | nil type' place' => simp [noticeText, equal_string_iff]
    | @string type' u _ hu =>
      have hne : Rendering.absentText ≠ style.stringText u :=
        (Style.stringText_ne_absentText style u).symm
      simp [noticeText, equal_string_iff, Confused, hne]
    | _ => simp [ty, Ty.identity] at hidentity
  | @string type u _ hu =>
    cases ht with
    | nil type' place' =>
      have hne : style.stringText u ≠ Rendering.absentText :=
        Style.stringText_ne_absentText style u
      simp [noticeText, equal_string_iff, Confused, hne]
    | @string type' u' _ hu' =>
      rw [equal_string_iff, Option.some_inj]
      exact Style.stringText_eq_iff hu hu'
    | _ => simp [ty, Ty.identity] at hidentity

end Scalar

namespace Rendering

open Comparison (noticeRendering noticeRendering_of_plain)

variable [Host] {r : Rendering} {s : Scalar}

/-- Where no renderers are registered, the text of a scalar in a notice is the one it has there. -/
theorem any_noticeRendering_yields (hplain : r.renderers = []) (hs : s.IsProper) :
    ((noticeRendering r).any (.scalar s)).Yields (r.style.leaf 0 (s.noticeText r.style)) := by
  have hother (hne : s.ty.identity ≠ byteTy.identity) :
      (noticeRendering r).any (.scalar s) = (do pure (r.style.leaf 0 (← s.text r.style))) := by
    have hbyte : (Value.scalar s).identity? ≠ some byteTy.identity :=
      fun heq ↦ hne (Option.some.inj heq)
    have hnone : (noticeRendering r).renderer? (.scalar s) = none := by
      rw [renderer?_noticeRendering hbyte, renderer?_of_plain hplain]
    rw [any, value, text, custom_of_none hnone, style_noticeRendering]
  cases hs with
  | bool b =>
    rw [hother (by simp [Scalar.ty, byteTy, Ty.identity])]
    exact yields_pure.mpr rfl
  | @integer type n =>
    by_cases hbyte : type = .unsignedChar
    · subst hbyte
      rw [noticeRendering_of_plain hplain]
      exact rfl
    · have htext : Scalar.noticeText r.style (.integer type n) = Text.ofInt n := by
        cases type <;> first | rfl | exact (hbyte rfl).elim
      rw [hother (by simpa [Scalar.ty, byteTy, Ty.identity] using hbyte), htext]
      exact yields_pure.mpr rfl
  | nil type place =>
    rw [hother (by simp [Scalar.ty, byteTy, Ty.identity])]
    exact yields_pure.mpr rfl
  | string =>
    rw [hother (by simp [Scalar.ty, byteTy, Ty.identity])]
    exact yields_pure.mpr rfl

end Rendering

/-! ## Notices -/

namespace Comparison

variable [Host] {ops : Options} {s t : Scalar} {notices : List Notice} {notice : Notice}

variable [LawfulHost]

/-- Two scalars of one type give no notice but that they are not equal. -/
theorem mismatch_yields_of_mem (hops : ops.Unchecked)
    (hidentity : (Value.scalar s).identity? = (Value.scalar t).identity?)
    (h : (compare (.scalar s) (.scalar t) ops).Yields notices) (hmem : notice ∈ notices) :
    ¬ s.Equal t ∧ (mismatch (.scalar s) (.scalar t) ops.toContext).Yields notice := by
  cases (compare_yields_iff hops).mp h with
  | skipped => cases hmem
  | absent => cases hmem
  | unlike _ hunlike =>
    cases hunlike with
    | absent h => exact (h rfl).elim
    | types _ _ h => exact (h hidentity).elim
  | hidden _ _ hhidden => exact (hhidden ⟨rfl, rfl⟩).elim
  | inspected _ hverdict hnotices =>
    cases look_of_inspect hidentity trivial hverdict with
    | scalars =>
      by_cases hequal : s.Equal t
      · rw [decide_eq_true hequal] at hnotices
        rw [leaf_yields_true.mp hnotices] at hmem
        cases hmem
      · rw [decide_eq_false hequal] at hnotices
        obtain ⟨notice', hnotice', rfl⟩ := leaf_yields_false.mp hnotices
        exact ⟨hequal, List.mem_singleton.mp hmem ▸ hnotice'⟩
    | lengths hwant => cases hwant
    | shared _ hshared => exact hshared.elim
    | branches hparallel => exact hparallel.elim

/-- A notice of two scalars of one type shows two different texts, unless one of them is a string
which is mistaken for the other one. -/
theorem rows_eq_iff_confused (hops : ops.Unchecked) (hplain : ops.rendering.renderers = [])
    (hs : s.IsProper) (ht : t.IsProper)
    (hidentity : (Value.scalar s).identity? = (Value.scalar t).identity?) :
    ∃ notices, (compare (.scalar s) (.scalar t) ops).Yields notices ∧
      ∀ notice ∈ notices, ∃ wantText foundText, notice.row? "want" = some wantText ∧
        notice.row? "have" = some foundText ∧
          (wantText = foundText ↔ s.Confused ops.rendering.style t) := by
  have hr : ops.rendering.Faultless := Rendering.faultless_of_plain hplain
  obtain ⟨notices, hnotices⟩ := compare_returns hops hr hs.genuine ht.genuine
  refine ⟨notices, hnotices, fun notice hmem ↦ ?_⟩
  obtain ⟨hunequal, hmismatch⟩ := mismatch_yields_of_mem hops hidentity hnotices hmem
  have hshows := mismatch_shows hmismatch
  obtain ⟨wantText, hwant, hwantRow⟩ := hshows.want
  obtain ⟨foundText, hfound, hfoundRow⟩ := hshows.found
  obtain rfl := hwant.unique (Rendering.any_noticeRendering_yields hplain hs)
  obtain rfl := hfound.unique (Rendering.any_noticeRendering_yields hplain ht)
  refine ⟨_, _, hwantRow, hfoundRow, ?_⟩
  calc
    _ ↔ s.noticeText ops.rendering.style = t.noticeText ops.rendering.style :=
      ⟨List.append_cancel_left, congrArg _⟩
    _ ↔ s.Confused ops.rendering.style t := by
      rw [Scalar.noticeText_eq_iff hs ht (Option.some.inj hidentity)]
      exact or_iff_right hunequal

end Comparison

/-! ## Samples -/

namespace Comparison

open scoped Sample

def quotingSingles : Options :=
  { rendering := { style := { quoteUpTo := 1 } } }

/-- A tab and the escape of a line break are not mistaken for each other. -/
theorem rows_eq_iff_confused_breaks :
    ∃ notices, (compare (word "\t") (word "\\n") quotingSingles).Yields notices ∧
      ∀ notice ∈ notices, ∃ wantText foundText, notice.row? "want" = some wantText ∧
        notice.row? "have" = some foundText ∧
          (wantText = foundText ↔ Scalar.Confused { quoteUpTo := 1 }
            (.string .owned (some "\t")) (.string .owned (some "\\n"))) :=
  rows_eq_iff_confused ⟨rfl, rfl⟩ rfl (.string (by decide)) (.string (by decide)) rfl

/-- A tab which is quoted with its escape looks like a backslash in front of a letter. -/
theorem not_rows_ne :
    ¬ ∀ (ops : Options) (s t : Scalar) (notices : List Notice), ops.Unchecked →
      ops.rendering.renderers = [] → s.IsProper → t.IsProper →
      (Value.scalar s).identity? = (Value.scalar t).identity? →
      (compare (.scalar s) (.scalar t) ops).Yields notices →
      ∀ notice ∈ notices, notice.row? "want" ≠ notice.row? "have" := by
  intro h
  have hnotices : (compare (word "\t") (word "\\t") quotingSingles).Yields
      [differ "" "\"\\t\"" "\"\\t\""] := by decide
  exact h quotingSingles (.string .owned (some "\t")) (.string .owned (some "\\t")) _ ⟨rfl, rfl⟩ rfl
    (.string (by decide)) (.string (by decide)) rfl hnotices _ (List.mem_singleton_self _) rfl

end Comparison

end Discrepancy
