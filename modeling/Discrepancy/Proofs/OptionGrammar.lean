import Mathlib.Data.List.TakeDrop
import Mathlib.Data.Nat.Digits.Defs
import Mathlib.Tactic.IntervalCases
import Mathlib.Tactic.Ring
import Discrepancy.Compare.OptionList
import Discrepancy.Proofs.Pieces

/-!
# The grammar of option lists

An option list consists of pieces between commas.  A piece is an entry if it is one of three words,
or one of three other words with an equals sign and a count behind it; what an entry does to options
is said by its word and its count.  Reading a list makes one setting of each entry, with that effect
and in that order, reports every other piece once, and does nothing else.  A piece knows nothing of
the others, so that two lists with a comma between them are read one after the other.
-/

namespace Discrepancy

namespace Text

variable {s t : Text} {n : Nat} {z : Int}

/-! ## Letters -/

/-- Two bytes are equal or are one letter in both cases. -/
def SameLetter (b c : UInt8) : Prop :=
  b = c ∨ ∃ i < 26, (b.toNat = 65 + i ∧ c.toNat = 97 + i) ∨ (b.toNat = 97 + i ∧ c.toNat = 65 + i)

theorem toNat_lower (b : UInt8) :
    (lower b).toNat = if 65 ≤ b.toNat ∧ b.toNat ≤ 90 then b.toNat + 32 else b.toNat := by
  unfold lower
  simp only [Bool.and_eq_true, decide_eq_true_eq, UInt8.le_iff_toNat_le]
  change (if 65 ≤ b.toNat ∧ b.toNat ≤ 90 then b + 32 else b).toNat = _
  split_ifs with h
  · rw [UInt8.toNat_add]
    change (b.toNat + 32) % 256 = _
    omega
  · rfl

theorem lower_eq_iff {b c : UInt8} : lower b = lower c ↔ SameLetter b c := by
  rw [← UInt8.toNat_inj, toNat_lower, toNat_lower, SameLetter, ← UInt8.toNat_inj]
  constructor
  · intro h
    split_ifs at h with hb hc hc
    · exact .inl (by omega)
    · exact .inr ⟨b.toNat - 65, by omega, .inl (by omega)⟩
    · exact .inr ⟨c.toNat - 65, by omega, .inr (by omega)⟩
    · exact .inl h
  · rintro (h | ⟨i, hi, h | h⟩)
    · rw [h]
    · split_ifs <;> omega
    · split_ifs <;> omega

/-- Equality up to case is equality letter by letter. -/
theorem equalIgnoringCase_iff : s.equalIgnoringCase t ↔ List.Forall₂ SameLetter s t := by
  rw [equalIgnoringCase, beq_iff_eq, ← List.forall₂_eq_eq_eq, List.forall₂_map_left_iff,
    List.forall₂_map_right_iff]
  simp only [lower_eq_iff]

/-! ## Counts -/

/-- The text of some decimal digits, most significant first. -/
def ofDigits (digits : List Nat) : Text :=
  digits.map fun d ↦ byte (Nat.digitChar d)

/-- Decimal digits, at least one, which write a number. -/
def Writes (t : Text) (n : Nat) : Prop :=
  ∃ digits, digits ≠ [] ∧ (∀ d ∈ digits, d < 10) ∧ t = ofDigits digits ∧
    n = Nat.ofDigits 10 digits.reverse

/-- A numeral that writes an integer: digits, perhaps behind a minus sign. -/
inductive Numeral : Text → Int → Prop
  | plain {t : Text} {n : Nat} (h : Writes t n) : Numeral t n
  | minus {t : Text} {n : Nat} (h : Writes t n) : Numeral (byte '-' :: t) (-n)

theorem digit?_eq_some_iff {b : UInt8} {d : Nat} :
    digit? b = some d ↔ d < 10 ∧ b = byte (Nat.digitChar d) := by
  constructor
  · intro h
    unfold digit? at h
    split_ifs at h with hb
    simp only [Bool.and_eq_true, decide_eq_true_eq, UInt8.le_iff_toNat_le] at hb
    have hlow : 48 ≤ b.toNat := hb.1
    have hhigh : b.toNat ≤ 57 := hb.2
    have hd : d = b.toNat - 48 := (Option.some.inj h).symm
    refine ⟨by omega, UInt8.toNat_inj.mp ?_⟩
    generalize b.toNat = m at hlow hhigh hd
    subst hd
    interval_cases m <;> rfl
  · rintro ⟨hd, rfl⟩
    interval_cases d <;> rfl

/-- Digits behind a number, as far as they have been read. -/
theorem foldl_digit?_eq_some_iff {m : Nat} :
    t.foldl (fun acc b ↦ acc.bind fun n ↦ (digit? b).map fun d ↦ 10 * n + d) (some m) = some n ↔
      ∃ digits, (∀ d ∈ digits, d < 10) ∧ t = ofDigits digits ∧
        n = m * 10 ^ digits.length + Nat.ofDigits 10 digits.reverse := by
  have hnone (t : Text) :
      t.foldl (fun acc b ↦ acc.bind fun n ↦ (digit? b).map fun d ↦ 10 * n + d) none = none := by
    induction t with
    | nil => rfl
    | cons b rest ih => exact ih
  induction t generalizing m with
  | nil =>
    constructor
    · intro h
      exact ⟨[], List.forall_mem_nil _, rfl, by simpa [eq_comm] using h⟩
    · rintro ⟨digits, -, ht, rfl⟩
      obtain rfl : digits = [] := List.map_eq_nil_iff.mp ht.symm
      simp
  | cons b rest ih =>
    have hvalue (d : Nat) (digits : List Nat) :
        (10 * m + d) * 10 ^ digits.length + Nat.ofDigits 10 digits.reverse =
          m * 10 ^ (d :: digits).length + Nat.ofDigits 10 (d :: digits).reverse := by
      rw [List.reverse_cons, Nat.ofDigits_append, Nat.ofDigits_singleton, List.length_reverse,
        List.length_cons]
      ring
    rw [List.foldl_cons, Option.bind_some]
    constructor
    · intro h
      cases hb : digit? b with
      | none =>
        rw [hb, Option.map_none, hnone] at h
        cases h
      | some d =>
        rw [hb, Option.map_some] at h
        obtain ⟨digits, hdigits, rfl, rfl⟩ := ih.mp h
        obtain ⟨hd, rfl⟩ := digit?_eq_some_iff.mp hb
        exact ⟨d :: digits, List.forall_mem_cons.mpr ⟨hd, hdigits⟩, rfl, hvalue d digits⟩
    · rintro ⟨digits, hdigits, ht, rfl⟩
      cases digits with
      | nil => cases ht
      | cons d digits =>
        obtain ⟨rfl, rfl⟩ := List.cons.inj ht
        obtain ⟨hd, hdigits⟩ := List.forall_mem_cons.mp hdigits
        rw [digit?_eq_some_iff.mpr ⟨hd, rfl⟩, Option.map_some]
        exact ih.mpr ⟨digits, hdigits, rfl, hvalue d digits ▸ rfl⟩

/-- A count is read from a text if and only if its digits write it. -/
theorem nat?_eq_some_iff : nat? t = some n ↔ Writes t n := by
  unfold nat?
  split_ifs with h
  · refine iff_of_false nofun ?_
    rintro ⟨digits, hne, -, rfl, -⟩
    exact hne (List.map_eq_nil_iff.mp (List.isEmpty_iff.mp h))
  · rw [foldl_digit?_eq_some_iff]
    constructor
    · rintro ⟨digits, hdigits, rfl, rfl⟩
      refine ⟨digits, ?_, hdigits, rfl, by simp⟩
      rintro rfl
      exact h rfl
    · rintro ⟨digits, -, hdigits, rfl, rfl⟩
      exact ⟨digits, hdigits, rfl, by simp⟩

theorem Writes.head?_ne (h : Writes t n) : t.head? ≠ some (byte '-') := by
  obtain ⟨digits, hne, hdigits, rfl, -⟩ := h
  cases digits with
  | nil => exact (hne rfl).elim
  | cons d digits =>
    have hd := (List.forall_mem_cons.mp hdigits).1
    intro hhead
    have hminus : byte (Nat.digitChar d) = byte '-' := Option.some.inj hhead
    interval_cases d <;> exact absurd hminus (by decide)

/-- An integer is read from a text if and only if its digits write it. -/
theorem int?_eq_some_iff : int? t = some z ↔ Numeral t z := by
  have hnat (rest : Text) (f : Int → Int) :
      (do let n ← nat? rest; pure (n : Int)).map f = some z ↔
        ∃ n : Nat, Writes rest n ∧ f n = z := by
    simp only [← nat?_eq_some_iff]
    cases nat? rest <;> simp
  cases t with
  | nil =>
    refine iff_of_false nofun fun h ↦ ?_
    cases h with
    | plain h => cases nat?_eq_some_iff.mpr h
  | cons b rest =>
    rw [int?]
    split_ifs with hb
    · obtain rfl := beq_iff_eq.mp hb
      rw [hnat]
      constructor
      · rintro ⟨n, hn, rfl⟩
        exact .minus hn
      · intro h
        cases h with
        | plain h => exact (h.head?_ne rfl).elim
        | minus h => exact ⟨_, h, rfl⟩
    · rw [hnat]
      constructor
      · rintro ⟨n, hn, rfl⟩
        exact .plain hn
      · intro h
        cases h with
        | plain h => exact ⟨_, h, rfl⟩
        | minus h => exact (hb (beq_self_eq_true _)).elim

end Text

namespace OptionList

open Text (byte)

/-! ## Entries -/

/-- The words which are entries, and what they do. -/
def words : List (Text × (Options → Options)) :=
  [("skip_unexported", fun ops ↦ { ops with skipHidden := true }),
    ("flat", fun ops ↦ { ops with rendering.style.flat := true }),
    ("show_addresses", fun ops ↦ { ops with rendering.style.addresses := true })]

/-- The words which take a count, and what they do with it. -/
def counts : List (Text × (Nat → Options → Options)) :=
  [("indent", fun n ops ↦ { ops with rendering.style.indent := n }),
    ("flatten_strings", fun n ops ↦ { ops with rendering.style.quoteUpTo := n }),
    ("tab_width", fun n ops ↦ { ops with rendering.style.tabWidth := n })]

/-- A piece of an option list is an entry with some effect. -/
inductive Entry : Text → (Options → Options) → Prop
  | word {piece word : Text} {effect : Options → Options} (hbare : byte '=' ∉ piece)
      (hmem : (word, effect) ∈ words) (hword : List.Forall₂ Text.SameLetter piece word) :
      Entry piece effect
  | count {left right name argument word : Text} {effect : Nat → Options → Options} {n : Nat}
      (hfirst : byte '=' ∉ left) (hname : Text.Trimmed left name)
      (hargument : Text.Trimmed right argument) (hmem : (word, effect) ∈ counts)
      (hword : List.Forall₂ Text.SameLetter name word) (hcount : Text.Numeral argument n)
      (hlimit : n < 2 ^ 31) : Entry (left ++ byte '=' :: right) (effect n)

/-- A setting has an effect on all options, and none besides. -/
def Works (setting : Setting) (effect : Options → Options) : Prop :=
  ∀ ops, setting.apply ops = pure (effect ops)

variable {piece left right name : Text} {setting : Setting} {effect : Options → Options} {n : Nat}

theorem split_of_not_mem (h : byte '=' ∉ piece) : split piece = (Text.trim piece, none) := by
  have hall : ∀ b ∈ piece, (b != byte '=') = true := fun b hb ↦ by
    simpa using fun heq : b = byte '=' ↦ h (heq ▸ hb)
  rw [split, List.span_eq_takeWhile_dropWhile, List.takeWhile_eq_self_iff.mpr hall,
    List.dropWhile_eq_nil_iff.mpr hall]

theorem split_append (h : byte '=' ∉ left) (right : Text) :
    split (left ++ byte '=' :: right) = (Text.trim left, some (Text.trim right)) := by
  have hall : ∀ b ∈ left, (b != byte '=') = true := fun b hb ↦ by
    simpa using fun heq : b = byte '=' ↦ h (heq ▸ hb)
  rw [split, List.span_eq_takeWhile_dropWhile, List.takeWhile_append_of_pos hall,
    List.dropWhile_append_of_pos hall]
  simp

/-- Counts are read up to the limit and no further. -/
theorem count?_eq_some_iff {t : Text} : count? t = some n ↔ Text.Numeral t n ∧ n < 2 ^ 31 := by
  unfold count? countLimit
  rw [← Text.int?_eq_some_iff]
  cases Text.int? t with
  | none => simp
  | some z =>
    dsimp only
    simp only [Bool.and_eq_true, decide_eq_true_eq]
    split_ifs with h
    · simp only [Option.some.injEq]
      omega
    · simp only [Option.some.injEq, false_iff]
      omega

theorem equalIgnoringCase_congr {word : Text} (h : List.Forall₂ Text.SameLetter name word)
    (other : Text) : name.equalIgnoringCase other = word.equalIgnoringCase other := by
  have hlower : name.map Text.lower = word.map Text.lower :=
    beq_iff_eq.mp (Text.equalIgnoringCase_iff.mpr h)
  rw [Text.equalIgnoringCase, Text.equalIgnoringCase, hlower]

/-- Words which are equal but for case are the same entry. -/
theorem wordSetting?_congr {word : Text} (h : List.Forall₂ Text.SameLetter name word) :
    wordSetting? name = wordSetting? word := by
  simp only [wordSetting?, equalIgnoringCase_congr h]

theorem countSetting?_congr {word : Text} (h : List.Forall₂ Text.SameLetter name word) (n : Nat) :
    countSetting? name n = countSetting? word n := by
  simp only [countSetting?, equalIgnoringCase_congr h]

/-- Every word that is listed has its effect. -/
theorem exists_wordSetting? {word : Text} (hmem : (word, effect) ∈ words) :
    ∃ setting, wordSetting? word = some setting ∧ Works setting effect := by
  simp only [words, List.mem_cons, Prod.mk.injEq, List.not_mem_nil, or_false] at hmem
  obtain ⟨rfl, rfl⟩ | ⟨rfl, rfl⟩ | ⟨rfl, rfl⟩ := hmem
  · exact ⟨_, rfl, fun _ ↦ rfl⟩
  · exact ⟨_, rfl, fun _ ↦ rfl⟩
  · exact ⟨_, rfl, fun _ ↦ rfl⟩

theorem exists_countSetting? {word : Text} {effect : Nat → Options → Options}
    (hmem : (word, effect) ∈ counts) (n : Nat) :
    ∃ setting, countSetting? word n = some setting ∧ Works setting (effect n) := by
  simp only [counts, List.mem_cons, Prod.mk.injEq, List.not_mem_nil, or_false] at hmem
  obtain ⟨rfl, rfl⟩ | ⟨rfl, rfl⟩ | ⟨rfl, rfl⟩ := hmem
  · exact ⟨_, rfl, fun _ ↦ rfl⟩
  · exact ⟨_, rfl, fun _ ↦ rfl⟩
  · exact ⟨_, rfl, fun _ ↦ rfl⟩

/-- Only listed words are entries, in letters of either case. -/
theorem exists_mem_words (h : wordSetting? name = some setting) :
    ∃ entry ∈ words, List.Forall₂ Text.SameLetter name entry.1 := by
  simp only [words, List.mem_cons, List.not_mem_nil, or_false, exists_eq_or_imp, exists_eq_left,
    ← Text.equalIgnoringCase_iff]
  unfold wordSetting? at h
  split_ifs at h with h₁ h₂ h₃
  · exact .inl h₁
  · exact .inr (.inl h₂)
  · exact .inr (.inr h₃)

theorem exists_mem_counts (h : countSetting? name n = some setting) :
    ∃ entry ∈ counts, List.Forall₂ Text.SameLetter name entry.1 := by
  simp only [counts, List.mem_cons, List.not_mem_nil, or_false, exists_eq_or_imp, exists_eq_left,
    ← Text.equalIgnoringCase_iff]
  unfold countSetting? at h
  split_ifs at h with h₁ h₂ h₃
  · exact .inl h₁
  · exact .inr (.inl h₂)
  · exact .inr (.inr h₃)

/-- An entry has a setting, which works as the entry says. -/
theorem Entry.exists_setting? (h : Entry piece effect) (htrim : piece.trim = piece) :
    ∃ setting, setting? piece = some setting ∧ Works setting effect := by
  cases h with
  | word hbare hmem hword =>
    rw [setting?, split_of_not_mem hbare, htrim]
    dsimp only
    rw [wordSetting?_congr hword]
    exact exists_wordSetting? hmem
  | count hfirst hname hargument hmem hword hcount hlimit =>
    rw [setting?, split_append hfirst, Text.trim_eq_iff.mpr hname, Text.trim_eq_iff.mpr hargument]
    dsimp only
    rw [count?_eq_some_iff.mpr ⟨hcount, hlimit⟩, Option.bind_some, countSetting?_congr hword]
    exact exists_countSetting? hmem _

/-- Whatever has a setting is an entry. -/
theorem exists_entry (h : setting? piece = some setting) (htrim : piece.trim = piece) :
    ∃ effect, Entry piece effect := by
  by_cases hbare : byte '=' ∈ piece
  · obtain ⟨left, right, rfl, hfirst⟩ := List.eq_append_cons_of_mem hbare
    rw [setting?, split_append hfirst] at h
    obtain ⟨n, hn, h⟩ := Option.bind_eq_some_iff.mp h
    obtain ⟨hcount, hlimit⟩ := count?_eq_some_iff.mp hn
    obtain ⟨⟨word, effect⟩, hmem, hword⟩ := exists_mem_counts h
    exact ⟨_, .count hfirst (Text.trimmed_trim left) (Text.trimmed_trim right) hmem hword hcount
      hlimit⟩
  · rw [setting?, split_of_not_mem hbare, htrim] at h
    obtain ⟨⟨word, effect⟩, hmem, hword⟩ := exists_mem_words h
    exact ⟨_, .word hbare hmem hword⟩

/-! ## Lists -/

/-- What pieces are read as: the settings of entries, and the pieces that are none, in order. -/
inductive Reads : List Text → List Setting → List Text → Prop
  | nil : Reads [] [] []
  | entry {piece : Text} {setting : Setting} {pieces rejected : List Text}
      {settings : List Setting} (hentry : ∃ effect, Entry piece effect)
      (hworks : ∀ effect, Entry piece effect → Works setting effect)
      (h : Reads pieces settings rejected) :
      Reads (piece :: pieces) (setting :: settings) rejected
  | other {piece : Text} {pieces rejected : List Text} {settings : List Setting}
      (hother : ∀ effect, ¬ Entry piece effect) (h : Reads pieces settings rejected) :
      Reads (piece :: pieces) settings (piece :: rejected)

def warning (piece : Text) : Journal.Message :=
  ⟨.warning, .check, "Ignoring unknown DEEPCHECK_OPTIONS entry: '" ++ piece ++ "'"⟩

/-- Every list of trimmed pieces is read in some way. -/
theorem exists_reads {pieces : List Text} (htrim : ∀ piece ∈ pieces, piece.trim = piece) :
    ∃ settings rejected, Reads pieces settings rejected ∧
      readEntries pieces = ⟨rejected.map .unknownEntry, .ok settings⟩ := by
  induction pieces with
  | nil => exact ⟨[], [], .nil, rfl⟩
  | cons piece pieces ih =>
    obtain ⟨hpiece, hpieces⟩ := List.forall_mem_cons.mp htrim
    obtain ⟨settings, rejected, hreads, hread⟩ := ih hpieces
    cases hsetting : setting? piece with
    | some setting =>
      have hworks (effect : Options → Options) (h : Entry piece effect) : Works setting effect := by
        obtain ⟨other, hother, hworks⟩ := h.exists_setting? hpiece
        rwa [Option.some.inj (hsetting.symm.trans hother)]
      have hentry := exists_entry hsetting hpiece
      refine ⟨setting :: settings, rejected, .entry hentry hworks hreads, ?_⟩
      rw [readEntries, hsetting, hread]
      exact Outcome.ext (List.append_nil _) rfl
    | none =>
      have hother (effect : Options → Options) (h : Entry piece effect) : False := by
        obtain ⟨setting, hsome, -⟩ := h.exists_setting? hpiece
        cases hsetting.symm.trans hsome
      refine ⟨settings, piece :: rejected, .other hother hreads, ?_⟩
      rw [readEntries, hsetting, hread]
      rfl

/-- Lists may be read piece by piece, and their settings put together. -/
theorem readEntries_append (pieces others : List Text) :
    readEntries (pieces ++ others) = (do
      let settings ← readEntries pieces
      let settings' ← readEntries others
      pure (settings ++ settings')) := by
  induction pieces with
  | nil => simp [readEntries]
  | cons piece pieces ih =>
    rw [List.cons_append, readEntries, readEntries, ih]
    cases setting? piece <;> simp [bind_assoc]

theorem trim_of_mem_pieces {t : Text} (h : piece ∈ t.pieces (byte ',')) : piece.trim = piece := by
  obtain ⟨part, -, rfl⟩ := List.mem_map.mp (List.mem_of_mem_filter h)
  have htrimmed := Text.trimmed_trim part
  exact Text.trim_eq_iff.mpr
    ⟨⟨[], [], by simp, by simp, by simp⟩, htrimmed.head, htrimmed.last⟩

/-- An option list is read piece by piece as the grammar of entries says, and so is one that goes on
behind a comma. -/
theorem read_by_grammar (t : Text) :
    (∃ pieces settings rejected, (∀ others, Text.Lists (byte ',') t others ↔ others = pieces) ∧
      Reads pieces settings rejected ∧ read t = ⟨rejected.map .unknownEntry, .ok settings⟩ ∧
      (read t).messages = rejected.map warning) ∧
    ∀ u, read (t ++ "," ++ u) = (do
      let settings ← read t
      let settings' ← read u
      pure (settings ++ settings')) := by
  constructor
  · obtain ⟨settings, rejected, hreads, hread⟩ := exists_reads fun _ ↦ trim_of_mem_pieces (t := t)
    refine ⟨_, settings, rejected, fun others ↦ Text.lists_iff, hreads, hread, ?_⟩
    rw [read, hread, Outcome.messages, List.map_map]
    rfl
  · intro u
    have hcomma : t ++ "," ++ u = t ++ byte ',' :: u := List.append_assoc ..
    rw [read, read, read, hcomma, Text.pieces_append_cons, readEntries_append]

/-- A count has no plus sign, and a word that is an entry alone has no count. -/
example : (read "FLAT, indent = +1 ,,flat=,tab_width=-0").messages =
    [warning "indent = +1", warning "flat="] := by decide

end OptionList

end Discrepancy
