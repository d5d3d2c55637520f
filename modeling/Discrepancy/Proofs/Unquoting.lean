import Discrepancy.Proofs.Digits
import Discrepancy.Render.Leaf

/-!
# Reading quoted texts

A quoted text says itself where it ends: a reader that goes byte by byte finds the closing quotation
mark and has read the text by then.  Bytes of a code point that is copied are neither quotation
marks nor backslashes, and the two-character escapes and the numbers stand for one code point each.
It follows that quoted forms of well-formed texts differ where the texts do, whatever comes behind
them.  Stray bytes have to be left out, for they are written like code points.
-/

namespace Discrepancy

/-! ## Encodings -/

theorem toUInt8_eq_of_toNat {n : Nat} {b : UInt8} (h : n = b.toNat) : n.toUInt8 = b := by
  rw [h]
  exact UInt8.ofNat_toNat

namespace Rune

theorem isContinuation_iff {b : UInt8} : isContinuation b ↔ 0x80 ≤ b.toNat ∧ b.toNat < 0xc0 := by
  simp [isContinuation, UInt8.le_iff_toNat_le, UInt8.lt_iff_toNat_lt]

theorem ofCode_two {b b₁ : UInt8} (hb : 0xc2 ≤ b.toNat ∧ b.toNat < 0xe0)
    (h₁ : isContinuation b₁) :
    Text.ofCode (b.toNat % 32 * 64 + payload b₁) = [b, b₁] := by
  rw [isContinuation_iff] at h₁
  rw [Text.ofCode, payload, if_neg (by omega), if_pos (by omega)]
  rw [toUInt8_eq_of_toNat (b := b) (by omega), toUInt8_eq_of_toNat (b := b₁) (by omega)]

theorem ofCode_three {b b₁ b₂ : UInt8} (hb : 0xe0 ≤ b.toNat ∧ b.toNat < 0xf0)
    (h₁ : isContinuation b₁) (h₂ : isContinuation b₂)
    (hcode : 0x800 ≤ (b.toNat % 16 * 64 + payload b₁) * 64 + payload b₂) :
    Text.ofCode ((b.toNat % 16 * 64 + payload b₁) * 64 + payload b₂) = [b, b₁, b₂] := by
  rw [isContinuation_iff] at h₁ h₂
  rw [payload, payload] at hcode ⊢
  rw [Text.ofCode, if_neg (by omega), if_neg (by omega), if_pos (by omega)]
  rw [toUInt8_eq_of_toNat (b := b) (by omega), toUInt8_eq_of_toNat (b := b₁) (by omega),
    toUInt8_eq_of_toNat (b := b₂) (by omega)]

/-- Codes beyond 16 bits are encoded by the bytes they were read from. -/
theorem ofCode_four {b b₁ b₂ b₃ : UInt8} (hb : 0xf0 ≤ b.toNat ∧ b.toNat < 0xf5)
    (h₁ : isContinuation b₁) (h₂ : isContinuation b₂) (h₃ : isContinuation b₃)
    (hcode : 0x10000 ≤ ((b.toNat % 8 * 64 + payload b₁) * 64 + payload b₂) * 64 + payload b₃) :
    Text.ofCode (((b.toNat % 8 * 64 + payload b₁) * 64 + payload b₂) * 64 + payload b₃) =
      [b, b₁, b₂, b₃] := by
  rw [isContinuation_iff] at h₁ h₂ h₃
  rw [payload, payload, payload] at hcode ⊢
  rw [Text.ofCode, if_neg (by omega), if_neg (by omega), if_neg (by omega)]
  rw [toUInt8_eq_of_toNat (b := b) (by omega), toUInt8_eq_of_toNat (b := b₁) (by omega),
    toUInt8_eq_of_toNat (b := b₂) (by omega), toUInt8_eq_of_toNat (b := b₃) (by omega)]

/-- A rune which stands for a code point in its encoding. -/
def Encoded : Rune → Prop
  | point code bytes => code < 0x110000 ∧ bytes = Text.ofCode code
  | stray _ => False

/-- What is read and what is left make up the text. -/
theorem bytes_next_append (b : UInt8) (rest : Text) :
    (next b rest).1.bytes ++ (next b rest).2 = b :: rest := by
  unfold next
  dsimp only
  repeat' split
  all_goals rfl

/-- Every code point is read from its encoding. -/
theorem encoded_next {b : UInt8} {rest : Text} (h : ∀ byte, (next b rest).1 ≠ stray byte) :
    (next b rest).1.Encoded := by
  have hstray {c : UInt8} (hc : ∀ byte, stray c ≠ stray byte) : (stray c).Encoded := (hc c rfl).elim
  have hbyte := b.toNat_lt
  unfold next at h ⊢
  split_ifs at h ⊢ with hone htwo hthree hfour
  · have hone : b.toNat < 0x80 := UInt8.lt_iff_toNat_lt.mp hone
    refine ⟨by omega, ?_⟩
    rw [Text.ofCode, if_pos hone, toUInt8_eq_of_toNat rfl]
  · have hb : 0xc2 ≤ b.toNat ∧ b.toNat < 0xe0 := by
      simpa [UInt8.le_iff_toNat_le, UInt8.lt_iff_toNat_lt] using htwo
    split at h
    · split_ifs at h ⊢ with h₁
      · exact ⟨by unfold payload; omega, (ofCode_two hb h₁).symm⟩
      · exact hstray h
    · exact hstray h
  · have hb : 0xe0 ≤ b.toNat ∧ b.toNat < 0xf0 := by
      simpa [UInt8.le_iff_toNat_le, UInt8.lt_iff_toNat_lt] using hthree
    split at h
    · dsimp only at h ⊢
      split_ifs at h ⊢ with hcode
      · simp only [Bool.and_eq_true, decide_eq_true_eq] at hcode
        obtain ⟨⟨⟨h₁, h₂⟩, hcode⟩, -⟩ := hcode
        exact ⟨by unfold payload; omega, (ofCode_three hb h₁ h₂ hcode).symm⟩
      · exact hstray h
    · exact hstray h
  · have hb : 0xf0 ≤ b.toNat ∧ b.toNat < 0xf5 := by
      simpa [UInt8.le_iff_toNat_le, UInt8.lt_iff_toNat_lt] using hfour
    split at h
    · dsimp only at h ⊢
      split_ifs at h ⊢ with hcode
      · simp only [Bool.and_eq_true, decide_eq_true_eq] at hcode
        obtain ⟨⟨⟨⟨h₁, h₂⟩, h₃⟩, hcode⟩, hlt⟩ := hcode
        exact ⟨hlt, (ofCode_four hb h₁ h₂ h₃ hcode).symm⟩
      · exact hstray h
    · exact hstray h
  · exact hstray h

end Rune

namespace Text

theorem length_next_le (b : UInt8) (rest : Text) : (Rune.next b rest).2.length ≤ rest.length := by
  have hlength := congrArg List.length (Rune.bytes_next_append b rest)
  have hpos : 0 < (Rune.next b rest).1.bytes.length := by
    unfold Rune.next
    dsimp only
    repeat' split
    all_goals simp [Rune.bytes]
  rw [List.length_append, List.length_cons] at hlength
  omega

/-- Reading the runes of a text loses none of its bytes. -/
theorem flatMap_bytes_runesWithin {steps : Nat} {t : Text} (h : t.length ≤ steps) :
    (runesWithin steps t).flatMap Rune.bytes = t := by
  induction steps generalizing t with
  | zero => rw [List.eq_nil_of_length_eq_zero (Nat.le_zero.mp h), runesWithin]; rfl
  | succ steps ih =>
    cases t with
    | nil => rfl
    | cons b rest =>
      have hrest := (length_next_le b rest).trans (Nat.le_of_succ_le_succ h)
      rw [runesWithin, List.flatMap_cons, ih hrest, Rune.bytes_next_append]

/-- A text is made of its runes. -/
theorem flatMap_bytes_runes (t : Text) : t.runes.flatMap Rune.bytes = t :=
  flatMap_bytes_runesWithin le_rfl

theorem encoded_of_mem_runesWithin {steps : Nat} {t : Text} {rune : Rune}
    (h : rune ∈ runesWithin steps t) (hpoint : ∀ byte, rune ≠ .stray byte) : rune.Encoded := by
  induction steps generalizing t with
  | zero => cases h
  | succ steps ih =>
    cases t with
    | nil => cases h
    | cons b rest =>
      rcases List.mem_cons.mp h with rfl | h
      · exact Rune.encoded_next hpoint
      · exact ih h

/-- A well-formed text has its code points encoded. -/
theorem encoded_of_mem_runes {t : Text} (ht : t.isWellFormed) {rune : Rune} (h : rune ∈ t.runes) :
    rune.Encoded := by
  refine encoded_of_mem_runesWithin h ?_
  rintro byte rfl
  exact Bool.false_ne_true (List.all_eq_true.mp ht _ h)

/-! ## The reader -/

/-- How far an escape has been read. -/
inductive Reading where
  | plain
  | escape
  /-- A code point by number, with the digits to come and the value of those before. -/
  | number (digits code : Nat)

def unescape (b : UInt8) : UInt8 :=
  if b == byte 'n' then 0x0a else if b == byte 'r' then 0x0d else if b == byte 't' then 0x09 else b

/-- The number of digits behind the letter of an escape by number. -/
def escapeDigits? (b : UInt8) : Option Nat :=
  if b == byte 'x' then some 2 else if b == byte 'u' then some 4
  else if b == byte 'U' then some 8 else none

/-- Reads a quoted text from behind its opening mark: the text, and what stands behind the closing
mark. -/
def unquote : Reading → Text → Text × Text
  | _, [] => ([], [])
  | .plain, b :: rest =>
    if b == 0x22 then ([], rest)
    else if b == 0x5c then unquote .escape rest
    else (unquote .plain rest).map (b :: ·) id
  | .escape, b :: rest =>
    match escapeDigits? b with
    | some digits => unquote (.number digits 0) rest
    | none => (unquote .plain rest).map (unescape b :: ·) id
  | .number digits code, b :: rest =>
    let code := 16 * code + digitValue b
    if digits ≤ 1 then (unquote .plain rest).map (ofCode code ++ ·) id
    else unquote (.number (digits - 1) code) rest
termination_by structural _ t => t

/-- Bytes which neither end a quoted text nor start an escape are copied. -/
theorem unquote_plain {bytes : Text} (h : ∀ b ∈ bytes, b ≠ 0x22 ∧ b ≠ 0x5c) (rest : Text) :
    unquote .plain (bytes ++ rest) = (unquote .plain rest).map (bytes ++ ·) id := by
  induction bytes with
  | nil => rfl
  | cons b bytes ih =>
    obtain ⟨hb, hbytes⟩ := List.forall_mem_cons.mp h
    rw [List.cons_append, unquote, if_neg (by simpa using hb.1), if_neg (by simpa using hb.2),
      ih hbytes]
    rfl

/-- Digits up to the number of those to come are read as one code point. -/
theorem unquote_number {digits : Text} (h : digits ≠ []) (code : Nat) (rest : Text) :
    unquote (.number digits.length code) (digits ++ rest) =
      (unquote .plain rest).map (ofCode (readDigits 16 code digits) ++ ·) id := by
  induction digits generalizing code with
  | nil => exact (h rfl).elim
  | cons b digits ih =>
    rw [List.cons_append, unquote, List.length_cons]
    by_cases hlast : digits = []
    · subst hlast
      rfl
    · have hlength : ¬ digits.length + 1 ≤ 1 := by
        have := List.length_pos_iff.mpr hlast
        omega
      rw [if_neg hlength, Nat.add_sub_cancel, ih hlast]
      rfl

theorem unquote_padded {width n : Nat} (hwidth : 0 < width) (hn : n < 16 ^ width) (rest : Text) :
    unquote (.number width 0) (ofHexPadded width n ++ rest) =
      (unquote .plain rest).map (ofCode n ++ ·) id := by
  have hlength := ofHexPadded_length hwidth hn
  have hne : ofHexPadded width n ≠ [] := by
    rintro hnil
    rw [hnil] at hlength
    exact hwidth.ne hlength
  have hread := unquote_number hne 0 rest
  rwa [hlength, readDigits_ofHexPadded] at hread

/-- An escape by number is read back as its code point. -/
theorem unquote_numberEscape {code : Nat} (h : code < 0x110000) (rest : Text) :
    unquote .plain (numberEscape code ++ rest) =
      (unquote .plain rest).map (ofCode code ++ ·) id := by
  unfold numberEscape
  split_ifs with hx hu
  · exact unquote_padded (by decide) (by omega) rest
  · exact unquote_padded (by decide) (by omega) rest
  · exact unquote_padded (by decide) (by omega) rest

/-- The encoding of a code point holds no ASCII byte but that of the code point itself. -/
theorem not_mem_ofCode {code : Nat} {c : UInt8} (hcode : code < 0x110000) (hc : c < 0x80)
    (hne : code ≠ c.toNat) : c ∉ ofCode code := by
  have hlow : c.toNat < 0x80 := UInt8.lt_iff_toNat_lt.mp hc
  have hbyte {n : Nat} (hn : n % 256 ≠ c.toNat) : c ≠ n.toUInt8 := by
    rintro rfl
    exact hn (by simp)
  unfold ofCode
  split_ifs
  all_goals simp only [List.mem_cons, List.not_mem_nil, or_false, not_or]
  · exact hbyte (by omega)
  · exact ⟨hbyte (by omega), hbyte (by omega)⟩
  · exact ⟨hbyte (by omega), hbyte (by omega), hbyte (by omega)⟩
  · exact ⟨hbyte (by omega), hbyte (by omega), hbyte (by omega), hbyte (by omega)⟩

variable [Host]

/-- A code point is read back from its quoted form. -/
theorem unquote_quoteRune {rune : Rune} (h : rune.Encoded) (rest : Text) :
    unquote .plain (quoteRune rune ++ rest) =
      (unquote .plain rest).map (rune.bytes ++ ·) id := by
  cases rune with
  | stray b => exact h.elim
  | point code bytes =>
    obtain ⟨hcode, rfl⟩ := h
    simp only [quoteRune, Rune.bytes, beq_iff_eq]
    split_ifs with hn hr ht hmark hbackslash hunprintable
    · subst hn
      rfl
    · subst hr
      rfl
    · subst ht
      rfl
    · subst hmark
      rfl
    · subst hbackslash
      rfl
    · exact unquote_numberEscape hcode rest
    · refine unquote_plain (fun b hb ↦ ⟨?_, ?_⟩) rest
      · exact fun h ↦ not_mem_ofCode (c := 0x22) hcode (by decide) hmark (h ▸ hb)
      · exact fun h ↦ not_mem_ofCode (c := 0x5c) hcode (by decide) hbackslash (h ▸ hb)

/-- A well-formed text is read back from its quoted form, and so is what stands behind it. -/
theorem unquote_quoted {t : Text} (ht : t.isWellFormed) (rest : Text) :
    unquote .plain ((t.quoted ++ rest).drop 1) = (t, rest) := by
  have hrunes (runes : List Rune) (h : ∀ rune ∈ runes, rune.Encoded) :
      unquote .plain (runes.flatMap quoteRune ++ (0x22 :: rest)) =
        (runes.flatMap Rune.bytes, rest) := by
    induction runes with
    | nil => rfl
    | cons rune runes ih =>
      obtain ⟨hrune, hrest⟩ := List.forall_mem_cons.mp h
      rw [List.flatMap_cons, List.append_assoc, unquote_quoteRune hrune, ih hrest]
      rfl
  have hquoted : (t.quoted ++ rest).drop 1 = t.runes.flatMap quoteRune ++ (0x22 :: rest) := by
    simp only [quoted, List.append_assoc]
    rfl
  rw [hquoted, hrunes t.runes fun _ ↦ encoded_of_mem_runes ht, flatMap_bytes_runes]

/-- Quoted forms end where they end, whatever comes behind them. -/
theorem quoted_append_inj {s t x y : Text} (hs : s.isWellFormed) (ht : t.isWellFormed)
    (h : s.quoted ++ x = t.quoted ++ y) : s = t ∧ x = y := by
  have hread := congrArg (fun text ↦ unquote .plain (text.drop 1)) h
  simp only [unquote_quoted hs, unquote_quoted ht, Prod.mk.injEq] at hread
  exact hread

end Text

end Discrepancy
