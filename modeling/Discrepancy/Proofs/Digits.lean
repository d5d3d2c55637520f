import Mathlib.Data.List.Basic
import Mathlib.Tactic.IntervalCases
import Discrepancy.Text

/-!
# Reading digits

Numerals are read back digit by digit, so that different numbers have different numerals.  Padding
with zeros in front changes neither the number nor what the digits are: bytes which no separator is
among.
-/

namespace Discrepancy.Text

/-- The value of a digit in a base of at most sixteen. -/
def digitValue (b : UInt8) : Nat :=
  if b ≤ 57 then b.toNat - 48 else b.toNat - 87

/-- The number which some digits write behind the digits of another number. -/
def readDigits (base n : Nat) (t : Text) : Nat :=
  t.foldl (fun n b ↦ base * n + digitValue b) n

def IsDigit (b : UInt8) : Prop :=
  ∃ d < 16, b = byte (Nat.digitChar d)

instance : DecidablePred IsDigit :=
  fun b ↦ inferInstanceAs (Decidable (∃ d < 16, b = byte (Nat.digitChar d)))

variable {base n m : Nat}

theorem readDigits_append (s t : Text) :
    readDigits base n (s ++ t) = readDigits base (readDigits base n s) t :=
  List.foldl_append

theorem digitValue_digitChar {d : Nat} (h : d < 16) : digitValue (byte (Nat.digitChar d)) = d := by
  interval_cases d <;> rfl

/-- The bytes behind a number or a word: the separators of trails and of texts on one line. -/
def IsStop (b : UInt8) : Prop :=
  b = byte ']' ∨ b = byte ',' ∨ b = byte '\x7d' ∨ b = byte ':'

instance : DecidablePred IsStop :=
  fun b ↦ inferInstanceAs
    (Decidable (b = byte ']' ∨ b = byte ',' ∨ b = byte '\x7d' ∨ b = byte ':'))

theorem IsDigit.ne_minus {b : UInt8} (h : IsDigit b) : b ≠ byte '-' := by
  obtain ⟨d, hd, rfl⟩ := h
  interval_cases d <;> decide

theorem IsDigit.not_isStop {b : UInt8} (h : IsDigit b) : ¬ IsStop b := by
  obtain ⟨d, hd, rfl⟩ := h
  interval_cases d <;> decide

theorem ofNatBase_eq_if (hbase : 1 < base) (n : Nat) :
    ofNatBase base n = if n < base then [byte (Nat.digitChar n)]
      else ofNatBase base (n / base) ++ [byte (Nat.digitChar (n % base))] := by
  rw [ofNatBase, Nat.toDigits_eq_if hbase]
  split_ifs
  · rfl
  · rw [List.map_append]
    rfl

theorem ofNatBase_ne_nil (hbase : 1 < base) (n : Nat) : ofNatBase base n ≠ [] := by
  rw [ofNatBase_eq_if hbase]
  split_ifs
  · exact List.cons_ne_nil _ _
  · exact List.append_ne_nil_of_right_ne_nil _ (List.cons_ne_nil _ _)

/-- A number is read back from its digits. -/
theorem readDigits_ofNatBase (hbase : 1 < base) (hle : base ≤ 16) (n : Nat) :
    readDigits base 0 (ofNatBase base n) = n := by
  induction n using Nat.strong_induction_on with
  | h n ih =>
    rw [ofNatBase_eq_if hbase]
    split_ifs with hn
    · simp [readDigits, digitValue_digitChar (hn.trans_le hle)]
    · have hmod : n % base < 16 := (Nat.mod_lt n (by omega)).trans_le hle
      rw [readDigits_append, ih _ (Nat.div_lt_self (by omega) hbase)]
      simpa [readDigits, digitValue_digitChar hmod] using Nat.div_add_mod n base

theorem isDigit_of_mem_ofNatBase (hbase : 1 < base) (hle : base ≤ 16) {b : UInt8}
    (h : b ∈ ofNatBase base n) : IsDigit b := by
  induction n using Nat.strong_induction_on with
  | h n ih =>
    rw [ofNatBase_eq_if hbase] at h
    split_ifs at h with hn
    · exact ⟨n, hn.trans_le hle, List.mem_singleton.mp h⟩
    · rcases List.mem_append.mp h with h | h
      · exact ih _ (Nat.div_lt_self (by omega) hbase) h
      · exact ⟨n % base, (Nat.mod_lt n (by omega)).trans_le hle, List.mem_singleton.mp h⟩

theorem isDigit_of_mem_ofNat {b : UInt8} (h : b ∈ ofNat n) : IsDigit b :=
  isDigit_of_mem_ofNatBase (by decide) (by decide) h

/-- Reading a numeral gives back the number it was written for. -/
theorem readDigits_ofNat (n : Nat) : readDigits 10 0 (ofNat n) = n :=
  readDigits_ofNatBase (by decide) (by decide) n

theorem ofNat_injective (h : ofNat m = ofNat n) : m = n := by
  have hread := congrArg (readDigits 10 0) h
  rwa [readDigits_ofNat, readDigits_ofNat] at hread

/-! ## Integers -/

/-- Different integers have different numerals. -/
theorem ofInt_injective {m n : Int} (h : ofInt m = ofInt n) : m = n := by
  have hsign (m n : Nat) : ofNat m ≠ byte '-' :: ofNat n := fun heq ↦
    (isDigit_of_mem_ofNat (heq ▸ List.mem_cons_self)).ne_minus rfl
  cases m with
  | ofNat m =>
    cases n with
    | ofNat n => rw [ofNat_injective h]
    | negSucc n => exact (hsign _ _ h).elim
  | negSucc m =>
    cases n with
    | ofNat n => exact (hsign _ _ h.symm).elim
    | negSucc n => rw [Nat.succ.inj (ofNat_injective (List.cons.inj h).2)]

theorem ofInt_ne_nil (n : Int) : ofInt n ≠ [] := by
  cases n with
  | ofNat n => exact ofNatBase_ne_nil (by decide) n
  | negSucc n => exact List.cons_ne_nil _ _

theorem mem_ofInt {n : Int} {b : UInt8} (h : b ∈ ofInt n) : b = byte '-' ∨ IsDigit b := by
  cases n with
  | ofNat n => exact .inr (isDigit_of_mem_ofNat h)
  | negSucc n => exact (List.mem_cons.mp h).imp_right isDigit_of_mem_ofNat

/-- A number ends at the first stop. -/
theorem not_isStop_of_mem_ofInt {n : Int} {b : UInt8} (h : b ∈ ofInt n) : ¬ IsStop b := by
  rcases mem_ofInt h with rfl | hdigit
  · decide
  · exact hdigit.not_isStop

/-! ## Padded numerals -/

theorem ofHexPadded_length {width : Nat} (hwidth : 0 < width) (hn : n < 16 ^ width) :
    (ofHexPadded width n).length = width := by
  have hlength : (ofHex n).length ≤ width := by
    rw [ofHex, ofNatBase, List.length_map]
    exact (Nat.length_toDigits_le_iff (by decide) hwidth).mpr hn
  rw [ofHexPadded, List.length_append, List.length_replicate]
  omega

/-- Zeros in front do not change what a hexadecimal numeral reads as. -/
theorem readDigits_ofHexPadded (width n : Nat) : readDigits 16 0 (ofHexPadded width n) = n := by
  have hzeros (count : Nat) : readDigits 16 0 (List.replicate count (byte '0')) = 0 := by
    induction count with
    | zero => rfl
    | succ count ih => exact ih
  rw [ofHexPadded, readDigits_append, hzeros, ofHex, readDigits_ofNatBase (by decide) (by decide)]

end Discrepancy.Text
