/-!
# Text

A text is a sequence of bytes.  Most texts are UTF-8, yet nothing forces them to be: a string leaf
of a compared value may hold any bytes, and those bytes reach renderings, trails and notices
unchanged.  This module holds the operations which look at bytes only; characters are the business
of `Discrepancy.Text.Utf8`.
-/

namespace Discrepancy

/-- A sequence of bytes, read as UTF-8 where characters matter. -/
abbrev Text := List UInt8

namespace Text

def utf8 (s : String) : Text :=
  s.toUTF8.data.toList

instance : Coe String Text := ⟨utf8⟩

def byte (c : Char) : UInt8 :=
  c.toNat.toUInt8

def spaces (n : Nat) : Text :=
  List.replicate n (byte ' ')

theorem spaces_add (m n : Nat) : spaces (m + n) = spaces m ++ spaces n :=
  (List.replicate_append_replicate ..).symm

/-- The texts one after the other, with `separator` between neighbours. -/
def joinWith (separator : Text) : List Text → Text
  | [] => []
  | [t] => t
  | t :: u :: rest => t ++ separator ++ joinWith separator (u :: rest)

/-- Bytewise order, in which a proper beginning of a text comes before it. -/
def le : Text → Text → Bool
  | [], _ => true
  | _ :: _, [] => false
  | a :: s, b :: t => if a < b then true else if b < a then false else le s t

theorem le_refl (s : Text) : le s s = true := by
  induction s with
  | nil => rfl
  | cons a s ih => simp [le, ih]

theorem le_total (s t : Text) : le s t = true ∨ le t s = true := by
  induction s generalizing t with
  | nil => exact .inl rfl
  | cons a s ih =>
    cases t with
    | nil => exact .inr rfl
    | cons b t =>
      unfold le
      by_cases h : a < b
      · exact .inl (by simp [h])
      · by_cases h' : b < a
        · exact .inr (by simp [h'])
        · simpa [h, h'] using ih t

theorem le_antisymm {s t : Text} (h : le s t = true) (h' : le t s = true) : s = t := by
  induction s generalizing t with
  | nil =>
    cases t with
    | nil => rfl
    | cons b t => simp [le] at h'
  | cons a s ih =>
    cases t with
    | nil => simp [le] at h
    | cons b t =>
      unfold le at h h'
      have hab : ¬ a < b := fun lt ↦ by simp [lt, UInt8.lt_asymm lt] at h'
      have hba : ¬ b < a := fun lt ↦ by simp [lt, UInt8.lt_asymm lt] at h
      simp only [hab, hba, if_false] at h h'
      have equal : a = b := UInt8.le_antisymm (UInt8.not_lt.mp hba) (UInt8.not_lt.mp hab)
      rw [equal, ih h h']

/-- Bytewise order is transitive. -/
theorem le_trans {s t u : Text} (h : le s t = true) (h' : le t u = true) : le s u = true := by
  induction s generalizing t u with
  | nil => rfl
  | cons a s ih =>
    cases t with
    | nil => simp [le] at h
    | cons b t =>
      cases u with
      | nil => simp [le] at h'
      | cons c u =>
        unfold le at h h' ⊢
        split at h
        · rename_i hab
          split at h'
          · rename_i hbc
            simp [UInt8.lt_trans hab hbc]
          · rename_i hbc
            split at h'
            · simp at h'
            · rename_i hcb
              have equal : b = c := UInt8.le_antisymm (UInt8.not_lt.mp hcb) (UInt8.not_lt.mp hbc)
              simp [← equal, hab]
        · rename_i hab
          split at h
          · simp at h
          · rename_i hba
            have equal : a = b := UInt8.le_antisymm (UInt8.not_lt.mp hba) (UInt8.not_lt.mp hab)
            subst equal
            split at h'
            · rename_i hac
              simp [hac]
            · rename_i hac
              split at h'
              · simp at h'
              · rename_i hca
                simpa [hac, hca] using ih h h'

/-! ## Blanks and pieces -/

/-- Spaces and tabs are the only blanks. -/
def isBlank (b : UInt8) : Bool :=
  b == byte ' ' || b == byte '\t'

/-- The text without the blanks at its two ends. -/
def trim (t : Text) : Text :=
  ((t.dropWhile isBlank).reverse.dropWhile isBlank).reverse

/-- The parts of a text between the occurrences of a byte, empty parts included. -/
def cut (separator : UInt8) : Text → List Text
  | [] => [[]]
  | b :: rest =>
    if b == separator then [] :: cut separator rest
    else match cut separator rest with
      | [] => [[b]]
      | part :: parts => (b :: part) :: parts

/-- The parts between the occurrences of a byte, trimmed, without those that are empty then. -/
def pieces (separator : UInt8) (t : Text) : List Text :=
  ((cut separator t).map trim).filter fun piece ↦ !piece.isEmpty

/-! ## Letters -/

/-- The lower-case form of an ASCII letter; every other byte stays as it is. -/
def lower (b : UInt8) : UInt8 :=
  if 65 ≤ b && b ≤ 90 then b + 32 else b

def equalIgnoringCase (s t : Text) : Bool :=
  s.map lower == t.map lower

/-- The bytes from the space to the tilde. -/
def isPrintable (b : UInt8) : Bool :=
  0x20 ≤ b && b < 0x7f

/-! ## Numerals -/

/-- The digits of a number in a base of at most sixteen, most significant first. -/
def ofNatBase (base n : Nat) : Text :=
  (Nat.toDigits base n).map byte

def ofNat (n : Nat) : Text :=
  ofNatBase 10 n

def ofInt : Int → Text
  | .ofNat n => ofNat n
  | .negSucc n => byte '-' :: ofNat (n + 1)

def ofHex (n : Nat) : Text :=
  ofNatBase 16 n

/-- The hexadecimal numeral of a number, with zeros in front up to `width` digits. -/
def ofHexPadded (width n : Nat) : Text :=
  List.replicate (width - (ofHex n).length) (byte '0') ++ ofHex n

def digit? (b : UInt8) : Option Nat :=
  if 48 ≤ b && b ≤ 57 then some (b.toNat - 48) else none

/-- The number written by decimal digits alone, of which there is at least one. -/
def nat? (t : Text) : Option Nat :=
  if t.isEmpty then none
  else t.foldl (fun acc b ↦ acc.bind fun n ↦ (digit? b).map fun d ↦ 10 * n + d) (some 0)

/-- The integer written by decimal digits, perhaps behind a minus sign. -/
def int? : Text → Option Int
  | [] => none
  | b :: rest => if b == byte '-' then (nat? rest).map fun n ↦ -(n : Int)
    else (nat? (b :: rest)).map fun n ↦ (n : Int)

end Text

end Discrepancy
