import Mathlib.Algebra.Order.Field.Power
import Mathlib.Algebra.Order.Ring.Rat
import Mathlib.Order.WithBot
import Mathlib.Tactic.Positivity
import Mathlib.Tactic.Linarith
import Mathlib.Tactic.Ring
import Discrepancy.Compare.Comparison
import Discrepancy.Proofs.Results

/-!
# Equality of leaves

What it means for two leaves to be equal is said here without the comparator: numbers are equal if
they are of one size, which not-a-number does not have, and everything else is equal if it is the
same.  The comparator tells equal leaves from others.
-/

namespace Discrepancy

open Outcome

/-! ## Sizes of numbers -/

/-- The size of a number, with the infinities below and above all others. -/
def Binary.size? : Binary → Option (WithBot (WithTop ℚ))
  | nan => none
  | infinity true => some ⊥
  | infinity false => some (⊤ : WithTop ℚ)
  | finite negative m e =>
    some (((if negative then -(m * 2 ^ e) else m * 2 ^ e : ℚ) : WithTop ℚ) : WithBot (WithTop ℚ))

/-- Strictly monotone maps keep the order. -/
theorem compare_map {α β : Type} [LinearOrder α] [LinearOrder β] {f : α → β} (hf : StrictMono f)
    (a b : α) : compare (f a) (f b) = compare a b := by
  rcases lt_trichotomy a b with h | rfl | h
  · rw [compare_lt_iff_lt.mpr h, compare_lt_iff_lt.mpr (hf h)]
  · rw [compare_eq_iff_eq.mpr rfl, compare_eq_iff_eq.mpr rfl]
  · rw [compare_gt_iff_gt.mpr h, compare_gt_iff_gt.mpr (hf h)]

theorem compare_rat (a b : ℚ) :
    compare ((a : WithTop ℚ) : WithBot (WithTop ℚ)) ((b : WithTop ℚ) : WithBot (WithTop ℚ)) =
      compare a b :=
  (compare_map WithBot.coe_strictMono _ _).trans (compare_map WithTop.coe_strictMono a b)

namespace Binary

/-- Both magnitudes are whole multiples of the power of two with the smaller exponent. -/
theorem magnitude_eq (m : Nat) (e e' : Int) :
    (m * 2 ^ e : ℚ) = ((m * 2 ^ (e - e').toNat : Nat) : ℚ) * 2 ^ min e e' := by
  have hexp : e = ((e - e').toNat : Int) + min e e' := by omega
  conv_lhs => rw [hexp, zpow_add₀ (by norm_num), zpow_natCast]
  push_cast
  ring

/-- Magnitudes are ordered like the rational numbers they stand for. -/
theorem orderMagnitudes_eq (m m' : Nat) (e e' : Int) :
    orderMagnitudes m e m' e' = compare (m * 2 ^ e : ℚ) (m' * 2 ^ e') := by
  have hpos : StrictMono fun n : Nat ↦ (n : ℚ) * 2 ^ min e e' := fun a b h ↦ by
    have hcast : (a : ℚ) < b := by exact_mod_cast h
    exact mul_lt_mul_of_pos_right hcast (by positivity)
  rw [magnitude_eq m e e', magnitude_eq m' e' e, min_comm e' e]
  exact (compare_map hpos _ _).symm

theorem magnitude_nonneg (m : Nat) (e : Int) : (0 : ℚ) ≤ m * 2 ^ e := by positivity

theorem magnitude_eq_zero {m : Nat} {e : Int} : (m * 2 ^ e : ℚ) = 0 ↔ m = 0 := by
  have hpow : (2 : ℚ) ^ e ≠ 0 := by positivity
  simp [hpow]

theorem compare_neg (a b : ℚ) : compare (-a) (-b) = compare b a := by
  rcases lt_trichotomy b a with h | rfl | h
  · rw [compare_lt_iff_lt.mpr h, compare_lt_iff_lt.mpr (neg_lt_neg h)]
  · rw [compare_eq_iff_eq.mpr rfl, compare_eq_iff_eq.mpr rfl]
  · rw [compare_gt_iff_gt.mpr h, compare_gt_iff_gt.mpr (neg_lt_neg h)]

/-- Finite numbers are ordered like the rational numbers they stand for. -/
theorem order_finite (a b : Bool) (m m' : Nat) (e e' : Int) :
    order (finite a m e) (finite b m' e') =
      some (compare (if a then -(m * 2 ^ e) else m * 2 ^ e : ℚ)
        (if b then -(m' * 2 ^ e') else m' * 2 ^ e')) := by
  have hm := magnitude_nonneg m e
  have hm' := magnitude_nonneg m' e'
  unfold order
  by_cases hzero : m = 0 ∧ m' = 0
  · obtain ⟨rfl, rfl⟩ := hzero
    simp
  · have hpos : 0 < (m * 2 ^ e : ℚ) + m' * 2 ^ e' := by
      refine lt_of_le_of_ne (add_nonneg hm hm') fun h ↦ hzero ?_
      obtain ⟨hx, hy⟩ := (add_eq_zero_iff_of_nonneg hm hm').mp h.symm
      exact ⟨magnitude_eq_zero.mp hx, magnitude_eq_zero.mp hy⟩
    have hsome : (m == 0 && m' == 0) = false := by simpa using fun h ↦ not_and.mp hzero h
    simp only [hsome, Bool.false_eq_true, if_false]
    cases a <;> cases b
    · simp only [Bool.false_eq_true, if_false, orderMagnitudes_eq]
    · simp only [Bool.false_eq_true, if_false, if_true]
      rw [compare_gt_iff_gt.mpr (by linarith)]
    · simp only [Bool.false_eq_true, if_false, if_true]
      rw [compare_lt_iff_lt.mpr (by linarith)]
    · simp only [if_true, orderMagnitudes_eq, compare_neg]

/-- The order of two numbers is that of their sizes. -/
theorem order_eq (x y : Binary) :
    x.order y = x.size?.bind fun a ↦ y.size?.map fun b ↦ compare a b := by
  have hbot (a : WithTop ℚ) : compare (⊥ : WithBot (WithTop ℚ)) a = .lt :=
    compare_lt_iff_lt.mpr (WithBot.bot_lt_coe a)
  have hbot' (a : WithTop ℚ) : compare (a : WithBot (WithTop ℚ)) ⊥ = .gt :=
    compare_gt_iff_gt.mpr (WithBot.bot_lt_coe a)
  have htop (q : ℚ) : compare (((q : WithTop ℚ)) : WithBot (WithTop ℚ)) (⊤ : WithTop ℚ) = .lt :=
    compare_lt_iff_lt.mpr (WithBot.coe_lt_coe.mpr (WithTop.coe_lt_top q))
  have htop' (q : ℚ) : compare ((⊤ : WithTop ℚ) : WithBot (WithTop ℚ)) (q : WithTop ℚ) = .gt :=
    compare_gt_iff_gt.mpr (WithBot.coe_lt_coe.mpr (WithTop.coe_lt_top q))
  cases x with
  | nan => rfl
  | infinity a =>
    cases y with
    | nan => cases a <;> rfl
    | infinity b =>
      cases a <;> cases b
      · exact congrArg some (compare_eq_iff_eq.mpr rfl).symm
      · exact congrArg some (hbot' _).symm
      · exact congrArg some (hbot _).symm
      · exact congrArg some (compare_eq_iff_eq.mpr rfl).symm
    | finite b m' e' =>
      cases a
      · exact congrArg some (htop' _).symm
      · exact congrArg some (hbot _).symm
  | finite a m e =>
    cases y with
    | nan => rfl
    | infinity b =>
      cases b
      · exact congrArg some (htop _).symm
      · exact congrArg some (hbot' _).symm
    | finite b m' e' =>
      simp only [order_finite, size?, Option.bind_some, Option.map_some, compare_rat]

/-- Two numbers are of one size, so that the two zeros are and not-a-number never is. -/
def SameSize (x y : Binary) : Prop :=
  ∃ size, x.size? = some size ∧ y.size? = some size

theorem SameSize.symm {x y : Binary} (h : x.SameSize y) : y.SameSize x :=
  h.imp fun _ ↦ And.symm

theorem SameSize.trans {x y z : Binary} (hxy : x.SameSize y) (hyz : y.SameSize z) :
    x.SameSize z := by
  obtain ⟨size, hx, hy⟩ := hxy
  obtain ⟨size', hy', hz⟩ := hyz
  obtain rfl := Option.some.inj (hy.symm.trans hy')
  exact ⟨size, hx, hz⟩

/-- Numeric equality is being of one size. -/
theorem equal_iff {x y : Binary} : x.equal y ↔ x.SameSize y := by
  rw [equal, beq_iff_eq, order_eq, SameSize]
  cases x.size? with
  | none => simp
  | some a =>
    cases y.size? with
    | none => simp
    | some b =>
      simp only [Option.bind_some, Option.map_some, Option.some.injEq, compare_eq_iff_eq]
      exact ⟨fun h ↦ ⟨a, rfl, h.symm⟩, fun ⟨_, ha, hb⟩ ↦ ha.trans hb.symm⟩

instance (x y : Binary) : Decidable (x.SameSize y) :=
  decidable_of_iff _ equal_iff

end Binary

/-! ## Leaves -/

/-- Two leaves are equal.  A nil string is not the empty one, complex numbers are taken in double
precision, and functions and channels are equal if they are one. -/
inductive Scalar.Equal : Scalar → Scalar → Prop
  | bool (b : Bool) : Equal (bool b) (bool b)
  | integer {type type' : IntegerTy} (n : Int) : Equal (integer type n) (integer type' n)
  | float {type type' : FloatTy} {x y : Binary} (h : x.SameSize y) :
      Equal (float type x) (float type' y)
  | complex {type type' : FloatTy} {re im re' im' : Binary}
      (hre : (type.narrow re).SameSize (type'.narrow re'))
      (him : (type.narrow im).SameSize (type'.narrow im')) :
      Equal (complex type re im) (complex type' re' im')
  | string {type type' : StringTy} (content : Option Text) {place place' : Identity} :
      Equal (string type content place) (string type' content place')
  | func {form form' : FunctionForm} {result result' : Ty} {parameters parameters' : List Ty}
      (target : Option Identity) :
      Equal (func form result parameters target) (func form' result' parameters' target)
  | chan {name name' : Text} (queue : Option Identity) : Equal (chan name queue) (chan name' queue)
  | span {type : AtomTy} {period : Period} {m n : Binary} (h : m.SameSize n) :
      Equal (span type period m) (span type period n)
  | instant {type : AtomTy} {period : Period} {m n : Binary} (h : m.SameSize n) :
      Equal (instant type period m) (instant type period n)

namespace Scalar

theorem Equal.symm {s t : Scalar} (h : s.Equal t) : t.Equal s := by
  cases h with
  | bool b => exact .bool b
  | integer n => exact .integer n
  | float h => exact .float h.symm
  | complex hre him => exact .complex hre.symm him.symm
  | string content => exact .string content
  | func target => exact .func target
  | chan queue => exact .chan queue
  | span h => exact .span h.symm
  | instant h => exact .instant h.symm

theorem Equal.trans {s t u : Scalar} (hst : s.Equal t) (htu : t.Equal u) : s.Equal u := by
  cases hst with
  | bool b => exact htu
  | integer n => cases htu with | integer => exact .integer n
  | float h => cases htu with | float h' => exact .float (h.trans h')
  | complex hre him =>
    cases htu with | complex hre' him' => exact .complex (hre.trans hre') (him.trans him')
  | string content => cases htu with | string => exact .string content
  | func target => cases htu with | func => exact .func target
  | chan queue => cases htu with | chan => exact .chan queue
  | span h => cases htu with | span h' => exact .span (h.trans h')
  | instant h => cases htu with | instant h' => exact .instant (h.trans h')

end Scalar

/-- Spans and instants have an equality of their own, and nothing else has. -/
theorem Value.equals_yields {v w : Value} {equal : Bool}
    (hidentity : v.identity? = w.identity?) (hequal : (v.equals w).Yields equal) :
    ∃ s t, v = scalar s ∧ w = scalar t ∧ (equal ↔ s.Equal t) := by
  unfold equals at hequal
  split at hequal
  · exact (not_yields_fail _ hequal).elim
  · exact (not_yields_fail _ hequal).elim
  · exact (not_yields_fail _ hequal).elim
  · exact (not_yields_fail _ hequal).elim
  · rw [if_neg (by simp [hidentity])] at hequal
    split at hequal
    · rename_i type period m type' period' n _ _ _ _
      obtain ⟨rfl, rfl⟩ : type = type' ∧ period = period' := by
        simpa [identity?, ty?, Scalar.ty, Ty.identity] using hidentity
      obtain rfl := yields_pure.mp hequal
      refine ⟨_, _, rfl, rfl, Binary.equal_iff.trans ⟨.span, ?_⟩⟩
      rintro ⟨⟩
      assumption
    · rename_i type period m type' period' n _ _ _ _
      obtain ⟨rfl, rfl⟩ : type = type' ∧ period = period' := by
        simpa [identity?, ty?, Scalar.ty, Ty.identity] using hidentity
      obtain rfl := yields_pure.mp hequal
      refine ⟨_, _, rfl, rfl, Binary.equal_iff.trans ⟨.instant, ?_⟩⟩
      rintro ⟨⟩
      assumption
    · exact (not_yields_fail _ hequal).elim

namespace Comparison

/-- Leaves are equal exactly if the comparator says so. -/
theorem scalarsAgree_yields_true_iff {s t : Scalar} :
    (scalarsAgree s t).Yields true ↔ s.Equal t := by
  constructor
  · intro hequal
    unfold scalarsAgree at hequal
    split at hequal
    case h_8 =>
      by_cases hidentity : (Value.scalar s).identity? = (Value.scalar t).identity?
      · obtain ⟨s', t', hs, ht, hiff⟩ := Value.equals_yields hidentity hequal
        cases hs
        cases ht
        exact hiff.mp rfl
      · simp [Value.equals, hidentity] at hequal
    all_goals simp only [yields_pure, beq_iff_eq, Bool.and_eq_true, Binary.equal_iff] at hequal
    · exact hequal ▸ .bool _
    · exact hequal ▸ .integer _
    · exact .float hequal
    · exact .complex hequal.1 hequal.2
    · exact hequal ▸ .string _
    · exact hequal ▸ .func _
    · exact hequal ▸ .chan _
  · intro h
    cases h with
    | float h => simpa [scalarsAgree, Binary.equal_iff] using h
    | complex hre him => simpa [scalarsAgree, Binary.equal_iff] using ⟨hre, him⟩
    | span h => simpa [scalarsAgree, Value.equals, Value.identity?, Value.ty?, Scalar.ty,
        Binary.equal_iff] using h
    | instant h => simpa [scalarsAgree, Value.equals, Value.identity?, Value.ty?, Scalar.ty,
        Binary.equal_iff] using h
    | _ => simp [scalarsAgree]

instance (s t : Scalar) : Decidable (s.Equal t) :=
  decidable_of_iff _ scalarsAgree_yields_true_iff

/-- The comparator of leaves decides their equality. -/
theorem scalarsAgree_yields {s t : Scalar} {equal : Bool}
    (hequal : (scalarsAgree s t).Yields equal) : equal = decide (s.Equal t) := by
  rw [Bool.eq_iff_iff, decide_eq_true_iff, ← scalarsAgree_yields_true_iff]
  exact ⟨fun h ↦ h ▸ hequal, fun h ↦ hequal.unique h⟩

/-- A complex number of extended precision without an imaginary part. -/
def preciseComplex (re : Binary) : Value :=
  .scalar (.complex .extended re (.ofInt 0))

/-- What is lost in double precision makes no difference. -/
example : (Scalar.complex .extended (.finite false (2 ^ 60 + 1) (-60)) (.ofInt 0)).Equal
    (.complex .extended (.ofInt 1) (.ofInt 0)) := by
  decide +kernel

end Comparison

end Discrepancy
