import Discrepancy.Proofs.OrderLaws
import Discrepancy.Value.Table

/-!
# Tables of keys

A table has its keys in strict order, or no two equal ones.  In such a table every key that equals
itself finds its own entry, and finding goes by equality alone, whatever the table is ordered by.
Two tables of one size with the keys of one among those of the other have the same keys; the
converse inclusion is a count.
-/

namespace Discrepancy

/-! ## Counting -/

section Counting

variable {α β : Type} {r : α → β → Prop} {xs : List α} {ys : List β}

/-- If all of `xs` have partners among `ys`, and no two of them the same one, then there are
partners enough to count, and none is left over where there are not more of `ys`. -/
theorem length_le_and_exists_of_partners
    (hapart : xs.Pairwise fun x x' ↦ ∀ y, r x y → ¬ r x' y) (hpartner : ∀ x ∈ xs, ∃ y ∈ ys, r x y) :
    xs.length ≤ ys.length ∧ (ys.length ≤ xs.length → ∀ y ∈ ys, ∃ x ∈ xs, r x y) := by
  induction xs generalizing ys with
  | nil =>
    refine ⟨Nat.zero_le _, fun hlen y hy ↦ ?_⟩
    rw [List.eq_nil_of_length_eq_zero (Nat.le_zero.mp hlen)] at hy
    cases hy
  | cons x xs ih =>
    obtain ⟨hhead, htail⟩ := List.pairwise_cons.mp hapart
    obtain ⟨y, hy, hxy⟩ := hpartner x List.mem_cons_self
    obtain ⟨before, after, rfl⟩ := List.append_of_mem hy
    have hothers : ∀ x' ∈ xs, ∃ y' ∈ before ++ after, r x' y' := by
      intro x' hx'
      obtain ⟨y', hy', hr⟩ := hpartner x' (List.mem_cons_of_mem x hx')
      have hne : y' ≠ y := fun h ↦ hhead x' hx' y hxy (h ▸ hr)
      refine ⟨y', ?_, hr⟩
      simp only [List.mem_append, List.mem_cons] at hy' ⊢
      exact hy'.imp_right fun h ↦ h.resolve_left hne
    obtain ⟨hle, hcover⟩ := ih htail hothers
    simp only [List.length_append, List.length_cons] at hle hcover ⊢
    refine ⟨by omega, fun hlen y' hy' ↦ ?_⟩
    rcases List.mem_append.mp hy' with hmem | hmem
    · obtain ⟨x', hx', hr⟩ := hcover (by omega) y' (List.mem_append_left _ hmem)
      exact ⟨x', List.mem_cons_of_mem x hx', hr⟩
    rcases List.mem_cons.mp hmem with rfl | hmem
    · exact ⟨x, List.mem_cons_self, hxy⟩
    · obtain ⟨x', hx', hr⟩ := hcover (by omega) y' (List.mem_append_right _ hmem)
      exact ⟨x', List.mem_cons_of_mem x hx', hr⟩

end Counting

/-! ## Tables -/

namespace Table

variable [Host] {α β : Type} {rule : KeyRule} {entries : List (Value × α)} {key k : Value} {a : α}

/-- No key comes twice, and keys in order come in strict order. -/
def Distinct (rule : KeyRule) (entries : List (Value × α)) : Prop :=
  entries.Pairwise fun a b ↦
    if rule.form.ordered then rule.less a.1 b.1 = true else rule.same a.1 b.1 = false

instance (rule : KeyRule) (entries : List (Value × α)) : Decidable (Distinct rule entries) :=
  inferInstanceAs (Decidable (List.Pairwise _ _))

theorem find?_cons_of_ordered (h : rule.form.ordered) (entry : Value × α)
    (rest : List (Value × α)) :
    find? rule key (entry :: rest) =
      if rule.less entry.1 key then find? rule key rest
      else if rule.less key entry.1 then none else some entry.2 := by
  simp [find?, h]

theorem find?_cons_of_unordered (h : rule.form.ordered = false) (entry : Value × α)
    (rest : List (Value × α)) :
    find? rule key (entry :: rest) =
      if rule.same entry.1 key then some entry.2 else find? rule key rest := by
  simp [find?, h]

variable [LawfulHost]

/-- Keys of a table never equal each other. -/
theorem Distinct.apart (h : Distinct rule entries) :
    entries.Pairwise fun a b ↦ ∀ k : Value, rule.same a.1 k → ¬ rule.same b.1 k := by
  refine h.imp fun {a b} hab k ha hb ↦ ?_
  have hsame := KeyRule.same_trans ha (KeyRule.same_symm hb)
  split at hab
  · exact KeyRule.not_less_of_same hsame hab
  · exact Bool.false_ne_true (hab.symm.trans hsame)

/-- A key of a table finds its own entry.  In a table without an order it has to equal itself. -/
theorem find?_of_mem (hdistinct : Distinct rule entries) (hmem : (key, a) ∈ entries)
    (hself : rule.form.ordered ∨ rule.same key key) : find? rule key entries = some a := by
  induction entries with
  | nil => cases hmem
  | cons entry rest ih =>
    obtain ⟨hhead, htail⟩ := List.pairwise_cons.mp hdistinct
    by_cases hordered : rule.form.ordered
    · rw [find?_cons_of_ordered hordered]
      rcases List.mem_cons.mp hmem with rfl | hmem
      · rw [if_neg (KeyRule.not_less_self key), if_neg (KeyRule.not_less_self key)]
      · have hless : rule.less entry.1 key := by simpa [hordered] using hhead _ hmem
        rw [if_pos hless]
        exact ih htail hmem
    · rw [find?_cons_of_unordered (eq_false_of_ne_true hordered)]
      rcases List.mem_cons.mp hmem with rfl | hmem
      · rw [if_pos (hself.resolve_left hordered)]
      · have hsame : rule.same entry.1 key = false := by simpa [hordered] using hhead _ hmem
        rw [if_neg (ne_true_of_eq_false hsame)]
        exact ih htail hmem

/-- Without an order, only keys that equal themselves find anything. -/
theorem ordered_or_same_of_find? (hfound : find? rule key entries = some a) :
    rule.form.ordered ∨ rule.same key key := by
  by_cases hordered : rule.form.ordered
  · exact .inl hordered
  · refine .inr ?_
    induction entries with
    | nil => cases hfound
    | cons entry rest ih =>
      rw [find?_cons_of_unordered (eq_false_of_ne_true hordered)] at hfound
      split_ifs at hfound with hsame
      · exact KeyRule.same_self (KeyRule.same_symm hsame)
      · exact ih hfound

/-- What is found stands under an equal key, where keys equal themselves. -/
theorem exists_same_of_find? (hkey : rule.same key key)
    (hself : ∀ entry ∈ entries, rule.same entry.1 entry.1)
    (hfound : find? rule key entries = some a) : ∃ k, (k, a) ∈ entries ∧ rule.same k key := by
  induction entries with
  | nil => cases hfound
  | cons entry rest ih =>
    obtain ⟨hhead, htail⟩ := List.forall_mem_cons.mp hself
    have hlater (h : find? rule key rest = some a) :
        ∃ k, (k, a) ∈ entry :: rest ∧ rule.same k key :=
      (ih htail h).imp fun _ ↦ And.imp_left (List.mem_cons_of_mem entry)
    have hfirst (hsame : rule.same entry.1 key) (h : some entry.2 = some a) :
        ∃ k, (k, a) ∈ entry :: rest ∧ rule.same k key := by
      obtain rfl := Option.some.inj h
      exact ⟨entry.1, List.mem_cons_self, hsame⟩
    by_cases hordered : rule.form.ordered
    · rw [find?_cons_of_ordered hordered] at hfound
      split_ifs at hfound with hless hgreater
      · exact hlater hfound
      · have htotal := KeyRule.less_or_same_or_less hhead hkey
        exact hfirst ((htotal.resolve_left hless).resolve_right hgreater) hfound
    · rw [find?_cons_of_unordered (eq_false_of_ne_true hordered)] at hfound
      split_ifs at hfound with hsame
      · exact hfirst hsame hfound
      · exact hlater hfound

/-- Keys that are equal find the same. -/
theorem find?_congr {key' : Value} (h : rule.same key key') (entries : List (Value × α)) :
    find? rule key entries = find? rule key' entries := by
  have hless (k : Value) : rule.less k key = rule.less k key' := Bool.eq_iff_iff.mpr
    ⟨fun hk ↦ KeyRule.less_of_less_of_same hk h,
      fun hk ↦ KeyRule.less_of_less_of_same hk (KeyRule.same_symm h)⟩
  have hgreater (k : Value) : rule.less key k = rule.less key' k := Bool.eq_iff_iff.mpr
    ⟨fun hk ↦ KeyRule.less_of_same_of_less (KeyRule.same_symm h) hk,
      fun hk ↦ KeyRule.less_of_same_of_less h hk⟩
  have hsame (k : Value) : rule.same k key = rule.same k key' := Bool.eq_iff_iff.mpr
    ⟨fun hk ↦ KeyRule.same_trans hk h, fun hk ↦ KeyRule.same_trans hk (KeyRule.same_symm h)⟩
  induction entries with
  | nil => rfl
  | cons entry rest ih => simp only [find?, hless, hgreater, hsame, ih]

/-- Finding goes by equality of keys. -/
theorem find?_eq_some_iff (hdistinct : Distinct rule entries) (hkey : rule.same key key)
    (hself : ∀ entry ∈ entries, rule.same entry.1 entry.1) :
    find? rule key entries = some a ↔ ∃ k, (k, a) ∈ entries ∧ rule.same k key := by
  refine ⟨exists_same_of_find? hkey hself, fun ⟨k, hmem, hsame⟩ ↦ ?_⟩
  rw [← find?_congr hsame]
  exact find?_of_mem hdistinct hmem (.inr (hself _ hmem))

/-- A table whose keys are all found in another one is not larger; if it is not smaller either, then
the keys of the other one are found in it as well. -/
theorem length_le_of_found {others : List (Value × β)} (hdistinct : Distinct rule entries)
    (hself : ∀ entry ∈ entries, rule.same entry.1 entry.1)
    (hself' : ∀ other ∈ others, rule.same other.1 other.1)
    (hfound : ∀ k a, (k, a) ∈ entries → (find? rule k others).isSome) :
    entries.length ≤ others.length ∧ (others.length ≤ entries.length →
      ∀ k b, (k, b) ∈ others → (find? rule k entries).isSome) := by
  have hpartner : ∀ entry ∈ entries, ∃ other ∈ others, rule.same entry.1 other.1 := by
    intro entry hmem
    obtain ⟨b, hb⟩ := Option.isSome_iff_exists.mp (hfound entry.1 entry.2 hmem)
    obtain ⟨k, hk, hsame⟩ := exists_same_of_find? (hself entry hmem) hself' hb
    exact ⟨(k, b), hk, KeyRule.same_symm hsame⟩
  have hapart : entries.Pairwise fun a b ↦ ∀ other : Value × β,
      rule.same a.1 other.1 → ¬ rule.same b.1 other.1 :=
    List.Pairwise.imp (fun h (other : Value × β) ↦ h other.1) hdistinct.apart
  obtain ⟨hle, hcover⟩ := length_le_and_exists_of_partners hapart hpartner
  refine ⟨hle, fun hlen k b hmem ↦ ?_⟩
  obtain ⟨entry, hentry, hsame⟩ := hcover hlen (k, b) hmem
  have hfind := (find?_eq_some_iff (a := entry.2) hdistinct (hself' _ hmem) hself).mpr
    ⟨entry.1, hentry, hsame⟩
  rw [hfind]
  rfl

end Table

end Discrepancy
