import Discrepancy.Proofs.LeafEquality
import Discrepancy.Proofs.OrderLaws
import Discrepancy.Proofs.Parts
import Discrepancy.Sample.Host

/-!
# Laws of the natural order of keys

The laws are lifted from the numbers through the lists of parts to all values, by induction on their
size.  With them the sample host is lawful.
-/

namespace Discrepancy

/-! ## Scalars -/

namespace Binary

/-- The order of numbers is lawful. -/
theorem orderLaws (p : Binary → Prop) : OrderLaws order p :=
  (OrderLaws.ofPartial size?).congr fun x y _ _ ↦ order_eq x y

end Binary

theorem Text.order_lt_iff {s t : Text} : Text.order s t = .lt ↔ Text.le s t ∧ s ≠ t := by
  unfold Text.order
  by_cases h : s = t
  · simp [h]
  · by_cases hle : Text.le s t <;> simp [h, hle]

theorem Text.order_eq_iff {s t : Text} : Text.order s t = .eq ↔ s = t := by
  unfold Text.order
  by_cases h : s = t
  · simp [h]
  · by_cases hle : Text.le s t <;> simp [h, hle]

/-- Exchanging two texts turns their order around. -/
theorem Text.order_swap (s t : Text) : Text.order t s = (Text.order s t).swap := by
  unfold Text.order
  by_cases h : s = t
  · simp [h]
  · have h' : t ≠ s := fun he ↦ h he.symm
    by_cases hle : Text.le s t
    · have hnot : ¬ Text.le t s = true := fun hle' ↦ h (Text.le_antisymm hle hle')
      simp [h, h', hle, hnot]
    · have hle' := (Text.le_total s t).resolve_left hle
      simp [h, h', hle, hle']

/-- The bytewise order is lawful. -/
theorem Text.orderLaws (p : Text → Prop) : OrderLaws (fun s t ↦ some (Text.order s t)) p where
  swap {s t} _ _ := congrArg some (Text.order_swap s t)
  trans {s t u a b} _ _ _ hst htu ha hb := by
    obtain rfl := Option.some.inj hst
    obtain rfl := Option.some.inj htu
    by_cases hst' : s = t
    · subst hst'
      rw [Text.order_eq_iff.mpr rfl]
      rfl
    by_cases htu' : t = u
    · subst htu'
      rw [Text.order_eq_iff.mpr rfl, Ordering.then_eq]
    have hlt := eq_lt_of_isLE ha fun h ↦ hst' (Text.order_eq_iff.mp h)
    have hlt' := eq_lt_of_isLE hb fun h ↦ htu' (Text.order_eq_iff.mp h)
    have hle := Text.le_trans (Text.order_lt_iff.mp hlt).1 (Text.order_lt_iff.mp hlt').1
    have hne : s ≠ u := fun h ↦
      hst' (Text.le_antisymm (Text.order_lt_iff.mp hlt).1 (h ▸ (Text.order_lt_iff.mp hlt').1))
    rw [hlt, Text.order_lt_iff.mpr ⟨hle, hne⟩]
    rfl
  total _ _ _ _ := rfl

theorem orderContents_eq_iff {s t : Option Text} : orderContents s t = .eq ↔ s = t := by
  cases s <;> cases t <;> simp [orderContents, Text.order_eq_iff]

/-- Nil comes before all texts. -/
theorem orderContents_laws (p : Option Text → Prop) :
    OrderLaws (fun s t ↦ some (orderContents s t)) p := by
  refine ((Text.orderLaws fun _ ↦ True).lists.comap Option.toList fun _ _ _ _ ↦ trivial).congr
    fun s t _ _ ↦ ?_
  cases s <;> cases t
  · rfl
  · rfl
  · rfl
  · exact (lexicographic_some_eq _).symm

theorem orderBool_laws (p : Bool → Prop) : OrderLaws (fun a b ↦ some (orderBool a b)) p :=
  OrderLaws.ofLinear Bool.toNat

theorem orderBool_eq_iff {a b : Bool} : orderBool a b = .eq ↔ a = b := by
  cases a <;> cases b <;> decide

/-- Nothing comes before all identities. -/
theorem orderIdentity_laws (p : Option Identity → Prop) :
    OrderLaws (fun a b ↦ some (orderIdentity a b)) p := by
  refine (OrderLaws.ofLinear fun a : Option Identity ↦ a.elim 0 (· + 1)).congr fun a b _ _ ↦ ?_
  cases a <;> cases b
  · rfl
  · rfl
  · rfl
  · exact congrArg some (compare_map (fun _ _ ↦ Nat.succ_lt_succ) _ _).symm

theorem orderIdentity_eq_iff {a b : Option Identity} : orderIdentity a b = .eq ↔ a = b := by
  cases a <;> cases b <;> simp [orderIdentity]

namespace Scalar

/-- Borrowed strings come after others, and are ordered by their places. -/
theorem orderStrings_laws :
    OrderLaws (fun a b : StringTy × Option Text × Identity ↦
      order (string a.1 a.2.1 a.2.2) (string b.1 b.2.1 b.2.2)) fun _ ↦ True := by
  refine OrderLaws.lexicographicOn ((orderBool_laws fun _ ↦ True).comap
    (fun b : StringTy × Option Text × Identity ↦ b.1.isBorrowed) fun _ _ ↦ trivial) fun x _ ↦ ?_
  by_cases hborrowed : x.1.isBorrowed
  · refine ((orderIdentity_laws fun _ ↦ True).comap
      (fun b : StringTy × Option Text × Identity ↦ b.2.1.map fun _ ↦ b.2.2)
      fun _ _ ↦ trivial).congr fun a b ha _ ↦ ?_
    rw [← orderBool_eq_iff.mp (Option.some.inj ha.2), hborrowed]
    rfl
  · refine ((orderContents_laws fun _ ↦ True).comap
      (fun b : StringTy × Option Text × Identity ↦ b.2.1) fun _ _ ↦ trivial).congr
      fun a b ha _ ↦ ?_
    rw [← orderBool_eq_iff.mp (Option.some.inj ha.2), eq_false_of_ne_true hborrowed]
    rfl

/-- The order of scalars is lawful: within one make it is the order of their contents. -/
theorem orderLaws (p : Scalar → Prop) : OrderLaws order p := by
  refine OrderLaws.byRank rank (fun s t _ _ hne ↦ ?_) fun s _ ↦ ?_
  · cases s <;> cases t <;> first | rfl | exact absurd rfl hne
  have made {β : Type} (make : β → Scalar) (hmake : ∀ t, rank s = rank t → ∃ b, make b = t)
      (laws : OrderLaws (fun a b ↦ order (make a) (make b)) fun _ ↦ True) :
      OrderLaws order fun t ↦ p t ∧ rank s = rank t :=
    OrderLaws.ofImage make laws fun t ht ↦ (hmake t ht.2).imp fun _ h ↦ ⟨trivial, h⟩
  have number := Binary.orderLaws fun _ ↦ True
  have identity := orderIdentity_laws fun _ ↦ True
  cases s with
  | bool => exact made bool (by rintro ⟨⟩ <;> simp [rank]) (orderBool_laws _)
  | integer =>
    exact made (fun b : IntegerTy × Int ↦ integer b.1 b.2) (by rintro ⟨⟩ <;> simp [rank])
      (OrderLaws.ofLinear Prod.snd)
  | float =>
    exact made (fun b : FloatTy × Binary ↦ float b.1 b.2) (by rintro ⟨⟩ <;> simp [rank])
      (number.comap Prod.snd fun _ _ ↦ trivial)
  | complex =>
    exact made (fun b : FloatTy × Binary × Binary ↦ complex b.1 b.2.1 b.2.2)
      (by rintro ⟨⟩ <;> simp [rank])
      ((number.comap (fun b : FloatTy × Binary × Binary ↦ b.2.1) fun _ _ ↦ trivial).lexicographic
        (number.comap (fun b : FloatTy × Binary × Binary ↦ b.2.2) fun _ _ ↦ trivial))
  | string =>
    exact made (fun b : StringTy × Option Text × Identity ↦ string b.1 b.2.1 b.2.2)
      (by rintro ⟨⟩ <;> simp [rank]) orderStrings_laws
  | func =>
    exact made (fun b : FunctionForm × Ty × List Ty × Option Identity ↦
      func b.1 b.2.1 b.2.2.1 b.2.2.2) (by rintro ⟨⟩ <;> simp [rank])
      (identity.comap (fun b : FunctionForm × Ty × List Ty × Option Identity ↦ b.2.2.2)
        fun _ _ ↦ trivial)
  | chan =>
    exact made (fun b : Text × Option Identity ↦ chan b.1 b.2) (by rintro ⟨⟩ <;> simp [rank])
      (identity.comap Prod.snd fun _ _ ↦ trivial)
  | span =>
    exact made (fun b : AtomTy × Period × Binary ↦ span b.1 b.2.1 b.2.2)
      (by rintro ⟨⟩ <;> simp [rank])
      (number.comap (fun b : AtomTy × Period × Binary ↦ b.2.2) fun _ _ ↦ trivial)
  | instant =>
    exact made (fun b : AtomTy × Period × Binary ↦ instant b.1 b.2.1 b.2.2)
      (by rintro ⟨⟩ <;> simp [rank])
      (number.comap (fun b : AtomTy × Period × Binary ↦ b.2.2) fun _ _ ↦ trivial)
  | sealed =>
    exact made (fun b : Text × Kind ↦ sealed b.1 b.2) (by rintro ⟨⟩ <;> simp [rank])
      (OrderLaws.ofPartial fun _ ↦ (none : Option Nat))

end Scalar

/-! ## Values -/

namespace Value

theorem orderFields_eq (fields others : List (Text × Value)) :
    orderFields fields others =
      orderLists order (fields.map Prod.snd) (others.map Prod.snd) := by
  induction fields generalizing others with
  | nil => cases others <;> rfl
  | cons field rest ih =>
    cases others with
    | nil => rfl
    | cons other others => simp only [orderFields, List.map_cons, orderLists, ih]

theorem orderElements_eq (elements others : List Value) :
    orderElements elements others = orderLists order elements others := by
  induction elements generalizing others with
  | nil => cases others <;> rfl
  | cons v rest ih =>
    cases others with
    | nil => rfl
    | cons w others => simp only [orderElements, orderLists, ih]

theorem orderEntries_eq (entries others : List (Value × Value)) :
    orderEntries entries others = orderLists order (flatEntries entries) (flatEntries others) := by
  induction entries generalizing others with
  | nil => cases others <;> rfl
  | cons entry rest ih =>
    cases others with
    | nil => rfl
    | cons other others =>
      simp only [orderEntries, ih, flatEntries, List.flatMap_cons, List.cons_append,
        List.nil_append, orderLists]

/-- Values of different makes are ordered by their makes alone. -/
theorem order_of_rank_ne {v w : Value} (h : v.rank ≠ w.rank) : order v w = orderRanks v w := by
  cases v with
  | pointer form target pointee =>
    cases pointee <;> cases w <;> first | rfl | exact absurd rfl h
  | _ => cases w <;> first | rfl | exact absurd rfl h

/-- Two objects of pointers: those which pointers hold are compared, others are told apart. -/
def orderObjects (form : PointerForm) (a b : Identity × Value) : Option Ordering :=
  if form == .optional then order a.2 b.2 else some (compare a.1 b.1)

/-- Pointers are ordered by form first, and then like lists of at most one object. -/
theorem order_pointer (form form' : PointerForm) (target target' : Ty)
    (pointee pointee' : Option (Identity × Value)) :
    order (pointer form target pointee) (pointer form' target' pointee') =
      lexicographic (orderForms form form')
        (orderLists (orderObjects form) pointee.toList pointee'.toList) := by
  cases pointee <;> cases pointee' <;>
    simp [order, orderLists, orderObjects, lexicographic_some_eq]

theorem orderObjects_laws {p : Value → Prop} (laws : OrderLaws order p) (form : PointerForm) :
    OrderLaws (orderObjects form) fun a ↦ p a.2 := by
  by_cases hform : form = .optional
  · exact (laws.comap Prod.snd fun _ h ↦ h).congr fun a b _ _ ↦ by simp [orderObjects, hform]
  · exact (OrderLaws.ofLinear Prod.fst).congr fun a b _ _ ↦ by simp [orderObjects, hform]

theorem orderForms_eq_some_eq {form form' : PointerForm} (h : orderForms form form' = some .eq) :
    orderObjects form' = orderObjects form := by
  cases form <;> cases form' <;> first | rfl | cases h

section Makes

variable {p : Value → Prop} (laws : OrderLaws order p)
include laws

theorem pointerLaws :
    OrderLaws (fun a b : PointerForm × Ty × Option (Identity × Value) ↦
      order (pointer a.1 a.2.1 a.2.2) (pointer b.1 b.2.1 b.2.2))
      fun b ↦ ∀ u ∈ (pointer b.1 b.2.1 b.2.2).parts, p u := by
  refine (OrderLaws.lexicographicOn ((orderBool_laws fun _ ↦ True).comap
    (fun b : PointerForm × Ty × Option (Identity × Value) ↦ b.1 == .optional)
    fun _ _ ↦ trivial) fun x _ ↦ ?_).congr fun a b _ _ ↦ order_pointer a.1 b.1 _ _ a.2.2 b.2.2
  refine ((orderObjects_laws laws x.1).lists.comap
    (fun b : PointerForm × Ty × Option (Identity × Value) ↦ b.2.2.toList)
    fun b hb a ha ↦ hb.1 a.2 ?_).congr fun a b ha _ ↦ ?_
  · rw [orderForms_eq_some_eq ha.2]
  · have hpointee : b.2.2 = some a := Option.mem_toList.mp ha
    simp [parts, hpointee]

/-- Maps as keys are ordered by form first, and then by their entries in a row. -/
theorem mapLaws :
    OrderLaws (fun a b : KeyRule × Ty × Ty × Identity × List (Value × Value) ↦
      order (map a.1 a.2.1 a.2.2.1 a.2.2.2.1 a.2.2.2.2) (map b.1 b.2.1 b.2.2.1 b.2.2.2.1 b.2.2.2.2))
      fun b ↦ ∀ u ∈ flatEntries b.2.2.2.2, p u := by
  refine OrderLaws.lexicographicOn ((orderBool_laws fun _ ↦ True).comap
    (fun b : KeyRule × Ty × Ty × Identity × List (Value × Value) ↦ b.1.form.ordered)
    fun _ _ ↦ trivial) fun x _ ↦ ?_
  by_cases hordered : x.1.form.ordered
  · refine (laws.lists.comap (fun b : KeyRule × Ty × Ty × Identity × List (Value × Value) ↦
      flatEntries b.2.2.2.2) fun b hb ↦ hb.1).congr fun a b ha _ ↦ ?_
    rw [← orderBool_eq_iff.mp (Option.some.inj ha.2), if_pos hordered, orderEntries_eq]
  · refine (OrderLaws.ofPartial fun _ ↦ (none : Option Nat)).congr fun a b ha _ ↦ ?_
    rw [← orderBool_eq_iff.mp (Option.some.inj ha.2), if_neg hordered]
    rfl

theorem interfaceLaws :
    OrderLaws (fun a b : InterfaceTy × Option Nat × Value ↦
      order (interface a.1 a.2.1 a.2.2) (interface b.1 b.2.1 b.2.2)) fun b ↦ p b.2.2 := by
  refine OrderLaws.lexicographicOn ((orderIdentity_laws fun _ ↦ True).comap
    (fun b : InterfaceTy × Option Nat × Value ↦ b.2.1) fun _ _ ↦ trivial) fun x _ ↦ ?_
  rcases x with ⟨type, _ | i, content⟩
  · refine (OrderLaws.ofLinear fun _ ↦ 0).congr fun a b ha _ ↦ ?_
    rw [← orderIdentity_eq_iff.mp (Option.some.inj ha.2)]
    rfl
  · refine (laws.comap (fun b : InterfaceTy × Option Nat × Value ↦ b.2.2) fun b hb ↦ hb.1).congr
      fun a b ha _ ↦ ?_
    rw [← orderIdentity_eq_iff.mp (Option.some.inj ha.2)]
    rfl

end Makes

/-- The order of values is lawful, by induction on their size. -/
theorem orderLaws_of_size (n : Nat) : OrderLaws order fun v ↦ sizeOf v < n := by
  induction n with
  | zero => exact (OrderLaws.ofLinear fun _ ↦ 0).congr fun v w hv ↦ absurd hv (Nat.not_lt_zero _)
  | succ n ih =>
    refine OrderLaws.byRank rank (fun v w _ _ hne ↦ order_of_rank_ne hne) fun v _ ↦ ?_
    have made {β : Type} (make : β → Value) (q : β → Prop)
        (hmake : ∀ w, (∀ u ∈ w.parts, sizeOf u < n) → rank v = rank w → ∃ b, q b ∧ make b = w)
        (laws : OrderLaws (fun a b ↦ order (make a) (make b)) q) :
        OrderLaws order fun w ↦ sizeOf w < n + 1 ∧ rank v = rank w :=
      OrderLaws.ofImage make laws fun w hw ↦ hmake w
        (fun u hu ↦ Nat.lt_of_lt_of_le (sizeOf_lt_of_mem_parts hu) (Nat.lt_succ_iff.mp hw.1)) hw.2
    cases v with
    | absent =>
      refine made (fun _ : Unit ↦ absent) (fun _ ↦ True) (fun w _ hrank ↦ ?_)
        (OrderLaws.ofLinear fun _ ↦ 0)
      cases w <;> simp [rank] at hrank ⊢
    | scalar s =>
      refine made scalar (fun _ ↦ True) (fun w _ hrank ↦ ?_) (Scalar.orderLaws _)
      cases w <;> simp [rank] at hrank ⊢
    | hidden type =>
      refine made hidden (fun _ ↦ True) (fun w _ hrank ↦ ?_)
        (OrderLaws.ofPartial fun _ ↦ (none : Option Nat))
      cases w <;> simp [rank] at hrank ⊢
    | pointer form target pointee =>
      refine made (fun b : PointerForm × Ty × Option (Identity × Value) ↦ pointer b.1 b.2.1 b.2.2)
        (fun b ↦ ∀ u ∈ (pointer b.1 b.2.1 b.2.2).parts, sizeOf u < n) (fun w hsize hrank ↦ ?_)
        (pointerLaws ih)
      cases w <;> simp [rank] at hrank
      exact ⟨(_, _, _), hsize, rfl⟩
    | record name fields =>
      refine made (fun b : Text × List (Text × Value) ↦ record b.1 b.2)
        (fun b ↦ ∀ u ∈ b.2.map Prod.snd, sizeOf u < n) (fun w hsize hrank ↦ ?_)
        ((ih.lists.comap (fun b : Text × List (Text × Value) ↦ b.2.map Prod.snd)
          fun _ h ↦ h).congr fun a b _ _ ↦ orderFields_eq a.2 b.2)
      cases w <;> simp [rank] at hrank
      exact ⟨(_, _), hsize, rfl⟩
    | sequence form element storage elements =>
      refine made (fun b : SequenceForm × Ty × Option Identity × List Value ↦
        sequence b.1 b.2.1 b.2.2.1 b.2.2.2) (fun b ↦ ∀ u ∈ b.2.2.2, sizeOf u < n)
        (fun w hsize hrank ↦ ?_)
        ((ih.lists.comap (fun b : SequenceForm × Ty × Option Identity × List Value ↦ b.2.2.2)
          fun _ h ↦ h).congr fun a b _ _ ↦ orderElements_eq _ _)
      cases w <;> simp [rank] at hrank
      exact ⟨(_, _, _, _), hsize, rfl⟩
    | map rule key mapped storage entries =>
      refine made (fun b : KeyRule × Ty × Ty × Identity × List (Value × Value) ↦
        map b.1 b.2.1 b.2.2.1 b.2.2.2.1 b.2.2.2.2)
        (fun b ↦ ∀ u ∈ flatEntries b.2.2.2.2, sizeOf u < n) (fun w hsize hrank ↦ ?_) (mapLaws ih)
      cases w <;> simp [rank] at hrank
      exact ⟨(_, _, _, _, _), hsize, rfl⟩
    | interface type alternative content =>
      refine made (fun b : InterfaceTy × Option Nat × Value ↦ interface b.1 b.2.1 b.2.2)
        (fun b ↦ sizeOf b.2.2 < n) (fun w hsize hrank ↦ ?_) (interfaceLaws ih)
      cases w <;> simp [rank] at hrank
      exact ⟨(_, _, _), hsize _ List.mem_cons_self, rfl⟩

/-- The order of values is lawful. -/
theorem orderLaws : OrderLaws order fun _ ↦ True where
  swap {v w} _ _ :=
    (orderLaws_of_size (sizeOf v + sizeOf w + 1)).swap (by omega) (by omega)
  trans {u v w _ _} _ _ _ :=
    (orderLaws_of_size (sizeOf u + sizeOf v + sizeOf w + 1)).trans (by omega) (by omega) (by omega)
  total {v w} _ _ :=
    (orderLaws_of_size (sizeOf v + sizeOf w + 1)).total (by omega) (by omega)

end Value

namespace Value

theorem order_string_self (type : StringTy) (content : Option Text) (place : Identity) :
    (scalar (.string type content place)).order (scalar (.string type content place)) =
      some .eq := by
  have hself : orderStrings type.isBorrowed content content place place = .eq := by
    unfold orderStrings
    split <;> simp [orderIdentity_eq_iff, orderContents_eq_iff]
  simp [order, Scalar.order, orderBool_eq_iff.mpr, hself, lexicographic]

/-- Literals equal themselves in the natural order. -/
theorem IsLiteral.order_self {v : Value} (h : v.IsLiteral) : v.order v = some .eq := by
  unfold IsLiteral at h
  split at h
  · simp [order, Scalar.order, orderBool_eq_iff]
  · simp [order, Scalar.order]
  · exact order_string_self ..
  · exact h.elim

end Value

section

open scoped Sample

/-- To fold the case of a key changes nothing about whether it equals itself. -/
theorem Sample.order_self_iff (rule : KeyRule) {key : Value} :
    Host.order rule key key = some .eq ↔ key.order key = some .eq := by
  by_cases hfold : rule.form.comparator.isSome && rule.state == 0
  · refine (Eq.congr_left (if_pos hfold)).trans ?_
    unfold lowered
    split
    · exact iff_of_true (Value.order_string_self ..) (Value.order_string_self ..)
    · rfl
  · exact Eq.congr_left (if_neg hfold)

/-- The natural order is lawful, and it remains so where the case of strings is left out. -/
instance Sample.lawfulHost : LawfulHost where
  orderLaws rule := by
    have hnatural := Value.orderLaws
    by_cases hfold : rule.form.comparator.isSome && rule.state == 0
    · exact (hnatural.comap lowered fun _ _ ↦ trivial).congr fun a b _ _ ↦ if_pos hfold
    · exact hnatural.congr fun a b _ _ ↦ if_neg hfold
  same_self_congr {rule rule'} _ {key} h :=
    (Sample.order_self_iff rule').mpr ((Sample.order_self_iff rule).mp h)
  same_self_of_literal rule {key} h := (Sample.order_self_iff rule).mpr h.order_self

end

/-- A map with one entry whose comparator folds case, depending on its state. -/
def Sample.foldedMap (state : Nat) (storage : Identity) (key : Text) (n : Int) : Value :=
  .map { form := foldingCase, state := state } string int storage
    [(.scalar (.string .owned (some key)), .scalar (.integer .int n))]

end Discrepancy
