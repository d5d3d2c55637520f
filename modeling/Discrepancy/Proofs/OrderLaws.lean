import Mathlib.Order.Compare
import Mathlib.Order.Nat
import Discrepancy.Host
import Discrepancy.Value.Order

/-!
# Laws of orders

A map takes it that its comparator orders the keys, as a partial order does: not-a-number, for
example, stands in no order, itself included.  On the keys that equal themselves such an order is
total, and its equality is an equivalence.  A host is lawful when all of its comparators are.  Of a
comparator that knows nothing but equality there is only the equality to be seen, and any order of
the classes of equal keys will do.
-/

namespace Discrepancy

/-- The laws of a partial order on the things with `p`. -/
structure OrderLaws {α : Type} (cmp : α → α → Option Ordering) (p : α → Prop) : Prop where
  swap {x y : α} : p x → p y → cmp y x = (cmp x y).map Ordering.swap
  trans {x y z : α} {a b : Ordering} : p x → p y → p z → cmp x y = some a → cmp y z = some b →
    a.isLE → b.isLE → cmp x z = some (a.then b)
  total {x y : α} : p x → p y → cmp x x = some .eq → cmp y y = some .eq → (cmp x y).isSome

namespace OrderLaws

variable {α β : Type} {cmp cmp' : α → α → Option Ordering} {p q : α → Prop}

/-- The order of a linear order, partial where there is nothing to be compared. -/
theorem ofPartial [LinearOrder β] (f : α → Option β) :
    OrderLaws (fun x y ↦ (f x).bind fun a ↦ (f y).map fun b ↦ compare a b) p where
  swap {x y} _ _ := by
    cases hx : f x <;> cases hy : f y <;> simp
    exact Std.OrientedOrd.eq_swap
  trans {x y z a b} _ _ _ hxy hyz ha hb := by
    cases hx : f x <;> cases hy : f y <;> cases hz : f z <;> simp_all
    subst hxy hyz
    rename_i u v w
    rcases lt_trichotomy u v with h | rfl | h
    · have huw : u < w := h.trans_le (compare_le_iff_le.mp (Ordering.isLE_iff_ne_gt.mp hb))
      rw [compare_lt_iff_lt.mpr h, compare_lt_iff_lt.mpr huw]
      rfl
    · simp [Ordering.then]
    · rw [compare_gt_iff_gt.mpr h] at ha
      cases ha
  total {x y} _ _ hx hy := by
    cases hx' : f x <;> cases hy' : f y <;> simp_all

/-- The order of a linear order. -/
theorem ofLinear [LinearOrder β] (f : α → β) :
    OrderLaws (fun x y ↦ some (compare (f x) (f y))) p :=
  ofPartial fun x ↦ some (f x)

theorem mono (laws : OrderLaws cmp q) (h : ∀ x, p x → q x) : OrderLaws cmp p where
  swap hx hy := laws.swap (h _ hx) (h _ hy)
  trans hx hy hz := laws.trans (h _ hx) (h _ hy) (h _ hz)
  total hx hy := laws.total (h _ hx) (h _ hy)

theorem congr (laws : OrderLaws cmp p) (h : ∀ x y, p x → p y → cmp' x y = cmp x y) :
    OrderLaws cmp' p where
  swap {x y} hx hy := by
    rw [h x y hx hy, h y x hy hx]
    exact laws.swap hx hy
  trans {x y z a b} hx hy hz := by
    rw [h x y hx hy, h y z hy hz, h x z hx hz]
    exact laws.trans hx hy hz
  total {x y} hx hy := by
    rw [h x x hx hx, h y y hy hy, h x y hx hy]
    exact laws.total hx hy

/-- Things are ordered like what stands for them. -/
theorem comap {cmp : β → β → Option Ordering} {q : β → Prop} (laws : OrderLaws cmp q) (f : α → β)
    (h : ∀ x, p x → q (f x)) : OrderLaws (fun x y ↦ cmp (f x) (f y)) p where
  swap hx hy := laws.swap (h _ hx) (h _ hy)
  trans hx hy hz := laws.trans (h _ hx) (h _ hy) (h _ hz)
  total hx hy := laws.total (h _ hx) (h _ hy)

/-- Things of one make are ordered like what they are made of. -/
theorem ofImage {q : β → Prop} (make : β → α) (laws : OrderLaws (fun a b ↦ cmp (make a) (make b)) q)
    (h : ∀ x, p x → ∃ b, q b ∧ make b = x) : OrderLaws cmp p where
  swap {x y} hx hy := by
    obtain ⟨a, ha, rfl⟩ := h x hx
    obtain ⟨b, hb, rfl⟩ := h y hy
    exact laws.swap ha hb
  trans {x y z _ _} hx hy hz := by
    obtain ⟨a, ha, rfl⟩ := h x hx
    obtain ⟨b, hb, rfl⟩ := h y hy
    obtain ⟨c, hc, rfl⟩ := h z hz
    exact laws.trans ha hb hc
  total {x y} hx hy := by
    obtain ⟨a, ha, rfl⟩ := h x hx
    obtain ⟨b, hb, rfl⟩ := h y hy
    exact laws.total ha hb

end OrderLaws

theorem lexicographic_some_eq (a : Option Ordering) : lexicographic a (some .eq) = a := by
  rcases a with _ | _ | _ | _ <;> rfl

theorem lexicographic_eq_some_eq {a b : Option Ordering} (h : lexicographic a b = some .eq) :
    a = some .eq ∧ b = some .eq := by
  rcases a with _ | _ | _ | _ <;> simp_all [lexicographic]

/-- A lexicographic order is decided by its second stage if the first one does not tell. -/
theorem lexicographic_eq_some {a b : Option Ordering} {o : Ordering}
    (h : lexicographic a b = some o) :
    (a = some .eq ∧ b = some o) ∨ (a = some o ∧ o ≠ .eq) := by
  rcases a with _ | _ | _ | _ <;> simp_all [lexicographic] <;> subst h <;> simp

theorem lexicographic_of_ne {a : Option Ordering} (b : Option Ordering) (h : a ≠ some .eq) :
    lexicographic a b = a := by
  rcases a with _ | _ | _ | _ <;> simp_all [lexicographic]

theorem lexicographic_swap (a b : Option Ordering) :
    lexicographic (a.map Ordering.swap) (b.map Ordering.swap) =
      (lexicographic a b).map Ordering.swap := by
  rcases a with _ | _ | _ | _ <;> rfl

theorem eq_lt_of_isLE {o : Ordering} (h : o.isLE) (hne : o ≠ .eq) : o = .lt := by
  cases o <;> simp_all

/-- Transitivity of three comparisons, in two stages of which the second one need not tell unless
the first one has not. -/
theorem lexicographic_trans {xy yz xz xy' yz' xz' : Option Ordering}
    (first : ∀ a b, xy = some a → yz = some b → a.isLE → b.isLE → xz = some (a.then b))
    (second : xy = some .eq → yz = some .eq → ∀ a b, xy' = some a → yz' = some b →
      a.isLE → b.isLE → xz' = some (a.then b))
    {a b : Ordering} (hxy : lexicographic xy xy' = some a) (hyz : lexicographic yz yz' = some b)
    (ha : a.isLE) (hb : b.isLE) : lexicographic xz xz' = some (a.then b) := by
  rcases lexicographic_eq_some hxy with ⟨hxy₁, hxy₂⟩ | ⟨hxy₁, hne⟩ <;>
    rcases lexicographic_eq_some hyz with ⟨hyz₁, hyz₂⟩ | ⟨hyz₁, hne'⟩
  · rw [first .eq .eq hxy₁ hyz₁ rfl rfl]
    exact second hxy₁ hyz₁ a b hxy₂ hyz₂ ha hb
  · obtain rfl := eq_lt_of_isLE hb hne'
    rw [first .eq .lt hxy₁ hyz₁ rfl rfl]
    cases a <;> first | rfl | cases ha
  · obtain rfl := eq_lt_of_isLE ha hne
    rw [first .lt .eq hxy₁ hyz₁ rfl rfl]
    rfl
  · obtain rfl := eq_lt_of_isLE ha hne
    obtain rfl := eq_lt_of_isLE hb hne'
    rw [first .lt .lt hxy₁ hyz₁ rfl rfl]
    rfl

namespace OrderLaws

variable {α : Type} {cmp first second : α → α → Option Ordering} {p : α → Prop}

theorem symm (laws : OrderLaws cmp p) {x y : α} (hx : p x) (hy : p y) (h : cmp x y = some .eq) :
    cmp y x = some .eq := by
  rw [laws.swap hx hy, h]
  rfl

theorem refl (laws : OrderLaws cmp p) {x y : α} (hx : p x) (hy : p y) (h : cmp x y = some .eq) :
    cmp x x = some .eq :=
  laws.trans hx hy hx h (laws.symm hx hy h) rfl rfl

/-- The second order needs its laws only among things which the first one does not tell apart. -/
theorem lexicographicOn (h₁ : OrderLaws first p)
    (h₂ : ∀ x, p x → OrderLaws second fun y ↦ p y ∧ first x y = some .eq) :
    OrderLaws (fun x y ↦ lexicographic (first x y) (second x y)) p where
  swap {x y} hx hy := by
    by_cases heq : first x y = some .eq
    · have hself := h₁.refl hx hy heq
      rw [h₁.swap hx hy, (h₂ x hx).swap ⟨hx, hself⟩ ⟨hy, heq⟩, lexicographic_swap]
    · have hne : first y x ≠ some .eq := fun h ↦ heq (h₁.symm hy hx h)
      rw [lexicographic_of_ne _ heq, lexicographic_of_ne _ hne]
      exact h₁.swap hx hy
  trans {x y z a b} hx hy hz hxy hyz ha hb := by
    refine lexicographic_trans (fun a b ↦ h₁.trans hx hy hz) (fun hxy' hyz' a b ↦ ?_) hxy hyz ha hb
    have hxz : first x z = some .eq := h₁.trans hx hy hz hxy' hyz' rfl rfl
    exact (h₂ x hx).trans ⟨hx, h₁.refl hx hy hxy'⟩ ⟨hy, hxy'⟩ ⟨hz, hxz⟩
  total {x y} hx hy hxx hyy := by
    obtain ⟨hxx₁, hxx₂⟩ := lexicographic_eq_some_eq hxx
    obtain ⟨hyy₁, hyy₂⟩ := lexicographic_eq_some_eq hyy
    by_cases heq : first x y = some .eq
    · rw [heq]
      exact (h₂ x hx).total ⟨hx, hxx₁⟩ ⟨hy, heq⟩ hxx₂ hyy₂
    · rw [lexicographic_of_ne _ heq]
      exact h₁.total hx hy hxx₁ hyy₁

theorem lexicographic (h₁ : OrderLaws first p) (h₂ : OrderLaws second p) :
    OrderLaws (fun x y ↦ Discrepancy.lexicographic (first x y) (second x y)) p :=
  lexicographicOn h₁ fun _ _ ↦ h₂.mono fun _ h ↦ h.1

/-- Things of different ranks are ordered by their ranks, those of one rank by an order of its
own. -/
theorem byRank (rank : α → Nat)
    (hrank : ∀ x y, p x → p y → rank x ≠ rank y → cmp x y = some (compare (rank x) (rank y)))
    (h : ∀ x, p x → OrderLaws cmp fun y ↦ p y ∧ rank x = rank y) : OrderLaws cmp p := by
  have hfirst : OrderLaws (fun x y ↦ some (compare (rank x) (rank y))) p := ofLinear rank
  have hboth : OrderLaws
      (fun x y ↦ Discrepancy.lexicographic (some (compare (rank x) (rank y))) (cmp x y)) p :=
    lexicographicOn hfirst fun x hx ↦ (h x hx).mono fun y hy ↦
      ⟨hy.1, compare_eq_iff_eq.mp (Option.some.inj hy.2)⟩
  refine hboth.congr fun x y hx hy ↦ ?_
  by_cases heq : rank x = rank y
  · simp [heq, Discrepancy.lexicographic]
  · have hne : some (compare (rank x) (rank y)) ≠ some .eq := fun h ↦
      heq (compare_eq_iff_eq.mp (Option.some.inj h))
    rw [lexicographic_of_ne _ hne]
    exact hrank x y hx hy heq

end OrderLaws

/-! ## Lists -/

/-- The order of two lists by an order of their members. -/
def orderLists {α : Type} (cmp : α → α → Option Ordering) : List α → List α → Option Ordering
  | [], [] => some .eq
  | [], _ :: _ => some .lt
  | _ :: _, [] => some .gt
  | x :: xs, y :: ys => lexicographic (cmp x y) (orderLists cmp xs ys)

/-- Lists of things with a lawful order have one. -/
theorem OrderLaws.lists {α : Type} {cmp : α → α → Option Ordering} {p : α → Prop}
    (laws : OrderLaws cmp p) : OrderLaws (orderLists cmp) fun xs ↦ ∀ x ∈ xs, p x where
  swap {xs ys} hxs hys := by
    induction xs generalizing ys with
    | nil => cases ys <;> rfl
    | cons x xs ih =>
      cases ys with
      | nil => rfl
      | cons y ys =>
        rw [List.forall_mem_cons] at hxs hys
        rw [orderLists, orderLists, laws.swap hxs.1 hys.1, ih hxs.2 hys.2, lexicographic_swap]
  trans {xs ys zs a b} hxs hys hzs hxy hyz ha hb := by
    induction xs generalizing ys zs a b with
    | nil =>
      cases ys with
      | nil =>
        cases hxy
        exact hyz
      | cons y ys =>
        cases hxy
        cases zs with
        | nil =>
          cases hyz
          cases hb
        | cons z zs => rfl
    | cons x xs ih =>
      cases ys with
      | nil =>
        cases hxy
        cases ha
      | cons y ys =>
        cases zs with
        | nil =>
          cases hyz
          cases hb
        | cons z zs =>
          rw [List.forall_mem_cons] at hxs hys hzs
          exact lexicographic_trans (fun a b ↦ laws.trans hxs.1 hys.1 hzs.1)
            (fun _ _ a b ↦ ih hxs.2 hys.2 hzs.2) hxy hyz ha hb
  total {xs ys} hxs hys hxx hyy := by
    induction xs generalizing ys with
    | nil => cases ys <;> rfl
    | cons x xs ih =>
      cases ys with
      | nil => rfl
      | cons y ys =>
        rw [List.forall_mem_cons] at hxs hys
        obtain ⟨hx, hxs'⟩ := lexicographic_eq_some_eq hxx
        obtain ⟨hy, hys'⟩ := lexicographic_eq_some_eq hyy
        have hhead := laws.total hxs.1 hys.1 hx hy
        rw [orderLists]
        by_cases heq : cmp x y = some .eq
        · rw [heq]
          exact ih hxs.2 hys.2 hxs' hys'
        · rwa [lexicographic_of_ne _ heq]

/-! ## Comparators -/

namespace Value

/-- A truth value, an integer or a string. -/
def IsLiteral : Value → Prop
  | scalar (.bool _) | scalar (.integer ..) | scalar (.string ..) => True
  | _ => False

instance : DecidablePred IsLiteral
  | scalar (.bool _) | scalar (.integer ..) | scalar (.string ..) => isTrue trivial
  | scalar (.float ..) | scalar (.complex ..) | scalar (.func ..) | scalar (.chan ..)
  | scalar (.span ..) | scalar (.instant ..) | scalar (.sealed ..) | absent | hidden _ | pointer ..
  | record .. | sequence .. | map .. | interface .. => isFalse id

end Value

/-- A host whose comparators order the keys.  Whether a key equals itself is a matter of the form of
a comparator alone, and among truth values, integers and strings every key does. -/
class LawfulHost [Host] : Prop where
  orderLaws (rule : KeyRule) : OrderLaws (Host.order rule) fun _ ↦ True
  same_self_congr {rule rule' : KeyRule} (h : rule.form = rule'.form) {key : Value} :
    Host.order rule key key = some .eq → Host.order rule' key key = some .eq
  same_self_of_literal (rule : KeyRule) {key : Value} (h : key.IsLiteral) :
    Host.order rule key key = some .eq

namespace KeyRule

variable [Host] {rule : KeyRule} {a b c : Value}

theorem same_iff : rule.same a b ↔ Host.order rule a b = some .eq := by
  simp [same]

theorem less_iff : rule.less a b ↔ Host.order rule a b = some .lt := by
  simp [less]

theorem not_less_of_same (h : rule.same a b) : ¬ rule.less a b := by
  rw [less_iff, same_iff.mp h]
  decide

variable [LawfulHost]

theorem same_self_of_literal (rule : KeyRule) (h : a.IsLiteral) : rule.same a a :=
  same_iff.mpr (LawfulHost.same_self_of_literal rule h)

/-- Keys that equal themselves do so whatever the state of the comparator. -/
theorem same_self_of_form {rule' : KeyRule} (h : rule.form = rule'.form) (ha : rule.same a a) :
    rule'.same a a :=
  same_iff.mpr (LawfulHost.same_self_congr h (same_iff.mp ha))

theorem same_symm (h : rule.same a b) : rule.same b a :=
  same_iff.mpr ((LawfulHost.orderLaws rule).symm trivial trivial (same_iff.mp h))

theorem same_trans (hab : rule.same a b) (hbc : rule.same b c) : rule.same a c :=
  same_iff.mpr ((LawfulHost.orderLaws rule).trans trivial trivial trivial (same_iff.mp hab)
    (same_iff.mp hbc) rfl rfl)

/-- What equals anything equals itself. -/
theorem same_self (h : rule.same a b) : rule.same a a :=
  same_trans h (same_symm h)

theorem less_of_less_of_same (hab : rule.less a b) (hbc : rule.same b c) : rule.less a c :=
  less_iff.mpr ((LawfulHost.orderLaws rule).trans trivial trivial trivial (less_iff.mp hab)
    (same_iff.mp hbc) rfl rfl)

theorem less_of_same_of_less (hab : rule.same a b) (hbc : rule.less b c) : rule.less a c :=
  less_iff.mpr ((LawfulHost.orderLaws rule).trans trivial trivial trivial (same_iff.mp hab)
    (less_iff.mp hbc) rfl rfl)

theorem not_less_self (a : Value) : ¬ rule.less a a := by
  intro h
  have hswap := (LawfulHost.orderLaws rule).swap (x := a) (y := a) trivial trivial
  rw [less_iff.mp h] at hswap
  cases hswap

/-- Keys that equal themselves are ordered. -/
theorem less_or_same_or_less (ha : rule.same a a) (hb : rule.same b b) :
    rule.less a b ∨ rule.same a b ∨ rule.less b a := by
  have htotal := (LawfulHost.orderLaws rule).total trivial trivial (same_iff.mp ha)
    (same_iff.mp hb)
  have hswap := (LawfulHost.orderLaws rule).swap (x := a) (y := b) trivial trivial
  obtain ⟨o, ho⟩ := Option.isSome_iff_exists.mp htotal
  rw [ho] at hswap
  cases o with
  | lt => exact .inl (less_iff.mpr ho)
  | eq => exact .inr (.inl (same_iff.mpr ho))
  | gt => exact .inr (.inr (less_iff.mpr hswap))

end KeyRule

end Discrepancy
