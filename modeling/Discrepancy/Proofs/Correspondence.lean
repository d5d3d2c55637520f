import Mathlib.Data.List.Perm.Basic
import Discrepancy.Proofs.Results

/-!
# Corresponding results

Two computations correspond when each result of either comes with a related result of the other
one, so that both return or neither does.  Events and faults play no part in it.  Correspondence
goes along chains and rows of computations, which makes two runs of one program comparable step by
step.  Lists of results match member by member, in their order or in some order.
-/

namespace Discrepancy

/-! ## Matching lists -/

section Matching

variable {α β γ δ : Type} {strict : Bool} {p : α → β → Prop} {q : γ → δ → Prop} {xs : List α}
  {ys : List β}

theorem forall₂_mem_left (h : List.Forall₂ p xs ys) :
    List.Forall₂ (fun x y ↦ x ∈ xs ∧ p x y) xs ys :=
  (List.forall₂_and_left xs ys).mpr ⟨fun _ ↦ id, h⟩

theorem forall₂_congr_of_mem {r : α → β → Prop} (h : ∀ x ∈ xs, ∀ y, p x y ↔ r x y) :
    List.Forall₂ p xs ys ↔ List.Forall₂ r xs ys := by
  constructor
  · exact fun hall ↦ (forall₂_mem_left hall).imp fun x y hp ↦ (h x hp.1 y).mp hp.2
  · exact fun hall ↦ (forall₂_mem_left hall).imp fun x y hr ↦ (h x hr.1 y).mpr hr.2

/-- The members of two lists are related one by one, in their order where the match is strict and
in some order otherwise. -/
def Matched (strict : Bool) (p : α → β → Prop) (xs : List α) (ys : List β) : Prop :=
  ∃ zs, List.Forall₂ p xs zs ∧ if strict then zs = ys else zs.Perm ys

/-- Members that are matched in some order are related one by one after a permutation. -/
theorem Matched.perm (h : Matched strict p xs ys) : ∃ zs, List.Forall₂ p xs zs ∧ zs.Perm ys := by
  obtain ⟨zs, hall, hzs⟩ := h
  split_ifs at hzs
  · exact ⟨zs, hall, .of_eq hzs⟩
  · exact ⟨zs, hall, hzs⟩

theorem matched_true : Matched true p xs ys ↔ List.Forall₂ p xs ys := by
  constructor
  · rintro ⟨zs, hall, hzs⟩
    obtain rfl : zs = ys := hzs
    exact hall
  · exact fun hall ↦ ⟨ys, hall, rfl⟩

theorem Matched.of_forall₂ (h : List.Forall₂ p xs ys) : Matched strict p xs ys := by
  cases strict with
  | true => exact matched_true.mpr h
  | false => exact ⟨ys, h, .refl ys⟩

theorem Matched.length_eq (h : Matched strict p xs ys) : xs.length = ys.length := by
  obtain ⟨zs, hall, hperm⟩ := h.perm
  exact hall.length_eq.trans hperm.length_eq

/-- What a match relates may be replaced, given where its members stand. -/
theorem Matched.map {f : α → γ} {g : β → δ} (h : Matched strict p xs ys)
    (hpq : ∀ x ∈ xs, ∀ y ∈ ys, p x y → q (f x) (g y)) :
    Matched strict q (xs.map f) (ys.map g) := by
  have hmap {zs : List β} (hall : List.Forall₂ p xs zs) (hmem : ∀ z ∈ zs, z ∈ ys) :
      List.Forall₂ q (xs.map f) (zs.map g) := by
    rw [List.forall₂_map_left_iff, List.forall₂_map_right_iff]
    have hboth : List.Forall₂ (fun z x ↦ z ∈ ys ∧ x ∈ xs ∧ p x z) zs xs :=
      (List.forall₂_and_left zs xs).mpr ⟨hmem, (forall₂_mem_left hall).flip⟩
    exact hboth.flip.imp fun x z ⟨hz, hx, hp⟩ ↦ hpq x hx z hz hp
  obtain ⟨zs, hall, hzs⟩ := h
  cases strict with
  | true =>
    obtain rfl : zs = ys := hzs
    exact ⟨zs.map g, hmap hall fun _ hz ↦ hz, rfl⟩
  | false =>
    have hperm : zs.Perm ys := hzs
    exact ⟨zs.map g, hmap hall fun _ hz ↦ hperm.mem_iff.mp hz, hperm.map g⟩

/-- Lists of lists that match match as a whole. -/
theorem Matched.flatten {xss : List (List α)} {yss : List (List β)}
    (h : Matched strict (Matched strict p) xss yss) : Matched strict p xss.flatten yss.flatten := by
  obtain ⟨zss, hall, hzss⟩ := h
  cases strict with
  | true =>
    obtain rfl : zss = yss := hzss
    exact matched_true.mpr (List.rel_flatten (hall.imp fun _ _ ↦ matched_true.mp))
  | false =>
    have hperm : zss.Perm yss := hzss
    have hparts : ∃ us, List.Forall₂ p xss.flatten us ∧ us.Perm zss.flatten := by
      clear hzss hperm
      induction hall with
      | nil => exact ⟨[], .nil, .nil⟩
      | cons hhead _ ih =>
        obtain ⟨us, hus, hperm⟩ := hhead.perm
        obtain ⟨vs, hvs, hperm'⟩ := ih
        exact ⟨us ++ vs, List.rel_append hus hvs, hperm.append hperm'⟩
    obtain ⟨us, hus, hperm'⟩ := hparts
    exact ⟨us, hus, hperm'.trans hperm.flatten⟩

end Matching

namespace Outcome

variable {α β γ δ : Type} {p : α → β → Prop} {q : γ → δ → Prop} {x : Outcome α} {y : Outcome β}

/-- Each result of one computation comes with a related result of the other one. -/
structure Corresponds (p : α → β → Prop) (x : Outcome α) (y : Outcome β) : Prop where
  forth : ∀ {a}, x.Yields a → ∃ b, y.Yields b ∧ p a b
  back : ∀ {b}, y.Yields b → ∃ a, x.Yields a ∧ p a b

theorem Corresponds.of_yields {a : α} {b : β} (hx : x.Yields a) (hy : y.Yields b) (h : p a b) :
    Corresponds p x y :=
  ⟨fun ha ↦ ⟨b, hy, hx.unique ha ▸ h⟩, fun hb ↦ ⟨a, hx, hy.unique hb ▸ h⟩⟩

theorem corresponds_pure {a : α} {b : β} (h : p a b) : Corresponds p (pure a) (pure b) :=
  .of_yields rfl rfl h

/-- Computations which never return correspond. -/
theorem corresponds_of_never (hx : ∀ a, ¬ x.Yields a) (hy : ∀ b, ¬ y.Yields b) :
    Corresponds p x y :=
  ⟨fun ha ↦ (hx _ ha).elim, fun hb ↦ (hy _ hb).elim⟩

/-- Computations that both return correspond if all of their results are related. -/
theorem Corresponds.of_returns (hx : x.Returns) (hy : y.Returns)
    (h : ∀ a b, x.Yields a → y.Yields b → p a b) : Corresponds p x y := by
  obtain ⟨a, ha⟩ := hx
  obtain ⟨b, hb⟩ := hy
  exact .of_yields ha hb (h a b ha hb)

theorem Corresponds.imp {p' : α → β → Prop} (h : Corresponds p x y) (hp : ∀ a b, p a b → p' a b) :
    Corresponds p' x y :=
  ⟨fun ha ↦ (h.forth ha).imp fun _ ↦ And.imp_right (hp _ _),
    fun hb ↦ (h.back hb).imp fun _ ↦ And.imp_right (hp _ _)⟩

theorem corresponds_refl {x : Outcome α} {p : α → α → Prop} (h : ∀ a, p a a) : Corresponds p x x :=
  ⟨fun {a} ha ↦ ⟨a, ha, h a⟩, fun {a} ha ↦ ⟨a, ha, h a⟩⟩

/-- Where related results are equal, one computation yields what the other one yields. -/
theorem corresponds_eq_iff {x y : Outcome α} :
    Corresponds Eq x y ↔ ∀ a, x.Yields a ↔ y.Yields a := by
  constructor
  · intro h a
    constructor
    · intro ha
      obtain ⟨b, hb, rfl⟩ := h.forth ha
      exact hb
    · intro ha
      obtain ⟨b, hb, rfl⟩ := h.back ha
      exact hb
  · intro h
    exact ⟨fun {a} ha ↦ ⟨a, (h a).mp ha, rfl⟩, fun {a} ha ↦ ⟨a, (h a).mpr ha, rfl⟩⟩

/-- Computations that correspond by equality have the same results. -/
theorem Corresponds.yields_iff {x y : Outcome α} (h : Corresponds Eq x y) (a : α) :
    x.Yields a ↔ y.Yields a :=
  corresponds_eq_iff.mp h a

theorem Corresponds.returns_iff (h : Corresponds p x y) : x.Returns ↔ y.Returns :=
  ⟨fun ⟨_, ha⟩ ↦ (h.forth ha).imp fun _ ↦ And.left, fun ⟨_, hb⟩ ↦ (h.back hb).imp fun _ ↦ And.left⟩

/-- Chains correspond link by link. -/
theorem Corresponds.bind {f : α → Outcome γ} {g : β → Outcome δ} (h : Corresponds p x y)
    (hfg : ∀ a b, x.Yields a → y.Yields b → p a b → Corresponds q (f a) (g b)) :
    Corresponds q (x >>= f) (y >>= g) where
  forth hc := by
    obtain ⟨a, ha, hc⟩ := yields_bind.mp hc
    obtain ⟨b, hb, hab⟩ := h.forth ha
    obtain ⟨d, hd, hcd⟩ := (hfg a b ha hb hab).forth hc
    exact ⟨d, hb.bind hd, hcd⟩
  back hd := by
    obtain ⟨b, hb, hd⟩ := yields_bind.mp hd
    obtain ⟨a, ha, hab⟩ := h.back hb
    obtain ⟨c, hc, hcd⟩ := (hfg a b ha hb hab).back hd
    exact ⟨c, ha.bind hc, hcd⟩

/-- What is made of corresponding results corresponds. -/
theorem Corresponds.map {f : α → γ} {g : β → δ} (h : Corresponds p x y)
    (hfg : ∀ a b, p a b → q (f a) (g b)) : Corresponds q (f <$> x) (g <$> y) := by
  rw [← bind_pure_comp, ← bind_pure_comp]
  exact h.bind fun a b _ _ hab ↦ corresponds_pure (hfg a b hab)

/-- Rows correspond member by member. -/
theorem corresponds_sequence {xs : List (Outcome α)} {ys : List (Outcome β)}
    (h : List.Forall₂ (Corresponds p) xs ys) :
    Corresponds (List.Forall₂ p) (sequence xs) (sequence ys) := by
  induction h with
  | nil => exact corresponds_pure .nil
  | cons hhead _ ih =>
    rw [sequence_cons, sequence_cons]
    exact hhead.bind fun a b _ _ hab ↦ ih.bind fun as bs _ _ hall ↦
      corresponds_pure (.cons hab hall)

/-- Rows made of two lists correspond where the members of the lists do. -/
theorem corresponds_sequence_map {ι κ : Type} {xs : List ι} {ys : List κ} {f : ι → Outcome α}
    {g : κ → Outcome β} (h : List.Forall₂ (fun x y ↦ Corresponds p (f x) (g y)) xs ys) :
    Corresponds (List.Forall₂ p) (sequence (xs.map f)) (sequence (ys.map g)) := by
  apply corresponds_sequence
  rwa [List.forall₂_map_left_iff, List.forall₂_map_right_iff]

/-- Two rows made of one list correspond member by member. -/
theorem corresponds_sequence_map_self {ι : Type} {xs : List ι} {f : ι → Outcome α}
    {g : ι → Outcome β} (h : ∀ x ∈ xs, Corresponds p (f x) (g x)) :
    Corresponds (List.Forall₂ p) (sequence (xs.map f)) (sequence (xs.map g)) :=
  corresponds_sequence_map (List.forall₂_same.mpr h)

/-- A row in another order yields its results in another order. -/
theorem corresponds_sequence_of_perm {xs ys : List (Outcome α)} (h : xs.Perm ys) :
    Corresponds List.Perm (sequence xs) (sequence ys) := by
  have hforth {xs ys : List (Outcome α)} (h : xs.Perm ys) {as : List α}
      (has : (sequence xs).Yields as) : ∃ bs, (sequence ys).Yields bs ∧ as.Perm bs := by
    obtain ⟨bs, hbs, hperm⟩ := List.perm_comp_forall₂ h.symm (yields_sequence.mp has)
    exact ⟨bs, yields_sequence.mpr hbs, hperm.symm⟩
  refine ⟨hforth h, fun hbs ↦ ?_⟩
  obtain ⟨as, has, hperm⟩ := hforth h.symm hbs
  exact ⟨as, has, hperm.symm⟩

/-- Rows that match yield lists that match. -/
theorem corresponds_sequence_of_matched {strict : Bool} {xs : List (Outcome α)}
    {ys : List (Outcome β)} (h : Matched strict (Corresponds p) xs ys) :
    Corresponds (Matched strict p) (sequence xs) (sequence ys) := by
  obtain ⟨zs, hall, hzs⟩ := h
  have hrow := corresponds_sequence hall
  cases strict with
  | true =>
    obtain rfl : zs = ys := hzs
    exact hrow.imp fun _ _ ↦ matched_true.mpr
  | false =>
    have horder := corresponds_sequence_of_perm (show zs.Perm ys from hzs)
    constructor
    · intro as has
      obtain ⟨cs, hcs, hall⟩ := hrow.forth has
      obtain ⟨bs, hbs, hperm⟩ := horder.forth hcs
      exact ⟨bs, hbs, cs, hall, hperm⟩
    · intro bs hbs
      obtain ⟨cs, hcs, hperm⟩ := horder.back hbs
      obtain ⟨as, has, hall⟩ := hrow.back hcs
      exact ⟨as, has, cs, hall, hperm⟩

end Outcome

end Discrepancy
