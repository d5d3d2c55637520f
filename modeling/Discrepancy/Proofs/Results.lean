import Mathlib.Data.List.Forall2
import Discrepancy.Outcome

/-!
# Results of computations

What a computation yields, whatever it leaves on the way.  A chain of computations yields what its
links yield one after the other, so that statements about results need not speak of events.
-/

namespace Discrepancy.Outcome

variable {α β : Type} {x : Outcome α} {a : α}

/-- A computation ends with a result. -/
def Yields (x : Outcome α) (a : α) : Prop :=
  x.result = .ok a

instance [DecidableEq α] (x : Outcome α) (a : α) : Decidable (x.Yields a) :=
  match h : x.result with
  | .ok b => decidable_of_iff (b = a) (by rw [Yields, h, Except.ok.injEq])
  | .error _ => isFalse (by rw [Yields, h]; exact nofun)

/-- A computation ends without a fault. -/
def Returns (x : Outcome α) : Prop :=
  ∃ a, x.Yields a

/-- A computation has one result. -/
theorem Yields.unique {b : α} (ha : x.Yields a) (hb : x.Yields b) : a = b :=
  Except.ok.inj (ha.symm.trans hb)

@[simp]
theorem yields_pure {b : α} : (pure b : Outcome α).Yields a ↔ b = a :=
  Except.ok.injEq b a ▸ Iff.rfl

@[simp]
theorem not_yields_fail (fault : Fault) : ¬ (fail fault : Outcome α).Yields a :=
  nofun

theorem yields_emit (event : Event) : (emit event).Yields () :=
  rfl

/-- A result comes of a result of the first computation. -/
theorem yields_bind {f : α → Outcome β} {b : β} :
    (x >>= f).Yields b ↔ ∃ a, x.Yields a ∧ (f a).Yields b := by
  change (Outcome.bind x f).result = .ok b ↔ _
  unfold Outcome.bind Yields
  cases h : x.result with
  | ok a => simp
  | error fault => simp

theorem yields_map {f : α → β} {b : β} : (f <$> x).Yields b ↔ ∃ a, x.Yields a ∧ f a = b := by
  rw [← bind_pure_comp, yields_bind]
  simp only [yields_pure]

/-- Where the first computation ends with a result, the second one decides. -/
theorem Yields.bind_iff {f : α → Outcome β} {b : β} (h : x.Yields a) :
    (x >>= f).Yields b ↔ (f a).Yields b := by
  rw [yields_bind]
  exact ⟨fun ⟨_, ha, hb⟩ ↦ h.unique ha ▸ hb, fun hb ↦ ⟨a, h, hb⟩⟩

theorem Yields.bind {f : α → Outcome β} {b : β} (hx : x.Yields a) (hf : (f a).Yields b) :
    (x >>= f).Yields b :=
  yields_bind.mpr ⟨a, hx, hf⟩

/-- Computations that go on alike from whatever the first one yields are the same. -/
theorem bind_congr_of_yields {f g : α → Outcome β}
    (h : ∀ a, x.Yields a → f a = g a) :
    x >>= f = x >>= g := by
  obtain ⟨events, result⟩ := x
  cases result with
  | error fault => rfl
  | ok a =>
    change Outcome.bind _ f = Outcome.bind _ g
    simp only [Outcome.bind, h a rfl]

theorem Returns.bind {f : α → Outcome β} (hx : x.Returns) (hf : ∀ a, (f a).Returns) :
    (x >>= f).Returns := by
  obtain ⟨a, ha⟩ := hx
  obtain ⟨b, hb⟩ := hf a
  exact ⟨b, ha.bind hb⟩

theorem Returns.map {f : α → β} (hx : x.Returns) : (f <$> x).Returns := by
  obtain ⟨a, ha⟩ := hx
  exact ⟨f a, yields_map.mpr ⟨a, ha, rfl⟩⟩

theorem returns_pure (a : α) : (pure a : Outcome α).Returns :=
  ⟨a, rfl⟩

theorem yields_assert {condition : Bool} {assertion : Assertion} {u : Unit} :
    (assert condition assertion).Yields u ↔ condition := by
  unfold assert
  split_ifs with h
  · simp [h]
  · exact iff_of_false nofun h

theorem exists_of_mem_left {r : α → β → Prop} {xs : List α} {ys : List β}
    (h : List.Forall₂ r xs ys) {x : α} (hx : x ∈ xs) : ∃ y ∈ ys, r x y := by
  induction h with
  | nil => cases hx
  | cons hhead _ ih =>
    rcases List.mem_cons.mp hx with rfl | hx
    · exact ⟨_, List.mem_cons_self, hhead⟩
    · exact (ih hx).imp fun _ ↦ And.imp_left (List.mem_cons_of_mem _)

theorem exists_of_mem_right {r : α → β → Prop} {xs : List α} {ys : List β}
    (h : List.Forall₂ r xs ys) {y : β} (hy : y ∈ ys) : ∃ x ∈ xs, r x y :=
  exists_of_mem_left (List.Forall₂.flip h) hy

/-- What is related to each member of a list in some way may be related to it by way of others. -/
theorem exists_forall₂ {γ : Type} {r : α → β → Prop} {s : α → γ → Prop} {t : γ → β → Prop}
    {xs : List α} {ys : List β} (h : List.Forall₂ r xs ys)
    (hbetween : ∀ x ∈ xs, ∀ y, r x y → ∃ z, s x z ∧ t z y) :
    ∃ zs, List.Forall₂ s xs zs ∧ List.Forall₂ t zs ys := by
  induction h with
  | nil => exact ⟨[], .nil, .nil⟩
  | cons hhead _ ih =>
    rw [List.forall_mem_cons] at hbetween
    obtain ⟨z, hs, ht⟩ := hbetween.1 _ hhead
    obtain ⟨zs, hall, hall'⟩ := ih hbetween.2
    exact ⟨z :: zs, .cons hs hall, .cons ht hall'⟩

/-- A sequence ends with results if all of its members do, in their order. -/
theorem yields_sequence {xs : List (Outcome α)} {as : List α} :
    (sequence xs).Yields as ↔ List.Forall₂ Yields xs as := by
  induction xs generalizing as with
  | nil => rw [sequence_nil, yields_pure, List.forall₂_nil_left_iff, eq_comm]
  | cons x rest ih =>
    simp only [sequence_cons, yields_bind, yields_pure, ih, List.forall₂_cons_left_iff]
    constructor
    · rintro ⟨a, ha, others, hothers, rfl⟩
      exact ⟨a, others, ha, hothers, rfl⟩
    · rintro ⟨a, others, ha, hothers, rfl⟩
      exact ⟨a, ha, others, hothers, rfl⟩

theorem yields_sequence_map {xs : List α} {f : α → Outcome β} {g : α → β}
    (h : ∀ x ∈ xs, (f x).Yields (g x)) : (sequence (xs.map f)).Yields (xs.map g) := by
  rw [yields_sequence, List.forall₂_map_left_iff, List.forall₂_map_right_iff, List.forall₂_same]
  exact h

/-- What each link of a chain tells about its result, the chain tells about all of them. -/
theorem of_yields_sequence_map {xs : List α} {f : α → Outcome β} {g : α → β} {p : α → Prop}
    (hf : ∀ x ∈ xs, ∀ b, (f x).Yields b → p x ∧ b = g x) {bs : List β}
    (h : (sequence (xs.map f)).Yields bs) : (∀ x ∈ xs, p x) ∧ bs = xs.map g := by
  rw [yields_sequence, List.forall₂_map_left_iff] at h
  induction h with
  | nil => exact ⟨nofun, rfl⟩
  | cons hhead _ ih =>
    rw [List.forall_mem_cons] at hf ⊢
    obtain ⟨hp, rfl⟩ := hf.1 _ hhead
    obtain ⟨hall, rfl⟩ := ih hf.2
    exact ⟨⟨hp, hall⟩, rfl⟩

/-! ## Properties of chains -/

/-- A property that computations have which return at once, and chains of links which have it. -/
structure Compositional (P : ∀ {α : Type}, Outcome α → Prop) : Prop where
  of_pure {α : Type} (a : α) : P (pure a : Outcome α)
  of_bind {α β : Type} {x : Outcome α} {f : α → Outcome β} (hx : P x)
    (hf : ∀ a, x.Yields a → P (f a)) : P (x >>= f)

theorem Compositional.of_sequence {P : ∀ {α : Type}, Outcome α → Prop} (hP : Compositional P)
    {xs : List (Outcome α)} (h : ∀ x ∈ xs, P x) : P (sequence xs) := by
  induction xs with
  | nil => exact hP.of_pure []
  | cons x rest ih =>
    obtain ⟨hx, hrest⟩ := List.forall_mem_cons.mp h
    rw [sequence_cons]
    exact hP.of_bind hx fun a _ ↦ hP.of_bind (ih hrest) fun others _ ↦ hP.of_pure (a :: others)

theorem Compositional.of_sequence_map {P : ∀ {α : Type}, Outcome α → Prop} (hP : Compositional P)
    {xs : List α} {f : α → Outcome β} (h : ∀ x ∈ xs, P (f x)) : P (sequence (xs.map f)) := by
  refine hP.of_sequence fun y hy ↦ ?_
  obtain ⟨x, hx, rfl⟩ := List.mem_map.mp hy
  exact h x hx

/-! ## Faults -/

/-- A computation ends with a result, or with a fault for which `p` holds. -/
def FaultsOnly (p : Fault → Prop) (x : Outcome α) : Prop :=
  ∀ fault, x.result = .error fault → p fault

theorem Returns.faultsOnly (h : x.Returns) (p : Fault → Prop) : x.FaultsOnly p := by
  obtain ⟨a, ha⟩ := h
  intro fault hfault
  cases ha.symm.trans hfault

/-- A computation returns exactly if it ends with no fault at all. -/
theorem returns_iff_faultsOnly : x.Returns ↔ x.FaultsOnly fun _ ↦ False := by
  refine ⟨fun h ↦ h.faultsOnly _, fun h ↦ ?_⟩
  cases hresult : x.result with
  | ok a => exact ⟨a, hresult⟩
  | error fault => exact (h fault hresult).elim

section

variable {p : Fault → Prop}

/-- A computation returns where none of its faults can be. -/
theorem FaultsOnly.returns (h : x.FaultsOnly p) (hp : ∀ fault, ¬ p fault) : x.Returns :=
  returns_iff_faultsOnly.mpr fun fault hfault ↦ hp fault (h fault hfault)

theorem faultsOnly_pure (a : α) : (pure a : Outcome α).FaultsOnly p :=
  (returns_pure a).faultsOnly p

theorem FaultsOnly.bind {f : α → Outcome β} (hx : x.FaultsOnly p)
    (hf : ∀ a, x.Yields a → (f a).FaultsOnly p) : (x >>= f).FaultsOnly p := by
  intro fault hfault
  obtain ⟨events, result⟩ := x
  cases result with
  | ok a => exact hf a rfl fault hfault
  | error fault' =>
    cases hfault
    exact hx fault rfl

theorem FaultsOnly.map {f : α → β} (hx : x.FaultsOnly p) : (f <$> x).FaultsOnly p := by
  rw [← bind_pure_comp]
  exact hx.bind fun a _ ↦ faultsOnly_pure (f a)

theorem compositional_faultsOnly : Compositional (FaultsOnly p) where
  of_pure := faultsOnly_pure
  of_bind := FaultsOnly.bind

end

end Discrepancy.Outcome
