import Mathlib.Data.List.TakeWhile
import Mathlib.Data.List.Forall2
import Discrepancy.Text

/-!
# Pieces of texts

Cutting a text at a byte undoes joining texts that do not hold it, and the other way round.  It goes
along with putting texts one behind the other: only the part that is begun by one text and ended by
the next one is new.  Trimming finds the one text between blanks that has none at its ends.  Where a
text that stops at some sort of byte is followed by such a byte, it is known from what it begins.
Items with separators between them are told apart one by one, if each is known from what it begins.
-/

namespace Discrepancy

section Stops

variable {α : Type} {p : α → Prop} {s t x y : List α}

/-- Where a text stops at a first byte of some sort, it is known from what it begins. -/
theorem append_inj_of_stop (hs : ∀ a ∈ s, ¬ p a) (ht : ∀ a ∈ t, ¬ p a) (hx : ∀ a ∈ x.head?, p a)
    (hy : ∀ a ∈ y.head?, p a) (h : s ++ x = t ++ y) : s = t ∧ x = y := by
  induction s generalizing t with
  | nil =>
    cases t with
    | nil => exact ⟨rfl, h⟩
    | cons b t =>
      rw [List.nil_append] at h
      exact (ht b List.mem_cons_self (hx b (by simp [h]))).elim
  | cons a s ih =>
    cases t with
    | nil =>
      rw [List.nil_append] at h
      exact (hs a List.mem_cons_self (hy a (by simp [← h]))).elim
    | cons b t =>
      obtain ⟨rfl, hrest⟩ := List.cons.inj h
      obtain ⟨rfl, rfl⟩ :=
        ih (List.forall_mem_cons.mp hs).2 (List.forall_mem_cons.mp ht).2 hrest
      exact ⟨rfl, rfl⟩

end Stops

namespace Text

variable {c b : UInt8} {s t u : Text} {parts : List Text}

/-! ## Cutting -/

theorem cut_ne_nil (c : UInt8) (t : Text) : cut c t ≠ [] := by
  cases t with
  | nil => exact List.cons_ne_nil _ _
  | cons b rest =>
    unfold cut
    split
    · exact List.cons_ne_nil _ _
    · split <;> exact List.cons_ne_nil _ _

@[simp]
theorem cut_cons_self (c : UInt8) (rest : Text) : cut c (c :: rest) = [] :: cut c rest := by
  rw [cut, if_pos (beq_self_eq_true c)]

theorem cut_cons_of_ne (h : b ≠ c) (rest : Text) :
    cut c (b :: rest) = (cut c rest).modifyHead (b :: ·) := by
  rw [cut, if_neg (by simpa using h)]
  cases hcut : cut c rest with
  | nil => exact (cut_ne_nil c rest hcut).elim
  | cons part parts => rfl

/-- What stands in front of the first cut belongs to the first part. -/
theorem cut_append_of_not_mem (h : c ∉ s) (t : Text) :
    cut c (s ++ t) = (cut c t).modifyHead (s ++ ·) := by
  induction s with
  | nil =>
    cases hcut : cut c t <;> simp [hcut]
  | cons b s ih =>
    obtain ⟨hb, hs⟩ := List.ne_and_not_mem_of_not_mem_cons h
    rw [List.cons_append, cut_cons_of_ne hb.symm, ih hs, List.modifyHead_modifyHead]
    rfl

theorem cut_of_not_mem (h : c ∉ t) : cut c t = [t] := by
  have hcut := cut_append_of_not_mem h []
  rwa [List.append_nil, cut, List.modifyHead_cons, List.append_nil] at hcut

/-- A cut separates the parts on its left from those on its right. -/
theorem cut_append_cons (c : UInt8) (s t : Text) : cut c (s ++ c :: t) = cut c s ++ cut c t := by
  induction s with
  | nil => exact cut_cons_self c t
  | cons b s ih =>
    by_cases hb : b = c
    · subst hb
      rw [List.cons_append, cut_cons_self, cut_cons_self, ih, List.cons_append]
    · rw [List.cons_append, cut_cons_of_ne hb, cut_cons_of_ne hb, ih]
      cases hcut : cut c s with
      | nil => exact (cut_ne_nil c s hcut).elim
      | cons part parts => rfl

theorem not_mem_of_mem_cut (h : s ∈ cut c t) : c ∉ s := by
  induction t generalizing s with
  | nil =>
    obtain rfl := List.mem_singleton.mp h
    exact List.not_mem_nil
  | cons b rest ih =>
    by_cases hb : b = c
    · subst hb
      rw [cut_cons_self] at h
      rcases List.mem_cons.mp h with rfl | h
      · exact List.not_mem_nil
      · exact ih h
    · rw [cut_cons_of_ne hb] at h
      cases hcut : cut c rest with
      | nil => exact (cut_ne_nil c rest hcut).elim
      | cons part parts =>
        rw [hcut] at h ih
        rcases List.mem_cons.mp h with rfl | h
        · exact List.not_mem_cons_of_ne_of_not_mem (Ne.symm hb) (ih List.mem_cons_self)
        · exact ih (List.mem_cons_of_mem _ h)

theorem joinWith_cons (separator : Text) (t : Text) (h : parts ≠ []) :
    joinWith separator (t :: parts) = t ++ separator ++ joinWith separator parts := by
  cases parts with
  | nil => exact (h rfl).elim
  | cons u rest => rfl

/-- The parts of a text make it up. -/
theorem joinWith_cut (c : UInt8) (t : Text) : joinWith [c] (cut c t) = t := by
  induction t with
  | nil => rfl
  | cons b rest ih =>
    by_cases hb : b = c
    · subst hb
      rw [cut_cons_self, joinWith_cons _ _ (cut_ne_nil b rest), ih]
      rfl
    · rw [cut_cons_of_ne hb]
      conv_rhs => rw [← ih]
      rcases hcut : cut c rest with _ | ⟨part, _ | ⟨next, parts⟩⟩
      · exact (cut_ne_nil c rest hcut).elim
      · rfl
      · rfl

/-- Texts that were joined are cut apart again. -/
theorem cut_joinWith (hne : parts ≠ []) (h : ∀ part ∈ parts, c ∉ part) :
    cut c (joinWith [c] parts) = parts := by
  induction parts with
  | nil => exact (hne rfl).elim
  | cons part parts ih =>
    obtain ⟨hpart, hparts⟩ := List.forall_mem_cons.mp h
    by_cases hlast : parts = []
    · subst hlast
      exact cut_of_not_mem hpart
    · rw [joinWith_cons _ _ hlast, List.append_assoc, List.singleton_append, cut_append_cons,
        cut_of_not_mem hpart, ih hlast hparts, List.singleton_append]

/-! ## Trimming -/

/-- A text with blanks around it, none of which is its own. -/
structure Trimmed (t u : Text) : Prop where
  between : ∃ left right, t = left ++ u ++ right ∧ (∀ b ∈ left, isBlank b) ∧ ∀ b ∈ right, isBlank b
  head : ∀ b ∈ u.head?, ¬ isBlank b
  last : ∀ b ∈ u.getLast?, ¬ isBlank b

theorem dropWhile_eq_self (h : ∀ b ∈ t.head?, ¬ isBlank b) : t.dropWhile isBlank = t := by
  cases t with
  | nil => rfl
  | cons b rest => rw [List.dropWhile_cons_of_neg (h b rfl)]

theorem head?_dropWhile (t : Text) : ∀ b ∈ (t.dropWhile isBlank).head?, ¬ isBlank b := by
  intro b hb
  have hhead := List.head?_dropWhile_not isBlank t
  rw [Option.mem_def.mp hb] at hhead
  simpa using hhead

theorem trimmed_trim (t : Text) : Trimmed t (trim t) := by
  let left := t.takeWhile isBlank
  let right := ((t.dropWhile isBlank).reverse.takeWhile isBlank).reverse
  have hrest : t.dropWhile isBlank = trim t ++ right := by
    rw [trim, ← List.reverse_append, List.takeWhile_append_dropWhile, List.reverse_reverse]
  have hleft : ∀ b ∈ left, isBlank b := fun b ↦ List.mem_takeWhile_imp
  have hright : ∀ b ∈ right, isBlank b :=
    fun b hb ↦ List.mem_takeWhile_imp (List.mem_reverse.mp hb)
  refine ⟨⟨left, right, ?_, hleft, hright⟩, fun b hb ↦ ?_, fun b hb ↦ ?_⟩
  · rw [List.append_assoc, ← hrest, List.takeWhile_append_dropWhile]
  · refine head?_dropWhile t b ?_
    rwa [hrest, List.head?_append_of_ne_nil _ (by rintro hnil; simp [hnil] at hb)]
  · refine head?_dropWhile (t.dropWhile isBlank).reverse b ?_
    rwa [trim, List.getLast?_reverse] at hb

/-- Trimming finds what is trimmed. -/
theorem trim_eq_iff : trim t = u ↔ Trimmed t u := by
  refine ⟨fun h ↦ h ▸ trimmed_trim t, ?_⟩
  rintro ⟨⟨left, right, hbetween, hleft, hright⟩, hhead, hlast⟩
  subst hbetween
  have hreverse : ∀ b ∈ right.reverse, isBlank b := fun b hb ↦ hright b (List.mem_reverse.mp hb)
  rw [trim, List.append_assoc, List.dropWhile_append_of_pos hleft]
  by_cases hnil : u = []
  · subst hnil
    have hall : right.dropWhile isBlank = [] := List.dropWhile_eq_nil_iff.mpr hright
    rw [List.nil_append, hall]
    rfl
  · have hfront : ∀ b ∈ (u ++ right).head?, ¬ isBlank b := by
      rwa [List.head?_append_of_ne_nil _ hnil]
    have hback : ∀ b ∈ u.reverse.head?, ¬ isBlank b := by rwa [List.head?_reverse]
    rw [dropWhile_eq_self hfront, List.reverse_append, List.dropWhile_append_of_pos hreverse,
      dropWhile_eq_self hback, List.reverse_reverse]

/-! ## Pieces -/

/-- Some pieces stand between occurrences of a byte, with blanks around them. -/
def Lists (c : UInt8) (t : Text) (pieces : List Text) : Prop :=
  ∃ parts trimmed, parts ≠ [] ∧ t = joinWith [c] parts ∧ (∀ part ∈ parts, c ∉ part) ∧
    List.Forall₂ Trimmed parts trimmed ∧ pieces = trimmed.filter fun piece ↦ !piece.isEmpty

theorem forall₂_trimmed_iff {trimmed : List Text} :
    List.Forall₂ Trimmed parts trimmed ↔ trimmed = parts.map trim := by
  induction parts generalizing trimmed with
  | nil => simp
  | cons part parts ih => simp [List.forall₂_cons_left_iff, ih, ← trim_eq_iff]

theorem lists_iff {pieces : List Text} : Lists c t pieces ↔ pieces = Text.pieces c t := by
  constructor
  · rintro ⟨parts, trimmed, hne, rfl, hparts, htrimmed, rfl⟩
    rw [Text.pieces, cut_joinWith hne hparts, forall₂_trimmed_iff.mp htrimmed]
  · rintro rfl
    exact ⟨cut c t, (cut c t).map trim, cut_ne_nil c t, (joinWith_cut c t).symm,
      fun part ↦ not_mem_of_mem_cut, forall₂_trimmed_iff.mpr rfl, rfl⟩

/-- At a separator the pieces of a text fall into those before it and those behind it. -/
theorem pieces_append_cons (c : UInt8) (s t : Text) :
    pieces c (s ++ c :: t) = pieces c s ++ pieces c t := by
  rw [pieces, cut_append_cons, List.map_append, List.filter_append]
  rfl

/-! ## Items -/

theorem joinWith_cons_eq (separator t : Text) (parts : List Text) :
    joinWith separator (t :: parts) = t ++ parts.flatMap (separator ++ ·) := by
  induction parts generalizing t with
  | nil => exact (List.append_nil t).symm
  | cons u parts ih => rw [joinWith, ih, List.flatMap_cons, List.append_assoc, List.append_assoc]

theorem joinWith_concat (separator t : Text) (parts : List Text) :
    joinWith separator (parts ++ [t]) = parts.flatMap (· ++ separator) ++ t := by
  induction parts with
  | nil => rfl
  | cons u parts ih =>
    rw [List.cons_append, joinWith_cons _ _ (by simp), ih, List.flatMap_cons]
    simp only [List.append_assoc]

/-- Items are joined from the end as well. -/
theorem reverse_joinWith (separator : Text) (parts : List Text) :
    (joinWith separator parts).reverse =
      joinWith separator.reverse (parts.reverse.map List.reverse) := by
  cases parts with
  | nil => rfl
  | cons t parts =>
    rw [joinWith_cons_eq, List.reverse_append, List.reverse_flatMap, List.reverse_cons,
      List.map_append, List.map_singleton, joinWith_concat, List.flatMap_map]
    congr 2
    funext u
    exact List.reverse_append

section Items

variable {α : Type} {f : α → Text} {R : α → α → Prop} {p : Text → Prop} {separator x y : Text}
  {items items' : List α}

/-- The items behind the first one, and what is behind them all. -/
def further (separator : Text) (f : α → Text) (items : List α) (x : Text) : Text :=
  items.flatMap (fun a ↦ separator ++ f a) ++ x

theorem further_cons (separator : Text) (f : α → Text) (a : α) (items : List α) (x : Text) :
    further separator f (a :: items) x = separator ++ (f a ++ further separator f items x) := by
  simp only [further, List.flatMap_cons, List.append_assoc]

theorem joinWith_map_cons (separator : Text) (f : α → Text) (a : α) (items : List α) (x : Text) :
    joinWith separator ((a :: items).map f) ++ x = f a ++ further separator f items x := by
  rw [List.map_cons, joinWith_cons_eq, List.flatMap_map, List.append_assoc]
  rfl

/-- What is behind an item, be it a separator or the byte which closes the items, has a property,
and the two are told apart. -/
structure Separates (separator : Text) (closer : UInt8) (p : Text → Prop) : Prop where
  between : ∀ x, p (separator ++ x)
  behind : ∀ x, p (closer :: x)
  apart : ∀ x y, separator ++ x ≠ closer :: y

namespace Separates

theorem further (h : Separates separator c p) (f : α → Text) (items : List α) (x : Text) :
    p (further separator f items (c :: x)) := by
  cases items with
  | nil => exact h.behind x
  | cons a items =>
    rw [further_cons]
    exact h.between _

/-- Whether a further item follows is told by what is behind an item. -/
theorem further_inj (hsep : Separates separator c p)
    (hstep : ∀ a b, (a, b) ∈ items.zip items' → ∀ x y, p x → p y → f a ++ x = f b ++ y →
      R a b ∧ x = y)
    (h : Text.further separator f items (c :: x) = Text.further separator f items' (c :: y)) :
    List.Forall₂ R items items' ∧ x = y := by
  induction items generalizing items' with
  | nil =>
    cases items' with
    | nil => exact ⟨.nil, (List.cons.inj h).2⟩
    | cons b items' =>
      rw [further_cons] at h
      exact (hsep.apart _ _ h.symm).elim
  | cons a items ih =>
    cases items' with
    | nil =>
      rw [further_cons] at h
      exact (hsep.apart _ _ h).elim
    | cons b items' =>
      rw [further_cons, further_cons] at h
      obtain ⟨hab, hrest⟩ := hstep a b List.mem_cons_self _ _ (hsep.further f items x)
        (hsep.further f items' y) (List.append_cancel_left h)
      obtain ⟨hall, rfl⟩ := ih (fun a b hmem ↦ hstep a b (List.mem_cons_of_mem _ hmem)) hrest
      exact ⟨.cons hab hall, rfl⟩

/-- Items are told apart one by one, if there are as many on both sides or none of them begins with
the byte which closes them. -/
theorem joinWith_append_inj (hsep : Separates separator c p)
    (hstep : ∀ a b, (a, b) ∈ items.zip items' → ∀ x y, p x → p y → f a ++ x = f b ++ y →
      R a b ∧ x = y)
    (hitems : items.length = items'.length ∨
      ∀ a, a ∈ items ∨ a ∈ items' → ∀ x y, f a ++ x ≠ c :: y)
    (h : joinWith separator (items.map f) ++ (c :: x) =
      joinWith separator (items'.map f) ++ (c :: y)) :
    List.Forall₂ R items items' ∧ x = y := by
  cases items with
  | nil =>
    cases items' with
    | nil => exact ⟨.nil, (List.cons.inj h).2⟩
    | cons b items' =>
      rw [joinWith_map_cons] at h
      exact (hitems.resolve_left (by simp) b (.inr List.mem_cons_self) _ _ h.symm).elim
  | cons a items =>
    cases items' with
    | nil =>
      rw [joinWith_map_cons] at h
      exact (hitems.resolve_left (by simp) a (.inl List.mem_cons_self) _ _ h).elim
    | cons b items' =>
      rw [joinWith_map_cons, joinWith_map_cons] at h
      obtain ⟨hab, hrest⟩ := hstep a b List.mem_cons_self _ _ (hsep.further f items x)
        (hsep.further f items' y) h
      obtain ⟨hall, rfl⟩ :=
        hsep.further_inj (fun a b hmem ↦ hstep a b (List.mem_cons_of_mem _ hmem)) hrest
      exact ⟨.cons hab hall, rfl⟩

end Separates

end Items

end Text

end Discrepancy
