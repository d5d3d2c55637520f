import Discrepancy.Proofs.Lines

/-!
# Joining lines

A text of several lines is put on one line by taking the spaces in front of every line away and
writing the lines one behind the other, with a space behind each comma, save that the comma in front
of a closing brace goes away.

Joining goes along with putting texts together.  Spaces in front of a text do not matter, a label
stands in front of the first line as it does in front of the whole, and what follows a comma and a
line break is joined on its own.
-/

namespace Discrepancy

namespace Text

variable {s t x : Text}

/-! ## Joining lines -/

def dropSpaces (t : Text) : Text :=
  t.dropWhile (· == byte ' ')

/-- A text begins with the end of a composite value. -/
def closes (t : Text) : Bool :=
  t.head? == some (byte '\x7d')

/-- A line and what stands between it and the next one, which may close a composite value. -/
def joint (line : Text) (closing : Bool) : Text :=
  if line.getLast? = some (byte '\x7b') then line
  else if line.getLast? = some (byte ',') then if closing then line.dropLast else line ++ " "
  else line

def joinLines : List Text → Text
  | [] => []
  | [line] => line
  | line :: next :: rest => joint line (closes next) ++ joinLines (next :: rest)

/-- A text with the spaces in front of its lines taken away, and its lines joined. -/
def unbroken (t : Text) : Text :=
  joinLines ((cut (byte '\n') t).map dropSpaces)

/-! ## Lines one by one -/

theorem Begins.not_closes (h : Begins t) : ¬ closes t := by
  cases t with
  | nil => exact Bool.false_ne_true
  | cons b t => simpa [closes] using (h b rfl).2

theorem dropSpaces_of_begins (h : Begins t) : dropSpaces t = t := by
  cases t with
  | nil => rfl
  | cons b t => exact List.dropWhile_cons_of_neg (by simpa using (h b rfl).1)

@[simp]
theorem dropSpaces_spaces_append (n : Nat) (t : Text) : dropSpaces (spaces n ++ t) = dropSpaces t :=
  List.dropWhile_append_of_pos fun _ hb ↦ beq_iff_eq.mpr (List.eq_of_mem_replicate hb)

theorem dropSpaces_append (hx : Begins x) (t : Text) :
    dropSpaces (t ++ x) = dropSpaces t ++ x := by
  induction t with
  | nil => exact dropSpaces_of_begins hx
  | cons b t ih =>
    rw [List.cons_append, dropSpaces, dropSpaces, List.dropWhile_cons, List.dropWhile_cons]
    split_ifs
    · exact ih
    · rfl

theorem closes_append (hx : Begins x) (t : Text) : closes (t ++ x) = closes t := by
  cases t with
  | nil => exact Bool.eq_false_iff.mpr hx.not_closes
  | cons b t => rfl

/-- Whether a text closes is told by what stands in front of a byte that does not. -/
theorem closes_dropSpaces_append (hx : Begins x) (t : Text) :
    closes (dropSpaces (t ++ x)) = closes (dropSpaces t) := by
  rw [dropSpaces_append hx, closes_append hx]

theorem unbroken_of_line (h : byte '\n' ∉ t) : unbroken t = dropSpaces t := by
  rw [unbroken, cut_of_not_mem h]
  rfl

theorem unbroken_of_isLine (h : IsLine t) : unbroken t = t := by
  rw [unbroken_of_line h.1, dropSpaces_of_begins h.2]

/-- A line is joined to what is left of the text. -/
theorem unbroken_line_append (h : byte '\n' ∉ s) (t : Text) :
    unbroken (s ++ byte '\n' :: t) =
      joint (dropSpaces s) (closes (dropSpaces t)) ++ unbroken t := by
  rw [unbroken, cut_append_cons, cut_of_not_mem h, unbroken]
  have hjoin := joinWith_cut (byte '\n') t
  rcases hcut : cut (byte '\n') t with _ | ⟨line, rest⟩
  · exact (cut_ne_nil _ _ hcut).elim
  · have hcloses : closes (dropSpaces t) = closes (dropSpaces line) := by
      rw [hcut] at hjoin
      cases rest with
      | nil => rw [← hjoin, joinWith]
      | cons next rest =>
        rw [← hjoin, joinWith, List.append_assoc]
        exact closes_dropSpaces_append (begins_cons (by decide) _) line
    rw [hcloses]
    rfl

/-- A text is a line, or a line with a text behind it. -/
theorem induction_lines {motive : Text → Prop} (line : ∀ s, byte '\n' ∉ s → motive s)
    (append : ∀ s t, byte '\n' ∉ s → motive t → motive (s ++ byte '\n' :: t)) (t : Text) :
    motive t := by
  have hfrom (s : Text) (hs : byte '\n' ∉ s) : motive (s ++ t) := by
    induction t generalizing s with
    | nil => exact line _ ((List.append_nil s).symm ▸ hs)
    | cons b t ih =>
      by_cases hb : b = byte '\n'
      · subst hb
        exact append s t hs (ih [] List.not_mem_nil)
      · rw [List.append_cons]
        exact ih _ (List.not_mem_append hs (by simpa using Ne.symm hb))
  exact hfrom [] List.not_mem_nil

/-! ## Joining what is put together -/

@[simp]
theorem unbroken_spaces_append (n : Nat) (t : Text) : unbroken (spaces n ++ t) = unbroken t := by
  have hspaces {s : Text} (hs : byte '\n' ∉ s) : byte '\n' ∉ spaces n ++ s :=
    List.not_mem_append (fun hmem ↦ absurd (List.eq_of_mem_replicate hmem) (by decide)) hs
  induction t using induction_lines with
  | line s hs =>
    rw [unbroken_of_line (hspaces hs), unbroken_of_line hs, dropSpaces_spaces_append]
  | append s t hs _ =>
    rw [← List.append_assoc, unbroken_line_append (hspaces hs), unbroken_line_append hs,
      dropSpaces_spaces_append]

/-- What follows a comma and a line break is joined on its own. -/
theorem unbroken_append_comma (t x : Text) :
    unbroken (t ++ byte ',' :: byte '\n' :: x) =
      unbroken t ++ ((if closes (dropSpaces x) then [] else ", ") ++ unbroken x) := by
  induction t using induction_lines with
  | line s hs =>
    have hcomma : byte '\n' ∉ s ++ [byte ','] := List.not_mem_append hs (by decide)
    have hjoint (line : Text) (closing : Bool) : joint (line ++ [byte ',']) closing =
        line ++ if closing then [] else ", " := by
      rw [joint, List.getLast?_concat, if_neg (by decide), if_pos rfl]
      cases closing with
      | false => exact List.append_assoc ..
      | true => rw [if_pos rfl, if_pos rfl, List.dropLast_concat, List.append_nil]
    rw [List.append_cons, unbroken_line_append hcomma, dropSpaces_append (by decide), hjoint,
      unbroken_of_line hs, List.append_assoc]
  | append s t hs ih =>
    have hbegins : Begins (byte ',' :: byte '\n' :: x) := begins_cons (by decide) _
    rw [List.append_assoc, List.cons_append, unbroken_line_append hs, unbroken_line_append hs, ih,
      closes_dropSpaces_append hbegins, List.append_assoc]

/-- A line that opens a composite value is followed by what is left at once. -/
theorem unbroken_opening_append (hs : byte '\n' ∉ s) (x : Text) :
    unbroken (s ++ byte '\x7b' :: byte '\n' :: x) =
      dropSpaces s ++ byte '\x7b' :: unbroken x := by
  have hopening : byte '\n' ∉ s ++ [byte '\x7b'] := List.not_mem_append hs (by decide)
  rw [List.append_cons, unbroken_line_append hopening, dropSpaces_append (by decide), joint,
    List.getLast?_concat, if_pos rfl, List.append_assoc]
  rfl

/-- What stands in front of the first line stands in front of the joined text. -/
theorem unbroken_label_append (hs : IsLine s) (hlast : ∀ b ∈ s.getLast?, b = byte ' ')
    (ht : Begins t) : unbroken (s ++ t) = s ++ unbroken t := by
  by_cases hnil : s = []
  · subst hnil
    rfl
  have hjoint (line : Text) (closing : Bool) :
      joint (s ++ line) closing = s ++ joint line closing := by
    by_cases hline : line = []
    · subst hline
      have hspace := List.getLast?_eq_some_getLast hnil
      rw [hlast _ hspace] at hspace
      rw [List.append_nil, joint, hspace, if_neg (by decide), if_neg (by decide)]
      exact (List.append_nil s).symm
    · rw [joint, joint, List.getLast?_append_of_ne_nil _ hline,
        List.dropLast_append_of_ne_nil hline, List.append_assoc]
      split_ifs <;> rfl
  induction t using induction_lines with
  | line u hu =>
    rw [unbroken_of_line (List.not_mem_append hs.1 hu), unbroken_of_line hu,
      dropSpaces_of_begins (hs.2.append ht), dropSpaces_of_begins ht]
  | append u t hu _ =>
    have hbegins : Begins u := by
      cases u with
      | nil => exact fun _ hb ↦ nomatch hb
      | cons b u => exact ht
    rw [← List.append_assoc, unbroken_line_append (List.not_mem_append hs.1 hu),
      unbroken_line_append hu, dropSpaces_of_begins (hs.2.append hbegins),
      dropSpaces_of_begins hbegins, hjoint, List.append_assoc]

end Text

end Discrepancy
