import Mathlib.Data.List.Infix
import Discrepancy.Notice
import Discrepancy.Proofs.Pieces

/-!
# The text of a report

A report is written line by line, and the values of its rows are written as they are, whatever they
hold.  The text tells the report all the same: a further line of a value stands farther to the right
than any name of a row, and a name stands farther to the right than any header.  So what a line
begins with says whether it goes on with a value, begins a row, or begins a notice.

The width of the names is known from the first row alone, in which nothing but the padding stands in
front of the name.
-/

namespace Discrepancy

namespace Text

variable {t : Text} {m n : Nat}

/-! ## Columns of printable texts -/

theorem runesWithin_of_printable (h : ∀ b ∈ t, isPrintable b) (hsteps : t.length ≤ n) :
    runesWithin n t = t.map fun b ↦ .point b.toNat [b] := by
  induction t generalizing n with
  | nil => cases n <;> rfl
  | cons b rest ih =>
    obtain ⟨steps, rfl⟩ := Nat.exists_eq_add_of_lt (Nat.zero_lt_of_lt hsteps)
    rw [Nat.zero_add] at hsteps ⊢
    obtain ⟨hb, hrest⟩ := List.forall_mem_cons.mp h
    have hnext : Rune.next b rest = (.point b.toNat [b], rest) := by
      have hlow : b < 0x80 := by
        simp only [isPrintable, Bool.and_eq_true, decide_eq_true_eq] at hb
        exact UInt8.lt_trans hb.2 (by decide)
      unfold Rune.next
      rw [if_pos hlow]
    unfold runesWithin
    rw [hnext, List.map_cons, ← ih hrest (Nat.le_of_succ_le_succ hsteps)]

theorem runeColumns_of_printable {b : UInt8} (h : isPrintable b) :
    runeColumns (.point b.toNat [b]) = 1 := by
  have hlow : b.toNat < 0x7f := by
    simp only [isPrintable, Bool.and_eq_true, decide_eq_true_eq] at h
    exact UInt8.lt_iff_toNat_lt.mp h.2
  have hwide : isWide b.toNat = false := by
    simp [isWide]
    omega
  rw [runeColumns, hwide]
  rfl

/-- Every printable byte takes one column. -/
theorem columns_of_printable (h : ∀ b ∈ t, isPrintable b) : columns t = t.length := by
  have hfold (width : Nat) : (t.map fun b ↦ Rune.point b.toNat [b]).foldl
      (fun n rune ↦ n + runeColumns rune) width = width + t.length := by
    induction t generalizing width with
    | nil => rfl
    | cons b rest ih =>
      obtain ⟨hb, hrest⟩ := List.forall_mem_cons.mp h
      rw [List.map_cons, List.foldl_cons, ih hrest, runeColumns_of_printable hb, List.length_cons]
      omega
  rw [columns, runes, runesWithin_of_printable h le_rfl, hfold, Nat.zero_add]

/-! ## Line beginnings -/

theorem spaces_prefix_spaces (h : m ≤ n) : spaces m <+: spaces n :=
  ⟨spaces (n - m), by rw [← spaces_add, Nat.add_sub_cancel' h]⟩

/-- A line has no more spaces in front than those before its first other byte. -/
theorem not_spaces_prefix_append (h : m < n) (ht : t ≠ []) (hhead : t.head? ≠ some (byte ' '))
    (u : Text) : ¬ spaces n <+: spaces m ++ (t ++ u) := by
  obtain ⟨b, rest, rfl⟩ := List.exists_cons_of_ne_nil ht
  obtain ⟨k, rfl⟩ := Nat.exists_eq_add_of_lt h
  have hsplit : spaces (m + k + 1) = spaces m ++ byte ' ' :: spaces k := by
    rw [Nat.add_assoc, spaces_add, Nat.add_comm k 1, spaces_add]
    rfl
  rw [hsplit, List.prefix_append_right_inj, List.cons_append, List.cons_prefix_cons]
  exact fun hprefix ↦ hhead (congrArg some hprefix.1.symm)

/-- Nothing, or a line end behind which there are fewer spaces than `indent`. -/
def EndsBefore (indent : Nat) (t : Text) : Prop :=
  t = [] ∨ ∃ rest, t = byte '\n' :: rest ∧ ¬ spaces indent <+: rest

theorem endsBefore_nil (indent : Nat) : EndsBefore indent [] :=
  .inl rfl

theorem EndsBefore.mono (hle : m ≤ n) (h : EndsBefore m t) : EndsBefore n t :=
  h.imp_right fun ⟨rest, ht, hrest⟩ ↦ ⟨rest, ht, fun h ↦ hrest ((spaces_prefix_spaces hle).trans h)⟩

theorem EndsBefore.head? (h : EndsBefore n t) : ∀ b ∈ t.head?, b = byte '\n' := by
  rcases h with rfl | ⟨rest, rfl, -⟩
  · rintro b ⟨⟩
  · intro b hb
    exact (Option.mem_some_iff.mp hb).symm

/-- What ends before an indentation does not go on with a line of it. -/
theorem EndsBefore.not_cons (h : EndsBefore n t) (u : Text) :
    t ≠ byte '\n' :: (spaces n ++ u) := by
  rintro rfl
  rcases h with hnil | ⟨rest, hrest, hnot⟩
  · cases hnil
  · exact hnot ((List.cons.inj hrest).2 ▸ List.prefix_append _ _)

end Text

namespace Notice

open Text (byte spaces EndsBefore)

variable {n n' : Notice} {row row' : Row} {rows rows' : List Row} {w w' : Nat} {s t x y : Text}

/-- Printable ASCII that neither begins with a space nor holds a colon. -/
def IsRowName (name : Text) : Prop :=
  name ≠ [] ∧ name.head? ≠ some (byte ' ') ∧
    ∀ b ∈ name, Text.isPrintable b ∧ b ≠ byte ':'

instance : DecidablePred IsRowName := fun name ↦
  haveI : Decidable (∀ b ∈ name, Text.isPrintable b ∧ b ≠ byte ':') := List.decidableBAll _ name
  inferInstanceAs (Decidable (name ≠ [] ∧ name.head? ≠ some (byte ' ') ∧
    ∀ b ∈ name, Text.isPrintable b ∧ b ≠ byte ':'))

/-- One line that begins with something else than a space. -/
def IsHeader (header : Text) : Prop :=
  header ≠ [] ∧ header.head? ≠ some (byte ' ') ∧ byte '\n' ∉ header

instance : DecidablePred IsHeader :=
  fun header ↦ inferInstanceAs (Decidable (header ≠ [] ∧ header.head? ≠ some (byte ' ') ∧
    byte '\n' ∉ header))

/-- The header and the names are fit to be told apart; the trail and the values are any texts. -/
def IsLegible (n : Notice) : Prop :=
  IsHeader n.header ∧ ∀ row ∈ n.rows, IsRowName row.name ∧ row.name ≠ "trail"

instance : DecidablePred IsLegible :=
  fun n ↦ inferInstanceAs (Decidable (IsHeader n.header ∧
    ∀ row ∈ n.rows, IsRowName row.name ∧ row.name ≠ "trail"))

theorem isRowName_trail : IsRowName "trail" := by
  decide

theorem IsLegible.shownRows (h : n.IsLegible) : ∀ row ∈ n.shownRows, IsRowName row.name := by
  intro row hrow
  rw [Notice.shownRows] at hrow
  split at hrow
  · exact (h.2 row hrow).1
  · rcases List.mem_cons.mp hrow with rfl | hrow
    · exact isRowName_trail
    · exact (h.2 row hrow).1

/-- The trail is told from the other rows by its name. -/
theorem trail_eq_of_shownRows_eq (h : n.IsLegible) (h' : n'.IsLegible)
    (heq : n.shownRows = n'.shownRows) : n.trail = n'.trail ∧ n.rows = n'.rows := by
  rw [shownRows, shownRows] at heq
  by_cases htrail : n.trail = [] <;> by_cases htrail' : n'.trail = []
  · exact ⟨htrail.trans htrail'.symm, by simpa [htrail, htrail'] using heq⟩
  · have hrows : n.rows = ⟨"trail", n'.trail⟩ :: n'.rows := by simpa [htrail, htrail'] using heq
    exact ((h.2 _ (hrows ▸ List.mem_cons_self)).2 rfl).elim
  · have hrows : ⟨"trail", n.trail⟩ :: n.rows = n'.rows := by simpa [htrail, htrail'] using heq
    exact ((h'.2 _ (hrows ▸ List.mem_cons_self)).2 rfl).elim
  · simpa [htrail, htrail'] using heq

/-! ## Values -/

theorem hang_cons (w : Nat) (b : UInt8) (t : Text) :
    hang w (b :: t) = (if b = byte '\n' then b :: spaces (w + 4) else [b]) ++ hang w t := by
  rw [hang, List.flatMap_cons, ← hang]
  by_cases hb : b = byte '\n'
  · rw [if_pos hb, if_pos (beq_iff_eq.mpr hb), hb]
  · rw [if_neg hb, if_neg (mt beq_iff_eq.mp hb)]

/-- Nothing that ends a value goes on with it. -/
theorem ne_hang_cons (hx : EndsBefore (w + 4) x) (b : UInt8) (t y : Text) :
    x ≠ hang w (b :: t) ++ y := by
  rw [hang_cons]
  by_cases hb : b = byte '\n'
  · rw [if_pos hb, hb, List.cons_append, List.cons_append, List.append_assoc]
    exact hx.not_cons _
  · rw [if_neg hb, List.append_assoc]
    rintro rfl
    exact hb (hx.head? b rfl)

/-- A value ends where a line begins too far to the left. -/
theorem hang_append_inj (hx : EndsBefore (w + 4) x) (hy : EndsBefore (w + 4) y)
    (h : hang w s ++ x = hang w t ++ y) : s = t ∧ x = y := by
  induction s generalizing t with
  | nil =>
    cases t with
    | nil => exact ⟨rfl, h⟩
    | cons c t => exact (ne_hang_cons hx c t y h).elim
  | cons b s ih =>
    cases t with
    | nil => exact (ne_hang_cons hy b s x h.symm).elim
    | cons c t =>
      have hhead : b = c := by
        rw [hang_cons, hang_cons] at h
        split at h <;> split at h <;> exact (List.cons.inj h).1
      subst hhead
      rw [hang_cons, hang_cons, List.append_assoc, List.append_assoc] at h
      obtain ⟨rfl, hrest⟩ := ih (List.append_cancel_left h)
      exact ⟨rfl, hrest⟩

/-! ## Rows -/

theorem rowText_append (h : IsRowName row.name) (w : Nat) (x : Text) :
    rowText w row ++ x = byte '\n' :: (spaces (2 + (w - row.name.length)) ++
      (row.name ++ (byte ':' :: byte ' ' :: (hang w row.value ++ x)))) := by
  have hpad : Text.padLeft w row.name = spaces (w - row.name.length) ++ row.name := by
    rw [Text.padLeft, Text.columns_of_printable fun b hb ↦ (h.2.2 b hb).1]
  calc rowText w row ++ x
    _ = byte '\n' :: (spaces 2 ++ (Text.padLeft w row.name ++
          (byte ':' :: byte ' ' :: (hang w row.value ++ x)))) := by
      rw [rowText, List.append_assoc, List.append_assoc, List.append_assoc]
      rfl
    _ = _ := by rw [hpad, Text.spaces_add, List.append_assoc, List.append_assoc]

/-- A row ends the value of another one, and a header as well. -/
theorem endsBefore_rowText (h : IsRowName row.name) (w : Nat) (x : Text) :
    EndsBefore (w + 4) (rowText w row ++ x) := by
  rw [rowText_append h]
  exact .inr ⟨_, rfl, Text.not_spaces_prefix_append (by omega) h.1 h.2.1 _⟩

/-- The first lines of two rows begin the same text only where name and padding are the same. -/
theorem rowText_append_inj (h : IsRowName row.name) (h' : IsRowName row'.name)
    (heq : rowText w row ++ x = rowText w' row' ++ y) :
    row.name = row'.name ∧ w - row.name.length = w' - row'.name.length ∧
      hang w row.value ++ x = hang w' row'.value ++ y := by
  have hspace (k : Nat) : ∀ b ∈ spaces k, ¬ b ≠ byte ' ' :=
    fun b hb ↦ not_not.mpr (List.eq_of_mem_replicate hb)
  have hhead {name : Text} (hname : IsRowName name) (z : Text) :
      ∀ b ∈ (name ++ z).head?, b ≠ byte ' ' := by
    rw [List.head?_append_of_ne_nil _ hname.1]
    rintro b hb rfl
    exact hname.2.1 hb
  rw [rowText_append h, rowText_append h'] at heq
  obtain ⟨hpadding, hnames⟩ := append_inj_of_stop (p := (· ≠ byte ' ')) (hspace _) (hspace _)
    (hhead h _) (hhead h' _) (List.cons.inj heq).2
  obtain ⟨hname, hvalues⟩ := append_inj_of_stop (p := (· = byte ':'))
    (fun b hb ↦ (h.2.2 b hb).2) (fun b hb ↦ (h'.2.2 b hb).2)
    (fun b hb ↦ (Option.mem_some_iff.mp hb).symm) (fun b hb ↦ (Option.mem_some_iff.mp hb).symm)
    hnames
  have hwidth := congrArg List.length hpadding
  rw [spaces, List.length_replicate, spaces, List.length_replicate] at hwidth
  exact ⟨hname, by omega, (List.cons.inj (List.cons.inj hvalues).2).2⟩

/-- Rows that are written at one width are told by their text. -/
theorem rowTexts_append_inj (h : ∀ row ∈ rows, IsRowName row.name)
    (h' : ∀ row ∈ rows', IsRowName row.name) (hx : EndsBefore 1 x) (hy : EndsBefore 1 y)
    (heq : rows.flatMap (rowText w) ++ x = rows'.flatMap (rowText w) ++ y) :
    rows = rows' ∧ x = y := by
  have hends {rows : List Row} (hrows : ∀ row ∈ rows, IsRowName row.name) {z : Text}
      (hz : EndsBefore 1 z) : EndsBefore (w + 4) (rows.flatMap (rowText w) ++ z) := by
    cases rows with
    | nil => exact hz.mono (by omega)
    | cons row rows =>
      rw [List.flatMap_cons, List.append_assoc]
      exact endsBefore_rowText (hrows row List.mem_cons_self) w _
  induction rows generalizing rows' with
  | nil =>
    cases rows' with
    | nil => exact ⟨rfl, heq⟩
    | cons row' rows' =>
      rw [List.flatMap_cons, List.append_assoc,
        rowText_append (h' row' List.mem_cons_self), Text.spaces_add, List.append_assoc] at heq
      exact (hx.not_cons _ heq).elim
  | cons row rows ih =>
    cases rows' with
    | nil =>
      rw [List.flatMap_cons, List.append_assoc,
        rowText_append (h row List.mem_cons_self), Text.spaces_add, List.append_assoc] at heq
      exact (hy.not_cons _ heq.symm).elim
    | cons row' rows' =>
      obtain ⟨hrow, hrows⟩ := List.forall_mem_cons.mp h
      obtain ⟨hrow', hrows'⟩ := List.forall_mem_cons.mp h'
      rw [List.flatMap_cons, List.append_assoc, List.flatMap_cons, List.append_assoc] at heq
      obtain ⟨hname, -, hvalues⟩ := rowText_append_inj hrow hrow' heq
      obtain ⟨hvalue, hrest⟩ := hang_append_inj (hends hrows hx) (hends hrows' hy) hvalues
      obtain ⟨rfl, rfl⟩ := ih hrows hrows' hrest
      exact ⟨congrArg (· :: rows) (congrArg₂ Row.mk hname hvalue), rfl⟩

theorem length_le_nameWidth (row : Row) (rows : List Row) :
    row.name.length ≤ nameWidth (row :: rows) := by
  have hle (width : Nat) :
      width ≤ rows.foldl (fun width row ↦ max width row.name.length) width := by
    induction rows generalizing width with
    | nil => exact le_rfl
    | cons row rows ih => exact (Nat.le_max_left ..).trans (ih _)
  exact (Nat.le_max_right ..).trans (hle _)

/-- The text of the first row tells the width at which all of them are written. -/
theorem nameWidth_eq (h : IsRowName row.name) (h' : IsRowName row'.name)
    (heq : rowText (nameWidth (row :: rows)) row ++ x =
      rowText (nameWidth (row' :: rows')) row' ++ y) :
    nameWidth (row :: rows) = nameWidth (row' :: rows') := by
  obtain ⟨hname, hpadding, -⟩ := rowText_append_inj h h' heq
  have hle := length_le_nameWidth row rows
  have hle' := length_le_nameWidth row' rows'
  rw [hname] at hle hpadding
  omega

def block (rows : List Row) : Text :=
  rows.flatMap (rowText (nameWidth rows))

/-- The rows of a notice can be read back from their block. -/
theorem block_append_inj (h : ∀ row ∈ rows, IsRowName row.name)
    (h' : ∀ row ∈ rows', IsRowName row.name) (hx : EndsBefore 1 x) (hy : EndsBefore 1 y)
    (heq : block rows ++ x = block rows' ++ y) : rows = rows' ∧ x = y := by
  unfold block at heq
  -- the width matters only where there is a row on both sides
  cases rows with
  | nil => exact rowTexts_append_inj (w := nameWidth rows') h h' hx hy heq
  | cons row rows =>
    cases rows' with
    | nil => exact rowTexts_append_inj (w := nameWidth (row :: rows)) h h' hx hy heq
    | cons row' rows' =>
      have hwidth : nameWidth (row :: rows) = nameWidth (row' :: rows') := by
        rw [List.flatMap_cons, List.append_assoc, List.flatMap_cons, List.append_assoc] at heq
        exact nameWidth_eq (h row List.mem_cons_self) (h' row' List.mem_cons_self) heq
      rw [← hwidth] at heq
      exact rowTexts_append_inj h h' hx hy heq

theorem endsBefore_block (h : ∀ row ∈ rows, IsRowName row.name) (hx : EndsBefore 1 x) :
    ∀ b ∈ (block rows ++ x).head?, b = byte '\n' := by
  unfold block
  cases rows with
  | nil => exact hx.head?
  | cons row rows =>
    rw [List.flatMap_cons, List.append_assoc]
    exact (endsBefore_rowText (h row List.mem_cons_self) _ _).head?

/-! ## Notices -/

def headline (n : Notice) : Text :=
  if n.shownRows = [] then n.header else n.header ++ ":"

/-- A notice is its first line and the block of its rows. -/
theorem text_eq (n : Notice) : n.text = n.headline ++ block n.shownRows := by
  rw [text, headline]
  by_cases hrows : n.shownRows = []
  · rw [if_pos (List.isEmpty_iff.mpr hrows), if_pos hrows, hrows]
    exact (List.append_nil _).symm
  · rw [if_neg (mt List.isEmpty_iff.mp hrows), if_neg hrows]
    rfl

theorem IsLegible.headline (h : n.IsLegible) : ∀ b ∈ n.headline, b ≠ byte '\n' := by
  rw [Notice.headline]
  split
  · exact fun b hb heq ↦ h.1.2.2 (heq ▸ hb)
  · intro b hb
    rcases List.mem_append.mp hb with hb | hb
    · exact fun heq ↦ h.1.2.2 (heq ▸ hb)
    · obtain rfl := List.mem_singleton.mp hb
      decide

/-- A notice ends where a line begins without a space. -/
theorem text_append_inj (h : n.IsLegible) (h' : n'.IsLegible) (hx : EndsBefore 1 x)
    (hy : EndsBefore 1 y) (heq : n.text ++ x = n'.text ++ y) : n = n' ∧ x = y := by
  rw [text_eq, List.append_assoc, text_eq, List.append_assoc] at heq
  obtain ⟨hline, hblock⟩ := append_inj_of_stop (p := (· = byte '\n')) h.headline h'.headline
    (endsBefore_block h.shownRows hx) (endsBefore_block h'.shownRows hy) heq
  obtain ⟨hrows, hrest⟩ := block_append_inj h.shownRows h'.shownRows hx hy hblock
  have hheader : n.header = n'.header := by
    rw [headline, headline, ← hrows] at hline
    split at hline
    · exact hline
    · exact List.append_cancel_right hline
  obtain ⟨htrail, hrows⟩ := trail_eq_of_shownRows_eq h h' hrows
  cases n
  cases n'
  exact ⟨congr (congrArg₂ Notice.mk hheader htrail) hrows, hrest⟩

theorem IsLegible.text_ne_nil (h : n.IsLegible) : n.text ≠ [] := by
  rw [text_eq]
  refine List.append_ne_nil_of_left_ne_nil ?_ _
  rw [Notice.headline]
  split
  · exact h.1.1
  · exact List.append_ne_nil_of_left_ne_nil h.1.1 _

/-- A notice that follows on a line of its own ends the one before. -/
theorem IsLegible.endsBefore (h : n.IsLegible) (x : Text) :
    EndsBefore 1 (byte '\n' :: (n.text ++ x)) := by
  obtain ⟨rest, htext⟩ : ∃ rest, n.text = n.header ++ rest := by
    rw [text_eq, Notice.headline]
    split
    · exact ⟨_, rfl⟩
    · exact ⟨_, List.append_assoc ..⟩
  rw [htext, List.append_assoc]
  exact .inr ⟨_, rfl, Text.not_spaces_prefix_append (m := 0) Nat.one_pos h.1.1 h.1.2.1 _⟩

/-- Notices that follow on lines of their own are told by their text. -/
theorem texts_inj {notices notices' : List Notice} (h : ∀ n ∈ notices, n.IsLegible)
    (h' : ∀ n ∈ notices', n.IsLegible)
    (heq : (notices.flatMap fun n ↦ byte '\n' :: n.text) =
      notices'.flatMap fun n ↦ byte '\n' :: n.text) : notices = notices' := by
  have hends {notices : List Notice} (hnotices : ∀ n ∈ notices, n.IsLegible) :
      EndsBefore 1 (notices.flatMap fun n ↦ byte '\n' :: n.text) := by
    cases notices with
    | nil => exact Text.endsBefore_nil 1
    | cons n notices => exact (hnotices n List.mem_cons_self).endsBefore _
  induction notices generalizing notices' with
  | nil =>
    cases notices' with
    | nil => rfl
    | cons n' notices' => cases heq
  | cons n notices ih =>
    cases notices' with
    | nil => cases heq
    | cons n' notices' =>
      obtain ⟨hn, hnotices⟩ := List.forall_mem_cons.mp h
      obtain ⟨hn', hnotices'⟩ := List.forall_mem_cons.mp h'
      obtain ⟨rfl, hrest⟩ :=
        text_append_inj hn hn' (hends hnotices) (hends hnotices') (List.cons.inj heq).2
      rw [ih hnotices hnotices' hrest]

end Notice

namespace Report

open Text (byte)

/-- Further notices stand below a message, each on a line of its own. -/
theorem foldl_appendText {message : Text} (h : message ≠ []) (notices : List Notice) :
    notices.foldl appendText message =
      message ++ notices.flatMap fun n ↦ byte '\n' :: n.text := by
  induction notices generalizing message with
  | nil => exact (List.append_nil _).symm
  | cons n notices ih =>
    have hstep : appendText message n = message ++ (byte '\n' :: n.text) := by
      rw [appendText, if_neg (mt List.isEmpty_iff.mp h), List.append_assoc]
      rfl
    rw [List.foldl_cons, hstep, ih (List.append_ne_nil_of_left_ne_nil h _), List.flatMap_cons,
      List.append_assoc]

/-- Every notice of a message is on lines of its own. -/
theorem message_cons {n : Notice} (h : n.IsLegible) (notices : List Notice) :
    message ⟨n :: notices⟩ = n.text ++ notices.flatMap fun n ↦ byte '\n' :: n.text :=
  foldl_appendText h.text_ne_nil notices

/-- The message of a report tells its notices, whatever their trails and values hold. -/
theorem message_eq_iff {r r' : Report} (h : ∀ n ∈ r.notices, n.IsLegible)
    (h' : ∀ n ∈ r'.notices, n.IsLegible) : r.message = r'.message ↔ r = r' := by
  refine ⟨fun heq ↦ ?_, congrArg message⟩
  obtain ⟨notices⟩ := r
  obtain ⟨notices'⟩ := r'
  apply congrArg mk
  cases notices with
  | nil =>
    cases notices' with
    | nil => rfl
    | cons n' notices' =>
      have hn' := h' n' List.mem_cons_self
      rw [message_cons hn'] at heq
      exact (List.append_ne_nil_of_left_ne_nil hn'.text_ne_nil _ heq.symm).elim
  | cons n notices =>
    have hn := h n List.mem_cons_self
    cases notices' with
    | nil =>
      rw [message_cons hn] at heq
      exact (List.append_ne_nil_of_left_ne_nil hn.text_ne_nil _ heq).elim
    | cons n' notices' =>
      rw [message_cons hn, message_cons (h' n' List.mem_cons_self)] at heq
      exact Notice.texts_inj h h' (congrArg (byte '\n' :: ·) heq)

/-- A value that is written like the end of its own notice and the whole of another one. -/
def forged : Report :=
  ⟨[{ header := "Values differ", trail := "Box.Words[0]"
      rows := [⟨"want", "1"⟩, ⟨"have", "2\nSizes differ:\n  trail: Box.Words\n  want: 3"⟩] }]⟩

/-- The two notices which the forged value is written like. -/
def genuine : Report :=
  ⟨[{ header := "Values differ", trail := "Box.Words[0]", rows := [⟨"want", "1"⟩, ⟨"have", "2"⟩] },
    { header := "Sizes differ", trail := "Box.Words", rows := [⟨"want", "3"⟩] }]⟩

/-- The message tells one notice with a forged value from two notices. -/
theorem message_forged_ne_message_genuine : forged.message ≠ genuine.message :=
  mt (message_eq_iff (by decide) (by decide)).mp (by decide)

end Report

end Discrepancy
