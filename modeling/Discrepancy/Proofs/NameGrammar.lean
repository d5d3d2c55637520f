import Discrepancy.Proofs.Digits
import Discrepancy.Proofs.Pieces
import Discrepancy.Ty

/-!
# The grammar of names

The names of types are written in a small language: words, templates with their arguments, marks
behind what they mark, and functions with their parameters.  Nothing encloses what a mark belongs
to, so that a name is not read from its beginning.  Read from its end it is read in one way only:
the last byte tells a mark, a template or a function from a word, and a word goes on up to an
opening bracket, a comma, or the beginning.  The exceptions need care.  A word may end like a mark
that is written in letters, two references look like one to an object about to go, and the brackets
of a function stand where the parameters of another one may end.
-/

namespace Discrepancy

open Text (byte joinWith)

/-- What stands in front of angle brackets. -/
inductive Template where
  | complex | shared | unique | optional | vector | array | map | unorderedMap | variant | function
  | duration | ratio | timePoint
  deriving DecidableEq

def Template.name : Template → Text
  | complex => "std::complex"
  | shared => "std::shared_ptr"
  | unique => "std::unique_ptr"
  | optional => "std::optional"
  | vector => "std::vector"
  | array => "std::array"
  | map => "std::map"
  | unorderedMap => "std::unordered_map"
  | variant => "std::variant"
  | function => "std::function"
  | duration => "std::chrono::duration"
  | ratio => "std::ratio"
  | timePoint => "std::chrono::time_point"

theorem Template.name_injective {t u : Template} (h : t.name = u.name) : t = u := by
  cases t <;> cases u <;> first | rfl | exact absurd h (by decide)

/-- What stands behind what it marks. -/
inductive Mark where
  | constant
  | reference
  /-- A reference to an object about to go. -/
  | transient
  | star
  | size (n : Nat)
  deriving DecidableEq

def Mark.text : Mark → Text
  | constant => " const"
  | reference => "&"
  | transient => "&&"
  | star => "*"
  | size n => "[" ++ Text.ofNat n ++ "]"

/-- Whether a mark is that of a reference. -/
def Mark.refers : Mark → Bool
  | reference | transient => true
  | _ => false

/-- What stands between the result of a function and its parameters in their brackets. -/
def FunctionForm.mark : FunctionForm → Text
  | plain => "(*)"
  | wrapped => ""

/-- A name by its parts. -/
inductive Phrase where
  | word (w : Text)
  | applied (template : Template) (arguments : List Phrase)
  | marked (p : Phrase) (mark : Mark)
  | call (form : FunctionForm) (result : Phrase) (parameters : List Phrase)

namespace Phrase

mutual

def text : Phrase → Text
  | word w => w
  | applied template arguments =>
    template.name ++ "<" ++ joinWith ", " (texts arguments) ++ ">"
  | marked p mark => text p ++ mark.text
  | call form result parameters =>
    text result ++ form.mark ++ "(" ++ joinWith ", " (texts parameters) ++ ")"
termination_by structural p => p

def texts : List Phrase → List Text
  | [] => []
  | p :: ps => text p :: texts ps
termination_by structural ps => ps

end

theorem texts_eq_map (ps : List Phrase) : texts ps = ps.map text := by
  induction ps with
  | nil => rfl
  | cons p ps ih => rw [texts, ih, List.map_cons]

def refers : Phrase → Bool
  | marked _ mark => mark.refers
  | _ => false

end Phrase

/-! ## Words -/

/-- The bytes which words do not have. -/
def brackets : Text :=
  "<>()[]*&,"

def IsBare (t : Text) : Prop :=
  ∀ b ∈ t, b ∉ brackets

instance : DecidablePred IsBare :=
  fun t ↦ List.decidableBAll _ t

/-- A word has no brackets, and does not end as if it were marked as constant. -/
structure IsWord (w : Text) : Prop where
  ne_nil : w ≠ []
  bare : IsBare w
  unmarked : ¬ Mark.constant.text <:+ w

instance : DecidablePred IsWord := fun w ↦
  decidable_of_iff (w ≠ [] ∧ IsBare w ∧ ¬ Mark.constant.text <:+ w)
    ⟨fun h ↦ ⟨h.1, h.2.1, h.2.2⟩, fun h ↦ ⟨h.ne_nil, h.bare, h.unmarked⟩⟩

/-- What is met in front of a phrase when it is read backwards: nothing, an opening bracket, or a
space and a comma. -/
inductive IsFront : Text → Prop
  | nil : IsFront []
  | angle (x : Text) : IsFront (byte '<' :: x)
  | round (x : Text) : IsFront (byte '(' :: x)
  | comma (x : Text) : IsFront (byte ' ' :: byte ',' :: x)

section Words

variable {s t w x y : Text} {b : UInt8}

theorem IsFront.ne_comma (h : IsFront x) (y : Text) : x ≠ byte ',' :: y := by
  cases h <;> simp [byte]

/-- Nothing without brackets is in front of a phrase, unless a comma follows. -/
theorem IsFront.eq_nil_of_bare (h : IsFront (s ++ x)) (hs : IsBare s)
    (hx : ∀ y, x ≠ byte ',' :: y) : s = [] := by
  cases s with
  | nil => rfl
  | cons b s =>
    rw [IsBare, List.forall_mem_cons] at hs
    rw [List.cons_append] at h
    generalize hrest : s ++ x = rest at h
    cases h with
    | angle => exact absurd (by decide) hs.1
    | round => exact absurd (by decide) hs.1
    | comma y =>
      -- a space is in front of a phrase only where a comma comes next
      cases s with
      | nil => exact (hx y hrest).elim
      | cons c s =>
        obtain ⟨rfl, -⟩ := List.cons.inj hrest
        exact absurd (by decide) (hs.2 _ List.mem_cons_self)

/-- Where texts without brackets end is told by the fronts behind them. -/
theorem append_inj_of_bare (hs : IsBare s) (ht : IsBare t)
    (hx : IsFront x) (hy : IsFront y) (h : s ++ x = t ++ y) : s = t ∧ x = y := by
  rcases List.append_eq_append_iff.mp h with ⟨u, rfl, rfl⟩ | ⟨u, rfl, rfl⟩
  · obtain rfl := hx.eq_nil_of_bare (List.forall_mem_append.mp ht).2 hy.ne_comma
    exact ⟨(List.append_nil s).symm, rfl⟩
  · obtain rfl := hy.eq_nil_of_bare (List.forall_mem_append.mp hs).2 hx.ne_comma
    exact ⟨List.append_nil t, rfl⟩

theorem IsWord.bare_reverse (h : IsWord w) : IsBare w.reverse :=
  fun b hb ↦ h.bare b (List.mem_reverse.mp hb)

/-- A word does not end in a bracket. -/
theorem IsWord.not_mem_brackets (h : IsWord w) (heq : w.reverse ++ x = b :: y) :
    b ∉ brackets := by
  cases hw : w.reverse with
  | nil => exact (h.ne_nil (List.reverse_eq_nil_iff.mp hw)).elim
  | cons c s =>
    rw [hw, List.cons_append] at heq
    obtain ⟨rfl, -⟩ := List.cons.inj heq
    exact h.bare_reverse c (hw ▸ List.mem_cons_self)

theorem isBare_ofNat (n : Nat) : IsBare (Text.ofNat n) := by
  intro b hb hbracket
  obtain ⟨d, hd, rfl⟩ := Text.isDigit_of_mem_ofNat hb
  interval_cases d <;> exact absurd hbracket (by decide)

/-- A numeral is a word. -/
theorem isWord_ofNat (n : Nat) : IsWord (Text.ofNat n) where
  ne_nil := Text.ofNatBase_ne_nil (by decide) n
  bare := isBare_ofNat n
  unmarked hsuffix :=
    absurd (Text.isDigit_of_mem_ofNat (hsuffix.subset (by decide : byte ' ' ∈ Mark.constant.text)))
      (by decide)

/-- Names of templates have no brackets. -/
theorem Template.bare_name (t : Template) : IsBare t.name.reverse := by
  cases t <;> decide

/-- A word is not taken for what is marked as constant. -/
theorem IsWord.append_ne_constant (h : IsWord w) (hx : IsFront x)
    (hy : ∀ z, y ≠ byte ',' :: z) : w.reverse ++ x ≠ Mark.constant.text.reverse ++ y := by
  intro heq
  apply h.unmarked
  rw [← List.reverse_prefix]
  rcases List.append_eq_append_iff.mp heq with ⟨u, hu, rfl⟩ | ⟨u, hu, -⟩
  -- a word that is shorter than the mark would have the rest of the mark in front of it
  · have hbare : IsBare Mark.constant.text.reverse := by decide
    obtain rfl := hx.eq_nil_of_bare (List.forall_mem_append.mp (hu ▸ hbare)).2 hy
    exact ⟨[], by rw [List.append_nil, hu, List.append_nil]⟩
  · exact ⟨u, hu.symm⟩

end Words

/-! ## Phrases from their ends -/

/-- The phrases whose words are words, and where no reference is marked as one. -/
inductive Phrase.Proper : Phrase → Prop
  | word {w : Text} (h : IsWord w) : (word w).Proper
  | applied {template : Template} {arguments : List Phrase} (h : ∀ p ∈ arguments, p.Proper) :
      (applied template arguments).Proper
  | marked {p : Phrase} {mark : Mark} (h : p.Proper) (hmark : mark.refers → ¬ p.refers) :
      (marked p mark).Proper
  | call {form : FunctionForm} {result : Phrase} {parameters : List Phrase} (h : result.Proper)
      (hparameters : ∀ p ∈ parameters, p.Proper) : (call form result parameters).Proper

def Mark.back (m : Mark) : Text :=
  m.text.reverse

def Mark.last : Mark → UInt8
  | constant => byte 't'
  | reference | transient => byte '&'
  | star => byte '*'
  | size _ => byte ']'

theorem Mark.last_mem_brackets {m : Mark} (h : m ≠ constant) : m.last ∈ brackets := by
  cases m with
  | constant => exact (h rfl).elim
  | size n => exact (by decide : byte ']' ∈ brackets)
  | _ => decide

theorem Mark.last_not_mem (m : Mark) : m.last ∉ Text.utf8 "<>()," := by
  cases m with
  | size n => exact (by decide : byte ']' ∉ Text.utf8 "<>(),")
  | _ => decide

/-- No mark ends with a bracket of arguments or with a comma. -/
theorem Mark.ne_last {b : UInt8} (h : b ∈ Text.utf8 "<>(),") (m : Mark) : b ≠ m.last :=
  fun heq ↦ m.last_not_mem (heq ▸ h)

theorem Mark.back_size (n : Nat) (x : Text) :
    (size n).back ++ x = byte ']' :: ((Text.ofNat n).reverse ++ byte '[' :: x) := by
  rw [back, text, List.reverse_append, List.reverse_append, List.append_assoc, List.append_assoc]
  rfl

theorem Mark.exists_back (m : Mark) : ∃ rest, m.back = m.last :: rest := by
  cases m with
  | size n => exact ⟨(byte '[' :: Text.ofNat n).reverse, List.reverse_append⟩
  | _ => exact ⟨_, rfl⟩

namespace Phrase

variable {p q r : Phrase} {ps qs : List Phrase} {m : Mark} {x y : Text} {c : UInt8}

def back (p : Phrase) : Text :=
  p.text.reverse

/-- The texts of phrases with commas between them, from the end. -/
def listed (ps : List Phrase) : Text :=
  joinWith " ," (ps.reverse.map back)

/-- Reading a list of phrases backwards gives the reversed text. -/
theorem reverse_joinWith_texts (ps : List Phrase) :
    (joinWith ", " (texts ps)).reverse = listed ps := by
  rw [Text.reverse_joinWith, texts_eq_map, ← List.map_reverse, List.map_map]
  rfl

theorem back_word (w : Text) : (word w).back = w.reverse := by
  rw [back, text]

theorem back_applied (template : Template) (ps : List Phrase) (x : Text) :
    (applied template ps).back ++ x =
      byte '>' :: (listed ps ++ byte '<' :: (template.name.reverse ++ x)) := by
  have hback : (applied template ps).back =
      byte '>' :: (listed ps ++ byte '<' :: template.name.reverse) := by
    rw [back, text, List.reverse_append, List.reverse_append, List.reverse_append,
      reverse_joinWith_texts]
    rfl
  rw [hback, List.cons_append, List.append_assoc, List.cons_append]

theorem back_marked (p : Phrase) (m : Mark) (x : Text) :
    (marked p m).back ++ x = m.back ++ (p.back ++ x) := by
  rw [back, text, List.reverse_append, List.append_assoc]
  rfl

theorem back_call (form : FunctionForm) (result : Phrase) (ps : List Phrase) (x : Text) :
    (call form result ps).back ++ x =
      byte ')' :: (listed ps ++ byte '(' :: (form.mark.reverse ++ (result.back ++ x))) := by
  have hback : (call form result ps).back =
      byte ')' :: (listed ps ++ byte '(' :: (form.mark.reverse ++ result.back)) := by
    rw [back, text, List.reverse_append, List.reverse_append, List.reverse_append,
      List.reverse_append, reverse_joinWith_texts]
    rfl
  rw [hback, List.cons_append, List.append_assoc, List.cons_append, List.append_assoc]

/-- What the last byte of a phrase tells of it. -/
def EndsIn : Phrase → UInt8 → Prop
  | word _, b => b ∉ brackets
  | applied .., b => b = byte '>'
  | marked _ m, b => b = m.last
  | call .., b => b = byte ')'

theorem Proper.endsIn (h : p.Proper) (heq : p.back ++ x = c :: y) : p.EndsIn c := by
  cases h with
  | word hw =>
    rw [back_word] at heq
    exact hw.not_mem_brackets heq
  | applied =>
    rw [back_applied] at heq
    exact (List.cons.inj heq).1.symm
  | @marked p m =>
    obtain ⟨rest, hrest⟩ := m.exists_back
    rw [back_marked, hrest] at heq
    exact (List.cons.inj heq).1.symm
  | call =>
    rw [back_call] at heq
    exact (List.cons.inj heq).1.symm

/-- A phrase does not end like the opening of a list or like a comma. -/
theorem Proper.append_ne (h : p.Proper) (hc : c = byte '<' ∨ c = byte '(' ∨ c = byte ',')
    (x y : Text) : p.back ++ x ≠ c :: y := by
  intro heq
  have hends := h.endsIn heq
  cases p with
  | word w => rcases hc with rfl | rfl | rfl <;> exact hends (by decide)
  | marked p m => rcases hc with rfl | rfl | rfl <;> exact m.ne_last (by decide) hends
  | _ => rcases hc with rfl | rfl | rfl <;> simp [EndsIn, byte] at hends

/-- A name that ends with an ampersand is that of a reference. -/
theorem Proper.refers_of_append_eq (h : p.Proper) (heq : p.back ++ x = byte '&' :: y) :
    p.refers := by
  have hends := h.endsIn heq
  cases p with
  | word w => exact (hends (by decide)).elim
  | marked p m =>
    cases m with
    | reference | transient => rfl
    | _ => simp [EndsIn, Mark.last, byte] at hends
  | _ => simp [EndsIn, byte] at hends

/-! ## Reading -/

/-- A phrase with something in front of it is told from every other one. -/
def Told (p : Phrase) : Prop :=
  ∀ q x y, q.Proper → IsFront x → IsFront y → p.back ++ x = q.back ++ y → p = q ∧ x = y

theorem separates_front (hc : c = byte '<' ∨ c = byte '(') :
    Text.Separates " ," c IsFront where
  between := .comma
  behind x := by
    rcases hc with rfl | rfl
    · exact .angle x
    · exact .round x
  apart x y heq := by
    rcases hc with rfl | rfl <;> exact absurd (List.cons.inj heq).1 (by decide)

/-- Lists are read item by item. -/
theorem listed_inj (hps : ∀ p ∈ ps, p.Proper ∧ p.Told) (hqs : ∀ q ∈ qs, q.Proper)
    (hc : c = byte '<' ∨ c = byte '(') (h : listed ps ++ c :: x = listed qs ++ c :: y) :
    ps = qs ∧ x = y := by
  have hne : ∀ p, p ∈ ps.reverse ∨ p ∈ qs.reverse → ∀ x y, p.back ++ x ≠ c :: y := by
    simp only [List.mem_reverse]
    rintro p (hp | hp)
    · exact (hps p hp).1.append_ne (hc.imp_right .inl)
    · exact (hqs p hp).append_ne (hc.imp_right .inl)
  have hread := (separates_front hc).joinWith_append_inj (R := Eq) ?_ (.inr hne) h
  · exact hread.imp_left fun hall ↦ List.reverse_injective (List.forall₂_eq_eq_eq ▸ hall)
  · intro p q hmem x y hx hy heq
    obtain ⟨hp, hq⟩ := List.of_mem_zip hmem
    exact (hps p (List.mem_reverse.mp hp)).2 q x y (hqs q (List.mem_reverse.mp hq)) hx hy heq

/-- No phrase is a star with nothing in front of it. -/
theorem Proper.append_ne_star (h : p.Proper) (x y : Text) :
    p.back ++ x ≠ byte '*' :: byte '(' :: y := by
  intro heq
  have hends := h.endsIn heq
  cases h with
  | word => exact hends (by decide)
  | @marked p m hp =>
    cases m with
    | star =>
      rw [back_marked] at heq
      exact hp.append_ne (.inr (.inl rfl)) x y (List.cons.inj heq).2
    | _ => simp [EndsIn, Mark.last, byte] at hends
  | _ => simp [EndsIn, byte] at hends

/-- No function has the brackets of another function for its parameters. -/
theorem Proper.append_ne_mark (h : p.Proper) (x y : Text) :
    p.back ++ x ≠ byte ')' :: byte '*' :: byte '(' :: y := by
  intro heq
  have hends := h.endsIn heq
  cases h with
  | word => exact hends (by decide)
  | applied => simp [EndsIn, byte] at hends
  | @marked p m => exact m.ne_last (by decide) hends
  | @call form result parameters _ hparameters =>
    rw [back_call] at heq
    -- the last parameter would be a star, and the bracket that opens the list would be marked by it
    have hrest := (List.cons.inj heq).2
    cases hreverse : parameters.reverse with
    | nil =>
      rw [listed, hreverse] at hrest
      exact absurd (List.cons.inj hrest).1 (by decide)
    | cons q qs =>
      have hq : q.Proper := hparameters q (List.mem_reverse.mp (hreverse ▸ List.mem_cons_self))
      rw [listed, hreverse, Text.joinWith_map_cons] at hrest
      exact hq.append_ne_star _ _ hrest

end Phrase

/-- Marks are read one by one, where two references are not one mark and another one. -/
theorem Mark.append_inj {m m' : Mark} {s t : Text}
    (hs : m.refers → ∀ z, s ≠ byte '&' :: z) (ht : m'.refers → ∀ z, t ≠ byte '&' :: z)
    (h : m.back ++ s = m'.back ++ t) : m = m' ∧ s = t := by
  have hlast : m.last = m'.last := by
    obtain ⟨rest, hrest⟩ := m.exists_back
    obtain ⟨rest', hrest'⟩ := m'.exists_back
    rw [hrest, hrest'] at h
    exact (List.cons.inj h).1
  cases m with
  | constant =>
    cases m' with
    | constant => exact ⟨rfl, List.append_cancel_left h⟩
    | _ => simp [last, byte] at hlast
  | reference =>
    cases m' with
    | reference => exact ⟨rfl, List.append_cancel_left h⟩
    | transient => exact (hs rfl t (List.cons.inj h).2).elim
    | _ => simp [last, byte] at hlast
  | transient =>
    cases m' with
    | transient => exact ⟨rfl, List.append_cancel_left h⟩
    | reference => exact (ht rfl s (List.cons.inj h).2.symm).elim
    | _ => simp [last, byte] at hlast
  | star =>
    cases m' with
    | star => exact ⟨rfl, List.append_cancel_left h⟩
    | _ => simp [last, byte] at hlast
  | size n =>
    cases m' with
    | size n' =>
      rw [back_size, back_size] at h
      have hdigits (n : Nat) : ∀ b ∈ (Text.ofNat n).reverse, b ≠ byte '[' := fun b hb heq ↦
        isBare_ofNat n b (List.mem_reverse.mp hb) (heq ▸ by decide)
      have hopening (s : Text) : ∀ b ∈ (byte '[' :: s).head?, b = byte '[' :=
        fun b hb ↦ (Option.mem_some_iff.mp hb).symm
      obtain ⟨hnumbers, hrest⟩ := append_inj_of_stop (hdigits n) (hdigits n') (hopening s)
        (hopening t) (List.cons.inj h).2
      exact ⟨congrArg size (Text.ofNat_injective (List.reverse_injective hnumbers)),
        (List.cons.inj hrest).2⟩
    | _ => simp [last, byte] at hlast

namespace Phrase

variable {p q r : Phrase} {ps qs : List Phrase} {m : Mark} {x y w : Text} {c : UInt8}

theorem told_word (hw : IsWord w) : (word w).Told := by
  intro q x y hq hx hy heq
  rw [back_word] at heq
  cases hq with
  | word hw' =>
    rw [back_word] at heq
    obtain ⟨hwords, hrest⟩ := append_inj_of_bare hw.bare_reverse hw'.bare_reverse hx hy heq
    exact ⟨congrArg word (List.reverse_injective hwords), hrest⟩
  | applied =>
    rw [back_applied] at heq
    exact (hw.not_mem_brackets heq (by decide)).elim
  | @marked q m hq =>
    rw [back_marked] at heq
    cases m with
    | constant =>
      have hcomma (z : Text) : q.back ++ y ≠ byte ',' :: z := hq.append_ne (.inr (.inr rfl)) y z
      exact (hw.append_ne_constant hx hcomma heq).elim
    | _ =>
      obtain ⟨rest, hrest⟩ := Mark.exists_back _
      rw [hrest] at heq
      exact (hw.not_mem_brackets heq (Mark.last_mem_brackets nofun)).elim
  | call =>
    rw [back_call] at heq
    exact (hw.not_mem_brackets heq (by decide)).elim

/-- A template applied to phrases is told from other phrases if its arguments are. -/
theorem told_applied {template : Template} (hps : ∀ p ∈ ps, p.Proper ∧ p.Told) :
    (applied template ps).Told := by
  intro q x y hq hx hy heq
  rw [back_applied] at heq
  have hends := hq.endsIn heq.symm
  cases hq with
  | word => exact (hends (by decide)).elim
  | @applied template' qs hqs =>
    rw [back_applied] at heq
    obtain ⟨rfl, hnames⟩ := listed_inj hps hqs (.inl rfl) (List.cons.inj heq).2
    obtain ⟨hname, hrest⟩ :=
      append_inj_of_bare template.bare_name template'.bare_name hx hy hnames
    obtain rfl := Template.name_injective (List.reverse_injective hname)
    exact ⟨rfl, hrest⟩
  | @marked q m => exact (m.ne_last (by decide) hends).elim
  | call => simp [EndsIn, byte] at hends

/-- A marked phrase is told from others if the phrase without the mark is. -/
theorem told_marked (hp : p.Proper) (hmark : m.refers → ¬ p.refers) (htold : p.Told) :
    (marked p m).Told := by
  intro q x y hq hx hy heq
  cases hq with
  | word hw =>
    have hq := told_word hw _ y x (.marked hp hmark) hy hx heq.symm
    exact absurd hq.1 (by simp)
  | @marked q m' hq hmark' =>
    rw [back_marked, back_marked] at heq
    obtain ⟨rfl, hrest⟩ := Mark.append_inj
      (fun hm z hz ↦ hmark hm (hp.refers_of_append_eq hz))
      (fun hm z hz ↦ hmark' hm (hq.refers_of_append_eq hz)) heq
    exact (htold q x y hq hx hy hrest).imp_left (congrArg (marked · m))
  | @applied template qs hqs =>
    exact (m.ne_last (by decide)
      (Proper.endsIn (.marked hp hmark) (heq.trans (back_applied template qs y)))).elim
  | @call form result parameters =>
    exact (m.ne_last (by decide)
      (Proper.endsIn (.marked hp hmark) (heq.trans (back_call form result parameters y)))).elim

/-- A function is told from other phrases if its result and its parameters are. -/
theorem told_call {form : FunctionForm} (hr : r.Told) (hrp : r.Proper)
    (hps : ∀ p ∈ ps, p.Proper ∧ p.Told) : (call form r ps).Told := by
  intro q x y hq hx hy heq
  rw [back_call] at heq
  have hends := hq.endsIn heq.symm
  cases hq with
  | word => exact (hends (by decide)).elim
  | applied => simp [EndsIn, byte] at hends
  | @marked q m => exact (m.ne_last (by decide) hends).elim
  | @call form' r' qs hr' hqs =>
    rw [back_call] at heq
    obtain ⟨rfl, hresults⟩ := listed_inj hps hqs (.inr rfl) (List.cons.inj heq).2
    -- what is left tells the form: no result ends like the brackets around a star
    obtain rfl : form = form' := by
      cases form <;> cases form'
      · rfl
      · exact (hr'.append_ne_mark y _ hresults.symm).elim
      · exact (hrp.append_ne_mark x _ hresults).elim
      · rfl
    obtain ⟨rfl, hrest⟩ := hr r' x y hr' hx hy (List.append_cancel_left hresults)
    exact ⟨rfl, hrest⟩

/-- A phrase is read in one way only. -/
theorem Proper.told (h : p.Proper) : p.Told := by
  -- on the parts of one phrase, for all other phrases and all that is in front of the two
  induction h with
  | word hw => exact told_word hw
  | applied hps ih => exact told_applied fun p hp ↦ ⟨hps p hp, ih p hp⟩
  | marked hp hmark ih => exact told_marked hp hmark ih
  | call hr hps ih ihps => exact told_call ih hr fun p hp ↦ ⟨hps p hp, ihps p hp⟩

/-- Different phrases have different texts. -/
theorem Proper.text_injective (hp : p.Proper) (hq : q.Proper) (h : p.text = q.text) : p = q := by
  have hback : p.back ++ [] = q.back ++ [] := by rw [back, back, h]
  exact (hp.told q [] [] hq .nil .nil hback).1

end Phrase

end Discrepancy
