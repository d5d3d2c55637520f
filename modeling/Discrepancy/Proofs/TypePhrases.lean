import Discrepancy.Proofs.NameGrammar
import Discrepancy.Proofs.Parts

/-!
# What type names leave out

The name of a type is the text of a phrase.  What the phrase keeps of the type is the type as it is
displayed: all borrowed strings are of one type wherever they stand, nothing is volatile, and
fractions are told by their lowest terms; nothing is said about comparators.  So a type and the type
as it is displayed have one phrase, and thereby one name.  Spans with a name of their own are the
delicate case, since another fraction may have their terms for its lowest ones, and is displayed by
these all the same.
-/

namespace Discrepancy

/-! ## The phrases of types -/

def Phrase.borrowed : Phrase :=
  .marked (.marked (.word "char") .constant) .star

def StringTy.phrase (t : StringTy) : Phrase :=
  if t.isBorrowed then .borrowed else .word t.name

def Period.phrase (p : Period) : Phrase :=
  .applied .ratio [.word (Text.ofNat p.num), .word (Text.ofNat p.den)]

/-- The phrase of a span of time, given the phrase of its count. -/
def Ty.spanPhrase (count : AtomTy) (countPhrase : Phrase) (period : Period) : Phrase :=
  match Ty.ownSpanName? count period with
  | some name => .word name
  | none => .applied .duration [countPhrase, period.reduced.phrase]

def AtomTy.phrase : AtomTy → Phrase
  | complex t => .applied .complex [.word t.name]
  | string t => t.phrase
  | span count period => Ty.spanPhrase count count.phrase period
  | instant count period =>
    if Ty.isClockInstant count period then .word "std::chrono::system_clock::time_point"
    else .applied .timePoint [.word "std::chrono::system_clock",
      Ty.spanPhrase count count.phrase period]
  | void => .word "void"
  | unit => .word "std::monostate"
  | bool => .word "bool"
  | integer t => .word t.name
  | float t => .word t.name
  | named name _ => .word name

def PointerForm.phrase (p : Phrase) : PointerForm → Phrase
  | raw => .marked p .star
  | shared => .applied .shared [p]
  | unique => .applied .unique [p]
  | optional => .applied .optional [p]

def SequenceForm.phrase (p : Phrase) : SequenceForm → Phrase
  | vector => .applied .vector [p]
  | array size => .applied .array [p, .word (Text.ofNat size)]
  | inPlace size => .marked p (.size size)

def Qualifier.phrase (p : Phrase) : Qualifier → Phrase
  | constant => .marked p .constant
  | volatile => p
  | reference => .marked p .reference
  | transient => .marked p .transient

def FunctionForm.phrase (result : Phrase) (parameters : List Phrase) : FunctionForm → Phrase
  | plain => .call .plain result parameters
  | wrapped => .applied .function [.call .wrapped result parameters]

namespace Ty

mutual

def phrase : Ty → Phrase
  | atom a => a.phrase
  | pointer form t => form.phrase (phrase t)
  | sequence form t => form.phrase (phrase t)
  | qualified q t => q.phrase (phrase t)
  | map form k v => .applied (if form.ordered then .map else .unorderedMap) [phrase k, phrase v]
  | variant ts => .applied .variant (phrases ts)
  | function form result parameters => form.phrase (phrase result) (phrases parameters)
termination_by structural t => t

def phrases : List Ty → List Phrase
  | [] => []
  | t :: ts => phrase t :: phrases ts
termination_by structural ts => ts

end

theorem phrases_eq_map (ts : List Ty) : phrases ts = ts.map phrase := by
  induction ts with
  | nil => rfl
  | cons t ts ih => rw [phrases, ih, List.map_cons]

end Ty

/-! ## The texts of phrases are the names -/

namespace Phrase

theorem text_applied_one (template : Template) (p : Phrase) :
    (applied template [p]).text = template.name ++ "<" ++ p.text ++ ">" := by
  simp only [text, texts, Text.joinWith]

theorem text_applied_two (template : Template) (p q : Phrase) :
    (applied template [p, q]).text = template.name ++ "<" ++ p.text ++ ", " ++ q.text ++ ">" := by
  simp only [text, texts, Text.joinWith, List.append_assoc]

end Phrase

theorem StringTy.text_phrase (t : StringTy) : t.phrase.text = t.name := by
  cases t <;> rfl

theorem Ty.text_spanPhrase {count : AtomTy} {countPhrase : Phrase} {countName : Text}
    (h : countPhrase.text = countName) (period : Period) :
    (spanPhrase count countPhrase period).text = spanName count countName period := by
  unfold spanPhrase spanName
  cases ownSpanName? count period with
  | some name => rfl
  | none =>
    dsimp only
    rw [Phrase.text_applied_two, h, Period.phrase, Phrase.text_applied_two, Phrase.text]
    simp only [Phrase.text, List.append_assoc]
    rfl

/-- The phrase of an atom reads as its name. -/
theorem AtomTy.text_phrase (a : AtomTy) : a.phrase.text = Ty.atomName StringTy.name a := by
  induction a with
  | complex t => exact Phrase.text_applied_one _ _
  | string t => exact t.text_phrase
  | span count period ih => exact Ty.text_spanPhrase ih period
  | instant count period ih =>
    unfold phrase Ty.atomName Ty.instantName
    split
    · rfl
    · rw [Phrase.text_applied_two, Ty.text_spanPhrase ih]
      rfl
  | _ => rfl

namespace Ty

theorem texts_phrases {ts : List Ty} (h : ∀ t ∈ ts, t.phrase.text = t.name) :
    Phrase.texts (phrases ts) = namesWith StringTy.name ts := by
  induction ts with
  | nil => rfl
  | cons t rest ih =>
    rw [List.forall_mem_cons] at h
    rw [phrases, Phrase.texts, namesWith, h.1, ih h.2, name]

/-- The name of a type is the text of its phrase. -/
theorem text_phrase (t : Ty) : t.phrase.text = t.name := by
  induction t using induction_arguments with
  | atom a => rw [phrase, name, nameWith, a.text_phrase]
  | pointer form t ht =>
    rw [phrase, name, nameWith, ← name, ← ht]
    cases form with
    | raw => rfl
    | _ => exact Phrase.text_applied_one _ _
  | sequence form t ht =>
    rw [phrase, name, nameWith, ← name, ← ht]
    cases form with
    | vector => exact Phrase.text_applied_one _ _
    | array size => exact Phrase.text_applied_two _ _ _
    | inPlace size =>
      rw [SequenceForm.phrase, Phrase.text, sequenceName, Mark.text, List.append_assoc,
        List.append_assoc, List.append_assoc]
  | qualified q t ht =>
    rw [phrase, name, nameWith, ← name, ← ht]
    cases q <;> rfl
  | map form k v hk hv =>
    rw [phrase, name, nameWith, ← name, ← name, ← hk, ← hv, Phrase.text_applied_two]
    cases form.ordered <;> rfl
  | variant ts hts =>
    rw [phrase, name, nameWith, ← texts_phrases hts]
    rfl
  | function form result parameters hresult hparameters =>
    rw [phrase, name, nameWith, ← name, ← hresult, ← texts_phrases hparameters]
    cases form with
    | plain =>
      rw [FunctionForm.phrase, Phrase.text, functionName]
      simp only [List.append_assoc]
      rfl
    | wrapped =>
      rw [FunctionForm.phrase, Phrase.text_applied_one, Phrase.text, functionName]
      simp only [List.append_assoc]
      rfl

end Ty

/-! ## Types as they are displayed -/

theorem Period.reduced_reduced (p : Period) : p.reduced.reduced = p.reduced := by
  rcases Nat.eq_zero_or_pos (p.num.gcd p.den) with hzero | hpos
  · obtain ⟨hnum, hden⟩ := Nat.gcd_eq_zero_iff.mp hzero
    simp [reduced, hnum, hden]
  · have hcoprime : (p.num / p.num.gcd p.den).gcd (p.den / p.num.gcd p.den) = 1 :=
      Nat.coprime_div_gcd_div_gcd hpos
    simp only [reduced, hcoprime, Nat.div_one]

def Period.doubled (p : Period) : Period :=
  ⟨2 * p.num, 2 * p.den⟩

/-- Twice as large terms have the same lowest terms. -/
theorem Period.reduced_doubled (p : Period) : p.doubled.reduced = p.reduced := by
  simp only [reduced, doubled, Nat.gcd_mul_left, Nat.mul_div_mul_left _ _ Nat.two_pos]

/-- The period of spans which are displayed by some terms.  Where spans of these terms are displayed
by a name of their own, it is that of terms twice as large. -/
def AtomTy.periodOf (count : AtomTy) (terms : Period) : Period :=
  if (Ty.ownSpanName? count terms).isSome then terms.doubled else terms

/-- The period which stands for all periods displayed alike. -/
def AtomTy.displayedPeriod (count : AtomTy) (period : Period) : Period :=
  if (Ty.ownSpanName? count period).isSome then period else count.periodOf period.reduced

def AtomTy.displayed : AtomTy → AtomTy
  | string t => string t.identity
  | span count period => span count.displayed (count.displayedPeriod period)
  | instant count period => instant count.displayed (count.displayedPeriod period)
  | a => a

namespace Ty

/-- What the name of a type with a star behind it is that of. -/
def starred : Ty → Ty
  | qualified .constant (atom (.integer .char)) => atom (.string .pointer)
  | t => pointer .raw t

mutual

/-- A type as it is displayed: borrowed strings of all forms are one type, nothing is volatile,
periods which are displayed alike are one, and maps have no comparators of their own. -/
def displayed : Ty → Ty
  | atom a => atom a.displayed
  | pointer .raw t => starred (displayed t)
  | pointer form t => pointer form (displayed t)
  | sequence form t => sequence form (displayed t)
  | qualified .volatile t => displayed t
  | qualified q t => qualified q (displayed t)
  | map form k v => map { form with comparator := none } (displayed k) (displayed v)
  | variant ts => variant (displayedAll ts)
  | function form result parameters => function form (displayed result) (displayedAll parameters)
termination_by structural t => t

def displayedAll : List Ty → List Ty
  | [] => []
  | t :: ts => displayed t :: displayedAll ts
termination_by structural ts => ts

end

theorem displayedAll_eq_map (ts : List Ty) : displayedAll ts = ts.map displayed := by
  induction ts with
  | nil => rfl
  | cons t ts ih => rw [displayedAll, ih, List.map_cons]

/-- Types with one identity have one name. -/
theorem name_identity (t : Ty) : t.identity.name = t.name := by
  cases t with
  | atom a =>
    cases a with
    | string t => cases t <;> rfl
    | _ => rfl
  | _ => rfl

/-! ## Phrases of displayed types -/

section Spans

variable {count : AtomTy} {period : Period} {name : Text}

theorem mem_of_ownSpanName? (h : ownSpanName? count period = some name) :
    count = .integer .long ∧ (period, name) ∈ periodNames := by
  unfold ownSpanName? at h
  split at h
  · next hcount => exact ⟨LawfulBEq.eq_of_beq hcount, Value.mem_of_lookup_eq_some h⟩
  · cases h

theorem ownSpanName?_doubled (h : (ownSpanName? count period).isSome) :
    ownSpanName? count period.doubled = none := by
  obtain ⟨name, hname⟩ := Option.isSome_iff_exists.mp h
  obtain ⟨rfl, hmem⟩ := mem_of_ownSpanName? hname
  have hall : ∀ entry ∈ periodNames, ownSpanName? (.integer .long) entry.1.doubled = none := by
    decide
  exact hall _ hmem

theorem ownSpanName?_periodOf (count : AtomTy) (terms : Period) :
    ownSpanName? count (count.periodOf terms) = none := by
  unfold AtomTy.periodOf
  split
  · next hown => exact ownSpanName?_doubled hown
  · next hown => simpa using hown

theorem reduced_periodOf (count : AtomTy) (terms : Period) :
    (count.periodOf terms).reduced = terms.reduced := by
  unfold AtomTy.periodOf
  split
  · exact terms.reduced_doubled
  · rfl

theorem ownSpanName?_displayed (count : AtomTy) (period : Period) :
    ownSpanName? count.displayed period = ownSpanName? count period := by
  cases count <;> rfl

theorem ownSpanName?_displayedPeriod (count : AtomTy) (period : Period) :
    ownSpanName? count (count.displayedPeriod period) = ownSpanName? count period := by
  unfold AtomTy.displayedPeriod
  split
  · rfl
  · next hown => rw [ownSpanName?_periodOf, Option.not_isSome_iff_eq_none.mp hown]

/-- Instants of the clock count nanoseconds. -/
theorem isClockInstant_iff :
    isClockInstant count period ↔ ownSpanName? count period = some "std::chrono::nanoseconds" := by
  rw [isClockInstant, Bool.and_eq_true, beq_iff_eq, beq_iff_eq]
  constructor
  · rintro ⟨rfl, rfl⟩
    decide
  · intro h
    obtain ⟨hcount, hmem⟩ := mem_of_ownSpanName? h
    have hall : ∀ entry ∈ periodNames, entry.2 = "std::chrono::nanoseconds" →
        entry.1 = ⟨1, 1000000000⟩ := by decide
    exact ⟨hcount, hall _ hmem rfl⟩

theorem isClockInstant_displayed (count : AtomTy) (period : Period) :
    isClockInstant count.displayed (count.displayedPeriod period) =
      isClockInstant count period := by
  rw [Bool.eq_iff_iff, isClockInstant_iff, isClockInstant_iff, ownSpanName?_displayed,
    ownSpanName?_displayedPeriod]

theorem spanPhrase_displayed (count : AtomTy) (countPhrase : Phrase) (period : Period) :
    spanPhrase count.displayed countPhrase (count.displayedPeriod period) =
      spanPhrase count countPhrase period := by
  unfold spanPhrase
  rw [ownSpanName?_displayed, ownSpanName?_displayedPeriod]
  cases hown : ownSpanName? count period with
  | some name => rfl
  | none =>
    dsimp only
    rw [AtomTy.displayedPeriod, hown, Option.isSome_none, if_neg Bool.false_ne_true,
      reduced_periodOf, Period.reduced_reduced]

end Spans

end Ty

/-- An atom and what is displayed of it have one phrase. -/
theorem AtomTy.phrase_displayed (a : AtomTy) : a.displayed.phrase = a.phrase := by
  induction a with
  | string t => cases t <;> rfl
  | span count period ih => rw [displayed, phrase, ih, Ty.spanPhrase_displayed, phrase]
  | instant count period ih =>
    rw [displayed, phrase, ih, Ty.spanPhrase_displayed, Ty.isClockInstant_displayed, phrase]
  | _ => rfl

namespace Ty

theorem phrase_starred (t : Ty) : t.starred.phrase = .marked t.phrase .star := by
  unfold starred
  split <;> rfl

theorem phrases_displayedAll {ts : List Ty} (h : ∀ t ∈ ts, t.displayed.phrase = t.phrase) :
    phrases (displayedAll ts) = phrases ts := by
  rw [phrases_eq_map, displayedAll_eq_map, phrases_eq_map, List.map_map]
  exact List.map_congr_left h

/-- A type has the phrase of the type as it is displayed. -/
theorem phrase_displayed (t : Ty) : t.displayed.phrase = t.phrase := by
  induction t using induction_arguments with
  | atom a => rw [displayed, phrase, phrase, a.phrase_displayed]
  | pointer form t ht =>
    cases form with
    | raw => rw [displayed, phrase_starred, ht, phrase, PointerForm.phrase]
    | _ => simp only [displayed, phrase, ht]
  | sequence form t ht => simp only [displayed, phrase, ht]
  | qualified q t ht =>
    cases q with
    | volatile => rw [displayed, ht, phrase, Qualifier.phrase]
    | _ => simp only [displayed, phrase, ht]
  | map form k v hk hv => simp only [displayed, phrase, hk, hv]
  | variant ts hts => simp only [displayed, phrase, phrases_displayedAll hts]
  | function form result parameters hresult hparameters =>
    simp only [displayed, phrase, hresult, phrases_displayedAll hparameters]

end Ty

end Discrepancy
