import Discrepancy.Proofs.TypePhrases
import Discrepancy.Proofs.Layout
import Discrepancy.Proofs.Truth
import Discrepancy.Ty.Name

/-!
# Names and identities of types

The types in question are made of atoms whose names stand for one type each.  The phrase of such a
type is proper, so that the name tells the phrase, and from the phrase the type is read back as it
is displayed.  A name leaves out what is not displayed: the form of a borrowed string, what is
volatile, the terms of a fraction, and the comparator of a map.  An identity leaves out nothing but
the form of the borrowed string which the type itself may be.  Where a name leaves out no more than
that, names and identities agree, and no notice shows one name for two types.
-/

namespace Discrepancy

open Text (byte readDigits)

/-! ## The types in question -/

/-- The names which are not free for records and channels. -/
def builtinNames : List Text :=
  "std::nullptr_t" :: Ty.fixedHeads.map Prod.fst

/-- Atoms whose names stand for one type each, of the kind which was declared for it. -/
def AtomTy.Generated (declared : Text → Kind) : AtomTy → Prop
  | named name kind => kind = declared name ∧ IsWord name ∧ name ∉ builtinNames
  | span count _ => count.Generated declared
  | instant count _ => count.Generated declared
  | _ => True

namespace Ty

def isQualified : Ty → Bool
  | qualified .. => true
  | _ => false

/-- Whether a type is a reference, be it a volatile one. -/
def isReference : Ty → Bool
  | qualified .reference _ | qualified .transient _ => true
  | qualified .volatile t => t.isReference
  | _ => false

/-- The types made of atoms whose names stand for one type each.  Elements, keys and mapped types
are unqualified, pointers to characters and arrays of characters in place are strings, and no
reference is qualified. -/
inductive Generated (declared : Text → Kind) : Ty → Prop
  | atom {a : AtomTy} (h : a.Generated declared) : Generated declared (atom a)
  | pointer {form : PointerForm} {t : Ty} (h : Generated declared t)
      (hraw : form = .raw → pointerTo t = pointer .raw t)
      (hoptional : form = .optional → ¬ t.isQualified) : Generated declared (pointer form t)
  | sequence {form : SequenceForm} {t : Ty} (h : Generated declared t)
      (hplace : ∀ size, form = .inPlace size → inPlaceOf size t = sequence form t)
      (helement : ¬ t.isQualified) : Generated declared (sequence form t)
  | qualified {q : Qualifier} {t : Ty} (h : Generated declared t) (hreference : ¬ t.isReference) :
      Generated declared (qualified q t)
  | map {form : MapForm} {k v : Ty} (hk : Generated declared k) (hv : Generated declared v)
      (hkey : ¬ k.isQualified) (hmapped : ¬ v.isQualified) : Generated declared (map form k v)
  | variant {ts : List Ty} (h : ∀ t ∈ ts, Generated declared t) : Generated declared (variant ts)
  | function {form : FunctionForm} {result : Ty} {parameters : List Ty}
      (h : Generated declared result) (hparameters : ∀ t ∈ parameters, Generated declared t) :
      Generated declared (function form result parameters)

end Ty

/-! ## Phrases are proper -/

open Phrase

theorem StringTy.phrase_proper (t : StringTy) : t.phrase.Proper := by
  cases t with
  | owned | view => exact .word (by decide)
  | _ => exact .marked (.marked (.word (by decide)) nofun) nofun

theorem Phrase.proper_one {template : Template} {p : Phrase} (hp : p.Proper) :
    (applied template [p]).Proper :=
  .applied (List.forall_mem_singleton.mpr hp)

theorem Phrase.proper_two {template : Template} {p q : Phrase} (hp : p.Proper) (hq : q.Proper) :
    (applied template [p, q]).Proper :=
  .applied (List.forall_mem_cons.mpr ⟨hp, List.forall_mem_singleton.mpr hq⟩)

theorem Period.phrase_proper (p : Period) : p.phrase.Proper :=
  proper_two (.word (isWord_ofNat p.num)) (.word (isWord_ofNat p.den))

theorem Ty.spanPhrase_proper {countPhrase : Phrase} (h : countPhrase.Proper) (count : AtomTy)
    (period : Period) : (spanPhrase count countPhrase period).Proper := by
  unfold spanPhrase
  cases hown : ownSpanName? count period with
  | some name =>
    have hall : ∀ entry ∈ periodNames, IsWord entry.2 := by decide
    exact .word (hall _ (mem_of_ownSpanName? hown).2)
  | none => exact proper_two h period.reduced.phrase_proper

theorem AtomTy.phrase_proper {declared : Text → Kind} {a : AtomTy} (h : a.Generated declared) :
    a.phrase.Proper := by
  induction a with
  | complex t => exact proper_one (.word (by cases t <;> decide))
  | string t => exact t.phrase_proper
  | span count period ih => exact Ty.spanPhrase_proper (ih h) count period
  | instant count period ih =>
    rw [phrase]
    split
    · exact .word (by decide)
    · exact proper_two (.word (by decide)) (Ty.spanPhrase_proper (ih h) count period)
  | named name kind => exact .word h.2.1
  | integer t | float t => exact .word (by cases t <;> decide)
  | _ => exact .word (by decide)

theorem Ty.refers_spanPhrase (count : AtomTy) (countPhrase : Phrase) (period : Period) :
    (spanPhrase count countPhrase period).refers = false := by
  unfold spanPhrase
  split <;> rfl

theorem AtomTy.refers_phrase (a : AtomTy) : a.phrase.refers = false := by
  cases a with
  | string t => cases t <;> rfl
  | span count period => exact Ty.refers_spanPhrase count count.phrase period
  | instant count period =>
    rw [phrase]
    split <;> rfl
  | _ => rfl

namespace Ty

variable {declared : Text → Kind} {S T t : Ty}

theorem refers_phrase : ∀ t : Ty, t.phrase.refers = t.isReference
  | atom a => a.refers_phrase
  | pointer form _ => by cases form <;> rfl
  | sequence form _ => by cases form <;> rfl
  | qualified .volatile t => refers_phrase t
  | qualified .constant _ | qualified .reference _ | qualified .transient _ => rfl
  | map .. | variant _ => rfl
  | function form .. => by cases form <;> rfl

/-- The names of generated types are well formed, whatever their depth. -/
theorem Generated.phrase_proper (h : t.Generated declared) : t.phrase.Proper := by
  induction h with
  | atom ha => exact AtomTy.phrase_proper ha
  | @pointer form t _ _ _ ih =>
    cases form with
    | raw => exact .marked ih nofun
    | _ => exact proper_one ih
  | @sequence form t _ _ _ ih =>
    cases form with
    | vector => exact proper_one ih
    | array size => exact proper_two ih (.word (isWord_ofNat size))
    | inPlace size => exact .marked ih nofun
  | @qualified q t _ hreference ih =>
    cases q with
    | volatile => exact ih
    | constant => exact .marked ih nofun
    | _ => exact .marked ih fun _ ↦ t.refers_phrase ▸ hreference
  | map _ _ _ _ ihk ihv => exact proper_two ihk ihv
  | @variant ts _ ih =>
    rw [phrase, phrases_eq_map]
    exact .applied (List.forall_mem_map.mpr ih)
  | @function form result parameters _ _ ih ihs =>
    have hcall (form : FunctionForm) : (call form result.phrase (phrases parameters)).Proper := by
      rw [phrases_eq_map]
      exact .call ih (List.forall_mem_map.mpr ihs)
    cases form with
    | plain => exact hcall .plain
    | wrapped => exact proper_one (hcall .wrapped)

end Ty

/-! ## Reading types back -/

/-- The type which a template makes of its arguments, given with the types which they name.  Numbers
and fractions among them name no types, and are read from the arguments. -/
def Template.ty : Template → List Phrase → List Ty → Ty
  | complex, _, [.atom (.float t)] => .atom (.complex t)
  | shared, _, [t] => .pointer .shared t
  | unique, _, [t] => .pointer .unique t
  | optional, _, [t] => .pointer .optional t
  | vector, _, [t] => .sequence .vector t
  | array, [_, .word n], [t, _] => .sequence (.array (readDigits 10 0 n)) t
  | map, _, [k, v] => .map .sorted k v
  | unorderedMap, _, [k, v] => .map .hashed k v
  | variant, _, ts => .variant ts
  -- the argument is a function already
  | function, _, [t] => t
  | duration, [_, .applied ratio [.word num, .word den]], [.atom count, _] =>
    .atom (.span count (count.periodOf ⟨readDigits 10 0 num, readDigits 10 0 den⟩))
  | timePoint, _, [_, .atom (.span count period)] => .atom (.instant count period)
  | _, _, _ => .atom .void

/-- The type which a mark makes of another one. -/
def Mark.ty (t : Ty) : Mark → Ty
  | constant => .qualified .constant t
  | reference => .qualified .reference t
  | transient => .qualified .transient t
  | star => t.starred
  | size n => .sequence (.inPlace n) t

def AtomTy.ofName (declared : Text → Kind) (name : Text) : AtomTy :=
  (Ty.fixedHeads.lookup name).getD (.named name (declared name))

namespace Phrase

mutual

/-- The type which a phrase displays, if it displays one. -/
def ty (declared : Text → Kind) : Phrase → Ty
  | word w => .atom (.ofName declared w)
  | applied template arguments => template.ty arguments (tys declared arguments)
  | marked p mark => mark.ty (ty declared p)
  | call form result parameters => .function form (ty declared result) (tys declared parameters)
termination_by structural p => p

def tys (declared : Text → Kind) : List Phrase → List Ty
  | [] => []
  | p :: ps => ty declared p :: tys declared ps
termination_by structural ps => ps

end

theorem tys_eq_map (declared : Text → Kind) (ps : List Phrase) :
    tys declared ps = ps.map (ty declared) := by
  induction ps with
  | nil => rfl
  | cons p ps ih => rw [tys, ih, List.map_cons]

end Phrase

section Reading

variable {declared : Text → Kind}

theorem Phrase.ty_one (template : Template) (p : Phrase) :
    (applied template [p]).ty declared = template.ty [p] [p.ty declared] := by
  simp only [ty, tys]

theorem Phrase.ty_two (template : Template) (p q : Phrase) :
    (applied template [p, q]).ty declared =
      template.ty [p, q] [p.ty declared, q.ty declared] := by
  simp only [ty, tys]

theorem Phrase.ty_word {name : Text} {a : AtomTy} (h : Ty.fixedHeads.lookup name = some a) :
    (word name).ty declared = .atom a := by
  rw [ty, AtomTy.ofName, h, Option.getD_some]

theorem Phrase.ty_word_declared {name : Text} (h : name ∉ builtinNames) :
    (word name).ty declared = .atom (.named name (declared name)) := by
  have hnone : Ty.fixedHeads.lookup name = none := by
    refine List.lookup_eq_none_iff.mpr fun entry hentry ↦ bne_iff_ne.mpr ?_
    rintro rfl
    exact h (List.mem_cons_of_mem _ (List.mem_map_of_mem hentry))
  rw [ty, AtomTy.ofName, hnone, Option.getD_none]

theorem StringTy.ty_phrase (t : StringTy) : t.phrase.ty declared = .atom (.string t.identity) := by
  cases t with
  | owned | view => exact Phrase.ty_word (by decide)
  | _ =>
    have hchar : (Phrase.word "char").ty declared = .atom (.integer .char) :=
      Phrase.ty_word (by decide)
    change Ty.starred (.qualified .constant ((Phrase.word "char").ty declared)) = _
    rw [hchar]
    rfl

theorem AtomTy.periodOf_displayed (count : AtomTy) (terms : Period) :
    count.displayed.periodOf terms = count.periodOf terms := by
  rw [periodOf, periodOf, Ty.ownSpanName?_displayed]

/-- The period of a span can be read back from its phrase, as far as it is displayed. -/
theorem Ty.ty_spanPhrase {count : AtomTy} {countPhrase : Phrase}
    (h : countPhrase.ty declared = .atom count.displayed) (period : Period) :
    (spanPhrase count countPhrase period).ty declared =
      .atom (.span count.displayed (count.displayedPeriod period)) := by
  unfold spanPhrase AtomTy.displayedPeriod
  cases hown : ownSpanName? count period with
  | some name =>
    obtain ⟨rfl, hmem⟩ := mem_of_ownSpanName? hown
    have hall : ∀ entry ∈ periodNames,
        fixedHeads.lookup entry.2 = some (.span (.integer .long) entry.1) := by decide
    exact Phrase.ty_word (hall _ hmem)
  | none =>
    dsimp only [Option.isSome_none]
    rw [Phrase.ty_two, h, Period.phrase]
    simp only [Template.ty, Text.readDigits_ofNat, AtomTy.periodOf_displayed]
    rfl

/-- An atom is read back as it is displayed. -/
theorem AtomTy.ty_phrase {a : AtomTy} (h : a.Generated declared) :
    a.phrase.ty declared = .atom a.displayed := by
  induction a with
  | complex t =>
    have ht : (Phrase.word t.name).ty declared = .atom (.float t) :=
      Phrase.ty_word (by cases t <;> decide)
    rw [phrase, Phrase.ty_one, ht]
    rfl
  | string t => exact t.ty_phrase
  | span count period ih => exact Ty.ty_spanPhrase (ih h) period
  | instant count period ih =>
    rw [phrase]
    split
    · next hclock =>
      obtain ⟨rfl, rfl⟩ := by simpa [Ty.isClockInstant] using hclock
      exact Phrase.ty_word (by decide)
    · rw [Phrase.ty_two, Ty.ty_spanPhrase (ih h)]
      rfl
  | named name kind =>
    obtain ⟨rfl, -, hname⟩ := h
    exact Phrase.ty_word_declared hname
  | integer t | float t => exact Phrase.ty_word (by cases t <;> decide)
  | _ => exact Phrase.ty_word (by decide)

namespace Ty

theorem tys_phrases {ts : List Ty} (h : ∀ t ∈ ts, t.phrase.ty declared = t.displayed) :
    Phrase.tys declared (phrases ts) = displayedAll ts := by
  rw [Phrase.tys_eq_map, phrases_eq_map, displayedAll_eq_map, List.map_map]
  exact List.map_congr_left h

/-- A type is read back as it is displayed. -/
theorem Generated.ty_phrase {t : Ty} (h : t.Generated declared) :
    t.phrase.ty declared = t.displayed := by
  induction h with
  | atom ha => exact AtomTy.ty_phrase ha
  | @pointer form t _ _ _ ih =>
    cases form with
    | raw => exact congrArg starred ih
    | _ => exact (Phrase.ty_one _ _).trans (ih ▸ rfl)
  | @sequence form t _ _ _ ih =>
    cases form with
    | vector => exact (Phrase.ty_one _ _).trans (ih ▸ rfl)
    | array size =>
      rw [phrase, SequenceForm.phrase, Phrase.ty_two, ih]
      simp only [Template.ty, Text.readDigits_ofNat]
      rfl
    | inPlace size => exact congrArg (Ty.sequence (.inPlace size)) ih
  | @qualified q t _ _ ih =>
    cases q with
    | volatile => exact ih
    | constant => exact congrArg (Ty.qualified .constant) ih
    | reference => exact congrArg (Ty.qualified .reference) ih
    | transient => exact congrArg (Ty.qualified .transient) ih
  | @map form k v _ _ _ _ ihk ihv =>
    rw [phrase, Phrase.ty_two, ihk, ihv]
    rcases form with ⟨ordered, comparator⟩
    cases ordered <;> rfl
  | @variant ts _ ih => exact congrArg Ty.variant (tys_phrases ih)
  | @function form result parameters _ _ ih ihs =>
    have hcall (form : FunctionForm) :
        (Phrase.call form result.phrase (phrases parameters)).ty declared =
          .function form result.displayed (displayedAll parameters) := by
      rw [Phrase.ty, ih, tys_phrases ihs]
    cases form with
    | plain => exact hcall .plain
    | wrapped => exact (Phrase.ty_one _ _).trans (hcall .wrapped ▸ rfl)

end Ty

end Reading

/-! ## Names and identities -/

namespace Ty

variable {declared : Text → Kind} {S T t : Ty}

/-- Two types have one name exactly if they are displayed as one. -/
theorem name_eq_iff_displayed_eq (hS : S.Generated declared) (hT : T.Generated declared) :
    S.name = T.name ↔ S.displayed = T.displayed := by
  rw [← S.text_phrase, ← T.text_phrase]
  constructor
  · intro h
    rw [← hS.ty_phrase, ← hT.ty_phrase, hS.phrase_proper.text_injective hT.phrase_proper h]
  · intro h
    rw [← S.phrase_displayed, h, T.phrase_displayed]

/-- Declared names are none of the built-in ones. -/
theorem Generated.not_mem_builtinNames {name : Text} {kind : Kind} (h : t.Generated declared)
    (hname : t.displayed = .atom (.named name kind)) : name ∉ builtinNames := by
  induction h with
  | @atom a ha =>
    cases a with
    | named => cases hname; exact ha.2.2
    | _ => cases hname
  | @pointer form t _ _ _ _ =>
    cases form with
    | raw =>
      rw [displayed] at hname
      unfold starred at hname
      split at hname <;> cases hname
    | _ => cases hname
  | @qualified q t _ _ ih =>
    cases q with
    | volatile => exact ih hname
    | _ => cases hname
  | _ => cases hname

/-- No type has the name which stands for absence. -/
theorem Generated.name_ne_absent (h : t.Generated declared) : t.name ≠ "std::nullptr_t" := by
  intro hname
  have hword : t.phrase = .word "std::nullptr_t" :=
    h.phrase_proper.text_injective (.word (by decide)) (t.text_phrase.trans hname)
  have hlookup : fixedHeads.lookup (Text.utf8 "std::nullptr_t") = none := by decide
  have hdisplayed := h.ty_phrase
  -- it would be read back as the name of a record or the like
  rw [hword, Phrase.ty, AtomTy.ofName, hlookup, Option.getD_none] at hdisplayed
  exact h.not_mem_builtinNames hdisplayed.symm List.mem_cons_self

/-- The name of a type leaves nothing out but the form of the borrowed string which the type may
be. -/
def IsShown (declared : Text → Kind) (t : Ty) : Prop :=
  t.Generated declared ∧ t.displayed = t.identity

/-- Types whose names leave nothing out have one name exactly if they have one identity. -/
theorem IsShown.name_eq_iff (hS : S.IsShown declared) (hT : T.IsShown declared) :
    S.name = T.name ↔ S.identity = T.identity := by
  rw [name_eq_iff_displayed_eq hS.1 hT.1, hS.2, hT.2]

end Ty

/-- A value whose type has a name that leaves nothing out. -/
def Value.ShowsType (declared : Text → Kind) (v : Value) : Prop :=
  ∀ t ∈ v.ty?, t.IsShown declared

namespace Value

variable {declared : Text → Kind} {v w : Value}

theorem isPresent_eq (v : Value) : v.isPresent = v.identity?.isSome := by
  cases v <;> rfl

theorem showsType_absent : absent.ShowsType declared :=
  fun t ht ↦ (Option.not_mem_none t ht).elim

/-- Types whose names leave nothing out are one if their names are. -/
theorem ShowsType.typeName_eq_iff (hv : v.ShowsType declared) (hw : w.ShowsType declared) :
    v.typeName = w.typeName ↔ v.identity? = w.identity? := by
  unfold typeName identity?
  cases hS : v.ty? with
  | none =>
    cases hT : w.ty? with
    | none => exact iff_of_true rfl rfl
    | some T => exact iff_of_false (hw T hT).1.name_ne_absent.symm nofun
  | some S =>
    cases hT : w.ty? with
    | none => exact iff_of_false (hv S hS).1.name_ne_absent nofun
    | some T =>
      simpa only [Option.map_some, Option.some.injEq] using (hv S hS).name_eq_iff (hw T hT)

end Value

namespace Notice

/-- If a notice shows two types, their names differ. -/
def TellsTypes (notice : Notice) : Prop :=
  ∀ wantType foundType, notice.row? "want type" = some wantType →
    notice.row? "have type" = some foundType → wantType ≠ foundType

/-- Rows of other names in front tell nothing of types. -/
theorem TellsTypes.prepend {notice : Notice} (h : notice.TellsTypes) {name : Text} (value : Text)
    (hwant : (name == "want type") = false) (hfound : (name == "have type") = false) :
    (notice.prepend name value).TellsTypes := by
  intro wantType foundType hw hf
  rw [row?, Notice.prepend, List.find?_cons_of_neg (by simp [hwant])] at hw
  rw [row?, Notice.prepend, List.find?_cons_of_neg (by simp [hfound])] at hf
  exact h wantType foundType hw hf

theorem tellsTypes_hiddenNotice (trail : Text) : (Comparison.hiddenNotice trail).TellsTypes :=
  fun _ _ hw ↦ by cases hw

end Notice

namespace Comparison

variable [Host] {declared : Text → Kind} {want found : Value} {ops : Options} {notice : Notice}
  {notices : List Notice}

/-- The types of two values are shown only where their names differ. -/
theorem tellsTypes_of_mismatch {context : Context} (hwant : want.ShowsType declared)
    (hfound : found.ShowsType declared) (h : (mismatch want found context).Yields notice) :
    notice.TellsTypes := by
  obtain ⟨wantText, foundText, rfl⟩ := eq_of_mismatch h
  intro wantType foundType hw hf
  by_cases hname : want.typeName = found.typeName
  · have hidentity : want.identity? = found.identity? := (hwant.typeName_eq_iff hfound).mp hname
    have hrows : typeRows want found = [] := by
      rw [typeRows, if_neg (by simp [hname, hidentity])]
    rw [hrows] at hw
    cases hw
  · have hrows : typeRows want found =
        [⟨"want type", want.typeName⟩, ⟨"have type", found.typeName⟩] := by
      rw [typeRows, if_pos (by simp [hname])]
    rw [hrows] at hw hf
    obtain rfl : want.typeName = wantType := Option.some.inj hw
    obtain rfl : found.typeName = foundType := Option.some.inj hf
    exact hname

variable [LawfulHost]

/-- No notice of a comparison shows one name for two types, if the names of the types in the
compared values leave nothing out. -/
theorem tellsTypes_of_mem (hops : ops.Unchecked) (hkeyed : want.Everywhere Value.Keyed)
    (hwant : want.Everywhere (Value.ShowsType declared))
    (hfound : found.Everywhere (Value.ShowsType declared))
    (h : (compare want found ops).Yields notices) (hmem : notice ∈ notices) :
    notice.TellsTypes := by
  obtain ⟨path, u, u', harrives, hmakes⟩ := exists_arrives_of_mem hops hkeyed h hmem
  have hu := (harrives.located.everywhere_want hwant).self
  have hu' := (harrives.located.everywhere hfound).self
  cases hmakes with
  | unlike _ _ hnotice => exact tellsTypes_of_mismatch hu hu' hnotice
  | hidden => exact Notice.tellsTypes_hiddenNotice _
  | unequal _ _ hnotice => exact tellsTypes_of_mismatch hu hu' hnotice
  | lengths _ _ _ _ hnotice =>
    exact ((tellsTypes_of_mismatch hu hu' hnotice).prepend _ rfl rfl).prepend _ rfl rfl
  | missing _ _ hnotice => exact tellsTypes_of_mismatch hu' Value.showsType_absent hnotice

omit [Host] [LawfulHost] in
/-- Nothing speaks against a look at two values whose types have one identity. -/
theorem not_unlike (h : want.identity? = found.identity?) : ¬ Unlike want found := by
  rintro (habsent | ⟨-, -, hidentity⟩)
  · exact habsent (by rw [want.isPresent_eq, found.isPresent_eq, h])
  · exact hidentity h

end Comparison

namespace Ty

variable {declared : Text → Kind} {S T : Ty}

/-- Types of one identity have one name, and types of one name are displayed as one.  Where names
leave nothing out, types have one name exactly if they have one identity: values of types with one
name are compared, a value is taken as one of a type with the name of its own, unless that is
another form of a borrowed string, and no notice shows one name for two types. -/
theorem name_eq_iff_identity_eq [Host] (hS : S.Generated declared) (hT : T.Generated declared) :
    (S.identity = T.identity → S.name = T.name) ∧
    (S.name = T.name ↔ S.displayed = T.displayed) ∧
    (S.displayed = S.identity → T.displayed = T.identity →
      (S.name = T.name ↔ S.identity = T.identity) ∧
      (S.name = T.name → ∀ want found : Value, want.ty? = some S → found.ty? = some T →
        ¬ Comparison.Unlike want found ∧
        (S.identity = S → T.identity = T → want.isAccessible → want.castFault? T = none))) ∧
    ∀ want found : Value, want.ShowsType declared → found.ShowsType declared →
      ∀ context notice, (Comparison.mismatch want found context).Yields notice →
        notice.TellsTypes := by
  refine ⟨fun h ↦ ?_, name_eq_iff_displayed_eq hS hT, fun hSshown hTshown ↦ ?_,
    fun want found hwant hfound context notice ↦ Comparison.tellsTypes_of_mismatch hwant hfound⟩
  · rw [← S.name_identity, h, T.name_identity]
  have hname : S.name = T.name ↔ S.identity = T.identity :=
    IsShown.name_eq_iff ⟨hS, hSshown⟩ ⟨hT, hTshown⟩
  refine ⟨hname, fun h want found hwant hfound ↦ ⟨?_, fun hSid hTid haccessible ↦ ?_⟩⟩
  · exact Comparison.not_unlike (by rw [Value.identity?, Value.identity?, hwant, hfound,
      Option.map_some, Option.map_some, hname.mp h])
  · have htype : S = T := by rw [← hSid, hname.mp h, hTid]
    simp [Value.castFault?, haccessible, hwant, htype]

end Ty

/-! ## Samples -/

namespace Ty

open scoped Sample

/-- Tables of functions which make a pointer to a constant of a string and a reference. -/
def callbacks (form : FunctionForm) : Ty :=
  .map .sorted Sample.string (.function form (.pointer .raw (.qualified .constant Sample.int))
    [.atom (.string .pointer), .qualified .reference (Sample.record "Point")])

theorem generated_callbacks (form : FunctionForm) :
    (callbacks form).Generated fun _ ↦ .record := by
  have hpoint : (Sample.record "Point").Generated fun _ ↦ .record :=
    .atom ⟨rfl, by decide, by decide⟩
  have hresult : (Ty.pointer .raw (.qualified .constant Sample.int)).Generated fun _ ↦ .record :=
    .pointer (.qualified (.atom trivial) nofun) (fun _ ↦ rfl) nofun
  have hparameters :
      ∀ t ∈ [Ty.atom (.string .pointer), .qualified .reference (Sample.record "Point")],
        t.Generated fun _ ↦ .record := by
    rw [List.forall_mem_cons, List.forall_mem_singleton]
    exact ⟨.atom trivial, .qualified hpoint nofun⟩
  exact .map (.atom trivial) (.function hresult hparameters) nofun nofun

/-- Tables of functions and tables of function objects have different names. -/
theorem name_eq_iff_identity_eq_callbacks :
    ((callbacks .plain).Generated fun _ ↦ .record) ∧
      ((callbacks .wrapped).Generated fun _ ↦ .record) ∧
      (callbacks .plain).name ≠ (callbacks .wrapped).name ∧
      ∀ context notice,
        (Comparison.mismatch (.hidden (callbacks .plain)) .absent context).Yields notice →
          notice.TellsTypes := by
  have hplain := generated_callbacks .plain
  have hwrapped := generated_callbacks .wrapped
  obtain ⟨-, -, hshown, hnotices⟩ := name_eq_iff_identity_eq hplain hwrapped
  have hcallbacks : (Value.hidden (callbacks .plain)).ShowsType fun _ ↦ .record :=
    fun t ht ↦ Option.some.inj ht ▸ ⟨hplain, rfl⟩
  exact ⟨hplain, hwrapped, (hshown rfl rfl).1.not.mpr nofun,
    hnotices _ _ hcallbacks Value.showsType_absent⟩

/-- Types which names do not tell apart: with two forms of borrowed strings in them, with and
without `volatile`, and with two fractions of one size. -/
def aliases : List (Ty × Ty) :=
  [(.sequence .vector (.atom (.string .mutablePointer)),
      .sequence .vector (.atom (.string .pointer))),
    (.pointer .raw (.qualified .volatile Sample.int), .pointer .raw Sample.int),
    (.atom (.span (.integer .int) ⟨2, 6⟩), .atom (.span (.integer .int) ⟨1, 3⟩))]

/-- Types of one name may have two identities.  A notice of two values of such types shows one name
for both types, and a string in one form is not taken as one in another form. -/
theorem not_name_eq_iff_identity_eq :
    (∀ pair ∈ aliases, (pair.1.Generated fun _ ↦ .record) ∧ (pair.2.Generated fun _ ↦ .record) ∧
      ¬ (pair.1.name = pair.2.name ↔ pair.1.identity = pair.2.identity)) ∧
    (∃ notices, (Comparison.compare (.sequence .vector (.atom (.string .mutablePointer)) none [])
        (.sequence .vector (.atom (.string .pointer)) none []) {}).Yields notices ∧
      ∃ notice ∈ notices, ¬ notice.TellsTypes) ∧
    (Ty.atom (.string .mutablePointer)).name = (Ty.atom (.string .pointer)).name ∧
    (Value.scalar (.string .pointer (some "a"))).castFault? (.atom (.string .mutablePointer)) =
      some (.wrongType "char const*" "char const*") := by
  refine ⟨?_, ⟨_, rfl, _, List.mem_singleton_self _, fun h ↦ h _ _ rfl rfl rfl⟩, by decide,
    by decide⟩
  simp only [aliases, List.forall_mem_cons]
  refine ⟨⟨?_, ?_, by decide⟩, ⟨?_, ?_, by decide⟩, ⟨?_, ?_, by decide⟩, nofun⟩
  · exact .sequence (.atom trivial) nofun nofun
  · exact .sequence (.atom trivial) nofun nofun
  · exact .pointer (.qualified (.atom trivial) nofun) (fun _ ↦ rfl) nofun
  · exact .pointer (.atom trivial) (fun _ ↦ rfl) nofun
  · exact .atom trivial
  · exact .atom trivial

end Ty

end Discrepancy
