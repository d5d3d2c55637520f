import Discrepancy.Proofs.KeyOrder
import Discrepancy.Proofs.Reach

/-!
# Truth of notices

Every notice of a comparison without checkers is true of the place which its trail names.  Either
the two values there do not match and are what the notice shows, or one of them is hidden, or the
place is a key which the map there lacks, and the notice shows that map.  This holds whatever trails
are skipped and whatever the renderers do, for a comparison gives no notices unless they return.
-/

namespace Discrepancy.Comparison

open Outcome

variable [Host] {r : Rendering} {want found v w u u' : Value} {ops : Options} {step : Option Step}
  {path : List Step} {notices : List Notice} {notice : Notice}

/-- Two values do not match: one of them is absent, their types differ, their lengths differ, one
of them is nil, or they are leaves with different contents. -/
inductive Mismatched : Value → Value → Prop
  | absent {want found : Value} (h : want.isPresent ≠ found.isPresent) : Mismatched want found
  | types {want found : Value} (h : want.identity? ≠ found.identity?) : Mismatched want found
  | lengths {want found : Value} {m n : Nat} (hwant : want.size? = some m)
      (hfound : found.size? = some n) (hne : m ≠ n) : Mismatched want found
  | oneNil {form form' : PointerForm} {target target' : Ty}
      {pointee pointee' : Option (Identity × Value)} (h : pointee.isSome ≠ pointee'.isSome) :
      Mismatched (.pointer form target pointee) (.pointer form' target' pointee')
  | leaves {s t : Scalar} (h : ¬ s.Equal t) : Mismatched (.scalar s) (.scalar t)

/-- A notice shows two values: its rows are their texts, with a renderer for bytes. -/
structure Shows (r : Rendering) (u u' : Value) (notice : Notice) : Prop where
  header : notice.header = "expected values to be equal"
  want : ∃ text, ((noticeRendering r).any u).Yields text ∧ notice.row? "want" = some text
  found : ∃ text, ((noticeRendering r).any u').Yields text ∧ notice.row? "have" = some text

/-- What a notice at the end of a path may truly tell. -/
inductive Truthful (ops : Options) (want found : Value) (path : List Step) (notice : Notice) : Prop
  | mismatch {u u' : Value} (hlocated : Located ops.rendering want found path u u')
      (hmismatched : Mismatched u u') (hshows : Shows ops.rendering u u' notice)
  | hidden {u u' : Value} (hlocated : Located ops.rendering want found path u u')
      (hhidden : ¬ (u.isAccessible ∧ u'.isAccessible)) (htold : ops.skipHidden = false)
      (hnotice : notice = hiddenNotice notice.trail)
  | missing {up : List Step} {label : Text} {u u' : Value} (hpath : path = up ++ [.key label])
      (hlocated : Located ops.rendering want found up u u')
      (hmissing : Finds ops.rendering (· = none) u u' label)
      (hshows : Shows ops.rendering u' .absent notice)

/-! ## Places -/

theorem Arrives.located (h : Arrives ops want found path u u') :
    Located ops.rendering want found path u u' := by
  induction h with
  | start => exact .here
  | @enter ops _ _ _ _ _ _ step _ hentered hleads _ ih =>
    cases hleads with
    | part hpart =>
      rw [ops.follow_rendering] at ih
      exact .into hpart ih

theorem Located.everywhere {p : Value → Prop} (h : Located r want found path u u')
    (hfound : found.Everywhere p) : u'.Everywhere p := by
  induction h with
  | here => exact hfound
  | into hpart _ ih => exact ih (hfound.part hpart.mem_parts.2)

theorem Located.everywhere_want {p : Value → Prop} (h : Located r want found path u u')
    (hwant : want.Everywhere p) : u.Everywhere p := by
  induction h with
  | here => exact hwant
  | into hpart _ ih => exact ih (hwant.part hpart.mem_parts.1)

/-- Where all mapped values are present, a key without a value is missing. -/
theorem Lacks.missing {label : Text} (h : Lacks r want found label) (hvalued : found.Valued) :
    Finds r (· = none) want found label := by
  cases h with
  | @intro _ _ _ _ _ _ _ _ _ _ k _ _ hwant hfound hlabel =>
    refine .intro hwant (Option.eq_none_iff_forall_ne_some.mpr fun w hw ↦ ?_) hlabel
    obtain ⟨k', hmem⟩ := Table.exists_mem_of_find? hw
    exact hfound w hw (hvalued _ hmem)

/-! ## Rows -/

/-- A notice of a mismatch shows the values it was made of. -/
theorem mismatch_shows {context : Context} (h : (mismatch want found context).Yields notice) :
    Shows context.rendering want found notice := by
  obtain ⟨wantText, hwant, h⟩ := yields_bind.mp h
  obtain ⟨foundText, hfound, h⟩ := yields_bind.mp h
  dsimp only at h
  split at h <;> exact yields_pure.mp h ▸ ⟨rfl, ⟨wantText, hwant, rfl⟩, ⟨foundText, hfound, rfl⟩⟩

/-- Rows of other names in front hide nothing. -/
theorem Shows.prepend (h : Shows r u u' notice) {name : Text} (value : Text)
    (hwant : (name == "want") = false) (hfound : (name == "have") = false) :
    Shows r u u' (notice.prepend name value) where
  header := h.header
  want := h.want.imp fun text ↦ And.imp_right fun hrow ↦ by
    rwa [Notice.row?, Notice.prepend, List.find?_cons_of_neg (by simp [hwant])]
  found := h.found.imp fun text ↦ And.imp_right fun hrow ↦ by
    rwa [Notice.row?, Notice.prepend, List.find?_cons_of_neg (by simp [hfound])]

/-! ## Notices -/

omit [Host] in
theorem Unlike.mismatched (h : Unlike want found) : Mismatched want found := by
  cases h with
  | absent h => exact .absent h
  | types _ _ h => exact .types h

omit [Host] in
theorem Unequal.mismatched (h : Unequal want found) : Mismatched want found := by
  cases h with
  | scalars h => exact .leaves h
  | oneNil h => exact .oneNil h

variable [LawfulHost]

/-- Every notice of a comparison is true of the place which its trail names. -/
theorem truthful_of_mem (hops : ops.Unchecked) (hwant : want.Everywhere Value.Keyed)
    (hfound : found.Everywhere Value.Valued) (h : (compare want found ops).Yields notices)
    (hmem : notice ∈ notices) :
    ∃ path, notice.trail = path.foldl Trail.extend ops.trail ∧
      Truthful ops want found path notice := by
  obtain ⟨path, u, u', harrives, hmakes⟩ := (mem_notices_iff hops hwant h).mp hmem
  have hlocated := harrives.located
  have htrail := ops.descend_trail path
  have hshown {v w : Value} {notice : Notice}
      (hnotice : (mismatch v w (ops.descend path).toContext).Yields notice) :
      notice.trail = path.foldl Trail.extend ops.trail ∧ Shows ops.rendering v w notice :=
    ⟨(mismatch_trail hnotice).trans htrail,
      ops.descend_rendering path ▸ mismatch_shows hnotice⟩
  cases hmakes with
  | unlike _ hunlike hnotice =>
    obtain ⟨htrail, hshows⟩ := hshown hnotice
    exact ⟨path, htrail, .mismatch hlocated hunlike.mismatched hshows⟩
  | hidden _ _ hhidden htold =>
    refine ⟨path, htrail, .hidden hlocated hhidden ?_ rfl⟩
    rwa [ops.descend_skipHidden] at htold
  | unequal _ hunequal hnotice =>
    obtain ⟨htrail, hshows⟩ := hshown hnotice
    exact ⟨path, htrail, .mismatch hlocated hunequal.mismatched hshows⟩
  | lengths _ hm hn hne hnotice =>
    obtain ⟨htrail, hshows⟩ := hshown hnotice
    exact ⟨path, htrail, .mismatch hlocated (.lengths hm hn hne)
      ((hshows.prepend _ rfl rfl).prepend _ rfl rfl)⟩
  | @missing notice label _ hlacks hnotice =>
    rw [ops.descend_rendering] at hlacks
    have hmissing := hlacks.missing (hlocated.everywhere hfound).self
    have hrendering : ((ops.descend path).below (.key label)).rendering = ops.rendering :=
      ops.descend_rendering path
    have hshows : Shows ops.rendering u' .absent notice := hrendering ▸ mismatch_shows hnotice
    refine ⟨path ++ [.key label], ?_, .missing rfl hlocated hmissing hshows⟩
    rw [mismatch_trail hnotice, List.foldl_append, ← htrail]
    rfl

end Discrepancy.Comparison

/-! ## Samples -/

namespace Discrepancy.Comparison

open Outcome

open scoped Sample

def intVector (storage : Identity) (ns : List Int) : Value :=
  .sequence .vector Sample.int (some storage) (ns.map fun n ↦ .scalar (.integer .int n))

/-- The notice is that of the second elements. -/
theorem truthful_of_mem_intVector :
    ∃ path, ("[1]" : Text) = path.foldl Trail.extend [] ∧
      Truthful {} (intVector 0 [1, 2]) (intVector 1 [1, 3]) path
        { header := "expected values to be equal", trail := "[1]"
          rows := [⟨"want", "2"⟩, ⟨"have", "3"⟩] } := by
  have hwant : (intVector 0 [1, 2]).Everywhere Value.Keyed := by decide
  have hfound : (intVector 1 [1, 3]).Everywhere Value.Valued := by decide
  have hyields : (compare (intVector 0 [1, 2]) (intVector 1 [1, 3]) {}).Yields
      [{ header := "expected values to be equal", trail := "[1]"
         rows := [⟨"want", "2"⟩, ⟨"have", "3"⟩] }] := by decide
  exact truthful_of_mem ⟨rfl, rfl⟩ hwant hfound hyields (List.mem_singleton_self _)

end Discrepancy.Comparison
