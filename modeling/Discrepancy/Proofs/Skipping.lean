import Discrepancy.Proofs.KeyOrder
import Discrepancy.Proofs.Reach

/-!
# Skipped trails

A comparison looks at the skipped trails whenever it starts on two values.  The notice of a key
which the second map lacks is made without such a start, so that it appears even where its trail is
skipped.  No other notice does.
-/

namespace Discrepancy.Comparison

open Outcome

variable [Host] {want found : Value} {ops : Options} {path : List Step} {notices : List Notice}
  {notice : Notice}

/-- A notice at a skipped trail tells of a key that is lacking. -/
theorem lacks_of_makes (h : Makes want found ops notice)
    (hskipped : notice.trail ∈ ops.skipTrails) :
    ∃ label, Entered want found ops ∧ Lacks ops.rendering want found label ∧
      notice.trail = Trail.extend ops.trail (.key label) := by
  have hhere (hskip : ¬ ops.isSkipped) : notice.trail ≠ ops.trail := by
    intro htrail
    rw [htrail] at hskipped
    exact hskip (List.contains_iff_mem.mpr hskipped)
  cases h with
  | unlike hskip _ hnotice => exact (hhere hskip (mismatch_trail hnotice)).elim
  | hidden hskip => exact (hhere hskip rfl).elim
  | unequal hinspected _ hnotice =>
    exact (hhere hinspected.unskipped (mismatch_trail hnotice)).elim
  | lengths hinspected _ _ _ hnotice =>
    have htrail := mismatch_trail hnotice
    exact (hhere hinspected.unskipped htrail).elim
  | missing hentered hlacks hnotice => exact ⟨_, hentered, hlacks, mismatch_trail hnotice⟩

omit [Host] in
/-- The trail of a missing key is that of the map, continued with the label. -/
theorem descend_key_trail (ops : Options) (path : List Step) (label : Text) :
    Trail.extend (ops.descend path).trail (Step.key label) =
      (path ++ [Step.key label]).foldl Trail.extend ops.trail := by
  calc
    _ = Trail.extend (path.foldl Trail.extend ops.trail) (Step.key label) := by
      rw [ops.descend_trail]
    _ = _ := by
      rw [List.foldl_append]
      rfl

variable [LawfulHost]

/-- A comparison gives a notice at a skipped trail exactly where it enters two maps of which the
second one lacks a key of the first one under that trail. -/
theorem exists_skipped_notice_iff (hops : ops.Unchecked) (hwant : want.Everywhere Value.Keyed)
    (h : (compare want found ops).Yields notices) :
    (∃ notice ∈ notices, notice.trail ∈ ops.skipTrails) ↔
      ∃ path u u' label, Arrives ops want found path u u' ∧ Entered u u' (ops.descend path) ∧
        Lacks ops.rendering u u' label ∧
        (path ++ [Step.key label]).foldl Trail.extend ops.trail ∈ ops.skipTrails := by
  constructor
  · rintro ⟨notice, hmem, hskipped⟩
    obtain ⟨path, u, u', harrives, hmakes⟩ := exists_arrives_of_mem hops hwant h hmem
    rw [← ops.descend_skipTrails path] at hskipped
    obtain ⟨label, hentered, hlacks, htrail⟩ := lacks_of_makes hmakes hskipped
    rw [ops.descend_rendering] at hlacks
    rw [ops.descend_skipTrails, htrail, descend_key_trail] at hskipped
    exact ⟨path, u, u', label, harrives, hentered, hlacks, hskipped⟩
  · rintro ⟨path, u, u', label, harrives, hentered, hlacks, hskipped⟩
    obtain ⟨hkeyed, hchecked, part, hpart, hsub⟩ := exists_yields_of_arrives harrives hops hwant h
    rw [← ops.descend_rendering path] at hlacks
    obtain ⟨notice, hmem, htrail⟩ := exists_mem_of_lacks hchecked hkeyed hpart hentered hlacks
    rw [descend_key_trail] at htrail
    exact ⟨notice, hsub notice hmem, htrail ▸ hskipped⟩

end Discrepancy.Comparison

/-! ## Samples -/

namespace Discrepancy.Comparison

open Outcome

open scoped Sample

def single (storage : Identity) (key : Text) : Value :=
  .map .sorted Sample.string Sample.int storage
    [(.scalar (.string .owned (some key)), .scalar (.integer .int 1))]

def skipA : Options where
  skipTrails := ["[\"a\"]"]

def lacksA : Notice where
  header := "expected values to be equal"
  trail := "[\"a\"]"
  rows := [⟨"want", "std::map<std::string, int>\x7b\n  \"b\": 1,\n\x7d"⟩, ⟨"have", "nullptr"⟩,
    ⟨"want type", "std::map<std::string, int>"⟩, ⟨"have type", "std::nullptr_t"⟩]

/-- The key which is skipped is told to be missing. -/
theorem exists_skipped_notice_single :
    ∃ path u u' label, Arrives skipA (single 0 "a") (single 1 "b") path u u' ∧
      Entered u u' (skipA.descend path) ∧ Lacks {} u u' label ∧
      (path ++ [Step.key label]).foldl Trail.extend [] ∈ skipA.skipTrails := by
  have hkeyed : (single 0 "a").Everywhere Value.Keyed := by decide
  have hyields : (compare (single 0 "a") (single 1 "b") skipA).Yields [lacksA] := by decide
  exact (exists_skipped_notice_iff ⟨rfl, rfl⟩ hkeyed hyields).mp ⟨lacksA,
    List.mem_singleton_self _, List.mem_singleton_self _⟩

/-- Skipped trails are not always left alone. -/
theorem not_skipped_trail_silent :
    ¬ ∀ (want found : Value) (ops : Options) (notices : List Notice), ops.Unchecked →
      (compare want found ops).Yields notices →
        ∀ notice ∈ notices, notice.trail ∉ ops.skipTrails := by
  intro hsilent
  have hyields : (compare (single 0 "a") (single 1 "b") skipA).Yields [lacksA] := by decide
  exact hsilent _ _ skipA [lacksA] ⟨rfl, rfl⟩ hyields lacksA (List.mem_singleton_self _)
    (List.mem_singleton_self _)

end Discrepancy.Comparison
