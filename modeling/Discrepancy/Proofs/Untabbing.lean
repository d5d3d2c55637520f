import Discrepancy.Proofs.Unfolding
import Discrepancy.Sample.Host

/-!
# Taking tabs away

A part brings the tabs of its level along and loses them again behind its label.  What it loses is
told by its text alone: the tabs if it begins with all of them, and nothing otherwise, even if it
begins with some.  A renderer which indents its texts in its own way, or not at all, thus finds
every other byte of them in the text of the whole, whatever texts it returns.
-/

namespace Discrepancy

open Outcome

namespace Style

variable {style : Style} {t part opening : Text} {n level : Int} {parts : List Text}

/-- The test for tabs in front of a text tells whether it begins with them. -/
theorem tab_isPrefix_iff : style.tab n <+: t ↔
    style.tabSize n ≤ t.length ∧ (t.take (style.tabSize n)).all (· == Text.byte ' ') := by
  have hlength : (style.tab n).length = style.tabSize n := List.length_replicate
  rw [List.prefix_iff_eq_take, hlength]
  constructor
  · intro h
    have htake := congrArg List.length h
    rw [hlength, List.length_take] at htake
    exact ⟨by omega, h ▸ by simp [tab, Text.spaces]⟩
  · rintro ⟨hle, hall⟩
    rw [tab, Text.spaces, eq_comm, List.eq_replicate_iff, List.length_take]
    exact ⟨min_eq_left hle, fun b hb ↦ eq_of_beq (List.all_eq_true.mp hall b hb)⟩

/-- Nothing is taken away but all the tabs. -/
theorem untab_of_not_tab_isPrefix (h : ¬ style.tab n <+: t) : style.untab t n = t := by
  rw [tab_isPrefix_iff, ← decide_eq_true_eq (p := _ ≤ _), ← Bool.and_eq_true] at h
  exact if_neg h

theorem eq_tab_append_untab (h : style.tab n <+: t) : t = style.tab n ++ style.untab t n := by
  obtain ⟨s, rfl⟩ := h
  rw [untab_tab_append]

/-- Items are written as they are. -/
theorem isInfix_items (h : part ∈ parts) : part <:+: style.items level parts := by
  induction parts with
  | nil => cases h
  | cons first rest ih =>
    cases rest with
    | nil =>
      obtain rfl := List.mem_singleton.mp h
      exact List.infix_append _ _ _
    | cons next rest =>
      rw [items]
      rcases List.mem_cons.mp h with rfl | hrest
      · rw [List.append_assoc _ (style.separator false)]
        exact List.infix_append _ _ _
      · exact (ih hrest).trans (List.suffix_append _ _).isInfix

/-- Every part of a composite value is found in its text. -/
theorem isInfix_composite (h : part ∈ parts) : part <:+: style.composite level opening parts := by
  have hne : ¬ parts.isEmpty := fun hempty ↦
    List.ne_nil_of_mem h (List.isEmpty_iff.mp hempty)
  rw [composite, if_neg hne]
  exact (isInfix_items h).trans (List.infix_append _ _ _)

end Style

namespace Rendering

/-- Taking tabs away undoes putting them in front, and does nothing else: a text loses its tabs, if
it begins with all of them, and not a byte besides.  So what any renderer returns for a part stands
in the text of the whole, but for the tabs in front of it. -/
theorem untab_undoes_tab [Host] (style : Style) (n : Int) :
    (∀ s, style.untab (style.tab n ++ s) n = s) ∧
      (∀ t, if style.tab n <+: t then t = style.tab n ++ style.untab t n
        else style.untab t n = t) ∧
      ∀ (r : Rendering) (v : Value) (level : Int) (t : Text), v.IsComposite →
        r.renderer? v = none → (r.value v level).Yields t → ∀ item ∈ r.shownParts v, ∃ s,
          (r.value item.2 (level + 1)).Yields s ∧
            item.1 ++ r.style.untab s (r.style.depth (level + 1)) <:+: t := by
  refine ⟨fun s ↦ Style.untab_tab_append style s n, fun t ↦ ?_, ?_⟩
  · split_ifs with h
    · exact Style.eq_tab_append_untab h
    · exact Style.untab_of_not_tab_isPrefix h
  · intro r v level t hcomposite hnone h item hitem
    obtain ⟨htexts, rfl⟩ := textAt_yields_of_composite (opens_of_none hnone) hcomposite h
    refine ⟨_, htexts item hitem, ?_⟩
    exact Style.isInfix_composite (List.mem_map_of_mem hitem)

end Rendering

/-! ## Samples -/

namespace Rendering

open scoped Sample

def threeSpaces : Rendering :=
  ({} : Rendering).register Sample.int (Sample.constant "   7")

def oneSeven : Value :=
  .sequence .vector Sample.int (some 0) [.scalar (.integer .int 7)]

/-- The text of a renderer loses no spaces but the tabs in front of it. -/
theorem untab_undoes_tab_threeSpaces :
    oneSeven.IsComposite ∧ threeSpaces.renderer? oneSeven = none ∧
      (threeSpaces.value oneSeven 0).Yields "std::vector<int>\x7b\n   7,\n\x7d" ∧
      ([], .scalar (.integer .int 7)) ∈ threeSpaces.shownParts oneSeven ∧
      ∃ s, (threeSpaces.value (.scalar (.integer .int 7)) 1).Yields s ∧
        threeSpaces.style.untab s 1 <:+: "std::vector<int>\x7b\n   7,\n\x7d" := by
  have hyields : (threeSpaces.value oneSeven 0).Yields "std::vector<int>\x7b\n   7,\n\x7d" := rfl
  have hmem : ([], .scalar (.integer .int 7)) ∈ threeSpaces.shownParts oneSeven :=
    List.mem_cons_self
  exact ⟨trivial, rfl, hyields, hmem, (untab_undoes_tab threeSpaces.style 1).2.2 threeSpaces
    oneSeven 0 _ trivial rfl hyields _ hmem⟩

/-- One space of three is left, one of one is not taken. -/
example : threeSpaces.style.untab "   7" 1 = " 7" ∧ threeSpaces.style.untab " 7" 1 = " 7" := by
  decide

end Rendering

end Discrepancy
