import Discrepancy.Proofs.KeyOrder
import Discrepancy.Proofs.Leaves
import Discrepancy.Proofs.PlainText

/-!
# Entries of maps

A map is enumerated in the order of the labels of its keys, and keys may share a label: a renderer
can give all of them the same one.  Labels only say where an entry goes, though.  The enumeration is
a stable sort of the entries themselves, and the text of an entry is looked up by its key, which
finds its own value where it equals itself.  So no entry is lost or shown twice, whatever the labels
are.
-/

namespace Discrepancy

open Outcome

/-- The order of labels is the lexicographic order of unsigned bytes. -/
theorem Text.le_iff_le (s t : Text) : le s t ↔ s ≤ t := by
  induction s generalizing t with
  | nil => simp [le]
  | cons a s ih =>
    cases t with
    | nil => simp [le]
    | cons b t =>
      rw [le, List.cons_le_cons_iff]
      by_cases hab : a < b
      · simp [hab]
      · by_cases hba : b < a
        · simp [hab, hba, (UInt8.ne_of_lt hba).symm]
        · have heq : a = b := UInt8.le_antisymm (UInt8.not_lt.mp hba) (UInt8.not_lt.mp hab)
          simp [heq, ih]

namespace Table

variable {α β : Type}

/-- Labelled items are sorted along with what they are labels of. -/
theorem sortLabelled_map (f : α → Text × β) (items : List α) :
    sortLabelled (items.map f) =
      (items.insertionSort fun a b ↦ Text.le (f a).1 (f b).1).map f := by
  rw [sortLabelled_eq]
  exact (List.map_insertionSort _ _ f items fun _ _ _ _ ↦ Iff.rfl).symm

/-- A stable sort leaves items in their order which it need not tell apart. -/
theorem filter_insertionSort {r : α → α → Prop} [DecidableRel r] {p : α → Bool}
    (h : ∀ a b, p a → p b → r a b) (items : List α) :
    (items.insertionSort r).filter p = items.filter p := by
  have hpairwise : (items.filter p).Pairwise r :=
    List.pairwise_of_forall_mem_list fun a ha b hb ↦
      h a b (List.of_mem_filter ha) (List.of_mem_filter hb)
  have hsublist := (List.sublist_insertionSort hpairwise List.filter_sublist).filter p
  simp only [List.filter_filter, Bool.and_self] at hsublist
  exact (hsublist.eq_of_length ((List.perm_insertionSort r items).filter p).length_eq.symm).symm

end Table

namespace Rendering

variable [Host] {r : Rendering} {rule : KeyRule} {key mapped : Ty} {storage : Identity}
  {entries : List (Value × Value)} {level : Int}

/-- An entry of a map with the label of its key. -/
structure LabelledEntry where
  label : Text
  key : Value
  value : Value

namespace LabelledEntry

def entry (item : LabelledEntry) : Value × Value :=
  (item.key, item.value)

def labelledKey (item : LabelledEntry) : Text × Value :=
  (item.label, item.key)

end LabelledEntry

/-- What is written for an entry: its label, and the text of its value. -/
def entryText (r : Rendering) (level : Int) (item : LabelledEntry) : Text :=
  r.partText level (item.label ++ ": ", item.value)

/-- An enumeration of the entries of a map by the labels of their keys. -/
structure Enumerates (r : Rendering) (entries : List (Value × Value)) (items : List LabelledEntry) :
    Prop where
  perm : (items.map LabelledEntry.entry).Perm entries
  labelled : ∀ item ∈ items, (r.keyLabel item.key).Yields item.label
  sorted : items.Pairwise fun a b ↦ a.label ≤ b.label
  /-- Entries of one label come in the order of the map. -/
  stable : ∀ label, (items.filter fun item ↦ item.label = label).map LabelledEntry.entry =
    entries.filter fun entry ↦ (r.keyLabel entry.1).Yields label

theorem textAt_yields {v : Value} (h : (r.value v level).Returns) :
    (r.value v level).Yields (r.textAt v level) := by
  obtain ⟨t, ht⟩ := h
  rwa [textAt_of_yields ht]

/-- The keys of a map have labels and its values have texts. -/
def RendersEntries (r : Rendering) (entries : List (Value × Value)) : Prop :=
  ∀ entry ∈ entries, (r.keyLabel entry.1).Returns ∧ ∀ level, (r.value entry.2 level).Returns

/-- Where renderers return, only what is sealed has no text. -/
theorem Faultless.rendersEntries (h : r.Faultless)
    (hv : (Value.map rule key mapped storage entries).Everywhere Value.Renderable) :
    r.RendersEntries entries :=
  fun _ hmem ↦ ⟨keyLabel_returns h (hv.part (Value.key_mem_parts hmem)),
    text_returns h (hv.part (Value.mapped_mem_parts hmem)) true⟩

/-- The entries of a map with their labels, in the order of these. -/
def labelledEntries (r : Rendering) (entries : List (Value × Value)) : List LabelledEntry :=
  (entries.insertionSort fun a b ↦ Text.le (r.label a.1) (r.label b.1)).map
    fun entry ↦ ⟨r.label entry.1, entry.1, entry.2⟩

theorem map_labelledEntries {α : Type} (f : LabelledEntry → α) :
    (r.labelledEntries entries).map f =
      (entries.insertionSort fun a b ↦ Text.le (r.label a.1) (r.label b.1)).map
        fun entry ↦ f ⟨r.label entry.1, entry.1, entry.2⟩ :=
  List.map_map

/-- Each labelled entry is an entry of the map, and carries the label of its own key. -/
theorem entry_mem_of_mem_labelledEntries {item : LabelledEntry}
    (h : item ∈ r.labelledEntries entries) :
    item.entry ∈ entries ∧ item.label = r.label item.key := by
  obtain ⟨entry, hmem, rfl⟩ := List.mem_map.mp h
  exact ⟨(List.mem_insertionSort _).mp hmem, rfl⟩

theorem labelledEntries_labelledKey :
    (r.labelledEntries entries).map LabelledEntry.labelledKey =
      Table.sortLabelled (entries.map fun entry ↦ (r.label entry.1, entry.1)) := by
  rw [map_labelledEntries, Table.sortLabelled_map]
  rfl

/-- Sorting the entries by their labels enumerates them. -/
theorem enumerates_labelledEntries (h : ∀ entry ∈ entries, (r.keyLabel entry.1).Returns) :
    r.Enumerates entries (r.labelledEntries entries) where
  perm := by
    rw [map_labelledEntries]
    exact (List.map_id _).symm ▸ List.perm_insertionSort _ entries
  labelled item hitem := by
    obtain ⟨hmem, hlabel⟩ := entry_mem_of_mem_labelledEntries hitem
    exact hlabel ▸ keyLabel_yields (h _ hmem)
  sorted := by
    have hsorted := Table.sortLabelled_pairwise
      (entries.map fun entry ↦ (r.label entry.1, entry.1))
    rw [← labelledEntries_labelledKey, List.pairwise_map] at hsorted
    exact hsorted.imp fun hle ↦ (Text.le_iff_le _ _).mp hle
  stable label := by
    have hstable := Table.filter_insertionSort
      (r := fun a b : Value × Value ↦ Text.le (r.label a.1) (r.label b.1))
      (p := fun entry ↦ r.label entry.1 = label)
      (fun a b ha hb ↦ by
        rw [of_decide_eq_true ha, of_decide_eq_true hb]
        exact Text.le_refl label) entries
    have hlabel : ∀ entry ∈ entries,
        decide (r.label entry.1 = label) = decide ((r.keyLabel entry.1).Yields label) := by
      refine fun entry hmem ↦ decide_eq_decide.mpr ⟨fun heq ↦ ?_, label_of_yields⟩
      exact heq ▸ keyLabel_yields (h entry hmem)
    rw [labelledEntries, List.filter_map, List.map_map]
    exact (List.map_id _).trans (hstable.trans (List.filter_congr hlabel))

variable [LawfulHost]

/-- A key finds its own value, whichever label it has. -/
theorem entryText_yields (hkeyed : (Value.map rule key mapped storage entries).Keyed)
    (hself : ∀ entry ∈ entries, rule.form.ordered ∨ rule.same entry.1 entry.1)
    {item : LabelledEntry} (hmem : item.entry ∈ entries)
    (htext : (r.value item.value level).Returns) :
    (do
      let part ← r.nested level ((Table.find? rule item.key (entryTexts entries r level)).getD
        (pure (r.style.leaf level absentText)))
      pure (item.label ++ ": " ++ part) : Outcome Text).Yields (r.entryText level item) := by
  have hfound : Table.find? rule item.key entries = some item.value :=
    Table.find?_of_mem hkeyed.2 hmem (hself _ hmem)
  rw [find?_entryTexts, shownFor, hfound]
  have hpart : (r.nested level (text true item.value r level)).Yields _ :=
    (textAt_yields htext).bind (yields_pure.mpr rfl)
  exact hpart.bind (yields_pure.mpr rfl)

end Rendering

/-! ## Samples -/

namespace Rendering

open scoped Sample

/-- A rendering which shows all strings alike. -/
def blurred : Rendering :=
  ({} : Rendering).register Sample.string (Sample.constant "k")

/-- A map whose keys come in another order than that of their contents. -/
def twoNames : Value :=
  .map .hashed Sample.string Sample.int 0
    [(.scalar (.string .owned (some "b")), .scalar (.integer .int 1)),
      (.scalar (.string .owned (some "a")), .scalar (.integer .int 2))]

/-- Both keys are shown, in the order of the map. -/
example : (inShape .map blurred 0 twoNames).Yields
    "std::unordered_map<std::string, int>\x7b\n  k: 1,\n  k: 2,\n\x7d" :=
  rfl

end Rendering

end Discrepancy
