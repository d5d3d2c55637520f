import Discrepancy.Host

/-!
# Tables

The entries of a map, in the order in which the map enumerates them.  A map in order trusts its
comparator even for keys which that one does not order, so that what it finds is said here for all
keys.
-/

namespace Discrepancy.Table

variable [Host] {α : Type}

/-- What a table has for a key.  A table in order goes to the first entry that does not come
before the key, and takes it unless the key comes before it.  Any other table takes the first
entry with an equal key. -/
def find? (rule : KeyRule) (key : Value) : List (Value × α) → Option α
  | [] => none
  | (k, a) :: rest =>
    if rule.form.ordered then
      if rule.less k key then find? rule key rest else if rule.less key k then none else some a
    else if rule.same k key then some a
    else find? rule key rest

/-- What is found depends on the keys alone. -/
theorem find?_map {β : Type} (rule : KeyRule) (key : Value) (f : α → β)
    (entries : List (Value × α)) :
    find? rule key (entries.map fun entry ↦ (entry.1, f entry.2)) =
      (find? rule key entries).map f := by
  induction entries with
  | nil => rfl
  | cons entry rest ih =>
    simp only [List.map_cons, find?, ih]
    split
    · split
      · rfl
      · split <;> rfl
    · split <;> rfl

/-- Whatever is found stands in the table. -/
theorem exists_mem_of_find? {rule : KeyRule} {key : Value} {a : α} {entries : List (Value × α)}
    (found : find? rule key entries = some a) : ∃ k, (k, a) ∈ entries := by
  induction entries with
  | nil => simp [find?] at found
  | cons entry rest ih =>
    unfold find? at found
    have later (h : find? rule key rest = some a) : ∃ k, (k, a) ∈ entry :: rest :=
      (ih h).imp fun _ mem ↦ List.mem_cons_of_mem _ mem
    have first (h : some entry.2 = some a) : ∃ k, (k, a) ∈ entry :: rest :=
      ⟨entry.1, by cases h; exact List.mem_cons_self ..⟩
    split at found
    · split at found
      · exact later found
      · split at found
        · cases found
        · exact first found
    · split at found
      · exact first found
      · exact later found

end Discrepancy.Table
