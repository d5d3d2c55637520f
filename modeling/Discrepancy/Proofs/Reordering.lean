import Discrepancy.Proofs.KeyOrder
import Discrepancy.Proofs.Simulation

/-!
# Reordered values

Two values are the same up to the order in which unordered maps enumerate their entries, at any
depth, inside keys as well.  Nothing else tells them apart: neither their types and identities, nor
what a table has for a key, provided that comparators do not see the enumeration of a key.  The
natural order does not.  A comparison that looks at two values finds reordered parts where it finds
parts in the reordered values.
-/

namespace Discrepancy

namespace Value

/-- Two values differ at most in the order of the entries of unordered maps. -/
inductive Reordered : Value → Value → Prop
  | absent : Reordered absent absent
  | hidden (type : Ty) : Reordered (hidden type) (hidden type)
  | scalar (s : Scalar) : Reordered (scalar s) (scalar s)
  | nil (form : PointerForm) (target : Ty) :
      Reordered (pointer form target none) (pointer form target none)
  | pointee (form : PointerForm) (target : Ty) (object : Identity) {v w : Value}
      (h : Reordered v w) :
      Reordered (pointer form target (some (object, v))) (pointer form target (some (object, w)))
  | record (name : Text) {fields others : List (Text × Value)}
      (hnames : fields.map Prod.fst = others.map Prod.fst)
      (h : List.Forall₂ Reordered (fields.map Prod.snd) (others.map Prod.snd)) :
      Reordered (record name fields) (record name others)
  | sequence (form : SequenceForm) (element : Ty) (storage : Option Identity)
      {elements others : List Value} (h : List.Forall₂ Reordered elements others) :
      Reordered (sequence form element storage elements) (sequence form element storage others)
  | map (rule : KeyRule) (key mapped : Ty) (storage : Identity)
      {entries permuted others : List (Value × Value)} (hperm : entries.Perm permuted)
      (hordered : rule.form.ordered → entries = permuted)
      (hkeys : List.Forall₂ Reordered (permuted.map Prod.fst) (others.map Prod.fst))
      (hvalues : List.Forall₂ Reordered (permuted.map Prod.snd) (others.map Prod.snd)) :
      Reordered (map rule key mapped storage entries) (map rule key mapped storage others)
  | interface (type : InterfaceTy) (alternative : Option Nat) {v w : Value} (h : Reordered v w) :
      Reordered (interface type alternative v) (interface type alternative w)

namespace Reordered

variable {v v' w w' : Value}

theorem refl (v : Value) : v.Reordered v := by
  induction v using induction_parts with
  | h v ih =>
    have hall {items : List Value} (h : ∀ u ∈ items, u ∈ v.parts) :
        List.Forall₂ Reordered items items :=
      List.forall₂_same.mpr fun u hu ↦ ih u (h u hu)
    cases v with
    | absent => exact .absent
    | hidden type => exact .hidden type
    | scalar s => exact .scalar s
    | pointer form target pointee =>
      rcases pointee with _ | ⟨object, u⟩
      · exact .nil form target
      · exact .pointee form target object (ih u (by simp [parts]))
    | record name fields => exact .record name rfl (hall fun _ hu ↦ hu)
    | sequence form element storage elements =>
      exact .sequence form element storage (hall fun _ hu ↦ hu)
    | map rule key mapped storage entries =>
      refine .map rule key mapped storage (.refl _) (fun _ ↦ rfl) (hall fun u hu ↦ ?_)
        (hall fun u hu ↦ ?_)
      · obtain ⟨entry, hmem, rfl⟩ := List.mem_map.mp hu
        exact key_mem_parts hmem
      · obtain ⟨entry, hmem, rfl⟩ := List.mem_map.mp hu
        exact mapped_mem_parts hmem
    | interface type alternative content =>
      exact .interface type alternative (ih content List.mem_cons_self)

theorem ty?_eq (h : v.Reordered v') : v.ty? = v'.ty? := by
  cases h <;> rfl

theorem identity?_eq (h : v.Reordered v') : v.identity? = v'.identity? := by
  rw [identity?, identity?, h.ty?_eq]

theorem kind_eq (h : v.Reordered v') : v.kind = v'.kind := by
  rw [kind, kind, h.ty?_eq]

theorem typeName_eq (h : v.Reordered v') : v.typeName = v'.typeName := by
  rw [typeName, typeName, h.ty?_eq]

theorem isPresent_eq (h : v.Reordered v') : v.isPresent = v'.isPresent := by
  cases h <;> rfl

theorem isAccessible_eq (h : v.Reordered v') : v.isAccessible = v'.isAccessible := by
  cases h <;> rfl

/-- Reordering keeps the make of a value. -/
theorem rank_eq (h : v.Reordered v') : v.rank = v'.rank := by
  cases h <;> rfl

end Reordered

end Value

/-! ## Pairs -/

section Pairs

variable {α β : Type} {p : α → α → Prop} {q : β → β → Prop} {xs ys : List (α × β)}

/-- Pairs are related when their components are. -/
theorem forall₂_pairs (hfst : List.Forall₂ p (xs.map Prod.fst) (ys.map Prod.fst))
    (hsnd : List.Forall₂ q (xs.map Prod.snd) (ys.map Prod.snd)) :
    List.Forall₂ (fun x y ↦ p x.1 y.1 ∧ q x.2 y.2) xs ys := by
  rw [List.forall₂_map_left_iff, List.forall₂_map_right_iff] at hfst hsnd
  exact hfst.mp (fun _ _ ↦ And.intro) hsnd

theorem forall₂_pairs_of_eq (hfst : xs.map Prod.fst = ys.map Prod.fst)
    (hsnd : List.Forall₂ q (xs.map Prod.snd) (ys.map Prod.snd)) :
    List.Forall₂ (fun x y ↦ x.1 = y.1 ∧ q x.2 y.2) xs ys :=
  forall₂_pairs (by rw [List.forall₂_eq_eq_eq, hfst]) hsnd

end Pairs

namespace Value

abbrev ReorderedEntry (entry other : Value × Value) : Prop :=
  entry.1.Reordered other.1 ∧ entry.2.Reordered other.2

end Value

/-! ## The order of keys -/

theorem orderLists_congr {α : Type} {cmp : α → α → Option Ordering} {p : α → α → Prop}
    {xs xs' ys ys' : List α} (hxs : List.Forall₂ p xs xs') (hys : List.Forall₂ p ys ys')
    (hcmp : ∀ x ∈ xs, ∀ x' y y', p x x' → p y y' → cmp x y = cmp x' y') :
    orderLists cmp xs ys = orderLists cmp xs' ys' := by
  induction hxs generalizing ys ys' with
  | nil => cases hys <;> rfl
  | cons hx _ ih =>
    rw [List.forall_mem_cons] at hcmp
    cases hys with
    | nil => rfl
    | cons hy hys => rw [orderLists, orderLists, hcmp.1 _ _ _ hx hy, ih hys hcmp.2]

namespace Value

theorem forall₂_flatEntries {entries others : List (Value × Value)}
    (h : List.Forall₂ ReorderedEntry entries others) :
    List.Forall₂ Reordered (flatEntries entries) (flatEntries others) := by
  induction h with
  | nil => exact .nil
  | cons hentry _ ih => exact .cons hentry.1 (.cons hentry.2 ih)

/-- The order of keys does not see how unordered maps are enumerated. -/
theorem order_congr {v v' w w' : Value} (hv : v.Reordered v') (hw : w.Reordered w') :
    order v w = order v' w' := by
  induction v using induction_parts generalizing v' w w' with
  | h v ih =>
    by_cases hrank : v.rank = w.rank
    · cases hv with
      | absent => cases hw <;> rfl
      | hidden type => cases hw <;> rfl
      | scalar s => cases hw <;> rfl
      | nil form target => cases hw <;> rfl
      | pointee form target object h =>
        cases hw with
        | nil => rfl
        | pointee form' target' object' h' =>
          simp only [order, ih _ (by simp [parts]) h h']
        | _ => cases hrank
      | record name hnames h =>
        cases hw with
        | record name' hnames' h' =>
          rw [order, order, orderFields_eq, orderFields_eq]
          exact orderLists_congr h h' fun x hx _ _ _ hx' hy ↦ ih x hx hx' hy
        | _ => cases hrank
      | sequence form element storage h =>
        cases hw with
        | sequence form' element' storage' h' =>
          rw [order, order, orderElements_eq, orderElements_eq]
          exact orderLists_congr h h' fun x hx _ _ _ hx' hy ↦ ih x hx hx' hy
        | _ => cases hrank
      | map rule key mapped storage hperm hordered hkeys hvalues =>
        cases hw with
        | map rule' key' mapped' storage' hperm' hordered' hkeys' hvalues' =>
          rw [order, order]
          by_cases hrule : rule.form.ordered
          · by_cases hrule' : rule'.form.ordered
            · obtain rfl := hordered hrule
              obtain rfl := hordered' hrule'
              rw [orderEntries_eq, orderEntries_eq, if_pos hrule, if_pos hrule]
              exact congrArg _ (orderLists_congr (forall₂_flatEntries (forall₂_pairs hkeys hvalues))
                (forall₂_flatEntries (forall₂_pairs hkeys' hvalues'))
                fun x hx _ _ _ hx' hy ↦ ih x hx hx' hy)
            · rw [hrule, eq_false_of_ne_true hrule']
              rfl
          · rw [if_neg hrule, if_neg hrule]
        | _ => cases hrank
      | interface type alternative h =>
        cases hw with
        | interface type' alternative' h' =>
          rw [order, order, ih _ List.mem_cons_self h h']
        | _ => cases hrank
    · have hrank' : v'.rank ≠ w'.rank := by rwa [← hv.rank_eq, ← hw.rank_eq]
      rw [order_of_rank_ne hrank, order_of_rank_ne hrank', orderRanks, orderRanks, hv.rank_eq,
        hw.rank_eq]

end Value

/-- A host whose comparators do not see how unordered maps are enumerated. -/
class SteadyHost [Host] : Prop where
  order_congr (rule : KeyRule) {v v' w w' : Value} (hv : v.Reordered v') (hw : w.Reordered w') :
    Host.order rule v w = Host.order rule v' w'

section

open scoped Sample

theorem Sample.lowered_reordered {v v' : Value} (h : v.Reordered v') :
    (lowered v).Reordered (lowered v') := by
  cases h with
  | scalar s => exact .refl _
  | absent => exact .absent
  | hidden type => exact .hidden type
  | nil form target => exact .nil form target
  | pointee form target object h => exact .pointee form target object h
  | record name hnames h => exact .record name hnames h
  | sequence form element storage h => exact .sequence form element storage h
  | map rule key mapped storage hperm hordered hkeys hvalues =>
    exact .map rule key mapped storage hperm hordered hkeys hvalues
  | interface type alternative h => exact .interface type alternative h

instance Sample.steadyHost : SteadyHost where
  order_congr rule {v v' w w'} hv hw := by
    change Sample.order rule v w = Sample.order rule v' w'
    unfold Sample.order
    split
    · exact Value.order_congr (lowered_reordered hv) (lowered_reordered hw)
    · exact Value.order_congr hv hw

end

namespace KeyRule

variable [Host] [SteadyHost] {v v' w w' : Value}

theorem less_congr (rule : KeyRule) (hv : v.Reordered v') (hw : w.Reordered w') :
    rule.less v w = rule.less v' w' := by
  rw [less, less, SteadyHost.order_congr rule hv hw]

theorem same_congr (rule : KeyRule) (hv : v.Reordered v') (hw : w.Reordered w') :
    rule.same v w = rule.same v' w' := by
  rw [same, same, SteadyHost.order_congr rule hv hw]

end KeyRule

/-! ## Tables -/

namespace Table

open Value

variable [Host] [LawfulHost] {α : Type} {rule : KeyRule} {entries permuted : List (Value × α)}
  {key key' : Value}

/-- Without an order, finding goes by equality alone. -/
theorem find?_eq_some_iff_of_unordered {a : α} (hrule : rule.form.ordered = false)
    (hdistinct : Distinct rule entries) :
    find? rule key entries = some a ↔ ∃ k, (k, a) ∈ entries ∧ rule.same k key := by
  constructor
  · intro hfound
    induction entries with
    | nil => cases hfound
    | cons entry rest ih =>
      rw [find?_cons_of_unordered hrule] at hfound
      split_ifs at hfound with hsame
      · obtain rfl := Option.some.inj hfound
        exact ⟨entry.1, List.mem_cons_self, hsame⟩
      · exact (ih (List.pairwise_cons.mp hdistinct).2 hfound).imp
          fun _ ↦ And.imp_left (List.mem_cons_of_mem entry)
  · rintro ⟨k, hmem, hsame⟩
    rw [← find?_congr hsame]
    exact find?_of_mem hdistinct hmem (.inr (KeyRule.same_self hsame))

theorem Distinct.perm (hdistinct : Distinct rule entries) (hperm : entries.Perm permuted)
    (hordered : rule.form.ordered → entries = permuted) : Distinct rule permuted := by
  by_cases hrule : rule.form.ordered
  · exact hordered hrule ▸ hdistinct
  · refine (hperm.pairwise_iff fun {a b} h ↦ ?_).mp hdistinct
    rw [if_neg hrule] at h ⊢
    exact eq_false_of_ne_true fun hsame ↦ ne_true_of_eq_false h (KeyRule.same_symm hsame)

/-- What a table without an order has for a key does not depend on its enumeration. -/
theorem find?_perm (hdistinct : Distinct rule entries) (hperm : entries.Perm permuted)
    (hordered : rule.form.ordered → entries = permuted) :
    find? rule key entries = find? rule key permuted := by
  by_cases hrule : rule.form.ordered
  · rw [hordered hrule]
  · have hrule' := eq_false_of_ne_true hrule
    refine Option.ext fun a ↦ ?_
    rw [find?_eq_some_iff_of_unordered hrule' hdistinct,
      find?_eq_some_iff_of_unordered hrule' (hdistinct.perm hperm hordered)]
    simp only [hperm.mem_iff]

variable [SteadyHost]

omit [LawfulHost] in
/-- Reordered maps find reordered values under reordered keys. -/
theorem find?_reordered {entries others : List (Value × Value)} (hkey : key.Reordered key')
    (h : List.Forall₂ ReorderedEntry entries others) :
    Option.Rel Reordered (find? rule key entries) (find? rule key' others) := by
  induction h with
  | nil => exact .none
  | cons hentry _ ih =>
    rw [find?, find?, rule.less_congr hentry.1 hkey, rule.less_congr hkey hentry.1,
      rule.same_congr hentry.1 hkey]
    split_ifs
    · exact ih
    · exact .none
    · exact .some hentry.2
    · exact .some hentry.2
    · exact ih

omit [LawfulHost] in
theorem Distinct.reordered {entries others : List (Value × Value)}
    (hdistinct : Distinct rule entries) (h : List.Forall₂ ReorderedEntry entries others) :
    Distinct rule others := by
  induction h with
  | nil => exact .nil
  | cons hentry hrest ih =>
    obtain ⟨hhead, htail⟩ := List.pairwise_cons.mp hdistinct
    refine List.pairwise_cons.mpr ⟨fun other' hmem ↦ ?_, ih htail⟩
    obtain ⟨entry', hmem', hentry'⟩ := Outcome.exists_of_mem_right hrest hmem
    rw [← rule.less_congr hentry.1 hentry'.1, ← rule.same_congr hentry.1 hentry'.1]
    exact hhead entry' hmem'

end Table

namespace Value.Reordered

variable [Host] [LawfulHost] [SteadyHost]

/-- Reordering does not give a key of another type, or one twice. -/
theorem keyed {v v' : Value} (h : v.Reordered v') (hkeyed : v.Keyed) : v'.Keyed := by
  cases h with
  | map rule key mapped storage hperm hordered hkeys hvalues =>
    have hentries := forall₂_pairs hkeys hvalues
    refine ⟨fun other hmem ↦ ?_, (hkeyed.2.perm hperm hordered).reordered hentries⟩
    obtain ⟨entry, hmem', hentry⟩ := Outcome.exists_of_mem_right hentries hmem
    rw [← hentry.1.isAccessible_eq, ← hentry.1.ty?_eq]
    exact hkeyed.1 entry (hperm.mem_iff.mpr hmem')
  | _ => trivial

omit [Host] [LawfulHost] [SteadyHost] in
theorem length_eq {rule : KeyRule} {key mapped : Ty} {storage : Identity}
    {entries others : List (Value × Value)}
    (h : (Value.map rule key mapped storage entries).Reordered
      (.map rule key mapped storage others)) : entries.length = others.length := by
  cases h with
  | map _ _ _ _ hperm hordered hkeys hvalues =>
    exact hperm.length_eq.trans (by simpa using hkeys.length_eq)

/-- What reordered maps have for reordered keys. -/
theorem find?_rel {rule : KeyRule} {key mapped : Ty} {storage : Identity}
    {entries others : List (Value × Value)} {k k' : Value}
    (h : (Value.map rule key mapped storage entries).Reordered
      (.map rule key mapped storage others))
    (hkeyed : (Value.map rule key mapped storage entries).Keyed) (hk : k.Reordered k') :
    Option.Rel Reordered (Table.find? rule k entries) (Table.find? rule k' others) := by
  cases h with
  | map _ _ _ _ hperm hordered hkeys hvalues =>
    rw [Table.find?_perm hkeyed.2 hperm hordered]
    exact Table.find?_reordered hk (forall₂_pairs hkeys hvalues)

end Value.Reordered

/-! ## Looks at reordered values -/

namespace Comparison

open Outcome

variable [Host] {strict : Bool} {N : Notice → Notice → Prop} {R : Meeting → Meeting → Prop}
  {m m' : Meeting}

/-- Only values of one make are looked at with success. -/
theorem rank_eq_of_inspect {want found : Value} {ops : Options} {verdict : Verdict}
    (hidentity : want.identity? = found.identity?)
    (h : (inspect want found ops).Yields verdict) : want.rank = found.rank := by
  by_contra hne
  have hinspect : inspect want found ops = .leaf <$> want.equals found := by
    cases want with
    | pointer form target pointee =>
      cases pointee <;> cases found <;> first | rfl | exact (hne rfl).elim
    | _ => cases found <;> first | rfl | exact (hne rfl).elim
  rw [hinspect, yields_map] at h
  obtain ⟨equal, hequal, -⟩ := h
  obtain ⟨s, t, rfl, rfl, -⟩ := Value.equals_yields hidentity hequal
  exact hne rfl

/-- The parts at which two comparisons of reordered values arrive side by side. -/
def Parallels (strict : Bool) (R : Meeting → Meeting → Prop) (m m' : Meeting) : Prop :=
  ∀ (step step' : Option Step) (v w v' w' : Value), (strict → step = step') → v ∈ m.want.parts →
    w ∈ m.found.parts → v.Reordered v' → w.Reordered w' →
    R ⟨v, w, m.ops.follow step⟩ ⟨v', w', m'.ops.follow step'⟩

theorem fieldBranches_matches {fields fields' others others' : List (Text × Value)}
    (hwant : List.Forall₂ (fun field field' ↦ field.1 = field'.1 ∧ field.2.Reordered field'.2)
      fields fields')
    (hfound : List.Forall₂ Value.Reordered (others.map Prod.snd) (others'.map Prod.snd))
    (hbranch : ∀ name, ∀ v ∈ fields.map Prod.snd, ∀ w ∈ others.map Prod.snd, ∀ v' w',
      v.Reordered v' → w.Reordered w' → Branch.Matches N R m m' (.part (some (.field name)) v w)
        (.part (some (.field name)) v' w')) :
    List.Forall₂ (Branch.Matches N R m m') (fieldBranches fields others)
      (fieldBranches fields' others') := by
  rw [List.forall₂_map_left_iff, List.forall₂_map_right_iff] at hfound
  induction hwant generalizing others others' with
  | nil => exact .nil
  | @cons field field' _ _ hfield _ ih =>
    cases hfound with
    | nil => exact .nil
    | cons hw hfound =>
      have hrest := ih hfound fun name v hv w hw ↦
        hbranch name v (List.mem_cons_of_mem _ hv) w (List.mem_cons_of_mem _ hw)
      obtain ⟨name, v⟩ := field
      obtain ⟨name', v'⟩ := field'
      obtain rfl : name = name' := hfield.1
      rw [fieldBranches, fieldBranches, ← hfield.2.isPresent_eq]
      split_ifs
      · exact .cons (hbranch name v List.mem_cons_self _ List.mem_cons_self _ _ hfield.2 hw) hrest
      · exact hrest

theorem elementBranches_matches {elements elements' others others' : List Value} {start : Nat}
    (hwant : List.Forall₂ Value.Reordered elements elements')
    (hfound : List.Forall₂ Value.Reordered others others')
    (hbranch : ∀ i, ∀ v ∈ elements, ∀ w ∈ others, ∀ v' w', v.Reordered v' → w.Reordered w' →
      Branch.Matches N R m m' (.part (some (.index i)) v w) (.part (some (.index i)) v' w')) :
    List.Forall₂ (Branch.Matches N R m m') (elementBranches elements others start)
      (elementBranches elements' others' start) := by
  induction hwant generalizing others others' start with
  | nil => exact .nil
  | cons hv _ ih =>
    cases hfound with
    | nil => exact .nil
    | cons hw hfound =>
      refine .cons (hbranch start _ List.mem_cons_self _ List.mem_cons_self _ _ hv hw)
        (ih hfound fun i v hv w hw ↦
          hbranch i v (List.mem_cons_of_mem _ hv) w (List.mem_cons_of_mem _ hw))

theorem keyBranch_matches [LawfulHost] {rule rule' : KeyRule} {key mapped mapped' : Ty}
    {storage storage' : Identity} {entries entries' others others' : List (Value × Value)}
    {label label' : Text} {k k' v v' : Value} (hform : rule.form = rule'.form)
    (hwant : (Value.map rule key mapped storage entries).Keyed)
    (hwant' : (Value.map rule key mapped storage entries').Keyed)
    (hk : (k, v) ∈ entries) (hk' : (k', v') ∈ entries')
    (hown : Option.Rel Value.Reordered (Table.find? rule k entries)
      (Table.find? rule k' entries'))
    (hfound : Option.Rel Value.Reordered (Table.find? rule' k others)
      (Table.find? rule' k' others'))
    (hbranch : ∀ w w', Table.find? rule' k others = some w → v.Reordered v' → w.Reordered w' →
      Branch.Matches N R m m' (.part (some (.key label)) v w) (.part (some (.key label')) v' w'))
    (hmissing : Branch.Matches N R m m' (.missing label) (.missing label')) :
    Branch.Matches N R m m'
      (keyBranch (.map rule' key mapped' storage' others) rule entries label k)
      (keyBranch (.map rule' key mapped' storage' others') rule entries' label' k') := by
  rw [keyBranch_eq hform hwant hk, keyBranch_eq hform hwant' hk']
  generalize hother : Table.find? rule' k others = other at hfound
  generalize hother' : Table.find? rule' k' others' = other' at hfound
  cases hfound with
  | none => exact hmissing
  | @some w w' hw =>
    -- keys which find anything find what stands beside them in their own map
    have hself {key : Value} : rule'.form.ordered ∨ rule'.same key key →
        rule.form.ordered ∨ rule.same key key :=
      Or.imp (hform ▸ ·) (KeyRule.same_self_of_form hform.symm)
    rw [Table.find?_of_mem hwant.2 hk (hself (Table.ordered_or_same_of_find? hother)),
      Table.find?_of_mem hwant'.2 hk' (hself (Table.ordered_or_same_of_find? hother'))] at hown
    cases hown with
    | some hv =>
      rw [Option.elim_some, Option.elim_some, ← hw.isPresent_eq]
      split_ifs
      · exact hbranch w w' hother hv hw
      · exact hmissing

/-- The branches of reordered maps. -/
theorem keyBranches_matches [LawfulHost] [SteadyHost] {r r' : Rendering} {rule rule' : KeyRule}
    {key mapped mapped' : Ty} {storage storage' : Identity}
    {entries entries' others others' : List (Value × Value)}
    {keys keys' : List (Text × Value)} (hform : rule.form = rule'.form)
    (hwant : (Value.map rule key mapped storage entries).Reordered
      (.map rule key mapped storage entries'))
    (hfound : (Value.map rule' key mapped' storage' others).Reordered
      (.map rule' key mapped' storage' others'))
    (hkeyed : (Value.map rule key mapped storage entries).Keyed)
    (hkeyed' : (Value.map rule' key mapped' storage' others).Keyed)
    (hkeys : (r.sortedKeys (.map rule key mapped storage entries)).Yields keys)
    (hkeys' : (r'.sortedKeys (.map rule key mapped storage entries')).Yields keys')
    (hmatched : Matched strict
      (fun item item' ↦ (strict → item.1 = item'.1) ∧ item.2.Reordered item'.2) keys keys')
    (hbranch : ∀ label label', (strict → label = label') → ∀ v ∈ entries.map Prod.snd,
      ∀ w ∈ others.map Prod.snd, ∀ v' w', v.Reordered v' → w.Reordered w' →
      Branch.Matches N R m m' (.part (some (.key label)) v w) (.part (some (.key label')) v' w'))
    (hmissing : ∀ label label', (strict → label = label') →
      Branch.Matches N R m m' (.missing label) (.missing label')) :
    Matched strict (Branch.Matches N R m m')
      (keys.map fun (label, k) ↦
        keyBranch (.map rule' key mapped' storage' others) rule entries label k)
      (keys'.map fun (label, k) ↦
        keyBranch (.map rule' key mapped' storage' others') rule entries' label k) := by
  refine hmatched.map fun item hitem item' hitem' ⟨hlabel, hre⟩ ↦ ?_
  obtain ⟨v, hv, -⟩ := Rendering.exists_mem_of_sortedKeys hkeys hitem
  obtain ⟨v', hv', -⟩ := Rendering.exists_mem_of_sortedKeys hkeys' hitem'
  refine keyBranch_matches hform hkeyed (hwant.keyed hkeyed) hv hv'
    (hwant.find?_rel hkeyed hre) (hfound.find?_rel hkeyed' hre)
    (fun w w' hw hre hre' ↦ ?_) (hmissing _ _ hlabel)
  obtain ⟨k, hmem⟩ := Table.exists_mem_of_find? hw
  exact hbranch _ _ hlabel v (List.mem_map_of_mem hv) w (List.mem_map_of_mem hmem) _ _ hre hre'

/-- Looks at two meetings show the same. -/
abbrev LooksAlike (strict : Bool) (N : Notice → Notice → Prop) (R : Meeting → Meeting → Prop)
    (m m' : Meeting) : Prop :=
  Corresponds (Verdict.Matches strict N R m m') (inspect m.want m.found m.ops)
    (inspect m'.want m'.found m'.ops)

section Kinds

variable {ops ops' : Options} {v v' w w' : Value}

/-- Leaves which come of the same look are alike. -/
theorem looksAlike_leaf {x : Outcome Bool} (h : inspect m.want m.found m.ops = .leaf <$> x)
    (h' : inspect m'.want m'.found m'.ops = .leaf <$> x) : LooksAlike strict N R m m' := by
  rw [LooksAlike, h, h']
  exact (corresponds_refl fun _ ↦ rfl).map fun equal _ h ↦ h ▸ .leaf equal

theorem corresponds_branches {below below' : List Branch}
    (h : List.Forall₂ (Branch.Matches N R m m') below below') :
    Corresponds (Verdict.Matches strict N R m m') (pure (.branches below))
      (pure (.branches below')) :=
  corresponds_pure (.branches (.of_forall₂ h))

theorem looksAlike_pointees {form form' : PointerForm} {target target' : Ty}
    {object object' : Identity} (hv : v.Reordered v') (hw : w.Reordered w')
    (hpart : Parallels strict R
      ⟨.pointer form target (some (object, v)), .pointer form' target' (some (object', w)), ops⟩
      ⟨.pointer form target (some (object, v')), .pointer form' target' (some (object', w')),
        ops'⟩) :
    LooksAlike strict N R
      ⟨.pointer form target (some (object, v)), .pointer form' target' (some (object', w)), ops⟩
      ⟨.pointer form target (some (object, v')), .pointer form' target' (some (object', w')),
        ops'⟩ :=
  corresponds_branches (.cons (.part (by simp [Value.parts]) (hpart none none _ _ _ _
    (fun _ ↦ rfl) (by simp [Value.parts]) (by simp [Value.parts]) hv hw)) .nil)

theorem looksAlike_contents {type type' : InterfaceTy} {alternative alternative' : Option Nat}
    (hv : v.Reordered v') (hw : w.Reordered w')
    (hpart : Parallels strict R
      ⟨.interface type alternative v, .interface type' alternative' w, ops⟩
      ⟨.interface type alternative v', .interface type' alternative' w', ops'⟩) :
    LooksAlike strict N R ⟨.interface type alternative v, .interface type' alternative' w, ops⟩
      ⟨.interface type alternative v', .interface type' alternative' w', ops'⟩ :=
  corresponds_branches (.cons (.part List.mem_cons_self (hpart none none _ _ _ _
    (fun _ ↦ rfl) List.mem_cons_self List.mem_cons_self hv hw)) .nil)

/-- Records meet field by field, however their maps are enumerated. -/
theorem looksAlike_records {name name' : Text} {fields fields' others others' : List (Text × Value)}
    (hnames : fields.map Prod.fst = fields'.map Prod.fst)
    (hfields : List.Forall₂ Value.Reordered (fields.map Prod.snd) (fields'.map Prod.snd))
    (hothers : List.Forall₂ Value.Reordered (others.map Prod.snd) (others'.map Prod.snd))
    (hpart : Parallels strict R ⟨.record name fields, .record name' others, ops⟩
      ⟨.record name fields', .record name' others', ops'⟩) :
    LooksAlike strict N R ⟨.record name fields, .record name' others, ops⟩
      ⟨.record name fields', .record name' others', ops'⟩ := by
  have hlength : fields.length = fields'.length := by simpa using hfields.length_eq
  have hlength' : others.length = others'.length := by simpa using hothers.length_eq
  rw [LooksAlike, inspect, inspect, ← hlength, ← hlength']
  refine (corresponds_refl fun _ ↦ rfl).bind fun _ _ _ _ _ ↦ corresponds_branches ?_
  refine fieldBranches_matches (forall₂_pairs_of_eq hnames hfields) hothers
    fun name v hv w hw v' w' hv' hw' ↦ ?_
  exact .part hv (hpart _ _ _ _ _ _ (fun _ ↦ rfl) hv hw hv' hw')

theorem looksAlike_sequences {form form' : SequenceForm} {element element' : Ty}
    {storage storage' : Option Identity} {elements elements' others others' : List Value}
    (helements : List.Forall₂ Value.Reordered elements elements')
    (hothers : List.Forall₂ Value.Reordered others others')
    (hpart : Parallels strict R
      ⟨.sequence form element storage elements, .sequence form' element' storage' others, ops⟩
      ⟨.sequence form element storage elements', .sequence form' element' storage' others', ops'⟩) :
    LooksAlike strict N R
      ⟨.sequence form element storage elements, .sequence form' element' storage' others, ops⟩
      ⟨.sequence form element storage elements', .sequence form' element' storage' others',
        ops'⟩ := by
  rw [LooksAlike, inspect, inspect, ← helements.length_eq, ← hothers.length_eq]
  split_ifs
  · exact corresponds_pure (.lengths _ _)
  · exact corresponds_pure (.leaf true)
  · exact corresponds_branches (elementBranches_matches helements hothers
      fun i v hv w hw v' w' hv' hw' ↦
        .part hv (hpart _ _ _ _ _ _ (fun _ ↦ rfl) hv hw hv' hw'))

/-- Looks at reordered maps show the same, given that keys are visited in corresponding ways. -/
theorem looksAlike_maps [LawfulHost] [SteadyHost] {rule rule' : KeyRule}
    {key key' mapped mapped' : Ty} {storage storage' : Identity}
    {entries entries' others others' : List (Value × Value)}
    (hwant : (Value.map rule key mapped storage entries).Reordered
      (.map rule key mapped storage entries'))
    (hfound : (Value.map rule' key' mapped' storage' others).Reordered
      (.map rule' key' mapped' storage' others'))
    (hidentity : (Value.map rule key mapped storage entries).identity? =
      (Value.map rule' key' mapped' storage' others).identity?)
    (hkeyed : (Value.map rule key mapped storage entries).Keyed ∧
      (Value.map rule' key' mapped' storage' others).Keyed)
    (hkeys : Corresponds
      (Matched strict fun item item' ↦ (strict → item.1 = item'.1) ∧ item.2.Reordered item'.2)
      (ops.rendering.sortedKeys (.map rule key mapped storage entries))
      (ops'.rendering.sortedKeys (.map rule key mapped storage entries')))
    (hpart : Parallels strict R
      ⟨.map rule key mapped storage entries, .map rule' key' mapped' storage' others, ops⟩
      ⟨.map rule key mapped storage entries', .map rule' key' mapped' storage' others', ops'⟩)
    (hlacking : ∀ label label', (strict → label = label') → Corresponds N
      (Meeting.lacking
        ⟨.map rule key mapped storage entries, .map rule' key' mapped' storage' others, ops⟩ label)
      (Meeting.lacking ⟨.map rule key mapped storage entries',
        .map rule' key' mapped' storage' others', ops'⟩ label')) :
    LooksAlike strict N R
      ⟨.map rule key mapped storage entries, .map rule' key' mapped' storage' others, ops⟩
      ⟨.map rule key mapped storage entries', .map rule' key' mapped' storage' others', ops'⟩ := by
  obtain ⟨hform, rfl, rfl⟩ := Value.map_identity_inj.mp hidentity
  rw [LooksAlike, inspect, inspect, ← hwant.length_eq, ← hfound.length_eq]
  split_ifs
  · exact corresponds_pure (.lengths _ _)
  · exact corresponds_pure (.leaf true)
  refine hkeys.bind fun keys keys' hks hks' hmatched ↦ corresponds_pure (.branches
    (keyBranches_matches hform hwant hfound hkeyed.1 hkeyed.2 hks hks' hmatched
      (fun label label' hlabel v hv w hw v' w' hre hre' ↦ ?_)
      fun label label' hlabel ↦ .missing (hlacking label label' hlabel)))
  obtain ⟨entry, hentry, rfl⟩ := List.mem_map.mp hv
  obtain ⟨other, hother, rfl⟩ := List.mem_map.mp hw
  exact .part (Value.mapped_mem_parts hentry) (hpart _ _ _ _ _ _
    (fun hstrict ↦ by rw [hlabel hstrict]) (Value.mapped_mem_parts hentry)
    (Value.mapped_mem_parts hother) hre hre')

end Kinds

/-- Looks at reordered values show the same, given that keys are visited in corresponding ways. -/
theorem corresponds_inspect [LawfulHost] [SteadyHost] (hwant : m.want.Reordered m'.want)
    (hfound : m.found.Reordered m'.found) (hidentity : m.want.identity? = m.found.identity?)
    (hkeyed : m.want.Keyed ∧ m.found.Keyed)
    (hkeys : Corresponds
      (Matched strict fun item item' ↦ (strict → item.1 = item'.1) ∧ item.2.Reordered item'.2)
      (m.ops.rendering.sortedKeys m.want) (m'.ops.rendering.sortedKeys m'.want))
    (hpart : Parallels strict R m m')
    (hlacking : ∀ label label', (strict → label = label') →
      Corresponds N (m.lacking label) (m'.lacking label')) : LooksAlike strict N R m m' := by
  obtain ⟨want, found, ops⟩ := m
  obtain ⟨want', found', ops'⟩ := m'
  dsimp only at hwant hfound hidentity hkeyed hkeys
  by_cases hrank : want.rank = found.rank
  · cases hwant with
    | absent => cases hfound <;> exact looksAlike_leaf rfl rfl
    | hidden type => cases hfound <;> exact looksAlike_leaf rfl rfl
    | scalar s => cases hfound <;> first | exact looksAlike_leaf rfl rfl | cases hrank
    | nil form target =>
      cases hfound with
      | nil => exact corresponds_pure (.leaf true)
      | pointee => exact corresponds_pure (.leaf false)
      | _ => cases hrank
    | pointee form target object hv =>
      cases hfound with
      | nil => exact corresponds_pure (.leaf false)
      | pointee form' target' object' hw => exact looksAlike_pointees hv hw hpart
      | _ => cases hrank
    | record name hnames hfields =>
      cases hfound with
      | record name' hnames' hothers => exact looksAlike_records hnames hfields hothers hpart
      | _ => cases hrank
    | sequence form element storage helements =>
      cases hfound with
      | sequence form' element' storage' hothers =>
        exact looksAlike_sequences helements hothers hpart
      | _ => cases hrank
    | map rule key mapped storage hperm hordered hks hvs =>
      have hwant := Value.Reordered.map rule key mapped storage hperm hordered hks hvs
      cases hfound with
      | map rule' key' mapped' storage' hperm' hordered' hks' hvs' =>
        have hfound := Value.Reordered.map rule' key' mapped' storage' hperm' hordered' hks' hvs'
        exact looksAlike_maps hwant hfound hidentity hkeyed hkeys hpart hlacking
      | _ => cases hrank
    | interface type alternative hv =>
      cases hfound with
      | interface type' alternative' hw => exact looksAlike_contents hv hw hpart
      | _ => cases hrank
  · have hidentity' : want'.identity? = found'.identity? := by
      rw [← hwant.identity?_eq, ← hfound.identity?_eq, hidentity]
    have hrank' : want'.rank ≠ found'.rank := by rwa [← hwant.rank_eq, ← hfound.rank_eq]
    exact corresponds_of_never (fun _ h ↦ hrank (rank_eq_of_inspect hidentity h))
      fun _ h ↦ hrank' (rank_eq_of_inspect hidentity' h)

end Comparison

end Discrepancy
