import Discrepancy.Proofs.KeyOrder
import Discrepancy.Proofs.Layout
import Discrepancy.Proofs.Literals
import Discrepancy.Proofs.Pieces
import Discrepancy.Proofs.Unquoting

/-!
# Locations

A location in a value is told by the moves that lead there: to a field, to an element or to what
stands under a key.  Pointers are followed and interfaces unwrapped without a move.  A trail writes
the moves one after the other, and nothing marks where a name or a label ends but what comes next.

Trails tell locations apart all the same.  A name ends at the first separator, a number at the
first bracket, and a quoted text at its own closing mark, whatever brackets and dots it has inside.
Two moves from one value are therefore the same if their segments begin the same text, and so are
two sequences of moves, by induction on the way down.
-/

namespace Discrepancy

open Outcome

/-! ## Segments -/

theorem isStop_of_bracket (x : Text) : ∀ b ∈ (Text.byte ']' :: x).head?, Text.IsStop b :=
  fun _ hb ↦ .inl (Option.mem_some_iff.mp hb).symm

namespace Trail

open Text (byte)

variable {base : Text} {step : Step} {path path' : List Step}

/-- What a step adds to a trail that is not empty. -/
def segment : Step → Text
  | .field name => byte '.' :: name
  | .index i => byte '[' :: Text.ofNat i ++ [byte ']']
  | .key label => byte '[' :: label ++ [byte ']']

def segments (path : List Step) : Text :=
  path.flatMap segment

/-- The two bytes by which segments begin. -/
def IsSeparator (b : UInt8) : Prop :=
  b = byte '.' ∨ b = byte '['

/-- A name that is not empty and has no separator in it. -/
def IsName (name : Text) : Prop :=
  name ≠ [] ∧ byte '.' ∉ name ∧ byte '[' ∉ name

instance : DecidablePred IsName :=
  fun name ↦ inferInstanceAs (Decidable (name ≠ [] ∧ byte '.' ∉ name ∧ byte '[' ∉ name))

theorem IsName.not_isSeparator {name : Text} (h : IsName name) : ∀ b ∈ name, ¬ IsSeparator b := by
  rintro b hb (rfl | rfl)
  · exact h.2.1 hb
  · exact h.2.2 hb

theorem segment_ne_nil (step : Step) : segment step ≠ [] := by
  cases step <;> exact List.cons_ne_nil _ _

/-- Below the root, a step adds its own segment and nothing else. -/
theorem extend_of_ne_nil (h : base ≠ []) (step : Step) :
    extend base step = base ++ segment step := by
  cases step with
  | field name =>
    rw [extend, if_neg (mt List.isEmpty_iff.mp h), List.append_assoc]
    rfl
  | index i =>
    rw [extend, List.append_assoc, List.append_assoc]
    rfl
  | key label =>
    rw [extend, List.append_assoc, List.append_assoc]
    rfl

/-- Below the root, a path adds its segments one after the other. -/
theorem foldl_extend_of_ne_nil (h : base ≠ []) (path : List Step) :
    path.foldl extend base = base ++ segments path := by
  induction path generalizing base with
  | nil => exact (List.append_nil base).symm
  | cons step path ih =>
    rw [List.foldl_cons, extend_of_ne_nil h, ih (List.append_ne_nil_of_left_ne_nil h _),
      List.append_assoc]
    rfl

theorem isSeparator_of_mem_head? (path : List Step) :
    ∀ b ∈ (segments path).head?, IsSeparator b := by
  intro b hb
  cases path with
  | nil => cases hb
  | cons step path =>
    cases step with
    | field name => exact .inl (Option.mem_some_iff.mp hb).symm
    | index i => exact .inr (Option.mem_some_iff.mp hb).symm
    | key label => exact .inr (Option.mem_some_iff.mp hb).symm

/-- Texts in brackets begin the same text if what follows the opening bracket does. -/
theorem append_eq_of_bracketed {s t x y : Text}
    (h : byte '[' :: s ++ [byte ']'] ++ x = byte '[' :: t ++ [byte ']'] ++ y) :
    s ++ (byte ']' :: x) = t ++ (byte ']' :: y) := by
  simpa using h

/-- Only the empty path has no segments. -/
theorem eq_nil_of_segments_eq_nil (h : segments path = []) : path = [] := by
  cases path with
  | nil => rfl
  | cons step path => exact (segment_ne_nil step (List.append_eq_nil_iff.mp h).1).elim

/-- The segments of a trail that starts from nothing, where a leading field has no dot. -/
def restore : Text → Text
  | [] => []
  | b :: rest => if b = byte '[' then b :: rest else byte '.' :: b :: rest

theorem restore_append {t : Text} (ht : t ≠ []) (rest : Text) :
    restore (t ++ rest) = restore t ++ rest := by
  cases t with
  | nil => exact (ht rfl).elim
  | cons b t =>
    rw [List.cons_append, restore, restore]
    split_ifs <;> rfl

/-- A name that is not taken for a key or an index at the beginning of a trail. -/
def IsHead (name : Text) : Prop :=
  name ≠ [] ∧ name.head? ≠ some (byte '[')

instance : DecidablePred IsHead :=
  fun name ↦ inferInstanceAs (Decidable (name ≠ [] ∧ name.head? ≠ some (byte '[')))

theorem IsName.isHead {name : Text} (h : IsName name) : IsHead name :=
  ⟨h.1, fun hhead ↦ h.2.2 (List.mem_of_mem_head? (Option.mem_def.mpr hhead))⟩

/-- A first step has its segment back. -/
theorem restore_extend_nil (hstep : ∀ name, step = .field name → IsHead name) :
    restore (extend [] step) = segment step := by
  cases step with
  | field name =>
    obtain ⟨hname, hbracket⟩ := hstep name rfl
    cases name with
    | nil => exact (hname rfl).elim
    | cons b name => exact if_neg fun hb ↦ hbracket (congrArg some hb)
  | index i => rfl
  | key label => rfl

theorem extend_nil_ne_nil (hstep : ∀ name, step = .field name → IsHead name) :
    extend [] step ≠ [] := by
  cases step with
  | field name => exact (hstep name rfl).1
  | index i => exact List.cons_ne_nil _ _
  | key label => exact List.cons_ne_nil _ _

/-- The segments of a path can be restored from its trail. -/
theorem restore_foldl_extend (hnames : ∀ name, .field name ∈ path → IsName name) :
    restore (path.foldl extend []) = segments path := by
  cases path with
  | nil => rfl
  | cons step path =>
    have hstep (name : Text) (h : step = .field name) : IsHead name :=
      (hnames name (h ▸ List.mem_cons_self)).isHead
    have hfirst := extend_nil_ne_nil hstep
    calc
      restore ((step :: path).foldl extend []) = restore (extend [] step ++ segments path) := by
        rw [List.foldl_cons, foldl_extend_of_ne_nil hfirst]
      _ = segment step ++ segments path := by
        rw [restore_append hfirst, restore_extend_nil hstep]

/-- Trails with one beginning are the same if what they add is. -/
theorem segments_eq_of_foldl_extend_eq (hnames : ∀ name, .field name ∈ path → IsName name)
    (hnames' : ∀ name, .field name ∈ path' → IsName name)
    (h : path.foldl extend base = path'.foldl extend base) : segments path = segments path' := by
  by_cases hbase : base = []
  · subst hbase
    rw [← restore_foldl_extend hnames, ← restore_foldl_extend hnames', h]
  · rw [foldl_extend_of_ne_nil hbase, foldl_extend_of_ne_nil hbase] at h
    exact List.append_cancel_left h

end Trail

/-! ## Moves -/

/-- A way from a value to one that it holds. -/
inductive Move where
  | field (name : Text)
  | index (i : Nat)
  | key (k : Value)

namespace Value

/-- A value holds another one at the end of a move, or of none. -/
inductive Holds : Value → Option Move → Value → Prop
  | pointee {form : PointerForm} {target : Ty} {object : Identity} {v : Value} :
      Holds (pointer form target (some (object, v))) none v
  | content {type : InterfaceTy} {alternative : Option Nat} {v : Value} :
      Holds (interface type alternative v) none v
  | field {name field : Text} {fields : List (Text × Value)} {v : Value}
      (hmem : (field, v) ∈ fields) : Holds (record name fields) (some (.field field)) v
  | element {form : SequenceForm} {element : Ty} {storage : Option Identity} {elements : List Value}
      {v : Value} (i : Nat) (hget : elements[i]? = some v) :
      Holds (sequence form element storage elements) (some (.index i)) v
  | mapped {rule : KeyRule} {key mapped : Ty} {storage : Identity} {entries : List (Value × Value)}
      {k v : Value} (hmem : (k, v) ∈ entries) :
      Holds (map rule key mapped storage entries) (some (.key k)) v

/-- A value can be reached from another one by some moves. -/
inductive Reaches : Value → List Move → Value → Prop
  | here {v : Value} : Reaches v [] v
  | into {v w u : Value} {move : Option Move} {moves : List Move} (hholds : Holds v move w)
      (h : Reaches w moves u) : Reaches v (move.toList ++ moves) u

/-! ### Conditions -/

/-- A truth value, an integer or a well-formed string that is not borrowed. -/
inductive IsPlainKey : Value → Prop
  | bool (b : Bool) : IsPlainKey (scalar (.bool b))
  | integer (type : IntegerTy) (n : Int) : IsPlainKey (scalar (.integer type n))
  | string {type : StringTy} {t : Text} (hown : ¬ type.isBorrowed) (ht : t.isWellFormed) :
      IsPlainKey (scalar (.string type (some t)))

instance : DecidablePred IsPlainKey
  | scalar (.bool b) => isTrue (.bool b)
  | scalar (.integer type n) => isTrue (.integer type n)
  | scalar (.string type (some t) 0) =>
    decidable_of_iff (¬ type.isBorrowed ∧ t.isWellFormed)
      ⟨fun h ↦ .string h.1 h.2, fun | .string hown ht => ⟨hown, ht⟩⟩
  | scalar (.string _ (some _) (_ + 1)) | scalar (.string _ none _)
  | scalar (.float ..) | scalar (.complex ..) | scalar (.func ..)
  | scalar (.chan ..) | scalar (.span ..) | scalar (.instant ..) | scalar (.sealed ..) | absent
  | hidden _ | pointer .. | record .. | sequence .. | map .. | interface .. => isFalse nofun

/-- The fields of a record have names, no two of them the same. -/
def Named : Value → Prop
  | record _ fields => (fields.map Prod.fst).Nodup ∧ ∀ field ∈ fields, Trail.IsName field.1
  | _ => True

instance : DecidablePred Named
  | record _ fields => inferInstanceAs (Decidable
      ((fields.map Prod.fst).Nodup ∧ ∀ field ∈ fields, Trail.IsName field.1))
  | absent | hidden _ | scalar _ | pointer .. | sequence .. | map .. | interface .. =>
    isTrue trivial

def PlainKeys : Value → Prop
  | map _ _ _ _ entries => ∀ entry ∈ entries, entry.1.IsPlainKey
  | _ => True

instance : DecidablePred PlainKeys
  | map _ _ _ _ entries => inferInstanceAs (Decidable (∀ entry ∈ entries, entry.1.IsPlainKey))
  | absent | hidden _ | scalar _ | pointer .. | record .. | sequence .. | interface .. =>
    isTrue trivial

section

variable [Host]

/-- What a value holds can be told by trails. -/
structure Addressable (v : Value) : Prop where
  keyed : v.Keyed
  named : v.Named
  plain : v.PlainKeys

instance : DecidablePred Addressable := fun v ↦
  decidable_of_iff (v.Keyed ∧ v.Named ∧ v.PlainKeys)
    ⟨fun ⟨hkeyed, hnamed, hplain⟩ ↦ ⟨hkeyed, hnamed, hplain⟩,
      fun h ↦ ⟨h.keyed, h.named, h.plain⟩⟩

/-- The label of a plain key. -/
def plainLabel : Value → Text
  | scalar (.bool b) => if b then "true" else "false"
  | scalar (.integer _ n) => Text.ofInt n
  | scalar (.string _ (some t) _) => t.quoted
  | _ => []

/-- Plain keys equal themselves under every comparator. -/
theorem IsPlainKey.same_self [LawfulHost] {k : Value} (h : k.IsPlainKey) (rule : KeyRule) :
    rule.same k k := by
  apply rule.same_self_of_literal
  cases h <;> trivial

/-- Plain keys of one type are told apart by their labels, wherever these end. -/
theorem IsPlainKey.eq_of_label {k k' : Value} {x y : Text} (hk : k.IsPlainKey)
    (hk' : k'.IsPlainKey) (htype : k.ty? = k'.ty?) (hx : ∀ b ∈ x.head?, Text.IsStop b)
    (hy : ∀ b ∈ y.head?, Text.IsStop b) (h : k.plainLabel ++ x = k'.plainLabel ++ y) :
    k = k' ∧ x = y := by
  cases hk with
  | bool b =>
    cases hk' with
    | bool b' =>
      have hbool (b : Bool) : ∀ c ∈ plainLabel (scalar (.bool b)), ¬ Text.IsStop c := by
        have hall : (if b then "true" else "false" : Text).all fun c ↦ ¬ Text.IsStop c := by
          cases b <;> decide
        simpa [plainLabel] using hall
      obtain ⟨hlabel, rfl⟩ := append_inj_of_stop (hbool b) (hbool b') hx hy h
      refine ⟨?_, rfl⟩
      cases b <;> cases b' <;> first | rfl | cases hlabel
    | _ => cases htype
  | integer type n =>
    cases hk' with
    | integer type' n' =>
      obtain ⟨hlabel, rfl⟩ := append_inj_of_stop (fun _ ↦ Text.not_isStop_of_mem_ofInt)
        (fun _ ↦ Text.not_isStop_of_mem_ofInt) hx hy h
      cases htype
      rw [Text.ofInt_injective hlabel]
      exact ⟨rfl, rfl⟩
    | _ => cases htype
  | string hown ht =>
    cases hk' with
    | string hown' ht' =>
      obtain ⟨rfl, hrest⟩ := Text.quoted_append_inj ht ht' h
      cases htype
      exact ⟨rfl, hrest⟩
    | _ => cases htype

end

end Value

/-- The step which stands for a move, where a key is plain. -/
def Move.step [Host] : Move → Step
  | field name => .field name
  | index i => .index i
  | key k => .key k.plainLabel

/-- A move that can be told by a trail. -/
def Move.IsClear : Move → Prop
  | field name => Trail.IsName name
  | index _ => True
  | key k => k.IsPlainKey

namespace Value

variable [Host] {v w w' u u' : Value} {move : Option Move} {m m' : Move} {p q : List Move}

omit [Host] in
theorem Holds.mem_parts (h : v.Holds move w) : w ∈ v.parts := by
  cases h with
  | pointee => simp [parts]
  | content => simp [parts]
  | field hmem => exact List.mem_map_of_mem hmem
  | element i hget => exact List.mem_of_getElem? hget
  | mapped hmem => exact mapped_mem_parts hmem

theorem Holds.isClear (hv : v.Addressable) (h : v.Holds (some m) w) : m.IsClear := by
  cases h with
  | field hmem => exact hv.named.2 _ hmem
  | element i hget => trivial
  | mapped hmem => exact hv.plain _ hmem

omit [Host] in
/-- What a value holds without a move is all that it holds. -/
theorem Holds.eq_of_none (h : v.Holds none w) (h' : v.Holds move w') : move = none ∧ w' = w := by
  cases h <;> cases h' <;> exact ⟨rfl, rfl⟩

variable [LawfulHost]

/-- Moves from one value are the same, and so is what they lead to, if their segments begin the same
text. -/
theorem Holds.eq_of_segment {x y : List Step} (hv : v.Addressable) (h : v.Holds (some m) w)
    (h' : v.Holds (some m') w')
    (heq : Trail.segment m.step ++ Trail.segments x = Trail.segment m'.step ++ Trail.segments y) :
    m = m' ∧ w = w' ∧ Trail.segments x = Trail.segments y := by
  cases h with
  | @field record name fields v hmem =>
    cases h' with
    | @field _ name' _ _ hmem' =>
      obtain ⟨hnodup, hnames⟩ := hv.named
      obtain ⟨rfl, hrest⟩ := append_inj_of_stop (hnames _ hmem).not_isSeparator
        (hnames _ hmem').not_isSeparator (Trail.isSeparator_of_mem_head? x)
        (Trail.isSeparator_of_mem_head? y) (List.cons.inj heq).2
      have hfield := List.inj_on_of_nodup_map hnodup hmem hmem' rfl
      exact ⟨rfl, (Prod.mk.inj hfield).2, hrest⟩
  | element i hget =>
    cases h' with
    | element i' hget' =>
      have hdigits (i : Nat) : ∀ b ∈ Text.ofNat i, ¬ Text.IsStop b :=
        fun b hb ↦ (Text.isDigit_of_mem_ofNat hb).not_isStop
      obtain ⟨hlabel, hrest⟩ := append_inj_of_stop (hdigits i) (hdigits i') (isStop_of_bracket _)
        (isStop_of_bracket _) (Trail.append_eq_of_bracketed heq)
      obtain rfl := Text.ofNat_injective hlabel
      exact ⟨rfl, Option.some.inj (hget.symm.trans hget'), (List.cons.inj hrest).2⟩
  | @mapped rule key mapped storage entries k w hmem =>
    cases h' with
    | @mapped _ _ _ _ _ k' _ hmem' =>
      have hk : k.IsPlainKey := hv.plain _ hmem
      have htype : k.ty? = k'.ty? := (hv.keyed.1 _ hmem).2.trans (hv.keyed.1 _ hmem').2.symm
      obtain ⟨rfl, hrest⟩ := hk.eq_of_label (hv.plain _ hmem') htype (isStop_of_bracket _)
        (isStop_of_bracket _) (Trail.append_eq_of_bracketed heq)
      have hfind {w : Value} (hmem : (k, w) ∈ entries) : Table.find? rule k entries = some w :=
        Table.find?_of_mem hv.keyed.2 hmem (.inr (hk.same_self rule))
      exact ⟨rfl, Option.some.inj ((hfind hmem).symm.trans (hfind hmem')), (List.cons.inj hrest).2⟩

/-- The moves to a place are told by their segments. -/
theorem Reaches.moves_eq (hv : v.Everywhere Addressable) (h : v.Reaches p u) (h' : v.Reaches q u')
    (heq : Trail.segments (p.map Move.step) = Trail.segments (q.map Move.step)) : p = q := by
  induction h generalizing q u' with
  | here => exact (List.map_eq_nil_iff.mp (Trail.eq_nil_of_segments_eq_nil heq.symm)).symm
  | @into v w u move moves hholds h ih =>
    cases h' with
    | here => exact List.map_eq_nil_iff.mp (Trail.eq_nil_of_segments_eq_nil heq)
    | @into _ w' _ move' moves' hholds' h' =>
      have hw := hv.part hholds.mem_parts
      cases move with
      | none =>
        obtain ⟨rfl, rfl⟩ := hholds.eq_of_none hholds'
        exact ih hw h' heq
      | some m =>
        cases move' with
        | none => cases (hholds'.eq_of_none hholds).1
        | some m' =>
          obtain ⟨rfl, rfl, hrest⟩ := hholds.eq_of_segment hv.self hholds' heq
          exact congrArg (m :: ·) (ih hw h' hrest)

omit [LawfulHost] in
/-- Whatever can be reached is reached by moves that trails can tell. -/
theorem Reaches.isClear (hv : v.Everywhere Addressable) (h : v.Reaches p u) :
    ∀ m ∈ p, m.IsClear := by
  induction h with
  | here => exact List.forall_mem_nil _
  | @into v w u move moves hholds h ih =>
    have hmoves := ih (hv.part hholds.mem_parts)
    cases move with
    | none => exact hmoves
    | some m => exact List.forall_mem_cons.mpr ⟨hholds.isClear hv.self, hmoves⟩

end Value

/-! ## Trails -/

namespace Rendering

variable [Host] {r : Rendering} {moves : List Move}

/-- The step which a rendering makes of a move: keys are labelled. -/
def stepOf (r : Rendering) : Move → Outcome Step
  | .field name => pure (.field name)
  | .index i => pure (.index i)
  | .key k => Step.key <$> r.keyLabel k

/-- The trail of a location, from the trail of the whole. -/
def trailAlong (r : Rendering) (base : Text) : List Move → Outcome Text
  | [] => pure base
  | move :: moves => do r.trailAlong (Trail.extend base (← r.stepOf move)) moves

/-- A plain key has a label whenever no renderer is registered. -/
theorem keyLabel_of_isPlainKey (hplain : r.renderers = []) {k : Value} (hk : k.IsPlainKey) :
    (r.keyLabel k).Yields k.plainLabel := by
  have hlabel (s : Scalar) : r.keyLabel (.scalar s) =
      (do pure (r.forKeys.style.leaf 0 (← s.text r.forKeys.style))) :=
    custom_of_plain (forKeys_plain hplain) true 0 (.scalar s) _
  have hleaf (t : Text) : r.forKeys.style.leaf 0 t = t := Style.leaf_of_flat rfl 0 t
  have htext {s : Scalar} {t : Text} (h : (s.text r.forKeys.style).Yields t) :
      (r.keyLabel (.scalar s)).Yields t := by
    rw [hlabel]
    exact h.bind (yields_pure.mpr (hleaf t))
  cases hk with
  | bool b => exact htext (yields_pure.mpr rfl)
  | integer type n => exact htext (yields_pure.mpr rfl)
  | string hown ht => exact htext (yields_pure.mpr rfl)

/-- Without registered renderers a location with clear moves has a trail. -/
theorem trailAlong_yields (hplain : r.renderers = []) (hclear : ∀ m ∈ moves, m.IsClear)
    (base : Text) :
    (r.trailAlong base moves).Yields ((moves.map Move.step).foldl Trail.extend base) := by
  induction moves generalizing base with
  | nil => exact yields_pure.mpr rfl
  | cons m moves ih =>
    obtain ⟨hm, hmoves⟩ := List.forall_mem_cons.mp hclear
    have hstep : (r.stepOf m).Yields m.step := by
      cases m with
      | field name => exact yields_pure.mpr rfl
      | index i => exact yields_pure.mpr rfl
      | key k => exact yields_map.mpr ⟨_, keyLabel_of_isPlainKey hplain hm, rfl⟩
    exact hstep.bind (ih hmoves _)

end Rendering

namespace Value

variable [Host] {r : Rendering} {v u u' : Value} {base t : Text} {p q : List Move}

theorem Reaches.isName (hv : v.Everywhere Addressable) (h : v.Reaches p u) (name : Text)
    (hname : .field name ∈ p.map Move.step) : Trail.IsName name := by
  obtain ⟨m, hm, hstep⟩ := List.mem_map.mp hname
  have hclear := h.isClear hv m hm
  cases m with
  | field name' => exact Step.field.inj hstep ▸ hclear
  | _ => cases hstep

/-- The moves to a place are told by its trail. -/
theorem Reaches.moves_eq_of_trail [LawfulHost] (hplain : r.renderers = [])
    (hv : v.Everywhere Addressable) (h : v.Reaches p u) (h' : v.Reaches q u')
    (ht : (r.trailAlong base p).Yields t)
    (ht' : (r.trailAlong base q).Yields t) : p = q := by
  have hp := Rendering.trailAlong_yields hplain (h.isClear hv) base
  have hq := Rendering.trailAlong_yields hplain (h'.isClear hv) base
  have htrails := (hp.unique ht).trans (ht'.unique hq)
  exact h.moves_eq hv h'
    (Trail.segments_eq_of_foldl_extend_eq (h.isName hv) (h'.isName hv) htrails)

end Value

namespace Comparison

variable [Host] {r : Rendering} {want found v w : Value} {ops : Options} {step : Option Step}
  {path : List Step}

/-- What two values have in common is held by the first one, at the end of a move that is labelled
as the step is. -/
theorem Part.exists_holds (h : Part r want found step v w) :
    ∃ move, want.Holds move v ∧ Option.Rel (fun m s ↦ (r.stepOf m).Yields s) move step := by
  cases h with
  | pointee => exact ⟨none, .pointee, .none⟩
  | content => exact ⟨none, .content, .none⟩
  | field i hwant hfound =>
    exact ⟨_, .field (List.mem_of_getElem? hwant), .some (yields_pure.mpr rfl)⟩
  | element i hwant hfound => exact ⟨_, .element i hwant, .some (yields_pure.mpr rfl)⟩
  | mapped hwant hfound hlabel =>
    exact ⟨_, .mapped hwant, .some (yields_map.mpr ⟨_, hlabel, rfl⟩)⟩

/-- What a comparison gets to is at a location whose trail it carries. -/
theorem Located.exists_reaches {u u' : Value} (h : Located r want found path u u') :
    ∃ moves, want.Reaches moves u ∧
      ∀ base, (r.trailAlong base moves).Yields (path.foldl Trail.extend base) := by
  induction h with
  | here => exact ⟨[], .here, fun _ ↦ yields_pure.mpr rfl⟩
  | into hpart _ ih =>
    obtain ⟨moves, hreaches, htrail⟩ := ih
    obtain ⟨move, hholds, hstep⟩ := hpart.exists_holds
    refine ⟨move.toList ++ moves, .into hholds hreaches, fun base ↦ ?_⟩
    cases hstep with
    | none => exact htrail base
    | some hstep => exact hstep.bind (htrail _)

/-- Locations have trails of their own, and so a comparison gets to one location under one trail. -/
theorem exists_trails_ne_of_reaches [LawfulHost] (hplain : ops.rendering.renderers = [])
    (hwant : want.Everywhere Value.Addressable) :
    (∀ p q u u', want.Reaches p u → want.Reaches q u' → ∃ t t',
      (ops.rendering.trailAlong ops.trail p).Yields t ∧
        (ops.rendering.trailAlong ops.trail q).Yields t' ∧ (p ≠ q → t ≠ t')) ∧
      ∀ trail, ∃ moves, ∀ found path u u', Located ops.rendering want found path u u' →
        (ops.descend path).trail = trail → want.Reaches moves u := by
  refine ⟨fun p q u u' hp hq ↦ ?_, fun trail ↦ ?_⟩
  · have ht := Rendering.trailAlong_yields hplain (hp.isClear hwant) ops.trail
    have ht' := Rendering.trailAlong_yields hplain (hq.isClear hwant) ops.trail
    refine ⟨_, _, ht, ht', mt fun heq ↦ ?_⟩
    exact hp.moves_eq_of_trail hplain hwant hq ht (heq ▸ ht')
  by_cases hsome : ∃ found path u u', Located ops.rendering want found path u u' ∧
      (ops.descend path).trail = trail
  · obtain ⟨found, path, u, u', hlocated, rfl⟩ := hsome
    obtain ⟨moves, hmoves, htrail⟩ := hlocated.exists_reaches
    refine ⟨moves, fun found' path' w w' hlocated' htrails ↦ ?_⟩
    obtain ⟨moves', hmoves', htrail'⟩ := hlocated'.exists_reaches
    rw [Options.descend_trail, Options.descend_trail] at htrails
    rwa [hmoves.moves_eq_of_trail hplain hwant hmoves' (htrail ops.trail) (htrails ▸ htrail' _)]
  · -- where nothing has the trail, any location will do
    refine ⟨[], fun found path u u' hlocated htrail ↦ ?_⟩
    exact (hsome ⟨found, path, u, u', hlocated, htrail⟩).elim

end Comparison

/-! ## Samples -/

namespace Comparison

open scoped Sample

def word (t : Text) : Value :=
  .scalar (.string .owned (some t))

/-- A box with two words, of which one reads like the way to something below the other one. -/
def wordBox : Value :=
  .record "Box" [("Words", .map .sorted Sample.string (Sample.mapTo Sample.int) 0
    [(word "a", .map .sorted Sample.string Sample.int 1 [(word "b", .scalar (.integer .int 1))]),
      (word "a\"][\"b", .map .sorted Sample.string Sample.int 2 [])])]

/-- Two keys in a row and one key that reads like them have different trails. -/
theorem exists_trails_ne_of_reaches_wordBox :
    ∃ t t', (Rendering.trailAlong {} "Boxes[0]" [.field "Words", .key (word "a"),
        .key (word "b")]).Yields t ∧
      (Rendering.trailAlong {} "Boxes[0]" [.field "Words", .key (word "a\"][\"b")]).Yields t' ∧
      t ≠ t' := by
  have hwant : wordBox.Everywhere Value.Addressable := by decide
  have hinner : wordBox.Reaches [.field "Words", .key (word "a"), .key (word "b")] _ :=
    .into (.field (List.mem_singleton_self _)) (.into (.mapped List.mem_cons_self)
      (.into (.mapped (List.mem_singleton_self _)) .here))
  have houter : wordBox.Reaches [.field "Words", .key (word "a\"][\"b")] _ :=
    .into (.field (List.mem_singleton_self _))
      (.into (.mapped (List.mem_cons_of_mem _ (List.mem_singleton_self _))) .here)
  have hplain : ({ trail := "Boxes[0]" } : Options).rendering.renderers = [] := rfl
  obtain ⟨t, t', ht, ht', hne⟩ :=
    (exists_trails_ne_of_reaches hplain hwant).1 _ _ _ _ hinner houter
  exact ⟨t, t', ht, ht', hne fun h ↦ absurd (congrArg List.length h) (by decide)⟩

end Comparison

end Discrepancy
