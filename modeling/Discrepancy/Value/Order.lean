import Discrepancy.Value

/-!
# The natural order of keys

The order which types bring along, for maps that are declared without a comparator.  Numbers are
ordered by size, texts bytewise, sequences, records and maps in order from left to right, an
optional value after nil, and an alternative of a variant after the alternatives with lower
numbers.  Pointers, and with them borrowed strings, are ordered by where they point to.  The keys of
one map are of one type; so that the order need not know, values of different make are ordered by
their rank.  The order is partial, for not-a-number has no place in it.
-/

namespace Discrepancy

def orderBool (a b : Bool) : Ordering :=
  compare a.toNat b.toNat

def Text.order (s t : Text) : Ordering :=
  if s == t then .eq else if Text.le s t then .lt else .gt

/-- The order of the contents of two strings, with nil first. -/
def orderContents : Option Text → Option Text → Ordering
  | none, none => .eq
  | none, some _ => .lt
  | some _, none => .gt
  | some s, some t => Text.order s t

/-- The order of two identities, with nothing first. -/
def orderIdentity : Option Identity → Option Identity → Ordering
  | none, none => .eq
  | none, some _ => .lt
  | some _, none => .gt
  | some a, some b => compare a b

/-- The second order where the first one does not tell. -/
def lexicographic (first : Option Ordering) (second : Option Ordering) : Option Ordering :=
  match first with
  | some .eq => second
  | decided => decided

/-- The place of a scalar among those of other makes. -/
def Scalar.rank : Scalar → Nat
  | bool _ => 0
  | integer .. => 1
  | float .. => 2
  | complex .. => 3
  | string .. => 4
  | func .. => 5
  | chan .. => 6
  | span .. => 7
  | instant .. => 8
  | sealed .. => 9

/-- What two strings are ordered by: borrowed ones by their places, and others by their contents. -/
def orderStrings (borrowed : Bool) (s t : Option Text) (place place' : Identity) : Ordering :=
  if borrowed then orderIdentity (s.map fun _ ↦ place) (t.map fun _ ↦ place')
  else orderContents s t

/-- The order of two scalars.  Sealed ones are in no order. -/
def Scalar.order : Scalar → Scalar → Option Ordering
  | bool a, bool b => some (orderBool a b)
  | integer _ a, integer _ b => some (compare a b)
  | float _ x, float _ y => x.order y
  | complex _ re im, complex _ re' im' => lexicographic (re.order re') (im.order im')
  | string type s place, string type' t place' =>
    lexicographic (some (orderBool type.isBorrowed type'.isBorrowed))
      (some (orderStrings type.isBorrowed s t place place'))
  | func _ _ _ f, func _ _ _ g => some (orderIdentity f g)
  | chan _ p, chan _ q => some (orderIdentity p q)
  | span _ _ m, span _ _ n => m.order n
  | instant _ _ m, instant _ _ n => m.order n
  | sealed .., sealed .. => none
  | s, t => some (compare s.rank t.rank)

namespace Value

/-- The place of a value among those of other makes. -/
def rank : Value → Nat
  | absent => 0
  | scalar _ => 1
  | pointer .. => 2
  | record .. => 3
  | sequence .. => 4
  | map .. => 5
  | interface .. => 6
  | hidden _ => 7

/-- The order of two values of different makes, or of two that have nothing to be ordered by. -/
def orderRanks (v w : Value) : Option Ordering :=
  some (compare v.rank w.rank)

/-- The order of two forms of pointers: what holds its object comes after what refers to it. -/
def orderForms (form other : PointerForm) : Option Ordering :=
  some (orderBool (form == .optional) (other == .optional))

mutual

/-- The order of two keys.  Hidden values and maps without an order are in no order. -/
def order : Value → Value → Option Ordering
  | scalar s, w => match w with
    | scalar t => s.order t
    | w => orderRanks (scalar s) w
  | pointer form target none, w => match w with
    | pointer form' _ none => orderForms form form'
    | pointer form' _ (some _) => lexicographic (orderForms form form') (some .lt)
    | w => orderRanks (pointer form target none) w
  | pointer form target (some (a, v)), w => match w with
    | pointer form' _ none => lexicographic (orderForms form form') (some .gt)
    | pointer form' _ (some (b, w)) =>
      lexicographic (orderForms form form')
        (if form == .optional then order v w else some (compare a b))
    | w => orderRanks (pointer form target (some (a, v))) w
  | record name fields, w => match w with
    | record _ others => orderFields fields others
    | w => orderRanks (record name fields) w
  | sequence form element storage elements, w => match w with
    | sequence _ _ _ others => orderElements elements others
    | w => orderRanks (sequence form element storage elements) w
  | map rule key mapped storage entries, w => match w with
    | map rule' _ _ _ others =>
      lexicographic (some (orderBool rule.form.ordered rule'.form.ordered))
        (if rule.form.ordered then orderEntries entries others else none)
    | w => orderRanks (map rule key mapped storage entries) w
  | interface type i v, w => match w with
    | interface _ j w =>
      lexicographic (some (orderIdentity i j)) (if i.isNone then some .eq else order v w)
    | w => orderRanks (interface type i v) w
  | hidden type, w => match w with
    | hidden _ => none
    | w => orderRanks (hidden type) w
  | v, w => orderRanks v w
termination_by structural v => v

def orderFields : List (Text × Value) → List (Text × Value) → Option Ordering
  | [], [] => some .eq
  | [], _ :: _ => some .lt
  | _ :: _, [] => some .gt
  | (_, v) :: rest, (_, w) :: others => lexicographic (order v w) (orderFields rest others)
termination_by structural fields => fields

def orderElements : List Value → List Value → Option Ordering
  | [], [] => some .eq
  | [], _ :: _ => some .lt
  | _ :: _, [] => some .gt
  | v :: rest, w :: others => lexicographic (order v w) (orderElements rest others)
termination_by structural elements => elements

/-- The order of two lists of entries, each by its key first. -/
def orderEntries : List (Value × Value) → List (Value × Value) → Option Ordering
  | [], [] => some .eq
  | [], _ :: _ => some .lt
  | _ :: _, [] => some .gt
  | (k, v) :: rest, (l, w) :: others =>
    lexicographic (order k l) (lexicographic (order v w) (orderEntries rest others))
termination_by structural entries => entries

end

end Value

end Discrepancy
