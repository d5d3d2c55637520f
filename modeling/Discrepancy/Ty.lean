import Discrepancy.Kind
import Discrepancy.Number.Binary

/-!
# Types

The static types of compared values.  A type is an atom, a pointer, a sequence, a qualified type, a
map, a variant, or a function.  Two notions of sameness live on types: a value can be taken out as
the very type it was put in as, while a comparison looks at the `identity` of types, under which all
forms of a borrowed character string are one type.
-/

namespace Discrepancy

inductive IntegerTy where
  | char | signedChar | unsignedChar | wideChar | char16 | char32
  | short | unsignedShort | int | unsignedInt | long | unsignedLong | longLong | unsignedLongLong
  deriving DecidableEq

namespace IntegerTy

def isSigned : IntegerTy → Bool
  | char | signedChar | wideChar | short | int | long | longLong => true
  | _ => false

def bits : IntegerTy → Nat
  | char | signedChar | unsignedChar => 8
  | short | unsignedShort | char16 => 16
  | wideChar | char32 | int | unsignedInt => 32
  | long | unsignedLong | longLong | unsignedLongLong => 64

/-- The number of a type that is congruent to an integer. -/
def wrap (t : IntegerTy) (n : Int) : Int :=
  if t.isSigned then n.bmod (Nat.pow 2 t.bits) else n.emod (Int.pow 2 t.bits)

end IntegerTy

inductive FloatTy where
  | single | double | extended
  deriving DecidableEq

def FloatTy.format : FloatTy → Binary.Format
  | single => .single
  | double => .double
  | extended => .extended

/-- The number as which a part of a complex number is looked at: one in double precision, to which
the parts of extended precision are rounded. -/
def FloatTy.narrow (t : FloatTy) (x : Binary) : Binary :=
  match t with
  | extended => x.round .double
  | _ => x

/-- The string types: owned, viewed, and borrowed by pointer or in a buffer of fixed size. -/
inductive StringTy where
  | owned
  | view
  | pointer
  | mutablePointer
  | buffer (size : Nat)
  deriving DecidableEq

namespace StringTy

/-- A borrowed string ends at the first zero byte. -/
def isBorrowed : StringTy → Bool
  | owned | view => false
  | _ => true

/-- The representative of the strings that are one type in comparisons. -/
def identity (t : StringTy) : StringTy :=
  if t.isBorrowed then pointer else t

end StringTy

/-- The period `num / den` seconds.  Periods with other terms are other periods, even where they are
as long. -/
structure Period where
  num : Nat
  den : Nat
  deriving DecidableEq

def Period.reduced (p : Period) : Period :=
  ⟨p.num / p.num.gcd p.den, p.den / p.num.gcd p.den⟩

/-- The types that are not made of other types, save that spans and instants count periods in some
of them.  A named type has the kind it was declared with. -/
inductive AtomTy where
  | void
  | unit
  | bool
  | integer (t : IntegerTy)
  | float (t : FloatTy)
  | complex (t : FloatTy)
  | string (t : StringTy)
  | span (count : AtomTy) (period : Period)
  | instant (count : AtomTy) (period : Period)
  | named (name : Text) (kind : Kind)
  deriving DecidableEq

/-- The types whose values refer to at most one object. -/
inductive PointerForm where
  /-- Refers to an object that lives elsewhere. -/
  | raw
  /-- Refers to an object which it shares. -/
  | shared
  /-- Refers to an object which it owns alone. -/
  | unique
  /-- Holds its object itself. -/
  | optional
  deriving DecidableEq

/-- The types whose values are elements one after the other. -/
inductive SequenceForm where
  /-- Any number of elements, kept elsewhere. -/
  | vector
  /-- A fixed number of elements, as a value of its own. -/
  | array (size : Nat)
  /-- A fixed number of elements in place. -/
  | inPlace (size : Nat)
  deriving DecidableEq

/-- The types which find values under keys.  Some keep their keys in order, others go by equality
alone, and either kind may be declared with a comparator of the program in place of its own. -/
structure MapForm where
  ordered : Bool
  comparator : Option Text := none
  deriving DecidableEq

namespace MapForm

def sorted : MapForm := { ordered := true }

def hashed : MapForm := { ordered := false }

end MapForm

/-- What can be said about a type in addition. -/
inductive Qualifier where
  | constant
  | volatile
  | reference
  /-- A reference to an object about to go. -/
  | transient
  deriving DecidableEq

/-- The two forms of a function value: a plain function, or an object that wraps one. -/
inductive FunctionForm where
  | plain
  | wrapped
  deriving DecidableEq

inductive Ty where
  | atom (a : AtomTy)
  | pointer (form : PointerForm) (target : Ty)
  | sequence (form : SequenceForm) (element : Ty)
  | qualified (q : Qualifier) (t : Ty)
  | map (form : MapForm) (key mapped : Ty)
  | variant (alternatives : List Ty)
  | function (form : FunctionForm) (result : Ty) (parameters : List Ty)

namespace Ty

/-- What holds for types whenever it holds for the types which they are made of holds for all. -/
@[elab_as_elim]
theorem induction_arguments {motive : Ty → Prop} (atom : ∀ a, motive (.atom a))
    (pointer : ∀ form t, motive t → motive (.pointer form t))
    (sequence : ∀ form t, motive t → motive (.sequence form t))
    (qualified : ∀ q t, motive t → motive (.qualified q t))
    (map : ∀ form k v, motive k → motive v → motive (.map form k v))
    (variant : ∀ ts, (∀ t ∈ ts, motive t) → motive (.variant ts))
    (function : ∀ form result parameters, motive result → (∀ t ∈ parameters, motive t) →
      motive (.function form result parameters)) (t : Ty) : motive t :=
  @Ty.rec motive (fun ts ↦ ∀ t ∈ ts, motive t) atom pointer sequence qualified map variant
    function (List.forall_mem_nil _) (fun _ _ ht hts ↦ List.forall_mem_cons.mpr ⟨ht, hts⟩) t

/-! ## Decidable equality -/

mutual

def beq : Ty → Ty → Bool
  | atom a, atom b => a == b
  | pointer f t, pointer g u => f == g && beq t u
  | sequence f t, sequence g u => f == g && beq t u
  | qualified f t, qualified g u => f == g && beq t u
  | map o k v, map p l w => o == p && (beq k l && beq v w)
  | variant ts, variant us => beqAll ts us
  | function f r ts, function g s us => f == g && (beq r s && beqAll ts us)
  | _, _ => false
termination_by structural t => t

def beqAll : List Ty → List Ty → Bool
  | [], [] => true
  | t :: ts, u :: us => beq t u && beqAll ts us
  | _, _ => false
termination_by structural ts => ts

end

theorem beqAll_iff {ts : List Ty} (h : ∀ t ∈ ts, ∀ u, beq t u = true ↔ t = u) (us : List Ty) :
    beqAll ts us = true ↔ ts = us := by
  induction ts generalizing us with
  | nil => cases us <;> simp [beqAll]
  | cons t rest ih =>
    rw [List.forall_mem_cons] at h
    cases us with
    | nil => simp [beqAll]
    | cons u us => simp [beqAll, h.1 u, ih h.2 us]

theorem beq_iff (t u : Ty) : beq t u = true ↔ t = u := by
  induction t using induction_arguments generalizing u with
  | atom a => cases u <;> simp [beq]
  | pointer form t ih => cases u <;> simp [beq, ih]
  | sequence form t ih => cases u <;> simp [beq, ih]
  | qualified q t ih => cases u <;> simp [beq, ih]
  | map form k v ihk ihv => cases u <;> simp [beq, ihk, ihv]
  | variant ts ih => cases u <;> simp [beq, beqAll_iff ih]
  | function form result parameters ih ihs => cases u <;> simp [beq, ih, beqAll_iff ihs]

instance : DecidableEq Ty := fun t u ↦
  decidable_of_iff (beq t u = true) (beq_iff t u)

/-! ## Kinds and identity -/

def kind : Ty → Kind
  | atom .void => .invalid
  | atom .unit => .invalid
  | atom .bool => .bool
  | atom (.integer t) => if t.isSigned then .int else .uint
  | atom (.float _) => .float
  | atom (.complex _) => .complex
  | atom (.string _) => .string
  | atom (.span ..) => .other
  | atom (.instant ..) => .other
  | atom (.named _ kind) => kind
  | pointer .. => .pointer
  | sequence .vector _ => .slice
  | sequence .. => .array
  | qualified _ t => t.kind
  | map .. => .map
  | variant _ => .interface
  | function .. => .func

/-- The identity of a type in comparisons and in tables: the type itself, save that all borrowed
strings are identified.  Types that contain borrowed strings are not identified. -/
def identity : Ty → Ty
  | atom (.string t) => atom (.string t.identity)
  | t => t

def unqualified : Ty → Ty
  | qualified .constant t => t
  | t => t

/-- A pointer to a type, which is a borrowed string where the type is a character. -/
def pointerTo : Ty → Ty
  | atom (.integer .char) => atom (.string .mutablePointer)
  | qualified .constant (atom (.integer .char)) => atom (.string .pointer)
  | t => pointer .raw t

/-- An array of a type in place, which is a borrowed string where the type is a character. -/
def inPlaceOf (size : Nat) : Ty → Ty
  | atom (.integer .char) => atom (.string (.buffer size))
  | t => sequence (.inPlace size) t

end Ty

end Discrepancy
