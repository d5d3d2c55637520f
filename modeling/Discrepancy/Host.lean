import Discrepancy.Outcome

/-!
# The program around the library

The library leaves three things to others.  A formatting library writes spans and instants, which it
may refuse, and knows which characters print.  Maps find their entries by comparators, which come
with the types of the program or are declared with the maps.  And the program may register renderers
of its own.  `Host` stands for all of these: what is stated for every host holds whatever they do.

A rendering is a style together with the renderers that are registered under the identities of
types.  Every renderer is consulted with the rendering it is registered in, so that it can go on
with the parts of a value as the library would.
-/

namespace Discrepancy

/-- A renderer that can be registered for a type. -/
inductive Renderer where
  /-- The one for bytes. -/
  | byte
  /-- The rule of the library for the kinds of one shape. -/
  | shaped (shape : Shape)
  /-- A renderer of the program, by its name. -/
  | own (name : Text)
  deriving DecidableEq

/-- A style, and renderers under the identities of types. -/
structure Rendering where
  style : Style := {}
  renderers : List (Ty × Renderer) := []
  deriving DecidableEq

namespace Rendering

def renderer? (r : Rendering) (v : Value) : Option Renderer :=
  v.identity?.bind fun type ↦ r.renderers.lookup type

def hasRenderer (r : Rendering) (type : Ty) : Bool :=
  (r.renderers.lookup type.identity).isSome

/-- Registers a renderer for the identity of a type, in the place of the one before. -/
def register (r : Rendering) (type : Ty) (renderer : Renderer) : Rendering :=
  { r with renderers := (type.identity, renderer) ::
      r.renderers.filter fun entry ↦ entry.1 != type.identity }

def forKeys (r : Rendering) : Rendering :=
  { r with style := r.style.forKeys }

end Rendering

/-- What the library relies on and does not define. -/
class Host where
  /-- Whether the formatting library escapes a code point between quotation marks. -/
  isUnprintable : Nat → Bool
  /-- What the formatting library writes for a number of periods, or the message of its refusal. -/
  spanText : AtomTy → Period → Binary → Except Text Text
  /-- What it writes for the instant a number of periods after the start of 1970. -/
  instantText : AtomTy → Period → Binary → Except Text Text
  /-- How the comparator of a map orders two keys; not all keys need be in order. -/
  order : KeyRule → Value → Value → Option Ordering
  /-- The renderers of the program. -/
  renderer : Text → Rendering → Int → Value → Outcome Text

/-- The text of the formatting library, or the fault of its refusal. -/
def Outcome.ofFormatted : Except Text Text → Outcome Text
  | .ok text => pure text
  | .error message => .fail (.unformattable message)

namespace KeyRule

variable [Host]

def less (rule : KeyRule) (a b : Value) : Bool :=
  Host.order rule a b == some .lt

/-- Whether two keys are equal to a map. -/
def same (rule : KeyRule) (a b : Value) : Bool :=
  Host.order rule a b == some .eq

end KeyRule

end Discrepancy
