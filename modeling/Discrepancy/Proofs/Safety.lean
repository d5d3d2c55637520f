import Discrepancy.Proofs.KeyOrder
import Discrepancy.Proofs.Portrayal

/-!
# Safety

An operation that a value does not have is a fault, and so are an element of a nil pointer, an index
out of range, records of one type with different fields, a key of another type than that of its map,
and a kind without a rendering.  No fault is ever caught on the way.  Comparisons and renderings
that go by operations alone therefore show by returning that they keep to what the values at hand
allow, wherever they get.

One fault is not the library's own: the formatting library may refuse a span or an instant, for
example one that lies too far in the future.  It is passed on, and it is the only one.
-/

namespace Discrepancy

open Outcome

namespace Value

variable [Host] {declared : Text → List Text} {v : Value}

/-- The formatting library refuses something within a value. -/
def RefusedWithin (v : Value) (fault : Fault) : Prop :=
  ∃ u, Within u v ∧ u.Refused fault

theorem Everywhere.not_refusedWithin (h : v.Everywhere Formatted) (fault : Fault) :
    ¬ v.RefusedWithin fault := by
  rintro ⟨u, hu, hrefused⟩
  exact (h u hu).not_refused fault hrefused

/-- What was made from objects can be told, but for what the formatting library refuses. -/
theorem Everywhere.renderableUpTo {p : Fault → Prop} (h : v.Everywhere (Made declared))
    (hp : ∀ fault, v.RefusedWithin fault → p fault) : v.Everywhere (RenderableUpTo p) :=
  fun u hu ↦ ⟨(h u hu).unsealed, fun fault hrefused ↦ hp fault ⟨u, hu, hrefused⟩⟩

end Value

namespace Comparison

variable [Host] {declared : Text → List Text} {want found : Value} {ops : Options}

/-- The formatting library refuses something within one of two values. -/
def RefusedWithin (want found : Value) (fault : Fault) : Prop :=
  want.RefusedWithin fault ∨ found.RefusedWithin fault

/-- Without checkers and renderers, no fault comes of a comparison but those of the formatting
library. -/
theorem compare_refusedWithin [LawfulHost] (hops : ops.Unchecked)
    (hplain : ops.rendering.renderers = []) (hwant : want.Everywhere (Value.Made declared))
    (hfound : found.Everywhere (Value.Made declared)) :
    (compare want found ops).FaultsOnly (RefusedWithin want found) :=
  compare_faultsOnly (Rendering.confined_of_plain hplain) hwant hfound
    (hwant.renderableUpTo fun _ ↦ .inl) (hfound.renderableUpTo fun _ ↦ .inr)
    fun c hconsults ↦ (hops.not_registers c.checker hconsults.registers).elim

/-- No fault comes of a notice but those of the formatting library. -/
theorem mismatch_refusedWithin (hplain : ops.rendering.renderers = [])
    (hwant : want.Everywhere (Value.Made declared))
    (hfound : found.Everywhere (Value.Made declared)) :
    (mismatch want found ops.toContext).FaultsOnly (RefusedWithin want found) := by
  have hr : ops.toContext.rendering.Confined (RefusedWithin want found) :=
    Rendering.confined_of_plain hplain
  exact mismatch_faultsOnly hr (hwant.renderableUpTo fun _ ↦ .inl)
    (hfound.renderableUpTo fun _ ↦ .inr)

/-- The renderings of a comparison: its own one, and that of its notices. -/
def IsRenderingOf (r : Rendering) (ops : Options) : Prop :=
  r = ops.rendering ∨ r = noticeRendering ops.rendering

/-- No fault comes of a rendering but those of the formatting library. -/
theorem value_refusedWithin {r : Rendering} (hr : IsRenderingOf r ops)
    (hplain : ops.rendering.renderers = []) {v : Value} (hv : v.Everywhere (Value.Made declared))
    (level : Int) : (r.value v level).FaultsOnly v.RefusedWithin := by
  have hconfined : r.Confined v.RefusedWithin := by
    rcases hr with rfl | rfl
    · exact Rendering.confined_of_plain hplain
    · exact noticeRendering_confined (Rendering.confined_of_plain hplain)
  exact Rendering.text_faultsOnly hconfined (hv.renderableUpTo fun _ ↦ id) true level

end Comparison

/-! ## Samples -/

namespace Comparison

open scoped Sample

def instantAt (seconds : Nat) : Value :=
  .scalar (.instant (.integer .long) ⟨1, 1⟩ (.finite false seconds 0))

/-- A record with something of everything that is not there: a hidden field, a nil string, a nil
pointer, a variant without a value and empty containers, and with an instant. -/
def hollow (storage : Identity) (b : Bool) : Value :=
  .record "Hollow"
    [("Hidden", .hidden Sample.int),
      ("Text", .scalar (.string .pointer none)),
      ("Pointer", .pointer .raw Sample.int none),
      ("Variant", .interface (.variant [Sample.int]) none .absent),
      ("Vector", .sequence .vector Sample.int none []),
      ("Bools", .sequence .vector (.atom .bool) (some storage) [.scalar (.bool b)]),
      ("Map", .map .sorted Sample.string Sample.int storage []),
      ("Since", instantAt 86400)]

def hollowFields : List Text :=
  ["Hidden", "Text", "Pointer", "Variant", "Vector", "Bools", "Map", "Since"]

/-- An instant in a year beyond 32 bits is refused. -/
example : (Rendering.value {} (instantAt (2 ^ 62)) 0).result =
    .error (.unformattable "time_t value out of range") := by
  decide

end Comparison

end Discrepancy
