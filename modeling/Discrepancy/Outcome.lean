import Discrepancy.Event

/-!
# Outcomes

The outcome of a computation is its result, or the fault that ended it, together with the events
up to there.  Events survive a fault.  Outcomes are plain data: one outcome follows another by
joining their events.
-/

namespace Discrepancy

/-- The events of a computation, and its result or the fault that ended it. -/
structure Outcome (α : Type) where
  events : List Event
  result : Except Fault α

namespace Outcome

variable {α β γ : Type}

protected def pure (a : α) : Outcome α :=
  ⟨[], .ok a⟩

/-- One computation after another; a fault of the first one is the fault of both. -/
protected def bind (x : Outcome α) (f : α → Outcome β) : Outcome β :=
  match x.result with
  | .ok a =>
    let y := f a
    ⟨x.events ++ y.events, y.result⟩
  | .error fault => ⟨x.events, .error fault⟩

instance : Monad Outcome where
  pure := Outcome.pure
  bind := Outcome.bind

def fail (fault : Fault) : Outcome α :=
  ⟨[], .error fault⟩

def emit (event : Event) : Outcome Unit :=
  ⟨[event], .ok ()⟩

/-- An assertion leaves an event when it fails. -/
def assert (condition : Bool) (assertion : Assertion) : Outcome Unit :=
  if condition then pure () else ⟨[.violated assertion], .error (.violated assertion)⟩

/-- Some computations one after the other, with the results of all. -/
def sequence : List (Outcome α) → Outcome (List α)
  | [] => pure []
  | x :: rest => do
    let a ← x
    let others ← sequence rest
    pure (a :: others)

def messages (x : Outcome α) : List Journal.Message :=
  x.events.map Event.message

def trailLog (x : Outcome α) (log : Identity := 0) : List Text :=
  x.events.filterMap (Event.trailEntry? log)

@[ext]
theorem ext {x y : Outcome α} (events : x.events = y.events) (result : x.result = y.result) :
    x = y := by
  cases x
  cases y
  simp_all

@[simp]
theorem pure_bind (a : α) (f : α → Outcome β) : (pure a : Outcome α) >>= f = f a :=
  Outcome.ext (List.nil_append _) rfl

@[simp]
theorem bind_pure (x : Outcome α) : x >>= pure = x := by
  obtain ⟨events, result⟩ := x
  cases result with
  | ok a => exact Outcome.ext (List.append_nil _) rfl
  | error fault => rfl

theorem bind_assoc (x : Outcome α) (f : α → Outcome β) (g : β → Outcome γ) :
    x >>= f >>= g = x >>= fun a ↦ f a >>= g := by
  obtain ⟨events, result⟩ := x
  cases result with
  | error fault => rfl
  | ok a =>
    simp only [bind, Outcome.bind]
    cases (f a).result <;> simp

instance : LawfulMonad Outcome := LawfulMonad.mk' Outcome
  (fun x ↦ bind_pure x) (fun a f ↦ pure_bind a f) (fun x f g ↦ bind_assoc x f g)

@[simp]
theorem sequence_nil : sequence ([] : List (Outcome α)) = pure [] :=
  rfl

/-- A fault leaves out the computations behind it. -/
theorem sequence_cons (x : Outcome α) (rest : List (Outcome α)) :
    sequence (x :: rest) = x >>= fun a ↦ sequence rest >>= fun others ↦ pure (a :: others) :=
  rfl

end Outcome

end Discrepancy
