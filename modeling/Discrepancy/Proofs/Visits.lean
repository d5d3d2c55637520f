import Discrepancy.Proofs.Inspection
import Discrepancy.Proofs.Rendered

/-!
# Visits

What enters a trail log are visits, each with a trail and perhaps a mark.  A chain of computations
makes the visits of its links one after the other.  Most computations are silent: rendering values,
telling of a mismatch, and looking at two values make no visits, as long as no registered renderer
writes to the log.  So only those steps of a comparison count which note a visit themselves.
-/

namespace Discrepancy

/-- What enters a trail log: a trail, and whether it is marked as skipped. -/
structure Visit where
  trail : Text
  skipped : Bool
  deriving DecidableEq

def Visit.entry (visit : Visit) : Text :=
  Event.logEntry visit.trail visit.skipped

/-- The visit which an event enters in a log. -/
def Event.visit? (log : Identity) : Event → Option Visit
  | visited trail skipped log? => if log? = some log then some ⟨trail, skipped⟩ else none
  | _ => none

theorem Event.trailEntry?_eq (log : Identity) (event : Event) :
    event.trailEntry? log = (event.visit? log).map Visit.entry := by
  cases event with
  | visited trail skipped log? =>
    dsimp only [Event.trailEntry?, Event.visit?]
    split_ifs <;> rfl
  | _ => rfl

namespace Outcome

variable {α β : Type} {log : Identity} {x : Outcome α} {f : α → Outcome β} {a : α}

def visits (log : Identity) (x : Outcome α) : List Visit :=
  x.events.filterMap (Event.visit? log)

/-- The entries of a log are those of its visits. -/
theorem trailLog_eq (x : Outcome α) (log : Identity) :
    x.trailLog log = (x.visits log).map Visit.entry := by
  rw [trailLog, visits, List.map_filterMap]
  simp only [Event.trailEntry?_eq]

/-- A chain makes the visits of its links. -/
theorem visits_bind (h : x.Yields a) : (x >>= f).visits log = x.visits log ++ (f a).visits log := by
  obtain ⟨events, result⟩ := x
  obtain rfl : result = .ok a := h
  exact List.filterMap_append

/-- A computation makes no visits. -/
def Silent (log : Identity) (x : Outcome α) : Prop :=
  x.visits log = []

theorem silent_pure (a : α) : (pure a : Outcome α).Silent log :=
  rfl

theorem silent_fail (fault : Fault) : (fail fault : Outcome α).Silent log :=
  rfl

theorem silent_assert (condition : Bool) (assertion : Assertion) :
    (assert condition assertion).Silent log := by
  unfold assert
  split <;> rfl

theorem compositional_silent : Compositional (Silent log) where
  of_pure := silent_pure
  of_bind {_ _ x f} hx hf := by
    obtain ⟨events, result⟩ := x
    cases result with
    | error fault => exact hx
    | ok a =>
      have hyields : (⟨events, .ok a⟩ : Outcome _).Yields a := rfl
      exact (visits_bind hyields).trans (List.append_eq_nil_iff.mpr ⟨hx, hf a hyields⟩)

/-- Computations without visits make none one after the other. -/
theorem Silent.bind (hx : x.Silent log) (hf : ∀ a, (f a).Silent log) : (x >>= f).Silent log :=
  compositional_silent.of_bind hx fun a _ ↦ hf a

theorem Silent.map {g : α → β} (hx : x.Silent log) : (g <$> x).Silent log := by
  rw [← bind_pure_comp]
  exact hx.bind fun a ↦ silent_pure (g a)

/-- After a silent computation only the next one makes visits. -/
theorem Silent.visits_bind (hx : x.Silent log) (h : x.Yields a) :
    (x >>= f).visits log = (f a).visits log := by
  rw [Outcome.visits_bind h, hx, List.nil_append]

/-- What is made of a result enters no visits. -/
theorem visits_bind_pure (g : α → β) (x : Outcome α) :
    (x >>= fun a ↦ pure (g a)).visits log = x.visits log := by
  obtain ⟨events, result⟩ := x
  cases result with
  | error fault => rfl
  | ok a =>
    have hyields : (⟨events, .ok a⟩ : Outcome α).Yields a := rfl
    exact (Outcome.visits_bind hyields).trans (List.append_nil _)

end Outcome

open Outcome

variable {log : Identity}

/-! ## Renderings -/

namespace Rendering

variable [Host] {r : Rendering}

/-- The renderers of the program which are registered write nothing to a log. -/
def Silent (log : Identity) (r : Rendering) : Prop :=
  ∀ v name, r.renderer? v = some (.own name) → v.isAccessible →
    ∀ r', r.Near r' → ∀ level, (Host.renderer name r' level v).Silent log

theorem silent_of_plain (h : r.renderers = []) : r.Silent log := by
  intro v name hrenderer
  rw [renderer?_of_plain h] at hrenderer
  cases hrenderer

theorem Silent.forKeys (h : r.Silent log) : r.forKeys.Silent log :=
  fun v name hrenderer haccessible r' hnear ↦
    h v name hrenderer haccessible r' hnear.of_withStyle

omit [Host] in
theorem cast_silent (v : Value) (type : Ty) : (v.cast type).Silent log := by
  unfold Value.cast
  split
  · exact silent_fail _
  · exact silent_pure _

omit [Host] in
theorem uintValue_silent (v : Value) : v.uintValue.Silent log := by
  unfold Value.uintValue
  split
  · split_ifs
    · exact silent_fail _
    · exact silent_pure _
  · exact silent_fail _

/-- What the library itself makes of a value is no visit. -/
theorem apply_silent (h : r.Silent log) {v : Value} (haccessible : v.isAccessible)
    {renderer : Renderer} (hrenderer : r.renderer? v = some renderer) {rule : Outcome Text}
    (hrule : rule.Silent log) (level : Int) : (r.apply level v rule renderer).Silent log := by
  cases renderer with
  | byte =>
    exact (cast_silent v byteTy).bind fun v ↦ (uintValue_silent v).bind fun n ↦ silent_pure _
  | shaped shape =>
    rw [apply, ofShape]
    split_ifs
    · exact hrule
    · exact Outcome.Silent.bind rfl fun _ ↦ silent_pure _
  | own name => exact h v name hrenderer haccessible r (.inl rfl) level

theorem custom_silent (h : r.Silent log) {v : Value} (haccessible : v.isAccessible)
    {rule : Outcome Text} (hrule : rule.Silent log) (consult : Bool) (level : Int) :
    (custom consult r level v rule).Silent log := by
  unfold custom
  cases consult with
  | false => exact hrule
  | true =>
    cases hrenderer : r.renderer? v with
    | none => exact hrule
    | some renderer =>
      exact Outcome.Silent.bind rfl fun _ ↦ apply_silent h haccessible hrenderer hrule level

omit [Host] in
theorem ofFormatted_silent (formatted : Except Text Text) :
    (ofFormatted formatted).Silent log := by
  cases formatted with
  | ok t => exact silent_pure t
  | error message => exact silent_fail _

theorem scalar_text_silent (s : Scalar) (style : Style) : (s.text style).Silent log := by
  cases s with
  | string type content place => cases content <;> exact silent_pure _
  | sealed name kind =>
    rw [Scalar.text]
    split <;> exact silent_fail _
  | span type period count => exact ofFormatted_silent _
  | instant type period count => exact ofFormatted_silent _
  | _ => exact silent_pure _

/-- Renderings enter no visits where their renderers enter none. -/
theorem text_silent (h : r.Silent log) (v : Value) (consult : Bool) (level : Int) :
    (text consult v r level).Silent log := by
  induction v using Value.induction_parts generalizing r consult level with
  | h v ih =>
    have hrule : (text false v r level).Silent log :=
      text_false_compositional compositional_silent (fun s _ ↦ scalar_text_silent s r.style)
        (fun u hu ↦ ih u hu h true) (fun u hu ↦ ih u hu h.forKeys true 0) level
    by_cases haccessible : v.isAccessible
    · rw [text_eq_custom haccessible consult]
      exact custom_silent h haccessible hrule consult level
    · rwa [text_of_not_accessible haccessible consult]

theorem sortedKeys_silent (h : r.Silent log) (map : Value) : (r.sortedKeys map).Silent log := by
  have hkeys : map.keys.Silent log := by
    cases map with
    | map rule key mapped storage entries => exact silent_pure _
    | _ => exact silent_fail _
  refine hkeys.bind fun keys ↦ sortKeys_compositional compositional_silent fun label hlabel ↦ ?_
  obtain ⟨key, -, rfl⟩ := List.mem_map.mp hlabel
  exact text_silent h.forKeys key true 0

end Rendering

namespace Comparison

variable [Host] {want found : Value} {ops : Options}

theorem noticeRendering_silent {r : Rendering} (h : r.Silent log) :
    (noticeRendering r).Silent log := by
  intro v name hrenderer haccessible r' hnear
  have hown : r.renderer? v = some (.own name) := by
    unfold noticeRendering at hrenderer
    split_ifs at hrenderer
    · exact hrenderer
    · rcases Rendering.renderer?_register hrenderer with ⟨-, hbyte⟩ | hown
      · cases hbyte
      · exact hown
  exact h v name hown haccessible r' (near_of_noticeRendering hnear)

theorem mismatch_silent {context : Context} (h : context.rendering.Silent log) :
    (mismatch want found context).Silent log := by
  have htext := Rendering.text_silent (noticeRendering_silent h)
  refine (htext want true 0).bind fun wantText ↦ (htext found true 0).bind fun foundText ↦ ?_
  dsimp only
  split <;> exact silent_pure _

omit [Host] in
theorem equals_silent (want found : Value) : (want.equals found).Silent log := by
  unfold Value.equals
  split
  · exact silent_fail _
  · exact silent_fail _
  · exact silent_fail _
  · exact silent_fail _
  · split
    · exact silent_pure _
    · split
      · exact silent_pure _
      · exact silent_pure _
      · exact silent_fail _

omit [Host] in
theorem scalarsAgree_silent (s t : Scalar) : (scalarsAgree s t).Silent log := by
  unfold scalarsAgree
  split
  any_goals exact silent_pure _
  exact equals_silent _ _

/-- A look at two values makes no visits. -/
theorem inspect_silent (h : ops.rendering.Silent log) : (inspect want found ops).Silent log := by
  unfold inspect
  split
  · exact (scalarsAgree_silent _ _).map
  · exact silent_pure _
  · exact silent_pure _
  · exact silent_pure _
  · exact silent_pure _
  · exact (silent_assert _ _).bind fun _ ↦ silent_pure _
  · split_ifs <;> exact silent_pure _
  · split_ifs
    · exact silent_pure _
    · exact silent_pure _
    · exact (Rendering.sortedKeys_silent h _).bind fun _ ↦ silent_pure _
  · exact silent_pure _
  · exact (equals_silent _ _).map

/-! ## Steps that note a visit -/

/-- A log is kept in which every location has a trail. -/
structure Logged (log : Identity) (ops : Options) : Prop where
  kept : ops.log? = some log
  located : ops.trail ≠ []
  silent : ops.rendering.Silent log

omit [Host] in
theorem extend_ne_nil {base : Text} (h : base ≠ []) (step : Step) :
    Trail.extend base step ≠ [] := by
  have hempty : base.isEmpty = false := by simpa using h
  cases step <;> simp [Trail.extend, hempty, h]

theorem Logged.follow (h : Logged log ops) (step : Option Step) : Logged log (ops.follow step) := by
  cases step with
  | none => exact h
  | some step => exact ⟨h.kept, extend_ne_nil h.located step, h.silent⟩

/-- A visit enters the log once, at its own trail. -/
theorem Logged.visits_visit (h : Logged log ops) (skipped : Bool) :
    (ops.visit skipped).visits log = [⟨ops.trail, skipped⟩] := by
  have hempty : ops.trail.isEmpty = false := by simpa using h.located
  rw [Options.visit, hempty, h.kept]
  simp [Outcome.visits, emit, Event.visit?]

theorem Logged.visits_leaf (h : Logged log ops) (equal : Bool) :
    (leaf equal want found ops).visits log = [⟨ops.trail, false⟩] := by
  have hrest : (if equal then pure []
      else do pure [← mismatch want found ops.toContext] : Outcome (List Notice)).Silent log := by
    split
    · exact silent_pure _
    · exact (mismatch_silent h.silent).bind fun _ ↦ silent_pure _
  rw [leaf, visits_bind (ops.visit_yields false), h.visits_visit, hrest, List.append_nil]

theorem Logged.visits_lengthMismatch (h : Logged log ops) (m n : Nat) :
    (lengthMismatch want found m n ops).visits log = [⟨ops.trail, false⟩] := by
  rw [lengthMismatch, visits_bind (ops.visit_yields false), h.visits_visit,
    (mismatch_silent h.silent).bind fun _ ↦ silent_pure _, List.append_nil]

/-- A missing key is visited under its label. -/
theorem Logged.visits_missing (h : Logged log ops) (label : Text) :
    ((Branch.missing label).run found ops).visits log =
      [⟨(ops.below (.key label)).trail, false⟩] := by
  have hbelow : Logged log (ops.below (.key label)) := h.follow (some (.key label))
  rw [Branch.run, visits_bind ((ops.below (.key label)).visit_yields false), hbelow.visits_visit,
    (mismatch_silent hbelow.silent).bind fun _ ↦ silent_pure _, List.append_nil]

end Comparison

end Discrepancy
