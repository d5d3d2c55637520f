import Discrepancy.Compare.OptionList
import Discrepancy.Proofs.Rendered

/-!
# Resolution of settings

Settings are applied one after the other, those of the environment first.  Options have slots for
what settings write, one for each trail, type and renderer that can be registered, and what stands
in a slot in the end was written there by the last setting that writes to it; only trails to be
skipped add up.  This holds for one setting, whatever it writes to, and so for a list of them.  The
order of settings which write to different slots does therefore not matter.
-/

namespace Discrepancy

open Outcome

/-! ## Last writers -/

section LastWrite

variable {α β : Type}

/-- What the last one of some items writes that writes at all. -/
def lastWrite (writes : α → Option β) (items : List α) : Option β :=
  items.reverse.findSome? writes

/-- Later writes count before earlier ones. -/
theorem lastWrite_cons (writes : α → Option β) (a : α) (rest : List α) :
    lastWrite writes (a :: rest) = (lastWrite writes rest).or (writes a) := by
  rw [lastWrite, List.reverse_cons, List.findSome?_append, List.findSome?_singleton, lastWrite]

/-- Only items that write count. -/
theorem lastWrite_filter (writes : α → Option β) (items : List α) :
    lastWrite writes (items.filter fun a ↦ (writes a).isSome) = lastWrite writes items := by
  induction items with
  | nil => rfl
  | cons a rest ih =>
    rw [lastWrite_cons]
    cases hwrite : writes a with
    | none => rw [List.filter_cons_of_neg (by simp [hwrite]), ih, Option.or_none]
    | some b => rw [List.filter_cons_of_pos (by simp [hwrite]), lastWrite_cons, ih, hwrite]

end LastWrite

/-- A table finds under a key what was assigned to it, and what it had under every other key. -/
theorem Options.lookup_assign {κ α : Type} [BEq κ] [LawfulBEq κ] (key k : κ) (a : α)
    (table : List (κ × α)) :
    (assign key a table).lookup k =
      (if key == k then some (some a) else none).getD (table.lookup k) := by
  by_cases h : key = k
  · subst h
    rw [assign, List.lookup_cons_self, beq_self_eq_true]
    rfl
  · rw [assign, List.lookup_cons, beq_false_of_ne (Ne.symm h), beq_false_of_ne h]
    exact lookup_filter (Ne.symm h) table

/-! ## Slots -/

/-- What settings write to.  Checkers and renderers are registered one by one. -/
inductive Slot where
  | trail
  | log
  | skipHidden
  | flat
  | addresses
  | indent
  | tabWidth
  | quoteUpTo
  | trailChecker (trail : Text)
  | typeChecker (identity : Ty)
  | renderer (identity : Ty)

def Slot.Content : Slot → Type
  | trail => Text
  | log => Option Identity
  | skipHidden | flat | addresses => Bool
  | indent | tabWidth | quoteUpTo => Nat
  | trailChecker _ | typeChecker _ => Option Checker
  | renderer _ => Option Renderer

/-- What stands in a slot of options; nothing is registered where nothing is found. -/
def Options.content (ops : Options) : (slot : Slot) → slot.Content
  | .trail => ops.trail
  | .log => ops.log?
  | .skipHidden => ops.skipHidden
  | .flat => ops.rendering.style.flat
  | .addresses => ops.rendering.style.addresses
  | .indent => ops.rendering.style.indent
  | .tabWidth => ops.rendering.style.tabWidth
  | .quoteUpTo => ops.rendering.style.quoteUpTo
  | .trailChecker trail => ops.trailCheckers.lookup trail
  | .typeChecker identity => ops.typeCheckers.lookup identity
  | .renderer identity => ops.rendering.renderers.lookup identity

/-- What a setting of a rendering writes to a slot.  Sizes below zero are written as zero, and a
renderer without a rule is not written. -/
def RenderSetting.writes : RenderSetting → (slot : Slot) → Option slot.Content
  | flat, .flat => some true
  | addresses, .addresses => some true
  | quoteUpTo length, .quoteUpTo => some length
  | indent n, .indent => some n.toNat
  | tabWidth n, .tabWidth => some n.toNat
  | renderer type (some rule), .renderer identity =>
    if type.identity == identity then some (some rule) else none
  | _, _ => none

namespace Setting

/-- What a setting writes to a slot.  One that changes the rendering may write to several. -/
def writes : Setting → (slot : Slot) → Option slot.Content
  | startAt trail, .trail => some trail
  | record log, .log => some (some log)
  | skipHidden, .skipHidden => some true
  | trailChecker trail checker, .trailChecker trail' =>
    if trail == trail' then some (some checker) else none
  | typeChecker type checker, .typeChecker identity =>
    if type.identity == identity then some (some checker) else none
  | rendering settings, slot => lastWrite (fun setting ↦ setting.writes slot) settings
  | _, _ => none

/-- The trails which a setting adds to those that are skipped. -/
def skips : Setting → List Text
  | skipTrail trail => [trail]
  | _ => []

/-- A setting of its own: it neither depends on the options so far nor takes the place of all. -/
def IsPlain : Setting → Prop
  | skipBelow _ | replaceBy _ => False
  | _ => True

instance : DecidablePred IsPlain
  | skipBelow _ | replaceBy _ => isFalse not_false
  | skipTrail _ | skipHidden | trailChecker .. | typeChecker .. | startAt _ | record _
  | rendering _ => isTrue trivial

end Setting

/-! ## One setting -/

/-- Options come of others by writing to slots and adding trails to skip. -/
structure Takes (writes : (slot : Slot) → Option slot.Content) (skips : List Text)
    (ops ops' : Options) : Prop where
  content : ∀ slot, ops'.content slot = (writes slot).getD (ops.content slot)
  skipTrails : ops'.skipTrails = ops.skipTrails ++ skips
  quoteAll : ops'.rendering.style.quoteAll = ops.rendering.style.quoteAll

namespace Takes

variable {writes writes' : (slot : Slot) → Option slot.Content} {skips skips' : List Text}
  {ops ops' ops'' : Options}

theorem refl (ops : Options) : Takes (fun _ ↦ none) [] ops ops where
  content _ := rfl
  skipTrails := (List.append_nil _).symm
  quoteAll := rfl

/-- Writes and skips of one change after another add up, and the later writes count. -/
theorem trans (h : Takes writes skips ops ops') (h' : Takes writes' skips' ops' ops'') :
    Takes (fun slot ↦ (writes' slot).or (writes slot)) (skips ++ skips') ops ops'' where
  content slot := by rw [h'.content, h.content, Option.getD_or]
  skipTrails := by rw [h'.skipTrails, h.skipTrails, List.append_assoc]
  quoteAll := h'.quoteAll.trans h.quoteAll

end Takes

theorem RenderSetting.apply_takes (setting : RenderSetting) (ops : Options) :
    ∃ r, (setting.apply ops.rendering).Yields r ∧
      Takes setting.writes [] ops { ops with rendering := r } := by
  have htakes {r : Rendering} (hquote : r.style.quoteAll = ops.rendering.style.quoteAll)
      (hcontent : ∀ slot, ({ ops with rendering := r } : Options).content slot =
        (setting.writes slot).getD (ops.content slot)) :
      Takes setting.writes [] ops { ops with rendering := r } :=
    ⟨hcontent, (List.append_nil _).symm, hquote⟩
  cases setting with
  | renderer type rule? =>
    cases rule? with
    | none => exact ⟨ops.rendering, rfl, htakes rfl fun slot ↦ rfl⟩
    | some rule =>
      refine ⟨_, rfl, htakes rfl fun slot ↦ ?_⟩
      cases slot with
      | renderer identity => exact Options.lookup_assign type.identity identity rule _
      | _ => rfl
  | _ => exact ⟨_, rfl, htakes rfl fun slot ↦ by cases slot <;> rfl⟩

theorem Rendering.configure_takes (settings : List RenderSetting) (ops : Options) :
    ∃ r, (ops.rendering.configure settings).Yields r ∧
      Takes (fun slot ↦ lastWrite (fun setting ↦ setting.writes slot) settings) [] ops
        { ops with rendering := r } := by
  induction settings generalizing ops with
  | nil => exact ⟨ops.rendering, rfl, .refl ops⟩
  | cons setting rest ih =>
    obtain ⟨r, hr, htakes⟩ := setting.apply_takes ops
    obtain ⟨r', hr', htakes'⟩ := ih { ops with rendering := r }
    refine ⟨r', hr.bind hr', ?_⟩
    simp only [lastWrite_cons]
    exact htakes.trans htakes'

/-- A setting writes what it says and nothing else. -/
theorem Setting.apply_takes {setting : Setting} (hplain : setting.IsPlain) (ops : Options) :
    ∃ ops', (setting.apply ops).Yields ops' ∧ Takes setting.writes setting.skips ops ops' := by
  cases setting with
  | skipBelow step => exact hplain.elim
  | replaceBy other => exact hplain.elim
  | rendering settings =>
    obtain ⟨r, hr, htakes⟩ := Rendering.configure_takes settings ops
    refine ⟨_, hr.bind rfl, ?_, htakes.skipTrails, htakes.quoteAll⟩
    exact htakes.content
  | skipTrail trail => exact ⟨_, rfl, fun slot ↦ by cases slot <;> rfl, rfl, rfl⟩
  | trailChecker trail checker =>
    refine ⟨_, rfl, fun slot ↦ ?_, (List.append_nil _).symm, rfl⟩
    cases slot with
    | trailChecker trail' => exact Options.lookup_assign trail trail' checker _
    | _ => rfl
  | typeChecker type checker =>
    refine ⟨_, rfl, fun slot ↦ ?_, (List.append_nil _).symm, rfl⟩
    cases slot with
    | typeChecker identity => exact Options.lookup_assign type.identity identity checker _
    | _ => rfl
  | _ => exact ⟨_, rfl, fun slot ↦ by cases slot <;> rfl, (List.append_nil _).symm, rfl⟩

/-! ## A list of settings -/

/-- A list of settings writes what the last ones write, and adds all trails to skip. -/
theorem Options.configure_takes {settings : List Setting}
    (hplain : ∀ setting ∈ settings, setting.IsPlain) (ops : Options) :
    ∃ ops', (ops.configure settings).Yields ops' ∧
      Takes (fun slot ↦ lastWrite (fun setting ↦ setting.writes slot) settings)
        (settings.flatMap Setting.skips) ops ops' := by
  induction settings generalizing ops with
  | nil => exact ⟨ops, rfl, .refl ops⟩
  | cons setting rest ih =>
    obtain ⟨hhead, hrest⟩ := List.forall_mem_cons.mp hplain
    obtain ⟨ops', hops', htakes⟩ := Setting.apply_takes hhead ops
    obtain ⟨ops'', hops'', htakes'⟩ := ih hrest ops'
    refine ⟨ops'', hops'.bind hops'', ?_⟩
    simp only [lastWrite_cons, List.flatMap_cons]
    exact htakes.trans htakes'

namespace OptionList

variable {settings : List Setting}

theorem isPlain_of_wordSetting? {name : Text} {setting : Setting}
    (h : wordSetting? name = some setting) : setting.IsPlain := by
  unfold wordSetting? at h
  split_ifs at h <;> exact Option.some.inj h ▸ trivial

theorem isPlain_of_countSetting? {name : Text} {count : Nat} {setting : Setting}
    (h : countSetting? name count = some setting) : setting.IsPlain := by
  unfold countSetting? at h
  split_ifs at h <;> exact Option.some.inj h ▸ trivial

theorem isPlain_of_setting? {entry : Text} {setting : Setting} (h : setting? entry = some setting) :
    setting.IsPlain := by
  unfold setting? at h
  split at h
  · exact isPlain_of_wordSetting? h
  · obtain ⟨count, -, hcount⟩ := Option.bind_eq_some_iff.mp h
    exact isPlain_of_countSetting? hcount

/-- Entries are read to plain settings, whatever they are. -/
theorem readEntries_yields (entries : List Text) :
    ∃ settings, (readEntries entries).Yields settings ∧ ∀ setting ∈ settings, setting.IsPlain := by
  induction entries with
  | nil => exact ⟨[], rfl, List.forall_mem_nil _⟩
  | cons entry rest ih =>
    obtain ⟨settings, hsettings, hplain⟩ := ih
    unfold readEntries
    cases hsetting : setting? entry with
    | none => exact ⟨settings, (yields_emit _).bind hsettings, hplain⟩
    | some setting =>
      exact ⟨setting :: settings, hsettings.bind rfl,
        List.forall_mem_cons.mpr ⟨isPlain_of_setting? hsetting, hplain⟩⟩

/-- Entries of an option list are settings of their own. -/
theorem read_yields (t : Text) :
    ∃ settings, (read t).Yields settings ∧ ∀ setting ∈ settings, setting.IsPlain :=
  readEntries_yields (t.pieces (Text.byte ','))

theorem readEnvironment_yields (environment : Option Text) :
    ∃ settings, (readEnvironment environment).Yields settings ∧
      ∀ setting ∈ settings, setting.IsPlain := by
  cases environment with
  | none => exact ⟨[], rfl, List.forall_mem_nil _⟩
  | some entries =>
    obtain ⟨settings, hsettings, hplain⟩ := read_yields entries
    exact ⟨settings, (yields_emit _).bind hsettings, hplain⟩

end OptionList

/-! ## Resolution -/

/-- Options resolve settings: a slot holds what the last setting wrote that writes to it, or else
the default, and the trails of all settings are skipped, in order. -/
structure Resolves (settings : List Setting) (ops : Options) : Prop where
  content : ∀ slot, ops.content slot =
    (lastWrite (fun setting ↦ setting.writes slot) settings).getD (({} : Options).content slot)
  skipTrails : ops.skipTrails = settings.flatMap Setting.skips
  quoteAll : ops.rendering.style.quoteAll = false

/-- Options that are the same, whatever the order of their tables. -/
structure Options.SameByLookup (ops ops' : Options) : Prop where
  trail : ops.trail = ops'.trail
  skipTrails : ops.skipTrails = ops'.skipTrails
  skipHidden : ops.skipHidden = ops'.skipHidden
  log : ops.log? = ops'.log?
  style : ops.rendering.style = ops'.rendering.style
  renderers : ∀ identity,
    ops.rendering.renderers.lookup identity = ops'.rendering.renderers.lookup identity
  trailCheckers : ∀ trail, ops.trailCheckers.lookup trail = ops'.trailCheckers.lookup trail
  typeCheckers : ∀ identity, ops.typeCheckers.lookup identity = ops'.typeCheckers.lookup identity

/-- The settings in another order, which is the same for those that write to one slot and for those
that skip trails. -/
structure Rearranges (settings settings' : List Setting) : Prop where
  perm : settings.Perm settings'
  writers : ∀ slot, settings.filter (fun setting ↦ (setting.writes slot).isSome) =
    settings'.filter fun setting ↦ (setting.writes slot).isSome
  skippers : settings.filter (fun setting ↦ !setting.skips.isEmpty) =
    settings'.filter fun setting ↦ !setting.skips.isEmpty

section Resolution

variable {settings settings' : List Setting} {ops ops' : Options}

theorem Resolves.of_takes (h : Takes (fun slot ↦ lastWrite (fun setting ↦ setting.writes slot)
    settings) (settings.flatMap Setting.skips) {} ops) : Resolves settings ops :=
  ⟨h.content, h.skipTrails, h.quoteAll⟩

/-- There is nothing in options but what stands in their slots and the trails to skip. -/
theorem Resolves.sameByLookup (h : Resolves settings ops) (h' : Resolves settings' ops')
    (hcontent : ∀ slot, ops.content slot = ops'.content slot)
    (hskips : ops.skipTrails = ops'.skipTrails) : ops.SameByLookup ops' where
  trail := hcontent .trail
  skipTrails := hskips
  skipHidden := hcontent .skipHidden
  log := hcontent .log
  style := by
    have hflat : ops.rendering.style.flat = ops'.rendering.style.flat := hcontent .flat
    have haddresses : ops.rendering.style.addresses = ops'.rendering.style.addresses :=
      hcontent .addresses
    have hindent : ops.rendering.style.indent = ops'.rendering.style.indent := hcontent .indent
    have htab : ops.rendering.style.tabWidth = ops'.rendering.style.tabWidth := hcontent .tabWidth
    have hquote : ops.rendering.style.quoteUpTo = ops'.rendering.style.quoteUpTo :=
      hcontent .quoteUpTo
    have hall := h.quoteAll.trans h'.quoteAll.symm
    generalize ops.rendering.style = style at hflat haddresses hindent htab hquote hall ⊢
    generalize ops'.rendering.style = style' at hflat haddresses hindent htab hquote hall ⊢
    cases style
    cases style'
    simp_all
  renderers identity := hcontent (.renderer identity)
  trailCheckers trail := hcontent (.trailChecker trail)
  typeCheckers identity := hcontent (.typeChecker identity)

/-- Settings that skip nothing add nothing to the trails. -/
theorem flatMap_skips_filter (settings : List Setting) :
    (settings.filter fun setting ↦ !setting.skips.isEmpty).flatMap Setting.skips =
      settings.flatMap Setting.skips := by
  induction settings with
  | nil => rfl
  | cons setting rest ih =>
    rw [List.flatMap_cons]
    by_cases h : setting.skips = []
    · rw [List.filter_cons_of_neg (by simp [h]), ih, h, List.nil_append]
    · rw [List.filter_cons_of_pos (by simp [h]), List.flatMap_cons, ih]

/-- A list of settings, and the same list with settings of different slots exchanged, resolve to
the same options. -/
theorem Resolves.sameByLookup_of_rearranges {first : List Setting}
    (h : Resolves (first ++ settings) ops) (h' : Resolves (first ++ settings') ops')
    (hrearranges : Rearranges settings settings') : ops.SameByLookup ops' := by
  refine h.sameByLookup h' (fun slot ↦ ?_) ?_
  · rw [h.content, h'.content, ← lastWrite_filter, ← lastWrite_filter _ (first ++ settings'),
      List.filter_append, List.filter_append, hrearranges.writers slot]
  · rw [h.skipTrails, h'.skipTrails, List.flatMap_append, List.flatMap_append,
      ← flatMap_skips_filter settings, ← flatMap_skips_filter settings', hrearranges.skippers]

/-- Options resolve slot by slot, and the last writer wins.  The settings of the environment come
before those of the caller, whose order only matters among those that write to one slot. -/
theorem default_resolves (environment : Option Text)
    (hplain : ∀ setting ∈ settings, setting.IsPlain) :
    ∃ fromEnvironment ops, (OptionList.readEnvironment environment).Yields fromEnvironment ∧
      (Options.default environment settings).Yields ops ∧
      Resolves (fromEnvironment ++ settings) ops ∧
      ∀ settings', Rearranges settings settings' →
        ∃ ops', (Options.default environment settings').Yields ops' ∧ ops.SameByLookup ops' := by
  obtain ⟨fromEnvironment, hread, hplainFirst⟩ := OptionList.readEnvironment_yields environment
  have hresolves (l : List Setting) (hl : ∀ setting ∈ l, setting.IsPlain) :
      ∃ ops, (Options.default environment l).Yields ops ∧ Resolves (fromEnvironment ++ l) ops := by
    obtain ⟨ops, hops, htakes⟩ := Options.configure_takes
      (List.forall_mem_append.mpr ⟨hplainFirst, hl⟩) {}
    rw [Options.configure, List.foldlM_append] at hops
    exact ⟨ops, hread.bind hops, .of_takes htakes⟩
  obtain ⟨ops, hops, hresolved⟩ := hresolves settings hplain
  refine ⟨fromEnvironment, ops, hread, hops, hresolved, fun settings' hrearranges ↦ ?_⟩
  obtain ⟨ops', hops', hresolved'⟩ := hresolves settings' fun setting hmem ↦
    hplain setting (hrearranges.perm.mem_iff.mpr hmem)
  exact ⟨ops', hops', hresolved.sameByLookup_of_rearranges hresolved' hrearranges⟩

end Resolution

/-- Settings of which two write the trail and two the indentation. -/
def twoStarts : List Setting :=
  [.startAt "A", .rendering [.indent (-1), .flat], .startAt "B", .rendering [.indent 4]]

/-- The same settings with the first two exchanged. -/
def twoStartsLater : List Setting :=
  [.rendering [.indent (-1), .flat], .startAt "A", .startAt "B", .rendering [.indent 4]]

theorem rearranges_twoStarts : Rearranges twoStarts twoStartsLater where
  perm := List.Perm.swap ..
  writers slot := by cases slot <;> rfl
  skippers := rfl

/-- The caller's settings count after those of the environment, in either order. -/
theorem default_resolves_twoStarts :
    ∃ fromEnvironment ops,
      (OptionList.readEnvironment (some "indent=3, tab_width=1")).Yields fromEnvironment ∧
      (Options.default (some "indent=3, tab_width=1") twoStarts).Yields ops ∧
      Resolves (fromEnvironment ++ twoStarts) ops ∧
      ∃ ops', (Options.default (some "indent=3, tab_width=1") twoStartsLater).Yields ops' ∧
        ops.SameByLookup ops' := by
  have hplain : ∀ setting ∈ twoStarts, setting.IsPlain := by decide
  obtain ⟨fromEnvironment, ops, hread, hops, hresolves, hsame⟩ :=
    default_resolves (some "indent=3, tab_width=1") hplain
  exact ⟨fromEnvironment, ops, hread, hops, hresolves, hsame _ rearranges_twoStarts⟩

/-- Of two starts the second one counts, and of three indentations the last one. -/
example : ∃ ops, (Options.default (some "indent=3, tab_width=1") twoStarts).Yields ops ∧
    ops.trail = "B" ∧ ops.rendering.style = { flat := true, indent := 4, tabWidth := 1 } :=
  ⟨_, rfl, rfl, rfl⟩

end Discrepancy
