import Mathlib.Data.List.Induction
import Mathlib.Data.List.Nodup
import Discrepancy.Journal.Registry
import Discrepancy.Proofs.Rendered

/-!
# Levels in the course of time

The level of a journal is kept in three places: with what was asked for, in the journals that are
registered, and in those which are held.  Calls of the registry come in any order, and each of them
changes other places.  Whatever they were, a registered journal has the level which was asked for
it last, only registered journals are held, and so a message is kept if it is as severe as the
calls before it have asked for.

That a file which could be written once can be written again is taken for granted.
-/

namespace Discrepancy.Journal

/-! ## Calls -/

inductive Call where
  | opening
  | closing
  /-- Asks for a level of one journal, or of all. -/
  | setLevel (level : Level) (channel? : Option Channel)
  | write (message : Message)
  | setFormat (label : Text) (timestamps : Bool)
  | setFile (file : Text)

namespace Call

def perform (opens : Text → Bool) (r : Registry) : Call → Registry
  | opening => r.reopen opens
  | closing => r.close
  | setLevel level channel? => r.setLevel opens level (channel?.map Channel.name)
  | write message => (r.write opens message).1
  | setFormat label timestamps => r.setFormat opens label timestamps
  | setFile file => (r.setFile opens file).1

/-- The level which a call asks for all journals. -/
def global? : Call → Option Level
  | setLevel level none => some level
  | _ => none

/-- The level which a call asks for one journal by itself. -/
def own? (channel : Channel) : Call → Option Level
  | setLevel level (some other) => if other = channel then some level else none
  | _ => none

end Call

/-- The registry after the calls of a history, the first of which finds it as it is made. -/
def after (opens : Text → Bool) (history : List Call) : Registry :=
  history.foldl (Call.perform opens) {}

/-- The level that a history asks for a journal: the last one for it by itself which is not followed
by one for all journals, otherwise the last one for all journals, otherwise that of warnings. -/
def askedLevel (history : List Call) (channel : Channel) : Level :=
  let recent := history.reverse.takeWhile fun call ↦ call.global?.isNone
  ((recent.findSome? (Call.own? channel)).or (history.reverse.findSome? Call.global?)).getD .warning

/-- A call for all journals is none for a single one. -/
theorem Call.own?_eq_none {call : Call} {level : Level} (h : call.global? = some level)
    (channel : Channel) : call.own? channel = none := by
  cases call with
  | setLevel _ channel? =>
    cases channel? with
    | none => rfl
    | some other => cases h
  | _ => rfl

/-- One more call asks for its level, if it asks for any. -/
theorem askedLevel_append (history : List Call) (call : Call) (channel : Channel) :
    askedLevel (history ++ [call]) channel =
      ((call.own? channel).or call.global?).getD (askedLevel history channel) := by
  unfold askedLevel
  rw [List.reverse_append, List.reverse_singleton, List.singleton_append]
  cases hglobal : call.global? with
  | some level => simp [hglobal, Call.own?_eq_none hglobal]
  | none =>
    cases hown : call.own? channel with
    | some level => simp [hglobal, hown]
    | none => simp [hglobal, hown]

namespace Registry

variable {opens : Text → Bool} {r : Registry} {name : Text} {channel : Channel}

theorem name_injective {channel other : Channel} (h : channel.name = other.name) :
    channel = other := by
  revert h
  cases channel <;> cases other <;> decide

/-- The level of the journal which was last made for a channel. -/
def level (r : Registry) (channel : Channel) : Level :=
  (r.journals ⟨r.openings, channel⟩).level

/-! ## Other levels for registered journals -/

/-- Other levels change the journals alone. -/
theorem exists_foldl_relevelNamed (r : Registry) (entries : List (Text × Level)) :
    ∃ journals, entries.foldl relevelNamed r = { r with journals := journals } := by
  induction entries generalizing r with
  | nil => exact ⟨r.journals, rfl⟩
  | cons entry rest ih =>
    obtain ⟨journals, h⟩ := ih (r.relevelNamed entry)
    exact ⟨journals, h⟩

/-- Giving a level to selected journals changes theirs and no other. -/
theorem level_relevel (hopen : r.isOpen) (selected : Channel → Bool) (level : Level)
    (channel : Channel) :
    (r.relevel selected level).level channel =
      if selected channel then level else r.level channel := by
  unfold Registry.level relevel registered?
  by_cases hselected : selected channel <;> simp [hopen, hselected]

/-- Each journal gets the level which some entries have under its name. -/
theorem level_foldl_relevelNamed {entries : List (Text × Level)} (hopen : r.isOpen)
    (hunique : (entries.map Prod.fst).Nodup) (channel : Channel) :
    (entries.foldl relevelNamed r).level channel =
      (entries.lookup channel.name).getD (r.level channel) := by
  induction entries generalizing r with
  | nil => rfl
  | cons entry rest ih =>
    obtain ⟨name, level⟩ := entry
    obtain ⟨hfresh, hrest⟩ := List.nodup_cons.mp hunique
    have hrelevel : (r.relevelNamed (name, level)).level channel =
        if channel.name == name then level else r.level channel :=
      level_relevel hopen _ level channel
    have hfold := ih (r := r.relevelNamed (name, level)) hopen hrest
    rw [List.foldl_cons, hfold, hrelevel, List.lookup_cons]
    by_cases hname : channel.name = name
    · subst hname
      have hnone : rest.lookup channel.name = none :=
        List.lookup_eq_none_iff.mpr fun other hother ↦ bne_iff_ne.mpr fun hname ↦
          hfresh (List.mem_map.mpr ⟨other, hother, hname.symm⟩)
      rw [hnone, beq_self_eq_true]
      rfl
    · rw [beq_false_of_ne hname]
      rfl

/-! ## What is asked for -/

/-- Asking for the level of one journal changes nothing for another. -/
theorem levelOf_ask (r : Registry) (name other : Text) (level : Level) :
    (r.ask name level).levelOf other = if other == name then level else r.levelOf other := by
  rw [levelOf, ask, List.lookup_cons]
  split_ifs with h
  · rw [h]
    rfl
  · rw [eq_false_of_ne_true h, lookup_filter (by simpa using h)]
    rfl

theorem unique_ask (h : (r.ownLevels.map Prod.fst).Nodup) (name : Text) (level : Level) :
    ((r.ask name level).ownLevels.map Prod.fst).Nodup := by
  refine List.nodup_cons.mpr ⟨fun hmem ↦ ?_, h.sublist (List.filter_sublist.map Prod.fst)⟩
  obtain ⟨entry, hentry, hname⟩ := List.mem_map.mp hmem
  exact bne_iff_ne.mp (List.mem_filter.mp hentry).2 hname

/-! ## Opening -/

/-- No file keeps the journals from being opened. -/
def Writable (opens : Text → Bool) (r : Registry) : Prop :=
  r.file = [] ∨ opens r.file

/-- Two states of the registry between which nothing was asked for or taken hold of. -/
structure Keeps (r s : Registry) : Prop where
  globalLevel : s.globalLevel = r.globalLevel
  ownLevels : s.ownLevels = r.ownLevels
  held : s.held = r.held
  file : s.file = r.file

theorem Keeps.refl (r : Registry) : Keeps r r :=
  ⟨rfl, rfl, rfl, rfl⟩

theorem Keeps.levelOf {s : Registry} (h : Keeps r s) : s.levelOf = r.levelOf := by
  funext name
  rw [Registry.levelOf, Registry.levelOf, h.globalLevel, h.ownLevels]

/-- Journals that are opened anew are open, and keep what was asked for. -/
theorem renew_keeps (r : Registry) : Keeps r r.renew ∧ r.renew.isOpen := by
  obtain ⟨journals, h⟩ :=
    exists_foldl_relevelNamed (r.register.relevel (fun _ ↦ true) r.globalLevel) r.ownLevels
  rw [renew, h]
  exact ⟨⟨rfl, rfl, rfl, rfl⟩, rfl⟩

/-- Journals that are opened anew have the levels they are to have. -/
theorem level_renew (hunique : (r.ownLevels.map Prod.fst).Nodup) (channel : Channel) :
    r.renew.level channel = r.levelOf channel.name := by
  rw [renew, level_foldl_relevelNamed rfl hunique, level_relevel rfl]
  rfl

theorem reopen_of_isOpen (hopen : r.isOpen) : r.reopen opens = r := by
  rw [reopen, open?, if_pos hopen]

/-- Closed journals open anew if a file does not keep them from it. -/
theorem open?_of_writable (hclosed : ¬ r.isOpen) (hwritable : r.Writable opens) :
    r.open? opens = .ok r.renew := by
  rw [open?, if_neg hclosed, if_neg]
  rcases hwritable with hempty | hopens
  · simp [hempty]
  · simp [hopens]

theorem reopen_of_not_isOpen (hclosed : ¬ r.isOpen) (hwritable : r.Writable opens) :
    r.reopen opens = r.renew := by
  rw [reopen, open?_of_writable hclosed hwritable]

/-- A file that cannot be written leaves the journals as they are. -/
theorem open?_of_not_writable (hclosed : ¬ r.isOpen) (hwritable : ¬ r.Writable opens) :
    r.open? opens = .error (.unopenable r.file) := by
  obtain ⟨hfile, hopens⟩ := not_or.mp hwritable
  rw [open?, if_neg hclosed, if_pos]
  simp [hfile, hopens]

/-- Opening changes neither what was asked for nor what is held. -/
theorem keeps_of_open? {s : Registry} (h : r.open? opens = .ok s) : Keeps r s := by
  unfold open? at h
  split_ifs at h with hopen
  · cases h
    exact .refl r
  · cases h
    exact (renew_keeps r).1

theorem reopen_keeps (opens : Text → Bool) (r : Registry) : Keeps r (r.reopen opens) := by
  unfold reopen
  split
  · exact keeps_of_open? ‹_›
  · exact .refl r

theorem isOpen_reopen (hwritable : r.Writable opens) : (r.reopen opens).isOpen := by
  by_cases hopen : r.isOpen
  · rwa [reopen_of_isOpen hopen]
  · rw [reopen_of_not_isOpen hopen hwritable]
    exact (renew_keeps r).2

/-- A journal with the level it is to have keeps it when the journals are reopened. -/
theorem level_reopen (hwritable : r.Writable opens) (hunique : (r.ownLevels.map Prod.fst).Nodup)
    (hlevel : r.isOpen → r.level channel = r.levelOf channel.name) :
    (r.reopen opens).level channel = r.levelOf channel.name := by
  by_cases hopen : r.isOpen
  · rw [reopen_of_isOpen hopen, hlevel hopen]
  · rw [reopen_of_not_isOpen hopen hwritable, level_renew hunique]

/-! ## Closing -/

theorem not_isOpen_close (r : Registry) : ¬ r.close.isOpen := by
  unfold close
  split_ifs with hopen
  · exact not_false
  · exact hopen

/-- Closing takes no notice of the file. -/
theorem close_withFile (r : Registry) (file : Text) :
    ({ r with file := file } : Registry).close = { r.close with file := file } := by
  unfold close
  split_ifs <;> rfl

/-! ## What holds at all times -/

/-- The registry can be opened, asks no journal twice, and holds nothing but what is registered. -/
structure Orderly (opens : Text → Bool) (r : Registry) : Prop where
  writable : r.Writable opens
  unique : (r.ownLevels.map Prod.fst).Nodup
  held : ∀ channel handle, r.held channel = some handle → r.registered? channel = some handle

/-- Besides, open journals have the levels they are to have. -/
structure Settled (opens : Text → Bool) (r : Registry) : Prop extends Orderly opens r where
  level : r.isOpen → ∀ channel, r.level channel = r.levelOf channel.name

theorem settled_empty (opens : Text → Bool) : Settled opens {} where
  writable := .inl rfl
  unique := List.nodup_nil
  held := nofun
  level := nofun

namespace Orderly

theorem eq_of_held {handle : Handle} (h : Orderly opens r) (hheld : r.held channel = some handle) :
    r.isOpen ∧ handle = ⟨r.openings, channel⟩ := by
  have hregistered := h.held channel handle hheld
  unfold registered? at hregistered
  split_ifs at hregistered with hopen
  exact ⟨hopen, (Option.some.inj hregistered).symm⟩

/-- Nothing is held of journals that are closed. -/
theorem held_eq_none (h : Orderly opens r) (hclosed : ¬ r.isOpen) (channel : Channel) :
    r.held channel = none := by
  cases hheld : r.held channel with
  | none => rfl
  | some handle => exact (hclosed (h.eq_of_held hheld).1).elim

theorem reopen (h : Orderly opens r) : Orderly opens (r.reopen opens) := by
  by_cases hopen : r.isOpen
  · rwa [reopen_of_isOpen hopen]
  have hkeeps := reopen_keeps opens r
  refine ⟨?_, hkeeps.ownLevels ▸ h.unique, fun channel handle hheld ↦ ?_⟩
  · rw [Writable, hkeeps.file]
    exact h.writable
  · rw [hkeeps.held, h.held_eq_none hopen] at hheld
    cases hheld

/-- Other levels settle the journals where they give every one of them what it is to have. -/
theorem settled_relevel {selected : Channel → Bool} {level : Level} (h : Orderly opens r)
    (hopen : r.isOpen)
    (hlevel : ∀ channel,
      (if selected channel then level else r.level channel) = r.levelOf channel.name) :
    Settled opens (r.relevel selected level) where
  writable := h.writable
  unique := h.unique
  held := h.held
  level := fun _ channel ↦ (level_relevel hopen selected level channel).trans (hlevel channel)

end Orderly

namespace Settled

theorem reopen (h : Settled opens r) : Settled opens (r.reopen opens) where
  toOrderly := h.toOrderly.reopen
  level := fun _ channel ↦ by
    rw [level_reopen h.writable h.unique fun hopen ↦ h.level hopen channel,
      (reopen_keeps opens r).levelOf]

/-- Closing lets go of everything. -/
theorem close (h : Settled opens r) : Settled opens r.close := by
  unfold Registry.close
  split_ifs
  · exact ⟨⟨h.writable, h.unique, nofun⟩, nofun⟩
  · exact h

/-- Another file that can be written disturbs nothing. -/
theorem withFile {file : Text} (h : Settled opens r) (hwritable : file = [] ∨ opens file) :
    Settled opens { r with file := file } :=
  ⟨⟨hwritable, h.unique, h.held⟩, h.level⟩

/-- A call for all journals leaves the registry settled. -/
theorem setLevel_all (h : Settled opens r) (level : Level) :
    Settled opens (r.setLevel opens level none) := by
  let asked := r.askAll level
  have horderly : Orderly opens asked := ⟨h.writable, List.nodup_nil, h.held⟩
  change Settled opens ((asked.reopen opens).relevel (fun _ ↦ true) level)
  refine horderly.reopen.settled_relevel (isOpen_reopen h.writable) fun channel ↦ ?_
  rw [(reopen_keeps opens asked).levelOf]
  rfl

/-- A call for one journal leaves the registry settled. -/
theorem setLevel_one (h : Settled opens r) (level : Level) (name : Text) :
    Settled opens (r.setLevel opens level (some name)) := by
  let asked := r.ask name level
  have horderly : Orderly opens asked := ⟨h.writable, unique_ask h.unique name level, h.held⟩
  change Settled opens ((asked.reopen opens).relevel (fun channel ↦ channel.name == name) level)
  refine horderly.reopen.settled_relevel (isOpen_reopen h.writable) fun channel ↦ ?_
  have hasked := levelOf_ask r name channel.name level
  rw [(reopen_keeps opens asked).levelOf, hasked]
  split_ifs with hname
  · rfl
  · rw [level_reopen (r := asked) h.writable horderly.unique fun hopen ↦ ?_, hasked, if_neg hname]
    rw [hasked, if_neg hname]
    exact h.level hopen channel

theorem setLevel (h : Settled opens r) (level : Level) (name? : Option Text) :
    Settled opens (r.setLevel opens level name?) :=
  match name? with
  | none => h.setLevel_all level
  | some name => h.setLevel_one level name

/-- What a part of the library gets hold of is its journal, at the level this is to have. -/
theorem hold (h : Settled opens r) (channel : Channel) :
    Settled opens (r.hold opens channel).1 ∧ ∃ handle, (r.hold opens channel).2 = some handle ∧
      ((r.hold opens channel).1.journals handle).level = r.levelOf channel.name := by
  unfold Registry.hold
  cases hheld : r.held channel with
  | some handle =>
    obtain ⟨hopen, rfl⟩ := h.eq_of_held hheld
    exact ⟨h, _, rfl, h.level hopen channel⟩
  | none =>
    have hreopen := h.reopen
    have hopen := isOpen_reopen h.writable
    have hregistered : (r.reopen opens).registered? channel =
        some ⟨(r.reopen opens).openings, channel⟩ := if_pos hopen
    refine ⟨⟨⟨hreopen.writable, hreopen.unique, fun other handle hother ↦ ?_⟩, hreopen.level⟩,
      _, hregistered, ?_⟩
    · dsimp only at hother
      split_ifs at hother with hchannel
      · rwa [beq_iff_eq.mp hchannel]
      · exact hreopen.held other handle hother
    · exact (hreopen.level hopen channel).trans
        (congrFun (reopen_keeps opens r).levelOf channel.name)

theorem write (h : Settled opens r) (message : Message) :
    Settled opens (r.write opens message).1 := by
  unfold Registry.write
  split_ifs
  · exact h
  · exact (h.hold message.channel).1

theorem setFormat (h : Settled opens r) (label : Text) (timestamps : Bool) :
    Settled opens (r.setFormat opens label timestamps) :=
  ⟨⟨h.reopen.writable, h.reopen.unique, h.reopen.held⟩, h.reopen.level⟩

theorem setFile (h : Settled opens r) (file : Text) :
    Settled opens (r.setFile opens file).1 := by
  have hsettled := h.close
  have hclosed := not_isOpen_close r
  unfold Registry.setFile
  rw [close_withFile]
  generalize r.close = closed at hsettled hclosed
  replace hclosed : ¬ ({ closed with file := file } : Registry).isOpen := hclosed
  dsimp only
  by_cases hwritable : ({ closed with file := file } : Registry).Writable opens
  · rw [open?_of_writable hclosed hwritable, ← reopen_of_not_isOpen hclosed hwritable]
    exact (hsettled.withFile hwritable).reopen
  · rw [open?_of_not_writable hclosed hwritable]
    -- Nothing but the console is left to write to.
    exact (hsettled.withFile (.inl rfl)).close.reopen

/-- Every call leaves the places agreeing in which levels are kept. -/
theorem perform (h : Settled opens r) (call : Call) : Settled opens (call.perform opens r) := by
  cases call with
  | opening => exact h.reopen
  | closing => exact h.close
  | setLevel level channel? => exact h.setLevel level (channel?.map Channel.name)
  | write message => exact h.write message
  | setFormat label timestamps => exact h.setFormat label timestamps
  | setFile file => exact h.setFile file

end Settled

/-! ## Histories -/

/-- What was asked for survives closing. -/
theorem levelOf_close (r : Registry) : r.close.levelOf = r.levelOf := by
  unfold close
  split_ifs <;> rfl

theorem levelOf_hold (opens : Text → Bool) (r : Registry) (channel : Channel) :
    (r.hold opens channel).1.levelOf = r.levelOf := by
  unfold hold
  split
  · rfl
  · exact (reopen_keeps opens r).levelOf

theorem levelOf_write (opens : Text → Bool) (r : Registry) (message : Message) :
    (r.write opens message).1.levelOf = r.levelOf := by
  unfold write
  split_ifs
  · rfl
  · exact levelOf_hold opens r message.channel

theorem levelOf_setFile (opens : Text → Bool) (r : Registry) (file : Text) :
    (r.setFile opens file).1.levelOf = r.levelOf := by
  have hclose := levelOf_close r
  unfold setFile
  rw [close_withFile]
  generalize r.close = closed at hclose
  dsimp only
  split
  next opened hopened => exact (keeps_of_open? hopened).levelOf.trans hclose
  next => exact (reopen_keeps opens _).levelOf.trans ((levelOf_close _).trans hclose)

/-- A call for one journal counts for its name alone, one for all journals counts for all. -/
theorem levelOf_setLevel (opens : Text → Bool) (r : Registry) (level : Level)
    (name? : Option Text) (name : Text) :
    (r.setLevel opens level name?).levelOf name =
      match name? with
      | some other => if name == other then level else r.levelOf name
      | none => level := by
  cases name? with
  | some other =>
    exact (congrFun (reopen_keeps opens (r.ask other level)).levelOf name).trans
      (levelOf_ask r other name level)
  | none => exact congrFun (reopen_keeps opens (r.askAll level)).levelOf name

/-- No call but one for a level changes which levels the journals are to have. -/
theorem levelOf_perform (r : Registry) (call : Call) (channel : Channel) :
    (call.perform opens r).levelOf channel.name =
      ((call.own? channel).or call.global?).getD (r.levelOf channel.name) := by
  cases call with
  | opening => exact congrFun (reopen_keeps opens r).levelOf channel.name
  | closing => exact congrFun (levelOf_close r) channel.name
  | setLevel level channel? =>
    refine (levelOf_setLevel opens r level (channel?.map Channel.name) channel.name).trans ?_
    cases channel? with
    | none => rfl
    | some other =>
      by_cases hother : other = channel
      · simp [Call.own?, Call.global?, hother]
      · have hname : channel.name ≠ other.name := fun h ↦ hother (name_injective h).symm
        simp [Call.own?, Call.global?, hother, hname]
  | write message => exact congrFun (levelOf_write opens r message) channel.name
  | setFormat label timestamps => exact congrFun (reopen_keeps opens r).levelOf channel.name
  | setFile file => exact congrFun (levelOf_setFile opens r file) channel.name

/-- After any history, all places agree in which levels are kept. -/
theorem settled_after (opens : Text → Bool) (history : List Call) :
    Settled opens (after opens history) := by
  induction history using List.reverseRecOn with
  | nil => exact settled_empty opens
  | append_singleton history call ih =>
    rw [after, List.foldl_append]
    exact ih.perform call

/-- The levels which the journals are to have are the ones that the history asks for. -/
theorem levelOf_after (opens : Text → Bool) (history : List Call) (channel : Channel) :
    (after opens history).levelOf channel.name = askedLevel history channel := by
  induction history using List.reverseRecOn with
  | nil => rfl
  | append_singleton history call ih =>
    rw [askedLevel_append, ← ih, after, List.foldl_append]
    exact levelOf_perform (after opens history) call channel

/-- A message of a part of the library is kept if it is as severe as the level asks that its journal
is to have. -/
theorem Settled.write_keeps {message : Message} (h : Settled opens r)
    (hchannel : message.channel ≠ .default) :
    (r.write opens message).2 = (r.levelOf message.channel.name).admits message.level := by
  obtain ⟨-, handle, hheld, hlevel⟩ := h.hold message.channel
  unfold Registry.write
  rw [beq_false_of_ne hchannel, ← hlevel]
  dsimp only
  rw [if_neg Bool.false_ne_true, hheld]

end Registry

open Registry in
/-- After any history of calls, a journal has the level that was asked for last; this is what
decides which messages of the library are kept; and no part of it holds on to a journal that is
registered no more. -/
theorem heeds_history (opens : Text → Bool) (history : List Call) :
    (∀ channel, (after opens history).levelOf channel.name = askedLevel history channel) ∧
      (∀ message, message.channel ≠ .default →
        (((after opens history).write opens message).2 ↔
          message.level.number ≤ ((after opens history).levelOf message.channel.name).number)) ∧
      ∀ channel handle, (after opens history).held channel = some handle →
        (after opens history).registered? channel = some handle := by
  have hsettled := settled_after opens history
  refine ⟨levelOf_after opens history, fun message hchannel ↦ ?_, hsettled.held⟩
  rw [hsettled.write_keeps hchannel, Level.admits, decide_eq_true_iff]

/-- A journal that was closed behind the part of the library which held it. -/
theorem heeds_history_across_closing :
    let history : List Call := [.setLevel .error none, .setLevel .trace (some .check),
      .write ⟨.info, .check, "before"⟩, .closing]
    let r := after (fun _ ↦ true) history
    (∀ channel, r.levelOf channel.name = askedLevel history channel) ∧
      r.levelOf Channel.check.name = .trace ∧ r.levelOf Channel.dump.name = .error ∧
      (r.write (fun _ ↦ true) ⟨.debug, .check, "after"⟩).2 ∧
      ¬ (r.write (fun _ ↦ true) ⟨.warning, .dump, "after"⟩).2 := by
  intro history r
  obtain ⟨hlevel, hwrite, -⟩ := heeds_history (fun _ ↦ true) history
  have hcheck : r.levelOf Channel.check.name = .trace := hlevel .check
  have hdump : r.levelOf Channel.dump.name = .error := hlevel .dump
  refine ⟨hlevel, hcheck, hdump, ?_, ?_⟩
  · rw [hwrite ⟨.debug, .check, "after"⟩ (by decide), hcheck]
    decide
  · rw [hwrite ⟨.warning, .dump, "after"⟩ (by decide), hdump]
    decide

end Discrepancy.Journal
