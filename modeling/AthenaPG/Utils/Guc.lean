import Mathlib.Tactic

/-!
Transactional assignments to configuration variables
(`src/backend/utils/misc/guc.c`: `push_old_value`, `AtEOXact_GUC`).

Each variable has a sparse stack of entries, one for each nest level that assigned
to it.  The reference model keeps for every level the pair of session value and
active value at its entry, and what the level did.

* `Tracks`: what the stack of a variable says about the reference model;
* `tracks_assign`, `tracks_enter`, `tracks_exit`: one step of a run;
* `popEntries_popEntries`: leaving several levels at once is leaving them one by one;
* **`guc_refines`**: in every properly nested run every variable has the active
  value of the reference model.

Hooks and the reports to the client are left out.
-/

namespace AthenaPG

/-! ## The variables and their stacks -/

/-- `GucAction`: plain `SET`, `SET LOCAL`, and the `SET` clause of a function. -/
inductive GucAction
  | actionSet
  | actionLocal
  | actionSave
  deriving DecidableEq, Repr

inductive GucStackState
  | gucSave
  | gucSet
  | gucLocal
  | gucSetLocal
  deriving DecidableEq, Repr

inductive GucSource
  | default
  | dynamicDefault
  | envVar
  | file
  | argv
  | global
  | database
  | user
  | databaseUser
  | client
  | override
  | interactive
  | test
  | session
  deriving DecidableEq, Repr

inductive GucContext
  | internal
  | postmaster
  | sighup
  | suBackend
  | backend
  | suset
  | userset
  deriving DecidableEq, Repr

/-- `GucStack`.  A new entry is zeroed: `masked` counts in state `GUC_SET_LOCAL`
only. -/
structure GucStack (V : Type) where
  nestLevel : Nat
  state : GucStackState
  source : GucSource
  scontext : GucContext
  maskedScontext : GucContext
  srole : BitVec 32
  maskedSrole : BitVec 32
  prior : V
  masked : V

/-- `config_generic`, with the current value; `stack` is the chain of `prev` links. -/
structure ConfigGeneric (V : Type) where
  value : V
  source : GucSource
  scontext : GucContext
  srole : BitVec 32
  stack : List (GucStack V)

section Variable

variable {V : Type}

variable (nestLevel : Nat)

variable (action : GucAction)

/-- The entry that `push_old_value` pushes. -/
def newEntry [Inhabited V] (gconf : ConfigGeneric V) : GucStack V where
  nestLevel := nestLevel
  state := match action with
    | .actionSet => .gucSet
    | .actionLocal => .gucLocal
    | .actionSave => .gucSave
  source := gconf.source
  scontext := gconf.scontext
  maskedScontext := .internal
  srole := gconf.srole
  maskedSrole := 0
  prior := gconf.value
  masked := default

def adjustEntry (gconf : ConfigGeneric V) (entry : GucStack V) : GucStack V := match action with
  | .actionSet => { entry with state := .gucSet }
  | .actionLocal =>
    -- SET followed by SET LOCAL, remember SET's value
    if entry.state = .gucSet then
      { entry with
        maskedScontext := gconf.scontext
        maskedSrole := gconf.srole
        masked := gconf.value
        state := .gucSetLocal }
    else entry
  | .actionSave => entry

/-- `push_old_value`, with `GUCNestLevel`. -/
def pushOldValue [Inhabited V]
    (gconf : ConfigGeneric V) : ConfigGeneric V :=
  if nestLevel = 0 then gconf
  else
    match gconf.stack with
    | [] => { gconf with stack := [newEntry nestLevel action gconf] }
    | entry :: prev =>
      if nestLevel ≤ entry.nestLevel then
        { gconf with stack := adjustEntry action gconf entry :: prev }
      else { gconf with stack := newEntry nestLevel action gconf :: entry :: prev }

/-- The assignment of `set_config_option`: the old value is pushed first. -/
def setConfigOption [Inhabited V] (newval : V)
    (source : GucSource) (context : GucContext) (srole : BitVec 32)
    (gconf : ConfigGeneric V) : ConfigGeneric V :=
  { pushOldValue nestLevel action gconf with
    value := newval
    source := source
    scontext := context
    srole := srole }

def restorePrior (gconf : ConfigGeneric V) (entry : GucStack V) (prev : List (GucStack V)) :
    ConfigGeneric V :=
  { gconf with
    value := entry.prior
    source := entry.source
    scontext := entry.scontext
    srole := entry.srole
    stack := prev }

def restoreMasked (gconf : ConfigGeneric V) (entry : GucStack V) (prev : List (GucStack V)) :
    ConfigGeneric V :=
  { gconf with
    value := entry.masked
    source := .session
    scontext := entry.maskedScontext
    srole := entry.maskedSrole
    stack := prev }

def mergeEntry (entry prev : GucStack V) : GucStack V := match entry.state with
  | .gucSave => prev
  | .gucSet => { prev with state := .gucSet }
  | .gucLocal =>
    if prev.state = .gucSet then
      { prev with
        maskedScontext := entry.scontext
        maskedSrole := entry.srole
        masked := entry.prior
        state := .gucSetLocal }
    else prev
  | .gucSetLocal =>
    { prev with
      maskedScontext := entry.maskedScontext
      maskedSrole := entry.maskedSrole
      masked := entry.masked
      state := .gucSetLocal }

/-- The body of the loop of `AtEOXact_GUC` for the top entry of a stack. -/
def popEntry (isCommit : Bool) (gconf : ConfigGeneric V) (entry : GucStack V)
    (prev : List (GucStack V)) : ConfigGeneric V :=
  if isCommit = false then restorePrior gconf entry prev
  else if entry.state = .gucSave then restorePrior gconf entry prev
  else if entry.nestLevel = 1 then
    match entry.state with
    | .gucSetLocal => restoreMasked gconf entry prev
    | .gucSet => { gconf with stack := prev }
    | _ => restorePrior gconf entry prev
  else
    match prev with
    | [] => { gconf with stack := [{ entry with nestLevel := entry.nestLevel - 1 }] }
    | below :: rest =>
      if below.nestLevel < entry.nestLevel - 1 then
        { gconf with stack := { entry with nestLevel := entry.nestLevel - 1 } :: below :: rest }
      else { gconf with stack := mergeEntry entry below :: rest }

def stackWeight (stack : List (GucStack V)) : Nat := (stack.map fun e => e.nestLevel + 1).sum

theorem mergeEntry_nestLevel (entry prev : GucStack V) :
    (mergeEntry entry prev).nestLevel = prev.nestLevel := by
  unfold mergeEntry
  split <;> try rfl
  split <;> rfl

theorem stackWeight_popEntry (cm : Bool) (gconf : ConfigGeneric V) {entry : GucStack V}
    (prev : List (GucStack V)) (h : 0 < entry.nestLevel) :
    stackWeight (popEntry cm gconf entry prev).stack < stackWeight (entry :: prev) := by
  unfold popEntry
  split
  · simp [restorePrior, stackWeight]
  split
  · simp [restorePrior, stackWeight]
  split
  · split <;> simp [restorePrior, restoreMasked, stackWeight]
  split
  · simp [stackWeight]
    omega
  split
  · simp [stackWeight]
    omega
  · simp [stackWeight, mergeEntry_nestLevel]

/-- The loop of `AtEOXact_GUC` for one variable, `outer` being `nestLevel - 1`. -/
def popEntries (isCommit : Bool) (outer : Nat) (gconf : ConfigGeneric V) : ConfigGeneric V :=
  match _hstack : gconf.stack with
  | [] => gconf
  | entry :: prev =>
    if outer < entry.nestLevel then popEntries isCommit outer (popEntry isCommit gconf entry prev)
    else gconf
termination_by stackWeight gconf.stack
decreasing_by
  rw [_hstack]
  exact stackWeight_popEntry isCommit gconf prev (by omega)

end Variable

/-! ## The reference model -/

/-- The value that a `SET` of the session left, and the value in force. -/
structure GucPair (V : Type) where
  session : V
  active : V

/-- What a level did to a variable: nothing, only `SAVE` and `SET LOCAL` over it,
`SET LOCAL`, or `SET`. -/
inductive GucMode
  | untouched
  | saved
  | locally
  | assigned
  deriving DecidableEq, Repr

/-- A level of the reference model: the pair at its entry, and what it did since. -/
structure GucFrame (V : Type) where
  entry : GucPair V
  mode : GucMode

/-- The reference model of one variable: the levels, innermost first, and the
current pair. -/
structure GucReference (V : Type) where
  levels : List (GucFrame V)
  current : GucPair V

open GucReference

namespace GucMode

def act : GucAction → GucMode → GucMode
  | .actionSet, _ => .assigned
  | .actionLocal, .untouched => .locally
  | .actionLocal, mode => mode
  | .actionSave, .untouched => .saved
  | .actionSave, mode => mode

/-- What the parent did, after a level that ended has handed its pair down. -/
def handDown : GucMode → GucMode → GucMode
  | .assigned, parent => parent.act .actionSet
  | .locally, parent => parent.act .actionLocal
  | _, parent => parent

end GucMode

namespace GucReference

variable {V : Type}

/-- `SET` replaces both values, `SET LOCAL` and `SAVE` the active one. -/
def assign (action : GucAction) (value : V) (r : GucReference V) : GucReference V where
  levels := match r.levels with
    | [] => []
    | frame :: levels => { frame with mode := frame.mode.act action } :: levels
  current := match action with
    | .actionSet => ⟨value, value⟩
    | _ => { r.current with active := value }

def enter (r : GucReference V) : GucReference V :=
  { r with levels := ⟨r.current, .untouched⟩ :: r.levels }

/-- The innermost level ends.  An abort, and a level that only did `SAVE`, restore
the pair at its entry; the end of the main level makes the session value active; any
other level hands its pair to its parent. -/
def exit (isCommit : Bool) (r : GucReference V) : GucReference V := match r.levels with
  | [] => r
  | frame :: levels =>
    if isCommit = false ∨ frame.mode = .saved then ⟨levels, frame.entry⟩
    else
      match levels with
      | [] => ⟨[], ⟨r.current.session, r.current.session⟩⟩
      | parent :: outer =>
        ⟨{ parent with mode := frame.mode.handDown parent.mode } :: outer, r.current⟩

/-- The levels from `nestLevel` on end, innermost first. -/
def exitTo (isCommit : Bool) (nestLevel : Nat) (r : GucReference V) : GucReference V :=
  (exit isCommit)^[r.levels.length + 1 - nestLevel] r

end GucReference

/-! ## What the stack tracks -/

/-- The top entry of a level against the pairs at its entry and now. -/
def EntryTracks {V : Type} (e : GucStack V) (mode : GucMode) (entry current : GucPair V) : Prop :=
  match e.state with
  | .gucSave => mode = .saved ∧ current.session = entry.session
  | .gucLocal => mode = .locally ∧ current.session = entry.session
  | .gucSet => mode = .assigned ∧ current.session = current.active
  | .gucSetLocal => mode = .assigned ∧ current.session = e.masked

/-- **The stack of a variable tracks the reference model.**  Outside all levels the
session value is active; a level that did nothing has no entry; any other has one,
with the value that was active before. -/
inductive Tracks {V : Type} : List (GucFrame V) → GucPair V → List (GucStack V) → Prop
  | outside (v : V) : Tracks [] ⟨v, v⟩ []
  | untouched {levels : List (GucFrame V)} {current : GucPair V} {stack : List (GucStack V)}
      (h : Tracks levels current stack) : Tracks (⟨current, .untouched⟩ :: levels) current stack
  | touched {levels : List (GucFrame V)} {entry current : GucPair V} {stack : List (GucStack V)}
      {e : GucStack V} {mode : GucMode} (h : Tracks levels entry stack)
      (hlevel : e.nestLevel = levels.length + 1) (hprior : e.prior = entry.active)
      (hstate : EntryTracks e mode entry current) :
      Tracks (⟨entry, mode⟩ :: levels) current (e :: stack)

section Tracking

variable {V : Type}

theorem Tracks.head_le {ls : List (GucFrame V)} {current : GucPair V}
    {stack : List (GucStack V)} (h : Tracks ls current stack) :
    ∀ e ∈ stack.head?, e.nestLevel ≤ ls.length := by
  induction h with
  | outside v => simp
  | untouched _ ih => exact fun e he => (ih e he).trans (Nat.le_succ _)
  | touched _ hl _ _ _ => simp [hl]

/-- A variable with its value and its stack, against its reference model. -/
structure VariableTracks (gconf : ConfigGeneric V) (r : GucReference V) : Prop where
  value : gconf.value = r.current.active
  stack : Tracks r.levels r.current gconf.stack

variable {gconf : ConfigGeneric V} {e : GucStack V} {prev : List (GucStack V)} {r : GucReference V}
  {outer : Nat}

theorem pushOldValue_of_head_lt [Inhabited V] {nestLevel : Nat} (hp : nestLevel ≠ 0)
    (action : GucAction) (h : ∀ e ∈ gconf.stack.head?, e.nestLevel < nestLevel) :
    (pushOldValue nestLevel action gconf).stack =
      newEntry nestLevel action gconf :: gconf.stack := by
  unfold pushOldValue
  rw [if_neg hp]
  split
  next hn => simp [hn]
  next e prev hc =>
    have hlt := h e (by simp [hc])
    rw [if_neg (by omega)]
    simp [hc]

theorem pushOldValue_of_head_eq [Inhabited V] {nestLevel : Nat} (hp : nestLevel ≠ 0)
    (action : GucAction) (hs : gconf.stack = e :: prev) (he : e.nestLevel = nestLevel) :
    (pushOldValue nestLevel action gconf).stack = adjustEntry action gconf e :: prev := by
  unfold pushOldValue
  rw [if_neg hp]
  simp only [hs]
  rw [if_pos (by omega)]

/-- A step is properly nested for one variable: `SET LOCAL` and `SAVE` need a level,
and `SAVE` follows no `SET` or `SET LOCAL` of its level. -/
def ProperAssign (action : GucAction) (r : GucReference V) : Prop := match action with
  | .actionSet => True
  | .actionLocal => r.levels ≠ []
  | .actionSave => ∃ frame levels, r.levels = frame :: levels ∧
      (frame.mode = .untouched ∨ frame.mode = .saved)

/-- An assignment keeps the stack and the reference model together. -/
theorem tracks_assign [Inhabited V] (h : VariableTracks gconf r) (action : GucAction)
    (hp : ProperAssign action r) (new : V) (source : GucSource) (ctx : GucContext)
    (srole : BitVec 32) :
    VariableTracks (setConfigOption r.levels.length action new source ctx srole gconf)
      (r.assign action new) := by
  obtain ⟨ls, current⟩ := r
  obtain ⟨hv, hsta⟩ := h
  refine ⟨by cases action <;> rfl, ?_⟩
  simp only at hv hsta
  change Tracks _ _ (pushOldValue ls.length action gconf).stack
  cases ls with
  | nil =>
    -- outside all levels there is only SET, and nothing is pushed
    generalize ho : gconf.stack = stack at hsta
    cases hsta with
    | outside v =>
      cases action with
      | actionSet =>
        rw [pushOldValue, List.length_nil, if_pos rfl, ho]
        exact .outside new
      | actionLocal => exact absurd rfl hp
      | actionSave =>
        obtain ⟨frame, ls, hlv, _⟩ := hp
        cases hlv
  | cons frame ls =>
    have hps : (frame :: ls).length ≠ 0 := by simp
    generalize ho : gconf.stack = stack at hsta
    cases hsta with
    | untouched hi =>
      have hh := hi.head_le
      rw [pushOldValue_of_head_lt hps action (by
        intro e he
        rw [ho] at he
        exact Nat.lt_succ_of_le (hh e he)), ho]
      refine .touched hi rfl hv ?_
      cases action <;> exact ⟨rfl, rfl⟩
    | @touched _ entry _ prev e mode hi hl hpr hs =>
      rw [pushOldValue_of_head_eq hps action ho hl]
      cases action with
      | actionSet => exact .touched hi hl hpr ⟨rfl, rfl⟩
      | actionLocal =>
        unfold EntryTracks at hs
        cases hst : e.state with
        | gucSet =>
          rw [hst] at hs
          have ha : adjustEntry .actionLocal gconf e = { e with
              maskedScontext := gconf.scontext
              maskedSrole := gconf.srole
              masked := gconf.value
              state := .gucSetLocal } := if_pos hst
          rw [ha]
          refine .touched hi hl hpr ⟨by rw [hs.1]; rfl, ?_⟩
          exact hs.2.trans hv.symm
        | _ =>
          rw [hst] at hs
          have ha : adjustEntry .actionLocal gconf e = e := if_neg (by simp [hst])
          rw [ha]
          refine .touched hi hl hpr ?_
          unfold EntryTracks
          rw [hst]
          exact ⟨by rw [hs.1]; rfl, hs.2⟩
      | actionSave =>
        obtain ⟨_, _, hlv, hm⟩ := hp
        cases hlv
        unfold EntryTracks at hs
        refine .touched hi hl hpr ?_
        change match e.state with
          | .gucSave => _
          | .gucLocal => _
          | .gucSet => _
          | .gucSetLocal => _
        cases hst : e.state with
        | gucSave =>
          rw [hst] at hs
          exact ⟨by rw [hs.1]; rfl, hs.2⟩
        | _ =>
          rw [hst] at hs
          rcases hm with hm | hm <;> cases hm.symm.trans hs.1

/-- Entering a level changes no stack. -/
theorem tracks_enter (h : VariableTracks gconf r) : VariableTracks gconf r.enter :=
  ⟨h.value, .untouched h.stack⟩

/-! ## Leaving a level -/

variable (cm : Bool)

theorem popEntries_of_head_le (h : ∀ e ∈ gconf.stack.head?, e.nestLevel ≤ outer) :
    popEntries cm outer gconf = gconf := by
  rw [popEntries]
  split
  · rfl
  next e prev hs => rw [if_neg (Nat.not_lt.mpr (h e (by simp [hs])))]

theorem popEntries_cons (hs : gconf.stack = e :: prev) (he : outer < e.nestLevel) :
    popEntries cm outer gconf = popEntries cm outer (popEntry cm gconf e prev) := by
  conv_lhs => rw [popEntries]
  split
  next hn =>
    rw [hs] at hn
    cases hn
  next e' prev' hc =>
    rw [hs] at hc
    cases hc
    rw [if_pos he]

/-- Leaving several levels at once is leaving the inner ones first. -/
theorem popEntries_popEntries {inner : Nat} (h : outer ≤ inner) (gconf : ConfigGeneric V) :
    popEntries cm outer (popEntries cm inner gconf) = popEntries cm outer gconf := by
  -- by the weight of the stack, which every turn of the loop makes smaller
  generalize hw : stackWeight gconf.stack = weight
  induction weight using Nat.strong_induction_on generalizing gconf with
  | _ weight ih =>
    cases hs : gconf.stack with
    | nil =>
      have hst : popEntries cm inner gconf = gconf :=
        popEntries_of_head_le cm (by simp [hs])
      rw [hst]
    | cons e prev =>
      by_cases he : inner < e.nestLevel
      · have hl := stackWeight_popEntry cm gconf prev (show 0 < e.nestLevel by omega)
        rw [popEntries_cons cm hs he, popEntries_cons cm hs (by omega)]
        refine ih _ ?_ _ rfl
        rwa [← hw, hs]
      have hst : popEntries cm inner gconf = gconf :=
        popEntries_of_head_le cm (by simpa [hs] using he)
      rw [hst]

theorem entryTracks_mergeEntry {p : GucStack V} {mode pm : GucMode}
    {out entry current : GucPair V} (hs : e.state ≠ .gucSave)
    (hpr : e.prior = entry.active) (he : EntryTracks e mode entry current)
    (hp : EntryTracks p pm out entry) :
    EntryTracks (mergeEntry e p) (mode.handDown pm) out current := by
  unfold EntryTracks at he hp
  cases hst : e.state with
  | gucSave => exact absurd hst hs
  | gucSet =>
    rw [hst] at he
    have hm : mergeEntry e p = { p with state := .gucSet } := by simp [mergeEntry, hst]
    rw [hm, he.1]
    exact ⟨rfl, he.2⟩
  | gucSetLocal =>
    rw [hst] at he
    have hm : mergeEntry e p = { p with
        maskedScontext := e.maskedScontext
        maskedSrole := e.maskedSrole
        masked := e.masked
        state := .gucSetLocal } := by simp [mergeEntry, hst]
    rw [hm, he.1]
    exact ⟨rfl, he.2⟩
  | gucLocal =>
    rw [hst] at he
    cases hps : p.state with
    | gucSet =>
      rw [hps] at hp
      have hm : mergeEntry e p = { p with
          maskedScontext := e.scontext
          maskedSrole := e.srole
          masked := e.prior
          state := .gucSetLocal } := by simp [mergeEntry, hst, hps]
      rw [hm, he.1, hp.1]
      exact ⟨rfl, by rw [he.2, hp.2, ← hpr]⟩
    | _ =>
      rw [hps] at hp
      have hm : mergeEntry e p = p := by simp [mergeEntry, hst, hps]
      rw [hm, he.1, hp.1]
      unfold EntryTracks
      rw [hps]
      exact ⟨rfl, he.2.trans hp.2⟩

theorem tracks_popEntry {ls : List (GucFrame V)} {entry current : GucPair V} {mode : GucMode}
    (hv : gconf.value = current.active) (hi : Tracks ls entry prev)
    (hl : e.nestLevel = ls.length + 1) (hp : e.prior = entry.active)
    (hs : EntryTracks e mode entry current) (cm : Bool) :
    VariableTracks (popEntry cm gconf e prev) (exit cm ⟨⟨entry, mode⟩ :: ls, current⟩) := by
  have hsa : mode = .saved ↔ e.state = .gucSave := by
    unfold EntryTracks at hs
    cases hst : e.state <;> rw [hst] at hs <;> simp [hs.1]
  rw [exit]
  unfold popEntry
  by_cases ha : cm = false
  · rw [if_pos ha]
    simp only [ha, true_or, if_true]
    exact ⟨hp, hi⟩
  by_cases hsv : e.state = .gucSave
  · rw [if_neg ha, if_pos hsv]
    simp only [hsa.mpr hsv, or_true, if_true]
    exact ⟨hp, hi⟩
  have hk : ¬ (cm = false ∨ mode = .saved) := by
    rw [hsa]
    exact not_or.mpr ⟨ha, hsv⟩
  rw [if_neg ha, if_neg hsv]
  simp only [if_neg hk]
  cases ls with
  | nil =>
    rw [if_pos (show e.nestLevel = 1 from hl)]
    cases hi with
    | outside v =>
      unfold EntryTracks at hs
      cases hst : e.state with
      | gucSave => exact absurd hst hsv
      | gucSet =>
        rw [hst] at hs
        exact ⟨hv.trans hs.2.symm, .outside _⟩
      | gucLocal =>
        rw [hst] at hs
        exact ⟨hp.trans hs.2.symm, .outside _⟩
      | gucSetLocal =>
        rw [hst] at hs
        exact ⟨hs.2.symm, .outside _⟩
  | cons parent outer =>
    rw [List.length_cons] at hl
    rw [if_neg (by omega)]
    cases hi with
    | untouched hi =>
      -- the entry becomes one of the level below
      have hh := hi.head_le
      have hsta : Tracks (⟨entry, mode.handDown .untouched⟩ :: outer) current
          ({ e with nestLevel := e.nestLevel - 1 } :: prev) := by
        refine .touched hi (by simp only [hl]; omega) hp ?_
        unfold EntryTracks at hs ⊢
        cases hst : e.state with
        | gucSave => exact absurd hst hsv
        | _ =>
          rw [hst] at hs
          exact ⟨by rw [hs.1]; rfl, hs.2⟩
      cases prev with
      | nil => exact ⟨hv, hsta⟩
      | cons below rest =>
        have hb := hh below rfl
        simp only [show below.nestLevel < e.nestLevel - 1 by omega, if_true]
        exact ⟨hv, hsta⟩
    | @touched _ outerPair _ rest p parentMode hi hpl hpp hps =>
      simp only [show ¬ p.nestLevel < e.nestLevel - 1 by omega, if_false]
      refine ⟨hv, .touched hi ?_ ?_ (entryTracks_mergeEntry hsv hp hs hps)⟩
      · rw [mergeEntry_nestLevel, hpl]
      rw [← hpp]
      unfold mergeEntry
      split <;> try rfl
      split <;> rfl

/-- The end of the innermost level. -/
theorem tracks_exit (h : VariableTracks gconf r) {frame : GucFrame V} {ls : List (GucFrame V)}
    (hl : r.levels = frame :: ls) (cm : Bool) :
    VariableTracks (popEntries cm ls.length gconf) (r.exit cm) := by
  obtain ⟨_, current⟩ := r
  obtain ⟨hv, hs⟩ := h
  simp only at hl hv hs
  subst hl
  generalize ho : gconf.stack = stack at hs
  cases hs with
  | untouched hi =>
    rw [popEntries_of_head_le cm (by rw [ho]; exact hi.head_le)]
    rw [exit]
    by_cases ha : cm = false
    · simp only [ha, true_or, if_true]
      exact ⟨hv, ho ▸ hi⟩
    simp only [ha, reduceCtorEq, or_self, if_false]
    cases ls with
    | nil =>
      cases hi with
      | outside v => exact ⟨hv, ho ▸ .outside v⟩
    | cons parent outer => exact ⟨hv, ho ▸ hi⟩
  | @touched _ entry _ prev e mode hi hlv hpr hst =>
    have hp := tracks_popEntry hv hi hlv hpr hst cm
    have hln : (exit cm ⟨⟨entry, mode⟩ :: ls, current⟩).levels.length = ls.length := by
      rw [exit]
      simp only
      split
      · rfl
      · split <;> rfl
    rw [popEntries_cons cm ho (by omega), popEntries_of_head_le cm]
    · exact hp
    intro e' he'
    exact (hp.stack.head_le e' he').trans hln.le

end Tracking

/-! ## Runs -/

/-- `GUCNestLevel`, the variables, and `guc_stack_list`: the variables with a
nonempty stack. -/
structure GucState (Name V : Type) where
  nestLevel : Nat
  vars : Name → ConfigGeneric V
  stackList : List Name

inductive GucOp (Name V : Type)
  | atStart
  | newNestLevel
  | assign (name : Name) (action : GucAction) (newval : V) (source : GucSource)
      (context : GucContext) (srole : BitVec 32)
  | atEOXact (isCommit : Bool) (nestLevel : Nat)

section Runs

variable {Name V : Type} [DecidableEq Name] [Inhabited V]

/-- `AtEOXact_GUC`: only the variables of `guc_stack_list` are looked at. -/
def atEOXactGUC (isCommit : Bool) (nestLevel : Nat) (s : GucState Name V) : GucState Name V :=
  let vars := fun name =>
    if name ∈ s.stackList then popEntries isCommit (nestLevel - 1) (s.vars name) else s.vars name
  { nestLevel := nestLevel - 1
    vars := vars
    stackList := s.stackList.filter fun name => !(vars name).stack.isEmpty }

/-- The assignment to one variable, which enters `guc_stack_list` with its first
entry. -/
def assignVariable (name : Name) (action : GucAction) (newval : V) (source : GucSource)
    (context : GucContext) (srole : BitVec 32) (s : GucState Name V) : GucState Name V :=
  { s with
    vars := Function.update s.vars name
      (setConfigOption s.nestLevel action newval source context srole (s.vars name))
    stackList :=
      if s.nestLevel ≠ 0 ∧ (s.vars name).stack.isEmpty then name :: s.stackList
      else s.stackList }

def gucStep (s : GucState Name V) : GucOp Name V → GucState Name V
  | .atStart => { s with nestLevel := 1 }
  | .newNestLevel => { s with nestLevel := s.nestLevel + 1 }
  | .assign name action newval source context srole =>
    assignVariable name action newval source context srole s
  | .atEOXact isCommit nestLevel => atEOXactGUC isCommit nestLevel s

def initialGuc (vars : Name → ConfigGeneric V) : GucState Name V where
  nestLevel := 0
  vars := fun name => { vars name with stack := [] }
  stackList := []

omit [Inhabited V] in
def referenceStep (refs : Name → GucReference V) : GucOp Name V → Name → GucReference V
  | .atStart => fun name => (refs name).enter
  | .newNestLevel => fun name => (refs name).enter
  | .assign name action newval _ _ _ =>
    Function.update refs name ((refs name).assign action newval)
  | .atEOXact isCommit nestLevel => fun name => (refs name).exitTo isCommit nestLevel

omit [Inhabited V] in
def initialReference (vars : Name → ConfigGeneric V) (name : Name) : GucReference V :=
  ⟨[], ⟨(vars name).value, (vars name).value⟩⟩

/-- A step that is properly nested at `level`: a transaction starts outside all
levels, others are entered inside it, and those from `nestLevel` on end. -/
def ProperStep (level : Nat) (refs : Name → GucReference V) : GucOp Name V → Prop
  | .atStart => level = 0
  | .newNestLevel => 0 < level
  | .assign name action _ _ _ _ => ProperAssign action (refs name)
  | .atEOXact _ nestLevel => 1 ≤ nestLevel ∧ nestLevel ≤ level

def ProperRun (level : Nat) (refs : Name → GucReference V) : List (GucOp Name V) → Prop
  | [] => True
  | op :: ops =>
    ProperStep level refs op ∧
      ProperRun
        (match op with
        | .atStart => 1
        | .newNestLevel => level + 1
        | .assign _ _ _ _ _ _ => level
        | .atEOXact _ nestLevel => nestLevel - 1)
        (referenceStep refs op) ops

structure SessionTracks (s : GucState Name V) (refs : Name → GucReference V) : Prop where
  levels : ∀ name, (refs name).levels.length = s.nestLevel
  tracks : ∀ name, VariableTracks (s.vars name) (refs name)
  listed : ∀ name, name ∈ s.stackList ↔ (s.vars name).stack ≠ []

omit [DecidableEq Name] [Inhabited V] in
theorem length_exit (cm : Bool) {r : GucReference V} {n : Nat} (h : r.levels.length = n + 1) :
    (r.exit cm).levels.length = n := by
  rw [exit]
  cases hl : r.levels with
  | nil => simp [hl] at h
  | cons frame ls =>
    have hn : ls.length = n := by simpa [hl] using h
    simp only
    split
    · exact hn
    · split <;> exact hn

omit [DecidableEq Name] [Inhabited V] in
theorem tracks_exit_iterate (cm : Bool) {gconf : ConfigGeneric V} {r : GucReference V}
    (h : VariableTracks gconf r) {outer : Nat} (count : Nat)
    (hl : r.levels.length = outer + count) :
    VariableTracks (popEntries cm outer gconf) ((exit cm)^[count] r) ∧
      ((exit cm)^[count] r).levels.length = outer := by
  induction count generalizing gconf r with
  | zero =>
    refine ⟨?_, hl⟩
    have hh : ∀ e ∈ gconf.stack.head?, e.nestLevel ≤ outer := fun e he =>
      (h.stack.head_le e he).trans hl.le
    rw [popEntries_of_head_le cm hh]
    exact h
  | succ count ih =>
    cases hlv : r.levels with
    | nil => simp [hlv] at hl
    | cons frame ls =>
      have hi : ls.length = outer + count := by
        rw [hlv, List.length_cons] at hl
        omega
      have hex := tracks_exit h hlv cm
      rw [Function.iterate_succ_apply,
        ← popEntries_popEntries cm (show outer ≤ ls.length by omega) gconf]
      exact ih hex (length_exit cm (by rw [hl]; rfl))

variable {s : GucState Name V} {refs : Name → GucReference V}

section

variable (h : SessionTracks s refs)
include h

omit [Inhabited V] in
theorem sessionTracks_atEOXact (cm : Bool) {nestLevel : Nat}
    (hp : 1 ≤ nestLevel) (hle : nestLevel ≤ s.nestLevel) :
    SessionTracks (atEOXactGUC cm nestLevel s) (referenceStep refs (.atEOXact cm nestLevel)) := by
  -- a variable that is not in the list has nothing to pop
  have hv : ∀ name, (atEOXactGUC cm nestLevel s).vars name =
      popEntries cm (nestLevel - 1) (s.vars name) := by
    intro name
    simp only [atEOXactGUC]
    split
    · rfl
    next hl =>
      rw [h.listed name, not_not] at hl
      rw [popEntries_of_head_le cm (by simp [hl])]
  have hb : ∀ name, VariableTracks (popEntries cm (nestLevel - 1) (s.vars name))
      ((refs name).exitTo cm nestLevel) ∧
        ((refs name).exitTo cm nestLevel).levels.length = nestLevel - 1 := by
    intro name
    have hln := h.levels name
    exact tracks_exit_iterate cm (h.tracks name) _ (by omega)
  refine ⟨fun name => (hb name).2, fun name => ?_, fun name => ?_⟩
  · rw [hv name]
    exact (hb name).1
  have hl : name ∈ (atEOXactGUC cm nestLevel s).stackList ↔
      name ∈ s.stackList ∧ ((atEOXactGUC cm nestLevel s).vars name).stack ≠ [] := by
    simp [atEOXactGUC, List.mem_filter]
  rw [hl, and_iff_right_of_imp]
  intro hne
  by_contra hn
  have ho := hn
  rw [h.listed name, not_not] at ho
  refine hne ?_
  rw [hv name, popEntries_of_head_le cm (by simp [ho]), ho]

theorem sessionTracks_assign (name : Name) (action : GucAction)
    (new : V) (source : GucSource) (ctx : GucContext) (srole : BitVec 32)
    (hpr : ProperAssign action (refs name)) :
    SessionTracks (assignVariable name action new source ctx srole s)
      (referenceStep refs (.assign name action new source ctx srole)) := by
  have hn := tracks_assign (h.tracks name) action hpr new source ctx srole
  rw [h.levels name] at hn
  have hln : ((refs name).assign action new).levels.length = s.nestLevel := by
    rw [← h.levels name]
    unfold assign
    cases (refs name).levels <;> rfl
  refine ⟨fun other => ?_, fun other => ?_, fun other => ?_⟩
  · by_cases heq : other = name
    · subst heq
      simpa [referenceStep, assignVariable] using hln
    simpa [referenceStep, assignVariable, heq] using h.levels other
  · by_cases heq : other = name
    · subst heq
      simpa [referenceStep, assignVariable] using hn
    simpa [referenceStep, assignVariable, heq] using h.tracks other
  have hl := h.listed other
  by_cases heq : other = name
  · subst heq
    by_cases hz : s.nestLevel = 0
    · simpa [assignVariable, setConfigOption, pushOldValue, hz] using hl
    have hp : (pushOldValue s.nestLevel action (s.vars other)).stack ≠ [] := by
      unfold pushOldValue
      rw [if_neg hz]
      split
      · simp
      · split <;> simp
    cases ho : (s.vars other).stack with
    | nil => simpa [assignVariable, setConfigOption, hz, ho] using hp
    | cons e prev =>
      have hm := hl.mpr (by simp [ho])
      simpa [assignVariable, setConfigOption, ho, hm] using hp
  by_cases hps : s.nestLevel ≠ 0 ∧ (s.vars name).stack.isEmpty
  · simpa [assignVariable, hps.1, hps.2, heq] using hl
  rw [assignVariable]
  simp only [if_neg hps, Function.update_of_ne heq]
  exact hl

theorem sessionTracks_step {op : GucOp Name V} (hp : ProperStep s.nestLevel refs op) :
    SessionTracks (gucStep s op) (referenceStep refs op) := by
  cases op with
  | atStart =>
    have hz := hp
    refine ⟨fun name => ?_, fun name => tracks_enter (h.tracks name), h.listed⟩
    exact congrArg (· + 1) ((h.levels name).trans hz)
  | newNestLevel =>
    refine ⟨fun name => ?_, fun name => tracks_enter (h.tracks name), h.listed⟩
    exact congrArg (· + 1) (h.levels name)
  | assign name action newval source context srole =>
    exact sessionTracks_assign h name action newval source context srole hp
  | atEOXact cm nestLevel => exact sessionTracks_atEOXact h cm hp.1 hp.2

theorem sessionTracks_run {ops : List (GucOp Name V)} (hp : ProperRun s.nestLevel refs ops) :
    SessionTracks (ops.foldl gucStep s) (ops.foldl referenceStep refs) := by
  induction ops generalizing s refs with
  | nil => exact h
  | cons op ops ih =>
    refine ih (sessionTracks_step h hp.1) ?_
    cases op <;> exact hp.2

end

/-- **Transactional settings.**  After every properly nested sequence of steps, each
variable has the active value of its reference model. -/
theorem guc_refines (vars : Name → ConfigGeneric V) (ops : List (GucOp Name V))
    (hproper : ProperRun 0 (initialReference vars) ops) (name : Name) :
    ((ops.foldl gucStep (initialGuc vars)).vars name).value =
      (ops.foldl referenceStep (initialReference vars) name).current.active := by
  have hi : SessionTracks (initialGuc vars) (initialReference vars) :=
    ⟨fun _ => rfl, fun _ => ⟨rfl, .outside _⟩, fun _ => by simp [initialGuc]⟩
  exact ((sessionTracks_run hi hproper).tracks name).value

end Runs

/-- A transaction: `SET` to 1, a function with `SET` to 2 that does `SET LOCAL` to 3, a
savepoint with `SET LOCAL` to 4 that is released, and the commit. -/
def sampleTransaction : List (GucOp Unit Nat) :=
  let assign := fun action newval =>
    GucOp.assign () action newval GucSource.session GucContext.userset (0 : BitVec 32)
  [.atStart, assign .actionSet 1, .newNestLevel, assign .actionSave 2, assign .actionLocal 3,
    .atEOXact true 2, .newNestLevel, assign .actionLocal 4, .atEOXact true 2, .atEOXact true 1]

/-- The session value 1 is in force after the transaction. -/
theorem guc_refines_sampleTransaction :
    ((sampleTransaction.foldl gucStep
      (initialGuc fun _ => ⟨0, .default, .userset, 0, []⟩)).vars ()).value = 1 :=
  (guc_refines (fun _ => ⟨0, .default, .userset, 0, []⟩) sampleTransaction
    ⟨rfl, trivial, Nat.one_pos, ⟨_, _, rfl, .inl rfl⟩, List.cons_ne_nil _ _,
      ⟨by decide, by decide⟩, Nat.one_pos, List.cons_ne_nil _ _, ⟨by decide, by decide⟩,
      ⟨by decide, by decide⟩, trivial⟩ ()).trans rfl

end AthenaPG
