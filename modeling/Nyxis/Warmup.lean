import Nyxis.Lib.Runs
import Nyxis.PrefetchLocks
import Nyxis.Viewport

/-!
# Warmup — waiting for the eager load

`warmup` spins until the background load of the row data sector has completed or was cancelled.  The load is started
when the reader is opened under the eager strategy, or by the record access that upgrades the strategy.  A run takes the
atomic steps of these calls in any order.

* `step_sound`: what one step keeps.
* `warmup_waits_on_load`: in careful runs a spinning `warmup` waits for a load that somebody started.
-/

namespace Nyxis

open Lib Lib.Outcome

def lazyThresholdMb : ℕ := 50

def initialStrategy (hint : AccessHint) (fileSize : ℕ) : PrefetchStrategy :=
  let fileSizeMb := fileSize / (1024 * 1024)
  if hint = .full ∧ fileSizeMb ≤ eagerThresholdMb then .eager
  else if fileSizeMb > lazyThresholdMb then .lazy
  else .adaptive

/-- The first byte of the data sector of a row file, and its length. -/
def rowDataSector (tailStart fileSize : ℕ) : ℕ × ℕ :=
  let start := 32
  if tailStart > start ∧ tailStart ≤ fileSize then (start, tailStart - start) else (start, 0)

/-! ## The detector -/

def sequentialThreshold : ℕ := 10

def randomThreshold : ℕ := 100

def minObservations : ℕ := 8

/-- The two counters are `u32`. -/
structure AccessPatternDetector where
  sequentialRuns : ℕ
  randomJumps : ℕ
  lastIndex : Int64
  deriving DecidableEq, Repr

/-- `n.saturating_add(1)` on `u32`. -/
def tick32 (n : ℕ) : ℕ := min (n + 1) (2 ^ 32 - 1)

namespace AccessPatternDetector

def new : AccessPatternDetector := ⟨0, 0, -1⟩

def observe (a : AccessPatternDetector) (index : ℕ) : AccessPatternDetector :=
  let idx := Int64.ofNat index
  let delta := (idx.toInt - a.lastIndex.toInt).natAbs
  if a.lastIndex < 0 then { a with lastIndex := idx }
  else if delta ≤ sequentialThreshold then { a with sequentialRuns := tick32 a.sequentialRuns, lastIndex := idx }
  else if delta > randomThreshold then { a with randomJumps := tick32 a.randomJumps, lastIndex := idx }
  else { a with lastIndex := idx }

/-- The sum wraps, as in a release build. -/
def pattern (a : AccessPatternDetector) : AccessPattern :=
  let total := (a.sequentialRuns + a.randomJumps) % 2 ^ 32
  if total < minObservations then .unknown
  else if a.sequentialRuns > min (a.randomJumps * 3) (2 ^ 32 - 1) then .sequential
  else if a.randomJumps > a.sequentialRuns then .random
  else .mixed

end AccessPatternDetector

/-! ## The engine -/

structure EagerState where
  cancelled : Bool
  complete : Bool
  started : Bool
  deriving DecidableEq, Repr

/-- The background thread of the eager load. -/
inductive Load where
  | none
  | running
  | over
  deriving DecidableEq, Repr

/-- Where a call of `start_eager_background` is. -/
inductive StartStep where
  | strategy
  | paused
  | swap
  | spawn
  deriving DecidableEq, Repr

/-- What a thread of the program is about to do in its call. -/
inductive EngineCall where
  | idle
  /-- `on_access` has found the engine not paused, and takes the detector. -/
  | observing (index : ℕ)
  /-- `maybe_upgrade_to_eager`. -/
  | upgrading
  | starting (next : StartStep)
  /-- The loop of `warmup`. -/
  | waiting
  /-- Behind the loop of `warmup`. -/
  | joining
  deriving DecidableEq, Repr

/-- The calls under the lock of the detector. -/
def EngineCall.holdsDetector : EngineCall → Bool
  | .upgrading => true
  | .starting _ => true
  | _ => false

structure EngineState where
  strategy : PrefetchStrategy
  paused : Bool
  detector : AccessPatternDetector
  eager : EagerState
  load : Load
  /-- The calls of the threads that share the reader. -/
  calls : List EngineCall
  deriving DecidableEq, Repr

/-- What a reader passes to its engine. -/
structure OpenedFile where
  fileSize : ℕ
  tailStart : ℕ
  recordCount : ℕ

namespace EngineState

section

variable (f : OpenedFile)

/-- The end of `start_eager_background`: there is nothing to load, or a thread loads it. -/
def spawn (s : EngineState) : EngineState :=
  if (rowDataSector f.tailStart f.fileSize).2 = 0 then { s with eager := { s.eager with complete := true } }
  else { s with load := .running }

/-- The engine of a reader that has just been opened, which `threads` threads share. -/
def opened (threads : ℕ) (options : OpenOptions) : EngineState :=
  let s : EngineState :=
    ⟨initialStrategy options.hint f.fileSize, false, .new, ⟨false, false, false⟩, .none, List.replicate threads .idle⟩
  if s.strategy = .eager then ({ s with eager := { s.eager with started := true } } : EngineState).spawn f else s

def setCall (s : EngineState) (t : ℕ) (c : EngineCall) : EngineState := { s with calls := s.calls.set t c }

/-- The test of `maybe_upgrade_to_eager`. -/
def upgrades (s : EngineState) : Bool :=
  s.strategy = .adaptive ∧ s.paused = false ∧ s.detector.pattern = .sequential ∧
    upgradeSequentialThreshold ≤ s.detector.sequentialRuns ∧ f.fileSize / (1024 * 1024) ≤ eagerThresholdMb

end

end EngineState

/-- The atomic steps; those of a call name its thread. -/
inductive EngineStep where
  | access (t index : ℕ)
  | observe (t : ℕ)
  | upgrade (t : ℕ)
  | start (t : ℕ)
  | warmup (t : ℕ)
  | poll (t : ℕ)
  | join (t : ℕ)
  | pause
  | resume
  /-- The load has fetched its last page. -/
  | complete
  /-- The load finds that it was cancelled. -/
  | cancel
  /-- The reader goes out of scope. -/
  | drop
  deriving DecidableEq, Repr

namespace EngineState

variable (f : OpenedFile)

/-- One step of `start_eager_background`. -/
def startStep (s : EngineState) (t : ℕ) : StartStep → EngineState
  | .strategy => s.setCall t (if s.strategy = .eager then .starting .paused else .idle)
  | .paused => s.setCall t (if s.paused then .idle else .starting .swap)
  | .swap =>
    if s.eager.started then s.setCall t .idle
    else { s with eager := { s.eager with started := true } }.setCall t (.starting .spawn)
  | .spawn => (s.spawn f).setCall t .idle

def step (s : EngineState) : EngineStep → Option EngineState
  | .access t index =>
    if s.calls[t]? = some .idle then
      some (if f.recordCount = 0 ∨ s.paused = true then s else s.setCall t (.observing index))
    else none
  | .observe t =>
    match s.calls[t]? with
    | some (.observing index) =>
      if s.calls.any EngineCall.holdsDetector then none
      else some ({ s with detector := s.detector.observe index }.setCall t .upgrading)
    | _ => none
  | .upgrade t =>
    if s.calls[t]? = some .upgrading then
      some (if s.upgrades f then { s with strategy := .eager }.setCall t (.starting .strategy) else s.setCall t .idle)
    else none
  | .start t =>
    match s.calls[t]? with
    | some (.starting next) => some (s.startStep f t next)
    | _ => none
  | .warmup t => if s.calls[t]? = some .idle then some (s.setCall t .waiting) else none
  | .poll t =>
    if s.calls[t]? = some .waiting then
      some (if s.eager.complete = false ∧ s.eager.cancelled = false then s else s.setCall t .joining)
    else none
  | .join t => if s.calls[t]? = some .joining ∧ s.load ≠ .running then some (s.setCall t .idle) else none
  | .pause => some { s with paused := true }
  | .resume => some { s with paused := false }
  | .complete =>
    if s.load = .running then some { s with load := .over, eager := { s.eager with complete := true } } else none
  | .cancel => if s.load = .running ∧ s.eager.cancelled = true then some { s with load := .over } else none
  | .drop =>
    if s.calls.all (· = .idle) then some { s with eager := { s.eager with cancelled := true }, calls := [] } else none

end EngineState

/-- `Reader::with_options`; only a row file has a prefetch engine. -/
def Reader.withOptions (threads : ℕ) (file : Slice) (options : OpenOptions) : Res (Reader × Option EngineState) := do
  options.validate
  let r ← Reader.new file
  .ok (r, if r.layout = .row then some (.opened ⟨r.data.length, r.tailStart, r.recordCount⟩ threads options) else none)

/-! ## Waiting -/

/-- A `warmup` is in its loop, and the condition of the loop holds. -/
def EngineState.Spins (s : EngineState) : Prop :=
  .waiting ∈ s.calls ∧ s.eager.complete = false ∧ s.eager.cancelled = false

/-- A load was started, and it is running, or its thread is about to be spawned. -/
structure EngineState.LoadStarted (s : EngineState) : Prop where
  started : s.eager.started = true
  underway : s.load = .running ∨ .starting .spawn ∈ s.calls
  incomplete : s.eager.complete = false
  notCancelled : s.eager.cancelled = false

/-- The call has yet to find out whether the load is started. -/
def EngineCall.beforeStart : EngineCall → Bool
  | .starting .strategy => true
  | .starting .paused => true
  | .starting .swap => true
  | _ => false

/-- `warmup` is called under the eager strategy, when no upgrade has yet to start its load; and no upgrade finds the engine
paused when it is about to start its load. -/
def EngineState.Careful (s : EngineState) : EngineStep → Prop
  | .warmup _ => s.strategy = .eager ∧ ∀ c ∈ s.calls, c.beforeStart = false
  | .start t => s.calls[t]? = some (.starting .paused) → s.paused = false
  | _ => True

/-! ## What a run keeps -/

/-- What holds in every state of a careful run. -/
structure EngineState.Sound (s : EngineState) : Prop where
  eager : s.strategy = .eager → s.eager.started = true ∨ ∃ c ∈ s.calls, c.beforeStart = true
  upgraded : ∀ c ∈ s.calls, c.beforeStart = true → s.strategy = .eager
  waiting : .waiting ∈ s.calls → s.eager.started = true
  underway : s.eager.started = true → s.eager.complete = true ∨ s.load = .running ∨
    s.load = .over ∧ s.eager.cancelled = true ∨ .starting .spawn ∈ s.calls
  dropped : s.eager.cancelled = true → s.calls = []

theorem mem_set_of_ne {α : Type} {l : List α} {t : ℕ} {a old new : α} (ha : a ∈ l) (ht : l[t]? = some old)
    (hne : a ≠ old) : a ∈ l.set t new := by
  obtain ⟨i, hi⟩ := List.getElem?_of_mem ha
  have hit : t ≠ i := by
    rintro rfl
    exact hne (Option.some.inj (hi.symm.trans ht))
  exact List.mem_of_getElem? ((List.getElem?_set_ne hit).trans hi)

theorem mem_set_new {α : Type} {l : List α} {t : ℕ} {old new : α} (ht : l[t]? = some old) : new ∈ l.set t new := by
  obtain ⟨hlt, -⟩ := List.getElem?_eq_some_iff.mp ht
  exact List.mem_set hlt new

namespace EngineState

variable {f : OpenedFile} {s s' : EngineState} {t : ℕ} {old : EngineCall}

/-- A call goes on, and is neither before nor behind a step of the start. -/
theorem Sound.move (h : s.Sound) (new : EngineCall) (ht : s.calls[t]? = some old) (hold : old.beforeStart = false)
    (hspawn : old ≠ .starting .spawn) (hnew : new.beforeStart = false) (hwait : new = .waiting → s.eager.started = true)
    (hs : s'.strategy = s.strategy ∧ s'.eager = s.eager ∧ s'.load = s.load ∧ s'.calls = s.calls.set t new) :
    s'.Sound := by
  obtain ⟨hstrategy, heager, hload, hcalls⟩ := hs
  constructor
  · rw [hstrategy, heager, hcalls]
    intro hmode
    rcases h.eager hmode with hstarted | ⟨c, hc, hbefore⟩
    · exact .inl hstarted
    · refine .inr ⟨c, mem_set_of_ne hc ht ?_, hbefore⟩
      rintro rfl
      rw [hold] at hbefore
      cases hbefore
  · rw [hstrategy, hcalls]
    intro c hc hbefore
    rcases List.mem_or_eq_of_mem_set hc with hmem | rfl
    · exact h.upgraded c hmem hbefore
    · rw [hnew] at hbefore
      cases hbefore
  · rw [heager, hcalls]
    intro hc
    rcases List.mem_or_eq_of_mem_set hc with hmem | heq
    · exact h.waiting hmem
    · exact hwait heq.symm
  · rw [heager, hload, hcalls]
    intro hstarted
    rcases h.underway hstarted with hdone | hrun | hover | hmem
    · exact .inl hdone
    · exact .inr (.inl hrun)
    · exact .inr (.inr (.inl hover))
    · exact .inr (.inr (.inr (mem_set_of_ne hmem ht hspawn.symm)))
  · rw [heager, hcalls]
    intro hcancelled
    rw [h.dropped hcancelled] at ht
    cases ht

theorem Sound.upgrade (h : s.Sound) (ht : s.calls[t]? = some .upgrading) :
    ({ s with strategy := .eager }.setCall t (.starting .strategy) : EngineState).Sound where
  eager _ := .inr ⟨.starting .strategy, mem_set_new ht, rfl⟩
  upgraded _ _ _ := rfl
  waiting hc := by
    rcases List.mem_or_eq_of_mem_set hc with hmem | heq
    · exact h.waiting hmem
    · cases heq
  underway hstarted := by
    rcases h.underway hstarted with hdone | hrun | hover | hmem
    · exact .inl hdone
    · exact .inr (.inl hrun)
    · exact .inr (.inr (.inl hover))
    · exact .inr (.inr (.inr (mem_set_of_ne hmem ht nofun)))
  dropped hcancelled := by
    rw [h.dropped hcancelled] at ht
    cases ht

/-- A call that is about to start the load goes on to the next step before the start. -/
theorem Sound.approach {new : EngineCall} (h : s.Sound) (ht : s.calls[t]? = some old) (hold : old.beforeStart = true)
    (hnew : new.beforeStart = true) : (s.setCall t new).Sound where
  eager _ := .inr ⟨new, mem_set_new ht, hnew⟩
  upgraded _ _ _ := h.upgraded old (List.mem_of_getElem? ht) hold
  waiting hc := by
    rcases List.mem_or_eq_of_mem_set hc with hmem | heq
    · exact h.waiting hmem
    · rw [← heq] at hnew
      cases hnew
  underway hstarted := by
    rcases h.underway hstarted with hdone | hrun | hover | hmem
    · exact .inl hdone
    · exact .inr (.inl hrun)
    · exact .inr (.inr (.inl hover))
    · refine .inr (.inr (.inr (mem_set_of_ne hmem ht ?_)))
      rintro rfl
      cases hold
  dropped hcancelled := by
    rw [h.dropped hcancelled] at ht
    cases ht

/-- The first call that swaps the flag starts the load; another one has nothing to do. -/
theorem Sound.swap (h : s.Sound) (ht : s.calls[t]? = some (.starting .swap)) : (s.startStep f t .swap).Sound := by
  have hmode := h.upgraded _ (List.mem_of_getElem? ht) rfl
  have hlive : s.eager.cancelled ≠ true := fun hcancelled => by
    rw [h.dropped hcancelled] at ht
    cases ht
  rw [startStep]
  split
  · rename_i hstarted
    constructor
    · exact fun _ => .inl hstarted
    · exact fun _ _ _ => hmode
    · exact fun _ => hstarted
    · intro _
      rcases h.underway hstarted with hdone | hrun | hover | hmem
      · exact .inl hdone
      · exact .inr (.inl hrun)
      · exact .inr (.inr (.inl hover))
      · exact .inr (.inr (.inr (mem_set_of_ne hmem ht nofun)))
    · exact fun hcancelled => absurd hcancelled hlive
  · constructor
    · exact fun _ => .inl rfl
    · exact fun _ _ _ => hmode
    · exact fun _ => rfl
    · exact fun _ => .inr (.inr (.inr (mem_set_new ht)))
    · exact fun hcancelled => absurd hcancelled hlive

/-- The load is complete at once, or it runs. -/
theorem Sound.spawned (h : s.Sound) (ht : s.calls[t]? = some (.starting .spawn)) : (s.startStep f t .spawn).Sound := by
  have hcalls : ∀ c, c ∈ s.calls.set t .idle → c ∈ s.calls ∨ c = .idle := fun c hc => List.mem_or_eq_of_mem_set hc
  have heager : s.strategy = .eager → s.eager.started = true ∨ ∃ c ∈ s.calls.set t .idle, c.beforeStart = true := by
    intro hmode
    rcases h.eager hmode with hstarted | ⟨c, hc, hbefore⟩
    · exact .inl hstarted
    · refine .inr ⟨c, mem_set_of_ne hc ht ?_, hbefore⟩
      rintro rfl
      cases hbefore
  have hupgraded : ∀ c ∈ s.calls.set t .idle, c.beforeStart = true → s.strategy = .eager := by
    intro c hc hbefore
    rcases hcalls c hc with hmem | rfl
    · exact h.upgraded c hmem hbefore
    · cases hbefore
  have hwaiting : .waiting ∈ s.calls.set t .idle → s.eager.started = true := by
    intro hc
    rcases hcalls _ hc with hmem | heq
    · exact h.waiting hmem
    · cases heq
  have hdropped : s.eager.cancelled = true → s.calls.set t .idle = [] := by
    intro hcancelled
    rw [h.dropped hcancelled] at ht
    cases ht
  rw [startStep, spawn]
  split
  · exact ⟨heager, hupgraded, hwaiting, fun _ => .inl rfl, hdropped⟩
  · exact ⟨heager, hupgraded, hwaiting, fun _ => .inr (.inl rfl), hdropped⟩

theorem opened_sound (f : OpenedFile) (threads : ℕ) (options : OpenOptions) : (opened f threads options).Sound := by
  have hidle : ∀ c ∈ List.replicate threads EngineCall.idle, c = .idle := fun c hc => (List.mem_replicate.mp hc).2
  have hbefore : ∀ c ∈ List.replicate threads EngineCall.idle, c.beforeStart = true → initialStrategy options.hint f.fileSize =
      .eager := by
    intro c hc hb
    rw [hidle c hc] at hb
    cases hb
  have hwaiting : ∀ b : Bool, .waiting ∈ List.replicate threads EngineCall.idle → b = true := fun b hc => by
    cases hidle _ hc
  rw [opened]
  dsimp only
  split
  · rw [spawn]
    split
    · exact ⟨fun _ => .inl rfl, hbefore, hwaiting _, fun _ => .inl rfl, nofun⟩
    · exact ⟨fun _ => .inl rfl, hbefore, hwaiting _, fun _ => .inr (.inl rfl), nofun⟩
  · rename_i hmode
    exact ⟨fun heager => absurd heager hmode, hbefore, hwaiting _, nofun, nofun⟩

/-- What one careful step keeps. -/
theorem step_sound {e : EngineStep} (h : s.Sound) (hcareful : s.Careful e) (hstep : s.step f e = some s') : s'.Sound := by
  cases e with
  | access t index =>
    rw [step] at hstep
    split at hstep
    · rename_i ht
      cases hstep
      split
      · exact h
      · exact h.move (.observing index) ht rfl nofun rfl nofun ⟨rfl, rfl, rfl, rfl⟩
    · cases hstep
  | observe t =>
    rw [step] at hstep
    split at hstep
    · rename_i index ht
      split at hstep
      · cases hstep
      · cases hstep
        exact h.move .upgrading ht rfl nofun rfl nofun ⟨rfl, rfl, rfl, rfl⟩
    · cases hstep
  | upgrade t =>
    rw [step] at hstep
    split at hstep
    · rename_i ht
      cases hstep
      split
      · exact h.upgrade ht
      · exact h.move .idle ht rfl nofun rfl nofun ⟨rfl, rfl, rfl, rfl⟩
    · cases hstep
  | start t =>
    rw [step] at hstep
    split at hstep
    · rename_i next ht
      cases hstep
      cases next with
      | strategy =>
        rw [startStep, if_pos (h.upgraded _ (List.mem_of_getElem? ht) rfl)]
        exact h.approach ht rfl rfl
      | paused =>
        have hpaused : s.paused = false := hcareful ht
        rw [startStep, hpaused]
        exact h.approach ht rfl rfl
      | swap => exact h.swap ht
      | spawn => exact h.spawned ht
    · cases hstep
  | warmup t =>
    rw [step] at hstep
    split at hstep
    · rename_i ht
      cases hstep
      refine h.move .waiting ht rfl nofun rfl (fun _ => ?_) ⟨rfl, rfl, rfl, rfl⟩
      obtain ⟨hmode, hnone⟩ := hcareful
      rcases h.eager hmode with hstarted | ⟨c, hc, hbefore⟩
      · exact hstarted
      · rw [hnone c hc] at hbefore
        cases hbefore
    · cases hstep
  | poll t =>
    rw [step] at hstep
    split at hstep
    · rename_i ht
      cases hstep
      split
      · exact h
      · exact h.move .joining ht rfl nofun rfl nofun ⟨rfl, rfl, rfl, rfl⟩
    · cases hstep
  | join t =>
    rw [step] at hstep
    split at hstep
    · rename_i ht
      cases hstep
      exact h.move .idle ht.1 rfl nofun rfl nofun ⟨rfl, rfl, rfl, rfl⟩
    · cases hstep
  | pause =>
    cases hstep
    exact ⟨h.eager, h.upgraded, h.waiting, h.underway, h.dropped⟩
  | resume =>
    cases hstep
    exact ⟨h.eager, h.upgraded, h.waiting, h.underway, h.dropped⟩
  | complete =>
    rw [step] at hstep
    split at hstep
    · cases hstep
      exact ⟨h.eager, h.upgraded, h.waiting, fun _ => .inl rfl, h.dropped⟩
    · cases hstep
  | cancel =>
    rw [step] at hstep
    split at hstep
    · rename_i hrun
      cases hstep
      exact ⟨h.eager, h.upgraded, h.waiting, fun _ => .inr (.inr (.inl ⟨rfl, hrun.2⟩)), h.dropped⟩
    · cases hstep
  | drop =>
    rw [step] at hstep
    split at hstep
    · rename_i hidle
      cases hstep
      have hall : ∀ c ∈ s.calls, c = .idle := fun c hc => by simpa using List.all_eq_true.mp hidle c hc
      constructor
      · intro hmode
        rcases h.eager hmode with hstarted | ⟨c, hc, hbefore⟩
        · exact .inl hstarted
        · rw [hall c hc] at hbefore
          cases hbefore
      · exact fun c hc => by cases hc
      · exact fun hc => by cases hc
      · intro hstarted
        rcases h.underway hstarted with hdone | hrun | hover | hmem
        · exact .inl hdone
        · exact .inr (.inl hrun)
        · exact .inr (.inr (.inl ⟨hover.1, rfl⟩))
        · cases hall _ hmem
      · exact fun _ => rfl
    · cases hstep

end EngineState

/-- Whatever the options and the file, a `warmup` that spins in a careful run waits for a load that was started. -/
theorem warmup_waits_on_load {threads : ℕ} {file : Slice} {options : OpenOptions} {r : Reader} {s₀ s : EngineState}
    (hopen : Reader.withOptions threads file options = .ok (r, some s₀))
    (hrun : Reached (EngineState.step ⟨r.data.length, r.tailStart, r.recordCount⟩) EngineState.Careful s₀ s)
    (hspins : s.Spins) : s.LoadStarted := by
  have hinit : s₀.Sound := by
    obtain ⟨_, -, hopen⟩ := bind_eq_ok.mp hopen
    obtain ⟨r', -, hopen⟩ := bind_eq_ok.mp hopen
    obtain ⟨rfl, hengine⟩ := Prod.mk.inj (ok.inj hopen)
    split at hengine
    · cases hengine
      exact EngineState.opened_sound _ threads options
    · cases hengine
  have hsound : s.Sound := hrun.invariant hinit fun s e s' hs hcareful hstep => EngineState.step_sound hs hcareful hstep
  obtain ⟨hwait, hincomplete, hlive⟩ := hspins
  have hstarted := hsound.waiting hwait
  refine ⟨hstarted, ?_, hincomplete, hlive⟩
  rcases hsound.underway hstarted with hdone | hload | ⟨-, hcancelled⟩ | hspawn
  · rw [hincomplete] at hdone
    cases hdone
  · exact .inl hload
  · rw [hlive] at hcancelled
    cases hcancelled
  · exact .inr hspawn

/-! ## One thread -/

def oneRow : List RecordRow := [⟨[.i64 7]⟩]

def hinted (hint : AccessHint) : OpenOptions := ⟨hint, 256, 65536, 1, 4⟩

/-- The load of a small file that is opened to be read as a whole. -/
theorem warmup_waits_on_load_full : ∃ file r s, finishRow ["a"] oneRow none = .ok file ∧
    Reader.withOptions 1 file (hinted .full) = .ok (r, some s) ∧
      EngineState.LoadStarted { s with calls := [.waiting] } := by
  have hrun : (finishRow ["a"] oneRow none >>= fun file => do
      let p ← Reader.withOptions 1 file (hinted .full)
      .ok p.2) = .ok (some ⟨.eager, false, .new, ⟨false, false, true⟩, .running, [.idle]⟩) := by
    decide +kernel
  obtain ⟨file, hfile, hrun⟩ := bind_eq_ok.mp hrun
  obtain ⟨⟨r, s⟩, hopen, hrun⟩ := bind_eq_ok.mp hrun
  obtain rfl := ok.inj hrun
  have hreached : Reached (EngineState.step ⟨r.data.length, r.tailStart, r.recordCount⟩) EngineState.Careful
      ⟨.eager, false, .new, ⟨false, false, true⟩, .running, [.idle]⟩
      ⟨.eager, false, .new, ⟨false, false, true⟩, .running, [.waiting]⟩ :=
    .step (a := .warmup 0) .init ⟨rfl, by simp [EngineCall.beforeStart]⟩ rfl
  exact ⟨file, r, _, hfile, hopen, warmup_waits_on_load hopen hreached ⟨by decide, rfl, rfl⟩⟩

/-- Under the default options nobody has started the load that `warmup` waits for. -/
theorem warmup_waits_on_nothing : ∃ file r s₀ s, finishRow ["a"] oneRow none = .ok file ∧
    Reader.withOptions 1 file (hinted .unknown) = .ok (r, some s₀) ∧
      Reached (EngineState.step ⟨r.data.length, r.tailStart, r.recordCount⟩) (fun _ _ => True) s₀ s ∧ s.Spins ∧
        s.eager.started = false ∧ s.load = .none := by
  have hrun : (finishRow ["a"] oneRow none >>= fun file => do
      let p ← Reader.withOptions 1 file (hinted .unknown)
      .ok p.2) = .ok (some ⟨.adaptive, false, .new, ⟨false, false, false⟩, .none, [.idle]⟩) := by
    decide +kernel
  obtain ⟨file, hfile, hrun⟩ := bind_eq_ok.mp hrun
  obtain ⟨⟨r, s⟩, hopen, hrun⟩ := bind_eq_ok.mp hrun
  obtain rfl := ok.inj hrun
  have hreached : Reached (EngineState.step ⟨r.data.length, r.tailStart, r.recordCount⟩) (fun _ _ => True)
      ⟨.adaptive, false, .new, ⟨false, false, false⟩, .none, [.idle]⟩
      ⟨.adaptive, false, .new, ⟨false, false, false⟩, .none, [.waiting]⟩ :=
    .step (a := .warmup 0) .init trivial rfl
  exact ⟨file, r, _, _, hfile, hopen, hreached, ⟨by decide, rfl, rfl⟩, rfl, rfl⟩

end Nyxis
