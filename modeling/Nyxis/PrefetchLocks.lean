import Nyxis.Lib.Locks

/-!
# PrefetchLocks — the mutexes of the prefetch engine

Each operation of `prefetch/mod.rs` as the mutexes it takes and releases, in the order in which its
guards are made and dropped.  What an operation reads on the way (the strategy, the flags, the pattern,
the ranges to fetch) is a parameter: another thread may change it between two reads.

`cache_stats` takes the detector under the cache, the speculative prefetch the cache under the detector.
That is the only cycle of the locking order, so a run deadlocks only through it.
-/

namespace Nyxis

open Lib

/-- The five mutexes of a `PrefetchEngine`. -/
inductive Mutex where
  | cache
  | inFlight
  | strategy
  | detector
  | join
  deriving DecidableEq, Repr

inductive PrefetchStrategy where
  | lazy
  | adaptive
  | eager
  deriving DecidableEq, Repr

inductive AccessPattern where
  | unknown
  | sequential
  | random
  | mixed
  deriving DecidableEq, Repr

def upgradeSequentialThreshold : Nat := 100

def eagerThresholdMb : Nat := 10

/-- The pages of a coalesced range; its byte bounds play no part in the locking. -/
structure PageRange where
  pageStart : Nat
  pageEnd : Nat
  deriving Repr

def PageRange.pages (r : PageRange) : List Nat := List.range' r.pageStart (r.pageEnd + 1 - r.pageStart)

abbrev Acts := List (LockAct Mutex)

/-! ### The operations -/

/-- `PrefetchEngine::strategy`: the guard is a temporary of the expression. -/
def strategyRead : Acts := guarded .strategy []

def cacheStats : Acts := guarded .cache (guarded .detector strategyRead)

/-- What `start_eager_background` reads. -/
structure SpawnSeen where
  strategy : PrefetchStrategy
  paused : Bool
  started : Bool
  sectorLen : Nat
  deriving Repr

def startEagerBackground (seen : SpawnSeen) : Acts :=
  strategyRead ++
    if seen.strategy ≠ .eager ∨ seen.paused then []
    else if seen.started then []
    else if seen.sectorLen = 0 then []
    else guarded .join []

/-- The thread that `start_eager_background` spawns.  Each block runs after a check of `cancelled`; the
load returns at the first check that sees it set, after `passed` checks that did not. -/
def backgroundLoad (passed : Nat) (ranges : List PageRange) (pageSize dataLen : Nat) : Acts :=
  let page (p : Nat) : Acts :=
    if dataLen ≤ p * pageSize then guarded .inFlight []
    else guarded .cache [] ++ guarded .inFlight []
  let blocks : List Acts :=
    [] :: ranges.flatMap fun r =>
      (r.pages.flatMap fun _ => guarded .inFlight []) :: r.pages.map page
  (blocks.take passed).flatten

/-- The wait for the loading thread is under the guard, but it waits for no mutex. -/
def warmup : Acts := guarded .join []

/-- What `maybe_upgrade_to_eager` reads. -/
structure UpgradeSeen where
  strategy : PrefetchStrategy
  paused : Bool
  pattern : AccessPattern
  sequentialRuns : Nat
  fileSize : Nat
  spawn : SpawnSeen
  deriving Repr

/-- The strategy guard is dropped before the load is started; the caller still holds the detector. -/
def maybeUpgradeToEager (seen : UpgradeSeen) : Acts :=
  guarded .strategy [] ++
    if seen.strategy ≠ .adaptive ∨ seen.paused then []
    else if seen.pattern ≠ .sequential then []
    else if seen.sequentialRuns < upgradeSequentialThreshold then []
    else if seen.fileSize / (1024 * 1024) > eagerThresholdMb then []
    else startEagerBackground seen.spawn

def fetchRange (pageSize fileSize : Nat) (range : PageRange) : Acts :=
  guarded .inFlight [] ++
    range.pages.flatMap fun p =>
      if fileSize ≤ p * pageSize then guarded .inFlight []
      else guarded .cache (guarded .inFlight [])

/-- The pages that are neither cached nor on their way, under both guards. -/
def neededPages : Acts := guarded .cache (guarded .inFlight [])

/-- What `speculative_prefetch` reads; `ranges` is empty when no page is needed. -/
structure SpeculativeSeen where
  paused : Bool
  cancelled : Bool
  ranges : List PageRange
  pageSize : Nat
  fileSize : Nat
  deriving Repr

def speculativePrefetch (seen : SpeculativeSeen) : Acts :=
  if seen.paused ∨ seen.cancelled then []
  else neededPages ++ seen.ranges.flatMap (fetchRange seen.pageSize seen.fileSize)

/-- What `is_eager` reads. -/
structure EagerSeen where
  strategy : PrefetchStrategy
  complete : Bool
  deriving Repr

def EagerSeen.isEager (seen : EagerSeen) : Bool := seen.strategy = .eager && seen.complete

def touchPage (seen : EagerSeen) : Acts :=
  strategyRead ++ if seen.isEager then [] else guarded .cache []

/-- What `on_access` reads, in the order of its reads. -/
structure AccessSeen where
  recordCount : Nat
  paused : Bool
  upgrade : UpgradeSeen
  eager : EagerSeen
  strategy : PrefetchStrategy
  recordOffset : Option Nat
  touch : EagerSeen
  laterStrategy : PrefetchStrategy
  pattern : AccessPattern
  speculative : SpeculativeSeen
  deriving Repr

def onAccess (seen : AccessSeen) : Acts :=
  if seen.recordCount = 0 ∨ seen.paused then []
  else
    guarded .detector (maybeUpgradeToEager seen.upgrade) ++ strategyRead ++
      if seen.eager.isEager then []
      else strategyRead ++
        if seen.strategy = .eager then []
        else
          (match seen.recordOffset with
            | some _ => touchPage seen.touch
            | none => []) ++
          strategyRead ++
            if seen.laterStrategy = .adaptive then
              guarded .detector
                (if seen.pattern = .sequential then speculativePrefetch seen.speculative else [])
            else []

/-- What `prefetch_viewport` reads. -/
structure ViewportSeen where
  dataLen : Nat
  recordCount : Nat
  startIndex : Nat
  endIndex : Nat
  ranges : List PageRange
  pageSize : Nat
  deriving Repr

def prefetchViewport (seen : ViewportSeen) : Acts :=
  if seen.recordCount = 0 ∨ seen.dataLen = 0 then []
  else if min seen.startIndex (seen.recordCount - 1) > min seen.endIndex (seen.recordCount - 1) then []
  else
    neededPages ++ seen.ranges.flatMap (fetchRange seen.pageSize seen.dataLen) ++ guarded .cache []

/-- The operations a thread can begin on a shared engine.  `drop` joins the loading thread. -/
inductive Operation where
  | strategy
  | cacheStats
  | startEagerBackground (seen : SpawnSeen)
  | backgroundLoad (passed : Nat) (ranges : List PageRange) (pageSize dataLen : Nat)
  | warmup
  | onAccess (seen : AccessSeen)
  | touchPage (seen : EagerSeen)
  | prefetchViewport (seen : ViewportSeen)
  | drop
  deriving Repr

def Operation.acts : Operation → Acts
  | .strategy => strategyRead
  | .cacheStats => Nyxis.cacheStats
  | .startEagerBackground seen => Nyxis.startEagerBackground seen
  | .backgroundLoad passed ranges pageSize dataLen =>
    Nyxis.backgroundLoad passed ranges pageSize dataLen
  | .warmup => Nyxis.warmup
  | .onAccess seen => Nyxis.onAccess seen
  | .touchPage seen => Nyxis.touchPage seen
  | .prefetchViewport seen => Nyxis.prefetchViewport seen
  | .drop => guarded .join []

/-! ### The locking order -/

/-- `m'` is locked somewhere under the guard of `m`. -/
def Mutex.nests : Mutex → Mutex → Bool
  | .cache, .inFlight | .cache, .strategy | .cache, .detector => true
  | .detector, .strategy | .detector, .join | .detector, .cache | .detector, .inFlight => true
  | _, _ => false

/-- The order as `cache_stats` takes the two mutexes of the cycle. -/
def Mutex.statsRank : Mutex → ℕ
  | .cache => 0
  | .detector => 1
  | .inFlight | .strategy | .join => 2

/-- The order as the speculative prefetch takes them. -/
def Mutex.prefetchRank : Mutex → ℕ
  | .detector => 0
  | .cache => 1
  | .inFlight | .strategy | .join => 2

theorem nests_statsRank (m m' : Mutex) (h : m.nests m' = true) (hne : ¬ (m = .detector ∧ m' = .cache)) :
    m.statsRank < m'.statsRank := by
  revert h hne
  cases m <;> cases m' <;> decide

theorem nests_prefetchRank (m m' : Mutex) (h : m.nests m' = true)
    (hne : ¬ (m = .cache ∧ m' = .detector)) : m.prefetchRank < m'.prefetchRank := by
  revert h hne
  cases m <;> cases m' <;> decide

/-- Whatever is held, an operation that starts from there ends there and keeps the locking order. -/
abbrev InOrder (held : List Mutex) (acts : Acts) : Prop :=
  Disciplined (fun m m' => m.nests m' = true) held acts held

/-- Locking `m` alone under `held`. -/
theorem inOrder_lock {held : List Mutex} {m : Mutex} (h : ∀ m' ∈ held, m'.nests m = true) :
    InOrder held (guarded m []) := .guarded h rfl

theorem inOrder_nil (held : List Mutex) : InOrder held [] := rfl

theorem inOrder_startEagerBackground {held : List Mutex} (seen : SpawnSeen)
    (hs : ∀ m ∈ held, m.nests .strategy = true) (hj : ∀ m ∈ held, m.nests .join = true) :
    InOrder held (startEagerBackground seen) := by
  refine (inOrder_lock hs).append (.ite (inOrder_nil _) (.ite (inOrder_nil _) ?_))
  exact .ite (inOrder_nil _) (inOrder_lock hj)

theorem inOrder_maybeUpgrade (seen : UpgradeSeen) :
    InOrder [.detector] (maybeUpgradeToEager seen) := by
  have hs : ∀ m ∈ [Mutex.detector], m.nests .strategy = true := by simp [Mutex.nests]
  have hj : ∀ m ∈ [Mutex.detector], m.nests .join = true := by simp [Mutex.nests]
  refine (inOrder_lock hs).append (.ite (inOrder_nil _) (.ite (inOrder_nil _) ?_))
  exact .ite (inOrder_nil _) (.ite (inOrder_nil _) (inOrder_startEagerBackground _ hs hj))

theorem inOrder_neededPages {held : List Mutex} (hc : ∀ m ∈ held, m.nests .cache = true)
    (hi : ∀ m ∈ held, m.nests .inFlight = true) : InOrder held neededPages := by
  refine .guarded hc (inOrder_lock fun m hm => ?_)
  rcases List.mem_cons.mp hm with rfl | hm
  · rfl
  · exact hi m hm

theorem inOrder_fetchRange {held : List Mutex} (pageSize fileSize : Nat) (range : PageRange)
    (hc : ∀ m ∈ held, m.nests .cache = true) (hi : ∀ m ∈ held, m.nests .inFlight = true) :
    InOrder held (fetchRange pageSize fileSize range) := by
  refine (inOrder_lock hi).append (.flatMap fun p _ => ?_)
  exact .ite (inOrder_lock hi) (inOrder_neededPages hc hi)

theorem inOrder_speculative (seen : SpeculativeSeen) :
    InOrder [.detector] (speculativePrefetch seen) := by
  have hc : ∀ m ∈ [Mutex.detector], m.nests .cache = true := by simp [Mutex.nests]
  have hi : ∀ m ∈ [Mutex.detector], m.nests .inFlight = true := by simp [Mutex.nests]
  refine .ite (inOrder_nil _) ((inOrder_neededPages hc hi).append (.flatMap fun r _ => ?_))
  exact inOrder_fetchRange _ _ r hc hi

/-- Under nothing held every mutex may be locked. -/
theorem free_nests (m : Mutex) : ∀ m' ∈ ([] : List Mutex), m'.nests m = true :=
  fun _ hm => nomatch hm

theorem inOrder_touchPage (seen : EagerSeen) : InOrder [] (touchPage seen) :=
  (inOrder_lock (free_nests _)).append (.ite (inOrder_nil _) (inOrder_lock (free_nests _)))

theorem inOrder_onAccess (seen : AccessSeen) : InOrder [] (onAccess seen) := by
  have hread : InOrder [] strategyRead := inOrder_lock (free_nests _)
  have hupgrade : InOrder [] (guarded .detector (maybeUpgradeToEager seen.upgrade)) :=
    .guarded (free_nests _) (inOrder_maybeUpgrade _)
  refine .ite (inOrder_nil _) ((hupgrade.append hread).append (.ite (inOrder_nil _) ?_))
  refine hread.append (.ite (inOrder_nil _) (.append (.append ?_ hread) (.ite ?_ (inOrder_nil _))))
  · cases seen.recordOffset with
    | none => exact inOrder_nil _
    | some off => exact inOrder_touchPage _
  · exact .guarded (free_nests _) (.ite (inOrder_speculative _) (inOrder_nil _))

theorem inOrder_backgroundLoad (passed : Nat) (ranges : List PageRange) (pageSize dataLen : Nat) :
    InOrder [] (backgroundLoad passed ranges pageSize dataLen) := by
  have hi : InOrder [] (guarded .inFlight []) := inOrder_lock (free_nests _)
  have hc : InOrder [] (guarded .cache []) := inOrder_lock (free_nests _)
  rw [backgroundLoad, ← List.flatMap_id]
  refine .flatMap fun block hblock => ?_
  rcases List.mem_cons.mp (List.mem_of_mem_take hblock) with rfl | hblock
  · exact inOrder_nil _
  obtain ⟨r, -, hr⟩ := List.mem_flatMap.mp hblock
  rcases List.mem_cons.mp hr with rfl | hr
  · exact .flatMap fun _ _ => hi
  · obtain ⟨p, -, rfl⟩ := List.mem_map.mp hr
    exact .ite hi (hc.append hi)

theorem inOrder_viewport (seen : ViewportSeen) : InOrder [] (prefetchViewport seen) := by
  have hneeded : InOrder [] neededPages := inOrder_neededPages (free_nests _) (free_nests _)
  have hfetch : InOrder [] (seen.ranges.flatMap (fetchRange seen.pageSize seen.dataLen)) :=
    .flatMap fun r _ => inOrder_fetchRange _ _ r (free_nests _) (free_nests _)
  have hpin : InOrder [] (guarded .cache []) := inOrder_lock (free_nests _)
  exact .ite (inOrder_nil _) (.ite (inOrder_nil _) ((hneeded.append hfetch).append hpin))

theorem Operation.inOrder (op : Operation) : InOrder [] op.acts := by
  cases op with
  | strategy => exact inOrder_lock (free_nests _)
  | cacheStats =>
    refine .guarded (free_nests _) (.guarded ?_ (inOrder_lock ?_))
    · simp [Mutex.nests]
    · simp [Mutex.nests]
  | startEagerBackground seen => exact inOrder_startEagerBackground _ (free_nests _) (free_nests _)
  | backgroundLoad passed ranges pageSize dataLen => exact inOrder_backgroundLoad _ _ _ _
  | warmup => exact inOrder_lock (free_nests _)
  | onAccess seen => exact inOrder_onAccess _
  | touchPage seen => exact inOrder_touchPage _
  | prefetchViewport seen => exact inOrder_viewport _
  | drop => exact inOrder_lock (free_nests _)

/-! ### Runs of the engine -/

section Runs

variable {ι : Type} [DecidableEq ι] {s s' : LockState ι Mutex}
  {allowed : LockState ι Mutex → LockStep ι Operation → Prop}

/-- A step of any thread that uses the engine. -/
abbrev engineStep : LockState ι Mutex → LockStep ι Operation → Option (LockState ι Mutex) :=
  LockState.step Operation.acts

theorem orderly_of_reached (h : Reached engineStep allowed LockState.idle s) :
    s.Orderly fun m m' => m.nests m' = true :=
  h.invariant LockState.orderly_idle fun _ _ _ hs _ hstep =>
    LockState.orderly_step Operation.inOrder hs hstep

theorem uncrossed_of_reached
    (h : Reached engineStep (LockState.Uncrossing .cache .detector) LockState.idle s) :
    ¬ s.Crossed .cache .detector := by
  let Inv (s : LockState ι Mutex) : Prop :=
    s.Orderly (fun m m' => m.nests m' = true) ∧ ¬ s.Crossed .cache .detector
  have hinit : Inv LockState.idle :=
    ⟨LockState.orderly_idle, fun ⟨_, _, _, ht, _⟩ => nomatch ht.1⟩
  have hkeep : ∀ s a s', Inv s → LockState.Uncrossing .cache .detector s a →
      engineStep s a = some s' → Inv s' := fun s a s' hs ha hstep =>
    ⟨LockState.orderly_step Operation.inOrder hs.1 hstep,
      LockState.uncrossed_step hs.1 ha hstep hs.2⟩
  exact (h.invariant hinit hkeep).2

/-- In any run at all, a deadlock is between a `cache_stats` that holds the cache and a speculative
prefetch that holds the detector. -/
theorem crossed_of_deadlock (h : Reached engineStep allowed LockState.idle s) (hdead : s.Deadlock) :
    s.Crossed .cache .detector := by
  by_contra hcross
  exact (orderly_of_reached h).not_deadlock (by decide) hcross _ _ nests_statsRank
    nests_prefetchRank hdead

/-- A step outside the condition is the end of two calls: the threads stay crossed in every state that
any run reaches from there. -/
theorem crossed_for_good {a : LockStep ι Operation} (hno : ¬ LockState.Uncrossing .cache .detector s a)
    (hs : engineStep s a = some s') {later : LockState ι Mutex}
    (h : Reached engineStep allowed s' later) : later.Crossed .cache .detector :=
  h.invariant (I := fun s => s.Crossed .cache .detector)
    (LockState.crossed_of_not_uncrossing (by decide) hno hs) fun _ _ _ hcross _ hstep =>
      hcross.stays hstep

/-- No set of threads blocks itself, in any run none of whose steps takes the cache on the way to the
detector while another thread is on the way from the detector to the cache, or the reverse. -/
theorem locks_free_of_deadlock
    (h : Reached engineStep (LockState.Uncrossing .cache .detector) LockState.idle s) :
    ¬ s.Deadlock := fun hdead => uncrossed_of_reached h (crossed_of_deadlock h hdead)

end Runs

/-! ### Two threads in each other's way -/

/-- The ninth access in a row to a file of 40 records of some 7500 bytes, opened without a hint: it
touches its page and then looks ahead for the second one. -/
def sequentialAccess : AccessSeen where
  recordCount := 40
  paused := false
  upgrade := ⟨.adaptive, false, .sequential, 8, 300000, ⟨.adaptive, false, false, 0⟩⟩
  eager := ⟨.adaptive, false⟩
  strategy := .adaptive
  recordOffset := some 60032
  touch := ⟨.adaptive, false⟩
  laterStrategy := .adaptive
  pattern := .sequential
  speculative := ⟨false, false, [⟨1, 1⟩], 65536, 300000⟩

/-- One thread accesses a record up to the lookup of its speculative prefetch; then another asks for the
statistics and takes the cache. -/
def crossingRun : List (LockStep Bool Operation) :=
  .begin false (.onAccess sequentialAccess) :: List.replicate 15 (.act false) ++
    [.begin true .cacheStats, .act true]

theorem locks_deadlock :
    ¬ ∀ (ι : Type) (_ : DecidableEq ι) (s : LockState ι Mutex),
      Reached engineStep (fun _ _ => True) LockState.idle s → ¬ s.Deadlock := by
  intro hclaim
  obtain ⟨s, hrun, hfalse, htrue, hwantsCache, hwantsDetector⟩ :
      ∃ s, runGuarded engineStep (fun _ _ => True) LockState.idle crossingRun = some s ∧
        s.owner .detector = some false ∧ s.owner .cache = some true ∧
        (s.todo false).head? = some (.lock .cache) ∧
        (s.todo true).head? = some (.lock .detector) :=
    ⟨_, rfl, rfl, rfl, rfl, rfl⟩
  refine hclaim Bool inferInstance s (reached_of_runGuarded .init hrun) ⟨Set.univ, ⟨true, trivial⟩, ?_⟩
  intro t _
  cases t with
  | false => exact ⟨.detector, hfalse, true, trivial, nofun, by simp [hfalse], hwantsDetector⟩
  | true => exact ⟨.cache, htrue, false, trivial, nofun, by simp [htrue], hwantsCache⟩

/-- The statistics taken while an access is still short of its look-ahead. -/
def apartRun : List (LockStep Bool Operation) :=
  .begin false (.onAccess sequentialAccess) :: .begin true .cacheStats :: List.replicate 7 (.act false) ++
    List.replicate 2 (.act true)

theorem locks_free_apart :
    ∃ s : LockState Bool Mutex, s.owner .cache = some true ∧ s.owner .strategy = some false ∧
      ¬ s.Deadlock := by
  have hrun : (runGuarded engineStep (LockState.Uncrossing .cache .detector) LockState.idle
      apartRun).map (fun s => (s.owner .cache, s.owner .strategy)) =
        some (some true, some false) := by decide
  obtain ⟨s, hs, howners⟩ := Option.map_eq_some_iff.mp hrun
  rw [Prod.mk.injEq] at howners
  exact ⟨s, howners.1, howners.2, locks_free_of_deadlock (reached_of_runGuarded .init hs)⟩

end Nyxis
