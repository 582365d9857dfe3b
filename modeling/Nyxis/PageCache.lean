import Mathlib.Data.List.AList
import Mathlib.Data.List.MinMax
import Nyxis.Format

/-!
# PageCache — the page cache of the prefetch engine

`PageCache` keeps up to `max_pages` pages, each with the tick of the clock at its last use.  A page that does not fit
replaces the least recently used one that is not pinned.

* `evictUntilFree_of_room`: the eviction loop takes out one page at most.
* `run_kept`: what holds of the entries after any operations.
* `page_cache_kept`: what the operations do to the pages that are kept.
-/

namespace Nyxis

open Lib

structure PageEntry where
  data : Bytes
  lastUsed : ℕ
  pinned : Bool
  deriving DecidableEq, Repr

/-- A `HashMap<u32, PageEntry>`. -/
abbrev PageMap := AList fun _ : UInt32 => PageEntry

/-- The order in which the entries of a map are iterated is left open. -/
structure Iteration where
  order : List (Σ _ : UInt32, PageEntry) → List (Σ _ : UInt32, PageEntry)
  perm : ∀ l, (order l).Perm l

@[ext] structure PageCache where
  maxPages : ℕ
  pageSize : ℕ
  pages : PageMap
  clock : ℕ
  hits : ℕ
  misses : ℕ

/-- `n.saturating_add(1)` on `u64`. -/
def tick (n : ℕ) : ℕ := min (n + 1) (2 ^ 64 - 1)

namespace PageCache

def new (maxPages pageSize : ℕ) : PageCache := ⟨maxPages, pageSize, ∅, 0, 0, 0⟩

def has (c : PageCache) (page : UInt32) : Bool := decide (page ∈ c.pages)

def get (c : PageCache) (page : UInt32) : Option Bytes × PageCache :=
  match c.pages.lookup page with
  | none => (none, c)
  | some e =>
    let clock := tick c.clock
    (some e.data, { c with clock, pages := c.pages.insert page { e with lastUsed := clock }, hits := tick c.hits })

/-- The page to evict: the first of the least recently used ones that are not pinned. -/
def victim (it : Iteration) (c : PageCache) : Option UInt32 :=
  (((it.order c.pages.entries).filter fun e => !e.2.pinned).argmin fun e => e.2.lastUsed).map Sigma.fst

def evictOne (it : Iteration) (c : PageCache) : Bool × PageCache :=
  match c.victim it with
  | some v => (true, { c with pages := c.pages.erase v })
  | none => (false, c)

/-- The loop that makes room for a page; the first argument bounds the number of pages it evicts. -/
def evictUntilFree (it : Iteration) : ℕ → PageCache → Bool × PageCache
  | 0, c => (false, c)
  | fuel + 1, c =>
    if c.maxPages ≤ c.pages.entries.length then
      match c.evictOne it with
      | (true, c) => evictUntilFree it fuel c
      | (false, c) => (false, c)
    else (true, c)

def insertPage (c : PageCache) (page : UInt32) (data : Bytes) (pinned : Bool) : PageCache :=
  let clock := tick c.clock
  { c with clock, pages := c.pages.insert page ⟨data, clock, pinned⟩ }

def set (it : Iteration) (c : PageCache) (page : UInt32) (data : Bytes) (pinned : Bool) : Bool × PageCache :=
  if c.maxPages = 0 then (false, c)
  else if c.has page then (true, c.insertPage page data pinned)
  else
    match c.evictUntilFree it (c.pages.entries.length + 1) with
    | (true, c) => (true, c.insertPage page data pinned)
    | (false, c) => (false, c)

def pinPage (c : PageCache) (page : UInt32) : PageCache :=
  match c.pages.lookup page with
  | some e => { c with pages := c.pages.insert page { e with pinned := true } }
  | none => c

def pinPages (c : PageCache) (pages : List UInt32) : PageCache := pages.foldl pinPage c

def unpinAll (c : PageCache) : PageCache :=
  { c with pages := ⟨c.pages.entries.map fun e => ⟨e.1, { e.2 with pinned := false }⟩,
      c.pages.nodupKeys.map₂ (fun _ e => { e with pinned := false }) _⟩ }

end PageCache

/-! ## Runs -/

inductive CacheOp where
  | get (page : UInt32)
  | set (page : UInt32) (data : Bytes) (pinned : Bool)
  | pinPages (pages : List UInt32)
  | unpinAll
  deriving DecidableEq, Repr

def CacheOp.apply (it : Iteration) (c : PageCache) : CacheOp → PageCache
  | .get page => (c.get page).2
  | .set page data pinned => (c.set it page data pinned).2
  | .pinPages pages => c.pinPages pages
  | .unpinAll => c.unpinAll

/-- The operation uses the page. -/
def CacheOp.uses (page : UInt32) : CacheOp → Bool
  | .get p => p == page
  | .set p _ _ => p == page
  | _ => false

section

variable (it : Iteration) (maxPages pageSize : ℕ)

/-- The cache after some operations, the latest of them first. -/
def runCache : List CacheOp → PageCache
  | [] => .new maxPages pageSize
  | op :: past => op.apply it (runCache past)

/-- The number of the last operation that used the page, 0 where none did. -/
def lastUse (page : UInt32) : List CacheOp → ℕ
  | [] => 0
  | op :: past => if op.uses page then past.length + 1 else lastUse page past

/-- The bytes of the last successful `set` of the page. -/
def lastSet (page : UInt32) : List CacheOp → Option Bytes
  | [] => none
  | .set p data pinned :: past =>
    if p = page ∧ ((runCache it maxPages pageSize past).set it p data pinned).1 = true then some data else lastSet page past
  | _ :: past => lastSet page past

/-- What holds of the entries of a cache after some operations. -/
structure CacheKept (past : List CacheOp) (c : PageCache) : Prop where
  capacity : c.pages.entries.length ≤ maxPages
  limit : c.maxPages = maxPages
  clock : c.clock ≤ past.length
  used : ∀ p e, c.pages.lookup p = some e → e.lastUsed ≤ c.clock
  stamps : ∀ p q e f, c.pages.lookup p = some e → c.pages.lookup q = some f → e.lastUsed = f.lastUsed → p = q
  recency : ∀ p q e f, c.pages.lookup p = some e → c.pages.lookup q = some f →
    (e.lastUsed < f.lastUsed ↔ lastUse p past < lastUse q past)
  data : ∀ p e, c.pages.lookup p = some e → lastSet it maxPages pageSize p past = some e.data

/-- What an operation does to the pages that are kept. -/
structure StepKept (past : List CacheOp) (op : CacheOp) : Prop where
  pinned : ∀ p e, (runCache it maxPages pageSize past).pages.lookup p = some e → e.pinned = true →
    p ∈ (runCache it maxPages pageSize (op :: past)).pages
  evicted : ∀ p e, (runCache it maxPages pageSize past).pages.lookup p = some e →
    p ∉ (runCache it maxPages pageSize (op :: past)).pages → (∃ page data pin, op = .set page data pin) ∧
      ∀ q f, (runCache it maxPages pageSize past).pages.lookup q = some f → f.pinned = false → q ≠ p →
        lastUse p past < lastUse q past
  failed : ∀ page data pin, op = .set page data pin →
    ((runCache it maxPages pageSize past).set it page data pin).1 = false →
      ∀ p, (runCache it maxPages pageSize (op :: past)).pages.lookup p = (runCache it maxPages pageSize past).pages.lookup p
  hit : ∀ page, op = .get page → page ∈ (runCache it maxPages pageSize past).pages →
    ∃ data, ((runCache it maxPages pageSize past).get page).1 = some data ∧ lastSet it maxPages pageSize page past = some data

/-- What is expected of a cache after some operations, and of every one of them. -/
structure CacheSound (ops : List CacheOp) : Prop where
  capacity : (runCache it maxPages pageSize ops).pages.entries.length ≤ maxPages
  stamps : ∀ p q e f, (runCache it maxPages pageSize ops).pages.lookup p = some e →
    (runCache it maxPages pageSize ops).pages.lookup q = some f → e.lastUsed = f.lastUsed → p = q
  steps : ∀ later op past, ops = later ++ op :: past → StepKept it maxPages pageSize past op

end

/-! ## One operation -/

theorem tick_of {n : ℕ} (h : n + 1 < 2 ^ 64) : tick n = n + 1 := by
  unfold tick
  omega

theorem lookup_insert_if (m : PageMap) (p q : UInt32) (e : PageEntry) :
    (m.insert p e).lookup q = if q = p then some e else m.lookup q := by
  split
  · subst_vars
    exact AList.lookup_insert m
  · exact AList.lookup_insert_ne (by assumption)

theorem entries_length (m : PageMap) : m.entries.length = m.keys.length := (List.length_map _).symm

theorem length_insert_le (m : PageMap) (p : UInt32) (e : PageEntry) :
    (m.insert p e).entries.length ≤ if p ∈ m then m.entries.length else m.entries.length + 1 := by
  rw [entries_length, AList.keys_insert, List.length_cons, entries_length]
  split
  · rename_i hp
    have := List.length_erase_of_mem (AList.mem_keys.mp hp)
    have := List.length_pos_of_mem (AList.mem_keys.mp hp)
    omega
  · exact Nat.succ_le_succ List.length_erase_le

theorem mem_of_lookup {m : PageMap} {p : UInt32} {e : PageEntry} (h : m.lookup p = some e) : p ∈ m :=
  AList.lookup_isSome.mp (by rw [h]; rfl)

namespace PageCache

section Evict

variable {it : Iteration} {c : PageCache}

/-- The victim is the least recently used of the pages that are not pinned. -/
theorem victim_spec {v : UInt32} (h : c.victim it = some v) : ∃ e, c.pages.lookup v = some e ∧ e.pinned = false ∧
    ∀ q f, c.pages.lookup q = some f → f.pinned = false → e.lastUsed ≤ f.lastUsed := by
  obtain ⟨⟨p, e⟩, hmin, rfl⟩ := Option.map_eq_some_iff.mp h
  obtain ⟨hmem, hpin⟩ := List.mem_filter.mp (List.argmin_mem hmin)
  refine ⟨e, AList.mem_lookup_iff.mpr ((it.perm _).mem_iff.mp hmem), by simpa using hpin, fun q f hf hfree => ?_⟩
  have hq : (⟨q, f⟩ : Σ _ : UInt32, PageEntry) ∈ (it.order c.pages.entries).filter fun e => !e.2.pinned := by
    rw [List.mem_filter, (it.perm _).mem_iff]
    exact ⟨AList.mem_lookup_iff.mp hf, by simp [hfree]⟩
  have hle := List.le_of_mem_argmin hq hmin
  exact hle

/-- Eviction takes out the victim, or nothing where every page is pinned. -/
theorem evictOne_lookup : (c.evictOne it).1 = true →
    ∃ v e, c.pages.lookup v = some e ∧ e.pinned = false ∧
      (∀ q f, c.pages.lookup q = some f → f.pinned = false → e.lastUsed ≤ f.lastUsed) ∧
      (c.evictOne it).2 = { c with pages := c.pages.erase v } := by
  intro h
  unfold evictOne at h ⊢
  cases hv : c.victim it with
  | none =>
    rw [hv] at h
    cases h
  | some v =>
    obtain ⟨e, he, hfree, hleast⟩ := victim_spec hv
    exact ⟨v, e, he, hfree, hleast, rfl⟩

theorem evictOne_false (h : (c.evictOne it).1 = false) : (c.evictOne it).2 = c := by
  unfold evictOne at h ⊢
  cases hv : c.victim it with
  | none => rfl
  | some v =>
    rw [hv] at h
    cases h

theorem length_erase {m : PageMap} {v : UInt32} (hv : v ∈ m) : (m.erase v).entries.length + 1 = m.entries.length := by
  have hlen := List.length_erase_of_mem (AList.mem_keys.mp hv)
  have hpos := List.length_pos_of_mem (AList.mem_keys.mp hv)
  rw [entries_length, entries_length, AList.keys_erase]
  omega

/-- A cache within its limit makes room by one eviction, or by none. -/
theorem evictUntilFree_of_room (hcap : c.pages.entries.length ≤ c.maxPages) :
    c.evictUntilFree it (c.pages.entries.length + 1) =
      if c.pages.entries.length < c.maxPages then (true, c) else c.evictOne it := by
  rw [evictUntilFree]
  by_cases hroom : c.pages.entries.length < c.maxPages
  · rw [if_neg (by omega), if_pos hroom]
  · rw [if_pos (by omega), if_neg hroom]
    cases h : (c.evictOne it).1 with
    | false =>
      rw [show c.evictOne it = (false, c) from Prod.ext h (evictOne_false h)]
    | true =>
      obtain ⟨v, e, he, -, -, hc⟩ := evictOne_lookup h
      rw [show c.evictOne it = (true, { c with pages := c.pages.erase v }) from Prod.ext h hc]
      have hlen := length_erase (mem_of_lookup he)
      obtain ⟨k, hk⟩ := Nat.exists_eq_add_of_le' (show 1 ≤ c.pages.entries.length by omega)
      dsimp only
      rw [hk, evictUntilFree, if_neg]
      dsimp only
      omega

/-- A set fails and changes nothing, or puts the page in after one eviction or none. -/
theorem set_cases (hcap : c.pages.entries.length ≤ c.maxPages) (page : UInt32) (data : Bytes) (pin : Bool) :
    (c.set it page data pin = (false, c) ∧ page ∉ c.pages) ∨
      ∃ c', c.set it page data pin = (true, c'.insertPage page data pin) ∧
        (page ∈ c'.pages ∨ c'.pages.entries.length < c'.maxPages) ∧
        (c' = c ∨ page ∉ c.pages ∧ ∃ v e, c.pages.lookup v = some e ∧ e.pinned = false ∧
          (∀ q f, c.pages.lookup q = some f → f.pinned = false → e.lastUsed ≤ f.lastUsed) ∧
          c' = { c with pages := c.pages.erase v }) := by
  rw [set, has]
  by_cases hzero : c.maxPages = 0
  · rw [if_pos hzero]
    refine .inl ⟨rfl, fun hp => ?_⟩
    have hlen : c.pages.entries.length = c.pages.keys.length := (List.length_map _).symm
    have := List.length_pos_of_mem (AList.mem_keys.mp hp)
    omega
  rw [if_neg hzero]
  by_cases hp : page ∈ c.pages
  · rw [if_pos (decide_eq_true hp)]
    exact .inr ⟨c, rfl, .inl hp, .inl rfl⟩
  rw [if_neg (by rwa [decide_eq_true_iff]), evictUntilFree_of_room hcap]
  by_cases hroom : c.pages.entries.length < c.maxPages
  · rw [if_pos hroom]
    exact .inr ⟨c, rfl, .inr hroom, .inl rfl⟩
  rw [if_neg hroom]
  cases h : (c.evictOne it).1 with
  | false =>
    rw [show c.evictOne it = (false, c) from Prod.ext h (evictOne_false h)]
    exact .inl ⟨rfl, hp⟩
  | true =>
    obtain ⟨v, e, he, hfree, hleast, hc⟩ := evictOne_lookup h
    rw [show c.evictOne it = (true, { c with pages := c.pages.erase v }) from Prod.ext h hc]
    have hlen := length_erase (mem_of_lookup he)
    refine .inr ⟨_, rfl, .inr ?_, .inr ⟨hp, v, e, he, hfree, hleast, rfl⟩⟩
    dsimp only
    omega

end Evict

/-- Pinning a page keeps its bytes and its tick. -/
theorem pinPage_lookup (c : PageCache) (page p : UInt32) : (c.pinPage page).pages.lookup p =
    (c.pages.lookup p).map fun e => if p = page then { e with pinned := true } else e := by
  unfold pinPage
  cases h : c.pages.lookup page with
  | none =>
    by_cases hp : p = page
    · rw [hp, h]
      rfl
    · cases c.pages.lookup p with
      | none => rfl
      | some e => rw [Option.map_some, if_neg hp]
  | some e =>
    dsimp only
    rw [lookup_insert_if]
    by_cases hp : p = page
    · rw [if_pos hp, hp, h, Option.map_some, if_pos rfl]
    · rw [if_neg hp]
      cases c.pages.lookup p with
      | none => rfl
      | some e => rw [Option.map_some, if_neg hp]

theorem unpinAll_lookup (c : PageCache) (p : UInt32) : c.unpinAll.pages.lookup p =
    (c.pages.lookup p).map fun e => { e with pinned := false } :=
  List.dlookup_map₂ (f := fun _ (e : PageEntry) => ({ e with pinned := false } : PageEntry)) p

end PageCache

/-! ## Runs -/

section

variable {it : Iteration} {maxPages pageSize : ℕ} {past : List CacheOp} {op : CacheOp} {c c' : PageCache}

/-- Entries that are left out, or pinned and unpinned, change nothing. -/
theorem CacheKept.sub (h : CacheKept it maxPages pageSize past c) (hlen : c'.pages.entries.length ≤ c.pages.entries.length)
    (hlimit : c'.maxPages = c.maxPages) (hclock : c'.clock = c.clock)
    (hpages : ∀ p e, c'.pages.lookup p = some e →
      ∃ f, c.pages.lookup p = some f ∧ f.lastUsed = e.lastUsed ∧ f.data = e.data) :
    CacheKept it maxPages pageSize past c' where
  capacity := hlen.trans h.capacity
  limit := hlimit.trans h.limit
  clock := hclock ▸ h.clock
  used p e he := by
    obtain ⟨f, hf, hused, -⟩ := hpages p e he
    rw [hclock, ← hused]
    exact h.used p f hf
  stamps p q e f he hf hef := by
    obtain ⟨e', he', hused, -⟩ := hpages p e he
    obtain ⟨f', hf', hused', -⟩ := hpages q f hf
    exact h.stamps p q e' f' he' hf' (by rw [hused, hused', hef])
  recency p q e f he hf := by
    obtain ⟨e', he', hused, -⟩ := hpages p e he
    obtain ⟨f', hf', hused', -⟩ := hpages q f hf
    rw [← hused, ← hused']
    exact h.recency p q e' f' he' hf'
  data p e he := by
    obtain ⟨f, hf, -, hdata⟩ := hpages p e he
    rw [← hdata]
    exact h.data p f hf

/-- An operation that uses no page of the cache. -/
theorem CacheKept.pass (h : CacheKept it maxPages pageSize past c) (huses : ∀ p ∈ c.pages, op.uses p = false) :
    CacheKept it maxPages pageSize (op :: past) c where
  capacity := h.capacity
  limit := h.limit
  clock := Nat.le_succ_of_le h.clock
  used := h.used
  stamps := h.stamps
  recency p q e f he hf := by
    rw [lastUse, lastUse, huses p (mem_of_lookup he), huses q (mem_of_lookup hf)]
    exact h.recency p q e f he hf
  data p e he := by
    have hp := huses p (mem_of_lookup he)
    cases op with
    | set q data pin =>
      rw [CacheOp.uses, beq_eq_false_iff_ne] at hp
      rw [lastSet, if_neg fun h => hp h.1]
      exact h.data p e he
    | _ => exact h.data p e he

theorem lastUse_le (p : UInt32) : ∀ past : List CacheOp, lastUse p past ≤ past.length
  | [] => Nat.le_refl 0
  | op :: past => by
    have ih := lastUse_le p past
    rw [lastUse, List.length_cons]
    split <;> omega

/-- An operation that uses one page, which gets a new tick of the clock. -/
theorem CacheKept.use (h : CacheKept it maxPages pageSize past c) (hlen : past.length + 1 < 2 ^ 64) {page : UInt32}
    {e : PageEntry} (huses : ∀ p, op.uses p = (page == p)) (hstamp : e.lastUsed = tick c.clock)
    (hdata : ∀ p, lastSet it maxPages pageSize p (op :: past) =
      if p = page then some e.data else lastSet it maxPages pageSize p past)
    (hroom : page ∈ c.pages ∨ c.pages.entries.length < c.maxPages) (hlimit : c'.maxPages = c.maxPages)
    (hclock : c'.clock = tick c.clock) (hpages : c'.pages = c.pages.insert page e) :
    CacheKept it maxPages pageSize (op :: past) c' := by
  have hlook : ∀ p, c'.pages.lookup p = if p = page then some e else c.pages.lookup p := fun p => by
    rw [hpages, lookup_insert_if]
  have hc := h.clock
  rw [tick_of (by omega)] at hstamp hclock
  have hlast : ∀ p, lastUse p (op :: past) = if p = page then past.length + 1 else lastUse p past := fun p => by
    rw [lastUse, huses]
    by_cases hp : p = page
    · rw [if_pos (by rw [hp, beq_self_eq_true]), if_pos hp]
    · rw [if_neg (by rw [beq_iff_eq]; exact Ne.symm hp), if_neg hp]
  have hsplit : ∀ p f, c'.pages.lookup p = some f → p = page ∧ f = e ∨ p ≠ page ∧ c.pages.lookup p = some f := fun p f hf => by
    rw [hlook] at hf
    by_cases hp : p = page
    · rw [if_pos hp, Option.some.injEq] at hf
      exact .inl ⟨hp, hf.symm⟩
    · rw [if_neg hp] at hf
      exact .inr ⟨hp, hf⟩
  constructor
  · have hle := length_insert_le c.pages page e
    rw [← hpages] at hle
    have hcap := h.capacity
    have hlim := h.limit
    split at hle <;> rcases hroom with hp | hp <;> first | omega | contradiction
  · exact hlimit.trans h.limit
  · rw [hclock, List.length_cons]
    omega
  · intro p f hf
    rw [hclock]
    rcases hsplit p f hf with ⟨-, rfl⟩ | ⟨-, hf⟩
    · exact Nat.le_of_eq hstamp
    · exact Nat.le_succ_of_le (h.used p f hf)
  · intro p q f g hf hg hfg
    rcases hsplit p f hf with ⟨rfl, rfl⟩ | ⟨-, hf⟩ <;> rcases hsplit q g hg with ⟨rfl, rfl⟩ | ⟨-, hg⟩
    · rfl
    · have := h.used q g hg
      omega
    · have := h.used p f hf
      omega
    · exact h.stamps p q f g hf hg hfg
  · intro p q f g hf hg
    rw [hlast, hlast]
    have hp := lastUse_le p past
    have hq := lastUse_le q past
    rcases hsplit p f hf with ⟨rfl, rfl⟩ | ⟨hne, hf⟩ <;> rcases hsplit q g hg with ⟨rfl, rfl⟩ | ⟨hne', hg⟩
    · simp
    · have := h.used q g hg
      rw [if_pos rfl, if_neg hne']
      omega
    · have := h.used p f hf
      rw [if_pos rfl, if_neg hne]
      omega
    · rw [if_neg hne, if_neg hne']
      exact h.recency p q f g hf hg
  · intro p f hf
    rw [hdata]
    rcases hsplit p f hf with ⟨rfl, rfl⟩ | ⟨hne, hf⟩
    · rw [if_pos rfl]
    · rw [if_neg hne]
      exact h.data p f hf

theorem CacheKept.get (h : CacheKept it maxPages pageSize past c) (hlen : past.length + 1 < 2 ^ 64) (page : UInt32) :
    CacheKept it maxPages pageSize (.get page :: past) (c.get page).2 := by
  unfold PageCache.get
  cases he : c.pages.lookup page with
  | none =>
    refine h.pass fun p hp => beq_eq_false_iff_ne.mpr fun hpage => ?_
    rw [← hpage] at hp
    exact AList.lookup_eq_none.mp he hp
  | some e =>
    refine h.use hlen (fun p => rfl) (e := { e with lastUsed := tick c.clock }) rfl (fun p => ?_) (.inl (mem_of_lookup he))
      rfl rfl rfl
    change lastSet it maxPages pageSize p past = _
    split
    · subst_vars
      exact h.data _ e he
    · rfl

/-- Taking the page out keeps what is known of the others. -/
theorem CacheKept.erase (h : CacheKept it maxPages pageSize past c) (v : UInt32) :
    CacheKept it maxPages pageSize past { c with pages := c.pages.erase v } := by
  refine h.sub ?_ rfl rfl fun p e he => ?_
  · dsimp only
    rw [entries_length, entries_length, AList.keys_erase]
    exact List.length_erase_le
  · by_cases hp : p = v
    · dsimp only at he
      rw [hp, AList.lookup_erase] at he
      cases he
    · exact ⟨e, (AList.lookup_erase_ne hp).symm.trans he, rfl, rfl⟩

theorem CacheKept.set (h : CacheKept it maxPages pageSize past (runCache it maxPages pageSize past))
    (hlen : past.length + 1 < 2 ^ 64) (page : UInt32) (data : Bytes) (pin : Bool) :
    CacheKept it maxPages pageSize (.set page data pin :: past) ((runCache it maxPages pageSize past).set it page data pin).2 := by
  have hcap := h.capacity.trans_eq h.limit.symm
  rcases @PageCache.set_cases it _ hcap page data pin with ⟨hset, hp⟩ | ⟨c', hset, hroom, hc'⟩
  · rw [hset]
    refine h.pass fun p hmem => beq_eq_false_iff_ne.mpr fun hpage => ?_
    rw [← hpage] at hmem
    exact hp hmem
  · have h' : CacheKept it maxPages pageSize past c' := by
      rcases hc' with rfl | ⟨-, v, -, -, -, -, rfl⟩
      · exact h
      · exact h.erase v
    rw [hset]
    refine h'.use hlen (fun p => rfl) (e := ⟨data, tick c'.clock, pin⟩) rfl (fun p => ?_) hroom rfl rfl rfl
    rw [lastSet, hset]
    by_cases hp : p = page
    · rw [if_pos hp, if_pos ⟨hp.symm, rfl⟩]
    · rw [if_neg hp, if_neg fun h => hp h.1.symm]

/-- Pins change neither bytes nor ticks. -/
theorem CacheKept.pinPages : ∀ {c : PageCache} (pages : List UInt32), CacheKept it maxPages pageSize past c →
    CacheKept it maxPages pageSize past (c.pinPages pages)
  | _, [], h => h
  | c, page :: pages, h => by
    refine CacheKept.pinPages (c := c.pinPage page) pages (h.sub ?_ ?_ ?_ fun p e he => ?_)
    · unfold PageCache.pinPage
      cases he : c.pages.lookup page with
      | none => exact Nat.le_refl _
      | some e =>
        have hle := length_insert_le c.pages page { e with pinned := true }
        rwa [if_pos (mem_of_lookup he)] at hle
    · unfold PageCache.pinPage
      split <;> rfl
    · unfold PageCache.pinPage
      split <;> rfl
    · rw [PageCache.pinPage_lookup] at he
      obtain ⟨f, hf, rfl⟩ := Option.map_eq_some_iff.mp he
      refine ⟨f, hf, ?_⟩
      split <;> exact ⟨rfl, rfl⟩

theorem CacheKept.unpinAll (h : CacheKept it maxPages pageSize past c) : CacheKept it maxPages pageSize past c.unpinAll := by
  refine h.sub (Nat.le_of_eq (List.length_map _)) rfl rfl fun p e he => ?_
  rw [PageCache.unpinAll_lookup] at he
  obtain ⟨f, hf, rfl⟩ := Option.map_eq_some_iff.mp he
  exact ⟨f, hf, rfl, rfl⟩

/-- What holds of the entries after any operations, by the operations one after the other. -/
theorem run_kept : ∀ {past : List CacheOp}, past.length < 2 ^ 64 →
    CacheKept it maxPages pageSize past (runCache it maxPages pageSize past)
  | [], _ => by
    have hnone : ∀ p e, (runCache it maxPages pageSize []).pages.lookup p ≠ some e := fun p e h => by cases h
    exact ⟨Nat.zero_le _, rfl, Nat.le_refl 0, fun p e h => absurd h (hnone p e), fun p _ e _ h => absurd h (hnone p e),
      fun p _ e _ h => absurd h (hnone p e), fun p e h => absurd h (hnone p e)⟩
  | op :: past, hlen => by
    rw [List.length_cons] at hlen
    have ih := @run_kept past (by omega)
    cases op with
    | get page => exact ih.get hlen page
    | set page data pin => exact ih.set hlen page data pin
    | pinPages pages => exact (CacheKept.pinPages pages ih).pass fun _ _ => rfl
    | unpinAll => exact ih.unpinAll.pass fun _ _ => rfl

/-! ## The pages that are kept -/

theorem mem_pinPages (p : UInt32) : ∀ {pages : List UInt32} {c : PageCache}, p ∈ c.pages → p ∈ (c.pinPages pages).pages
  | [], _, h => h
  | page :: pages, c, h => by
    refine mem_pinPages p (c := c.pinPage page) ?_
    rw [← AList.lookup_isSome, PageCache.pinPage_lookup, Option.isSome_map]
    exact AList.lookup_isSome.mpr h

/-- Only a set takes a page out, and only the victim. -/
theorem evicted_cases (h : CacheKept it maxPages pageSize past c) {p : UInt32} {e : PageEntry}
    (he : c.pages.lookup p = some e) (hp : p ∉ (op.apply it c).pages) :
    (∃ page data pin, op = .set page data pin) ∧ e.pinned = false ∧
      ∀ q f, c.pages.lookup q = some f → f.pinned = false → e.lastUsed ≤ f.lastUsed := by
  have hmem := mem_of_lookup he
  cases op with
  | get page =>
    refine absurd ?_ hp
    rw [CacheOp.apply, PageCache.get]
    cases c.pages.lookup page with
    | none => exact hmem
    | some f => exact (AList.mem_insert _).mpr (.inr hmem)
  | pinPages pages => exact absurd (mem_pinPages p hmem) hp
  | unpinAll =>
    refine absurd ?_ hp
    rw [CacheOp.apply, ← AList.lookup_isSome, PageCache.unpinAll_lookup, Option.isSome_map]
    exact AList.lookup_isSome.mpr hmem
  | set page data pin =>
    refine ⟨⟨page, data, pin, rfl⟩, ?_⟩
    have hcap := h.capacity.trans_eq h.limit.symm
    rw [CacheOp.apply] at hp
    rcases @PageCache.set_cases it _ hcap page data pin with ⟨hset, -⟩ | ⟨c', hset, -, hc'⟩
    · rw [hset] at hp
      exact absurd hmem hp
    · rw [hset] at hp
      have hout : p ∉ c'.pages := fun hin => hp ((AList.mem_insert _).mpr (.inr hin))
      rcases hc' with rfl | ⟨-, v, e', hv, hfree, hleast, rfl⟩
      · exact absurd hmem hout
      · have hpv : p = v := by
          by_contra hne
          exact hout (AList.mem_erase.mpr ⟨hne, hmem⟩)
        subst hpv
        rw [he, Option.some.injEq] at hv
        exact hv ▸ ⟨hfree, hleast⟩

theorem step_kept (hlen : past.length < 2 ^ 64) : StepKept it maxPages pageSize past op := by
  have h : CacheKept it maxPages pageSize past _ := run_kept hlen
  constructor
  · intro p e he hpin
    by_contra hp
    rw [(evicted_cases h he hp).2.1] at hpin
    cases hpin
  · intro p e he hp
    obtain ⟨hset, -, hleast⟩ := evicted_cases h he hp
    refine ⟨hset, fun q f hf hfree hne => (h.recency p q e f he hf).mp ?_⟩
    refine Nat.lt_of_le_of_ne (hleast q f hf hfree) fun heq => hne ?_
    exact (h.stamps p q e f he hf heq).symm
  · intro page data pin hop hfailed p
    have hcap := h.capacity.trans_eq h.limit.symm
    rw [runCache, hop, CacheOp.apply]
    rcases @PageCache.set_cases it _ hcap page data pin with ⟨hset, -⟩ | ⟨c', hset, -⟩
    · rw [hset]
    · rw [hset] at hfailed
      cases hfailed
  · intro page _ hp
    obtain ⟨e, he⟩ := Option.isSome_iff_exists.mp (AList.lookup_isSome.mpr hp)
    refine ⟨e.data, ?_, h.data page e he⟩
    rw [PageCache.get, he]

end

/-- Fewer than `2 ^ 64` operations keep a page cache within its limit and its entries in the order of their last use. -/
theorem page_cache_kept (it : Iteration) (maxPages pageSize : ℕ) {ops : List CacheOp} (hlen : ops.length < 2 ^ 64) :
    CacheSound it maxPages pageSize ops where
  capacity := (run_kept hlen).capacity
  stamps := (run_kept hlen).stamps
  steps later op past hops := by
    refine step_kept ?_
    rw [hops, List.length_append, List.length_cons] at hlen
    omega

/-- Two pages, a third one, and no room for a fourth. -/
theorem page_cache_kept_pinned : CacheSound ⟨id, fun l => .refl l⟩ 2 16
    [.set 4 [4] false, .pinPages [1, 3], .set 3 [3] false, .get 1, .set 2 [2] false, .set 1 [1] false] :=
  page_cache_kept _ 2 16 (by decide)

end Nyxis
