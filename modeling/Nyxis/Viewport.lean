import Mathlib.Data.Finset.Basic
import Nyxis.Lib.Recency
import Nyxis.PageCache
import Nyxis.PageRanges
import Nyxis.PrefetchOffsets
import Nyxis.Writer

/-!
# Viewport — the pages that stay after a viewport was prefetched

`prefetchViewport` fetches the pages of a viewport that are not in the cache, and pins and unpins them all afterwards.
Fetching evicts pages that were used longest ago, and a page of the viewport that was in the cache already may be one of
them.

* `set_recency`: a `set` in a cache without pinned pages uses a key.
* `viewport_resident_iff`: exactly when every page of the viewport is in the cache in the end.
-/

namespace Nyxis

open Lib Lib.Outcome

inductive AccessHint where
  | unknown
  | sequential
  | random
  | full
  | partial_
  deriving DecidableEq, Repr

structure OpenOptions where
  hint : AccessHint
  maxPages : ℕ
  pageSize : ℕ
  coalesceGapPages : ℕ
  prefetchDepth : ℕ
  deriving DecidableEq, Repr

def OpenOptions.validate (o : OpenOptions) : Res Unit :=
  if o.pageSize = 0 then .err (.parseError "prefetch page_size must be greater than 0") else .ok ()

/-- The parts of the engine that a fetch reads and writes.  A reader validates the options before it makes an engine. -/
structure PrefetchEngine where
  options : OpenOptions
  valid : options.validate = .ok ()
  cache : PageCache
  inFlight : Finset UInt32
  fetchesIssued : ℕ

/-- `range.page_start..=range.page_end`. -/
def CoalescedRange.pages (r : CoalescedRange) : List UInt32 :=
  (List.range' r.pageStart.toNat (r.pageEnd.toNat + 1 - r.pageStart.toNat)).map .ofNat

namespace PrefetchEngine

def new (options : OpenOptions) (valid : options.validate = .ok ()) : PrefetchEngine :=
  ⟨options, valid, .new options.maxPages options.pageSize, ∅, 0⟩

section

variable (it : Iteration) (d : Bytes)

/-- The bytes of a page that begins in the file. -/
def pageData (pageSize : ℕ) (p : UInt32) : Bytes :=
  let byteStart := p.toNat * pageSize
  let byteEnd := min ((p.toNat + 1) * pageSize) d.length
  (d.drop byteStart).take (byteEnd - byteStart)

/-- One round of `fetch_range`.  The bytes of the range were checked, so no product overflows. -/
def fetchPage (s : PrefetchEngine) (p : UInt32) : PrefetchEngine :=
  let byteStart := p.toNat * s.options.pageSize
  if byteStart ≥ d.length then { s with inFlight := s.inFlight.erase p }
  else
    { s with
      cache := (s.cache.set it p (pageData d s.options.pageSize p) false).2
      inFlight := s.inFlight.erase p }

def fetchRange (s : PrefetchEngine) (r : CoalescedRange) : PrefetchEngine :=
  let s := { s with inFlight := s.inFlight ∪ r.pages.toFinset, fetchesIssued := (s.fetchesIssued + 1) % 2 ^ 64 }
  r.pages.foldl (fetchPage it d) s

/-- The page numbers of the records of a viewport. -/
def viewportPages (pageSize tailStart start stop : ℕ) : List UInt32 :=
  sortedPages ((List.range' start (stop + 1 - start)).filterMap fun i =>
    (rowRecordOffset d tailStart i >>= pageOf pageSize).toOption)

/-- The pages that are neither in the cache nor on their way. -/
def needed (s : PrefetchEngine) (pages : List UInt32) : List UInt32 := pages.filter fun p => !s.cache.has p && p ∉ s.inFlight

def fetchedRanges (s : PrefetchEngine) (pages : List UInt32) : List CoalescedRange :=
  clampRanges (coalescePageIndices (s.needed pages) s.options.coalesceGapPages s.options.pageSize) d.length

def prefetchViewport (tailStart recordCount startIndex endIndex : ℕ) (s : PrefetchEngine) : PrefetchEngine :=
  if recordCount = 0 ∨ d = [] then s
  else
    let start := min startIndex (recordCount - 1)
    let stop := min endIndex (recordCount - 1)
    if start > stop then s
    else
      let pages := viewportPages d s.options.pageSize tailStart start stop
      let s := (s.fetchedRanges d pages).foldl (fetchRange it d) s
      { s with cache := (s.cache.pinPages pages).unpinAll }

end

end PrefetchEngine

/-! ## One fetched page -/

/-- The tick of the last use of a page, 0 where it is not in the cache. -/
def PageCache.stamp (c : PageCache) (p : UInt32) : ℕ := (c.pages.lookup p).elim 0 PageEntry.lastUsed

/-- The pages of a cache in the order of their last use, the latest first; none of them is pinned. -/
structure Recency (c : PageCache) (recent : List UInt32) : Prop where
  pages : ∀ p, p ∈ recent ↔ p ∈ c.pages
  order : recent.Pairwise fun p q => c.stamp q < c.stamp p
  free : ∀ p e, c.pages.lookup p = some e → e.pinned = false
  used : ∀ p, c.stamp p ≤ c.clock

section

variable {it : Iteration} {c : PageCache} {recent : List UInt32}

theorem stamp_of_lookup {p : UInt32} {e : PageEntry} (h : c.pages.lookup p = some e) : c.stamp p = e.lastUsed := by
  rw [PageCache.stamp, h]
  rfl

theorem Recency.nodup (h : Recency c recent) : recent.Nodup := by
  refine h.order.imp fun hlt => ?_
  rintro rfl
  exact Nat.lt_irrefl _ hlt

theorem Recency.length (h : Recency c recent) : recent.length = c.pages.entries.length := by
  have hkeys : c.pages.keys.length = c.pages.entries.length := List.length_map _
  have hperm : recent.Perm c.pages.keys :=
    (List.perm_ext_iff_of_nodup h.nodup c.pages.nodupKeys).mpr fun p => (h.pages p).trans AList.mem_keys.symm
  rw [hperm.length_eq, hkeys]

/-- A new page comes before the others. -/
theorem Recency.insert (h : Recency c recent) (hclock : c.clock + 1 < 2 ^ 64) (p : UInt32) (data : Bytes) :
    Recency (c.insertPage p data false) (p :: recent.erase p) := by
  have hlookup : ∀ q, (c.insertPage p data false).pages.lookup q =
      if q = p then some ⟨data, c.clock + 1, false⟩ else c.pages.lookup q := by
    intro q
    rw [PageCache.insertPage, tick_of hclock]
    exact lookup_insert_if _ _ _ _
  have hstamp : ∀ q, (c.insertPage p data false).stamp q = if q = p then c.clock + 1 else c.stamp q := by
    intro q
    rw [PageCache.stamp, hlookup]
    split
    · rfl
    · rfl
  constructor
  · intro q
    rw [List.mem_cons, h.nodup.mem_erase_iff, h.pages, ← AList.lookup_isSome (s := c.pages),
      ← AList.lookup_isSome, hlookup]
    by_cases hq : q = p <;> simp [hq]
  · refine List.pairwise_cons.mpr ⟨fun q hq => ?_, ?_⟩
    · obtain ⟨hne, -⟩ := h.nodup.mem_erase_iff.mp hq
      rw [hstamp, hstamp, if_neg hne, if_pos rfl]
      exact Nat.lt_succ_of_le (h.used q)
    · refine (h.order.sublist List.erase_sublist).imp_of_mem fun {a b} ha hb hlt => ?_
      rw [hstamp, hstamp, if_neg (h.nodup.mem_erase_iff.mp ha).1, if_neg (h.nodup.mem_erase_iff.mp hb).1]
      exact hlt
  · intro q e he
    rw [hlookup] at he
    split at he
    · cases he
      rfl
    · exact h.free q e he
  · intro q
    have hclock' : (c.insertPage p data false).clock = c.clock + 1 := tick_of hclock
    have := h.used q
    rw [hstamp, hclock']
    split <;> omega

/-- The page that is evicted is the last one. -/
theorem Recency.evict (h : Recency c recent) {v : UInt32} {e : PageEntry} (he : c.pages.lookup v = some e)
    (hleast : ∀ q f, c.pages.lookup q = some f → f.pinned = false → e.lastUsed ≤ f.lastUsed) :
    Recency { c with pages := c.pages.erase v } (recent.take (recent.length - 1)) := by
  have hv : v ∈ recent := (h.pages v).mpr (mem_of_lookup he)
  have hne : recent ≠ [] := List.ne_nil_of_mem hv
  obtain ⟨front, last, rfl⟩ : ∃ front last, recent = front ++ [last] := ⟨_, _, (List.dropLast_append_getLast hne).symm⟩
  obtain ⟨hfront, -, hbefore⟩ := List.pairwise_append.mp h.order
  obtain rfl : v = last := by
    rcases List.mem_append.mp hv with hmem | hmem
    · have hlt := hbefore v hmem last List.mem_cons_self
      obtain ⟨f, hf⟩ := Option.isSome_iff_exists.mp (AList.lookup_isSome.mpr ((h.pages last).mp (by simp)))
      have hle := hleast last f hf (h.free last f hf)
      rw [stamp_of_lookup he, stamp_of_lookup hf] at hlt
      omega
    · exact List.mem_singleton.mp hmem
  have hnot : v ∉ front := fun hmem => Nat.lt_irrefl _ (hbefore v hmem v List.mem_cons_self)
  have hlookup : ∀ q, q ≠ v → (c.pages.erase v).lookup q = c.pages.lookup q := fun q hq => AList.lookup_erase_ne hq
  have hstamp : ∀ q, q ≠ v → PageCache.stamp { c with pages := c.pages.erase v } q = c.stamp q := by
    intro q hq
    rw [PageCache.stamp, hlookup q hq]
    rfl
  rw [List.length_append, List.length_singleton, Nat.add_sub_cancel, List.take_left]
  constructor
  · intro q
    have hq := h.pages q
    rw [List.mem_append, List.mem_singleton] at hq
    rw [AList.mem_erase, ← hq]
    constructor
    · intro hmem
      exact ⟨fun heq => hnot (heq ▸ hmem), .inl hmem⟩
    · rintro ⟨hne, hmem | rfl⟩
      · exact hmem
      · exact absurd rfl hne
  · refine hfront.imp_of_mem fun {a b} ha hb hlt => ?_
    rw [hstamp a fun heq => hnot (heq ▸ ha), hstamp b fun heq => hnot (heq ▸ hb)]
    exact hlt
  · intro q f hf
    by_cases hq : q = v
    · subst hq
      rw [AList.lookup_erase] at hf
      cases hf
    · exact h.free q f ((hlookup q hq).symm.trans hf)
  · intro q
    by_cases hq : q = v
    · subst hq
      rw [PageCache.stamp, AList.lookup_erase]
      exact Nat.zero_le _
    · rw [hstamp q hq]
      exact h.used q

/-- Where no page is pinned, there is one to evict. -/
theorem Recency.evictOne (h : Recency c recent) (hpos : 0 < c.pages.entries.length) : (c.evictOne it).1 = true := by
  unfold PageCache.evictOne PageCache.victim
  have hall : (it.order c.pages.entries).filter (fun e => !e.2.pinned) = it.order c.pages.entries := by
    refine List.filter_eq_self.mpr fun x hx => ?_
    have hmem := (it.perm _).mem_iff.mp hx
    have := h.free x.1 x.2 (AList.mem_lookup_iff.mpr hmem)
    simp [this]
  rw [hall]
  cases hmin : (it.order c.pages.entries).argmin fun e => e.2.lastUsed with
  | none =>
    rw [List.argmin_eq_none] at hmin
    have := (it.perm c.pages.entries).length_eq
    rw [hmin] at this
    simp at this
    omega
  | some x => rfl

/-- A `set` in a cache without pinned pages is a use of its page. -/
theorem set_recency (h : Recency c recent) (hcap : c.pages.entries.length ≤ c.maxPages) (hclock : c.clock + 1 < 2 ^ 64)
    (p : UInt32) (data : Bytes) : Recency (c.set it p data false).2 (useKey c.maxPages recent p) := by
  have hlen := h.length
  rw [PageCache.set, PageCache.has]
  by_cases hzero : c.maxPages = 0
  · rw [if_pos hzero, hzero, useKey, List.take_zero]
    obtain rfl : recent = [] := List.length_eq_zero_iff.mp (by omega)
    exact h
  rw [if_neg hzero]
  by_cases hp : p ∈ c.pages
  · have := List.length_erase_add_one ((h.pages p).mpr hp)
    rw [if_pos (decide_eq_true hp), useKey, List.take_of_length_le (by rw [List.length_cons]; omega)]
    exact h.insert hclock p data
  have hnot : p ∉ recent := fun hmem => hp ((h.pages p).mp hmem)
  rw [if_neg (by rwa [decide_eq_true_iff]), PageCache.evictUntilFree_of_room hcap, useKey, List.erase_of_not_mem hnot]
  by_cases hroom : c.pages.entries.length < c.maxPages
  · rw [if_pos hroom, List.take_of_length_le (by rw [List.length_cons]; omega)]
    have hins := h.insert hclock p data
    rwa [List.erase_of_not_mem hnot] at hins
  -- the cache is full: the last page makes room
  · rw [if_neg hroom]
    have hdone : (c.evictOne it).1 = true := h.evictOne (by omega)
    obtain ⟨v, e, he, -, hleast, hc⟩ := PageCache.evictOne_lookup hdone
    rw [show c.evictOne it = (true, { c with pages := c.pages.erase v }) from Prod.ext hdone hc]
    have hins := (h.evict he hleast).insert (show c.clock + 1 < 2 ^ 64 from hclock) p data
    rw [List.erase_of_not_mem fun hmem => hnot (List.mem_of_mem_take hmem)] at hins
    have htake : (p :: recent).take c.maxPages = p :: recent.take (recent.length - 1) := by
      obtain ⟨k, hk⟩ := Nat.exists_eq_add_of_le' (show 1 ≤ c.maxPages by omega)
      rw [hk, List.take_succ_cons, show k = recent.length - 1 by omega]
    rw [htake]
    exact hins

end

/-! ## The fetched pages -/

/-- The pages that a call fetches, in the order in which they are fetched. -/
def PrefetchEngine.fetchedPages (d : Bytes) (s : PrefetchEngine) (pages : List UInt32) : List UInt32 :=
  ((s.fetchedRanges d pages).flatMap CoalescedRange.pages).filter fun p => p.toNat * s.options.pageSize < d.length

/-- The `set` of a fetched page. -/
def setPage (it : Iteration) (d : Bytes) (pageSize : ℕ) (c : PageCache) (p : UInt32) : PageCache :=
  (c.set it p (PrefetchEngine.pageData d pageSize p) false).2

section

variable (it : Iteration) (d : Bytes)

theorem fetchPages_cache (s : PrefetchEngine) (pages : List UInt32) :
    (pages.foldl (PrefetchEngine.fetchPage it d) s).options = s.options ∧
      (pages.foldl (PrefetchEngine.fetchPage it d) s).cache =
        (pages.filter fun p => p.toNat * s.options.pageSize < d.length).foldl (setPage it d s.options.pageSize) s.cache := by
  induction pages generalizing s with
  | nil => exact ⟨rfl, rfl⟩
  | cons p pages ih =>
    rw [List.foldl_cons, PrefetchEngine.fetchPage]
    by_cases hin : p.toNat * s.options.pageSize < d.length
    · rw [if_neg (by omega), List.filter_cons, if_pos (by simpa using hin), List.foldl_cons]
      exact ih _
    · rw [if_pos (by omega), List.filter_cons, if_neg (by simpa using hin)]
      exact ih _

/-- The fetches of a list of ranges are the `set`s of the pages of the ranges that begin in the file. -/
theorem fetchRanges_cache (s : PrefetchEngine) (ranges : List CoalescedRange) :
    (ranges.foldl (PrefetchEngine.fetchRange it d) s).options = s.options ∧
      (ranges.foldl (PrefetchEngine.fetchRange it d) s).cache =
        ((ranges.flatMap CoalescedRange.pages).filter fun p => p.toNat * s.options.pageSize < d.length).foldl
          (setPage it d s.options.pageSize) s.cache := by
  induction ranges generalizing s with
  | nil => exact ⟨rfl, rfl⟩
  | cons r ranges ih =>
    obtain ⟨hopt, hcache⟩ := fetchPages_cache it d { s with
      inFlight := s.inFlight ∪ r.pages.toFinset, fetchesIssued := (s.fetchesIssued + 1) % 2 ^ 64 } r.pages
    obtain ⟨hopts, hcaches⟩ := ih (PrefetchEngine.fetchRange it d s r)
    have hr : (PrefetchEngine.fetchRange it d s r).options = s.options := hopt
    rw [List.foldl_cons, List.flatMap_cons, List.filter_append, List.foldl_append]
    have hc : (PrefetchEngine.fetchRange it d s r).cache =
        (r.pages.filter fun p => p.toNat * s.options.pageSize < d.length).foldl (setPage it d s.options.pageSize) s.cache :=
      hcache
    exact ⟨hopts.trans hr, by rw [hcaches, hr, hc]⟩

end

section

variable {it : Iteration} {maxPages pageSize : ℕ}

/-- The `set`s of some pages are uses of them. -/
theorem fetched_recency {d : Bytes} {fetched : List UInt32} : ∀ {ops : List CacheOp} {recent : List UInt32},
    ops.length + fetched.length < 2 ^ 64 → Recency (runCache it maxPages pageSize ops) recent →
      Recency (fetched.foldl (setPage it d pageSize) (runCache it maxPages pageSize ops))
        (fetched.foldl (useKey maxPages) recent) := by
  induction fetched with
  | nil => exact fun _ h => h
  | cons p fetched ih =>
    intro ops recent hlen h
    rw [List.length_cons] at hlen
    have hkept : CacheKept it maxPages pageSize ops (runCache it maxPages pageSize ops) := run_kept (by omega)
    have hclock := hkept.clock
    have hset := @set_recency it _ _ h (by rw [hkept.limit]; exact hkept.capacity) (by omega) p
      (PrefetchEngine.pageData d pageSize p)
    rw [hkept.limit] at hset
    exact @ih (.set p (PrefetchEngine.pageData d pageSize p) false :: ops) _ (by rw [List.length_cons]; omega) hset

/-- The pages of a cache after some operations, in the order of their last use. -/
theorem recency_run {ops : List CacheOp} (hlen : ops.length < 2 ^ 64)
    (hfree : ∀ p e, (runCache it maxPages pageSize ops).pages.lookup p = some e → e.pinned = false) :
    ∃ recent, Recency (runCache it maxPages pageSize ops) recent := by
  have hkept : CacheKept it maxPages pageSize ops (runCache it maxPages pageSize ops) := run_kept hlen
  generalize runCache it maxPages pageSize ops = c at hfree hkept
  let later : UInt32 → UInt32 → Prop := fun p q => c.stamp q ≤ c.stamp p
  have : Std.Total later := ⟨fun p q => Nat.le_total _ _⟩
  have : IsTrans UInt32 later := ⟨fun p q r h1 h2 => Nat.le_trans h2 h1⟩
  have hmem : ∀ p, p ∈ c.pages.keys.insertionSort later ↔ p ∈ c.pages := fun p =>
    (List.mem_insertionSort _).trans AList.mem_keys.symm
  have hnodup : (c.pages.keys.insertionSort later).Nodup :=
    (List.perm_insertionSort _ _).nodup_iff.mpr c.pages.nodupKeys
  refine ⟨c.pages.keys.insertionSort later, hmem, ?_, hfree, fun p => ?_⟩
  · refine ((List.pairwise_insertionSort later _).and hnodup).imp_of_mem fun {p q} hp hq hboth => ?_
    obtain ⟨e, he⟩ := Option.isSome_iff_exists.mp (AList.lookup_isSome.mpr ((hmem p).mp hp))
    obtain ⟨f, hf⟩ := Option.isSome_iff_exists.mp (AList.lookup_isSome.mpr ((hmem q).mp hq))
    have hne : e.lastUsed ≠ f.lastUsed := fun heq => hboth.2 (hkept.stamps p q e f he hf heq)
    have hle : c.stamp q ≤ c.stamp p := hboth.1
    rw [stamp_of_lookup he, stamp_of_lookup hf] at hle ⊢
    omega
  · cases he : c.pages.lookup p with
    | none =>
      rw [PageCache.stamp, he]
      exact Nat.zero_le _
    | some e =>
      rw [stamp_of_lookup he]
      exact hkept.used p e he

end

/-! ## The order of the fetched pages -/

theorem mem_pages {r : CoalescedRange} {p : UInt32} (h : p ∈ r.pages) : r.pageStart ≤ p ∧ p ≤ r.pageEnd := by
  obtain ⟨n, hn, rfl⟩ := List.mem_map.mp h
  rw [List.mem_range'_1] at hn
  have hend := r.pageEnd.toNat_lt
  rw [UInt32.le_iff_toNat_le, UInt32.le_iff_toNat_le, UInt32.toNat_ofNat_of_lt' (show n < 2 ^ 32 by omega)]
  omega

theorem pages_ascending (r : CoalescedRange) : r.pages.Pairwise (· < ·) := by
  rw [CoalescedRange.pages, List.pairwise_map]
  refine (@List.pairwise_lt_range' r.pageStart.toNat _ 1 Nat.one_pos).imp_of_mem fun {m n} hm hn hlt => ?_
  rw [List.mem_range'_1] at hm hn
  have hend := r.pageEnd.toNat_lt
  rw [UInt32.lt_iff_toNat_lt, UInt32.toNat_ofNat_of_lt' (show m < 2 ^ 32 by omega),
    UInt32.toNat_ofNat_of_lt' (show n < 2 ^ 32 by omega)]
  exact hlt

theorem rangeOfSpan_ends {pageSize : ℕ} {span : UInt32 × UInt32} {r : CoalescedRange}
    (h : (rangeOfSpan pageSize span).toOption = some r) : r.pageStart = span.1 ∧ r.pageEnd = span.2 := by
  obtain ⟨_, -, h⟩ := bind_eq_ok.mp (toOption_eq_some.mp h)
  obtain ⟨_, -, h⟩ := bind_eq_ok.mp h
  obtain ⟨_, -, h⟩ := bind_eq_ok.mp h
  cases h
  exact ⟨rfl, rfl⟩

theorem clampRange_ends {fileSize : ℕ} {r q : CoalescedRange} (h : (clampRange fileSize r).toOption = some q) :
    q.pageStart = r.pageStart ∧ q.pageEnd = r.pageEnd := by
  have h := toOption_eq_some.mp h
  rw [clampRange] at h
  split at h
  · cases h
  · obtain ⟨_, -, h⟩ := bind_eq_ok.mp h
    dsimp only at h
    generalize hlen : (if _ > fileSize then fileSize - r.byteStart else r.byteLength) = len at h
    by_cases hzero : len = 0
    · rw [if_pos hzero] at h
      cases h
    · rw [if_neg hzero] at h
      cases h
      exact ⟨rfl, rfl⟩

theorem coalescePageIndices_ascending (indices : List UInt32) (gap pageSize : ℕ) :
    (coalescePageIndices indices gap pageSize).Pairwise fun r s => r.pageEnd < s.pageStart := by
  have hasc := sortedPages_ascending indices
  rw [coalescePageIndices]
  cases hpages : sortedPages indices with
  | nil => exact .nil
  | cons first rest =>
    rw [hpages] at hasc
    have hspans := (coalesceSpans_clusters (.ofNat gap) first rest).disjoint hasc
    refine List.pairwise_filterMap.mpr (hspans.imp fun {s t} hlt r hr q hq => ?_)
    rw [(rangeOfSpan_ends hr).2, (rangeOfSpan_ends hq).1]
    exact UInt32.lt_iff_toNat_lt.mpr hlt

theorem clampRanges_ascending {ranges : List CoalescedRange} (fileSize : ℕ)
    (h : ranges.Pairwise fun r s => r.pageEnd < s.pageStart) :
    (clampRanges ranges fileSize).Pairwise fun r s => r.pageEnd < s.pageStart := by
  refine List.pairwise_filterMap.mpr (h.imp fun {s t} hlt r hr q hq => ?_)
  rw [(clampRange_ends hr).2, (clampRange_ends hq).1]
  exact hlt

theorem fetchedPages_ascending (d : Bytes) (s : PrefetchEngine) (pages : List UInt32) :
    (s.fetchedPages d pages).Pairwise (· < ·) := by
  refine List.Pairwise.filter _ (List.pairwise_flatMap.mpr ⟨fun r _ => pages_ascending r, ?_⟩)
  refine (clampRanges_ascending _ (coalescePageIndices_ascending _ _ _)).imp fun {r q} hlt p hp p' hp' => ?_
  exact UInt32.lt_of_le_of_lt (mem_pages hp).2 (UInt32.lt_of_lt_of_le hlt (mem_pages hp').1)

/-! ## The viewport -/

/-- The record is in the viewport, and the file stores its offset. -/
def InViewport (r : Reader) (startIndex endIndex i off : ℕ) : Prop :=
  i < r.recordCount ∧ min startIndex (r.recordCount - 1) ≤ i ∧ i ≤ min endIndex (r.recordCount - 1) ∧ Stored r i off

/-- Every page on which a record of the viewport starts is in the cache. -/
def ViewportResident (r : Reader) (pageSize startIndex endIndex : ℕ) (c : PageCache) : Prop :=
  ∀ i off, InViewport r startIndex endIndex i off → ∃ p ∈ c.pages, p.toNat = off / pageSize

/-- Fewer than `maxPages` pages are used after the page: pages that are fetched later, or every fetched page and the pages
that were used more recently before. -/
def Survives (c : PageCache) (fetched : List UInt32) (p : UInt32) : Prop :=
  if p ∈ fetched then (fetched.filter (p < ·)).length < c.maxPages
  else p ∈ c.pages ∧
    fetched.length + (c.pages.keys.filter fun q => q ∉ fetched ∧ c.stamp p < c.stamp q).length < c.maxPages

/-- The page of each record of the viewport has a number of 32 bits and survives the fetches. -/
def ViewportSurvives (r : Reader) (startIndex endIndex : ℕ) (s : PrefetchEngine) : Prop :=
  ∀ i off, InViewport r startIndex endIndex i off → ∃ p : UInt32, p.toNat = off / s.options.pageSize ∧
    Survives s.cache (s.fetchedPages r.data (PrefetchEngine.viewportPages r.data s.options.pageSize r.tailStart
      (min startIndex (r.recordCount - 1)) (min endIndex (r.recordCount - 1)))) p

/-- An engine after any uses of its cache, with no page pinned and no fetch under way. -/
structure Idle (it : Iteration) (s : PrefetchEngine) : Prop where
  cache : ∃ ops : List CacheOp, ops.length < 2 ^ 63 ∧ s.cache = runCache it s.options.maxPages s.options.pageSize ops
  free : ∀ p e, s.cache.pages.lookup p = some e → e.pinned = false
  inFlight : s.inFlight = ∅

/-- The pages that the fetches leave in the cache. -/
theorem mem_fetched_iff {it : Iteration} {d : Bytes} {maxPages pageSize : ℕ} {ops : List CacheOp} {fetched : List UInt32}
    (hlen : ops.length < 2 ^ 63) (hfetched : fetched.Pairwise (· < ·))
    (hfree : ∀ p e, (runCache it maxPages pageSize ops).pages.lookup p = some e → e.pinned = false) (p : UInt32) :
    p ∈ (fetched.foldl (setPage it d pageSize) (runCache it maxPages pageSize ops)).pages ↔
      Survives (runCache it maxPages pageSize ops) fetched p := by
  have hcount : fetched.length ≤ 2 ^ 32 := by
    have hnodup : (fetched.map UInt32.toNat).Nodup :=
      List.pairwise_map.mpr (hfetched.imp fun hlt => Nat.ne_of_lt (UInt32.lt_iff_toNat_lt.mp hlt))
    have hsub : fetched.map UInt32.toNat ⊆ List.range (2 ^ 32) := by
      intro n hn
      obtain ⟨q, -, rfl⟩ := List.mem_map.mp hn
      exact List.mem_range.mpr q.toNat_lt
    have := (hnodup.subperm hsub).length_le
    rwa [List.length_map, List.length_range] at this
  obtain ⟨recent, hrecent⟩ := recency_run (show ops.length < 2 ^ 64 by omega) hfree
  have hkept : CacheKept it maxPages pageSize ops (runCache it maxPages pageSize ops) := run_kept (by omega)
  have hfinal := fetched_recency (d := d) (show ops.length + fetched.length < 2 ^ 64 by omega) hrecent
  have hnodup : fetched.Nodup := hfetched.imp fun hlt heq => UInt32.ne_of_lt hlt heq
  rw [← hfinal.pages, foldl_useKey hrecent.nodup (by rw [hrecent.length]; exact hkept.capacity) hnodup, List.take_append,
    List.mem_append, List.length_reverse, Survives, hkept.limit]
  generalize runCache it maxPages pageSize ops = c at hrecent
  by_cases hp : p ∈ fetched
  · have hdesc : fetched.reverse.Pairwise fun a b => b < a := List.pairwise_reverse.mpr hfetched
    have hrest : p ∉ (recent.filter (· ∉ fetched)).take (maxPages - fetched.length) := fun hmem => by
      simpa [hp] using (List.mem_filter.mp (List.mem_of_mem_take hmem)).2
    rw [if_pos hp, or_iff_left hrest,
      mem_take_iff_fewer maxPages hdesc fun a _ b _ h1 h2 => UInt32.lt_asymm h1 h2, List.mem_reverse, and_iff_right hp,
      List.filter_reverse, List.length_reverse]
  · have hfront : p ∉ fetched.reverse.take maxPages := fun hmem => hp (List.mem_reverse.mp (List.mem_of_mem_take hmem))
    have horder : (recent.filter (· ∉ fetched)).Pairwise fun a b => c.stamp b < c.stamp a := hrecent.order.filter _
    have hperm : recent.Perm c.pages.keys :=
      (List.perm_ext_iff_of_nodup hrecent.nodup c.pages.nodupKeys).mpr fun q => (hrecent.pages q).trans AList.mem_keys.symm
    have hlater : ((recent.filter (· ∉ fetched)).filter fun q => c.stamp p < c.stamp q).length =
        (c.pages.keys.filter fun q => q ∉ fetched ∧ c.stamp p < c.stamp q).length := by
      rw [List.filter_filter, (hperm.filter _).length_eq]
      refine congrArg List.length (List.filter_congr fun q _ => ?_)
      rw [Bool.eq_iff_iff]
      simp [and_comm]
    rw [if_neg hp, or_iff_right hfront,
      mem_take_iff_fewer _ horder fun a _ b _ h1 h2 => Nat.lt_asymm h1 h2, hlater, List.mem_filter, hrecent.pages,
      decide_eq_true_iff, and_assoc, and_iff_right (a := p ∉ fetched) hp]
    exact and_congr_right fun _ => by omega

theorem unpinAll_pages (c : PageCache) (pages : List UInt32) (p : UInt32) :
    p ∈ (c.pinPages pages).unpinAll.pages ↔ p ∈ c.pages := by
  have hpin : ∀ (pages : List UInt32) (c : PageCache), p ∈ (c.pinPages pages).pages ↔ p ∈ c.pages := by
    intro pages
    induction pages with
    | nil => exact fun c => Iff.rfl
    | cons page pages ih =>
      intro c
      rw [PageCache.pinPages, List.foldl_cons]
      refine (ih _).trans ?_
      rw [← AList.lookup_isSome, PageCache.pinPage_lookup, Option.isSome_map, AList.lookup_isSome]
  rw [← AList.lookup_isSome, PageCache.unpinAll_lookup, Option.isSome_map, AList.lookup_isSome, hpin]

/-- Exactly when a prefetched viewport is in the cache. -/
theorem viewport_resident_iff (it : Iteration) {file : Slice} {r : Reader} (h : Reader.new file = .ok r)
    {s : PrefetchEngine} (hs : Idle it s) (startIndex endIndex : ℕ) :
    ViewportResident r s.options.pageSize startIndex endIndex
        (s.prefetchViewport it r.data r.tailStart r.recordCount startIndex endIndex).cache ↔
      ViewportSurvives r startIndex endIndex s := by
  obtain ⟨⟨ops, hlen, hcache⟩, hfree, -⟩ := hs
  have hsize := (reader_opened h).size
  have hne : r.data ≠ [] := List.ne_nil_of_length_pos (by omega)
  rw [PrefetchEngine.prefetchViewport]
  by_cases hzero : r.recordCount = 0
  · exact iff_of_true (fun i off hi => absurd hi.1 (by omega)) fun i off hi => absurd hi.1 (by omega)
  rw [if_neg fun hor => hor.elim hzero hne]
  dsimp only
  by_cases hout : min startIndex (r.recordCount - 1) > min endIndex (r.recordCount - 1)
  · have hnone : ∀ i off, ¬ InViewport r startIndex endIndex i off := fun i off hi =>
      absurd (hi.2.1.trans hi.2.2.1) (by omega)
    exact iff_of_true (fun i off hi => absurd hi (hnone i off)) fun i off hi => absurd hi (hnone i off)
  rw [if_neg hout]
  refine forall₃_congr fun i off _ => exists_congr fun p => ?_
  rw [unpinAll_pages, (fetchRanges_cache it r.data s _).2, and_comm]
  refine and_congr_right fun _ => ?_
  have hasc := fetchedPages_ascending r.data s (PrefetchEngine.viewportPages r.data s.options.pageSize r.tailStart
    (min startIndex (r.recordCount - 1)) (min endIndex (r.recordCount - 1)))
  rw [hcache] at hfree ⊢
  rw [← mem_fetched_iff hlen hasc hfree, PrefetchEngine.fetchedPages]

/-! ## Two viewports -/

def fiveRows : List RecordRow := [⟨[.i64 7]⟩, ⟨[.i64 8]⟩, ⟨[.i64 9]⟩, ⟨[.i64 10]⟩, ⟨[.i64 11]⟩]

/-- Two pages of 64 bytes. -/
def twoPages : OpenOptions := ⟨.unknown, 2, 64, 1, 4⟩

/-- The entries in the order in which the map has them. -/
def asGiven : Iteration := ⟨id, fun l => .refl l⟩

/-- The engine of a reader that was just opened. -/
theorem viewport_resident_fresh : ∃ file r, finishRow ["a"] fiveRows none = .ok file ∧ Reader.new file = .ok r ∧
    (ViewportResident r 64 0 1
        ((PrefetchEngine.new twoPages rfl).prefetchViewport asGiven r.data r.tailStart r.recordCount 0 1).cache ↔
      ViewportSurvives r 0 1 (PrefetchEngine.new twoPages rfl)) := by
  have hrun : (finishRow ["a"] fiveRows none >>= Reader.new).isOk = true := by decide +kernel
  obtain ⟨r, hrun⟩ := isOk_iff.mp hrun
  obtain ⟨file, hfile, hr⟩ := bind_eq_ok.mp hrun
  have hidle : Idle asGiven (PrefetchEngine.new twoPages rfl) := by
    refine ⟨⟨[], by decide, rfl⟩, fun p e he => ?_, rfl⟩
    cases he
  exact ⟨file, r, hfile, hr, viewport_resident_iff asGiven hr hidle 0 1⟩

/-- An engine that has prefetched the first record, and then the last one. -/
def visited (r : Reader) : PrefetchEngine :=
  ((PrefetchEngine.new twoPages rfl).prefetchViewport asGiven r.data r.tailStart r.recordCount 0 0).prefetchViewport asGiven
    r.data r.tailStart r.recordCount 4 4

/-- The uses of the cache by these two viewports, the latest of them first. -/
def visits (r : Reader) : List CacheOp :=
  [.unpinAll, .pinPages [2], .set 2 (PrefetchEngine.pageData r.data 64 2) false, .unpinAll, .pinPages [0],
    .set 0 (PrefetchEngine.pageData r.data 64 0) false]

def counts (c : PageCache) : ℕ × ℕ × ℕ × ℕ × ℕ := (c.maxPages, c.pageSize, c.clock, c.hits, c.misses)

/-- The first two records are on two pages, the first of which is evicted for the second one. -/
theorem viewport_not_resident : ∃ file r, finishRow ["a"] fiveRows none = .ok file ∧ Reader.new file = .ok r ∧
    r.layout = .row ∧ r.deltaTail = none ∧ Idle asGiven (visited r) ∧ (visited r).options.maxPages = 2 ∧
      (∀ i off, InViewport r 0 1 i off → off / 64 ∈ [0, 1]) ∧ ¬ ViewportResident r 64 0 1
        ((visited r).prefetchViewport asGiven r.data r.tailStart r.recordCount 0 1).cache := by
  have hrun : (finishRow ["a"] fiveRows none >>= fun file => do
      let r ← Reader.new file
      .ok (r.layout, r.recordCount, [r.rowRecordOffset 0, r.rowRecordOffset 1],
        [r.deltaTail.isNone, decide ((visited r).cache.pages.entries = (runCache asGiven 2 64 (visits r)).pages.entries),
          decide (counts (visited r).cache = counts (runCache asGiven 2 64 (visits r))),
          (visited r).cache.pages.entries.all fun e => !e.2.pinned, decide ((visited r).inFlight = ∅),
          ((visited r).prefetchViewport asGiven r.data r.tailStart r.recordCount 0 1).cache.has 0])) =
      .ok (.row, 5, [.ok 40, .ok 64], [true, true, true, true, true, false]) := by
    decide +kernel
  obtain ⟨file, hfile, hrun⟩ := bind_eq_ok.mp hrun
  obtain ⟨r, hr, hrun⟩ := bind_eq_ok.mp hrun
  simp only [ok.injEq, Prod.mk.injEq, List.cons.injEq, and_true, decide_eq_true_eq] at hrun
  obtain ⟨hrow, hcount, ⟨hfirst, hsecond⟩, hdelta, hentries, hcounts, hfree, hflight, hhas⟩ := hrun
  simp only [counts, Prod.mk.injEq] at hcounts
  obtain ⟨hmax, hsize, hclock, hhits, hmisses⟩ := hcounts
  have hcache := PageCache.ext hmax hsize (AList.ext hentries) hclock hhits hmisses
  have hopened := reader_opened hr
  have hread : ∀ {i off}, i < r.recordCount → (r.rowRecordOffset i = .ok off ↔ Stored r i off) := fun hi =>
    rowRecordOffset_eq_ok hopened hrow hi (reader_deltaCount hr)
  have hoptions : (visited r).options = twoPages := by
    have hkeep : ∀ (s : PrefetchEngine) a b,
        (s.prefetchViewport asGiven r.data r.tailStart r.recordCount a b).options = s.options := by
      intro s a b
      rw [PrefetchEngine.prefetchViewport]
      split
      · rfl
      · dsimp only
        split
        · rfl
        · exact (fetchRanges_cache asGiven r.data s _).1
    exact (hkeep _ 4 4).trans (hkeep _ 0 0)
  have hidle : Idle asGiven (visited r) := by
    refine ⟨⟨visits r, by simp [visits], by rw [hoptions]; exact hcache⟩, fun p e he => ?_, hflight⟩
    have := List.all_eq_true.mp hfree ⟨p, e⟩ (AList.mem_lookup_iff.mp he)
    simpa using this
  have hview : ∀ i off, InViewport r 0 1 i off → off / 64 ∈ [0, 1] := by
    rintro i off ⟨hi, -, hle, hstored⟩
    have hoff := (hread hi).mpr hstored
    obtain rfl | rfl : i = 0 ∨ i = 1 := by omega
    · obtain rfl : 40 = off := ok.inj (hfirst.symm.trans hoff)
      decide
    · obtain rfl : 64 = off := ok.inj (hsecond.symm.trans hoff)
      decide
  refine ⟨file, r, hfile, hr, hrow, Option.isNone_iff_eq_none.mp hdelta, hidle, by rw [hoptions]; rfl, hview, fun hresident => ?_⟩
  have hzero : InViewport r 0 1 0 40 := ⟨by omega, by omega, by omega, (hread (by omega)).mp hfirst⟩
  obtain ⟨p, hp, hpage⟩ := hresident 0 40 hzero
  obtain rfl : p = 0 := UInt32.toNat_inj.mp hpage
  rw [PageCache.has, decide_eq_false_iff_not] at hhas
  exact hhas hp

end Nyxis
