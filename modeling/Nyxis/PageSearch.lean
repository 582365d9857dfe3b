import Nyxis.Lib.Safe
import Nyxis.Layout

/-!
# PageSearch — the page of a record

`pax_locate_record` bisects the tail-index of a PAX file.  A tail-index is the list of the first record and the record
count of each page; pages follow one another without a gap.

* `locateLoop_found`: the bisection finds the page that contains a record, or there is none.
* `locate_record_iff`: the search is right, except that a file without pages is searched as if it had one.
-/

namespace Nyxis

open Lib Lib.Outcome

/-! ## Page ranges -/

/-- The page with the given first record and record count contains record `i`. -/
def Contains (p : ℕ × ℕ) (i : ℕ) : Prop := p.1 ≤ i ∧ i < p.1 + p.2

/-- The pages have positive lengths and follow one another from record `start` on. -/
def Contiguous : ℕ → List (ℕ × ℕ) → Prop
  | _, [] => True
  | start, p :: ps => p.1 = start ∧ 0 < p.2 ∧ Contiguous (start + p.2) ps

def pageTotal (pages : List (ℕ × ℕ)) : ℕ := (pages.map Prod.snd).sum

theorem Contiguous.start_le : ∀ {pages : List (ℕ × ℕ)} {start : ℕ}, Contiguous start pages → ∀ p ∈ pages, start ≤ p.1
  | [], _, _, p, hp => absurd hp List.not_mem_nil
  | q :: pages, start, ⟨hq, _, hrest⟩, p, hp => by
    rcases List.mem_cons.mp hp with rfl | hp
    · exact hq.ge
    · exact le_trans (Nat.le_add_right _ _) (hrest.start_le p hp)

/-- A page ends where a later one starts, or before. -/
theorem Contiguous.ends_before : ∀ {pages : List (ℕ × ℕ)} {start : ℕ}, Contiguous start pages →
    pages.Pairwise fun p q => p.1 + p.2 ≤ q.1
  | [], _, _ => .nil
  | p :: pages, start, ⟨hp, _, hrest⟩ => by
    refine .cons (fun q hq => ?_) hrest.ends_before
    have := hrest.start_le q hq
    omega

/-- The records of the pages are those from `start` on. -/
theorem Contiguous.contains_iff : ∀ {pages : List (ℕ × ℕ)} {start : ℕ}, Contiguous start pages → ∀ i,
    (∃ p ∈ pages, Contains p i) ↔ start ≤ i ∧ i < start + pageTotal pages
  | [], start, _, i => by
    simp only [List.not_mem_nil, false_and, exists_false, false_iff, pageTotal, List.map_nil, List.sum_nil]
    omega
  | p :: pages, start, ⟨hp, hpos, hrest⟩, i => by
    rw [List.exists_mem_cons_iff, hrest.contains_iff, Contains, pageTotal, pageTotal, List.map_cons, List.sum_cons]
    omega

/-- Pages of less than `2 ^ 32` records. -/
theorem Contiguous.start_le_mul : ∀ {pages : List (ℕ × ℕ)} {start : ℕ}, Contiguous start pages → (∀ p ∈ pages, p.2 < 2 ^ 32) →
    ∀ k p, pages[k]? = some p → p.1 ≤ start + k * 2 ^ 32
  | [], _, _, _, k, p, hp => by cases hp
  | q :: pages, start, ⟨hq, _, hrest⟩, hsmall, 0, p, hp => by
    cases hp
    omega
  | q :: pages, start, ⟨hq, _, hrest⟩, hsmall, k + 1, p, hp => by
    have ih := hrest.start_le_mul (fun p hp => hsmall p (List.mem_cons_of_mem q hp)) k p hp
    have := hsmall q List.mem_cons_self
    omega

/-! ## The search -/

/-- The tail-index of a PAX file. -/
structure PageTable (r : Reader) (pages : List (ℕ × ℕ)) : Prop where
  layout : r.layout = .pax
  count : r.pageCount = .ok pages.length
  entries : ∀ k p, pages[k]? = some p → r.paxPageRecStart k = .ok p.1 ∧ r.paxPageRecCount k = .ok p.2
  contiguous : Contiguous 0 pages

/-- What a search for record `i` has to return. -/
def FoundPage (pages : List (ℕ × ℕ)) (i : ℕ) (x : Opt (ℕ × ℕ)) : Prop :=
  (∃ k p, pages[k]? = some p ∧ Contains p i ∧ x = .ok (k, i - p.1)) ∨ (x = none' ∧ ∀ p ∈ pages, ¬ Contains p i)

/-- A field of an entry fits its bytes. -/
theorem safe_paxEntry (r : Reader) (pageIdx field w : ℕ) : Safe (r.paxEntry pageIdx field w) (· < 256 ^ w) := by
  rw [Reader.paxEntry]
  refine (safe_checkedMul _ _).bind fun rel _ => (safe_checkedAdd _ _).bind fun e _ => ?_
  refine (safe_checkedAdd _ _).bind fun start hstart => (safe_checkedAdd _ _).bind fun stop hstop => ?_
  refine (safe_getRange _ _ _).bind fun bytes hbytes => safe_ok ?_
  have hlt := leNat_lt bytes
  rwa [hbytes.1, hstart.1, hstop.1, show e + (field + w) - (e + field) = w by omega] at hlt

namespace PageTable

variable {r : Reader} {pages : List (ℕ × ℕ)}

theorem count_lt (h : PageTable r pages) {k : ℕ} {p : ℕ × ℕ} (hp : pages[k]? = some p) : p.2 < 2 ^ 32 :=
  (safe_paxEntry r k 12 4).post (h.entries k p hp).2

/-- No end of a page overflows. -/
theorem end_lt (h : PageTable r pages) (hfew : pages.length < 2 ^ 30) {k : ℕ} {p : ℕ × ℕ} (hp : pages[k]? = some p) :
    p.1 + p.2 < 2 ^ 64 := by
  have hcount := h.count_lt hp
  have hk := (List.getElem?_eq_some_iff.mp hp).1
  have hstart := h.contiguous.start_le_mul (fun q hq => by
    obtain ⟨j, hj⟩ := List.mem_iff_getElem?.mp hq
    exact h.count_lt hj) k p hp
  omega

theorem before {k l : ℕ} {p q : ℕ × ℕ} (h : PageTable r pages) (hp : pages[k]? = some p) (hq : pages[l]? = some q)
    (hkl : k < l) : p.1 + p.2 ≤ q.1 := by
  obtain ⟨hk, rfl⟩ := List.getElem?_eq_some_iff.mp hp
  obtain ⟨hl, rfl⟩ := List.getElem?_eq_some_iff.mp hq
  exact List.pairwise_iff_getElem.mp h.contiguous.ends_before k l hk hl hkl

/-- No page below `lo` or above `hi` contains the record. -/
structure Bracket (pages : List (ℕ × ℕ)) (i : ℕ) (lo hi : ℤ) : Prop where
  lo_nonneg : 0 ≤ lo
  hi_lt : hi < pages.length
  below : ∀ (k : ℕ) p, pages[k]? = some p → (k : ℤ) < lo → p.1 + p.2 ≤ i
  above : ∀ (k : ℕ) p, pages[k]? = some p → hi < k → i < p.1

theorem Bracket.not_contains {i : ℕ} {lo hi : ℤ} (h : Bracket pages i lo hi) (hempty : hi < lo) : ∀ p ∈ pages, ¬ Contains p i := by
  rintro p hp ⟨hstart, hend⟩
  obtain ⟨k, hk⟩ := List.mem_iff_getElem?.mp hp
  by_cases hlo : (k : ℤ) < lo
  · have := h.below k p hk hlo
    omega
  · have := h.above k p hk (by omega)
    omega

/-- The bisection between the bounds of a bracket. -/
theorem locateLoop_found (h : PageTable r pages) (hfew : pages.length < 2 ^ 30) (i : ℕ) : ∀ (fuel : ℕ) (lo hi : ℤ),
    Bracket pages i lo hi → hi - lo + 1 < 2 ^ fuel → FoundPage pages i (r.paxLocateLoop i (fuel + 1) lo hi) := by
  intro fuel
  induction fuel with
  | zero =>
    intro lo hi hbracket hfuel
    have hempty : hi < lo := by
      rw [pow_zero] at hfuel
      omega
    rw [Reader.paxLocateLoop, if_neg (by omega)]
    exact .inr ⟨rfl, hbracket.not_contains hempty⟩
  | succ fuel ih =>
    intro lo hi hbracket hfuel
    have hlo := hbracket.lo_nonneg
    have hhi := hbracket.hi_lt
    rw [Reader.paxLocateLoop]
    by_cases hopen : lo ≤ hi
    · obtain ⟨m, hm⟩ : ∃ m : ℕ, (lo + hi) / 2 = m := ⟨((lo + hi) / 2).toNat, by omega⟩
      obtain ⟨p, hp⟩ : ∃ p, pages[m]? = some p := ⟨_, List.getElem?_eq_getElem (show m < pages.length by omega)⟩
      obtain ⟨hstart, hcount⟩ := h.entries m p hp
      rw [if_pos hopen, demand_of (by omega), ok_bind, hm]
      simp only [Int.toNat_natCast]
      rw [hstart, ok_bind, hcount, ok_bind]
      rw [pow_succ] at hfuel
      by_cases hlt : i < p.1
      · -- the pages from the middle on start behind the record
        rw [if_pos hlt]
        refine ih lo (m - 1) ⟨hlo, by omega, hbracket.below, fun k q hq hk => ?_⟩ (by omega)
        rcases Nat.lt_or_eq_of_le (show m ≤ k by omega) with hmk | hmk
        · have := h.before hp hq hmk
          omega
        · subst hmk
          rwa [← Option.some_inj.mp (hp.symm.trans hq)]
      · rw [if_neg hlt, usizeAdd_of (h.end_lt hfew hp), ok_bind]
        by_cases hge : i ≥ p.1 + p.2
        · -- the pages up to the middle end before the record
          rw [if_pos hge]
          refine ih (m + 1) hi ⟨by omega, hhi, fun k q hq hk => ?_, hbracket.above⟩ (by omega)
          rcases Nat.lt_or_eq_of_le (show k ≤ m by omega) with hkm | hkm
          · have := h.before hq hp hkm
            omega
          · subst hkm
            rwa [← Option.some_inj.mp (hp.symm.trans hq)]
        · rw [if_neg hge]
          exact .inl ⟨m, p, hp, ⟨by omega, by omega⟩, rfl⟩
    · rw [if_neg hopen]
      exact .inr ⟨rfl, hbracket.not_contains (by omega)⟩

theorem locate_found (h : PageTable r pages) (hfew : pages.length < 2 ^ 30) (hsome : pages ≠ []) (i : ℕ) :
    FoundPage pages i (r.paxLocateRecord i) := by
  have hpos := List.length_pos_iff.mpr hsome
  have hi : Reader.asI32 (pages.length - 1) = (pages.length : ℤ) - 1 := by
    unfold Reader.asI32
    rw [Int.bmod_eq_of_le] <;> omega
  rw [Reader.paxLocateRecord, h.count, ok_bind, hi]
  exact h.locateLoop_found hfew i 32 0 _ ⟨le_refl _, by omega, fun k p _ hk => by omega,
    fun k p hp hk => absurd (List.getElem?_eq_some_iff.mp hp).1 (by omega)⟩ (by omega)

/-- A record is in the tail-index where its number is below the total. -/
theorem contains_iff (h : PageTable r pages) (i : ℕ) : (∃ p ∈ pages, Contains p i) ↔ i < pageTotal pages := by
  rw [h.contiguous.contains_iff, Nat.zero_add]
  exact and_iff_right (Nat.zero_le i)

/-- At most one page contains a record. -/
theorem page_unique (h : PageTable r pages) {k l : ℕ} {p q : ℕ × ℕ} {i : ℕ} (hp : pages[k]? = some p) (hq : pages[l]? = some q)
    (hpi : Contains p i) (hqi : Contains q i) : k = l := by
  obtain ⟨hp1, hp2⟩ := hpi
  obtain ⟨hq1, hq2⟩ := hqi
  rcases Nat.lt_trichotomy k l with hkl | rfl | hlk
  · have := h.before hp hq hkl
    omega
  · rfl
  · have := h.before hq hp hlk
    omega

end PageTable

/-- The search returns the one page that contains the record, with its position there, and nothing behind the last page. -/
def LocatesRecord (r : Reader) (pages : List (ℕ × ℕ)) (i : ℕ) : Prop :=
  (i < pageTotal pages → ∃ k p, pages[k]? = some p ∧ Contains p i ∧ r.paxLocateRecord i = .ok (k, i - p.1) ∧
    ∀ l q, pages[l]? = some q → Contains q i → l = k) ∧
  (pageTotal pages ≤ i → r.paxLocateRecord i = none')

/-- What stands where the first entry of the tail-index would be contains the record, or its end overflows. -/
def StrayEntry (r : Reader) (i : ℕ) : Prop :=
  ∃ start count, r.paxPageRecStart 0 = .ok start ∧ r.paxPageRecCount 0 = .ok count ∧
    start ≤ i ∧ (i < start + count ∨ 2 ^ 64 ≤ start + count)

/-- A file without pages is searched as if it had one. -/
theorem locate_empty {r : Reader} (h : PageTable r []) (i : ℕ) : r.paxLocateRecord i = none' ↔ ¬ StrayEntry r i := by
  have hzero : Reader.asI32 (0 - 1) = 0 := by decide
  rw [Reader.paxLocateRecord, h.count, List.length_nil, ok_bind, hzero, Reader.paxLocateLoop, if_pos (le_refl _),
    demand_of (by decide), ok_bind]
  rw [show ((0 + 0 : ℤ) / 2).toNat = 0 from rfl]
  dsimp only
  have hclosed : ∀ lo hi : ℤ, hi < lo → r.paxLocateLoop i 32 lo hi = none' := fun lo hi hlt => by
    rw [Reader.paxLocateLoop, if_neg (by omega)]
  rcases (safe_paxEntry r 0 4 8).cases with ⟨start, hstart⟩ | ⟨_, hstart⟩
  · rcases (safe_paxEntry r 0 12 4).cases with ⟨count, hcount⟩ | ⟨_, hcount⟩
    · have hs : r.paxPageRecStart 0 = .ok start := hstart
      have hc : r.paxPageRecCount 0 = .ok count := hcount
      have hstray : StrayEntry r i ↔ start ≤ i ∧ (i < start + count ∨ 2 ^ 64 ≤ start + count) := by
        refine ⟨?_, fun hin => ⟨start, count, hs, hc, hin⟩⟩
        rintro ⟨_, _, hs', hc', hin⟩
        rw [hs] at hs'
        rw [hc] at hc'
        cases hs'
        cases hc'
        exact hin
      rw [hstray, hs, ok_bind, hc, ok_bind]
      by_cases hlt : i < start
      · rw [if_pos hlt, hclosed _ _ (by decide)]
        exact iff_of_true rfl (by omega)
      · rw [if_neg hlt, usizeAdd]
        by_cases hfits : start + count < 2 ^ 64
        · rw [if_pos hfits, ok_bind]
          by_cases hge : i ≥ start + count
          · rw [if_pos hge, hclosed _ _ (by decide)]
            exact iff_of_true rfl (by omega)
          · rw [if_neg hge]
            exact iff_of_false (fun heq => by cases heq) (by omega)
        · rw [if_neg hfits, panic_bind]
          exact iff_of_false (fun heq => by cases heq) (by omega)
    · refine iff_of_true ?_ ?_
      · rw [show r.paxPageRecStart 0 = .ok start from hstart, ok_bind, show r.paxPageRecCount 0 = .err _ from hcount, err_bind]
      · rintro ⟨_, _, _, hc, -⟩
        cases hcount.symm.trans hc
  · refine iff_of_true ?_ ?_
    · rw [show r.paxPageRecStart 0 = .err _ from hstart, err_bind]
    · rintro ⟨_, _, hs, -⟩
      cases hstart.symm.trans hs

/-- The search is right, unless there are no pages and bytes behind the tail-index pass for one. -/
theorem locate_record_iff {r : Reader} {pages : List (ℕ × ℕ)} (h : PageTable r pages) (hfew : pages.length < 2 ^ 30) (i : ℕ) :
    LocatesRecord r pages i ↔ (pages = [] → ¬ StrayEntry r i) := by
  by_cases hempty : pages = []
  · subst hempty
    rw [forall_prop_of_true rfl, ← locate_empty h, LocatesRecord, pageTotal]
    simp
  · have hnone : pages = [] → ¬ StrayEntry r i := fun hnil => absurd hnil hempty
    refine iff_of_true ?_ hnone
    rcases h.locate_found hfew hempty i with ⟨k, p, hp, hin, hfound⟩ | ⟨hfound, hnot⟩
    · have htotal := (h.contains_iff i).mp ⟨p, List.mem_of_getElem? hp, hin⟩
      exact ⟨fun _ => ⟨k, p, hp, hin, hfound, fun l q hq hqi => h.page_unique hq hp hqi hin⟩, fun hle => absurd htotal (by omega)⟩
    · refine ⟨fun hlt => ?_, fun _ => hfound⟩
      obtain ⟨p, hp, hin⟩ := (h.contains_iff i).mpr hlt
      exact absurd hin (hnot p hp)

/-- A PAX file with one page of two records. -/
def onePage : Reader where
  data := zeros 4 ++ leBytes 8 0 ++ leBytes 4 2 ++ zeros 12 ++ leBytes 8 0 ++ leBytes 8 2 ++ leBytes 4 1 ++ zeros 8
  flags := FLAG_PAX
  keys := []
  keySigils := []
  extSchema := none
  cellPlan := none
  recordCount := 2
  tailStart := 0
  deltaTail := none
  layout := .pax
  colBufOff := []
  colBufLen := []

theorem locate_record_one : LocatesRecord onePage [(0, 2)] 1 := by
  have htable : PageTable onePage [(0, 2)] := by
    refine ⟨rfl, by decide +kernel, fun k p hp => ?_, rfl, by decide, trivial⟩
    cases k with
    | zero =>
      cases hp
      decide +kernel
    | succ k => cases hp
  exact (locate_record_iff htable (by decide) 1).mpr fun hnil => by cases hnil

/-- A PAX file without pages, whose footer announces `2 ^ 32` records. -/
def noPages : Slice where
  bytes := preamble VERSION (FLAG_PAX ||| FLAG_SCHEMA_EMBEDDED) 0 0 ++ buildSchema [] [] ++ leBytes 8 40 ++ leBytes 8 (2 ^ 32) ++
    leBytes 4 0 ++ zeros 4 ++ leBytes 4 MAGIC_FOOTER
  small := by decide +kernel

/-- The footer of that file passes for a page. -/
theorem locate_record_stray : ∃ r, Reader.new noPages = .ok r ∧ PageTable r [] ∧ r.paxLocateRecord 0 = .ok (0, 0) ∧
    ¬ LocatesRecord r [] 0 := by
  obtain ⟨r, hr, hlayout, hcount, hfound⟩ : ∃ r, Reader.new noPages = .ok r ∧ r.layout = .pax ∧ r.pageCount = .ok 0 ∧
      r.paxLocateRecord 0 = .ok (0, 0) :=
    ⟨_, rfl, by decide +kernel, by decide +kernel, by decide +kernel⟩
  refine ⟨r, hr, ⟨hlayout, hcount, fun k p hp => (by cases hp), trivial⟩, hfound, fun h => ?_⟩
  cases hfound.symm.trans (h.2 (Nat.le_refl 0))

end Nyxis
