import Nyxis.Lib.Ranges
import Nyxis.ReaderOpen

/-!
# PaxPages — the pages a PAX writer has emitted

Both PAX writers emit their pages through `emitPage`.  `Emitted gs st` says that `st` is what they
have written when the pages hold the groups of rows `gs`; it is the invariant that ties the page
table, the page bytes and the record count together, whatever the page cuts.

* `Emitted.page`: each page stands at the offset its entry names, with its start and count.
* `paxLoop_emitted`: the loop of `finish_pax` emits its rows, in groups of the page size.
-/

namespace Nyxis

open Lib Lib.Outcome

section Emitted

variable {base fieldCount : ℕ} {sigils : List UInt8}

/-- A group of rows that fits a page: not empty, and its size a `u32`. -/
def PageFits (g : List RecordRow) : Prop := 0 < g.length ∧ g.length < 2 ^ 32

/-- `st` holds one page for each of the groups. -/
inductive Emitted (base fieldCount : ℕ) (sigils : List UInt8) :
    List (List RecordRow) → PaxPages → Prop where
  | nil : Emitted base fieldCount sigils [] .empty
  | snoc {gs : List (List RecordRow)} {st st' : PaxPages} {g : List RecordRow}
      (h : Emitted base fieldCount sigils gs st) (hg : PageFits g)
      (he : emitPage base fieldCount sigils st g = .ok st') :
      Emitted base fieldCount sigils (gs ++ [g]) st'

/-- What emitting a page does. -/
theorem emitPage_eq_ok {st st' : PaxPages} {g : List RecordRow} (hg : PageFits g) :
    emitPage base fieldCount sigils st g = .ok st' ↔
      ∃ page, encodePage st.nextPageIndex st.nextRecordStart g.length fieldCount sigils g = .ok page ∧
        st.nextPageIndex + 1 < 2 ^ 32 ∧
        st' = ⟨st.data ++ page,
          st.pages ++ [⟨st.nextPageIndex, st.nextRecordStart, g.length, base + st.data.length,
            page.length % 2 ^ 32⟩],
          st.nextPageIndex + 1, st.nextRecordStart + g.length⟩ := by
  rw [emitPage, Nat.mod_eq_of_lt hg.2]
  dsimp only
  rw [bind_eq_ok]
  refine exists_congr fun page => and_congr_right fun _ => ?_
  unfold u32Add
  split
  · rename_i hlt
    rw [ok_bind, Outcome.ok.injEq, and_iff_right hlt, eq_comm]
  · rename_i hge
    exact iff_of_false (fun h => by cases h) fun h => hge h.1

theorem encodePage_eq_ok {pageIndex recordStart recordCount : ℕ} {g : List RecordRow}
    {page : Bytes} :
    encodePage pageIndex recordStart recordCount fieldCount sigils g = .ok page ↔
      ∃ cols, encodeColumns fieldCount sigils g = .ok cols ∧
        page = padTo 8 (leBytes 4 MAGIC_PAGE ++ leBytes 4 pageIndex ++ leBytes 8 recordStart ++
          leBytes 4 recordCount ++ leBytes 2 fieldCount ++ leBytes 2 0 ++ cols.flatten ++
          leBytes 4 (24 + cols.flatten.length + 4)) := by
  rw [encodePage, bind_eq_ok]
  simp [eq_comm]

/-- The columns of a page, one by one. -/
theorem encodeColumns_spec {g : List RecordRow} {cols : List Bytes}
    (h : encodeColumns fieldCount sigils g = .ok cols) :
    cols.length = fieldCount ∧ ∀ fi, fi < fieldCount → ∃ s, cols[fi]? = some s ∧
      encodeFieldColumn (column g fi) (sigils.getD fi SIGIL_INT) = .ok s := by
  have hall := mapM_eq_ok.mp h
  have hlen : cols.length = fieldCount := by
    rw [← hall.length_eq, List.length_range]
  refine ⟨hlen, fun fi hfi => ?_⟩
  have hget := hall.get (i := fi) (by simpa using hfi) (by omega)
  simp only [List.get_eq_getElem, List.getElem_range] at hget
  exact ⟨_, List.getElem?_eq_getElem (by omega), hget⟩

/-- A page that can be encoded can be encoded with fewer rows. -/
theorem encodeColumns_mono {g more : List RecordRow} {cols : List Bytes}
    (h : encodeColumns fieldCount sigils (g ++ more) = .ok cols) :
    ∃ cols', encodeColumns fieldCount sigils g = .ok cols' := by
  refine exists_mapM_eq_ok.mpr fun fi hfi => ?_
  obtain ⟨s, hs⟩ := exists_mapM_eq_ok.mp ⟨cols, h⟩ fi hfi
  have hcol : column (g ++ more) fi = column g fi ++ column more fi := List.map_append ..
  rw [hcol, encodeFieldColumn_eq_ok] at hs
  rcases hs with ⟨hv, hfit, -⟩ | ⟨hv, hk, -⟩
  · have hle : (varValues (column g fi)).length ≤
        (varValues (column g fi ++ column more fi)).length := by
      simp [varValues, List.flatMap_append]
    exact ⟨_, encodeFieldColumn_eq_ok.mpr (.inl ⟨hv, by omega, rfl⟩)⟩
  · exact ⟨_, encodeFieldColumn_eq_ok.mpr (.inr ⟨hv, hk, rfl⟩)⟩

theorem emitPage_mono {st st' : PaxPages} {g more : List RecordRow}
    (h : emitPage base fieldCount sigils st (g ++ more) = .ok st') :
    ∃ st'', emitPage base fieldCount sigils st g = .ok st'' := by
  unfold emitPage at h ⊢
  obtain ⟨page, hpage, h⟩ := bind_eq_ok.mp h
  obtain ⟨idx, hidx, -⟩ := bind_eq_ok.mp h
  obtain ⟨cols, hcols, -⟩ := encodePage_eq_ok.mp hpage
  obtain ⟨cols', hcols'⟩ := encodeColumns_mono hcols
  dsimp only
  rw [encodePage_eq_ok.mpr ⟨cols', hcols', rfl⟩, ok_bind, hidx]
  exact ⟨_, rfl⟩

theorem encodePage_length_pos {pageIndex recordStart recordCount : ℕ} {g : List RecordRow}
    {page : Bytes}
    (h : encodePage pageIndex recordStart recordCount fieldCount sigils g = .ok page) :
    0 < page.length := by
  obtain ⟨cols, -, rfl⟩ := encodePage_eq_ok.mp h
  simp only [padTo_length, List.length_append, leBytes_length]
  omega

namespace Emitted

variable {gs : List (List RecordRow)} {st : PaxPages}

theorem fits (h : Emitted base fieldCount sigils gs st) : ∀ g ∈ gs, PageFits g := by
  induction h with
  | nil => simp
  | snoc _ hg _ ih =>
    intro g hmem
    rw [List.mem_append, List.mem_singleton] at hmem
    rcases hmem with hmem | rfl
    · exact ih g hmem
    · exact hg

/-- The counters of the writer. -/
theorem counts (h : Emitted base fieldCount sigils gs st) :
    st.nextPageIndex = gs.length ∧ st.pages.length = gs.length ∧
      st.nextRecordStart = gs.flatten.length ∧ (gs.length = 0 ∨ gs.length < 2 ^ 32) := by
  induction h with
  | nil => exact ⟨rfl, rfl, rfl, .inl rfl⟩
  | snoc h hg he ih =>
    obtain ⟨page, -, hlt, rfl⟩ := (emitPage_eq_ok hg).mp he
    obtain ⟨hidx, hlen, hstart, -⟩ := ih
    simp only [List.length_append, List.length_singleton, List.flatten_append, List.flatten_singleton]
    exact ⟨by omega, by omega, by omega, .inr (by omega)⟩

/-- Page `k` holds group `k`, and its entry says where it is. -/
theorem page (h : Emitted base fieldCount sigils gs st) {k : ℕ} {g : List RecordRow}
    (hk : gs[k]? = some g) :
    ∃ page off, encodePage k (groupStart gs k) g.length fieldCount sigils g = .ok page ∧
      st.pages[k]? = some ⟨k, groupStart gs k, g.length, base + off, page.length % 2 ^ 32⟩ ∧
      At st.data off page := by
  induction h with
  | nil => simp at hk
  | @snoc gs st st' g' h hg he ih =>
    obtain ⟨page', henc, hlt, rfl⟩ := (emitPage_eq_ok hg).mp he
    obtain ⟨hidx, hlen, hstart, -⟩ := h.counts
    by_cases hlast : k < gs.length
    · rw [List.getElem?_append_left hlast] at hk
      obtain ⟨page, off, hp, hentry, hat⟩ := ih hk
      refine ⟨page, off, ?_, ?_, hat.append_right page'⟩
      · rwa [groupStart_append_left (by omega)]
      · rw [List.getElem?_append_left (by omega), hentry, groupStart_append_left (by omega)]
    · rw [List.getElem?_append_right (by omega), List.getElem?_singleton] at hk
      split at hk
      · obtain rfl : k = gs.length := by omega
        obtain rfl : g' = g := by simpa using hk
        rw [groupStart_append_left (le_refl _), groupStart_length]
        rw [hidx, hstart] at henc
        refine ⟨page', st.data.length, henc, ?_, ⟨st.data, [], by simp, rfl⟩⟩
        rw [List.getElem?_append_right (by omega), hlen, hidx, hstart]
        simp
      · cases hk

/-- Fewer than `2 ^ 32` pages of fewer than `2 ^ 32` rows each. -/
theorem flatten_lt (h : Emitted base fieldCount sigils gs st) : gs.flatten.length < 2 ^ 64 := by
  have hsum : ∀ l : List (List RecordRow), (∀ g ∈ l, PageFits g) →
      l.flatten.length ≤ l.length * 2 ^ 32 := by
    intro l hl
    induction l with
    | nil => simp
    | cons g l ih =>
      have hg := (hl g (by simp)).2
      have := ih fun g' hg' => hl g' (by simp [hg'])
      rw [List.flatten_cons, List.length_append, List.length_cons]
      omega
  have hle := hsum gs h.fits
  obtain ⟨-, -, -, hcount⟩ := h.counts
  omega

end Emitted

/-! ## The page loop of `finish_pax` -/

theorem paxLoop_cons {pageSize fuel : ℕ} {row : RecordRow} {rest : List RecordRow} {st : PaxPages} :
    paxLoop base fieldCount sigils pageSize (fuel + 1) (row :: rest) st = (do
      let st ← emitPage base fieldCount sigils st
        ((row :: rest).take (min ((row :: rest).length % 2 ^ 32) pageSize))
      paxLoop base fieldCount sigils pageSize fuel
        ((row :: rest).drop (min ((row :: rest).length % 2 ^ 32) pageSize)) st) := rfl

/-- One page less for the rows behind the first page. -/
theorem pageCount_step {n ps : ℕ} (hps : 0 < ps) (hn : 0 < n) :
    (n - min n ps + ps - 1) / ps + 1 = (n + ps - 1) / ps := by
  by_cases h : n ≤ ps
  · rw [Nat.min_eq_left h, Nat.sub_self, Nat.zero_add, Nat.div_eq_of_lt (by omega),
      show n + ps - 1 = n - 1 + ps by omega, Nat.add_div_right _ hps, Nat.div_eq_of_lt (by omega)]
  · rw [Nat.min_eq_right (by omega), ← Nat.add_div_right _ hps]
    congr 1
    omega

/-- With `2 ^ 32` rows or more the loop comes to a round in which it does not advance. -/
theorem paxLoop_ne_ok {pageSize : ℕ} : ∀ {fuel : ℕ} {rows : List RecordRow} {st st' : PaxPages},
    2 ^ 32 ≤ rows.length → paxLoop base fieldCount sigils pageSize fuel rows st ≠ .ok st'
  | _, [], _, _, h => by simp at h
  | 0, _ :: _, _, _, _ => by simp [paxLoop]
  | fuel + 1, row :: rest, st, st', h => by
    rw [paxLoop_cons]
    intro hok
    obtain ⟨st₁, -, hrest⟩ := bind_eq_ok.mp hok
    refine paxLoop_ne_ok ?_ hrest
    rw [List.length_drop]
    omega

/-- Every group but the last has `size` members. -/
def PagesOf (size : ℕ) (hs : List (List RecordRow)) : Prop :=
  ∀ k g, hs[k]? = some g → groupStart hs k = k * size ∧ g.length ≤ size

theorem pagesOf_cons {size : ℕ} {g : List RecordRow} {hs : List (List RecordRow)}
    (hg : g.length ≤ size) (hfull : hs ≠ [] → g.length = size) (h : PagesOf size hs) :
    PagesOf size (g :: hs) := by
  intro k g' hk
  rcases k with _ | k
  · obtain rfl : g = g' := by simpa using hk
    exact ⟨by simp, hg⟩
  · rw [List.getElem?_cons_succ] at hk
    obtain ⟨hstart, hlen⟩ := h k g' hk
    have hne : hs ≠ [] := by
      rintro rfl
      simp at hk
    have hcons : groupStart (g :: hs) (k + 1) = g.length + groupStart hs k := by simp [groupStart]
    exact ⟨by rw [hcons, hstart, hfull hne, Nat.succ_mul, Nat.add_comm], hlen⟩

/-- The page of a record. -/
theorem PagesOf.index {size k j : ℕ} {g : List RecordRow} {hs : List (List RecordRow)}
    (h : PagesOf size hs) (hk : hs[k]? = some g) (hj : j < g.length) :
    (groupStart hs k + j) / size = k := by
  obtain ⟨hstart, hlen⟩ := h k g hk
  rw [hstart, Nat.mul_comm, Nat.mul_add_div (by omega), Nat.div_eq_of_lt (by omega), Nat.add_zero]

/-- The loop emits its rows, in groups of the page size. -/
theorem paxLoop_emitted {pageSize : ℕ} (hps : 0 < pageSize) :
    ∀ {fuel : ℕ} {rows : List RecordRow} {gs : List (List RecordRow)} {st st' : PaxPages},
      Emitted base fieldCount sigils gs st →
      paxLoop base fieldCount sigils pageSize fuel rows st = .ok st' →
      ∃ hs, Emitted base fieldCount sigils (gs ++ hs) st' ∧ hs.flatten = rows ∧
        hs.length = (rows.length + pageSize - 1) / pageSize ∧ PagesOf pageSize hs
  | fuel, [], gs, st, st', h, hok => by
    have hst : st' = st := by cases fuel <;> simpa [paxLoop, eq_comm] using hok
    subst hst
    refine ⟨[], by simpa using h, rfl, ?_, fun k g hk => by simp at hk⟩
    rw [List.length_nil, List.length_nil, Nat.zero_add, Nat.div_eq_of_lt (by omega)]
  | 0, _ :: _, _, _, _, _, hok => by simp [paxLoop] at hok
  | fuel + 1, row :: rest, gs, st, st', h, hok => by
    have hlt : (row :: rest).length < 2 ^ 32 := by
      by_contra hge
      exact paxLoop_ne_ok (Nat.le_of_not_lt hge) hok
    rw [paxLoop_cons, Nat.mod_eq_of_lt hlt] at hok
    obtain ⟨st₁, hemit, hrest⟩ := bind_eq_ok.mp hok
    have hlen : 0 < (row :: rest).length := by simp
    have htake := List.length_take (i := min (row :: rest).length pageSize) (l := row :: rest)
    have hfit : PageFits ((row :: rest).take (min (row :: rest).length pageSize)) := by
      unfold PageFits
      omega
    obtain ⟨hs, hem, hflat, hcount, hpages⟩ := paxLoop_emitted hps (h.snoc hfit hemit) hrest
    refine ⟨(row :: rest).take (min (row :: rest).length pageSize) :: hs, ?_, ?_, ?_,
      pagesOf_cons (by omega) ?_ hpages⟩
    · rwa [List.append_assoc, List.singleton_append] at hem
    · rw [List.flatten_cons, hflat, List.take_append_drop]
    · rw [List.length_cons, hcount, List.length_drop]
      exact pageCount_step hps hlen
    · -- a page that is followed by another is full
      intro hne
      by_contra hshort
      rw [List.length_drop, show (row :: rest).length - min (row :: rest).length pageSize = 0 by omega,
        Nat.zero_add, Nat.div_eq_of_lt (by omega)] at hcount
      exact hne (List.eq_nil_of_length_eq_zero hcount)

end Emitted

end Nyxis
