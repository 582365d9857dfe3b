import Mathlib.Data.List.Infix
import Nyxis.StreamAgrees

/-!
# Tailing — following a stream while it is written

A stream on disk grows by copies of its data sector.  A reader that opens what is there looks for the page of a record by
the numbers that the pages give of themselves.

* `Tail`: what a stream shows, as rows: those pushed, those on pages and those that were copied.
* `run_follows`: whatever the order of pushes, flushes and copies, the stream on disk shows that.
* `tail_reads`: a reader of the growing file finds the records that are shown, and no others.
* `tail_stable`: what it has found it finds again, however the stream goes on.
-/

namespace Nyxis

open Lib Lib.Outcome

/-! ## Looking for a record -/

namespace PaxStreamReader

variable (s : PaxStreamReader)

/-- At least one page is complete. -/
def hasCompletePage : Opt Bool :=
  match completePageEnd s.data s.dataStart s.keySigils with
  | .ok _ => .ok true
  | .err _ => .ok false
  | .panic => .panic

def rewindPages : PaxStreamReader := { s with pageCursor := s.dataStart }

/-- The record is looked for from the cursor on; the first argument bounds the number of pages. -/
def getF64From (globalIndex : ℕ) (key : String) : ℕ → PaxStreamReader → Opt F64
  | 0, _ => none'
  | fuel + 1, s =>
    match s.pollNextPage with
    | .ok (view, s') =>
      if globalIndex ≥ view.recordStart then do
        let stop ← usizeAdd view.recordStart view.recordCount
        if globalIndex < stop then s.getF64 view (globalIndex - view.recordStart) key
        else getF64From globalIndex key fuel s'
      else getF64From globalIndex key fuel s'
    | .err _ => none'
    | .panic => .panic

/-- `get_f64_complete`. -/
def getF64Complete (globalIndex : ℕ) (key : String) : Opt F64 :=
  getF64From globalIndex key (s.data.length + 1) s.rewindPages

theorem slot_of_nodup {s : PaxStreamReader} {fi : ℕ} {key : String} (hnd : s.keys.Nodup) (hk : s.keys[fi]? = some key) :
    s.slot key = .ok fi := by
  obtain ⟨hmem, hidx⟩ := lastIdx_of_nodup hnd hk
  rw [slot, if_pos hmem, hidx]

end PaxStreamReader

/-- The number in a column of the rows. -/
def shownF64 (sigil : UInt8) (rows : List RecordRow) (fi i : ℕ) : Opt F64 :=
  match rows[i]? with
  | some row => f64Of <$> storedWord sigil 8 (row.cell fi)
  | none => none'

theorem shownF64_f64 {rows : List RecordRow} {fi i : ℕ} {row : RecordRow} {x : F64} (h : rows[i]? = some row)
    (hc : row.cell fi = .f64 x) : shownF64 SIGIL_FLOAT rows fi i = .ok x := by
  rw [shownF64, h]
  dsimp only
  rw [hc, show storedWord SIGIL_FLOAT 8 (.f64 x) = .ok (leNat ((f64Bytes x).take 8)) from rfl, leNat_f64_take, map_ok,
    f64Of_toNat]

theorem shownF64_absent {rows : List RecordRow} {fi i : ℕ} {row : RecordRow} (h : rows[i]? = some row)
    (hc : row.cell fi = .absent) : shownF64 SIGIL_FLOAT rows fi i = none' := by
  rw [shownF64, h]
  dsimp only
  rw [hc]
  rfl

theorem shownF64_none {sigil : UInt8} {rows : List RecordRow} {fi i : ℕ} (h : rows.length ≤ i) :
    shownF64 sigil rows fi i = none' := by
  rw [shownF64, List.getElem?_eq_none h]

/-- More rows behind do not change a number. -/
theorem shownF64_mono {sigil : UInt8} {rows rows' : List RecordRow} {fi i : ℕ} {x : F64} (hp : rows <+: rows')
    (h : shownF64 sigil rows fi i = .ok x) : shownF64 sigil rows' fi i = .ok x := by
  obtain ⟨more, rfl⟩ := hp
  by_cases hi : i < rows.length
  · rw [shownF64, List.getElem?_append_left hi]
    exact h
  · rw [shownF64_none (by omega)] at h
    cases h

/-- A row of a group, among the rows of all groups in front of `k`. -/
theorem flatten_take_getElem? {α : Type} {gs : List (List α)} {p k i : ℕ} {g : List α} (hp : gs[p]? = some g) (hpk : p < k)
    (hge : groupStart gs p ≤ i) (hlt : i < groupStart gs p + g.length) :
    (gs.take k).flatten[i]? = g[i - groupStart gs p]? := by
  obtain ⟨hplt, hget⟩ := List.getElem?_eq_some_iff.mp hp
  have hsplit : gs.take k = gs.take p ++ g :: (gs.drop (p + 1)).take (k - p - 1) := by
    conv_lhs => rw [← List.take_append_drop p gs, List.take_append, List.length_take, Nat.min_eq_left (by omega),
      List.drop_eq_getElem_cons hplt, hget, List.take_take, Nat.min_eq_right (by omega),
      show k - p = k - p - 1 + 1 by omega, List.take_succ_cons]
  rw [groupStart] at hge hlt ⊢
  rw [hsplit, List.flatten_append, List.flatten_cons, List.getElem?_append_right hge, List.getElem?_append_left (by omega)]

namespace SealedPax

variable {keys : List String} {sigils : List UInt8} {gs : List (List RecordRow)} {st : PaxPages} {preambleTail m k : ℕ}
  {file : Slice}

/-- No page is complete behind those that are there. -/
theorem completePageEnd_stop (h : SealedPax keys sigils gs st preambleTail file) (hk : Shows keys sigils gs st m k) :
    completePageEnd (file.bytes.take m) (pageOffset (32 + (buildSchema keys sigils).length) st k) sigils = none' := by
  by_cases hlast : k < gs.length
  · have hget := List.getElem?_eq_getElem hlast
    obtain ⟨page, cols, entry, henc, hcols, hentry, -, -, -, hoff, h8, -, hat, hnext, -⟩ := h.page hget
    have hpartial := hk.partialPage hlast
    rw [← hoff, completePageEnd_prefix file.small henc hat hcols (h.emitted.fits _ (List.getElem_mem hlast)).2 h.keys_lt h8,
      if_neg (by omega)]
  · obtain ⟨-, hplen, -, -⟩ := h.emitted.counts
    have hbehind : pageOffset (32 + (buildSchema keys sigils).length) st k =
        32 + (buildSchema keys sigils).length + st.data.length := by
      rw [pageOffset, List.getElem?_eq_none (by omega)]
    rw [hbehind, h.completePageEnd_tail]

/-- A page in front of `k` is there. -/
theorem pageOffset_succ_le (h : SealedPax keys sigils gs st preambleTail file) (hk : Shows keys sigils gs st m k) {p : ℕ}
    (hp : p < k) : pageOffset (32 + (buildSchema keys sigils).length) st (p + 1) ≤ m := by
  have hpages := hk.pages
  have hcomplete := hk.complete
  have hmono := h.pageOffset_add_le (n := k - (p + 1)) (p := p + 1) (by omega)
  rw [show p + 1 + (k - (p + 1)) = k by omega] at hmono
  omega

/-- Looking for a record from page `p` on finds it on the pages that are there, or not at all. -/
theorem getF64From_prefix (h : SealedPax keys sigils gs st preambleTail file) (hk : Shows keys sigils gs st m k)
    (hframed : ∀ g ∈ gs, pageLen keys.length sigils g < 2 ^ 32) {fi i : ℕ} {key : String} (hfi : fi < keys.length)
    (hsigil : NumericSigil (sigils.getD fi SIGIL_INT))
    (hfixed : ∀ j < fi, isVarSigil (sigils.getD j SIGIL_INT) = false) :
    ∀ {n p f : ℕ} {s : PaxStreamReader}, p + n = k → n < f → s.data = file.bytes.take m → s.keySigils = sigils →
      s.slot key = .ok fi → s.pageCursor = pageOffset (32 + (buildSchema keys sigils).length) st p → groupStart gs p ≤ i →
      PaxStreamReader.getF64From i key f s = shownF64 (sigils.getD fi SIGIL_INT) (gs.take k).flatten fi i
  | n, p, 0, _, _, hfuel, _, _, _, _, _ => absurd hfuel (Nat.not_lt_zero n)
  | 0, p, fuel + 1, s, hp, _, hdata, hsigils, hslot, hcursor, hge => by
    obtain rfl : p = k := by omega
    rw [PaxStreamReader.getF64From, PaxStreamReader.pollNextPage, hdata, hsigils, hcursor, h.completePageEnd_stop hk,
      err_bind, shownF64, List.getElem?_eq_none (by rw [groupStart] at hge; exact hge)]
  | n + 1, p, fuel + 1, s, hp, hfuel, hdata, hsigils, hslot, hcursor, hge => by
    have hpages := hk.pages
    have hlt : p < gs.length := by omega
    have hget := List.getElem?_eq_getElem hlt
    obtain ⟨entry, hentry⟩ := h.entry_of hget
    obtain ⟨hfits, hstart, hcount⟩ := h.view_fits hget hentry m
    have hsucc := groupStart_succ hget
    have hbound := PaxReader.groupStart_le gs (p + 1)
    have hflat := h.emitted.flatten_lt
    have hpoll := h.pollNextPage_page hget hentry hdata hsigils hcursor
    rw [if_pos ⟨h.pageOffset_succ_le hk (by omega), hframed _ (List.getElem_mem hlt)⟩] at hpoll
    have hstart' : (entry.view keys.length (file.bytes.take m)).recordStart = groupStart gs p := hstart
    have hcount' : (entry.view keys.length (file.bytes.take m)).recordCount = gs[p].length := hcount
    rw [PaxStreamReader.getF64From, hpoll]
    dsimp only
    rw [hstart', hcount', if_pos hge, usizeAdd_of (by omega), ok_bind, ← hsucc]
    by_cases hin : i < groupStart gs (p + 1)
    · -- the record is on this page
      have hj : i - groupStart gs p < gs[p].length := by omega
      have hrow := List.getElem?_eq_getElem hj
      have hcell : (column gs[p] fi)[i - groupStart gs p]? = some (gs[p][i - groupStart gs p].cell fi) := by
        rw [column, List.getElem?_map, hrow]
        rfl
      have hfound := h.found_of_fixed hk hfi hsigil hfixed (p := p) (g := gs[p])
        (by rw [List.getElem?_take_of_lt (by omega), hget]) hentry
      have hword := hfound.getWord hfits hfi hsigil (by rw [column_length]; exact hcount'.symm) hcell
      rw [if_pos hin, PaxStreamReader.getF64, hslot, ok_bind, hword, shownF64,
        flatten_take_getElem? hget (by omega) hge (by omega), hrow]
    · rw [if_neg hin]
      exact h.getF64From_prefix hk hframed hfi hsigil hfixed (n := n) (p := p + 1) (by omega) (by omega) hdata hsigils
        hslot rfl (by omega)

/-- Whether a page is complete. -/
theorem hasCompletePage_prefix (h : SealedPax keys sigils gs st preambleTail file) (hk : Shows keys sigils gs st m k)
    (hframed : ∀ g ∈ gs, pageLen keys.length sigils g < 2 ^ 32) {s : PaxStreamReader} (hdata : s.data = file.bytes.take m)
    (hsigils : s.keySigils = sigils) (hstart : s.dataStart = 32 + (buildSchema keys sigils).length) :
    s.hasCompletePage = .ok (decide (0 < groupStart gs k)) := by
  have hzero := h.emitted.pageOffset_zero
  rw [PaxStreamReader.hasCompletePage, hdata, hsigils, hstart]
  rcases Nat.eq_zero_or_pos k with rfl | hpos
  · have hstop := h.completePageEnd_stop hk
    rw [hzero] at hstop
    rw [hstop, groupStart_zero]
    rfl
  · have hpages := hk.pages
    have hget := List.getElem?_eq_getElem (show 0 < gs.length by omega)
    obtain ⟨entry, hentry⟩ := h.entry_of hget
    obtain ⟨hrows, -⟩ := h.emitted.fits _ (List.mem_of_getElem? hget)
    have hfirst := groupStart_succ hget
    have hmono := groupStart_mono gs (show 0 + 1 ≤ k from hpos)
    have hpoll := h.pollNextPage_page hget hentry (s := ⟨file.bytes.take m, keys, sigils, s.dataStart,
      pageOffset (32 + (buildSchema keys sigils).length) st 0, s.isSealed⟩) rfl rfl rfl
    rw [if_pos ⟨h.pageOffset_succ_le hk hpos, hframed _ (List.mem_of_getElem? hget)⟩, hzero] at hpoll
    obtain ⟨stop, hstop, -⟩ := bind_eq_ok.mp hpoll
    rw [show completePageEnd (file.bytes.take m) (32 + (buildSchema keys sigils).length) sigils = .ok stop from hstop,
      decide_eq_true (by omega)]

end SealedPax

/-! ## What a stream shows -/

namespace PaxStreamWriter

/-- The rows of a stream: `paged` of them are on pages, and the pages of `shown` were copied out. -/
structure Tail where
  rows : List RecordRow
  paged : ℕ
  shown : ℕ
  shown_le : shown ≤ paged
  paged_le : paged ≤ rows.length

namespace Tail

def empty : Tail := ⟨[], 0, 0, le_refl 0, le_refl 0⟩

/-- All rows on pages. -/
def flush (t : Tail) : Tail := ⟨t.rows, t.rows.length, t.shown, t.shown_le.trans t.paged_le, le_refl _⟩

def push (t : Tail) (row : RecordRow) : Tail :=
  ⟨t.rows ++ [row], t.paged, t.shown, t.shown_le, t.paged_le.trans (by simp)⟩

def step (pageSize : ℕ) (t : Tail) : DiskOp → Tail
  | .op (.push row) => if t.rows.length + 1 - t.paged ≥ pageSize then (t.push row).flush else t.push row
  | .op .flush => t.flush
  | .copy => ⟨t.rows, t.paged, t.paged, le_refl _, t.paged_le⟩

def run (pageSize : ℕ) (t : Tail) (steps : List DiskOp) : Tail := steps.foldl (step pageSize) t

/-- A stream shows no less than before. -/
structure Grows (t t' : Tail) : Prop where
  rows : t.rows <+: t'.rows
  shown : t.shown ≤ t'.shown

theorem Grows.refl (t : Tail) : Grows t t := ⟨List.prefix_rfl, le_refl _⟩

theorem Grows.trans {t t' t'' : Tail} (h : Grows t t') (h' : Grows t' t'') : Grows t t'' :=
  ⟨h.rows.trans h'.rows, h.shown.trans h'.shown⟩

theorem grows_step (pageSize : ℕ) (t : Tail) (op : DiskOp) : Grows t (t.step pageSize op) := by
  cases op with
  | op o =>
    cases o with
    | push row =>
      rw [step]
      split
      · exact ⟨List.prefix_append _ _, le_refl _⟩
      · exact ⟨List.prefix_append _ _, le_refl _⟩
    | flush => exact ⟨List.prefix_rfl, le_refl _⟩
  | copy => exact ⟨List.prefix_rfl, t.shown_le⟩

theorem grows_run (pageSize : ℕ) : ∀ (steps : List DiskOp) (t : Tail), Grows t (t.run pageSize steps)
  | [], t => .refl t
  | op :: steps, t => (grows_step pageSize t op).trans (grows_run pageSize steps _)

theorem run_rows (pageSize : ℕ) : ∀ (steps : List DiskOp) (t : Tail),
    (t.run pageSize steps).rows = t.rows ++ OnDisk.pushed steps
  | [], t => (List.append_nil _).symm
  | op :: steps, t => by
    have hstep : (t.step pageSize op).rows = t.rows ++ OnDisk.pushed [op] := by
      cases op with
      | op o =>
        cases o with
        | push row =>
          rw [step]
          split <;> rfl
        | flush => exact (List.append_nil _).symm
      | copy => exact (List.append_nil _).symm
    have hcons : OnDisk.pushed (op :: steps) = OnDisk.pushed [op] ++ OnDisk.pushed steps := by
      cases op with
      | op o => rw [OnDisk.pushed, OnDisk.pushed, OnDisk.pushed, List.append_nil]
      | copy => rfl
    show ((t.step pageSize op).run pageSize steps).rows = _
    rw [run_rows pageSize steps, hstep, hcons, List.append_assoc]

end Tail

/-! ## The stream on disk -/

/-- A page that is flushed leaves the pages in front of it where they are. -/
theorem flushed_emits {w : PaxStreamWriter} {gs : List (List RecordRow)}
    (hem : Emitted w.base w.fieldCount w.sigils gs w.written) (hfit : PageFits w.pending) :
    w.flushed.1.Stuck ∨ ∃ st, w.flushed.1 = w.withPages st ∧
      Emitted w.base w.fieldCount w.sigils (gs ++ [w.pending]) st ∧
      ∀ k ≤ gs.length, pageOffset w.base st k = pageOffset w.base w.written k := by
  rcases flushed_cases w with ⟨st, hemit, heq⟩ | ⟨hno, heq⟩
  · refine Or.inr ⟨st, heq, hem.snoc hfit hemit, fun k hk => ?_⟩
    obtain ⟨page, -, -, rfl⟩ := (emitPage_eq_ok hfit).mp hemit
    obtain ⟨-, hplen, -, -⟩ := hem.counts
    rw [pageOffset, pageOffset]
    by_cases hlast : k < gs.length
    · rw [List.getElem?_append_left (by omega), List.getElem?_eq_getElem (by omega)]
    · rw [List.getElem?_append_right (by omega), List.getElem?_eq_none (l := w.written.pages) (by omega),
        show k - w.written.pages.length = 0 by omega]
      rfl
  · rw [heq]
    exact Or.inl ⟨List.length_pos_iff.mp hfit.1, hno⟩

/-- A stream on disk shows what `t` says: `gs` are the rows of its pages, and `k` pages are copied. -/
structure Follows (s : OnDisk) (t : Tail) (gs : List (List RecordRow)) (k : ℕ) : Prop where
  described : s.writer.Describes gs
  copied : s.Copied
  rows : gs.flatten ++ s.writer.pending = t.rows
  paged : gs.flatten.length = t.paged
  pages : k ≤ gs.length
  mark : pageOffset s.writer.base s.writer.written k = s.writer.base + s.mark
  shown : groupStart gs k = t.shown

section

variable {s : OnDisk} {t : Tail} {gs : List (List RecordRow)} {k : ℕ}

theorem follows_start {keys : List String} {sigils : List UInt8} {pageSize : UInt32} {w : PaxStreamWriter}
    (hnew : new keys sigils pageSize = .ok w) : Follows (OnDisk.start w) .empty [] 0 := by
  have hd := describes_new hnew
  obtain ⟨-, -, rfl⟩ := new_eq_ok.mp hnew
  exact ⟨hd, ⟨by simp [OnDisk.start], Nat.zero_le _⟩, rfl, rfl, le_refl _, rfl, rfl⟩

/-- A writer whose pending rows, with some more, are flushed. -/
theorem Follows.flushed (h : Follows s t gs k) (more : List RecordRow) (u : Tail) (hfit : PageFits (s.writer.pending ++ more))
    (hrows : u.rows = t.rows ++ more) (hpaged : u.paged = u.rows.length) (hshown : u.shown = t.shown)
    (hcopied : OnDisk.Copied { s with writer := { s.writer with pending := s.writer.pending ++ more }.flushed.1 }) :
    { s.writer with pending := s.writer.pending ++ more }.flushed.1.Stuck ∨
      Follows { s with writer := { s.writer with pending := s.writer.pending ++ more }.flushed.1 } u
        (gs ++ [s.writer.pending ++ more]) k := by
  have hpages := h.pages
  rcases flushed_emits (w := { s.writer with pending := s.writer.pending ++ more }) h.described.emitted hfit with
    hstuck | ⟨st, heq, hem, hoff⟩
  · exact Or.inl hstuck
  · rw [heq] at hcopied ⊢
    have hflat : (gs ++ [s.writer.pending ++ more]).flatten = u.rows := by
      rw [hrows, ← h.rows, List.flatten_append, List.flatten_singleton, List.append_assoc]
    refine Or.inr ⟨⟨hem, h.described.pageSize_pos, h.described.pageSize_pos⟩, hcopied, ?_, ?_, ?_, ?_, ?_⟩
    · rw [hflat]
      exact List.append_nil _
    · rw [hflat, hpaged]
    · rw [List.length_append]
      omega
    · exact (hoff k hpages).trans h.mark
    · rw [groupStart_append_left hpages, h.shown, hshown]

/-- One step of a stream on disk, unless its flush fails. -/
theorem Follows.step (h : Follows s t gs k) (op : DiskOp) : (s.step op).writer.Stuck ∨
    ∃ gs' k', Follows (s.step op) (t.step s.writer.pageSize.toNat op) gs' k' := by
  have hcopied := OnDisk.copied_step h.copied op
  have hlt := h.described.pending_lt
  have hps : s.writer.pageSize.toNat < 2 ^ 32 := s.writer.pageSize.toNat_lt
  have hcount : t.rows.length = t.paged + s.writer.pending.length := by rw [← h.rows, List.length_append, h.paged]
  have hlen : ∀ row : RecordRow, (s.writer.pending ++ [row]).length = s.writer.pending.length + 1 := fun row => by simp
  cases op with
  | op o =>
    cases o with
    | push row =>
      have hrow := hlen row
      by_cases hfull : (s.writer.pending ++ [row]).length % 2 ^ 32 ≥ s.writer.pageSize.toNat
      · have happly : (s.writer.apply (.push row)).1 = { s.writer with pending := s.writer.pending ++ [row] }.flushed.1 := by
          simp only [apply, pushRecord, if_pos hfull]
        rw [OnDisk.step, happly] at hcopied ⊢
        rw [Tail.step, if_pos (by omega)]
        exact (h.flushed [row] (t.push row).flush ⟨by omega, by omega⟩ rfl rfl rfl hcopied).imp_right fun hf => ⟨_, _, hf⟩
      · have happly : (s.writer.apply (.push row)).1 = { s.writer with pending := s.writer.pending ++ [row] } := by
          simp only [apply, pushRecord, if_neg hfull]
        rw [OnDisk.step, happly] at hcopied ⊢
        rw [Tail.step, if_neg (by omega)]
        refine Or.inr ⟨gs, k, ⟨h.described.emitted, ?_, h.described.pageSize_pos⟩, hcopied, ?_, h.paged, h.pages, h.mark, h.shown⟩
        · show (s.writer.pending ++ [row]).length < s.writer.pageSize.toNat
          omega
        · show gs.flatten ++ (s.writer.pending ++ [row]) = t.rows ++ [row]
          rw [← h.rows, List.append_assoc]
    | flush =>
      by_cases hempty : s.writer.pending.isEmpty = true
      · have happly : (s.writer.apply .flush).1 = s.writer := by simp only [apply, flushPending, if_pos hempty]
        rw [OnDisk.step, happly]
        refine Or.inr ⟨gs, k, h.described, h.copied, h.rows, ?_, h.pages, h.mark, h.shown⟩
        have hnil : s.writer.pending.length = 0 := by simpa using hempty
        show gs.flatten.length = t.rows.length
        rw [hcount, hnil, h.paged, Nat.add_zero]
      · have happly : (s.writer.apply .flush).1 = s.writer.flushed.1 := by simp only [apply, flushPending, if_neg hempty]
        have hself : { s.writer with pending := s.writer.pending ++ [] } = s.writer := by rw [List.append_nil]
        have hpos : 0 < s.writer.pending.length := List.length_pos_iff.mpr (by simpa using hempty)
        rw [OnDisk.step, happly] at hcopied ⊢
        have hflushed := h.flushed [] t.flush ⟨by simpa using hpos, by simp; omega⟩ (List.append_nil _).symm
          rfl rfl (by rw [hself]; exact hcopied)
        rw [hself] at hflushed
        exact hflushed.imp_right fun hf => ⟨_, _, hf⟩
  | copy =>
    obtain ⟨-, hplen, -, -⟩ := h.described.emitted.counts
    refine Or.inr ⟨gs, gs.length, h.described, hcopied, h.rows, h.paged, le_refl _, ?_, ?_⟩
    · show pageOffset s.writer.base s.writer.written gs.length = s.writer.base + s.writer.written.data.length
      rw [pageOffset, List.getElem?_eq_none (by omega)]
    · rw [groupStart_length, h.paged]
      rfl

theorem step_sameFile (s : OnDisk) : ∀ op : DiskOp, SameFile s.writer (s.step op).writer
  | .op o => apply_sameFile s.writer o
  | .copy => .refl s.writer

theorem run_sameWriter : ∀ (steps : List DiskOp) (s : OnDisk), SameFile s.writer (s.run steps).writer
  | [], s => .refl s.writer
  | op :: steps, s => (step_sameFile s op).trans (run_sameWriter steps _)

/-- A page that is refused stays refused. -/
theorem disk_stuck : ∀ (steps : List DiskOp) {s : OnDisk}, s.writer.Stuck → (s.run steps).writer.Stuck
  | [], _, h => h
  | .op o :: steps, _, h => disk_stuck steps (apply_stuck h o)
  | .copy :: steps, s, h => disk_stuck steps (s := s.step .copy) h

theorem disk_data : ∀ (steps : List DiskOp) (s : OnDisk),
    s.writer.written.data.length ≤ (s.run steps).writer.written.data.length
  | [], _ => le_refl _
  | .op o :: steps, s => by
    obtain ⟨e, he⟩ := apply_data s.writer o
    have hrest := disk_data steps (s.step (.op o))
    have hstep : (s.step (.op o)).writer.written.data.length = s.writer.written.data.length + e.length := by
      rw [OnDisk.step, he, List.length_append]
    show _ ≤ ((s.step (.op o)).run steps).writer.written.data.length
    omega
  | .copy :: steps, s => disk_data steps (s.step .copy)

/-- Whatever the order of the steps, a stream on disk shows what the steps say, unless a flush has failed. -/
theorem run_follows : ∀ (steps : List DiskOp) {s : OnDisk} {t : Tail} {gs : List (List RecordRow)} {k : ℕ},
    Follows s t gs k → (s.run steps).writer.Stuck ∨
      ∃ gs' k', Follows (s.run steps) (t.run s.writer.pageSize.toNat steps) gs' k'
  | [], _, _, gs, k, h => Or.inr ⟨gs, k, h⟩
  | op :: steps, s, t, gs, k, h => by
    rcases h.step op with hstuck | ⟨gs', k', hstep⟩
    · exact Or.inl (disk_stuck steps hstuck)
    · have hrest := run_follows steps hstep
      rw [(step_sameFile s op).pageSize] at hrest
      exact hrest

/-- A stream is the front of the file that sealing it would leave. -/
theorem Follows.sealed {keys : List String} {sigils : List UInt8} {pageSize : UInt32} (h : Follows s t gs k)
    (hsame : SameFile (init keys sigils pageSize) s.writer) (hlen : keys.length < 65536) (hnul : ∀ k ∈ keys, NulFree k)
    (hsig : sigils.length = keys.length) (h0 : (0 : UInt8) ∉ sigils)
    (hsmall : s.writer.base + s.writer.written.data.length < 2 ^ 32) :
    ∃ file, SealedPax keys sigils gs s.writer.written 0 file ∧ s.out = file.bytes.take (s.writer.base + s.mark) ∧
      s.writer.base + s.mark ≤ file.bytes.length ∧ SealedPax.Shows keys sigils gs s.writer.written (s.writer.base + s.mark) k := by
  have hem := h.described.emitted
  have hbase : s.writer.base = 32 + (buildSchema keys sigils).length := hsame.base
  rw [hsame.fieldCount, hsame.sigils, hbase] at hem
  have hmark := h.mark
  rw [hbase] at hmark hsmall
  obtain ⟨-, hplen, -, hgs⟩ := hem.counts
  have hentries : (s.writer.written.pages.flatMap pageEntryBytes).length = s.writer.written.pages.length * 28 :=
    length_flatMap_const fun e _ => pageEntryBytes_length e
  have hheader : s.writer.streamHeader =
      preamble VERSION (FLAG_SCHEMA_EMBEDDED ||| FLAG_PAX) (murmur3_64 (buildSchema keys sigils)) 0 ++ buildSchema keys sigils := by
    rw [streamHeader, hsame.dictHash, hsame.schemaBytes]
    rfl
  have hfile : SealedPax keys sigils gs s.writer.written 0 ⟨s.writer.streamHeader ++ s.writer.written.data ++
      buildPaxTail s.writer.written.pages (32 + (buildSchema keys sigils).length + s.writer.written.data.length)
        gs.flatten.length 1, by
      rw [hheader, buildPaxTail]
      simp only [List.length_append, preamble_length, leBytes_length, hentries]
      omega⟩ :=
    ⟨hlen, hnul, hsig, h0, hem, Or.inl rfl, murmur3_64 (buildSchema keys sigils), 1,
      congrArg (· ++ s.writer.written.data ++ _) hheader⟩
  have hle := h.copied.mark_le
  refine ⟨_, hfile, ?_, ?_, h.pages, by rw [hbase, hmark], fun hlt => ?_⟩
  · show s.out = (s.writer.streamHeader ++ s.writer.written.data ++ _).take (s.writer.base + s.mark)
    rw [h.copied.out, List.append_assoc, ← streamHeader_length, List.take_length_add_append, List.take_append_of_le_length hle]
  · show s.writer.base + s.mark ≤ (s.writer.streamHeader ++ s.writer.written.data ++ _).length
    rw [List.length_append, List.length_append, streamHeader_length]
    omega
  · obtain ⟨page, cols, entry, -, -, -, -, -, -, hoff, -, -, -, hnext, hpage⟩ := hfile.page (List.getElem?_eq_getElem hlt)
    rw [hbase]
    omega

/-- The pages of a short stream can give their lengths. -/
theorem Follows.framed {keys : List String} {sigils : List UInt8} {file : Slice}
    (hfile : SealedPax keys sigils gs s.writer.written 0 file)
    (hsmall : 32 + (buildSchema keys sigils).length + s.writer.written.data.length < 2 ^ 32) :
    ∀ g ∈ gs, pageLen keys.length sigils g < 2 ^ 32 := by
  intro g hg
  obtain ⟨p, hp, rfl⟩ := List.getElem_of_mem hg
  obtain ⟨page, cols, entry, -, hcols, -, -, -, -, hoff, -, -, -, hnext, hpage⟩ := hfile.page (List.getElem?_eq_getElem hp)
  have hbehind := hfile.pageOffset_add_le (n := gs.length - (p + 1)) (p := p + 1) (by omega)
  have hend : pageOffset (32 + (buildSchema keys sigils).length) s.writer.written (p + 1 + (gs.length - (p + 1))) =
      32 + (buildSchema keys sigils).length + s.writer.written.data.length := by
    obtain ⟨-, hplen, -, -⟩ := hfile.emitted.counts
    rw [pageOffset, List.getElem?_eq_none (by omega)]
  rw [pageLen, hcols]
  dsimp only
  omega

end

/-- The reader `s` sees the rows that are shown, and no others. -/
structure Tail.SeenBy (t : Tail) (keys : List String) (sigils : List UInt8) (s : PaxStreamReader) : Prop where
  count : s.completeRecordCount = .ok t.shown
  page : s.hasCompletePage = .ok (decide (0 < t.shown))
  found : ∀ fi key, keys[fi]? = some key → NumericSigil (sigils.getD fi SIGIL_INT) →
    (∀ j < fi, isVarSigil (sigils.getD j SIGIL_INT) = false) → ∀ i,
      s.getF64Complete i key = shownF64 (sigils.getD fi SIGIL_INT) (t.rows.take t.shown) fi i

/-- The bytes on disk are opened, and the reader sees what the stream shows. -/
theorem Follows.seen {s : OnDisk} {t : Tail} {gs : List (List RecordRow)} {k : ℕ} {keys : List String} {sigils : List UInt8}
    {pageSize : UInt32} (h : Follows s t gs k) (hsame : SameFile (init keys sigils pageSize) s.writer)
    (hlen : keys.length < 65536) (hnd : keys.Nodup) (hnul : ∀ k ∈ keys, NulFree k) (hsig : sigils.length = keys.length)
    (h0 : (0 : UInt8) ∉ sigils) (hsmall : s.writer.base + s.writer.written.data.length < 2 ^ 32) :
    ∃ r, PaxStreamReader.new s.out = .ok r ∧ t.SeenBy keys sigils r := by
  obtain ⟨file, hfile, hout, hinside, hshows⟩ := h.sealed hsame hlen hnul hsig h0 hsmall
  have hbase : s.writer.base = 32 + (buildSchema keys sigils).length := hsame.base
  have hframed := Follows.framed hfile (by rwa [hbase] at hsmall)
  have hm := hfile.schema_le hshows
  obtain ⟨⟨-, -⟩, -, -, -, -, hflen⟩ := hfile.sectors
  have hfsmall := file.small
  obtain ⟨b, hb, -⟩ := SealedPax.footerSeals_ok (d := file.bytes.take (s.writer.base + s.mark))
    (by rw [List.length_take]; omega) (by rw [List.length_take]; omega) 0
  set r : PaxStreamReader := ⟨file.bytes.take (s.writer.base + s.mark), keys, sigils, 32 + (buildSchema keys sigils).length,
    32 + (buildSchema keys sigils).length, b⟩ with hr
  have hnew : PaxStreamReader.new (file.bytes.take (s.writer.base + s.mark)) = .ok r :=
    (hfile.new_prefix hm).mpr ⟨Or.inl rfl, hb, rfl⟩
  obtain ⟨k', -, hpages, hall⟩ := hfile.completePages_prefix hshows (s := r) rfl rfl rfl
  obtain rfl : k' = k := hall.mpr fun g hg => hframed g (List.mem_of_mem_take hg)
  have hrows : (gs.take k').flatten = t.rows.take t.shown := by
    have hsplit : t.rows = (gs.take k').flatten ++ ((gs.drop k').flatten ++ s.writer.pending) := by
      rw [← h.rows, ← List.append_assoc, ← List.flatten_append, List.take_append_drop]
    rw [hsplit, ← h.shown, groupStart, List.take_left]
  refine ⟨r, by rw [hout]; exact hnew, ?_, ?_, fun fi key hkey hsigil hfixed i => ?_⟩
  · rw [PaxStreamReader.completeRecordCount, hpages, ok_bind, hfile.recordCount_views _ k' h.pages, h.shown]
  · rw [hfile.hasCompletePage_prefix hshows hframed (s := r) rfl rfl rfl, h.shown]
  · have hfi := (List.getElem?_eq_some_iff.mp hkey).1
    have hslot : r.rewindPages.slot key = .ok fi := PaxStreamReader.slot_of_nodup hnd hkey
    have hfuel : k' < r.data.length + 1 := by
      have hoff := hfile.pageOffset_add_le (n := k') (p := 0) (by have := h.pages; omega)
      have hcomplete := hshows.complete
      rw [hr]
      dsimp only
      rw [List.length_take]
      rw [Nat.zero_add] at hoff
      omega
    rw [PaxStreamReader.getF64Complete, ← hrows]
    exact hfile.getF64From_prefix hshows hframed hfi hsigil hfixed (n := k') (p := 0) (by omega) hfuel rfl rfl hslot
      (by rw [hfile.emitted.pageOffset_zero]; rfl) (Nat.zero_le _)

section

variable {keys : List String} {sigils : List UInt8} {pageSize : UInt32} {w : PaxStreamWriter}

/-- Any steps of a new stream, seen by a reader of what is on disk. -/
theorem run_seen (steps : List DiskOp) (hlen : keys.length < 65536) (hnd : keys.Nodup) (hnul : ∀ k ∈ keys, NulFree k)
    (hsig : sigils.length = keys.length) (h0 : (0 : UInt8) ∉ sigils) (hnew : new keys sigils pageSize = .ok w)
    (hlive : ¬ ((OnDisk.start w).run steps).writer.Stuck)
    (hsmall : w.base + ((OnDisk.start w).run steps).writer.dataSectorLen < 2 ^ 32) :
    ∃ r, PaxStreamReader.new ((OnDisk.start w).run steps).out = .ok r ∧
      (Tail.empty.run pageSize.toNat steps).SeenBy keys sigils r := by
  have hsame := run_sameWriter steps (OnDisk.start w)
  have hfollows := run_follows steps (follows_start hnew)
  obtain ⟨-, -, rfl⟩ := new_eq_ok.mp hnew
  obtain ⟨gs, k, hf⟩ := hfollows.resolve_left hlive
  have hbase : ((OnDisk.start (init keys sigils pageSize)).run steps).writer.base = (init keys sigils pageSize).base :=
    hsame.base
  exact hf.seen hsame hlen hnd hnul hsig h0 (by rw [hbase]; exact hsmall)

end

/-- A reader of a growing stream finds the records that were on pages at the last copy, and no others. -/
theorem tail_reads (keys : List String) (sigils : List UInt8) (pageSize : UInt32) (steps : List DiskOp) (w : PaxStreamWriter)
    (hlen : keys.length < 65536) (hnd : keys.Nodup) (hnul : ∀ k ∈ keys, NulFree k) (hsig : sigils.length = keys.length)
    (h0 : (0 : UInt8) ∉ sigils) (hnew : new keys sigils pageSize = .ok w)
    (hlive : ¬ ((OnDisk.start w).run steps).writer.Stuck)
    (hsmall : w.base + ((OnDisk.start w).run steps).writer.dataSectorLen < 2 ^ 32) :
    ∃ r, PaxStreamReader.new ((OnDisk.start w).run steps).out = .ok r ∧
      r.completeRecordCount = .ok (Tail.empty.run pageSize.toNat steps).shown ∧
      r.hasCompletePage = .ok (decide (0 < (Tail.empty.run pageSize.toNat steps).shown)) ∧
      ∀ fi key, keys[fi]? = some key → sigils[fi]? = some SIGIL_FLOAT →
        (∀ j < fi, isVarSigil (sigils.getD j SIGIL_INT) = false) →
        (∀ i row, i < (Tail.empty.run pageSize.toNat steps).shown → (OnDisk.pushed steps)[i]? = some row →
          (∀ x, row.cell fi = .f64 x → r.getF64Complete i key = .ok x) ∧
          (row.cell fi = .absent → r.getF64Complete i key = none')) ∧
        ∀ i, (Tail.empty.run pageSize.toNat steps).shown ≤ i → r.getF64Complete i key = none' := by
  obtain ⟨r, hr, hseen⟩ := run_seen steps hlen hnd hnul hsig h0 hnew hlive hsmall
  refine ⟨r, hr, hseen.count, hseen.page, fun fi key hkey hfi hfixed => ?_⟩
  have hsigil : sigils.getD fi SIGIL_INT = SIGIL_FLOAT := by rw [List.getD_eq_getElem?_getD, hfi, Option.getD_some]
  have hfound := hseen.found fi key hkey (by rw [hsigil]; exact Or.inr rfl) hfixed
  rw [hsigil] at hfound
  refine ⟨fun i row hi hrow => ?_, fun i hi => ?_⟩
  · have hget : ((Tail.empty.run pageSize.toNat steps).rows.take (Tail.empty.run pageSize.toNat steps).shown)[i]? = some row := by
      rw [List.getElem?_take_of_lt hi, Tail.run_rows]
      exact hrow
    rw [hfound i]
    exact ⟨fun x hx => shownF64_f64 hget hx, shownF64_absent hget⟩
  · rw [hfound i]
    exact shownF64_none ((List.length_take_le _ _).trans hi)

/-- Two records to a page: one has a number, the third is not on a page yet. -/
def scoreSteps : List DiskOp :=
  [.op (.push ⟨[.f64 ⟨0x3FF0000000000000⟩]⟩), .copy, .op (.push ⟨[.absent]⟩), .op (.push ⟨[.f64 ⟨0x4000000000000000⟩]⟩), .copy]

theorem scores_live : ¬ ((OnDisk.start (init ["score"] [SIGIL_FLOAT] 2)).run scoreSteps).writer.Stuck := by
  intro h
  obtain ⟨st, hst⟩ := isOk_iff.mp (show (emitPage ((OnDisk.start (init ["score"] [SIGIL_FLOAT] 2)).run scoreSteps).writer.base
    ((OnDisk.start (init ["score"] [SIGIL_FLOAT] 2)).run scoreSteps).writer.fieldCount
    ((OnDisk.start (init ["score"] [SIGIL_FLOAT] 2)).run scoreSteps).writer.sigils
    ((OnDisk.start (init ["score"] [SIGIL_FLOAT] 2)).run scoreSteps).writer.written
    ((OnDisk.start (init ["score"] [SIGIL_FLOAT] 2)).run scoreSteps).writer.pending).isOk = true by decide +kernel)
  exact h.2 st hst

theorem tail_reads_scores : ∃ r,
    PaxStreamReader.new ((OnDisk.start (init ["score"] [SIGIL_FLOAT] 2)).run scoreSteps).out = .ok r ∧
      r.completeRecordCount = .ok 2 ∧ r.getF64Complete 0 "score" = .ok ⟨0x3FF0000000000000⟩ ∧
      r.getF64Complete 1 "score" = none' ∧ r.getF64Complete 2 "score" = none' := by
  obtain ⟨r, hr, hcount, -, hfound⟩ := tail_reads ["score"] [SIGIL_FLOAT] 2 scoreSteps (init ["score"] [SIGIL_FLOAT] 2)
    (by decide) (by decide) (by decide) rfl (by decide) rfl scores_live (by decide +kernel)
  obtain ⟨hin, hout⟩ := hfound 0 "score" rfl rfl fun j hj => absurd hj (Nat.not_lt_zero j)
  refine ⟨r, hr, hcount, (hin 0 ⟨[.f64 ⟨0x3FF0000000000000⟩]⟩ (by decide) rfl).1 _ rfl, (hin 1 ⟨[.absent]⟩ (by decide) rfl).2 rfl,
    hout 2 (by decide)⟩

end PaxStreamWriter

end Nyxis
