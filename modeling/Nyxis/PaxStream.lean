import Nyxis.PaxPages

/-!
# PaxStream — the streaming PAX writer

A `PaxStreamWriter` collects rows in `pending` and emits them as a page when they fill one or on
`flushPending`.  `finishStream` builds the sealed file in memory, `sealStream` completes a file whose
pages were copied out as they were written.

* `from_rows_finish_stream`: streaming a list of rows gives the file of `finish_pax`.
* `ops_emitted`: whatever the order of the operations, the pages and the pending rows are the rows
  pushed, in order.
* `seal_stream_matches_iff`: sealing on disk gives the bytes of `finish_stream` exactly when no row
  is pending.
-/

namespace Nyxis

open Lib Lib.Outcome

structure PaxStreamWriter where
  keys : List String
  sigils : List UInt8
  schemaBytes : Bytes
  dictHash : UInt64
  pageSize : UInt32
  fieldCount : ℕ
  pending : List RecordRow
  /-- `data`, `pages`, `next_page_index` and `next_record_start`. -/
  written : PaxPages
  deriving DecidableEq, Repr

namespace PaxStreamWriter

/-- A writer that has written nothing. -/
def init (keys : List String) (sigils : List UInt8) (pageSize : UInt32) : PaxStreamWriter :=
  let schemaBytes := buildSchema keys sigils
  ⟨keys, sigils, schemaBytes, murmur3_64 schemaBytes, pageSize, keys.length, [], .empty⟩

def new (keys : List String) (sigils : List UInt8) (pageSize : UInt32) : Res PaxStreamWriter := do
  ensure (pageSize ≠ 0) (.parseError "page_size must be > 0")
  ensure (keys ≠ []) (.parseError "PAX stream writer requires schema keys")
  .ok (init keys sigils pageSize)

/-- The absolute position of the data sector. -/
def base (w : PaxStreamWriter) : ℕ := 32 + w.schemaBytes.length

/-- Emit the pending rows as one page; the result is the bytes of that page. -/
def flushPage (w : PaxStreamWriter) : Res (Bytes × PaxStreamWriter) := do
  let st ← emitPage w.base w.fieldCount w.sigils w.written w.pending
  .ok (st.data.drop w.written.data.length, { w with written := st, pending := [] })

/-- The writer after a call of `flush_page`, and what the call returns.  A call that fails leaves
the writer as it was. -/
def flushed (w : PaxStreamWriter) : PaxStreamWriter × Res (Option Bytes) :=
  match w.flushPage with
  | .ok (page, w') => (w', .ok (some page))
  | .err e => (w, .err e)
  | .panic => (w, .panic)

/-- Append a record; a page is flushed when it is full. -/
def pushRecord (w : PaxStreamWriter) (row : RecordRow) : PaxStreamWriter × Res (Option Bytes) :=
  let w := { w with pending := w.pending ++ [row] }
  if w.pending.length % 2 ^ 32 ≥ w.pageSize.toNat then w.flushed else (w, .ok none)

/-- Emit the pending rows as one page, if there are any. -/
def flushPending (w : PaxStreamWriter) : PaxStreamWriter × Res (Option Bytes) :=
  if w.pending.isEmpty then (w, .ok none) else w.flushed

/-- A writer with every row of `rows` pushed. -/
def pushAll (w : PaxStreamWriter) : List RecordRow → Res PaxStreamWriter
  | [] => .ok w
  | row :: rows => do
    let _ ← (w.pushRecord row).2
    pushAll (w.pushRecord row).1 rows

def fromRows (keys : List String) (rows : List RecordRow) (pageSize : UInt32) :
    Res PaxStreamWriter := do
  let w ← new keys (sigilsForKeys keys rows) pageSize
  w.pushAll rows

def dataSectorLen (w : PaxStreamWriter) : ℕ := w.written.data.length

def totalRecords (w : PaxStreamWriter) : ℕ := w.written.nextRecordStart + w.pending.length

/-- The unsealed preamble (`TailPtr = 0`) and the schema. -/
def streamHeader (w : PaxStreamWriter) : Bytes :=
  preamble VERSION (FLAG_SCHEMA_EMBEDDED ||| FLAG_PAX) w.dictHash 0 ++ w.schemaBytes

/-- What `write_data_sector_since(out, start)` appends to its output. -/
def dataSectorSince (w : PaxStreamWriter) (start : ℕ) : Bytes :=
  if w.written.data.length > start then w.written.data.drop start else []

/-- The flush that begins `finish_stream` and `seal_stream`. -/
def flushRest (w : PaxStreamWriter) : Res PaxStreamWriter := do
  if w.pending.isEmpty then .ok w
  else do
    let (_, w) ← w.flushPage
    .ok w

def finishStream (w : PaxStreamWriter) : Res Slice := do
  let w ← w.flushRest
  Slice.ofBytes (sealPax w.schemaBytes w.dictHash w.written w.totalRecords w.pageSize.toNat)

/-- What `seal_stream` appends to its output, and the position of the tail-index it returns. -/
def sealStream (w : PaxStreamWriter) : Res (Bytes × ℕ) := do
  let w ← w.flushRest
  let tailIndexOffset := w.base + w.written.data.length
  .ok (buildPaxTail w.written.pages tailIndexOffset w.totalRecords w.pageSize.toNat, tailIndexOffset)

/-! ## Runs of operations -/

/-- An operation between opening a stream and ending it. -/
inductive Op where
  | push (row : RecordRow)
  | flush
  deriving DecidableEq, Repr

/-- One operation: the writer after it, and what it returns. -/
def apply (w : PaxStreamWriter) : Op → PaxStreamWriter × Res (Option Bytes)
  | .push row => w.pushRecord row
  | .flush => w.flushPending

/-- The rows that operations push. -/
def pushed : List Op → List RecordRow
  | [] => []
  | .push row :: ops => row :: pushed ops
  | .flush :: ops => pushed ops

/-- The writer after a run of operations; one that fails leaves its effect and the run goes on. -/
def run (w : PaxStreamWriter) (ops : List Op) : PaxStreamWriter :=
  ops.foldl (fun w op => (w.apply op).1) w

/-- The writer describes one file: `gs` are the groups of rows of its pages. -/
structure Describes (w : PaxStreamWriter) (gs : List (List RecordRow)) : Prop where
  emitted : Emitted w.base w.fieldCount w.sigils gs w.written
  pending_lt : w.pending.length < w.pageSize.toNat
  pageSize_pos : 0 < w.pageSize.toNat

/-- The parts of a writer that no operation changes. -/
structure SameFile (w w' : PaxStreamWriter) : Prop where
  keys : w'.keys = w.keys
  sigils : w'.sigils = w.sigils
  schemaBytes : w'.schemaBytes = w.schemaBytes
  dictHash : w'.dictHash = w.dictHash
  pageSize : w'.pageSize = w.pageSize
  fieldCount : w'.fieldCount = w.fieldCount

theorem SameFile.refl (w : PaxStreamWriter) : SameFile w w := ⟨rfl, rfl, rfl, rfl, rfl, rfl⟩

theorem SameFile.trans {w w' w'' : PaxStreamWriter} (h : SameFile w w') (h' : SameFile w' w'') :
    SameFile w w'' :=
  ⟨h'.keys.trans h.keys, h'.sigils.trans h.sigils, h'.schemaBytes.trans h.schemaBytes,
    h'.dictHash.trans h.dictHash, h'.pageSize.trans h.pageSize, h'.fieldCount.trans h.fieldCount⟩

theorem new_eq_ok {keys : List String} {sigils : List UInt8} {pageSize : UInt32}
    {w : PaxStreamWriter} :
    new keys sigils pageSize = .ok w ↔
      pageSize ≠ 0 ∧ keys ≠ [] ∧ w = init keys sigils pageSize := by
  unfold new
  simp only [bind_eq_ok, ensure_eq_ok, ok.injEq, exists_const, eq_comm (a := w)]

theorem toNat_pos {n : UInt32} (h : n ≠ 0) : 0 < n.toNat := by
  rcases Nat.eq_zero_or_pos n.toNat with h0 | h0
  · exact absurd (UInt32.toNat.inj h0) h
  · exact h0

theorem describes_new {keys : List String} {sigils : List UInt8} {pageSize : UInt32}
    {w : PaxStreamWriter} (h : new keys sigils pageSize = .ok w) : w.Describes [] := by
  obtain ⟨hps, -, rfl⟩ := new_eq_ok.mp h
  exact ⟨.nil, toNat_pos hps, toNat_pos hps⟩

/-! ## Streaming a list of rows -/

/-- The writer once all its rows are on pages. -/
def withPages (w : PaxStreamWriter) (st : PaxPages) : PaxStreamWriter :=
  { w with written := st, pending := [] }

theorem flushRest_of_empty {w : PaxStreamWriter} (h : w.pending = []) : w.flushRest = .ok w := by
  rw [flushRest, h]
  rfl

theorem flushRest_of_pending {w : PaxStreamWriter} (h : w.pending ≠ []) :
    w.flushRest = w.withPages <$> emitPage w.base w.fieldCount w.sigils w.written w.pending := by
  rw [flushRest, if_neg (by simpa using h), flushPage]
  cases emitPage w.base w.fieldCount w.sigils w.written w.pending <;> rfl

/-- Pushing the row that fills a page emits the page. -/
theorem pushRecord_full {w : PaxStreamWriter} {row : RecordRow}
    (h : (w.pending.length + 1) % 2 ^ 32 ≥ w.pageSize.toNat) (f : PaxStreamWriter → Res PaxStreamWriter) :
    (do let _ ← (w.pushRecord row).2
        f (w.pushRecord row).1) = (do
      let st ← emitPage w.base w.fieldCount w.sigils w.written (w.pending ++ [row])
      f (w.withPages st)) := by
  have hif : (w.pending ++ [row]).length % 2 ^ 32 ≥ w.pageSize.toNat := by simpa using h
  simp only [pushRecord, if_pos hif, flushed, flushPage]
  have hbase : base { w with pending := w.pending ++ [row] } = w.base := rfl
  rw [hbase]
  cases emitPage w.base w.fieldCount w.sigils w.written (w.pending ++ [row]) <;> rfl

/-- Pushing a row that does not fill a page keeps it pending. -/
theorem pushRecord_pending {w : PaxStreamWriter} {row : RecordRow}
    (h : ¬ (w.pending.length + 1) % 2 ^ 32 ≥ w.pageSize.toNat) :
    w.pushRecord row = ({ w with pending := w.pending ++ [row] }, .ok none) := by
  have hif : ¬ (w.pending ++ [row]).length % 2 ^ 32 ≥ w.pageSize.toNat := by simpa using h
  simp only [pushRecord, if_neg hif]

/-- Pushing rows and flushing the rest cuts the same pages as the loop of `finish_pax`. -/
theorem pushAll_flushRest : ∀ (rows : List RecordRow) (w : PaxStreamWriter) (fuel : ℕ),
    w.pending.length < w.pageSize.toNat → w.pending.length + rows.length < 2 ^ 32 →
    w.pending.length + rows.length ≤ fuel →
    (w.pushAll rows >>= flushRest) = w.withPages <$>
      paxLoop w.base w.fieldCount w.sigils w.pageSize.toNat fuel (w.pending ++ rows) w.written
  | [], w, fuel, hps, hlt, hfuel => by
    rw [pushAll, ok_bind, List.append_nil]
    by_cases hp : w.pending = []
    · rw [flushRest_of_empty hp, hp]
      have hw : w.withPages w.written = w := by rw [withPages, ← hp]
      cases fuel <;> simp [paxLoop, hw]
    · obtain ⟨row, rest, hcons⟩ := List.exists_cons_of_ne_nil hp
      have hlen : w.pending.length = (row :: rest).length := by rw [hcons]
      obtain ⟨fuel, rfl⟩ : ∃ f, fuel = f + 1 := ⟨fuel - 1, by simp at hlen; omega⟩
      rw [flushRest_of_pending hp, hcons, paxLoop_cons]
      rw [Nat.mod_eq_of_lt (by omega), Nat.min_eq_left (by omega), List.take_length,
        List.drop_length]
      cases emitPage w.base w.fieldCount w.sigils w.written (row :: rest) <;> cases fuel <;> rfl
  | row :: rows, w, fuel, hps, hlt, hfuel => by
    rw [List.length_cons] at hlt hfuel
    rw [pushAll]
    have hmod : (w.pending.length + 1) % 2 ^ 32 = w.pending.length + 1 := Nat.mod_eq_of_lt (by omega)
    by_cases hfull : (w.pending.length + 1) % 2 ^ 32 ≥ w.pageSize.toNat
    · -- the page is full: the batch loop cuts it off as its next page
      rw [pushRecord_full hfull fun w => w.pushAll rows]
      rw [hmod] at hfull
      obtain ⟨fuel, rfl⟩ : ∃ f, fuel = f + 1 := ⟨fuel - 1, by omega⟩
      have hsplit : w.pending ++ row :: rows = w.pending ++ [row] ++ rows := by simp
      have hcount : (w.pending ++ [row]).length = w.pageSize.toNat := by simp; omega
      obtain ⟨a, l, hcons⟩ := List.exists_cons_of_ne_nil
        (show w.pending ++ [row] ++ rows ≠ [] by simp)
      have hlen : (w.pending ++ [row] ++ rows).length < 2 ^ 32 := by simp; omega
      have hmin : min ((w.pending ++ [row] ++ rows).length % 2 ^ 32) w.pageSize.toNat =
          (w.pending ++ [row]).length := by
        rw [Nat.mod_eq_of_lt hlen, hcount]
        simp only [List.length_append] at hcount ⊢
        omega
      rw [hsplit, hcons, paxLoop_cons, ← hcons, hmin, List.take_left, List.drop_left]
      cases emitPage w.base w.fieldCount w.sigils w.written (w.pending ++ [row]) with
      | ok st =>
        have ih := pushAll_flushRest rows (w.withPages st) fuel
          (by simp [withPages]; omega) (by simp [withPages]; omega) (by simp [withPages]; omega)
        simp only [ok_bind]
        rw [ih]
        rfl
      | err e => rfl
      | panic => rfl
    · rw [pushRecord_pending hfull]
      have ih := pushAll_flushRest rows { w with pending := w.pending ++ [row] } fuel
        (by simp; omega) (by simp; omega) (by simp; omega)
      simp only [ok_bind]
      rw [ih]
      simp only [List.append_assoc, List.singleton_append]
      rfl

/-! ## What runs preserve -/

/-- The pending rows cannot be emitted.  No operation changes that: rows are only added to them. -/
def Stuck (w : PaxStreamWriter) : Prop :=
  w.pending ≠ [] ∧ ∀ st, emitPage w.base w.fieldCount w.sigils w.written w.pending ≠ .ok st

theorem flushed_cases (w : PaxStreamWriter) :
    (∃ st, emitPage w.base w.fieldCount w.sigils w.written w.pending = .ok st ∧
      w.flushed.1 = w.withPages st) ∨
    ((∀ st, emitPage w.base w.fieldCount w.sigils w.written w.pending ≠ .ok st) ∧
      w.flushed.1 = w) := by
  unfold flushed flushPage
  cases h : emitPage w.base w.fieldCount w.sigils w.written w.pending with
  | ok st => exact .inl ⟨st, rfl, rfl⟩
  | err e => exact .inr ⟨by simp, rfl⟩
  | panic => exact .inr ⟨by simp, rfl⟩

theorem apply_sameFile (w : PaxStreamWriter) (op : Op) : SameFile w (w.apply op).1 := by
  have hflushed : ∀ w : PaxStreamWriter, SameFile w w.flushed.1 := fun w => by
    rcases flushed_cases w with ⟨st, -, h⟩ | ⟨-, h⟩ <;> rw [h] <;> exact ⟨rfl, rfl, rfl, rfl, rfl, rfl⟩
  cases op with
  | push row =>
    simp only [apply, pushRecord]
    split
    · have hpush : SameFile w { w with pending := w.pending ++ [row] } := ⟨rfl, rfl, rfl, rfl, rfl, rfl⟩
      exact hpush.trans (hflushed _)
    · exact ⟨rfl, rfl, rfl, rfl, rfl, rfl⟩
  | flush =>
    simp only [apply, flushPending]
    split
    · exact .refl w
    · exact hflushed w

theorem run_sameFile : ∀ (ops : List Op) (w : PaxStreamWriter), SameFile w (w.run ops)
  | [], w => .refl w
  | op :: ops, w => (apply_sameFile w op).trans (run_sameFile ops _)

/-- An operation keeps the writer describing the rows pushed, or its flush fails. -/
theorem apply_describes {w : PaxStreamWriter} {gs : List (List RecordRow)} (h : w.Describes gs)
    (op : Op) :
    (w.apply op).1.Stuck ∨ ∃ hs, (w.apply op).1.Describes (gs ++ hs) ∧
      hs.flatten ++ (w.apply op).1.pending = w.pending ++ pushed [op] := by
  have hlt := h.pending_lt
  have hps : w.pageSize.toNat < 2 ^ 32 := w.pageSize.toNat_lt
  cases op with
  | push row =>
    simp only [apply, pushRecord, pushed]
    by_cases hfull : (w.pending ++ [row]).length % 2 ^ 32 ≥ w.pageSize.toNat
    · rw [if_pos hfull]
      rcases flushed_cases { w with pending := w.pending ++ [row] } with ⟨st, hemit, heq⟩ | ⟨hno, heq⟩
      · refine .inr ⟨[w.pending ++ [row]], ?_, by rw [heq]; simp [withPages]⟩
        have hfit : PageFits (w.pending ++ [row]) := by
          unfold PageFits
          simp only [List.length_append, List.length_singleton]
          omega
        rw [heq]
        exact ⟨h.emitted.snoc hfit hemit, h.pageSize_pos, h.pageSize_pos⟩
      · rw [heq]
        exact .inl ⟨by simp, hno⟩
    · rw [if_neg hfull]
      refine .inr ⟨[], ?_, by simp⟩
      rw [List.append_nil]
      refine ⟨h.emitted, ?_, h.pageSize_pos⟩
      simp only [List.length_append, List.length_singleton] at hfull ⊢
      omega
  | flush =>
    simp only [apply, flushPending, pushed, List.append_nil]
    by_cases hempty : w.pending.isEmpty = true
    · rw [if_pos hempty]
      exact .inr ⟨[], by simpa using h, by simp⟩
    · rw [if_neg hempty]
      rcases flushed_cases w with ⟨st, hemit, heq⟩ | ⟨hno, heq⟩
      · refine .inr ⟨[w.pending], ?_, by rw [heq]; simp [withPages]⟩
        have hfit : PageFits w.pending := ⟨List.length_pos_iff.mpr (by simpa using hempty), by omega⟩
        rw [heq]
        exact ⟨h.emitted.snoc hfit hemit, h.pageSize_pos, h.pageSize_pos⟩
      · rw [heq]
        exact .inl ⟨by simpa using hempty, hno⟩

theorem apply_stuck {w : PaxStreamWriter} (h : w.Stuck) (op : Op) : (w.apply op).1.Stuck := by
  obtain ⟨hne, hno⟩ := h
  cases op with
  | push row =>
    have hno' : ∀ st, emitPage w.base w.fieldCount w.sigils w.written (w.pending ++ [row]) ≠ .ok st :=
      fun st hok => by
        obtain ⟨st', hst'⟩ := emitPage_mono hok
        exact hno st' hst'
    simp only [apply, pushRecord]
    split
    · rcases flushed_cases { w with pending := w.pending ++ [row] } with ⟨st, hemit, -⟩ | ⟨-, heq⟩
      · exact absurd hemit (hno' st)
      · rw [heq]
        exact ⟨by simp, hno'⟩
    · exact ⟨by simp, hno'⟩
  | flush =>
    simp only [apply, flushPending]
    rw [if_neg (by simpa using hne)]
    rcases flushed_cases w with ⟨st, hemit, -⟩ | ⟨-, heq⟩
    · exact absurd hemit (hno st)
    · rw [heq]
      exact ⟨hne, hno⟩

theorem run_stuck : ∀ (ops : List Op) {w : PaxStreamWriter}, w.Stuck → (w.run ops).Stuck
  | [], _, h => h
  | op :: ops, _, h => run_stuck ops (apply_stuck h op)

theorem pushed_cons (op : Op) (ops : List Op) : pushed (op :: ops) = pushed [op] ++ pushed ops := by
  cases op <;> rfl

/-- After a run the pages and the pending rows are the rows pushed, or a flush has failed. -/
theorem run_describes : ∀ (ops : List Op) {w : PaxStreamWriter} {gs : List (List RecordRow)},
    w.Describes gs → (w.run ops).Stuck ∨ ∃ hs, (w.run ops).Describes (gs ++ hs) ∧
      hs.flatten ++ (w.run ops).pending = w.pending ++ pushed ops
  | [], w, gs, h => .inr ⟨[], by simpa [run] using h, by simp [run, pushed]⟩
  | op :: ops, w, gs, h => by
    rcases apply_describes h op with hs | ⟨hs, hd, hrows⟩
    · exact .inl (run_stuck ops hs)
    · rcases run_describes ops hd with hstuck | ⟨hs', hd', hrows'⟩
      · exact .inl hstuck
      · refine .inr ⟨hs ++ hs', by rw [← List.append_assoc]; exact hd', ?_⟩
        rw [List.flatten_append, List.append_assoc]
        change hs.flatten ++ (hs'.flatten ++ ((w.apply op).1.run ops).pending) = _
        rw [hrows', ← List.append_assoc, hrows, pushed_cons op ops, List.append_assoc]

theorem flushRest_ne_ok_of_stuck {w w' : PaxStreamWriter} (h : w.Stuck) : w.flushRest ≠ .ok w' := by
  rw [flushRest_of_pending h.1]
  cases hem : emitPage w.base w.fieldCount w.sigils w.written w.pending with
  | ok st => exact absurd hem (h.2 st)
  | err e => simp
  | panic => simp

/-- The last flush puts the pending rows on a page of their own. -/
theorem flushRest_describes {w w' : PaxStreamWriter} {gs : List (List RecordRow)}
    (h : w.Describes gs) (hok : w.flushRest = .ok w') :
    ∃ hs, w'.Describes (gs ++ hs) ∧ hs.flatten = w.pending ∧ SameFile w w' ∧ w'.pending = [] ∧
      ∃ st, w' = w.withPages st := by
  by_cases hp : w.pending = []
  · rw [flushRest_of_empty hp] at hok
    cases hok
    exact ⟨[], by simpa using h, by simp [hp], .refl w, hp, w.written, by rw [withPages, ← hp]⟩
  · rw [flushRest_of_pending hp] at hok
    obtain ⟨st, hemit, rfl⟩ := map_eq_ok.mp hok
    have hps : w.pageSize.toNat < 2 ^ 32 := w.pageSize.toNat_lt
    have hlt := h.pending_lt
    have hfit : PageFits w.pending := ⟨List.length_pos_iff.mpr hp, by omega⟩
    exact ⟨[w.pending], ⟨h.emitted.snoc hfit hemit, h.pageSize_pos, h.pageSize_pos⟩, by simp,
      ⟨rfl, rfl, rfl, rfl, rfl, rfl⟩, rfl, st, rfl⟩

/-- The pages of a finished run hold the rows it pushed. -/
theorem ops_emitted {keys : List String} {sigils : List UInt8} {pageSize : UInt32}
    {w w' : PaxStreamWriter} {ops : List Op} (hnew : new keys sigils pageSize = .ok w)
    (hok : (w.run ops).flushRest = .ok w') :
    ∃ gs, w'.Describes gs ∧ gs.flatten = pushed ops ∧ SameFile w w' ∧ w'.pending = [] := by
  rcases run_describes ops (describes_new hnew) with hstuck | ⟨hs, hd, hrows⟩
  · exact absurd hok (flushRest_ne_ok_of_stuck hstuck)
  · obtain ⟨hs', hd', hrest, hsame, hnil, -⟩ := flushRest_describes hd hok
    obtain ⟨-, -, rfl⟩ := new_eq_ok.mp hnew
    refine ⟨[] ++ hs ++ hs', hd', ?_, (run_sameFile ops _).trans hsame, hnil⟩
    rw [List.nil_append, List.flatten_append, hrest, hrows]
    rfl

/-! ## Sealing on disk -/

/-- A step of a run that copies the data sector to an output now and then. -/
inductive DiskOp where
  | op (o : Op)
  /-- `write_data_sector_since`, from where the previous copy ended. -/
  | copy
  deriving DecidableEq, Repr

/-- A stream on disk: the writer, the bytes written out and how much of the data they hold. -/
structure OnDisk where
  writer : PaxStreamWriter
  out : Bytes
  mark : ℕ
  deriving DecidableEq, Repr

namespace OnDisk

/-- A stream whose header has been written. -/
def start (w : PaxStreamWriter) : OnDisk := ⟨w, w.streamHeader, 0⟩

def step (s : OnDisk) : DiskOp → OnDisk
  | .op o => { s with writer := (s.writer.apply o).1 }
  | .copy => ⟨s.writer, s.out ++ s.writer.dataSectorSince s.mark, s.writer.dataSectorLen⟩

def run (s : OnDisk) (steps : List DiskOp) : OnDisk := steps.foldl step s

/-- The rows that the steps push. -/
def pushed : List DiskOp → List RecordRow
  | [] => []
  | .op o :: steps => PaxStreamWriter.pushed [o] ++ pushed steps
  | .copy :: steps => pushed steps

/-- What is on disk: the header and the data up to the mark. -/
structure Copied (s : OnDisk) : Prop where
  out : s.out = s.writer.streamHeader ++ s.writer.written.data.take s.mark
  mark_le : s.mark ≤ s.writer.written.data.length

end OnDisk

/-- Page `k` of `gs` stands in `out` where the page table of `w` says. -/
def PagesAt (out : Bytes) (w : PaxStreamWriter) (gs : List (List RecordRow)) : Prop :=
  w.written.pages.length = gs.length ∧ ∀ k g, gs[k]? = some g → ∃ e page,
    w.written.pages[k]? = some e ∧
    encodePage k (groupStart gs k) g.length w.fieldCount w.sigils g = .ok page ∧
    At out e.pageOffset page

/-- The data sector only grows. -/
theorem apply_data (w : PaxStreamWriter) (op : Op) :
    ∃ e, (w.apply op).1.written.data = w.written.data ++ e := by
  have hflushed : ∀ w : PaxStreamWriter, ∃ e, w.flushed.1.written.data = w.written.data ++ e := by
    intro w
    rcases flushed_cases w with ⟨st, hemit, h⟩ | ⟨-, h⟩
    · unfold emitPage at hemit
      obtain ⟨page, -, hemit⟩ := bind_eq_ok.mp hemit
      obtain ⟨idx, -, hst⟩ := bind_eq_ok.mp hemit
      cases hst
      exact ⟨page, by rw [h]; rfl⟩
    · exact ⟨[], by rw [h, List.append_nil]⟩
  cases op with
  | push row =>
    simp only [apply, pushRecord]
    split
    · exact hflushed { w with pending := w.pending ++ [row] }
    · exact ⟨[], by simp⟩
  | flush =>
    simp only [apply, flushPending]
    split
    · exact ⟨[], by simp⟩
    · exact hflushed w

theorem SameFile.streamHeader {w w' : PaxStreamWriter} (h : SameFile w w') :
    w'.streamHeader = w.streamHeader := by
  unfold PaxStreamWriter.streamHeader
  rw [h.dictHash, h.schemaBytes]

theorem SameFile.base {w w' : PaxStreamWriter} (h : SameFile w w') : w'.base = w.base := by
  unfold PaxStreamWriter.base
  rw [h.schemaBytes]

/-- The bytes in front of the preamble's tail pointer. -/
theorem preamble_take (version flags : ℕ) (hash : UInt64) (t t' : ℕ) (x y : Bytes) :
    (preamble version flags hash t ++ x).take 16 = (preamble version flags hash t' ++ y).take 16 := by
  have hsplit : ∀ t x, (preamble version flags hash t ++ x).take 16 =
      leBytes 4 MAGIC_FILE ++ leBytes 2 version ++ leBytes 2 flags ++ leBytes 8 hash.toNat := by
    intro t x
    rw [preamble, List.append_assoc, List.append_assoc]
    exact List.take_left' (by simp)
  rw [hsplit, hsplit]

/-- The bytes behind the preamble's tail pointer. -/
theorem preamble_drop (version flags : ℕ) (hash : UInt64) (t : ℕ) (x : Bytes) :
    (preamble version flags hash t ++ x).drop 24 = leBytes 8 0 ++ x := by
  rw [preamble, List.append_assoc]
  exact List.drop_left' (by simp)

theorem streamHeader_length (w : PaxStreamWriter) : w.streamHeader.length = w.base := by
  simp [streamHeader, base]

namespace OnDisk

theorem copied_step {s : OnDisk} (h : s.Copied) : ∀ op : DiskOp, (s.step op).Copied
  | .op o => by
    obtain ⟨e, he⟩ := apply_data s.writer o
    have hle := h.mark_le
    refine ⟨?_, ?_⟩
    · show s.out = (s.writer.apply o).1.streamHeader ++ (s.writer.apply o).1.written.data.take s.mark
      rw [(apply_sameFile s.writer o).streamHeader, he, List.take_append_of_le_length hle, h.out]
    · show s.mark ≤ (s.writer.apply o).1.written.data.length
      rw [he, List.length_append]
      omega
  | .copy => by
    have hle := h.mark_le
    refine ⟨?_, le_refl _⟩
    show s.out ++ s.writer.dataSectorSince s.mark =
      s.writer.streamHeader ++ s.writer.written.data.take s.writer.written.data.length
    rw [h.out, List.take_length, dataSectorSince, List.append_assoc]
    split
    · rw [List.take_append_drop]
    · rw [List.append_nil, List.take_of_length_le (by omega)]

theorem copied_run : ∀ (steps : List DiskOp) {s : OnDisk}, s.Copied → (s.run steps).Copied
  | [], _, h => h
  | op :: steps, _, h => copied_run steps (copied_step h op)

/-- The writer of a stream on disk is that of the operations alone. -/
theorem run_writer : ∀ (steps : List DiskOp) (s : OnDisk), ∃ ops, (s.run steps).writer =
    s.writer.run ops ∧ PaxStreamWriter.pushed ops = pushed steps
  | [], s => ⟨[], rfl, rfl⟩
  | .op o :: steps, s => by
    obtain ⟨ops, hrun, hrows⟩ := run_writer steps (s.step (.op o))
    exact ⟨o :: ops, hrun, by rw [pushed_cons, hrows]; rfl⟩
  | .copy :: steps, s => run_writer steps (s.step .copy)

/-- After a last copy the whole data sector is on disk. -/
theorem run_copy (steps : List DiskOp) (w : PaxStreamWriter) :
    ((start w).run (steps ++ [.copy])).out =
      ((start w).run steps).writer.streamHeader ++ ((start w).run steps).writer.written.data ∧
    ((start w).run (steps ++ [.copy])).writer = ((start w).run steps).writer := by
  have hstart : (start w).Copied := ⟨by simp [start], Nat.zero_le _⟩
  have hrun : (start w).run (steps ++ [.copy]) = ((start w).run steps).step .copy := by
    simp [run, List.foldl_append]
  have hcop := (copied_step (copied_run steps hstart) .copy).out
  rw [hrun]
  refine ⟨?_, rfl⟩
  rw [hcop]
  show ((start w).run steps).writer.streamHeader ++ ((start w).run steps).writer.written.data.take
    ((start w).run steps).writer.written.data.length = _
  rw [List.take_length]

end OnDisk

/-- Sealing `s` leaves the bytes of `file`, up to the preamble's tail pointer, and a page table that
finds a page for each group of `rows`. -/
def SealMatches (s : OnDisk) (file : Slice) (rows : List RecordRow) : Prop :=
  ∃ w' tail ptr, s.writer.flushRest = .ok w' ∧ s.writer.sealStream = .ok (tail, ptr) ∧
    (s.out ++ tail).take 16 = file.bytes.take 16 ∧ (s.out ++ tail).drop 24 = file.bytes.drop 24 ∧
    ∃ gs, gs.flatten = rows ∧ PagesAt (s.out ++ tail) w' gs

/-- The rows that are pending when a stream is sealed never reach the output. -/
theorem not_sealMatches {w : PaxStreamWriter} {steps : List DiskOp} {file : Slice}
    {rows : List RecordRow}
    (hfin : ((OnDisk.start w).run (steps ++ [.copy])).writer.finishStream = .ok file)
    (hne : ((OnDisk.start w).run (steps ++ [.copy])).writer.pending ≠ []) :
    ¬ SealMatches ((OnDisk.start w).run (steps ++ [.copy])) file rows := by
  rintro ⟨w', tail, ptr, hrest, hseal, -, hdrop, -⟩
  obtain ⟨hout, hwriter⟩ := OnDisk.run_copy steps w
  rw [hout, ← hwriter] at hdrop
  generalize ((OnDisk.start w).run (steps ++ [.copy])).writer = u at *
  rw [sealStream, hrest, ok_bind] at hseal
  rw [finishStream, hrest, ok_bind, Slice.ofBytes_eq_ok] at hfin
  rw [flushRest_of_pending hne] at hrest
  obtain ⟨st, hemit, rfl⟩ := map_eq_ok.mp hrest
  unfold emitPage at hemit
  obtain ⟨page, hpage, hemit⟩ := bind_eq_ok.mp hemit
  obtain ⟨idx, -, hst⟩ := bind_eq_ok.mp hemit
  cases hst
  cases hseal
  -- the file of `finish_stream` is longer by the last page
  have hpos := encodePage_length_pos hpage
  have hlen := congrArg List.length hdrop
  rw [hfin, sealPax, streamHeader] at hlen
  simp only [withPages, base, List.length_drop, List.length_append, preamble_length] at hlen
  omega

/-- A stream on disk is sealed as `finish_stream` would have sealed it exactly when no row is pending
at the last copy. -/
theorem seal_stream_matches_iff (keys : List String) (sigils : List UInt8) (pageSize : UInt32)
    (steps : List DiskOp) (w : PaxStreamWriter) (file : Slice)
    (hnew : new keys sigils pageSize = .ok w)
    (hfin : ((OnDisk.start w).run (steps ++ [.copy])).writer.finishStream = .ok file) :
    SealMatches ((OnDisk.start w).run (steps ++ [.copy])) file (OnDisk.pushed steps) ↔
      ((OnDisk.start w).run (steps ++ [.copy])).writer.pending = [] := by
  constructor
  · intro h
    by_contra hne
    exact not_sealMatches hfin hne h
  · intro hnil
    obtain ⟨hout, hwriter⟩ := OnDisk.run_copy steps w
    obtain ⟨ops, hrun, hpushed⟩ := OnDisk.run_writer steps (OnDisk.start w)
    rw [← hwriter] at hrun hout
    unfold SealMatches
    rw [hout]
    generalize ((OnDisk.start w).run (steps ++ [.copy])).writer = u at *
    have hrest := flushRest_of_empty hnil
    have hrest' : (w.run ops).flushRest = .ok u := by
      rw [← hrest, hrun]
      rfl
    obtain ⟨gs, hd, hflat, -, -⟩ := ops_emitted hnew hrest'
    rw [finishStream, hrest, ok_bind, Slice.ofBytes_eq_ok] at hfin
    have hseal : u.sealStream = .ok (buildPaxTail u.written.pages (u.base + u.written.data.length)
        u.totalRecords u.pageSize.toNat, u.base + u.written.data.length) := by
      rw [sealStream, hrest]
      rfl
    refine ⟨u, _, _, hrest, hseal, ?_, ?_, gs, hflat.trans hpushed, ?_⟩
    · rw [hfin, sealPax, streamHeader]
      simp only [List.append_assoc]
      exact preamble_take _ _ _ _ _ _ _
    · rw [hfin, sealPax, streamHeader]
      simp only [List.append_assoc]
      rw [preamble_drop, preamble_drop]
      rfl
    · refine ⟨hd.emitted.counts.2.1, fun k g hk => ?_⟩
      obtain ⟨page, off, henc, hentry, hat⟩ := hd.emitted.page hk
      have hshift := hat.append_left u.streamHeader
      rw [streamHeader_length u] at hshift
      exact ⟨_, page, hentry, henc, hshift.append_right _⟩

/-- One row, two rows to a page: the row is not in the sealed output. -/
theorem seal_stream_drops_partial_page :
    ∃ file, new ["a"] [SIGIL_INT] 2 = .ok (init ["a"] [SIGIL_INT] 2) ∧
      ((OnDisk.start (init ["a"] [SIGIL_INT] 2)).run
        ([.op (.push ⟨[.i64 7]⟩)] ++ [.copy])).writer.finishStream = .ok file ∧
      ¬ SealMatches ((OnDisk.start (init ["a"] [SIGIL_INT] 2)).run
        ([.op (.push ⟨[.i64 7]⟩)] ++ [.copy])) file [⟨[.i64 7]⟩] := by
  obtain ⟨file, hfile⟩ := isOk_iff.mp (show (((OnDisk.start (init ["a"] [SIGIL_INT] 2)).run
    ([.op (.push ⟨[.i64 7]⟩)] ++ [.copy])).writer.finishStream).isOk = true by decide +kernel)
  exact ⟨file, rfl, hfile, not_sealMatches hfile (by decide +kernel)⟩

/-- Two rows, two rows to a page: the page is full and the sealed output is complete. -/
theorem seal_stream_matches_full_page :
    ∃ file, SealMatches ((OnDisk.start (init ["a"] [SIGIL_INT] 2)).run
        ([.op (.push ⟨[.i64 7]⟩), .copy, .op (.push ⟨[.absent]⟩)] ++ [.copy])) file
      [⟨[.i64 7]⟩, ⟨[.absent]⟩] := by
  obtain ⟨file, hfile⟩ := isOk_iff.mp (show (((OnDisk.start (init ["a"] [SIGIL_INT] 2)).run
    ([.op (.push ⟨[.i64 7]⟩), .copy, .op (.push ⟨[.absent]⟩)] ++ [.copy])).writer.finishStream).isOk =
      true by decide +kernel)
  exact ⟨file, (seal_stream_matches_iff ["a"] [SIGIL_INT] 2 _ _ file rfl hfile).mpr (by decide +kernel)⟩

/-- Streaming a list of rows ends as `finish_pax` does: with the same file or the same failure. -/
theorem from_rows_finish_stream (keys : List String) (rows : List RecordRow) (pageSize : UInt32)
    (hkeys : keys ≠ []) (hps : pageSize ≠ 0) (hrows : rows.length < 2 ^ 32) :
    (fromRows keys rows pageSize >>= finishStream) = finishPax keys rows pageSize := by
  have hpos := toNat_pos hps
  rw [fromRows, new_eq_ok.mpr ⟨hps, hkeys, rfl⟩, ok_bind, finishPax, ensure_of hps, ok_bind]
  set w := init keys (sigilsForKeys keys rows) pageSize with hw
  have hloop := pushAll_flushRest rows w rows.length
    hpos (by simpa [hw, init] using hrows) (by simp [hw, init])
  have hsplit : (w.pushAll rows >>= finishStream) = (do
      let w' ← w.pushAll rows >>= flushRest
      Slice.ofBytes
        (sealPax w'.schemaBytes w'.dictHash w'.written w'.totalRecords w'.pageSize.toNat)) := by
    rw [bind_assoc]
    rfl
  rw [hsplit, hloop]
  simp only [hw, init, List.nil_append]
  cases hrun : paxLoop (32 + (buildSchema keys (sigilsForKeys keys rows)).length) keys.length
      (sigilsForKeys keys rows) pageSize.toNat rows.length rows PaxPages.empty with
  | ok st =>
    obtain ⟨hs, hem, hflat, -, -⟩ := paxLoop_emitted hpos .nil hrun
    have hcount : st.nextRecordStart = rows.length := by
      rw [hem.counts.2.2.1, List.nil_append, hflat]
    simp only [base, hrun]
    simp [withPages, totalRecords, hcount]
  | err e => simp [base, hrun]
  | panic => simp [base, hrun]

/-- Three rows, two to a page, one of them without a cell. -/
theorem from_rows_finish_stream_three :
    (fromRows ["a"] [⟨[.i64 7]⟩, ⟨[]⟩, ⟨[.null]⟩] 2 >>= finishStream) =
      finishPax ["a"] [⟨[.i64 7]⟩, ⟨[]⟩, ⟨[.null]⟩] 2 :=
  from_rows_finish_stream _ _ _ (by decide) (by decide) (by decide)

end PaxStreamWriter

end Nyxis
