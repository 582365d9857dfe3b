import Nyxis.SegmentFile
import Nyxis.WalCrash

/-!
# TraceCli — `nxs-trace write` and `nxs-trace seal`

The state of the trace directory is the live log, the segments under their time stamps and, while
`write` runs, its open log.  The outcome of each call to the file system is part of the step.

* `contained_sound`: in a run without a fault that loses data, every accepted span is in the live log
  or in a segment.
-/

namespace Nyxis

open Lib Lib.Outcome

/-! ## The state -/

/-- The log that `write` has open, and what of it has not been written out. -/
structure OpenLog where
  wal : SpanWal
  buffer : Bytes
  sealEvery : ℕ
  deriving DecidableEq, Repr

structure TraceState where
  /-- The file `live.nxsw`. -/
  live : Option Bytes
  /-- The files `seg-{ts}.nxb` by their time stamp. -/
  segments : List (ℕ × Slice)
  /-- The log of a running `write`. -/
  writer : Option OpenLog
  /-- The spans whose append has succeeded. -/
  accepted : List SpanFields
  /-- The spans among them that the live log holds. -/
  pending : List SpanFields

def TraceState.init : TraceState := ⟨none, [], none, [], []⟩

/-! ## Writing -/

/-- `BufWriter::write_all` with the default capacity: the bytes that reach the file, and the buffer. -/
def bufWrite (buffer data : Bytes) : Bytes × Bytes :=
  if data.length < 8192 - buffer.length then ([], buffer ++ data)
  else
    let (out, buffer) := if data.length > 8192 - buffer.length then (buffer, []) else ([], buffer)
    if data.length ≥ 8192 then (out ++ data, buffer) else (out, buffer ++ data)

/-- What goes wrong when a log is sealed. -/
inductive SealFault where
  /-- The flush fails with so many bytes of the buffer written out. -/
  | flush (written : ℕ)
  /-- The log cannot be opened or read. -/
  | read
  /-- The segment cannot be created, or only so many bytes of it be written. -/
  | write (written : Option ℕ)
  deriving DecidableEq, Repr

/-- The calls to the system in `do_seal`. -/
structure SealIo where
  /-- Milliseconds since the epoch. -/
  now : ℕ
  fault : Option SealFault
  /-- `remove_file` succeeds. -/
  removed : Bool
  deriving DecidableEq, Repr

/-- The calls to the system for a line of the input. -/
structure LineIo where
  /-- The append fails with so many bytes of the buffer and of the record written out. -/
  appendFault : Option ℕ
  sealing : SealIo
  /-- The log is opened again after an automatic seal. -/
  reopened : Bool
  deriving DecidableEq, Repr

/-- A line of the input of `write`. -/
inductive Line where
  /-- It is blank, malformed or incomplete. -/
  | skipped
  | span (s : SpanFields) (io : LineIo)
  /-- It cannot be read. -/
  | failed
  deriving DecidableEq, Repr

inductive TraceOp where
  | startWrite (sealEvery : ℕ)
  | line (l : Line)
  /-- The input ends; the last flush may fail with so many bytes written out. -/
  | endOfInput (fault : Option ℕ)
  | sealCmd (io : SealIo)
  deriving DecidableEq, Repr

/-! ## Sealing -/

/-- `fs::write`: a file of that name is replaced. -/
def setSegment (segments : List (ℕ × Slice)) (now : ℕ) (file : Slice) : List (ℕ × Slice) :=
  (segments.filter fun e => e.1 ≠ now) ++ [(now, file)]

inductive SealEnd where
  | done
  | failed
  | panicked
  deriving DecidableEq, Repr

structure SealResult where
  live : Bytes
  buffer : Bytes
  segments : List (ℕ × Slice)
  ended : SealEnd

/-- `SpanWal::seal` of the log file `live` with the given write buffer. -/
def sealTo (w : SpanWal) (live buffer : Bytes) (segments : List (ℕ × Slice)) (io : SealIo) : SealResult :=
  match io.fault with
  | some (.flush k) => ⟨live ++ buffer.take k, buffer.drop k, segments, .failed⟩
  | some .read => ⟨live ++ buffer, [], segments, .failed⟩
  | fault =>
    match w.seal (live ++ buffer) with
    | .panic => ⟨live ++ buffer, [], segments, .panicked⟩
    | .err _ => ⟨live ++ buffer, [], segments, .failed⟩
    | .ok (segment, _) =>
      match fault with
      | some (.write none) => ⟨live ++ buffer, [], segments, .failed⟩
      | some (.write (some k)) =>
        ⟨live ++ buffer, [], setSegment segments io.now (segment.take k), .failed⟩
      | _ => ⟨live ++ buffer, [], setSegment segments io.now segment, .done⟩

namespace TraceState

/-- `do_seal`, and for `reopen` what `write` does behind it: the log is removed whether or not it could
be sealed, and opened again. -/
def doSeal (σ : TraceState) (w : SpanWal) (live buffer : Bytes) (io : SealIo)
    (reopen : Option (ℕ × Bool)) : TraceState :=
  let r := sealTo w live buffer σ.segments io
  match r.ended with
  | .panicked => { σ with live := some (r.live ++ r.buffer), writer := none }
  | _ =>
    let pending := if io.removed then [] else σ.pending
    match reopen with
    | some (sealEvery, true) =>
      -- the old log is dropped, and what its buffer holds goes to the old file
      let live := if io.removed then walHeader else r.live ++ r.buffer
      ⟨some live, r.segments, some ⟨SpanWal.opened (!io.removed), [], sealEvery⟩, σ.accepted, pending⟩
    | _ => ⟨if io.removed then none else some r.live, r.segments, none, σ.accepted, pending⟩

/-! ## The steps -/

/-- `write` opens the log and recovers its index. -/
def startWrite (σ : TraceState) (sealEvery : ℕ) : Option TraceState :=
  match σ.writer with
  | some _ => none
  | none =>
    let live := σ.live.getD walHeader
    match (SpanWal.opened σ.live.isSome).recover live with
    | .ok wal => some { σ with live := some live, writer := some ⟨wal, [], sealEvery⟩ }
    | _ => some { σ with live := some live }

/-- `die` leaves what has been written out, and drops the buffer. -/
def die (σ : TraceState) (live : Bytes) : TraceState := { σ with live := some live, writer := none }

/-- A span is appended, and the log sealed when enough spans are in it. -/
def writeSpanLine (σ : TraceState) (live : Bytes) (log : OpenLog) (s : SpanFields) (io : LineIo) :
    TraceState :=
  match log.wal.append s with
  | .ok (wal, record) =>
    match io.appendFault with
    | some k => σ.die (live ++ (log.buffer ++ record).take k)
    | none =>
      let (out, buffer) := bufWrite log.buffer record
      let σ := { σ with
        live := some (live ++ out)
        writer := some ⟨wal, buffer, log.sealEvery⟩
        accepted := σ.accepted ++ [s]
        pending := σ.pending ++ [s] }
      if log.sealEvery > 0 ∧ wal.recordCount % log.sealEvery = 0 then
        σ.doSeal wal (live ++ out) buffer io.sealing (some (log.sealEvery, io.reopened))
      else σ
  | .err _ => σ.die live
  | .panic => σ.die (live ++ log.buffer)

def readLine (σ : TraceState) : Line → Option TraceState
  | .skipped => if σ.writer.isSome then some σ else none
  | .failed => do
    let _ ← σ.writer
    let live ← σ.live
    some (σ.die live)
  | .span s io => do
    let log ← σ.writer
    let live ← σ.live
    some (σ.writeSpanLine live log s io)

def endOfInput (σ : TraceState) (fault : Option ℕ) : Option TraceState := do
  let log ← σ.writer
  let live ← σ.live
  match fault with
  | some k => some (σ.die (live ++ log.buffer.take k))
  | none => some (σ.die (live ++ log.buffer))

/-- `seal` without a live log ends in an error. -/
def sealCmd (σ : TraceState) (io : SealIo) : Option TraceState :=
  match σ.writer, σ.live with
  | some _, _ => none
  | none, none => some σ
  | none, some live =>
    match (SpanWal.opened true).recover live with
    | .ok wal => some (σ.doSeal wal live [] io none)
    | _ => some σ

def step (σ : TraceState) : TraceOp → Option TraceState
  | .startWrite sealEvery => σ.startWrite sealEvery
  | .line l => σ.readLine l
  | .endOfInput fault => σ.endOfInput fault
  | .sealCmd io => σ.sealCmd io

/-! ## Where the spans are -/

end TraceState

/-- Recovery finds the span in the log, and its record is there. -/
def LogContains (d : Bytes) (s : SpanFields) : Prop :=
  ∃ w, (SpanWal.opened true).recover d = .ok w ∧
    ∃ entry ∈ w.index, entry.traceId = s.traceId ∧ InLog d entry s

/-- A query for its trace finds the span in the segment. -/
def SegmentContains (file : Slice) (s : SpanFields) : Prop :=
  ∃ reader found, SegmentReader.openDir [.nxb "" file] = .ok reader ∧
    reader.findByTrace s.traceId = .ok found ∧ s.toSpan ∈ found

/-- Every accepted span is in the live log or in a segment. -/
def TraceState.Contained (σ : TraceState) : Prop :=
  ∀ s ∈ σ.accepted, (∃ d, σ.live = some d ∧ LogContains d s) ∨
    ∃ e ∈ σ.segments, SegmentContains e.2 s

/-! ## Steps that lose nothing -/

/-- A seal that succeeds: no call fails, no segment of the same millisecond is there, and every span in
the log can be held by a segment. -/
structure SealIo.Sound (io : SealIo) (segments : List (ℕ × Slice)) (pending : List SpanFields) : Prop where
  fault : io.fault = none
  removed : io.removed = true
  fresh : io.now ∉ segments.map Prod.fst
  spans : SealableTogether pending
  parents : ∀ s ∈ pending, s.parentSpanId ≠ some 0

instance (io : SealIo) (segments : List (ℕ × Slice)) (pending : List SpanFields) :
    Decidable (io.Sound segments pending) :=
  decidable_of_iff (io.fault = none ∧ io.removed = true ∧ io.now ∉ segments.map Prod.fst ∧
      SealableTogether pending ∧ ∀ s ∈ pending, s.parentSpanId ≠ some 0)
    ⟨fun h => ⟨h.1, h.2.1, h.2.2.1, h.2.2.2.1, h.2.2.2.2⟩,
      fun h => ⟨h.fault, h.removed, h.fresh, h.spans, h.parents⟩⟩

/-- A line is appended and, where that is due, the log is sealed. -/
structure LineIo.Sound (io : LineIo) (σ : TraceState) (log : OpenLog) (s : SpanFields) : Prop where
  append : io.appendFault = none
  /-- Recovery reads no longer record. -/
  size : recordLen s ≤ MAX_RECORD_BYTES
  sealing : log.sealEvery > 0 → (σ.pending.length + 1) % log.sealEvery = 0 →
    io.sealing.Sound σ.segments (σ.pending ++ [s])

instance (io : LineIo) (σ : TraceState) (log : OpenLog) (s : SpanFields) : Decidable (io.Sound σ log s) :=
  decidable_of_iff (io.appendFault = none ∧ recordLen s ≤ MAX_RECORD_BYTES ∧
      (log.sealEvery > 0 → (σ.pending.length + 1) % log.sealEvery = 0 →
        io.sealing.Sound σ.segments (σ.pending ++ [s])))
    ⟨fun h => ⟨h.1, h.2.1, h.2.2⟩, fun h => ⟨h.append, h.size, h.sealing⟩⟩

/-- The steps that lose nothing: `write` is not ended while spans are in its buffer, and every seal
succeeds. -/
def TraceState.Sound (σ : TraceState) : TraceOp → Prop
  | .startWrite _ => True
  | .line .skipped => True
  | .line .failed => ∀ log ∈ σ.writer, log.buffer = []
  | .line (.span s io) => ∀ log ∈ σ.writer, io.Sound σ log s
  | .endOfInput fault => ∀ log ∈ σ.writer, fault = none ∨ log.buffer = []
  | .sealCmd io => σ.live ≠ none → io.Sound σ.segments σ.pending

instance (σ : TraceState) (op : TraceOp) : Decidable (σ.Sound op) := by
  rcases op with _ | ⟨_ | ⟨s, io⟩ | _⟩ | fault | io <;> unfold TraceState.Sound <;> infer_instance

/-! ## The invariant of a run -/

/-- A log that consists of whole records of the given spans. -/
def WholeLog (d : Bytes) (spans : List SpanFields) : Prop :=
  ∃ logged body, d = walHeader ++ body ∧ Laid walHeader.length logged body ∧
    logged.map Logged.span = spans

theorem WholeLog.new : WholeLog walHeader [] := ⟨[], [], by simp, .nil _, rfl⟩

theorem WholeLog.concat {d record : Bytes} {spans : List SpanFields} {s : SpanFields}
    (h : WholeLog d spans) (hrecord : spanRecord s = .ok record)
    (hmax : record.length ≤ MAX_RECORD_BYTES) : WholeLog (d ++ record) (spans ++ [s]) := by
  obtain ⟨logged, body, rfl, hlaid, rfl⟩ := h
  exact ⟨_, body ++ record, List.append_assoc _ _ _, hlaid.concat hrecord hmax, by simp⟩

/-- The open log indexes the records of a log file. -/
structure SpanWal.Indexes (w : SpanWal) (d : Bytes) (spans : List SpanFields) : Prop where
  index : List.Forall₂ (fun entry s => entry.traceId = s.traceId ∧ InLog d entry s) w.index spans
  recordCount : w.recordCount = spans.length
  currentOffset : w.currentOffset = d.length

/-- Recovery of a log of whole records. -/
theorem WholeLog.recover {d : Bytes} {spans : List SpanFields} (h : WholeLog d spans) (wal : SpanWal) :
    ∃ w, wal.recover d = .ok w ∧ w.Indexes d spans := by
  obtain ⟨logged, body, rfl, hlaid, rfl⟩ := h
  have hfile : LogFile (walHeader ++ body) logged := ⟨body, [], by simp, hlaid, Or.inl rfl⟩
  obtain ⟨w, hw, htracks⟩ := hfile.recover wal
  have hrecords := hfile.records
  refine ⟨w, hw, ?_, ?_, htracks.currentOffset⟩
  · rw [htracks.index, List.forall₂_map_left_iff, List.forall₂_map_right_iff, List.forall₂_same]
    intro e he
    refine ⟨rfl, ?_⟩
    have hat := hrecords e he
    rw [spanRecord_eq_ok (hlaid.encoded e he)] at hat
    exact hat
  · rw [htracks.recordCount, List.length_map]

theorem logContains_of_indexes {d : Bytes} {spans : List SpanFields} (h : WholeLog d spans) {s : SpanFields}
    (hs : s ∈ spans) : LogContains d s := by
  obtain ⟨w, hw, hindex, -, -⟩ := h.recover (SpanWal.opened true)
  obtain ⟨i, hi, rfl⟩ := List.getElem_of_mem hs
  have hi' : i < w.index.length := by rw [hindex.length_eq]; exact hi
  exact ⟨w, hw, _, List.getElem_mem hi', hindex.get hi' hi⟩

/-- A segment that holds spans answers a query for each of them. -/
theorem HoldsSpans.contains {file : Slice} {spans : List SpanFields} (h : HoldsSpans file spans)
    {s : SpanFields} (hs : s ∈ spans) : SegmentContains file s := by
  obtain ⟨reader, hopen, -, hfind⟩ := h.queries ""
  refine ⟨reader, _, hopen, hfind s.traceId, ?_⟩
  rw [traceSpans, List.mem_mergeSort, List.mem_map]
  exact ⟨s, List.mem_filter.mpr ⟨hs, beq_self_eq_true _⟩, rfl⟩

namespace TraceState

def buffered (σ : TraceState) : Bytes := σ.writer.elim [] OpenLog.buffer

/-- Accepted spans are in the log or in a segment. -/
def Kept (σ : TraceState) : Prop :=
  ∀ s ∈ σ.accepted, s ∈ σ.pending ∨ ∃ e ∈ σ.segments, SegmentContains e.2 s

structure Inv (σ : TraceState) : Prop where
  absent : σ.live = none → σ.writer = none ∧ σ.pending = []
  log : ∀ d, σ.live = some d → WholeLog (d ++ σ.buffered) σ.pending
  writer : ∀ d log, σ.live = some d → σ.writer = some log → log.wal.Indexes (d ++ log.buffer) σ.pending
  kept : σ.Kept

theorem inv_init : init.Inv where
  absent := fun _ => ⟨rfl, rfl⟩
  log := fun _ h => by cases h
  writer := fun _ _ h => by cases h
  kept := fun _ h => absurd h List.not_mem_nil

/-- Between two invocations, every accepted span is where it must be. -/
theorem Inv.contained {σ : TraceState} (h : σ.Inv) (hend : σ.writer = none) : σ.Contained := by
  intro s hs
  rcases h.kept s hs with hpending | hsegment
  · left
    cases hlive : σ.live with
    | none =>
      rw [(h.absent hlive).2] at hpending
      exact absurd hpending List.not_mem_nil
    | some d =>
      have hlog := h.log d hlive
      rw [buffered, hend, Option.elim_none, List.append_nil] at hlog
      exact ⟨d, rfl, logContains_of_indexes hlog hpending⟩
  · exact Or.inr hsegment

end TraceState

/-! ## Each step keeps the invariant -/

/-- A sound seal either writes a segment with all spans of the log, or panics and changes nothing. -/
theorem sealTo_sound {w : SpanWal} {live buffer : Bytes} {segments : List (ℕ × Slice)} {io : SealIo}
    {pending : List SpanFields} (hindex : w.Indexes (live ++ buffer) pending)
    (hsound : io.Sound segments pending) :
    ((sealTo w live buffer segments io).ended = .panicked ∧
        (sealTo w live buffer segments io).live = live ++ buffer ∧
        (sealTo w live buffer segments io).buffer = []) ∨
      ∃ segment, HoldsSpans segment pending ∧
        sealTo w live buffer segments io =
          ⟨live ++ buffer, [], setSegment segments io.now segment, .done⟩ := by
  have hlog : List.Forall₂ (InLog (live ++ buffer)) w.index pending := hindex.index.imp fun _ _ h => h.2
  rw [sealTo, hsound.fault]
  dsimp only
  cases hseal : w.seal (live ++ buffer) with
  | ok r =>
    obtain ⟨segment, report⟩ := r
    exact Or.inr ⟨segment, (seal_inLog hlog hsound.spans hsound.parents hseal).1, rfl⟩
  | err e => exact absurd hseal (seal_ne_err hlog hsound.spans.each hsound.parents)
  | panic => exact Or.inl ⟨rfl, rfl, rfl⟩

theorem mem_setSegment {segments : List (ℕ × Slice)} {now : ℕ} {file : Slice}
    (hfresh : now ∉ segments.map Prod.fst) {e : ℕ × Slice} (h : e ∈ segments) :
    e ∈ setSegment segments now file := by
  refine List.mem_append_left _ (List.mem_filter.mpr ⟨h, ?_⟩)
  have hne : e.1 ≠ now := by
    rintro rfl
    exact hfresh (List.mem_map_of_mem h)
  simpa using hne

theorem SpanWal.indexes_opened : (SpanWal.opened false).Indexes walHeader [] := by
  refine ⟨.nil, rfl, ?_⟩
  rw [walHeader_length]
  show 8 + 4 + walSchemaBytes.length = _
  omega

theorem SpanWal.Indexes.append {wal wal' : SpanWal} {d record : Bytes} {spans : List SpanFields}
    {s : SpanFields} (h : wal.Indexes d spans) (happend : wal.append s = .ok (wal', record)) :
    wal'.Indexes (d ++ record) (spans ++ [s]) := by
  obtain ⟨hrecord, hindex, hcount, hoffset⟩ := SpanWal.append_eq_ok happend
  refine ⟨?_, ?_, ?_⟩
  · rw [hindex]
    refine List.rel_append (h.index.imp fun _ _ hin => ⟨hin.1, hin.2.append_right _⟩) (.cons ⟨rfl, ?_⟩ .nil)
    have hat := (at_self record).append_left d
    rw [Nat.add_zero, ← h.currentOffset] at hat
    rwa [InLog, ← spanRecord_eq_ok hrecord]
  · rw [hcount, h.recordCount, List.length_append]
    rfl
  · rw [hoffset, h.currentOffset, List.length_append]

namespace TraceState

/-- The spans of a sealed log are in a segment. -/
theorem kept_setSegment {σ : TraceState} {io : SealIo} {segment : Slice}
    (hkept : σ.Kept) (hfresh : io.now ∉ σ.segments.map Prod.fst) (hholds : HoldsSpans segment σ.pending) :
    ∀ s ∈ σ.accepted, s ∈ ([] : List SpanFields) ∨
      ∃ e ∈ setSegment σ.segments io.now segment, SegmentContains e.2 s := by
  intro s hs
  right
  rcases hkept s hs with hpending | ⟨e, he, hcontains⟩
  · exact ⟨(io.now, segment), List.mem_append_right _ (List.mem_singleton.mpr rfl),
      hholds.contains hpending⟩
  · exact ⟨e, mem_setSegment hfresh he, hcontains⟩

/-- A state in which `write` runs. -/
theorem inv_writing {live buffer : Bytes} {segments : List (ℕ × Slice)} {wal : SpanWal} {sealEvery : ℕ}
    {accepted pending : List SpanFields} (hlog : WholeLog (live ++ buffer) pending)
    (hindex : wal.Indexes (live ++ buffer) pending)
    (hkept : ∀ s ∈ accepted, s ∈ pending ∨ ∃ e ∈ segments, SegmentContains e.2 s) :
    Inv ⟨some live, segments, some ⟨wal, buffer, sealEvery⟩, accepted, pending⟩ := by
  refine ⟨(fun h => by cases h), ?_, ?_, hkept⟩
  · rintro d ⟨⟩
    exact hlog
  · rintro d log ⟨⟩ ⟨⟩
    exact hindex

theorem inv_doSeal {σ : TraceState} {w : SpanWal} {live buffer : Bytes} {io : SealIo}
    (reopen : Option (ℕ × Bool)) (hlog : WholeLog (live ++ buffer) σ.pending)
    (hindex : w.Indexes (live ++ buffer) σ.pending) (hkept : σ.Kept)
    (hsound : io.Sound σ.segments σ.pending) : (σ.doSeal w live buffer io reopen).Inv := by
  rcases sealTo_sound hindex hsound with ⟨hend, hlive, hbuffer⟩ | ⟨segment, hholds, hseal⟩
  · rw [doSeal, hend]
    dsimp only
    rw [hlive, hbuffer, List.append_nil]
    refine ⟨(fun h => by cases h), ?_, (fun _ _ _ h => by cases h), hkept⟩
    rintro d ⟨⟩
    rwa [buffered, Option.elim_none, List.append_nil]
  · have hkept' := kept_setSegment hkept hsound.fresh hholds
    rw [doSeal, hseal, hsound.removed]
    dsimp only
    rw [if_pos rfl, if_pos rfl, if_pos rfl]
    split
    · refine inv_writing ?_ ?_ hkept'
      · rw [List.append_nil]
        exact WholeLog.new
      · rw [List.append_nil]
        exact SpanWal.indexes_opened
    · exact ⟨fun _ => ⟨rfl, rfl⟩, (fun _ h => by cases h), (fun _ _ h => by cases h), hkept'⟩

theorem inv_startWrite {σ σ' : TraceState} {sealEvery : ℕ} (h : σ.Inv)
    (hs : σ.startWrite sealEvery = some σ') : σ'.Inv := by
  rw [startWrite] at hs
  cases hwriter : σ.writer with
  | some log =>
    rw [hwriter] at hs
    cases hs
  | none =>
    have hlog : WholeLog (σ.live.getD walHeader) σ.pending := by
      cases hlive : σ.live with
      | none =>
        rw [(h.absent hlive).2]
        exact WholeLog.new
      | some d =>
        have hd := h.log d hlive
        rwa [buffered, hwriter, Option.elim_none, List.append_nil] at hd
    obtain ⟨w, hw, hindex⟩ := hlog.recover (SpanWal.opened σ.live.isSome)
    rw [hwriter] at hs
    dsimp only at hs
    rw [hw] at hs
    cases hs
    exact inv_writing (by rwa [List.append_nil]) (by rwa [List.append_nil]) h.kept

/-- Ending `write` keeps what is in the file, and what is in the buffer where that is written out. -/
theorem inv_die {σ : TraceState} {live : Bytes} (h : σ.Inv) (hlog : WholeLog live σ.pending) :
    (σ.die live).Inv := by
  refine ⟨(fun h => by cases h), ?_, (fun _ _ _ h => by cases h), h.kept⟩
  rintro d ⟨⟩
  rwa [buffered, die, Option.elim_none, List.append_nil]

theorem bufWrite_append (buffer data : Bytes) :
    (bufWrite buffer data).1 ++ (bufWrite buffer data).2 = buffer ++ data := by
  rw [bufWrite]
  split
  · rw [List.nil_append]
  · by_cases hspare : data.length > 8192 - buffer.length
    · rw [if_pos hspare]
      dsimp only
      split
      · rw [List.append_nil]
      · rw [List.nil_append]
    · rw [if_neg hspare]
      dsimp only
      split
      · -- the buffer is empty
        rename_i hbig
        have hnil : buffer = [] := List.eq_nil_of_length_eq_zero (by omega)
        rw [hnil, List.append_nil]
      · rw [List.nil_append]

/-- An append that succeeds adds the record of the span to the log. -/
theorem inv_writeSpanLine {σ : TraceState} {live : Bytes} {log : OpenLog} {s : SpanFields} {io : LineIo}
    (h : σ.Inv) (hlive : σ.live = some live) (hwriter : σ.writer = some log)
    (hsound : io.Sound σ log s) : (σ.writeSpanLine live log s io).Inv := by
  have hlog := h.log live hlive
  rw [buffered, hwriter, Option.elim_some] at hlog
  have hindex := h.writer live log hlive hwriter
  rw [writeSpanLine]
  cases happend : log.wal.append s with
  | err e =>
    cases hrecord : spanRecord s with
    | err e' => exact absurd hrecord spanRecord_ne_err
    | ok b =>
      rw [SpanWal.append, hrecord] at happend
      cases happend
    | panic =>
      rw [SpanWal.append, hrecord] at happend
      cases happend
  | panic => exact inv_die h hlog
  | ok r =>
    obtain ⟨wal, record⟩ := r
    have hrecord := (SpanWal.append_eq_ok happend).1
    have hmax : record.length ≤ MAX_RECORD_BYTES := by
      rw [spanRecord_eq_ok hrecord, recordBytes_length_eq]
      exact hsound.size
    have hlog' : WholeLog (live ++ (bufWrite log.buffer record).1 ++ (bufWrite log.buffer record).2)
        (σ.pending ++ [s]) := by
      rw [List.append_assoc, bufWrite_append, ← List.append_assoc]
      exact hlog.concat hrecord hmax
    have hindex' : wal.Indexes (live ++ (bufWrite log.buffer record).1 ++ (bufWrite log.buffer record).2)
        (σ.pending ++ [s]) := by
      rw [List.append_assoc, bufWrite_append, ← List.append_assoc]
      exact hindex.append happend
    have hkept : ∀ s' ∈ σ.accepted ++ [s], s' ∈ σ.pending ++ [s] ∨
        ∃ e ∈ σ.segments, SegmentContains e.2 s' := by
      intro s' hs'
      rcases List.mem_append.mp hs' with hs' | hs'
      · exact (h.kept s' hs').imp (List.mem_append_left _) id
      · exact Or.inl (List.mem_append_right _ hs')
    dsimp only
    rw [hsound.append]
    dsimp only
    split
    · rename_i hdue
      refine inv_doSeal _ hlog' hindex' hkept (hsound.sealing hdue.1 ?_)
      rw [← hdue.2, hindex'.recordCount, List.length_append]
      rfl
    · exact inv_writing hlog' hindex' hkept

/-- What is in the file stays when `write` ends without anything in its buffer. -/
theorem inv_die_of_flushed {σ : TraceState} {live : Bytes} {log : OpenLog} (h : σ.Inv)
    (hlive : σ.live = some live) (hwriter : σ.writer = some log) (hempty : log.buffer = []) :
    (σ.die live).Inv := by
  have hlog := h.log live hlive
  rw [buffered, hwriter, Option.elim_some, hempty, List.append_nil] at hlog
  exact inv_die h hlog

theorem inv_readLine {σ σ' : TraceState} {l : Line} (h : σ.Inv) (hsound : σ.Sound (.line l))
    (hs : σ.readLine l = some σ') : σ'.Inv := by
  cases l with
  | skipped =>
    rw [readLine] at hs
    split at hs
    · cases hs
      exact h
    · cases hs
  | span s io =>
    obtain ⟨log, hwriter, hs⟩ := Option.bind_eq_some_iff.mp hs
    obtain ⟨live, hlive, hs⟩ := Option.bind_eq_some_iff.mp hs
    cases hs
    exact inv_writeSpanLine h hlive hwriter (hsound log hwriter)
  | failed =>
    obtain ⟨log, hwriter, hs⟩ := Option.bind_eq_some_iff.mp hs
    obtain ⟨live, hlive, hs⟩ := Option.bind_eq_some_iff.mp hs
    cases hs
    exact inv_die_of_flushed h hlive hwriter (hsound log hwriter)

theorem inv_endOfInput {σ σ' : TraceState} {fault : Option ℕ} (h : σ.Inv)
    (hsound : σ.Sound (.endOfInput fault)) (hs : σ.endOfInput fault = some σ') : σ'.Inv := by
  obtain ⟨log, hwriter, hs⟩ := Option.bind_eq_some_iff.mp hs
  obtain ⟨live, hlive, hs⟩ := Option.bind_eq_some_iff.mp hs
  have hlog := h.log live hlive
  rw [buffered, hwriter, Option.elim_some] at hlog
  cases fault with
  | none =>
    cases hs
    exact inv_die h hlog
  | some k =>
    cases hs
    have hempty : log.buffer = [] := (hsound log hwriter).resolve_left (by simp)
    rw [hempty, List.take_nil, List.append_nil]
    exact inv_die_of_flushed h hlive hwriter hempty

theorem inv_sealCmd {σ σ' : TraceState} {io : SealIo} (h : σ.Inv) (hsound : σ.Sound (.sealCmd io))
    (hs : σ.sealCmd io = some σ') : σ'.Inv := by
  rw [sealCmd] at hs
  cases hwriter : σ.writer with
  | some log =>
    rw [hwriter] at hs
    cases hs
  | none =>
    cases hlive : σ.live with
    | none =>
      rw [hwriter, hlive] at hs
      cases hs
      exact h
    | some live =>
      have hlog := h.log live hlive
      rw [buffered, hwriter, Option.elim_none] at hlog
      obtain ⟨w, hw, hindex⟩ := WholeLog.recover (by rwa [List.append_nil] at hlog) (SpanWal.opened true)
      rw [hwriter, hlive] at hs
      dsimp only at hs
      rw [hw] at hs
      cases hs
      rw [← List.append_nil live] at hindex
      exact inv_doSeal none hlog hindex h.kept (hsound (by rw [hlive]; exact Option.some_ne_none _))

theorem inv_step {σ σ' : TraceState} {op : TraceOp} (h : σ.Inv) (hsound : σ.Sound op)
    (hs : σ.step op = some σ') : σ'.Inv := by
  cases op with
  | startWrite sealEvery => exact inv_startWrite h hs
  | line l => exact inv_readLine h hsound hs
  | endOfInput fault => exact inv_endOfInput h hsound hs
  | sealCmd io => exact inv_sealCmd h hsound hs

/-! ## No span is lost -/

/-- After a run of sound steps, every accepted span is in the live log or in a segment. -/
theorem contained_sound {σ : TraceState} (h : Reached step Sound init σ) (hend : σ.writer = none) :
    σ.Contained :=
  (h.invariant inv_init fun _ _ _ hi hsound hs => inv_step hi hsound hs).contained hend

/-- A line with the span of the given id, and an automatic seal at the given time. -/
def soundLine (spanId : Int64) (now : ℕ) : TraceOp :=
  .line (.span (tracedSpan spanId none) ⟨none, ⟨now, none, true⟩, true⟩)

/-- Two spans are sealed automatically, one by `seal`, and one stays in the log. -/
theorem contained_sound_two_seals :
    ∃ σ, Reached step Sound init σ ∧ σ.writer = none ∧ σ.accepted.length = 4 ∧ σ.Contained := by
  obtain ⟨σ, hσ, hfacts⟩ := Option.map_eq_some_iff.mp (show
    (runGuarded step Sound init [.startWrite 2, soundLine 1 10, soundLine 2 11, soundLine 3 12,
      .endOfInput none, .sealCmd ⟨20, none, true⟩, .startWrite 0, soundLine 4 30, .endOfInput none]).map
        (fun σ => (σ.writer.isNone, σ.accepted.length)) = some (true, 4) by decide +kernel)
  rw [Prod.mk.injEq] at hfacts
  have hreached := reached_of_runGuarded .init hσ
  have hend := Option.isNone_iff_eq_none.mp hfacts.1
  exact ⟨σ, hreached, hend, hfacts.2, contained_sound hreached hend⟩

/-- The log is removed although it could not be sealed. -/
theorem failed_seal_loses_span :
    ¬ ∀ σ, Reached step (fun _ _ => True) init σ → σ.writer = none → σ.Contained := by
  intro hall
  obtain ⟨σ, hσ, hfacts⟩ := Option.map_eq_some_iff.mp (show
    (runGuarded step (fun _ _ => True) init [.startWrite 0, soundLine 1 10, .endOfInput none,
      .sealCmd ⟨20, some (.write none), true⟩]).map
        (fun σ => (σ.writer.isNone, σ.accepted.length, σ.live, σ.segments.length)) =
          some (true, 1, none, 0) by decide +kernel)
  simp only [Prod.mk.injEq] at hfacts
  obtain ⟨hend, haccepted, hlive, hsegments⟩ := hfacts
  obtain ⟨s, hs⟩ := List.length_eq_one_iff.mp haccepted
  have hcontained := hall σ (reached_of_runGuarded .init hσ) (Option.isNone_iff_eq_none.mp hend) s (by
    rw [hs]
    exact List.mem_singleton.mpr rfl)
  rcases hcontained with ⟨d, hd, -⟩ | ⟨e, he, -⟩
  · rw [hlive] at hd
    cases hd
  · rw [List.eq_nil_of_length_eq_zero hsegments] at he
    exact absurd he List.not_mem_nil

end TraceState

end Nyxis
