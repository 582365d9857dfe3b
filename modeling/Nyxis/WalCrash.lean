import Nyxis.Lib.Runs
import Nyxis.SpanRecord

/-!
# WalCrash — the write-ahead log across crashes

A run opens the log, appends spans, flushes and crashes, in any order.  `Laid` are records one behind
the other, `Torn` is what a crash leaves of the record it cuts.

* `scanRecords_laid`: a scan finds the whole records in front of a torn one.
* `recovers_untorn`: the log recovers what it must hold in every state of a run that never appends
  behind a torn record.
-/

namespace Nyxis

open Lib Lib.Outcome

/-! ## Runs -/

/-- A span in the log: where its record starts, and the record. -/
structure Logged where
  offset : ℕ
  span : SpanFields
  record : Bytes
  deriving DecidableEq, Repr

def Logged.entry (e : Logged) : WalEntry := ⟨e.span.traceId, e.span.spanId.toUInt64, e.offset⟩

/-- The state of a run.  `log` is the log file with the write buffer behind it; `spans` are the spans
that the log must hold. -/
structure LogRun where
  log : Option Bytes
  /-- Length of the file at the last flush. -/
  flushed : ℕ
  wal : Option SpanWal
  spans : List Logged
  deriving DecidableEq, Repr

inductive LogOp where
  | opens
  | append (s : SpanFields)
  | flush
  /-- The process ends, and the log is cut at `cut`. -/
  | crash (cut : ℕ)
  deriving DecidableEq, Repr

def LogRun.init : LogRun := ⟨none, 0, none, []⟩

/-- `SpanWal::open` and `recover`; a log that does not exist is created with its header. -/
def LogRun.opens (σ : LogRun) : Option LogRun :=
  match σ.wal with
  | some _ => none
  | none =>
    let d := σ.log.getD walHeader
    let flushed := if σ.log.isSome then σ.flushed else walHeader.length
    match (SpanWal.opened σ.log.isSome).recover d with
    | .ok wal => some ⟨some d, flushed, some wal, σ.spans⟩
    | _ => none

/-- One append of a record that recovery will accept. -/
def LogRun.append (σ : LogRun) (s : SpanFields) : Option LogRun := do
  let wal ← σ.wal
  let d ← σ.log
  match wal.append s with
  | .ok (wal, record) =>
    if record.length ≤ MAX_RECORD_BYTES then
      some ⟨some (d ++ record), σ.flushed, some wal, σ.spans ++ [⟨d.length, s, record⟩]⟩
    else none
  | _ => none

def LogRun.flush (σ : LogRun) : Option LogRun := do
  let wal ← σ.wal
  let d ← σ.log
  some ⟨some d, d.length, some wal, σ.spans⟩

/-- A crash keeps the flushed bytes and any number of those behind them. -/
def LogRun.crash (σ : LogRun) (cut : ℕ) : Option LogRun := do
  let d ← σ.log
  if σ.flushed ≤ cut ∧ cut ≤ d.length then
    some ⟨some (d.take cut), σ.flushed, none,
      σ.spans.filter fun e => e.offset + e.record.length ≤ cut⟩
  else none

def LogRun.step (σ : LogRun) : LogOp → Option LogRun
  | .opens => σ.opens
  | .append s => σ.append s
  | .flush => σ.flush
  | .crash cut => σ.crash cut

/-- The log `w` over the file `d` holds exactly the given spans, in their order. -/
structure SpanWal.Holds (w : SpanWal) (d : Bytes) (spans : List Logged) : Prop where
  index : w.index = spans.map Logged.entry
  recordCount : w.recordCount = spans.length
  records : ∀ e ∈ spans, At d e.offset e.record

/-- The open log holds what it must, and so does the log that is recovered from the file. -/
def LogRun.Recovers (σ : LogRun) : Prop :=
  ∀ d, σ.log = some d → (∀ w, σ.wal = some w → w.Holds d σ.spans) ∧
    ∃ w, (SpanWal.opened true).recover d = .ok w ∧ w.Holds d σ.spans

/-- Where the last record of the log ends. -/
def logEnd (spans : List Logged) : ℕ :=
  spans.getLast?.elim walHeader.length fun e => e.offset + e.record.length

/-- A span is appended only where the log ends with a whole record. -/
def LogRun.Untorn (σ : LogRun) : LogOp → Prop
  | .append _ => σ.log.elim 0 List.length = logEnd σ.spans
  | _ => True

instance (σ : LogRun) (op : LogOp) : Decidable (σ.Untorn op) := by
  cases op <;> unfold LogRun.Untorn <;> infer_instance

/-! ## Records one behind the other -/

/-- The records of `spans`, from position `pos` on. -/
inductive Laid : ℕ → List Logged → Bytes → Prop where
  | nil (pos : ℕ) : Laid pos [] []
  | cons {pos : ℕ} {s : SpanFields} {record rest : Bytes} {spans : List Logged}
    (hrecord : spanRecord s = .ok record) (hmax : record.length ≤ MAX_RECORD_BYTES)
    (hrest : Laid (pos + record.length) spans rest) :
    Laid pos (⟨pos, s, record⟩ :: spans) (record ++ rest)

/-- A part of a record, or nothing. -/
def Torn (torn : Bytes) : Prop :=
  torn = [] ∨ ∃ s record k, spanRecord s = .ok record ∧ record.length ≤ MAX_RECORD_BYTES ∧
    k < record.length ∧ torn = record.take k

/-- The header of a record. -/
theorem at_record {s : SpanFields} {record : Bytes} (h : spanRecord s = .ok record) :
    At record 0 (leBytes 4 MAGIC_OBJ) ∧ At record 4 (leBytes 4 record.length) ∧ 8 ≤ record.length := by
  obtain rfl := spanRecord_eq_ok h
  have hlen := recordBytes_length s
  obtain ⟨hmagic, hl, -⟩ := at_object (spanCells_length s) (at_self (recordBytes s))
  rw [← objectBytes_length (spanCells_length s), Nat.zero_add] at hl
  exact ⟨hmagic, hl, by omega⟩

namespace Laid

variable {pos : ℕ} {spans : List Logged} {body : Bytes}

theorem length_le (h : Laid pos spans body) : spans.length ≤ body.length := by
  induction h with
  | nil => exact Nat.le_refl 0
  | cons hrecord _ _ ih =>
    have := (at_record hrecord).2.2
    rw [List.length_cons, List.length_append]
    omega

theorem encoded (h : Laid pos spans body) : ∀ e ∈ spans, spanRecord e.span = .ok e.record := by
  induction h with
  | nil => exact fun e he => absurd he List.not_mem_nil
  | cons hrecord _ _ ih =>
    intro e he
    rcases List.mem_cons.mp he with rfl | he
    · exact hrecord
    · exact ih e he

/-- Every record is where its offset says. -/
theorem records {d : Bytes} (h : Laid pos spans body) (hat : At d pos body) :
    ∀ e ∈ spans, At d e.offset e.record := by
  induction h with
  | nil => exact fun e he => absurd he List.not_mem_nil
  | cons _ _ _ ih =>
    rw [at_append] at hat
    intro e he
    rcases List.mem_cons.mp he with rfl | he
    · exact hat.1
    · exact ih hat.2 e he

theorem concat (h : Laid pos spans body) {s : SpanFields} {record : Bytes}
    (hrecord : spanRecord s = .ok record) (hmax : record.length ≤ MAX_RECORD_BYTES) :
    Laid pos (spans ++ [⟨pos + body.length, s, record⟩]) (body ++ record) := by
  induction h with
  | nil pos =>
    have h1 : Laid pos _ _ := Laid.cons hrecord hmax (Laid.nil _)
    rw [List.append_nil] at h1
    simpa using h1
  | cons hr hm _ ih =>
    have h1 := Laid.cons hr hm ih
    rw [Nat.add_assoc] at h1
    rw [List.length_append, List.append_assoc]
    exact h1

/-- The records end where the last of them does. -/
theorem logEnd_eq (h : Laid pos spans body) :
    spans.getLast?.elim pos (fun e => e.offset + e.record.length) = pos + body.length := by
  induction h with
  | nil => rfl
  | @cons pos s record rest spans _ _ hrest ih =>
    rw [List.getLast?_cons, List.length_append, ← Nat.add_assoc, ← ih]
    cases spans.getLast? <;> rfl

/-- The records behind a position start there or later. -/
theorem le_offset (h : Laid pos spans body) : ∀ e ∈ spans, pos ≤ e.offset := by
  induction h with
  | nil => exact fun e he => absurd he List.not_mem_nil
  | cons _ _ _ ih =>
    intro e he
    rcases List.mem_cons.mp he with rfl | he
    · exact Nat.le_refl _
    · have := ih e he
      omega

/-- The records end within the bytes. -/
theorem offset_le (h : Laid pos spans body) :
    ∀ e ∈ spans, e.offset + e.record.length ≤ pos + body.length := by
  induction h with
  | nil => exact fun e he => absurd he List.not_mem_nil
  | cons _ _ _ ih =>
    intro e he
    rw [List.length_append]
    rcases List.mem_cons.mp he with rfl | he
    · dsimp only
      omega
    · have := ih e he
      omega

/-- A cut keeps the records in front of it, and a part of the one it goes through. -/
theorem cut (h : Laid pos spans body) (k : ℕ) :
    ∃ kept torn, body.take k = kept ++ torn ∧ Torn torn ∧
      Laid pos (spans.filter fun e => e.offset + e.record.length ≤ pos + k) kept := by
  induction h generalizing k with
  | nil pos => exact ⟨[], [], by simp, Or.inl rfl, .nil pos⟩
  | @cons pos s record rest spans hrecord hmax hrest ih =>
    by_cases hk : record.length ≤ k
    · obtain ⟨kept, torn, htake, htorn, hlaid⟩ := ih (k - record.length)
      refine ⟨record ++ kept, torn, ?_, htorn, ?_⟩
      · rw [List.take_append, List.take_of_length_le hk, htake, List.append_assoc]
      · rw [List.filter_cons_of_pos (by simpa using hk)]
        refine .cons hrecord hmax ?_
        rwa [show pos + record.length + (k - record.length) = pos + k by omega] at hlaid
    · refine ⟨[], record.take k, ?_, Or.inr ⟨s, record, k, hrecord, hmax, by omega, rfl⟩, ?_⟩
      · rw [List.take_append_of_le_length (by omega), List.nil_append]
      · rw [List.filter_eq_nil_iff.mpr]
        · exact .nil pos
        · intro e he
          rcases List.mem_cons.mp he with rfl | he
          · simpa using by omega
          · have := hrest.le_offset e he
            have hlt : ¬ e.offset + e.record.length ≤ pos + k := by omega
            simpa using hlt

end Laid

/-- Where a log ends in a part of a record, no further record is found. -/
theorem scanRecords_torn {d torn : Bytes} {pos : ℕ} (htorn : Torn torn) (hd : d.drop pos = torn)
    (hlen : d.length = pos + torn.length) (fuel : ℕ) : scanRecords d fuel pos = ([], 0) := by
  cases fuel with
  | zero => rfl
  | succ fuel =>
    rw [scanRecords]
    by_cases h8 : pos + 8 > d.length
    · rw [if_pos h8]
    · rw [if_neg h8]
      rcases htorn with rfl | ⟨s, record, k, hrecord, hmax, hk, rfl⟩
      · rw [List.length_nil] at hlen
        omega
      · obtain ⟨-, hl, -⟩ := at_record hrecord
        rw [List.length_take, Nat.min_eq_left hk.le] at hlen
        have hword : leNat ((d.drop (pos + 4)).take 4) = record.length := by
          have htake := hl.take_drop
          rw [leBytes_length] at htake
          rw [← List.drop_drop, hd, List.drop_take, List.take_take, Nat.min_eq_left (by omega), htake,
            leNat_leBytes]
          exact lt_of_le_of_lt hmax (by decide)
        dsimp only
        rw [hword]
        split
        · rfl
        · rw [if_pos]
          right
          right
          omega

/-- The first step of a scan at a record. -/
theorem scanRecords_record {d rest : Bytes} {pos : ℕ} {s : SpanFields} (hd : d.drop pos = recordBytes s ++ rest) (fuel : ℕ) :
    scanRecords d (fuel + 1) pos =
      let l := (recordBytes s).length % 2 ^ 32
      if l < 8 ∨ l > MAX_RECORD_BYTES then ([], 0)
      else
        let entry := match extractTraceSpanId ((recordBytes s).take l) with
          | .ok (traceId, spanId) => [⟨traceId, spanId, pos⟩]
          | _ => []
        let (index, count) := scanRecords d fuel (pos + l)
        (entry ++ index, count + 1) := by
  have hlen : d.length - pos = ((recordBytes s) ++ rest).length := by rw [← hd, List.length_drop]
  rw [List.length_append] at hlen
  have h88 := le_recordBytes_length s
  have hmod : (recordBytes s).length % 2 ^ 32 ≤ (recordBytes s).length := Nat.mod_le _ _
  have hat : At d pos (recordBytes s) := by
    refine at_of_take_drop (n := (recordBytes s).length) (by omega) ?_
    rw [hd, List.take_left]
  obtain ⟨hmagic, hl, -⟩ := at_object (spanCells_length s) (at_self (recordBytes s))
  rw [← objectBytes_length (spanCells_length s), Nat.zero_add] at hl
  have hm := (hat.trans hmagic).take_drop
  have hlw := (hat.trans hl).take_drop
  rw [leBytes_length] at hm hlw
  rw [Nat.add_zero] at hm
  have hmagicNat : leNat (leBytes 4 MAGIC_OBJ) = MAGIC_OBJ := leNat_leBytes (by decide)
  have hlenNat : leNat (leBytes 4 (recordBytes s).length) = (recordBytes s).length % 2 ^ 32 := leNat_leBytes_mod 4 _
  have htake : (d.drop pos).take ((recordBytes s).length % 2 ^ 32) =
      (recordBytes s).take ((recordBytes s).length % 2 ^ 32) := by
    rw [hd, List.take_append_of_le_length hmod]
  rw [scanRecords, if_neg (by omega)]
  dsimp only
  rw [hm, show leNat ((d.drop (pos + 4)).take 4) = _ from (congrArg leNat hlw).trans hlenNat, hmagicNat,
    if_neg (by simp), htake]
  by_cases hbad : (recordBytes s).length % 2 ^ 32 < 8 ∨ (recordBytes s).length % 2 ^ 32 > MAX_RECORD_BYTES
  · rw [if_pos hbad, if_pos (hbad.imp_right Or.inl)]
  · rw [if_neg hbad]
    refine (if_neg (by omega)).trans ?_
    generalize extractTraceSpanId _ = ids
    generalize scanRecords d fuel _ = found
    cases ids <;> rfl

/-- A scan of a record of the permitted size finds it, and goes on behind it. -/
theorem scanRecords_small {d rest : Bytes} {pos : ℕ} {s : SpanFields} (hd : d.drop pos = recordBytes s ++ rest)
    (hmax : (recordBytes s).length ≤ MAX_RECORD_BYTES) (fuel : ℕ) :
    scanRecords d (fuel + 1) pos =
      (⟨s.traceId, s.spanId.toUInt64, pos⟩ :: (scanRecords d fuel (pos + (recordBytes s).length)).1,
        (scanRecords d fuel (pos + (recordBytes s).length)).2 + 1) := by
  have h88 := le_recordBytes_length s
  have hlt : (recordBytes s).length < 2 ^ 32 := lt_of_le_of_lt hmax (by decide)
  rw [scanRecords_record hd]
  dsimp only
  rw [Nat.mod_eq_of_lt hlt, if_neg (by omega), List.take_length, extractTraceSpanId_record (by omega)]
  rfl

/-- A scan finds the records in front of a torn one. -/
theorem scanRecords_laid {d torn : Bytes} (htorn : Torn torn) {pos : ℕ} {spans : List Logged}
    {body : Bytes} (h : Laid pos spans body) (hd : d.drop pos = body ++ torn)
    (hlen : d.length = pos + (body ++ torn).length) (fuel : ℕ) (hfuel : spans.length < fuel) :
    scanRecords d fuel pos = (spans.map Logged.entry, spans.length) := by
  induction h generalizing fuel with
  | nil pos => exact scanRecords_torn htorn hd hlen fuel
  | @cons pos s record rest spans hrecord hmax hrest ih =>
    obtain ⟨fuel, rfl⟩ := Nat.exists_eq_succ_of_ne_zero (Nat.ne_of_gt (Nat.zero_lt_of_lt hfuel))
    rw [List.length_cons] at hfuel
    simp only [List.length_append] at hlen
    obtain rfl := spanRecord_eq_ok hrecord
    have hdrop : d.drop (pos + (recordBytes s).length) = rest ++ torn := by
      rw [← List.drop_drop, hd, List.append_assoc, List.drop_left]
    rw [scanRecords_small (hd.trans (List.append_assoc _ _ _)) hmax,
      ih hdrop (by simp only [List.length_append]; omega) fuel (by omega)]
    rfl

/-! ## Recovery and appending -/

/-- Recovery of a file with the header of a log scans what is behind it. -/
theorem SpanWal.recover_header (wal : SpanWal) (rest : Bytes) :
    wal.recover (walHeader ++ rest) = .ok { wal with
      index := (scanRecords (walHeader ++ rest) ((walHeader ++ rest).length + 1) walHeader.length).1
      recordCount := (scanRecords (walHeader ++ rest) ((walHeader ++ rest).length + 1) walHeader.length).2
      currentOffset := (walHeader ++ rest).length } := by
  set d := walHeader ++ rest with hd
  have hhead : At d 0 walHeader := (at_self _).append_right _
  have hle := hhead.le
  rw [walHeader_length] at hle
  have hparts := hhead
  rw [walHeader, at_append, at_append, at_append, at_append] at hparts
  obtain ⟨⟨⟨⟨hmagic, -⟩, -⟩, hlen⟩, -⟩ := hparts
  simp only [List.length_append, leBytes_length] at hlen
  have hsmall : walSchemaBytes.length < 256 ^ 4 := by decide +kernel
  have hmagicRead : (readLE d 0 4 : Res ℕ) = .ok MAGIC_WAL := by
    rw [readLE_below hmagic (leBytes_length _ _) (by decide), leNat_leBytes (by decide)]
  have hlenRead : (readLE d 8 4 : Res ℕ) = .ok walSchemaBytes.length := by
    rw [readLE_below hlen (leBytes_length _ _) (by decide), leNat_leBytes hsmall]
  rw [SpanWal.recover, ensure_of (by omega), ok_bind, hmagicRead, ok_bind, ensure_of rfl, ok_bind,
    ensure_of (by omega), ok_bind, hlenRead, ok_bind, walHeader_length]

/-- Recovery of a log whose last record may be torn. -/
theorem SpanWal.recover_laid (wal : SpanWal) {spans : List Logged} {body torn : Bytes}
    (h : Laid walHeader.length spans body) (htorn : Torn torn) :
    wal.recover (walHeader ++ body ++ torn) = .ok { wal with
      index := spans.map Logged.entry
      recordCount := spans.length
      currentOffset := (walHeader ++ body ++ torn).length } := by
  have hbody := h.length_le
  rw [List.append_assoc, recover_header]
  rw [scanRecords_laid htorn h (List.drop_left) List.length_append _ (by simp only [List.length_append]; omega)]

/-- An append adds an entry at the offset that the log keeps track of. -/
theorem SpanWal.append_eq_ok {wal wal' : SpanWal} {s : SpanFields} {record : Bytes}
    (h : wal.append s = .ok (wal', record)) :
    spanRecord s = .ok record ∧
      wal'.index = wal.index ++ [⟨s.traceId, s.spanId.toUInt64, wal.currentOffset⟩] ∧
      wal'.recordCount = wal.recordCount + 1 ∧
      wal'.currentOffset = wal.currentOffset + record.length := by
  obtain ⟨b, hb, h⟩ := bind_eq_ok.mp h
  cases h
  exact ⟨hb, rfl, rfl, rfl⟩

/-! ## The invariant of a run -/

/-- The open log keeps track of the spans and of the end of the file. -/
structure SpanWal.Tracks (w : SpanWal) (d : Bytes) (spans : List Logged) : Prop where
  index : w.index = spans.map Logged.entry
  recordCount : w.recordCount = spans.length
  currentOffset : w.currentOffset = d.length

/-- What a log file holds: its header, the records of the spans, and perhaps a torn one. -/
def LogFile (d : Bytes) (spans : List Logged) : Prop :=
  ∃ body torn, d = walHeader ++ body ++ torn ∧ Laid walHeader.length spans body ∧ Torn torn

structure LogRun.Inv (σ : LogRun) : Prop where
  absent : σ.log = none → σ.wal = none ∧ σ.spans = []
  file : ∀ d, σ.log = some d → LogFile d σ.spans
  flushed : ∀ d, σ.log = some d → walHeader.length ≤ σ.flushed
  wal : ∀ d w, σ.log = some d → σ.wal = some w → w.Tracks d σ.spans

theorem LogFile.recover {d : Bytes} {spans : List Logged} (h : LogFile d spans) (wal : SpanWal) :
    ∃ w, wal.recover d = .ok w ∧ w.Tracks d spans := by
  obtain ⟨body, torn, rfl, hlaid, htorn⟩ := h
  exact ⟨_, wal.recover_laid hlaid htorn, rfl, rfl, rfl⟩

theorem LogFile.records {d : Bytes} {spans : List Logged} (h : LogFile d spans) :
    ∀ e ∈ spans, At d e.offset e.record := by
  obtain ⟨body, torn, rfl, hlaid, -⟩ := h
  refine hlaid.records ?_
  have hat := ((at_self body).append_left walHeader).append_right torn
  rwa [Nat.add_zero] at hat

/-- A cut leaves the records in front of it, and part of the next one. -/
theorem LogFile.cut {d : Bytes} {spans : List Logged} {cut : ℕ} (h : LogFile d spans)
    (hcut : walHeader.length ≤ cut) :
    LogFile (d.take cut) (spans.filter fun e => e.offset + e.record.length ≤ cut) := by
  obtain ⟨body, torn, rfl, hlaid, htorn⟩ := h
  obtain ⟨k, hk⟩ := Nat.exists_eq_add_of_le hcut
  have htake : (walHeader ++ body ++ torn).take cut = walHeader ++ (body ++ torn).take k := by
    rw [hk, List.append_assoc, List.take_length_add_append]
  rw [htake, hk]
  by_cases hbody : k ≤ body.length
  · obtain ⟨kept, torn', htake', htorn', hkept⟩ := hlaid.cut k
    refine ⟨kept, torn', ?_, hkept, htorn'⟩
    rw [List.take_append_of_le_length hbody, htake', List.append_assoc]
  · -- the cut goes through what an earlier crash has torn
    refine ⟨body, torn.take (k - body.length), ?_, ?_, ?_⟩
    · rw [List.take_append, List.take_of_length_le (by omega), List.append_assoc]
    · rw [List.filter_eq_self.mpr]
      · exact hlaid
      · intro e he
        have hle := hlaid.offset_le e he
        simpa using by omega
    · rcases htorn with rfl | ⟨s, record, j, hrecord, hmax, hj, rfl⟩
      · exact Or.inl List.take_nil
      · refine Or.inr ⟨s, record, min (k - body.length) j, hrecord, hmax, by omega, ?_⟩
        rw [List.take_take]

/-- A log in the invariant recovers exactly its spans. -/
theorem LogRun.Inv.recovers {σ : LogRun} (h : σ.Inv) : σ.Recovers := by
  intro d hd
  have hfile := h.file d hd
  refine ⟨fun w hw => ?_, ?_⟩
  · have htracks := h.wal d w hd hw
    exact ⟨htracks.index, htracks.recordCount, hfile.records⟩
  · obtain ⟨w, hw, htracks⟩ := hfile.recover (SpanWal.opened true)
    exact ⟨w, hw, htracks.index, htracks.recordCount, hfile.records⟩

namespace LogRun

theorem inv_init : init.Inv where
  absent := fun _ => ⟨rfl, rfl⟩
  file := fun _ h => nomatch h
  flushed := fun _ h => nomatch h
  wal := fun _ _ h => nomatch h

theorem inv_opens {σ σ' : LogRun} (h : σ.Inv) (hs : σ.opens = some σ') : σ'.Inv := by
  have hfile : LogFile (σ.log.getD walHeader) σ.spans := by
    cases hlog : σ.log with
    | none =>
      rw [(h.absent hlog).2]
      exact ⟨[], [], by simp, .nil _, Or.inl rfl⟩
    | some d => exact h.file d hlog
  have hflushed : walHeader.length ≤ (if σ.log.isSome then σ.flushed else walHeader.length) := by
    cases hlog : σ.log with
    | none => exact Nat.le_refl _
    | some d => exact h.flushed d hlog
  obtain ⟨w, hw, htracks⟩ := hfile.recover (SpanWal.opened σ.log.isSome)
  rw [opens] at hs
  cases hwal : σ.wal with
  | some w' =>
    rw [hwal] at hs
    cases hs
  | none =>
    rw [hwal] at hs
    dsimp only at hs
    rw [hw] at hs
    cases hs
    refine ⟨(fun he => by cases he), ?_, ?_, ?_⟩
    · rintro d ⟨⟩
      exact hfile
    · rintro d ⟨⟩
      exact hflushed
    · rintro d w ⟨⟩ ⟨⟩
      exact htracks

/-- Behind a whole record, an append adds another one. -/
theorem inv_append {σ σ' : LogRun} {s : SpanFields} (h : σ.Inv) (ha : σ.Untorn (.append s))
    (hs : σ.append s = some σ') : σ'.Inv := by
  obtain ⟨wal, hwal, hs⟩ := Option.bind_eq_some_iff.mp hs
  obtain ⟨d, hd, hs⟩ := Option.bind_eq_some_iff.mp hs
  split at hs
  · rename_i wal' record happend
    split at hs
    · rename_i hmax
      cases hs
      obtain ⟨body, torn, hdbody, hlaid, htorn⟩ := h.file d hd
      obtain ⟨hindex, hcount, hoffset⟩ := h.wal d wal hd hwal
      obtain ⟨hrecord, hindex', hcount', hoffset'⟩ := SpanWal.append_eq_ok happend
      -- the log ends with the last record, so that nothing is torn
      have hend : d.length = logEnd σ.spans := by
        have he : σ.log.elim 0 List.length = logEnd σ.spans := ha
        rwa [hd] at he
      have htorn0 : torn = [] := by
        rw [logEnd, hlaid.logEnd_eq, hdbody] at hend
        simp only [List.length_append] at hend
        exact List.eq_nil_of_length_eq_zero (by omega)
      rw [htorn0, List.append_nil] at hdbody
      have hlen : d.length = walHeader.length + body.length := by
        rw [hdbody, List.length_append]
      have hlaid' := hlaid.concat hrecord hmax
      rw [← hlen] at hlaid'
      refine ⟨(fun he => by cases he), ?_, ?_, ?_⟩
      · rintro d' ⟨⟩
        exact ⟨body ++ record, [], by rw [hdbody]; simp, hlaid', Or.inl rfl⟩
      · rintro d' ⟨⟩
        exact h.flushed d hd
      · rintro d' w ⟨⟩ ⟨⟩
        refine ⟨?_, ?_, ?_⟩
        · rw [hindex', hindex, hoffset, List.map_append]
          rfl
        · rw [hcount', hcount, List.length_append]
          rfl
        · rw [hoffset', hoffset, List.length_append]
    · cases hs
  · cases hs

theorem inv_flush {σ σ' : LogRun} (h : σ.Inv) (hs : σ.flush = some σ') : σ'.Inv := by
  obtain ⟨wal, hwal, hs⟩ := Option.bind_eq_some_iff.mp hs
  obtain ⟨d, hd, hs⟩ := Option.bind_eq_some_iff.mp hs
  cases hs
  refine ⟨(fun he => by cases he), ?_, ?_, ?_⟩
  · rintro d' ⟨⟩
    exact h.file d hd
  · rintro d' ⟨⟩
    obtain ⟨body, torn, rfl, -, -⟩ := h.file d hd
    simp only [List.length_append]
    omega
  · rintro d' w ⟨⟩ ⟨⟩
    exact h.wal d wal hd hwal

theorem inv_crash {σ σ' : LogRun} {cut : ℕ} (h : σ.Inv) (hs : σ.crash cut = some σ') : σ'.Inv := by
  obtain ⟨d, hd, hs⟩ := Option.bind_eq_some_iff.mp hs
  split at hs
  · rename_i hcut
    cases hs
    have hflushed := h.flushed d hd
    refine ⟨(fun he => by cases he), ?_, fun _ _ => hflushed, (fun _ _ _ hw => by cases hw)⟩
    rintro d' ⟨⟩
    exact (h.file d hd).cut (hflushed.trans hcut.1)
  · cases hs

/-- Each admitted step keeps the invariant. -/
theorem inv_step {σ σ' : LogRun} {op : LogOp} (h : σ.Inv) (ha : σ.Untorn op)
    (hs : σ.step op = some σ') : σ'.Inv := by
  cases op with
  | opens => exact inv_opens h hs
  | append s => exact inv_append h ha hs
  | flush => exact inv_flush h hs
  | crash cut => exact inv_crash h hs

/-! ## Crash safety -/

/-- Where no span is appended behind a torn record, the log recovers in every state exactly the spans
that it must hold. -/
theorem recovers_untorn {σ : LogRun} (h : Reached step Untorn init σ) : σ.Recovers :=
  (h.invariant inv_init fun _ _ _ hi ha hs => inv_step hi ha hs).recovers

/-- A span. -/
def sampleSpan (spanId : Int64) : SpanFields where
  traceIdHi := 1
  traceIdLo := 2
  spanId := spanId
  parentSpanId := none
  name := "call"
  service := "api"
  startTimeNs := 5
  durationNs := 6
  statusCode := 0
  payload := some [1, 2, 3]

/-- A torn span, a crash that cuts the rest of it off, and a span behind that. -/
theorem recovers_untorn_two_crashes :
    ∃ σ, Reached step Untorn init σ ∧ σ.spans.length = 2 ∧ σ.Recovers := by
  obtain ⟨σ, hσ, hlen⟩ := Option.map_eq_some_iff.mp (show
    (runGuarded step Untorn init [.opens, .append (sampleSpan 7), .flush, .append (sampleSpan 8),
      .crash 300, .opens, .crash 244, .opens, .append (sampleSpan 9)]).map (fun σ => σ.spans.length) =
        some 2 by decide +kernel)
  have hreached := reached_of_runGuarded .init hσ
  exact ⟨σ, hreached, hlen, recovers_untorn hreached⟩

/-- A span appended behind a torn record is lost. -/
theorem append_behind_torn_lost :
    ¬ ∀ σ, Reached step (fun _ _ => True) init σ → σ.Recovers := by
  intro hall
  -- one span is kept, and none is recovered
  obtain ⟨σ, hσ, hkept⟩ := Option.map_eq_some_iff.mp (show
    (runGuarded step (fun _ _ => True) init [.opens, .append (sampleSpan 7), .crash 135, .opens,
      .append (sampleSpan 8)]).map (fun σ => (σ.spans.length, σ.log.map fun d =>
        SpanWal.recordCount <$> (SpanWal.opened true).recover d)) = some (1, some (.ok 0)) by
      decide +kernel)
  rw [Prod.mk.injEq] at hkept
  obtain ⟨d, hd, hcount⟩ := Option.map_eq_some_iff.mp hkept.2
  obtain ⟨-, w, hw, hholds⟩ := hall σ (reached_of_runGuarded .init hσ) d hd
  rw [hw, map_ok, Outcome.ok.injEq, hholds.recordCount, hkept.1] at hcount
  cases hcount

end LogRun

end Nyxis
