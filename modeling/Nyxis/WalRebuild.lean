import Nyxis.WalCrash

/-!
# WalRebuild — recovery against the index in memory

Recovery reads the length of a record from its header, where it has 32 bits, and stops at a record of more than
`MAX_RECORD_BYTES`.  `append` writes records of any length.

* `scanRecords_entries`: exactly when a scan finds the entries that the appends have made.
* `recover_rebuilds_iff`: exactly when recovery gives the log that was in memory.
-/

namespace Nyxis

open Lib Lib.Outcome
open NxsWriter (prefixed)

/-- A log in memory and its file, once the write buffer is flushed. -/
structure LiveLog where
  wal : SpanWal
  file : Bytes
  deriving DecidableEq, Repr

namespace LiveLog

def create : LiveLog := ⟨.opened false, walHeader⟩

def append (l : LiveLog) (s : SpanFields) : Res LiveLog := do
  let (wal, record) ← l.wal.append s
  .ok ⟨wal, l.file ++ record⟩

/-- A fresh log after the spans were appended. -/
def run (spans : List SpanFields) : Res LiveLog := spans.foldlM append create

end LiveLog

/-- The index entries of spans whose records begin at `pos`. -/
def entriesFrom : ℕ → List SpanFields → List WalEntry
  | _, [] => []
  | pos, s :: spans => ⟨s.traceId, s.spanId.toUInt64, pos⟩ :: entriesFrom (pos + (recordBytes s).length) spans

/-- The scan takes the record at `pos` for a whole one. -/
def WholeRecord (d : Bytes) (pos : ℕ) : Prop :=
  pos + 8 ≤ d.length ∧ word d pos 4 = MAGIC_OBJ ∧ 8 ≤ word d (pos + 4) 4 ∧ word d (pos + 4) 4 ≤ MAX_RECORD_BYTES ∧
    pos + word d (pos + 4) 4 ≤ d.length

/-- The length of the record wraps around to one that the scan accepts and that has room for the ids, and no whole record
begins there. -/
def Wraps (record : Bytes) : Prop :=
  56 ≤ record.length % 2 ^ 32 ∧ record.length % 2 ^ 32 ≤ MAX_RECORD_BYTES ∧ ¬ WholeRecord record (record.length % 2 ^ 32)

/-- No record is longer than recovery accepts; the length of the last one may also wrap around. -/
def Recoverable : List SpanFields → Prop
  | [] => True
  | [s] => (recordBytes s).length ≤ MAX_RECORD_BYTES ∨ Wraps (recordBytes s)
  | s :: spans => (recordBytes s).length ≤ MAX_RECORD_BYTES ∧ Recoverable spans

/-! ## The log in memory -/

theorem append_run {spans : List SpanFields} : ∀ {l l' : LiveLog}, spans.foldlM LiveLog.append l = .ok l' →
    l.wal.currentOffset = l.file.length →
    l'.file = l.file ++ spans.flatMap recordBytes ∧
      l'.wal = ⟨l.wal.index ++ entriesFrom l.file.length spans, l.wal.recordCount + spans.length, l.wal.dataStart,
        l'.file.length⟩ := by
  induction spans with
  | nil =>
    intro l l' h hoff
    rw [List.foldlM_nil] at h
    cases h
    refine ⟨by simp, ?_⟩
    rw [entriesFrom, List.append_nil, List.length_nil, Nat.add_zero, ← hoff]
  | cons s spans ih =>
    intro l l' h hoff
    rw [List.foldlM_cons] at h
    obtain ⟨l₁, hone, h⟩ := bind_eq_ok.mp h
    obtain ⟨⟨wal, record⟩, happend, hone⟩ := bind_eq_ok.mp hone
    cases hone
    obtain ⟨b, hb, happend⟩ := bind_eq_ok.mp happend
    cases happend
    obtain rfl := spanRecord_eq_ok hb
    obtain ⟨hfile, hwal⟩ := ih h (by rw [List.length_append, hoff])
    refine ⟨by rw [hfile, List.flatMap_cons, List.append_assoc], ?_⟩
    rw [hwal, entriesFrom, hoff, List.append_assoc, List.singleton_append, List.length_append, List.length_cons,
      Nat.add_assoc, Nat.add_comm 1]

/-- The file of a fresh log, and what the log in memory knows. -/
theorem run_eq_ok {spans : List SpanFields} {l : LiveLog} (h : LiveLog.run spans = .ok l) :
    l.file = walHeader ++ spans.flatMap recordBytes ∧
      l.wal = ⟨entriesFrom walHeader.length spans, spans.length, walHeader.length, l.file.length⟩ := by
  have hfresh : SpanWal.opened false = ⟨[], 0, 8 + 4 + walSchemaBytes.length, 8 + 4 + walSchemaBytes.length⟩ := rfl
  have hstart : LiveLog.create.wal.currentOffset = LiveLog.create.file.length := by
    rw [LiveLog.create, hfresh, walHeader_length]
  obtain ⟨hfile, hwal⟩ := append_run h hstart
  refine ⟨hfile, hwal.trans ?_⟩
  have hdata : LiveLog.create.wal.dataStart = walHeader.length := by
    rw [LiveLog.create, hfresh, walHeader_length]
  rw [hdata, show LiveLog.create.wal.index = [] from rfl, show LiveLog.create.wal.recordCount = 0 from rfl, List.nil_append,
    Nat.zero_add, show LiveLog.create.file = walHeader from rfl]

/-! ## The ids in the first bytes of a record -/

theorem readMask_take {d : Bytes} {l : ℕ} : ∀ {fuel pos : ℕ} {bits : List Bool} {r : List Bool × ℕ},
    readMask (d.take l) fuel pos bits = .ok r → readMask d fuel pos bits = .ok r
  | 0, _, _, _, h => by cases h
  | fuel + 1, pos, bits, r, h => by
    obtain ⟨byte, hbyte, h⟩ := bind_eq_ok.mp h
    have hread : (Outcome.ofOption (d.take l)[pos]? : Opt UInt8) = .ok byte := hbyte
    have hd : get d pos = .ok byte := ofOption_eq_ok.mpr (by
      have hsome := ofOption_eq_ok.mp hread
      rw [List.getElem?_take] at hsome
      split at hsome
      · exact hsome
      · cases hsome)
    rw [readMask, hd, ok_bind]
    dsimp only at h ⊢
    split at h
    · rename_i hmore
      rw [if_pos hmore]
      exact readMask_take h
    · rename_i hlast
      rw [if_neg hlast]
      exact h

/-- Fewer than 56 bytes of a record do not have the span id. -/
theorem extractTraceSpanId_short {s : SpanFields} {l : ℕ} {ids : ℕ × UInt64}
    (h : extractTraceSpanId ((recordBytes s).take l) = .ok ids) : 56 ≤ l := by
  by_contra hshort
  obtain ⟨⟨bits, tableStart⟩, hbits, h⟩ := bind_eq_ok.mp h
  have hmask : readMask (recordBytes s) 17 8 [] = _ := readMask_object (at_mask s) (by decide)
  rw [readMask_take hbits] at hmask
  obtain ⟨rfl, rfl⟩ := Prod.mk.inj (ok.inj hmask)
  obtain ⟨_, -, h⟩ := bind_eq_ok.mp h
  obtain ⟨hi, -, h⟩ := bind_eq_ok.mp h
  obtain ⟨lo, -, h⟩ := bind_eq_ok.mp h
  obtain ⟨spanId, hid, -⟩ := bind_eq_ok.mp h
  rw [readSlot] at hid
  obtain ⟨_, -, hid⟩ := bind_eq_ok.mp hid
  dsimp only at hid
  obtain ⟨_, hentry, hid⟩ := bind_eq_ok.mp hid
  obtain ⟨rel, hrel, hid⟩ := bind_eq_ok.mp hid
  obtain ⟨_, hvalue, -⟩ := bind_eq_ok.mp hid
  rw [ensure_eq_ok] at hentry hvalue
  have hcount : (((List.range (7 * bitmaskLen 10)).map (objectSlots (spanCells s))).take 2).count true = 2 :=
    count_slots_span s (by decide)
  rw [hcount, show 8 + bitmaskLen 10 + 2 * 2 = 14 from rfl] at hentry hrel
  obtain ⟨hat, -⟩ := at_slot (s := s) 2 s.spanId (by decide) rfl (by simp [spanCells, spanHead, objectValues])
  have hlen := List.length_take_le l (recordBytes s)
  have hat := hat.of_prefix (m := l) (by rw [leBytes_length]; omega)
  rw [readLE_leBytes hat (by decide) (by omega)] at hrel
  cases hrel
  omega

/-! ## The scan -/

theorem scanRecords_empty {d : Bytes} {fuel pos : ℕ} : (scanRecords d (fuel + 1) pos).2 = 0 ↔ ¬ WholeRecord d pos := by
  rw [scanRecords, WholeRecord, word, word]
  dsimp only
  by_cases h8 : pos + 8 > d.length
  · rw [if_pos h8]
    exact iff_of_true rfl fun h => by omega
  rw [if_neg h8]
  by_cases hmagic : leNat ((d.drop pos).take 4) = MAGIC_OBJ
  · rw [if_neg (not_not.mpr hmagic)]
    by_cases hlen : leNat ((d.drop (pos + 4)).take 4) < 8 ∨ leNat ((d.drop (pos + 4)).take 4) > MAX_RECORD_BYTES ∨
        pos + leNat ((d.drop (pos + 4)).take 4) > d.length
    · rw [if_pos hlen]
      exact iff_of_true rfl fun h => by omega
    · rw [if_neg hlen]
      refine iff_of_false (Nat.succ_ne_zero _) (not_not.mpr ⟨by omega, hmagic, by omega, by omega, by omega⟩)
  · rw [if_pos hmagic]
    exact iff_of_true rfl fun h => hmagic h.2.1

/-- The index has at most one entry for each record; if it has one for each, the first record has the first one. -/
theorem scanRecords_counts (d : Bytes) : ∀ fuel pos, (scanRecords d fuel pos).1.length ≤ (scanRecords d fuel pos).2 ∧
    ((scanRecords d fuel pos).1.length = (scanRecords d fuel pos).2 →
      ∀ e ∈ (scanRecords d fuel pos).1.head?, e.offset = pos)
  | 0, pos => ⟨Nat.le_refl 0, fun _ _ he => by cases he⟩
  | fuel + 1, pos => by
    have hnone : ∀ e ∈ ([] : List WalEntry).head?, e.offset = pos := fun e he => by cases he
    rw [scanRecords]
    dsimp only
    split
    · exact ⟨Nat.le_refl 0, fun _ => hnone⟩
    split
    · exact ⟨Nat.le_refl 0, fun _ => hnone⟩
    split
    · exact ⟨Nat.le_refl 0, fun _ => hnone⟩
    · obtain ⟨hle, -⟩ := scanRecords_counts d fuel (pos + leNat ((d.drop (pos + 4)).take 4))
      generalize scanRecords d fuel _ = found at hle
      split
      · refine ⟨by simpa using hle, fun _ e he => ?_⟩
        rw [List.singleton_append, List.head?_cons, Option.mem_def, Option.some.injEq] at he
        rw [← he]
      · dsimp only
        rw [List.nil_append]
        exact ⟨by omega, fun heq => by omega⟩

theorem entriesFrom_length : ∀ (pos : ℕ) (spans : List SpanFields), (entriesFrom pos spans).length = spans.length
  | _, [] => rfl
  | pos, s :: spans => by rw [entriesFrom, List.length_cons, List.length_cons, entriesFrom_length]

theorem wholeRecord_drop {d : Bytes} {pos off : ℕ} (hpos : pos ≤ d.length) :
    WholeRecord d (pos + off) ↔ WholeRecord (d.drop pos) off := by
  have hword : ∀ o, word (d.drop pos) o 4 = word d (pos + o) 4 := fun o => by
    rw [word, word, List.drop_drop]
  rw [WholeRecord, WholeRecord, hword, hword, List.length_drop, ← Nat.add_assoc]
  have hlen : ∀ n, pos + off + n ≤ d.length ↔ off + n ≤ d.length - pos := fun n => by omega
  rw [hlen, hlen]

/-- A scan finds the entries of the spans exactly where they can be recovered. -/
theorem scanRecords_entries {d : Bytes} : ∀ {spans : List SpanFields} {pos fuel : ℕ},
    d.drop pos = spans.flatMap recordBytes → spans.length < fuel →
      (scanRecords d fuel pos = (entriesFrom pos spans, spans.length) ↔ Recoverable spans)
  | [], pos, fuel, hd, hfuel => by
    refine iff_of_true ?_ trivial
    obtain ⟨fuel, rfl⟩ := Nat.exists_eq_succ_of_ne_zero (Nat.ne_of_gt hfuel)
    have hlen := congrArg List.length hd
    rw [List.length_drop, List.flatMap_nil, List.length_nil] at hlen
    rw [scanRecords, if_pos (by omega)]
    rfl
  | s :: spans, pos, fuel, hd, hfuel => by
    obtain ⟨fuel, rfl⟩ := Nat.exists_eq_succ_of_ne_zero (Nat.ne_of_gt (Nat.zero_lt_of_lt hfuel))
    rw [List.length_cons] at hfuel
    rw [List.flatMap_cons] at hd
    have hrest : d.drop (pos + (recordBytes s).length) = spans.flatMap recordBytes := by
      rw [← List.drop_drop, hd, List.drop_left]
    by_cases hmax : (recordBytes s).length ≤ MAX_RECORD_BYTES
    · rw [scanRecords_small hd hmax, entriesFrom, List.length_cons, Prod.mk.injEq, List.cons.injEq, and_iff_right rfl,
        Nat.add_right_cancel_iff, ← Prod.mk.injEq, Prod.mk.eta, scanRecords_entries hrest (by omega)]
      cases spans with
      | nil => exact iff_of_true trivial (.inl hmax)
      | cons t spans => exact (and_iff_right hmax).symm
    have hlen := congrArg List.length hd
    rw [List.length_drop, List.length_append] at hlen
    have h88 := le_recordBytes_length s
    have hmod : (recordBytes s).length % 2 ^ 32 ≤ (recordBytes s).length := Nat.mod_le _ _
    rw [scanRecords_record hd]
    dsimp only
    by_cases hbad : (recordBytes s).length % 2 ^ 32 < 8 ∨ (recordBytes s).length % 2 ^ 32 > MAX_RECORD_BYTES
    · rw [if_pos hbad]
      refine iff_of_false (fun h => by cases h) fun h => ?_
      cases spans with
      | nil =>
        rcases h with hsmall | hwraps
        · exact hmax hsmall
        · have := hwraps.1
          have := hwraps.2.1
          omega
      | cons t spans => exact hmax h.1
    rw [if_neg hbad]
    obtain ⟨hle, hhead⟩ := scanRecords_counts d fuel (pos + (recordBytes s).length % 2 ^ 32)
    cases spans with
    | nil =>
      have hwhole : d.drop pos = recordBytes s := by rw [hd, List.flatMap_nil, List.append_nil]
      rw [List.length_nil] at hfuel
      obtain ⟨fuel, rfl⟩ := Nat.exists_eq_succ_of_ne_zero (show fuel ≠ 0 by omega)
      have hempty : (scanRecords d (fuel + 1) (pos + (recordBytes s).length % 2 ^ 32)).2 = 0 ↔
          ¬ WholeRecord (recordBytes s) ((recordBytes s).length % 2 ^ 32) := by
        rw [scanRecords_empty, wholeRecord_drop (by omega), hwhole]
      constructor
      · intro h
        obtain ⟨hindex, hcount⟩ := Prod.mk.inj h
        have hzero := Nat.succ_inj.mp hcount
        rw [hzero] at hle
        rw [List.length_eq_zero_iff.mp (Nat.le_zero.mp hle), List.append_nil] at hindex
        refine .inr ⟨?_, by omega, hempty.mp hzero⟩
        cases hids : extractTraceSpanId ((recordBytes s).take ((recordBytes s).length % 2 ^ 32)) with
        | ok ids => exact extractTraceSpanId_short hids
        | err e =>
          rw [hids] at hindex
          cases hindex
        | panic =>
          rw [hids] at hindex
          cases hindex
      · rintro (hsmall | ⟨h56, -, hnone⟩)
        · exact absurd hsmall hmax
        · have hzero := hempty.mpr hnone
          rw [hzero] at hle
          rw [extractTraceSpanId_take h56 hmod (by omega), List.length_eq_zero_iff.mp (Nat.le_zero.mp hle), hzero]
          rfl
    | cons t spans =>
      refine iff_of_false (fun h => ?_) fun h => hmax h.1
      obtain ⟨hindex, hcount⟩ := Prod.mk.inj h
      have hcount := Nat.succ_inj.mp hcount
      have hlens := congrArg List.length hindex
      rw [List.length_append, entriesFrom_length, List.length_cons] at hlens
      cases hids : extractTraceSpanId ((recordBytes s).take ((recordBytes s).length % 2 ^ 32)) with
      | ok ids =>
        -- the next entry would be at the length that the header has
        rw [hids, List.singleton_append] at hindex
        rw [hids] at hlens
        have hidx := (List.cons.inj hindex).2
        have hfirst := hhead (by rw [hidx, entriesFrom_length, hcount]) _ (by rw [hidx]; rfl)
        dsimp only at hfirst
        omega
      | err e =>
        rw [hids] at hlens
        dsimp only [List.length_nil] at hlens
        omega
      | panic =>
        rw [hids] at hlens
        dsimp only [List.length_nil] at hlens
        omega

/-! ## Recovery -/

theorem length_le_records (spans : List SpanFields) : spans.length ≤ (spans.flatMap recordBytes).length := by
  induction spans with
  | nil => exact Nat.le_refl 0
  | cons s spans ih =>
    have := le_recordBytes_length s
    rw [List.flatMap_cons, List.length_append, List.length_cons]
    omega

/-- Recovery of the flushed file gives the log in memory exactly where no record but the last is longer than recovery
accepts, and the last one is not either or its length wraps around. -/
theorem recover_rebuilds_iff {spans : List SpanFields} {l : LiveLog} (h : LiveLog.run spans = .ok l) :
    (SpanWal.opened true).recover l.file = .ok l.wal ↔ Recoverable spans := by
  obtain ⟨hfile, hwal⟩ := run_eq_ok h
  have hopened : SpanWal.opened true = ⟨[], 0, 8 + 4 + walSchemaBytes.length, 0⟩ := rfl
  have hcount : spans.length < l.file.length + 1 := by
    have hlen := length_le_records spans
    rw [hfile, List.length_append]
    omega
  have hscan := @scanRecords_entries l.file spans walHeader.length _ (by rw [hfile, List.drop_left]) hcount
  rw [← hscan, hwal]
  rw [hfile, SpanWal.recover_header, hopened, ok.injEq, SpanWal.mk.injEq, walHeader_length, Prod.ext_iff]
  simp

/-! ## A short span and a long one -/

def shortSpan : SpanFields := ⟨1, 2, 3, none, "a", "b", 4, 5, 0, none⟩

theorem recover_rebuilds_short : ∃ l, LiveLog.run [shortSpan] = .ok l ∧ (SpanWal.opened true).recover l.file = .ok l.wal := by
  obtain ⟨l, hl⟩ := isOk_iff.mp (show (LiveLog.run [shortSpan]).isOk = true by decide +kernel)
  exact ⟨l, hl, (recover_rebuilds_iff hl).mpr (.inl (by decide +kernel))⟩

def withPayload (b : Bytes) : SpanFields := { shortSpan with payload := some b }

/-- A span whose payload alone has as many bytes as recovery accepts of a record. -/
theorem withPayload_length {b : Bytes} (hb : b.length = MAX_RECORD_BYTES) :
    (recordBytes (withPayload b)).length = MAX_RECORD_BYTES + 112 := by
  have hpayload : (prefixed b).length = MAX_RECORD_BYTES + 8 := by
    have hpad : padLen 8 (4 + MAX_RECORD_BYTES) = 4 := by decide
    rw [prefixed, padTo_length, List.length_append, leBytes_length, hb, hpad]
    omega
  have hname : (prefixed (utf8 "a")).length = 8 := by decide +kernel
  have hservice : (prefixed (utf8 "b")).length = 8 := by decide +kernel
  rw [recordBytes_length, spanCells, spanHead, payloadCells, objectValues]
  simp only [List.flatMap_append, List.flatMap_cons, List.flatMap_nil, List.length_append, List.length_nil, i64Bytes_length,
    parentBytes_length, withPayload, shortSpan, Option.elim_some, hpayload, hname, hservice]
  omega

/-- The log in memory has the span; recovery does not find it. -/
theorem recover_loses_long : ∃ b l w, b = List.replicate MAX_RECORD_BYTES 0 ∧ LiveLog.run [withPayload b] = .ok l ∧
    l.wal.recordCount = 1 ∧ (SpanWal.opened true).recover l.file = .ok w ∧ w.recordCount = 0 ∧ w.index = [] := by
  obtain ⟨b, hb⟩ : ∃ b : Bytes, b = List.replicate MAX_RECORD_BYTES 0 := ⟨_, rfl⟩
  have hlen := withPayload_length (b := b) (by rw [hb, List.length_replicate])
  have hmax : MAX_RECORD_BYTES = 10485760 := rfl
  have hrun : ∃ l, LiveLog.run [withPayload b] = .ok l := by
    rw [LiveLog.run, List.foldlM_cons, LiveLog.append, SpanWal.append, spanRecord_of_lt (by omega)]
    exact ⟨_, rfl⟩
  obtain ⟨l, hl⟩ := hrun
  obtain ⟨hfile, hwal⟩ := run_eq_ok hl
  have hscan : scanRecords l.file (l.file.length + 1) walHeader.length = ([], 0) := by
    rw [@scanRecords_record _ [] _ (withPayload b) (by rw [hfile, List.drop_left]; simp)]
    exact if_pos (by omega)
  have hrecover := SpanWal.recover_header (.opened true) ([withPayload b].flatMap recordBytes)
  rw [← hfile, hscan] at hrecover
  exact ⟨b, l, _, hb, hl, by rw [hwal]; rfl, hrecover, rfl, rfl⟩

end Nyxis
