import Nyxis.JsonOut

/-!
# Exports — the exporters and the inspector on any bytes

`JsonOut.runTo`, `CsvOut.run`, `Inspect.renderText` and `Inspect.renderJson` decode a file and visit its records
through the tail-index.  The position of an entry, and the offset that stands in it, enter unchecked arithmetic;
the JSON exporter allocates room for as many records as the file claims to have.

* `tailLoop`: the loop that the exporters share.
* `EntryFits`: the arithmetic on one entry stays within 64 bits.
* `exports_safe_iff`: none of the four panics exactly when every entry fits and the room is there.
-/

namespace Nyxis

open Lib Lib.Outcome

/-! ## Arguments and reports -/

structure ExportArgs where
  pretty : Bool
  ndjson : Bool
  columns : Option (List String)
  binary : BinaryEncoding
  deriving Repr

structure ExportReport where
  recordsRead : ℕ
  outputBytes : ℕ
  deriving DecidableEq, Repr

structure InspectArgs where
  recordsToShow : Option ℕ
  recordIndex : Option ℕ
  verifyHash : Bool
  deriving Repr

structure InspectReport where
  dictHashOk : Option Bool
  recordCount : ℕ
  deriving DecidableEq, Repr

/-- A record in the report of the inspector. -/
inductive InspectedRecord where
  | fields (index offset : ℕ) (fields : JsonObject)
  | summary (offset : ℕ) (bitmaskHex : String) (fieldCount : ℕ)
  deriving Repr

/-- The report of the inspector. -/
structure InspectJson where
  schemaVersion : ℕ
  version : ℕ
  flags : ℕ
  dictHash : String
  tailPtr : ℕ
  keys : List (String × String)
  recordCount : ℕ
  records : List InspectedRecord
  dictHashOk : Option Bool
  deriving Repr

/-- The allocator, the writer and the crates that the exporters call. -/
structure ExportEnv (W : Type) where
  /-- The most bytes that an allocation can have. -/
  memory : ℕ
  /-- The size of a `serde_json::Value`. -/
  valueSize : ℕ
  writeAll : W → String → Except String W
  base64 : Bytes → String
  floatText : F64 → String
  lineText : JsonObject → Except String String
  arrayText : List JsonObject → Except String String
  prettyText : List JsonObject → Except String String
  reportText : InspectJson → Except String String

/-- `map_err(|e| NxsError::IoError(e.to_string()))`. -/
def ioResult {α : Type} : Except String α → Res α
  | .ok a => .ok a
  | .error e => .err (.ioError e)

/-! ## The tail-index -/

/-- The offset in entry `i`, none where the entry is out of reach. -/
def tailEntry (d : Bytes) (decoded : DecodedFile) (i : ℕ) : Res (Option ℕ) := do
  let rel ← usizeMul i 10
  let entry ← usizeAdd decoded.tailStart rel
  let stop ← usizeAdd entry 10
  if stop > d.length then .ok none
  else do
    let offset ← okOr (getLE d (entry + 2) 8) .outOfBounds
    .ok (some offset)

/-- The fields of the record at `offset`, none where it cannot be decoded. -/
def recordFields (d : Bytes) (decoded : DecodedFile) (offset : ℕ) : Res (List (String × DecodedValue)) :=
  orEmpty (decodeRecordAt d offset decoded.keys decoded.keySigils)

/-- `n` records from record `i` on; the loop stops where an entry is out of reach. -/
def tailLoop {σ : Type} (d : Bytes) (decoded : DecodedFile)
    (visit : ℕ → ℕ → List (String × DecodedValue) → σ → Res σ) : ℕ → ℕ → σ → Res σ
  | 0, _, s => .ok s
  | n + 1, i, s => do
    let entry ← tailEntry d decoded i
    match entry with
    | none => .ok s
    | some offset => do
      let fields ← recordFields d decoded offset
      let s ← visit i offset fields s
      tailLoop d decoded visit n (i + 1) s

section

variable {W : Type} (env : ExportEnv W)

def ExportEnv.put (w : W) (text : String) : Res W := ioResult (env.writeAll w text)

/-- `Vec::with_capacity(n)` of JSON values. -/
def ExportEnv.vecWithCapacity (n : ℕ) : Res Unit := demand (n * env.valueSize ≤ env.memory)

/-! ## JSON -/

namespace JsonOut

/-- A line for each object, and how many bytes they have. -/
def writeLines : List JsonObject → ℕ → W → Res (ℕ × W)
  | [], n, w => .ok (n, w)
  | obj :: objs, n, w => do
    let line ← ioResult (env.lineText obj)
    let w ← env.put w (line ++ "\n")
    writeLines objs (n + (utf8 (line ++ "\n")).length) w

/-- The objects of the records, written as `args` ask for. -/
def writeRecords (args : ExportArgs) (records : List JsonObject) (w : W) : Res (ExportReport × W) :=
  if args.ndjson then do
    let (n, w) ← writeLines env records 0 w
    .ok (⟨records.length, n⟩, w)
  else do
    let text ← ioResult (if args.pretty then env.prettyText records else env.arrayText records)
    let w ← env.put w (text ++ "\n")
    .ok (⟨records.length, (utf8 (text ++ "\n")).length⟩, w)

/-- `run` with the allocation that it makes and its writer. -/
def runTo (args : ExportArgs) (file : Slice) (w : W) : Res (ExportReport × W) := do
  let decoded ← decode file
  env.vecWithCapacity decoded.recordCount
  let records ← exportLoop (exportRecord env.base64 args.binary file.bytes decoded) decoded.recordCount 0
  writeRecords env args records w

end JsonOut

/-! ## CSV -/

namespace CsvOut

/-- A cell with a comma, a quote or a line break is quoted. -/
def csvCell (cell : String) : String :=
  if cell.toList.any fun c => c == ',' || c == '"' || c == '\n' || c == '\r' then
    "\"" ++ String.ofList (cell.toList.flatMap fun c => if c = '"' then [c, c] else [c]) ++ "\""
  else cell

def csvRow (cells : List String) : String := ",".intercalate (cells.map csvCell) ++ "\n"

def decodedValueToCsv : DecodedValue → String
  | .int i => toString i
  | .float f => env.floatText f
  | .bool b => if b then "true" else "false"
  | .str s => s
  | .time t => toString t
  | .null => ""
  | .binary b => env.base64 b
  | .raw b => env.base64 b
  | .list _ => "[nested]"

/-- The cell of a column; of two fields with one name the map has the later one. -/
def fieldCell (fields : List (String × DecodedValue)) (column : String) : String :=
  match fields.reverse.lookup column with
  | none => ""
  | some v => decodedValueToCsv env v

/-- The columns that are asked for, all of them keys of the file. -/
def columnOrder (args : ExportArgs) (keys : List String) : Res (List String) :=
  match args.columns with
  | none => .ok keys
  | some requested =>
    match requested.find? fun column => column ∉ keys with
    | some column => .err (.convertParseError 0 s!"unknown column: {column}")
    | none => .ok requested

def writeRow (columns : List String) (fields : List (String × DecodedValue)) (s : ExportReport × W) :
    Res (ExportReport × W) := do
  let row := csvRow (columns.map (fieldCell env fields))
  let w ← env.put s.2 row
  .ok (⟨s.1.recordsRead + 1, s.1.outputBytes + (utf8 row).length⟩, w)

def run (args : ExportArgs) (file : Slice) (w : W) : Res (ExportReport × W) := do
  let decoded ← decode file
  let columns ← columnOrder args decoded.keys
  let header := csvRow columns
  let w ← env.put w header
  tailLoop file.bytes decoded (fun _ _ fields s => writeRow env columns fields s) decoded.recordCount 0
    (⟨0, (utf8 header).length⟩, w)

end CsvOut

/-! ## The inspector -/

namespace Inspect

/-- At least `width` hexadecimal digits. -/
def hexPadded (width n : ℕ) : String := String.ofList ((Nat.toDigits 16 n).leftpad width '0')

def sigilText (sigil : UInt8) : String := String.ofList [Char.ofNat sigil.toNat]

/-- The lines above the records. -/
def headerLines (decoded : DecodedFile) : List String :=
  ["NXS Binary File\n",
    "  version:   " ++ toString decoded.version ++ "\n",
    "  flags:     0x" ++ hexPadded 4 decoded.flags ++ "\n",
    "  dict_hash: 0x" ++ hexPadded 16 decoded.dictHash ++ "\n",
    "  tail_ptr:  " ++ toString decoded.tailPtr ++ "\n",
    "\nSchema (" ++ toString decoded.keys.length ++ " keys):\n"] ++
  (decoded.keys.zip decoded.keySigils).map (fun key =>
    "  " ++ String.ofList (key.1.toList.rightpad 24 ' ') ++ " " ++ sigilText key.2 ++ "\n") ++
  ["\nRecords: " ++ toString decoded.recordCount ++ "\n"]

def recordLine (i offset fields : ℕ) : String :=
  "  record[" ++ toString i ++ "] offset=" ++ toString offset ++ " fields=" ++ toString fields ++ "\n"

/-- The offset of the record that `--record-index` asks for. -/
def recordOffset (d : Bytes) (decoded : DecodedFile) (idx : ℕ) : Res ℕ := do
  ensure (¬ idx ≥ decoded.recordCount) .outOfBounds
  let rel ← usizeMul idx 10
  let entry ← usizeAdd decoded.tailStart rel
  let start ← usizeAdd entry 2
  okOr (getLE d start 8) .outOfBounds

/-- How many records the summary shows. -/
def toShow (args : InspectArgs) (decoded : DecodedFile) : ℕ :=
  min (args.recordsToShow.getD decoded.recordCount) decoded.recordCount

/-- `decode` has compared the hash. -/
def dictHashOk (args : InspectArgs) : Option Bool := if args.verifyHash then some true else none

/-- The line of the record that is asked for, or of those that the summary shows. -/
def writeRecordLines (args : InspectArgs) (d : Bytes) (decoded : DecodedFile) (w : W) : Res W :=
  match args.recordIndex with
  | some idx => do
    let offset ← recordOffset d decoded idx
    let fields ← recordFields d decoded offset
    env.put w (recordLine idx offset fields.length)
  | none =>
    tailLoop d decoded (fun i offset fields w => env.put w (recordLine i offset fields.length)) (toShow args decoded) 0 w

def renderText (args : InspectArgs) (file : Slice) (w : W) : Res (InspectReport × W) := do
  let decoded ← decode file
  let w ← (headerLines decoded).foldlM env.put w
  let w ← writeRecordLines env args file.bytes decoded w
  .ok (⟨dictHashOk args, decoded.recordCount⟩, w)

/-- The bytes of the mask at `pos`, behind those read so far; the first argument is how many more are read. -/
def bitmaskBytes (d : Bytes) : ℕ → ℕ → Bytes → Opt Bytes
  | 0, _, bytes => .ok bytes
  | fuel + 1, pos, bytes => do
    let b ← get d pos
    if moreMask b then bitmaskBytes d fuel (pos + 1) (bytes ++ [b]) else .ok (bytes ++ [b])

/-- The mask of the object at `offset`, which is cut off behind its 75th byte. -/
def readObjectBitmaskHex (d : Bytes) (offset : ℕ) : Res String := do
  let start ← usizeAdd offset 8
  match bitmaskBytes d 75 start [] with
  | .ok bytes => .ok (JsonOut.hex bytes)
  | .err _ => .ok "?"
  | .panic => .panic

def fieldsObject (fields : List (String × DecodedValue)) : JsonObject :=
  JsonOut.fieldsToJson env.base64 .base64 fields

/-- A record of the summary. -/
def summarize (d : Bytes) (offset : ℕ) (fields : List (String × DecodedValue)) (records : List InspectedRecord) :
    Res (List InspectedRecord) := do
  let mask ← readObjectBitmaskHex d offset
  .ok (records ++ [.summary offset mask fields.length])

/-- The fields of the record that is asked for, or the summary. -/
def reportRecords (args : InspectArgs) (d : Bytes) (decoded : DecodedFile) : Res (List InspectedRecord) :=
  match args.recordIndex with
  | some idx => do
    let offset ← recordOffset d decoded idx
    let fields ← recordFields d decoded offset
    .ok [.fields idx offset (fieldsObject env fields)]
  | none =>
    tailLoop d decoded (fun _ offset fields records => summarize d offset fields records) (toShow args decoded) 0 []

def renderJson (args : InspectArgs) (file : Slice) (w : W) : Res (InspectReport × W) := do
  let decoded ← decode file
  let records ← reportRecords env args file.bytes decoded
  let text ← ioResult (env.reportText {
    schemaVersion := 1
    version := decoded.version
    flags := decoded.flags
    dictHash := "0x" ++ hexPadded 16 decoded.dictHash
    tailPtr := decoded.tailPtr
    keys := (decoded.keys.zip decoded.keySigils).map fun key => (key.1, sigilText key.2)
    recordCount := decoded.recordCount
    records := records
    dictHashOk := dictHashOk args })
  let w ← env.put w text
  let w ← env.put w "\n"
  .ok (⟨dictHashOk args, decoded.recordCount⟩, w)

end Inspect

end

/-! ## What one entry needs -/

/-- Neither the position of entry `i` nor the record whose offset stands in it overflows. -/
def EntryFits (d : Bytes) (start i : ℕ) : Prop :=
  start + i * 10 + 10 < 2 ^ 64 ∧ (start + i * 10 + 10 ≤ d.length → word d (start + i * 10 + 2) 8 + 8 < 2 ^ 64)

section Entry

variable {d : Bytes} {decoded : DecodedFile} {i : ℕ}

theorem tailEntry_eq (hd : d.length < 2 ^ 63) (h : decoded.tailStart + i * 10 + 10 < 2 ^ 64) :
    tailEntry d decoded i = .ok (if decoded.tailStart + i * 10 + 10 ≤ d.length
      then some (word d (decoded.tailStart + i * 10 + 2) 8) else none) := by
  rw [tailEntry, usizeMul_of (by omega), ok_bind, usizeAdd_of (by omega), ok_bind, usizeAdd_of h, ok_bind]
  by_cases hle : decoded.tailStart + i * 10 + 10 ≤ d.length
  · rw [if_neg (by omega), if_pos hle, getLE_word (by omega) hd, okOr_ok, ok_bind]
  · rw [if_pos (by omega), if_neg hle]

theorem recordOffset_eq (hd : d.length < 2 ^ 63) (hi : i < decoded.recordCount)
    (h : decoded.tailStart + i * 10 + 10 < 2 ^ 64) :
    Inspect.recordOffset d decoded i = if decoded.tailStart + i * 10 + 10 ≤ d.length
      then .ok (word d (decoded.tailStart + i * 10 + 2) 8) else .err .outOfBounds := by
  rw [Inspect.recordOffset, ensure_of (by omega), ok_bind, usizeMul_of (by omega), ok_bind, usizeAdd_of (by omega),
    ok_bind, usizeAdd_of (by omega), ok_bind]
  by_cases hle : decoded.tailStart + i * 10 + 10 ≤ d.length
  · rw [if_pos hle, getLE_word (by omega) hd, okOr_ok]
  · rw [if_neg hle, getLE, usizeAdd_of (by omega), ok_bind, getRange, if_neg (by omega), err_bind, okOr_err]

/-- An entry whose position overflows. -/
theorem recordOffset_overflow (hi : i < decoded.recordCount) (h : 2 ^ 64 ≤ decoded.tailStart + i * 10 + 10) :
    Inspect.recordOffset d decoded i = .panic := by
  rw [Inspect.recordOffset, ensure_of (by omega), ok_bind]
  unfold usizeMul
  by_cases hmul : i * 10 < 2 ^ 64
  · rw [if_pos hmul, ok_bind]
    unfold usizeAdd
    by_cases hentry : decoded.tailStart + i * 10 < 2 ^ 64
    · rw [if_pos hentry, ok_bind]
      by_cases hstart : decoded.tailStart + i * 10 + 2 < 2 ^ 64
      · rw [if_pos hstart, ok_bind, getLE, usizeAdd, if_neg (by omega), panic_bind, okOr_panic]
      · rw [if_neg hstart, panic_bind]
    · rw [if_neg hentry, panic_bind]
  · rw [if_neg hmul, panic_bind]

theorem recordFields_ok (hd : d.length < 2 ^ 63) {offset : ℕ} (h : offset + 8 < 2 ^ 64) :
    ∃ fields, recordFields d decoded offset = .ok fields := by
  refine orEmpty_of_safe ?_
  by_cases hle : offset ≤ d.length
  · exact safe_decodeObject (by omega) _ _ hle
  · rw [decodeRecordAt, decodeObject, usizeAdd_of h, ok_bind]
    exact safe_ensure_bind fun hbody => absurd hbody (by omega)

/-- A record whose header overflows. -/
theorem recordFields_overflow {offset : ℕ} (h : 2 ^ 64 ≤ offset + 8) : recordFields d decoded offset = .panic := by
  rw [recordFields, decodeRecordAt, decodeObject, usizeAdd, if_neg (by omega), panic_bind]
  rfl

/-- The loop over the records is safe where each entry fits and each visit is safe. -/
theorem safe_tailLoop {σ : Type} {visit : ℕ → ℕ → List (String × DecodedValue) → σ → Res σ}
    (hd : d.length < 2 ^ 63) (hvisit : ∀ i offset fields s, offset + 8 < 2 ^ 64 → Safe (visit i offset fields s) Any) :
    ∀ (n i : ℕ) (s : σ), (∀ j < i + n, EntryFits d decoded.tailStart j) → Safe (tailLoop d decoded visit n i s) Any
  | 0, _, _, _ => safe_ok trivial
  | n + 1, i, s, h => by
    obtain ⟨hentry, hoffset⟩ := h i (by omega)
    rw [tailLoop, tailEntry_eq hd hentry, ok_bind]
    by_cases hle : decoded.tailStart + i * 10 + 10 ≤ d.length
    · have hread : ∃ fields, recordFields d decoded (word d (decoded.tailStart + i * 10 + 2) 8) = .ok fields :=
        recordFields_ok hd (hoffset hle)
      obtain ⟨fields, hfields⟩ := hread
      rw [if_pos hle]
      dsimp only
      rw [hfields, ok_bind]
      refine (hvisit i _ fields s (hoffset hle)).bind fun s _ => ?_
      exact safe_tailLoop hd hvisit n (i + 1) s fun j hj => h j (by omega)
    · rw [if_neg hle]
      exact safe_ok trivial

end Entry

/-! ## The exporters -/

section Safety

variable {W : Type} {env : ExportEnv W}

theorem safe_ioResult {α : Type} (x : Except String α) : Safe (ioResult x) Any := by
  cases x with
  | ok a => exact trivial
  | error e => exact trivial

theorem safe_put (w : W) (text : String) : Safe (env.put w text) Any := safe_ioResult _

theorem safe_writeLines : ∀ (objs : List JsonObject) (n : ℕ) (w : W), Safe (JsonOut.writeLines env objs n w) Any
  | [], _, _ => safe_ok trivial
  | obj :: objs, n, w => by
    rw [JsonOut.writeLines]
    refine (safe_ioResult _).bind fun line _ => (safe_put w _).bind fun w _ => ?_
    exact safe_writeLines objs _ w

theorem safe_writeRecords (args : ExportArgs) (records : List JsonObject) (w : W) :
    Safe (JsonOut.writeRecords env args records w) Any := by
  rw [JsonOut.writeRecords]
  refine safe_if (fun _ => ?_) fun _ => ?_
  · exact (safe_writeLines records 0 w).bind fun _ _ => safe_ok trivial
  · exact (safe_ioResult _).bind fun text _ => (safe_put w _).bind fun _ _ => safe_ok trivial

section File

variable {d : Bytes} (hd : d.length < 2 ^ 63) {decoded : DecodedFile}
  (h : ∀ i < decoded.recordCount, EntryFits d decoded.tailStart i)

include hd h

theorem exportRecord_safe (base64 : Bytes → String) (mode : BinaryEncoding) {i : ℕ} (hi : i < decoded.recordCount) :
    Safe (JsonOut.exportRecord base64 mode d decoded i) Any := by
  obtain ⟨hentry, hoffset⟩ := h i hi
  rw [JsonOut.exportRecord, usizeMul_of (by omega), ok_bind, usizeAdd_of (by omega), ok_bind, usizeAdd_of hentry, ok_bind]
  refine safe_if (fun _ => safe_ok trivial) fun hle => ?_
  have hread : ∃ fields, recordFields d decoded (word d (decoded.tailStart + i * 10 + 2) 8) = .ok fields :=
    recordFields_ok hd (hoffset (by omega))
  obtain ⟨fields, hfields⟩ := hread
  rw [recordFields] at hfields
  rw [getLE_word (by omega) hd, okOr_ok, ok_bind, hfields]
  exact safe_ok trivial

theorem exportLoop_safe (base64 : Bytes → String) (mode : BinaryEncoding) : ∀ (n i : ℕ), i + n ≤ decoded.recordCount →
    Safe (JsonOut.exportLoop (JsonOut.exportRecord base64 mode d decoded) n i) Any
  | 0, _, _ => safe_ok trivial
  | n + 1, i, hn => by
    rw [JsonOut.exportLoop]
    refine (exportRecord_safe hd h base64 mode (by omega)).bind fun obj _ => ?_
    cases obj with
    | none => exact safe_ok trivial
    | some obj =>
      have hrest := exportLoop_safe base64 mode n (i + 1) (by omega)
      exact hrest.bind fun _ _ => safe_ok trivial

/-- The record that `--record-index` asks for. -/
theorem safe_recordOffset (i : ℕ) : Safe (Inspect.recordOffset d decoded i) fun offset => offset + 8 < 2 ^ 64 := by
  by_cases hi : i < decoded.recordCount
  · obtain ⟨hentry, hoffset⟩ := h i hi
    rw [recordOffset_eq hd hi hentry]
    exact safe_if (fun hle => safe_ok (hoffset hle)) fun _ => safe_err
  · rw [Inspect.recordOffset]
    exact safe_ensure_bind fun hlt => absurd hlt (by omega)

omit h in
theorem safe_recordFields {offset : ℕ} (hoffset : offset + 8 < 2 ^ 64) : Safe (recordFields d decoded offset) Any := by
  obtain ⟨fields, hfields⟩ := recordFields_ok hd hoffset
  exact Safe.of_eq_ok hfields trivial

end File

theorem safe_bitmaskBytes (d : Bytes) : ∀ (fuel pos : ℕ) (bytes : Bytes), Safe (Inspect.bitmaskBytes d fuel pos bytes) Any
  | 0, _, _ => safe_ok trivial
  | fuel + 1, pos, bytes => by
    rw [Inspect.bitmaskBytes]
    refine (safe_get d pos).bind fun b _ => ?_
    exact safe_if (fun _ => safe_bitmaskBytes d fuel (pos + 1) _) fun _ => safe_ok trivial

theorem safe_summarize (d : Bytes) {offset : ℕ} (h : offset + 8 < 2 ^ 64) (fields : List (String × DecodedValue))
    (records : List InspectedRecord) : Safe (Inspect.summarize d offset fields records) Any := by
  have hmask : Safe (Inspect.readObjectBitmaskHex d offset) Any := by
    rw [Inspect.readObjectBitmaskHex, usizeAdd_of h, ok_bind]
    rcases (safe_bitmaskBytes d 75 (offset + 8) []).cases with ⟨bytes, hbytes⟩ | ⟨e, hbytes⟩
    · rw [hbytes]
      exact trivial
    · rw [hbytes]
      exact trivial
  rw [Inspect.summarize]
  exact hmask.bind fun _ _ => safe_ok trivial

theorem toShow_le (args : InspectArgs) (decoded : DecodedFile) : Inspect.toShow args decoded ≤ decoded.recordCount :=
  Nat.min_le_right _ _

section File

variable {file : Slice} {decoded : DecodedFile} (hdec : decode file = .ok decoded)
  (h : ∀ i < decoded.recordCount, EntryFits file.bytes decoded.tailStart i)

include hdec h

theorem runTo_safe (hroom : decoded.recordCount * env.valueSize ≤ env.memory) (args : ExportArgs) (w : W) :
    Safe (JsonOut.runTo env args file w) Any := by
  rw [JsonOut.runTo, hdec, ok_bind, ExportEnv.vecWithCapacity, demand_of hroom, ok_bind]
  have hloop := exportLoop_safe file.small h env.base64 args.binary decoded.recordCount 0 (by omega)
  exact hloop.bind fun records _ => safe_writeRecords args records w

theorem csv_safe (args : ExportArgs) (w : W) : Safe (CsvOut.run env args file w) Any := by
  have hcolumns : Safe (CsvOut.columnOrder args decoded.keys) Any := by
    rw [CsvOut.columnOrder]
    split
    · exact trivial
    · split <;> exact trivial
  rw [CsvOut.run, hdec, ok_bind]
  refine hcolumns.bind fun columns _ => (safe_put w _).bind fun w _ => ?_
  refine safe_tailLoop file.small (fun i offset fields s _ => ?_) _ 0 _ fun j hj => h j (by omega)
  rw [CsvOut.writeRow]
  exact (safe_put _ _).bind fun _ _ => safe_ok trivial

theorem renderText_safe (args : InspectArgs) (w : W) : Safe (Inspect.renderText env args file w) Any := by
  have hheader : ∀ w : W, Safe ((Inspect.headerLines decoded).foldlM env.put w) Any := fun w =>
    safe_foldlM trivial fun w _ text _ => safe_put w text
  have hshow := toShow_le args decoded
  have hlines : ∀ w : W, Safe (Inspect.writeRecordLines env args file.bytes decoded w) Any := by
    intro w
    rw [Inspect.writeRecordLines]
    split
    · refine (safe_recordOffset file.small h _).bind fun offset hoffset => ?_
      exact (safe_recordFields file.small hoffset).bind fun fields _ => safe_put w _
    · exact safe_tailLoop file.small (fun _ _ _ w _ => safe_put w _) _ 0 _ fun j hj => h j (by omega)
  rw [Inspect.renderText, hdec, ok_bind]
  exact (hheader w).bind fun w _ => (hlines w).bind fun _ _ => safe_ok trivial

theorem renderJson_safe (args : InspectArgs) (w : W) : Safe (Inspect.renderJson env args file w) Any := by
  have hshow := toShow_le args decoded
  have hrecords : Safe (Inspect.reportRecords env args file.bytes decoded) Any := by
    rw [Inspect.reportRecords]
    split
    · refine (safe_recordOffset file.small h _).bind fun offset hoffset => ?_
      exact (safe_recordFields file.small hoffset).bind fun fields _ => safe_ok trivial
    · refine safe_tailLoop file.small (fun _ _ fields records hoffset => ?_) _ 0 _ fun j hj => h j (by omega)
      exact safe_summarize _ hoffset fields records
  rw [Inspect.renderJson, hdec, ok_bind]
  refine hrecords.bind fun records _ => (safe_ioResult _).bind fun text _ => ?_
  exact (safe_put w text).bind fun w _ => (safe_put w _).bind fun _ _ => safe_ok trivial

end File

end Safety

/-- Neither an exporter nor the inspector panics on a file, whatever its arguments are. -/
structure ExportsSafe {W : Type} (env : ExportEnv W) (w : W) (file : Slice) : Prop where
  json : ∀ args, Safe (JsonOut.runTo env args file w) Any
  csv : ∀ args, Safe (CsvOut.run env args file w) Any
  text : ∀ args, Safe (Inspect.renderText env args file w) Any
  report : ∀ args, Safe (Inspect.renderJson env args file w) Any

/-- The report on record `i` alone, which fails where the arithmetic on its entry does. -/
theorem entryFits_of_report {W : Type} {env : ExportEnv W} {w : W} {file : Slice} {decoded : DecodedFile}
    (hdec : decode file = .ok decoded) {i : ℕ} (hi : i < decoded.recordCount)
    (h : Safe (Inspect.renderJson env ⟨none, some i, false⟩ file w) Any) :
    EntryFits file.bytes decoded.tailStart i := by
  have hne := h.ne_panic
  rw [Inspect.renderJson, hdec, ok_bind, Inspect.reportRecords] at hne
  dsimp only at hne
  have hentry : decoded.tailStart + i * 10 + 10 < 2 ^ 64 := by
    by_contra hbig
    rw [recordOffset_overflow hi (by omega)] at hne
    exact hne rfl
  refine ⟨hentry, fun hle => ?_⟩
  by_contra hbig
  rw [recordOffset_eq file.small hi hentry, if_pos hle, ok_bind, recordFields_overflow (by omega)] at hne
  exact hne rfl

/-- The exporters and the inspector end in a value or in an error exactly when `decode` rejects the file, or the
allocator has room for the records that the file claims and the arithmetic on every entry fits in 64 bits. -/
theorem exports_safe_iff {W : Type} (env : ExportEnv W) (w : W) (file : Slice) :
    ExportsSafe env w file ↔ ∀ decoded, decode file = .ok decoded →
      decoded.recordCount * env.valueSize ≤ env.memory ∧
        ∀ i < decoded.recordCount, EntryFits file.bytes decoded.tailStart i := by
  constructor
  · intro h decoded hdec
    refine ⟨?_, fun i hi => entryFits_of_report hdec hi (h.report _)⟩
    have hne := (h.json ⟨false, false, none, .base64⟩).ne_panic
    rw [JsonOut.runTo, hdec, ok_bind, ExportEnv.vecWithCapacity, demand] at hne
    by_contra hbig
    rw [if_neg hbig] at hne
    exact hne rfl
  · intro h
    rcases decode_total file with ⟨decoded, hdec⟩ | ⟨e, hdec⟩
    · obtain ⟨hroom, hfits⟩ := h decoded hdec
      exact ⟨fun args => runTo_safe hdec hfits hroom args w, fun args => csv_safe hdec hfits args w,
        fun args => renderText_safe hdec hfits args w, fun args => renderJson_safe hdec hfits args w⟩
    · refine ⟨fun args => ?_, fun args => ?_, fun args => ?_, fun args => ?_⟩
      · rw [JsonOut.runTo, hdec]
        exact trivial
      · rw [CsvOut.run, hdec]
        exact trivial
      · rw [Inspect.renderText, hdec]
        exact trivial
      · rw [Inspect.renderJson, hdec]
        exact trivial

/-- A writer that accepts everything, with the largest allocation that there is. -/
def quietEnv : ExportEnv Unit where
  memory := 2 ^ 63 - 1
  valueSize := 32
  writeAll _ _ := .ok ()
  base64 _ := ""
  floatText _ := ""
  lineText _ := .ok ""
  arrayText _ := .ok ""
  prettyText _ := .ok ""
  reportText _ := .ok ""

/-- A row file whose one record is said to start at the last address, and a columnar file that claims 2⁵⁹ records. -/
theorem exports_not_safe : ∃ row columnar : Slice,
    (JsonOut.runTo quietEnv ⟨false, false, none, .base64⟩ row () = .panic ∧
      CsvOut.run quietEnv ⟨false, false, none, .base64⟩ row () = .panic ∧
      Inspect.renderText quietEnv ⟨none, none, false⟩ row () = .panic ∧
      Inspect.renderJson quietEnv ⟨none, none, false⟩ row () = .panic) ∧
    JsonOut.runTo quietEnv ⟨false, false, none, .base64⟩ columnar () = .panic ∧
    ¬ ExportsSafe quietEnv () row := by
  have hrow : Inspect.renderJson quietEnv ⟨none, none, false⟩
      ⟨leBytes 4 MAGIC_FILE ++ leBytes 2 0x0102 ++ leBytes 2 0 ++ leBytes 8 0 ++ leBytes 8 32 ++ leBytes 8 0 ++
        leBytes 4 1 ++ leBytes 2 0 ++ leBytes 8 (2 ^ 64 - 1) ++ leBytes 4 MAGIC_FOOTER, by decide⟩ () = .panic := by
    decide +kernel
  refine ⟨⟨leBytes 4 MAGIC_FILE ++ leBytes 2 0x0102 ++ leBytes 2 0 ++ leBytes 8 0 ++ leBytes 8 32 ++ leBytes 8 0 ++
      leBytes 4 1 ++ leBytes 2 0 ++ leBytes 8 (2 ^ 64 - 1) ++ leBytes 4 MAGIC_FOOTER, by decide⟩,
    ⟨leBytes 4 MAGIC_FILE ++ leBytes 2 0x0102 ++ leBytes 2 FLAG_COLUMNAR ++ leBytes 8 0 ++ leBytes 8 32 ++ leBytes 8 0 ++
      leBytes 8 32 ++ leBytes 8 (2 ^ 59) ++ leBytes 4 MAGIC_FOOTER, by decide⟩,
    ⟨by decide +kernel, by decide +kernel, by decide +kernel, hrow⟩, by decide +kernel, fun hsafe => ?_⟩
  exact (hsafe.report _).ne_panic hrow

end Nyxis
