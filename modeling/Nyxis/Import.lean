import Nyxis.Calls
import Nyxis.Source

/-!
# Import — from JSON and CSV to a row file

An import reads its input twice.  The first pass observes the text of every value and infers a sigil for
each key; the second pass writes every value under the sigil of its key.

* `KeyState.observe`, `KeyState.resolveSigil`, `merge`, `finalize`: `convert/infer.rs`.
* `JsonIn`: `convert/json_in.rs`, over the value that `serde_json` parses.
* `CsvIn`: `convert/csv_in.rs`, over the rows that the `csv` crate splits.
-/

namespace Nyxis

open Lib Lib.Outcome

/-! ## Texts of bytes -/

def hexDigitValue (b : UInt8) : Option ℕ :=
  let n := b.toNat
  if 48 ≤ n ∧ n ≤ 57 then some (n - 48)
  else if 97 ≤ n ∧ n ≤ 102 then some (n - 87)
  else if 65 ≤ n ∧ n ≤ 70 then some (n - 55)
  else none

/-- `u8::from_str_radix` of two bytes in base 16; a plus sign in front is allowed. -/
def parseHexByte (a b : UInt8) : Option UInt8 :=
  if a = 0x2B then (hexDigitValue b).map UInt8.ofNat
  else do
    let hi ← hexDigitValue a
    let lo ← hexDigitValue b
    some (UInt8.ofNat (16 * hi + lo))

/-- A character of the text starts at this byte, or the text is at its end. -/
def charBoundary : Bytes → Bool
  | [] => true
  | b :: _ => b < 0x80 || 0xC0 ≤ b

/-- The bytes of the pairs of a text of even length.  A pair is sliced off the text, which panics inside
a character. -/
def hexBytes : Bytes → Opt Bytes
  | a :: b :: rest => do
    demand (charBoundary rest = true)
    let x ← match parseHexByte a b with
      | some x => .ok x
      | none => none'
    let xs ← hexBytes rest
    .ok (x :: xs)
  | _ => .ok []

/-! ## Inference -/

inductive ConflictPolicy where
  | error
  | coerceString
  | firstWins
  deriving DecidableEq, Repr

/-- What was observed of a key. -/
structure KeyState where
  seenInt : Bool
  seenFloat : Bool
  seenBool : Bool
  seenTime : Bool
  seenBinaryHex : Bool
  seenString : Bool
  seenNull : Bool
  totalRecordsSeenIn : ℕ
  presentCount : ℕ
  firstSigil : Option UInt8
  deriving DecidableEq, Repr

def KeyState.new : KeyState := ⟨false, false, false, false, false, false, false, 0, 0, none⟩

/-- The separators, digits and letters of a date. -/
def isTimeLike (s : String) : Bool :=
  if (utf8 s).length < 8 then false
  else if !(s.toList.contains '-' || s.toList.contains 'T') then false
  else s.toList.all fun c => c.isDigit || c ∈ ['-', ':', 'T', 'Z', '+', '.']

def isHexDigit (c : Char) : Bool := c.isDigit || ('a' ≤ c && c ≤ 'f') || ('A' ≤ c && c ≤ 'F')

def isHexLike (s : String) : Bool :=
  16 ≤ (utf8 s).length && (utf8 s).length % 2 == 0 && s.toList.all isHexDigit

namespace KeyState

/-- `first_sigil.get_or_insert`. -/
def first (state : KeyState) (sigil : UInt8) : Option UInt8 := some (state.firstSigil.getD sigil)

/-- Classify a text; a text that fits several types is of the first of them. -/
def observe (state : KeyState) (raw : String) : KeyState :=
  let state := { state with totalRecordsSeenIn := state.totalRecordsSeenIn + 1 }
  if raw = "" then { state with seenNull := true }
  else
    let state := { state with presentCount := state.presentCount + 1 }
    if (parseI64 raw.toList).isSome then { state with seenInt := true, firstSigil := state.first SIGIL_INT }
    else if (parseF64 raw.toList).isSome then { state with seenFloat := true, firstSigil := state.first SIGIL_FLOAT }
    else if raw = "true" ∨ raw = "false" then
      { state with seenBool := true, firstSigil := state.first SIGIL_BOOL }
    else if isTimeLike raw then { state with seenTime := true, firstSigil := state.first SIGIL_TIME }
    else if isHexLike raw then { state with seenBinaryHex := true, firstSigil := state.first SIGIL_BINARY }
    else { state with seenString := true, firstSigil := state.first SIGIL_STR }

/-- The number of types among the non-empty texts. -/
def typeCount (state : KeyState) : ℕ :=
  [state.seenInt, state.seenFloat, state.seenBool, state.seenTime, state.seenBinaryHex,
    state.seenString].countP id

def resolveSigil (state : KeyState) (policy : ConflictPolicy) : Res UInt8 :=
  if 1 < state.typeCount then
    match policy with
    | .error => .err (.convertSchemaConflict "mixed types observed for key")
    | .coerceString => .ok SIGIL_STR
    | .firstWins => .ok (state.firstSigil.getD SIGIL_STR)
  else if state.seenString then .ok SIGIL_STR
  else if state.seenInt then .ok SIGIL_INT
  else if state.seenFloat then .ok SIGIL_FLOAT
  else if state.seenBool then .ok SIGIL_BOOL
  else if state.seenTime then .ok SIGIL_TIME
  else if state.seenBinaryHex then .ok SIGIL_BINARY
  else .ok SIGIL_NULL

end KeyState

structure InferredKey where
  name : String
  sigil : UInt8
  optional : Bool
  listOf : Option UInt8
  deriving DecidableEq, Repr

/-- The keys and, in parallel, what was observed of them. -/
structure InferredSchema where
  keys : List InferredKey
  keyStates : List KeyState
  totalRecords : ℕ
  deriving DecidableEq, Repr

namespace InferredSchema

def new : InferredSchema := ⟨[], [], 0⟩

def names (schema : InferredSchema) : List String := schema.keys.map InferredKey.name

/-- `keys.iter().position(..)`. -/
def position (schema : InferredSchema) (key : String) : Option ℕ :=
  schema.keys.findIdx? fun k => k.name == key

/-- Observe one field of a record. -/
def observeField (acc : InferredSchema) (field : String × String) : InferredSchema :=
  match acc.position field.1 with
  | some i => { acc with keyStates := acc.keyStates.modify i fun state => state.observe field.2 }
  | none =>
    { acc with
      keys := acc.keys ++ [⟨field.1, 0, false, none⟩]
      keyStates := acc.keyStates ++ [KeyState.new.observe field.2] }

/-- Observe the fields of a record. -/
def merge (acc : InferredSchema) (record : List (String × String)) : InferredSchema :=
  let acc := record.foldl observeField acc
  { acc with totalRecords := acc.totalRecords + 1 }

/-- Resolve the sigil of every key. -/
def finalize (acc : InferredSchema) (policy : ConflictPolicy) : Res InferredSchema := do
  let keys ← (acc.keys.zip acc.keyStates).mapM fun (key, state) => do
    let sigil ← state.resolveSigil policy
    .ok { key with sigil := sigil, optional := decide (state.presentCount < acc.totalRecords) }
  .ok { acc with keys := keys ++ acc.keys.drop acc.keyStates.length }

end InferredSchema

/-! ## Emission -/

structure ImportArgs where
  conflict : ConflictPolicy
  csvNoHeader : Bool
  maxDepth : ℕ
  deriving DecidableEq, Repr

structure ImportReport where
  recordsWritten : ℕ
  outputBytes : ℕ
  deriving DecidableEq, Repr

/-- What a text is written as under a sigil; a text that does not fit is not written. -/
def valueArg (sigil : UInt8) (value : String) : Res (Option Arg) :=
  if sigil = SIGIL_INT then .ok ((parseI64 value.toList).map .i64)
  else if sigil = SIGIL_FLOAT then .ok ((parseF64 value.toList).map .f64)
  else if sigil = SIGIL_BOOL then .ok (some (.bool (value = "true")))
  else if sigil = SIGIL_TIME then .ok ((parseI64 value.toList).map .time)
  else if sigil = SIGIL_BINARY then
    if (utf8 value).length % 2 = 0 then
      match hexBytes (utf8 value) with
      | .ok bytes => .ok (some (.bytes bytes))
      | .err _ => .ok none
      | .panic => .panic
    else .ok none
  else if sigil = SIGIL_NULL then .ok none
  else .ok (some (.str value))

namespace InferredSchema

/-- The write of a field, if there is one; `skip` tells the fields that are passed over.  Slots are `u16`. -/
def fieldCall (schema : InferredSchema) (skip : String → Bool) (field : String × String) :
    Res (Option Call) :=
  match schema.position field.1 with
  | none => .ok none
  | some idx =>
    if skip field.2 then .ok none
    else do
      let sigil := (schema.keys[idx]?.map InferredKey.sigil).getD SIGIL_STR
      let arg ← valueArg sigil field.2
      .ok (arg.map fun arg => ⟨idx % 65536, arg⟩)

def emitField (schema : InferredSchema) (skip : String → Bool) (w : NxsWriter) (field : String × String) :
    Res NxsWriter := do
  let call ← schema.fieldCall skip field
  match call with
  | some call => w.write call
  | none => .ok w

/-- One object with the fields of a record. -/
def emitRecord (schema : InferredSchema) (skip : String → Bool) (sorter : SlotSort) (w : NxsWriter)
    (fields : List (String × String)) : Res NxsWriter := do
  let w ← fields.foldlM (schema.emitField skip) w.beginObject
  w.endObjectBy sorter

end InferredSchema

/-- The bytes of the file, and the report on them. -/
def finishImport (w : NxsWriter) (recordsWritten : ℕ) : Res (Slice × ImportReport) := do
  let file ← w.finish
  .ok (file, ⟨recordsWritten, file.bytes.length⟩)

/-! ## JSON -/

/-- `serde_json::Number`. -/
inductive JsonNumber where
  | posInt (n : UInt64)
  | negInt (n : Int64)
  | float (v : F64)
  deriving DecidableEq, Repr

/-- A parsed JSON value; the fields of an object come in the order of its map. -/
inductive JsonValue where
  | null
  | bool (b : Bool)
  | number (n : JsonNumber)
  | string (s : String)
  | array (items : List JsonValue)
  | object (fields : List (String × JsonValue))
  deriving Repr

namespace JsonIn

section

-- how `serde_json` writes a float
variable (floatText : F64 → String)

def numberText : JsonNumber → String
  | .posInt n => toString n.toNat
  | .negInt n => toString n.toInt
  | .float v => floatText v

/-- A level of nesting, if it is within the limit. -/
def atDepth {α : Type} (depthLimit depth : ℕ) (x : Res α) : Res α :=
  if depth > depthLimit then .err .convertDepthExceeded else x

mutual

/-- The fields of an object with their texts. -/
def flattenFields (depthLimit : ℕ) : List (String × JsonValue) → ℕ → Res (List (String × String))
  | [], _ => .ok []
  | (k, v) :: rest, depth => do
    let here ← flattenField depthLimit k v depth
    let rest ← flattenFields depthLimit rest depth
    .ok (here ++ rest)

/-- One field; the fields of an object in it get its key in front. -/
def flattenField (depthLimit : ℕ) (k : String) : JsonValue → ℕ → Res (List (String × String))
  | .null, _ => .ok [(k, "")]
  | .bool b, _ => .ok [(k, if b then "true" else "false")]
  | .number n, _ => .ok [(k, numberText floatText n)]
  | .string s, _ => .ok [(k, s)]
  | .array _, _ => .ok [(k, "")]
  | .object fields, depth => do
    let nested ← atDepth depthLimit (depth + 1) (flattenFields depthLimit fields (depth + 1))
    .ok (nested.map fun e => (k ++ "." ++ e.1, e.2))

end

/-- The fields of a record; anything but an object has none. -/
def flattenObject (depthLimit : ℕ) (v : JsonValue) (depth : ℕ) : Res (List (String × String)) :=
  atDepth depthLimit depth <|
    match v with
    | .object fields => flattenFields floatText depthLimit fields depth
    | _ => .ok []

/-- The schema of the records of a JSON array. -/
def inferSchema (root : JsonValue) (args : ImportArgs) : Res InferredSchema :=
  match root with
  | .array records => do
    let acc ← records.foldlM (fun acc record => do
      let kv ← flattenObject floatText args.maxDepth record 0
      .ok (InferredSchema.merge acc kv)) InferredSchema.new
    acc.finalize args.conflict
  | _ => .err (.convertParseError 0 "JSON root is not an array; use --root $.data for nested arrays")

/-- The file of the records of a JSON array. -/
def emit (sorter : SlotSort) (root : JsonValue) (schema : InferredSchema) (args : ImportArgs) :
    Res (Slice × ImportReport) :=
  match root with
  | .array records => do
    let w ← records.foldlM (fun w record => do
      let kv ← flattenObject floatText args.maxDepth record 0
      schema.emitRecord (fun _ => false) sorter w kv) (NxsWriter.new schema.names)
    finishImport w records.length
  | _ => .err (.convertParseError 0 "JSON root is not an array")

/-- Both passes over the same input. -/
def importFile (sorter : SlotSort) (root : JsonValue) (args : ImportArgs) : Res (Slice × ImportReport) := do
  let schema ← inferSchema floatText root args
  emit floatText sorter root schema args

end

end JsonIn

/-! ## CSV -/

namespace CsvIn

/-- The names of columns without a header. -/
def positionalKeys (n : ℕ) : List String := (List.range n).map fun i => s!"col_{i}"

/-- The schema of the rows; without a header the first row says how many columns there are. -/
def inferSchema (headers : List String) (rows : List (List String)) (args : ImportArgs) : Res InferredSchema :=
  let keys := if args.csvNoHeader then positionalKeys (rows.headD []).length else headers
  (rows.foldl (fun acc row => InferredSchema.merge acc (keys.zip row)) InferredSchema.new).finalize args.conflict

/-- The file of the rows; an empty cell is passed over. -/
def emit (sorter : SlotSort) (headers : List String) (rows : List (List String)) (schema : InferredSchema)
    (args : ImportArgs) : Res (Slice × ImportReport) := do
  let headers := if args.csvNoHeader then positionalKeys schema.keys.length else headers
  let w ← rows.foldlM (fun w row => schema.emitRecord (fun value => value.isEmpty) sorter w (headers.zip row))
    (NxsWriter.new schema.names)
  finishImport w rows.length

end CsvIn

end Nyxis
