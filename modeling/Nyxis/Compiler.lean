import Nyxis.Compact.Record
import Nyxis.Source
import Nyxis.Writer

/-!
# Compiler — the v1.2 compiler

`Compiler.compile` writes a list of parsed fields as a file with a single record.  Its schema has the
keys of all levels, in the order in which they are first met (`collectFields`).  An object holds the
values of its fields in source order, its offset table has their offsets in the same order, and its mask
has a bit for every slot of the dictionary in force: the schema's for the root, the object's own keys for
an object inside it.
-/

namespace Nyxis

open Lib Lib.Outcome

namespace Compiler

/-! ## Keys -/

def internKey (dict : List String) (key : String) : List String :=
  if key ∈ dict then dict else dict ++ [key]

mutual

/-- `collect_keys`: the dictionary after the keys of some fields, those inside their values included. -/
def collectFields : List Field → List String → List String
  | [], dict => dict
  | .mk key value :: fields, dict => collectFields fields (collectValue value (internKey dict key))

def collectValue : Value → List String → List String
  | .object fields, dict => collectFields fields dict
  | .list elems, dict => collectElems elems dict
  | _, dict => dict

def collectElems : List Value → List String → List String
  | [], dict => dict
  | v :: elems, dict => collectElems elems (collectValue v dict)

end

/-- `key_map` has the last index of a key. -/
def keySlot (dict : List String) (key : String) : Option ℕ :=
  if key ∈ dict then some (dict.length - 1 - dict.reverse.idxOf key) else none

/-! ## Objects -/

/-- The slot of a field and its value, which stands for a macro's when it is one. -/
def resolveField (dict : List String) (scope : List Field) (f : Field) : Res (ℕ × Value) := do
  let slot ← okOr (.ofOption (keySlot dict f.key)) (.parseError s!"key not in dict: {f.key}")
  let v ← resolveMacro scope f.value
  .ok (slot, v)

def buildBitmask (present : List ℕ) (totalKeys : ℕ) : Bytes :=
  if totalKeys = 0 then [0]
  else bitmaskBytes (fun i => present.any (· == i)) totalKeys (totalKeys + 1) 0

/-- Bytes before the values: magic number, length, mask and offset table. -/
def headerLen (n count : ℕ) : ℕ := 8 + bitmaskLen n + count * 2

/-- Where the values start. -/
def dataStart (n count : ℕ) : ℕ := headerLen n count + padLen 8 (headerLen n count)

/-- Where value `i` starts. -/
def valueStart (n : ℕ) (values : List Bytes) (i : ℕ) : ℕ :=
  dataStart n values.length + (values.take i).flatten.length

/-- The object over `n` keys with the given slots and values, offsets cast to `u16`. -/
def objectOf (n : ℕ) (slots : List ℕ) (values : List Bytes) : Bytes :=
  leBytes 4 MAGIC_OBJ ++ leBytes 4 (valueStart n values values.length) ++ buildBitmask slots n ++
    ((List.range values.length).map fun i => valueStart n values i % 65536).flatMap (leBytes 2) ++
    zeros (padLen 8 (headerLen n values.length)) ++ values.flatten

/-- The sigils of the slots: each is that of its value, a null's only until another value comes. -/
def slotSigils (n : ℕ) (resolved : List (ℕ × Value)) : List UInt8 :=
  resolved.foldl (fun sigils e => noteSigil sigils e.1 e.2.sigil) (List.replicate n 0)

/-- `encode_object`: what the compiler notes as sigils, and the object. -/
def encodeObject (encode : Value → Res Bytes) (dict : List String) (fields : List Field) :
    Res (List UInt8 × Bytes) := do
  let resolved ← fields.mapM (resolveField dict fields)
  let values ← resolved.mapM fun e => encode e.2
  .ok (slotSigils dict.length resolved, objectOf dict.length (resolved.map Prod.fst) values)

/-- One element of a list whose first one has the given sigil. -/
def encodeElem (encode : Value → Res Bytes) (sigil : UInt8) (v : Value) : Res Bytes := do
  ensure (v.sigil = sigil) .listTypeMismatch
  encode v

def encodeList (encode : Value → Res Bytes) : List Value → Res Bytes
  | [] => .ok (leBytes 4 MAGIC_LIST ++ leBytes 4 16 ++ [0] ++ leBytes 4 0 ++ zeros 3)
  | v :: elems => do
    let bufs ← (v :: elems).mapM (encodeElem encode v.sigil)
    .ok (leBytes 4 MAGIC_LIST ++ leBytes 4 (16 + bufs.flatten.length) ++ [v.sigil] ++
      leBytes 4 bufs.length ++ zeros 3 ++ bufs.flatten)

/-- The first argument is the room on the stack, in nested calls: where it runs out, the program dies. -/
def encodeValue : ℕ → Value → Res Bytes
  | 0, _ => .panic
  | stack + 1, v =>
    match v with
    | .int n => .ok (i64Bytes n)
    | .float f => .ok (f64Bytes f)
    | .bool b => .ok ((if b then 1 else 0) :: zeros 7)
    | .keyword _ => .err .unsupportedFieldType
    | .str s => .ok (padTo 8 (leBytes 4 (utf8 s).length ++ utf8 s))
    | .time ns => .ok (i64Bytes ns)
    | .binary raw => .ok (padTo 8 (leBytes 4 raw.length ++ raw))
    | .link off => .ok (leBytes 4 off.toUInt32.toNat ++ zeros 4)
    -- a null has a bit and an offset and no bytes
    | .null => .ok []
    -- an object inside another one has the slots of a dictionary of its own
    | .object fields => Prod.snd <$> encodeObject (encodeValue stack) (fields.map Field.key) fields
    | .list elems => encodeList (encodeValue stack) elems
    | .expr _ => .err (.macroUnresolved "unresolved macro in encode")

/-! ## Files -/

/-- The tail-index of the only record. -/
def encodeTailIndex (dataSectorStart tailPtr : ℕ) : Bytes :=
  leBytes 4 1 ++ leBytes 2 0 ++ leBytes 8 dataSectorStart ++ leBytes 8 tailPtr ++ leBytes 4 MAGIC_FOOTER

/-- The object of the top-level fields, and the sigils of their slots. -/
def encodeRoot (stack : ℕ) (fields : List Field) : Res (List UInt8 × Bytes) :=
  encodeObject (encodeValue stack) (collectFields fields []) fields

def compile (stack : ℕ) (fields : List Field) : Res Slice := do
  let (sigils, root) ← encodeRoot stack fields
  let schemaBytes := buildSchema (collectFields fields []) sigils
  let start := 32 + schemaBytes.length
  NxsWriter.sealRow VERSION FLAG_SCHEMA_EMBEDDED schemaBytes root
    (encodeTailIndex start (start + root.length))

end Compiler

end Nyxis
