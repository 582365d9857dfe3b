import Nyxis.Object
import Nyxis.Reader

/-!
# Decoder — decoding files and objects into values

`decode` reads the header, the schema and the record count of a file, `decodeObject` the fields of one
v1.2 object.  A value is decoded by the sigil of its slot, unless its first four bytes are the magic
number of an object or of a list.

* `decodeObject_objectBytes`: the fields of an object that the writer wrote.
-/

namespace Nyxis

open Lib Lib.Outcome

inductive DecodedValue where
  | int (v : Int64)
  | float (v : F64)
  | bool (v : Bool)
  | str (s : String)
  | time (v : Int64)
  | binary (b : Bytes)
  | null
  | list (items : List DecodedValue)
  | raw (b : Bytes)
  deriving Repr

/-! ## Text -/

/-- How many bytes the first one announces, itself included; 0 for a byte that starts no character. -/
def utf8SeqLen (b : UInt8) : ℕ :=
  if b < 0x80 then 1
  else if 0xC2 ≤ b ∧ b ≤ 0xDF then 2
  else if 0xE0 ≤ b ∧ b ≤ 0xEF then 3
  else if 0xF0 ≤ b ∧ b ≤ 0xF4 then 4
  else 0

/-- The second byte may follow the first. -/
def utf8Second (b c : UInt8) : Bool :=
  let lo := if b = 0xE0 then 0xA0 else if b = 0xF0 then 0x90 else 0x80
  let hi := if b = 0xED then 0x9F else if b = 0xF4 then 0x8F else 0xBF
  decide (lo ≤ c ∧ c ≤ hi)

/-- The bytes at the front of `b :: rest` that start a character. -/
def utf8Prefix (b : UInt8) (rest : Bytes) : Bytes :=
  let n := utf8SeqLen b
  match rest.take (n - 1) with
  | [] => [b]
  | c :: more =>
    if utf8Second b c then b :: c :: more.takeWhile fun x => decide (0x80 ≤ x ∧ x ≤ 0xBF) else [b]

/-- Text with U+FFFD for each maximal sequence of bytes that is not part of a character; the first
argument bounds the number of characters. -/
def lossyLoop : ℕ → Bytes → String
  | _, [] => ""
  | 0, _ :: _ => ""
  | fuel + 1, b :: rest =>
    let seq := utf8Prefix b rest
    let head := match fromUtf8 seq with
      | .ok s => s
      | _ => "\uFFFD"
    head ++ lossyLoop fuel ((b :: rest).drop seq.length)

/-- `String::from_utf8_lossy`. -/
def fromUtf8Lossy (l : Bytes) : String :=
  match fromUtf8 l with
  | .ok s => s
  | _ => lossyLoop l.length l

@[simp] theorem fromUtf8Lossy_utf8 (s : String) : fromUtf8Lossy (utf8 s) = s := by
  rw [fromUtf8Lossy, fromUtf8_utf8]

/-! ## Values -/

/-- The eight bytes at `offset`, as a number. -/
def word8 (d : Bytes) (offset : ℕ) : Res ℕ := do
  let stop ← usizeAdd offset 8
  ensure (¬ stop > d.length) .outOfBounds
  readLE d offset 8

/-- The length-prefixed bytes at `offset`, with the start of the bytes. -/
def prefixLen (d : Bytes) (offset : ℕ) : Res ℕ := do
  let stop ← usizeAdd offset 4
  ensure (¬ stop > d.length) .outOfBounds
  readLE d offset 4

/-- Maximum number of link hops. -/
def MAX_LINK_DEPTH : ℕ := 16

/-- A value whose sigil says nothing: eight bytes as an integer where there are as many. -/
def decodeUntyped (d : Bytes) (offset : ℕ) : Res DecodedValue := do
  let stop ← usizeAdd offset 8
  if stop ≤ d.length then do
    let n ← readLE d offset 8
    .ok (.int (i64Of n))
  else do
    let bytes ← range d offset d.length
    .ok (.raw bytes)

/-- Where the link at `offset` leads, followed at `depth`. -/
def linkTarget (d : Bytes) (depth offset : ℕ) : Res ℕ := do
  ensure (¬ offset ≥ d.length) .outOfBounds
  ensure (¬ depth ≥ MAX_LINK_DEPTH) .circularLink
  let target ← word8 d offset
  ensure (target ≠ offset) .circularLink
  .ok target

/-- A link is followed as a link again, so that a chain of them ends in an error.  The first argument
is the room on the stack, in nested calls: where it runs out, the program dies. -/
def decodeLink (d : Bytes) : ℕ → ℕ → ℕ → Res DecodedValue
  | 0, _, _ => .panic
  | stack + 1, depth, offset => do
    let target ← linkTarget d depth offset
    decodeLink d stack (depth + 1) target

/-- One element of a list. -/
def decodeListItem (d : Bytes) (sigil : UInt8) (offset : ℕ) : Res DecodedValue := do
  let stop ← usizeAdd offset 8
  ensure (¬ stop > d.length) .outOfBounds
  if sigil = SIGIL_INT then do
    let n ← readLE d offset 8
    .ok (.int (i64Of n))
  else if sigil = SIGIL_FLOAT then do
    let n ← readLE d offset 8
    .ok (.float (f64Of n))
  else do
    let bytes ← range d offset stop
    .ok (.raw bytes)

def decodeList (d : Bytes) (offset : ℕ) : Res DecodedValue := do
  let dataStart ← usizeAdd offset 16
  ensure (¬ dataStart > d.length) .outOfBounds
  let magic ← readLE d offset 4
  ensure (magic = MAGIC_LIST) .badMagic
  let sigilAt ← usizeAdd offset 8
  let sigil ← index d sigilAt
  let countAt ← usizeAdd offset 9
  let count ← readLE d countAt 4
  ensure (¬ count > (d.length - dataStart) / 8) .outOfBounds -- `saturating_sub`
  let items ← (List.range count).mapM fun i => do
    let rel ← usizeMul i 8
    let item ← usizeAdd dataStart rel
    decodeListItem d sigil item
  .ok (.list items)

/-- The value at `offset` by its sigil alone. -/
def decodeTyped (d : Bytes) (offset : ℕ) (sigil : UInt8) : Res DecodedValue :=
  if sigil = SIGIL_NULL then .ok .null
  else if sigil = SIGIL_INT then do
    let n ← word8 d offset
    .ok (.int (i64Of n))
  else if sigil = SIGIL_FLOAT then do
    let n ← word8 d offset
    .ok (.float (f64Of n))
  else if sigil = SIGIL_BOOL then do
    let b ← index d offset
    .ok (.bool (b != 0))
  else if sigil = SIGIL_STR then do
    let len ← prefixLen d offset
    let start ← usizeAdd offset 4
    let stop ← usizeAdd start len
    if len > 1024 * 1024 ∨ stop > d.length then decodeUntyped d offset
    else do
      let bytes ← range d start stop
      .ok (.str (fromUtf8Lossy bytes))
  else if sigil = SIGIL_TIME then do
    let n ← word8 d offset
    .ok (.time (i64Of n))
  else if sigil = SIGIL_BINARY then do
    let len ← prefixLen d offset
    let start ← usizeAdd offset 4
    let stop ← usizeAdd start len
    ensure (¬ stop > d.length) .outOfBounds
    let bytes ← range d start stop
    .ok (.binary bytes)
  else decodeUntyped d offset

/-- The four bytes at `offset`, where there are as many. -/
def peekMagic (d : Bytes) (offset : ℕ) : Res ℕ := do
  let stop ← usizeAdd offset 4
  if stop ≤ d.length then readLE d offset 4 else .ok 0

def decodeValueAt (d : Bytes) (offset : ℕ) (sigil : UInt8) : Res DecodedValue :=
  if sigil = SIGIL_LINK then decodeLink d (MAX_LINK_DEPTH + 1) 0 offset
  else do
    ensure (¬ offset ≥ d.length) .outOfBounds
    let magic ← peekMagic d offset
    if magic = MAGIC_OBJ then do
      let left ← usizeSub d.length offset
      let stop ← usizeAdd offset (min 8 left)
      let bytes ← range d offset stop
      .ok (.raw bytes)
    else if magic = MAGIC_LIST then decodeList d offset
    else decodeTyped d offset sigil

/-! ## Objects -/

/-- The bits of the presence mask at `pos`, behind those read so far, and where it ends.  The first
argument bounds the number of mask bytes. -/
def readMask (d : Bytes) : ℕ → ℕ → List Bool → Opt (List Bool × ℕ)
  | 0, _, _ => none'
  | fuel + 1, pos, bits => do
    let byte ← get d pos
    let bits := bits ++ (List.range 7).map fun bit => byte.toNat.testBit bit
    if moreMask byte then readMask d fuel (pos + 1) bits else .ok (bits, pos + 1)

/-- The slots whose bit is set. -/
def presentSlots (bits : List Bool) : List ℕ := (List.range bits.length).filter fun i => bits.getD i false

/-- Entry `i` of the offset table at `pos`. -/
def readOffset (d : Bytes) (offset pos i : ℕ) : Res ℕ := do
  let rel ← usizeMul i 2
  let entry ← usizeAdd pos rel
  let stop ← usizeAdd entry 2
  ensure (¬ stop > d.length) .outOfBounds
  let off ← readLE d entry 2
  usizeAdd offset off

/-- The field of a slot, its value at `offset`. -/
def decodeField (d : Bytes) (keys : List String) (sigils : List UInt8) (field : ℕ × ℕ) :
    Res (String × DecodedValue) := do
  let value ← decodeValueAt d field.2 (sigils.getD field.1 0)
  .ok (keys.getD field.1 s!"key_{field.1}", value)

def decodeObject (d : Bytes) (offset : ℕ) (keys : List String) (sigils : List UInt8) :
    Res (List (String × DecodedValue)) := do
  let body ← usizeAdd offset 8
  ensure (¬ body > d.length) .outOfBounds
  let magic ← readLE d offset 4
  ensure (magic = MAGIC_OBJ) .badMagic
  -- a 75th byte would come behind 518 bits, and 512 are the limit
  let (bits, pos) ← okOr (readMask d 74 body []) .outOfBounds
  let slots := presentSlots bits
  ensure (¬ slots.length > 512) .outOfBounds
  let offsets ← (List.range slots.length).mapM (readOffset d offset pos)
  (slots.zip offsets).mapM (decodeField d keys sigils)

def decodeRecordAt (d : Bytes) (offset : ℕ) (keys : List String) (sigils : List UInt8) :
    Res (List (String × DecodedValue)) :=
  decodeObject d offset keys sigils

/-! ## Files -/

structure DecodedFile where
  version : ℕ
  flags : ℕ
  dictHash : ℕ
  tailPtr : ℕ
  keys : List String
  keySigils : List UInt8
  rootFields : List (String × DecodedValue)
  recordCount : ℕ
  tailStart : ℕ
  dataSectorStart : ℕ
  deriving Repr

/-- `n` key names from `pos` on. -/
def decodeNames (d : Bytes) : ℕ → ℕ → Res (List String × ℕ)
  | 0, pos => .ok ([], pos)
  | n + 1, pos => do
    let len := nonNul (d.drop pos)
    ensure (¬ len > 257) .outOfBounds
    let stop ← usizeAdd pos len
    let bytes ← range d pos stop
    ensure (¬ stop ≥ d.length) .outOfBounds
    let next ← usizeAdd stop 1
    let (names, pos) ← decodeNames d n next
    .ok (fromUtf8Lossy bytes :: names, pos)

/-- Keys, sigils and end of a v1.2 schema header. -/
def decodeBasicSchema (d : Bytes) (pos : ℕ) : Res (List String × List UInt8 × ℕ) := do
  let keyCount ← readLE d pos 2
  ensure (¬ keyCount > 256) .outOfBounds
  let start ← usizeAdd pos 2
  let stop ← okOr (checkedAdd start keyCount) .outOfBounds
  ensure (¬ stop > d.length) .outOfBounds
  let sigils ← range d start stop
  let (names, pos) ← decodeNames d keyCount stop
  ensure (¬ align8 pos > d.length) .outOfBounds
  .ok (names, sigils, align8 pos)

/-- Keys, sigils and end of a schema header, v1.3 or v1.2. -/
def decodeHeader (d : Bytes) (flags : ℕ) : Res (List String × List UInt8 × ℕ) :=
  if hasFlag flags FLAG_V13_COMPACT_MASK then do
    let (ext, stop) ← parseExtendedSchema d 32 flags
    .ok (ext.keys, ext.sigils, stop)
  else decodeBasicSchema d 32

/-- Keys, sigils and end of the embedded schema, whose hash must be that of the preamble. -/
def decodeSchema (d : Bytes) (flags dictHash : ℕ) : Res (List String × List UInt8 × ℕ) :=
  if hasFlag flags FLAG_SCHEMA_EMBEDDED = true ∧ 32 + 2 ≤ d.length then do
    let (keys, sigils, stop) ← decodeHeader d flags
    ensure (¬ (stop > d.length ∨ 32 > stop)) .outOfBounds
    let schema ← range d 32 stop
    ensure ((murmur3_64 schema).toNat = dictHash) .dictMismatch
    .ok (keys, sigils, stop)
  else .ok ([], [], 32)

/-- Where the tail-index is. -/
def decodeTailPtr (d : Bytes) (flags preambleTail : ℕ) : Res ℕ :=
  if hasFlag flags (FLAG_COLUMNAR ||| FLAG_PAX) then do
    ensure (¬ d.length < footerSize flags) .outOfBounds
    let fo ← usizeSub d.length (footerSize flags)
    readLE d fo 8
  else if preambleTail = 0 then do
    ensure (¬ d.length < 44) .outOfBounds
    let fo ← usizeSub d.length 12
    readLE d fo 8
  else .ok preambleTail

/-- The record count of a v1.2 tail-index, 0 where it is out of reach. -/
def decodeRecordCount (d : Bytes) (tailPtr : ℕ) : Res ℕ :=
  if min (tailPtr + 4) (2 ^ 64 - 1) ≤ d.length then readLE d tailPtr 4 else .ok 0

/-- The record count and where the entries of the tail-index start. -/
def decodeTail (d : Bytes) (flags tailPtr : ℕ) : Res (ℕ × ℕ) :=
  if hasFlag flags (FLAG_COLUMNAR ||| FLAG_PAX) then do
    let fo ← usizeSub d.length (footerSize flags)
    let countAt ← usizeAdd fo 8
    let recordCount ← readLE d countAt 8
    .ok (recordCount, tailPtr)
  else if hasFlag flags FLAG_DELTA_TAIL then do
    let layout ← parseDeltaTailLayout d tailPtr
    .ok (layout.recordCount, tailPtr)
  else do
    let recordCount ← decodeRecordCount d tailPtr
    .ok (recordCount, min (tailPtr + 4) (2 ^ 64 - 1)) -- `saturating_add`

/-- `unwrap_or_default()` of a list. -/
def orEmpty {α : Type} : Res (List α) → Res (List α)
  | .err _ => .ok []
  | x => x

/-- The data sector of a PAX file starts with a page. -/
def checkPageMagic (d : Bytes) (flags start : ℕ) : Res Unit :=
  if hasFlag flags FLAG_PAX then do
    let magicEnd ← usizeAdd start 4
    ensure (¬ magicEnd > d.length) .outOfBounds
    let magic ← readLE d start 4
    ensure (magic = MAGIC_PAGE) .invalidPageMagic
  else .ok ()

/-- The fields of the first object, none where they cannot be decoded. -/
def decodeRoot (d : Bytes) (flags start : ℕ) (keys : List String) (sigils : List UInt8) :
    Res (List (String × DecodedValue)) :=
  if hasFlag flags FLAG_PAX = false ∧ start < d.length then orEmpty (decodeObject d start keys sigils)
  else .ok []

def decode (file : Slice) : Res DecodedFile := do
  let d := file.bytes
  ensure (¬ d.length < 32) .outOfBounds
  let magic ← readLE d 0 4
  ensure (magic = MAGIC_FILE) .badMagic
  let footerAt ← usizeSub d.length 4
  let footer ← readLE d footerAt 4
  ensure (footer = MAGIC_FOOTER) .badMagic
  let version ← readLE d 4 2
  let flags ← readLE d 6 2
  ensure (¬ (hasFlag flags FLAG_COLUMNAR = true ∧ hasFlag flags FLAG_PAX = true)) .invalidFlags
  let dictHash ← readLE d 8 8
  let preambleTail ← readLE d 16 8
  ensure (¬ (hasFlag flags FLAG_COLUMNAR = true ∧ preambleTail = 0)) .incompatibleFlags
  let tailPtr ← decodeTailPtr d flags preambleTail
  let (keys, sigils, start) ← decodeSchema d flags dictHash
  checkPageMagic d flags start
  let rootFields ← decodeRoot d flags start keys sigils
  let (recordCount, tailStart) ← decodeTail d flags tailPtr
  .ok ⟨version, flags, dictHash, tailPtr, keys, sigils, rootFields, recordCount, tailStart, start⟩

/-! ## The fields of a written object -/

/-- The slots of a mask that holds an ascending list of them. -/
theorem filter_range_of_ascending {slots : List ℕ} {m : ℕ} (hasc : slots.Pairwise (· < ·))
    (hlt : ∀ s ∈ slots, s < m) : ((List.range m).filter fun i => slots.any (· == i)) = slots := by
  have hnd : slots.Nodup := hasc.imp Nat.ne_of_lt
  have hsorted : ((List.range m).filter fun i => slots.any (· == i)).Pairwise (· < ·) :=
    List.pairwise_lt_range.filter _
  have hperm : ((List.range m).filter fun i => slots.any (· == i)).Perm slots := by
    refine (List.perm_ext_iff_of_nodup (hsorted.imp Nat.ne_of_lt) hnd).mpr fun s => ?_
    rw [List.mem_filter, List.mem_range, List.any_eq_true]
    constructor
    · rintro ⟨-, t, ht, hts⟩
      rwa [← beq_iff_eq.mp hts]
    · intro hs
      exact ⟨hlt s hs, s, hs, beq_self_eq_true s⟩
  refine hperm.eq_of_pairwise (fun a b _ _ hab hba => ?_) hsorted hasc
  omega

/-- The mask of an object is read back. -/
theorem readMask_maskBytes {d : Bytes} {pos k : ℕ} {p : ℕ → Bool} (hat : At d pos (maskBytes k p)) :
    ∀ m i fuel, i + m = k → 0 < m → m ≤ fuel →
      readMask d fuel (pos + i) ((List.range (7 * i)).map p) =
        .ok ((List.range (7 * k)).map p, pos + k)
  | 0, _, _, _, hm, _ => absurd hm (Nat.lt_irrefl 0)
  | m + 1, i, 0, _, _, hfuel => absurd hfuel (by omega)
  | m + 1, i, fuel + 1, hik, _, hfuel => by
    have hi : i < k := by omega
    have hbits : ((List.range (7 * i)).map p ++ (List.range 7).map fun bit =>
        (byteOfBits fun b => if b = 7 then decide (i + 1 < k) else p (7 * i + b)).toNat.testBit bit) =
          (List.range (7 * (i + 1))).map p := by
      rw [Nat.mul_succ, List.range_add, List.map_append, List.map_map]
      congr 1
      refine List.map_congr_left fun bit hbit => ?_
      rw [List.mem_range] at hbit
      rw [testBit_byteOfBits _ (by omega), if_neg (by omega)]
      rfl
    rw [readMask, get_maskBytes hat hi, ok_bind]
    dsimp only
    rw [hbits, moreMask_byteOfBits]
    by_cases hlast : i + 1 < k
    · rw [if_pos (decide_eq_true hlast), Nat.add_assoc]
      exact readMask_maskBytes hat m (i + 1) fuel (by omega) (by omega) (by omega)
    · obtain rfl : i + 1 = k := by omega
      rw [if_neg (by simp), Nat.add_assoc]

/-- The mask of an object, whatever its slots. -/
theorem readMask_object {d : Bytes} {pos n fuel : ℕ} {p : ℕ → Bool}
    (hat : At d pos (maskBytes (bitmaskLen n) p)) (hfuel : bitmaskLen n ≤ fuel) :
    readMask d fuel pos [] = .ok ((List.range (7 * bitmaskLen n)).map p, pos + bitmaskLen n) := by
  have hpos : 1 ≤ bitmaskLen n := le_max_right _ _
  exact readMask_maskBytes hat (bitmaskLen n) 0 fuel (by omega) hpos hfuel

theorem presentSlots_map (p : ℕ → Bool) (m : ℕ) : presentSlots ((List.range m).map p) = (List.range m).filter p := by
  rw [presentSlots, List.length_map, List.length_range]
  refine List.filter_congr fun i hi => ?_
  rw [List.getD_eq_getElem?_getD, List.getElem?_map, List.getElem?_range (List.mem_range.mp hi), Option.map_some,
    Option.getD_some]

/-- The slots of a mask. -/
theorem presentSlots_object {m : ℕ} {cells : List (ℕ × Bytes)}
    (hasc : (cells.map Prod.fst).Pairwise (· < ·)) (hslots : ∀ c ∈ cells, c.1 < m) :
    presentSlots ((List.range m).map (objectSlots cells)) = cells.map Prod.fst := by
  rw [presentSlots_map]
  conv_rhs => rw [← filter_range_of_ascending hasc (m := m) (by
    intro s hs
    obtain ⟨c, hc, rfl⟩ := List.mem_map.mp hs
    exact hslots c hc)]
  refine List.filter_congr fun i _ => ?_
  rw [objectSlots, List.any_map]
  rfl

/-- The parts of an object. -/
theorem at_object {d : Bytes} {off n : ℕ} {cells : List (ℕ × Bytes)} (hn : cells.length ≤ n)
    (h : At d off (objectBytes n cells)) :
    At d off (leBytes 4 MAGIC_OBJ) ∧ At d (off + 4) (leBytes 4 (objectLen n cells)) ∧
      At d (off + 8) (maskBytes (bitmaskLen n) (objectSlots cells)) ∧
      At d (off + 8 + bitmaskLen n) (objectTable n cells) ∧
      At d (off + objectStart n) (objectValues cells) := by
  have hstart : 8 + bitmaskLen n + cells.length * 2 + (n * 2 - cells.length * 2) +
      padLen 8 (objectHeaderLen n) = objectStart n := by
    unfold objectStart objectHeaderLen
    omega
  rw [objectBytes] at h
  simp only [at_append, List.length_append, leBytes_length, maskBytes_length, objectTable_length,
    zeros_length] at h
  obtain ⟨⟨⟨⟨⟨⟨hmagic, hlen⟩, hmask⟩, htable⟩, -⟩, -⟩, hvalues⟩ := h
  rw [hstart] at hvalues
  exact ⟨hmagic, hlen, hmask, by rw [Nat.add_assoc]; exact htable, hvalues⟩

/-- The value of cell `i`, at the place its offset says. -/
theorem at_objectValue {d : Bytes} {off n i : ℕ} {cells : List (ℕ × Bytes)} {c : ℕ × Bytes}
    (hn : cells.length ≤ n) (h : At d off (objectBytes n cells)) (hc : cells[i]? = some c) :
    At d (off + (objectStart n + (objectValues (cells.take i)).length)) c.2 := by
  obtain ⟨-, -, -, -, hvalues⟩ := at_object hn h
  rw [← Nat.add_assoc]
  exact hvalues.trans (at_flatMap hc)

theorem objectOffsets_getElem? {n i : ℕ} {cells : List (ℕ × Bytes)} (hi : i < cells.length) :
    (objectOffsets n cells)[i]? =
      some ((objectStart n + (objectValues (cells.take i)).length) % 65536) := by
  simp [objectOffsets, hi]

section Fields

variable {d : Bytes} {off n : ℕ} {cells : List (ℕ × Bytes)} (hd : d.length < 2 ^ 63)
  (h : At d off (objectBytes n cells)) (hn : cells.length ≤ n) (hmask : bitmaskLen n ≤ 73)
  (hasc : (cells.map Prod.fst).Pairwise (· < ·)) (hslots : ∀ c ∈ cells, c.1 < 7 * bitmaskLen n)
  (hoffs : ∀ i < cells.length, objectStart n + (objectValues (cells.take i)).length < 65536)

include hd h hn hmask hasc hslots hoffs

/-- An object whose values start within the range of the offset table is decoded slot by slot. -/
theorem decodeObject_fields (keys : List String) (sigils : List UInt8) : decodeObject d off keys sigils =
    ((cells.map Prod.fst).zip ((List.range cells.length).map fun i =>
      off + (objectStart n + (objectValues (cells.take i)).length))).mapM (decodeField d keys sigils) := by
  obtain ⟨hmagic, -, hm, htable, -⟩ := at_object hn h
  have hmle := hm.le
  have htle := htable.le
  rw [maskBytes_length] at hmle
  rw [objectTable_length] at htle
  have hpresent := presentSlots_object hasc hslots
  have hcount : cells.length ≤ 7 * bitmaskLen n := by
    have hle : (presentSlots ((List.range (7 * bitmaskLen n)).map (objectSlots cells))).length ≤ _ :=
      List.length_filter_le _ _
    rwa [hpresent, List.length_map, List.length_range, List.length_map, List.length_range] at hle
  -- the offset table
  have hoffsets : (List.range cells.length).mapM (readOffset d off (off + 8 + bitmaskLen n)) =
      .ok ((List.range cells.length).map fun i =>
        off + (objectStart n + (objectValues (cells.take i)).length)) := by
    rw [mapM_eq_ok, List.forall₂_map_right_iff, List.forall₂_same]
    intro i hi
    rw [List.mem_range] at hi
    have hat := htable.trans (at_flatMap_const (fun m _ => leBytes_length 2 m)
      (objectOffsets_getElem? hi))
    rw [Nat.mod_eq_of_lt (hoffs i hi)] at hat
    have hle := hat.le
    rw [leBytes_length] at hle
    have hoff := hoffs i hi
    rw [readOffset, usizeMul_of (by omega), ok_bind, usizeAdd_of (by omega), ok_bind,
      usizeAdd_of (by omega), ok_bind, ensure_of (by omega), ok_bind, readLE_leBytes hat hoff hd, ok_bind,
      usizeAdd_of (by omega)]
  rw [decodeObject, usizeAdd_of (by omega), ok_bind, ensure_of (by omega), ok_bind,
    readLE_leBytes hmagic (by decide) hd, ok_bind, ensure_of rfl, ok_bind, readMask_object hm (by omega),
    okOr_ok, ok_bind]
  dsimp only
  rw [hpresent, ensure_of (by rw [List.length_map]; omega), ok_bind, List.length_map, hoffsets, ok_bind]

/-- The fields of the object have the names of its slots, and each value is decoded from a slot's bytes. -/
theorem decodeObject_eq_ok {keys : List String} {sigils : List UInt8} {fields : List (String × DecodedValue)}
    (hok : decodeObject d off keys sigils = .ok fields) :
    fields.map Prod.fst = cells.map (fun c => keys.getD c.1 s!"key_{c.1}") ∧
      ∀ c ∈ cells, ∃ p v, At d p c.2 ∧ decodeValueAt d p (sigils.getD c.1 0) = .ok v ∧
        (keys.getD c.1 s!"key_{c.1}", v) ∈ fields := by
  rw [decodeObject_fields hd h hn hmask hasc hslots hoffs, mapM_eq_ok, List.forall₂_iff_get] at hok
  obtain ⟨hlen, hget⟩ := hok
  rw [List.length_zip, List.length_map, List.length_map, List.length_range, Nat.min_self] at hlen
  have hfield : ∀ i, (hi : i < cells.length) → (hi' : i < fields.length) → ∃ p v, At d p cells[i].2 ∧
      decodeValueAt d p (sigils.getD cells[i].1 0) = .ok v ∧
        fields[i] = (keys.getD cells[i].1 s!"key_{cells[i].1}", v) := by
    intro i hi hi'
    have hdecode := hget i (by simpa using hi) hi'
    simp only [List.get_eq_getElem, List.getElem_zip, List.getElem_map, List.getElem_range] at hdecode
    obtain ⟨v, hv, hdecode⟩ := bind_eq_ok.mp hdecode
    exact ⟨_, v, at_objectValue hn h (List.getElem?_eq_getElem hi), hv, (Outcome.ok.inj hdecode).symm⟩
  constructor
  · refine List.ext_getElem (by simp [hlen]) fun i h1 h2 => ?_
    obtain ⟨p, v, -, -, hf⟩ := hfield i (by simpa using h2) (by simpa using h1)
    rw [List.getElem_map, List.getElem_map, hf]
  · intro c hc
    obtain ⟨i, hi, rfl⟩ := List.getElem_of_mem hc
    obtain ⟨p, v, hat, hv, hf⟩ := hfield i hi (by omega)
    exact ⟨p, v, hat, hv, hf ▸ List.getElem_mem _⟩

/-- The fields of the object, where the value of every slot is known. -/
theorem decodeObject_objectBytes {keys : List String} {sigils : List UInt8} (value : ℕ × Bytes → DecodedValue)
    (hvalue : ∀ c ∈ cells, ∀ p, At d p c.2 →
      decodeValueAt d p (sigils.getD c.1 0) = .ok (value c)) :
    decodeObject d off keys sigils =
      .ok (cells.map fun c => (keys.getD c.1 s!"key_{c.1}", value c)) := by
  rw [decodeObject_fields hd h hn hmask hasc hslots hoffs, mapM_eq_ok, List.forall₂_iff_get]
  refine ⟨by simp, fun i h1 h2 => ?_⟩
  have hi : i < cells.length := by simpa using h2
  have hc := List.getElem?_eq_getElem hi
  have hat := at_objectValue hn h hc
  have hval := hvalue _ (List.getElem_mem hi) _ hat
  simp only [List.get_eq_getElem, List.getElem_zip, List.getElem_map, List.getElem_range]
  rw [decodeField, hval, ok_bind]

end Fields

end Nyxis
