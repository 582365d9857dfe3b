import Nyxis.DecodedCells
import Nyxis.Lib.Tables
import Nyxis.MissingCells
import Nyxis.RowFile

/-!
# JsonOut — exporting a file to JSON

`JsonOut.run` decodes a file, walks its tail-index in entries of ten bytes and turns the fields of every
record into an object.  The text of the objects is left to the serializer.

* `exports_right`: the export of a v1.2 row file agrees with the getters exactly when its cells are plain.
-/

namespace Nyxis

open Lib Lib.Outcome

/-! ## The exporter -/

inductive Json where
  | null
  | bool (b : Bool)
  | int (v : Int64)
  | float (v : F64)
  | str (s : String)
  | array (items : List Json)
  deriving Repr

/-- A map from names to values, each name once. -/
abbrev JsonObject := List (String × Json)

inductive BinaryEncoding where
  | base64
  | hex
  | skip
  deriving DecidableEq, Repr

namespace JsonOut

/-- `Number::from_f64`, with `Null` for a number that is not finite. -/
def fromF64 (v : F64) : Json := if v.exponent = 2047 then .null else .float v

def hexDigit (n : ℕ) : Char := Char.ofNat (if n < 10 then 48 + n else 87 + n)

/-- Two hexadecimal digits for each byte. -/
def hex (b : Bytes) : String := String.ofList (b.flatMap fun x => [hexDigit (x.toNat / 16), hexDigit (x.toNat % 16)])

section

variable (base64 : Bytes → String) (mode : BinaryEncoding)

mutual

def decodedValueToJson : DecodedValue → Json
  | .int i => .int i
  | .float f => fromF64 f
  | .bool b => .bool b
  | .str s => .str s
  | .time t => .int t
  | .null => .null
  | .list items => .array (decodedItemsToJson items)
  | .binary b =>
    match mode with
    | .base64 => .str (base64 b)
    | .hex => .str (hex b)
    | .skip => .null
  | .raw b => .str (base64 b)

def decodedItemsToJson : List DecodedValue → List Json
  | [] => []
  | v :: items => decodedValueToJson v :: decodedItemsToJson items

end

/-- `Map::insert`. -/
def mapInsert (map : JsonObject) (key : String) (v : Json) : JsonObject :=
  map.filter (fun entry => entry.1 ≠ key) ++ [(key, v)]

def fieldsToJson (fields : List (String × DecodedValue)) : JsonObject :=
  fields.foldl (fun map field => mapInsert map field.1 (decodedValueToJson base64 mode field.2)) []

/-- The object of record `i`, none where its entry is out of reach. -/
def exportRecord (d : Bytes) (decoded : DecodedFile) (i : ℕ) : Res (Option JsonObject) := do
  let rel ← usizeMul i 10
  let entry ← usizeAdd decoded.tailStart rel
  let stop ← usizeAdd entry 10
  if stop > d.length then .ok none
  else do
    let offset ← okOr (getLE d (entry + 2) 8) .outOfBounds
    let fields ← orEmpty (decodeRecordAt d offset decoded.keys decoded.keySigils)
    .ok (some (fieldsToJson base64 mode fields))

/-- The objects of `n` records from record `i` on; the loop stops where an entry is out of reach. -/
def exportLoop (record : ℕ → Res (Option JsonObject)) : ℕ → ℕ → Res (List JsonObject)
  | 0, _ => .ok []
  | n + 1, i => do
    let obj ← record i
    match obj with
    | none => .ok []
    | some obj => do
      let rest ← exportLoop record n (i + 1)
      .ok (obj :: rest)

/-- The objects of the records. -/
def run (file : Slice) : Res (List JsonObject) := do
  let decoded ← decode file
  exportLoop (exportRecord base64 mode file.bytes decoded) decoded.recordCount 0

end

end JsonOut

/-- What the typed getter for a column of `kind` returns. -/
def Reader.jsonAt (r : Reader) (kind : UInt8) (i : ℕ) (key : String) : Opt Json :=
  if kind = SIGIL_INT ∨ kind = SIGIL_TIME then Json.int <$> r.i64At i key
  else if kind = SIGIL_FLOAT then Json.float <$> r.f64At i key
  else if kind = SIGIL_BOOL then Json.bool <$> r.boolAt i key
  else Json.str <$> r.strAt i key

/-- The object of record `i` holds what the getters return, and nothing else. -/
structure ExportedAlike (r : Reader) (keys : List String) (kinds : List UInt8) (i : ℕ) (obj : JsonObject) : Prop where
  value : ∀ (fi : ℕ) (key : String) (kind : UInt8), keys[fi]? = some key → kinds[fi]? = some kind →
    r.jsonAt kind i key = .ofOption (obj.lookup key)
  other : ∀ key ∉ keys, obj.lookup key = none

/-- The export of a file fails, or gives every record of the reader as the getters read it. -/
def ExportsRight (base64 : Bytes → String) (mode : BinaryEncoding) (file : Slice) (keys : List String)
    (kinds : List UInt8) : Prop :=
  match JsonOut.run base64 mode file with
  | .ok records => ∃ r, Reader.new file = .ok r ∧ records.length = r.recordCount ∧
      ∀ i obj, records[i]? = some obj → ExportedAlike r keys kinds i obj
  | .err _ => True
  | .panic => False

/-! ## Objects -/

namespace JsonOut

variable (base64 : Bytes → String) (mode : BinaryEncoding)

/-- Fields with names of their own make up the object entry by entry. -/
theorem fieldsToJson_eq {fields : List (String × DecodedValue)} (h : (fields.map Prod.fst).Nodup) :
    fieldsToJson base64 mode fields = fields.map fun field => (field.1, decodedValueToJson base64 mode field.2) := by
  have hfold : ∀ (fields : List (String × DecodedValue)) (map : JsonObject),
      (map.map Prod.fst ++ fields.map Prod.fst).Nodup →
      fields.foldl (fun map field => mapInsert map field.1 (decodedValueToJson base64 mode field.2)) map =
        map ++ fields.map fun field => (field.1, decodedValueToJson base64 mode field.2) := by
    intro fields
    induction fields with
    | nil =>
      intro map _
      rw [List.foldl_nil, List.map_nil, List.append_nil]
    | cons field fields ih =>
      intro map hnd
      have hfresh : map.filter (fun entry => entry.1 ≠ field.1) = map := by
        refine List.filter_eq_self.mpr fun entry hentry => decide_eq_true ?_
        exact (List.nodup_append.mp hnd).2.2 _ (List.mem_map_of_mem hentry) _ List.mem_cons_self
      rw [List.foldl_cons, mapInsert, hfresh, ih, List.append_assoc]
      · rfl
      · rw [List.map_append, List.append_assoc]
        exact hnd
  exact hfold fields [] h

theorem lookup_fieldsToJson {fields : List (String × DecodedValue)} (h : (fields.map Prod.fst).Nodup)
    {key : String} {v : DecodedValue} (hmem : (key, v) ∈ fields) :
    (fieldsToJson base64 mode fields).lookup key = some (decodedValueToJson base64 mode v) := by
  rw [fieldsToJson_eq base64 mode h]
  refine lookup_of_mem ?_ (List.mem_map_of_mem hmem)
  rwa [List.map_map]

theorem lookup_fieldsToJson_none {fields : List (String × DecodedValue)} (h : (fields.map Prod.fst).Nodup)
    {key : String} (hmem : key ∉ fields.map Prod.fst) : (fieldsToJson base64 mode fields).lookup key = none := by
  rw [fieldsToJson_eq base64 mode h]
  refine lookup_of_not_mem ?_
  rwa [List.map_map]

/-- The loop over records whose entries are within reach. -/
theorem exportLoop_ok {record : ℕ → Res (Option JsonObject)} : ∀ (n i : ℕ),
    (∀ j < n, ∃ obj, record (i + j) = .ok (some obj)) → ∃ objs, exportLoop record n i = .ok objs ∧ objs.length = n ∧
      ∀ j < n, ∃ obj, record (i + j) = .ok (some obj) ∧ objs[j]? = some obj
  | 0, _, _ => ⟨[], rfl, rfl, fun j hj => absurd hj (Nat.not_lt_zero j)⟩
  | n + 1, i, h => by
    obtain ⟨obj, hobj⟩ := h 0 (Nat.succ_pos n)
    rw [Nat.add_zero] at hobj
    obtain ⟨objs, hobjs, hlen, hget⟩ := exportLoop_ok n (i + 1) fun j hj => by
      rw [Nat.add_right_comm, Nat.add_assoc]
      exact h (j + 1) (by omega)
    refine ⟨obj :: objs, ?_, by rw [List.length_cons, hlen], fun j hj => ?_⟩
    · rw [exportLoop, hobj, ok_bind]
      dsimp only
      rw [hobjs, ok_bind]
    · cases j with
      | zero => exact ⟨obj, hobj, rfl⟩
      | succ j =>
        obtain ⟨obj', hobj', hj'⟩ := hget j (by omega)
        rw [Nat.add_right_comm, Nat.add_assoc] at hobj'
        exact ⟨obj', hobj', hj'⟩

end JsonOut

/-! ## Cells -/

/-- The value that a cell is exported as. -/
def Cell.json : Cell → Option Json
  | .i64 v | .time v => some (.int v)
  | .f64 v => some (.float v)
  | .bool b => some (.bool b)
  | .str s => some (.str s)
  | .absent | .null | .binary _ => none

/-- Numbers are finite. -/
def Cell.Finite : Cell → Prop
  | .f64 v => v.exponent ≠ 2047
  | _ => True

instance : DecidablePred Cell.Finite := fun c =>
  match c with
  | .f64 v => inferInstanceAs (Decidable (v.exponent ≠ 2047))
  | .absent | .null | .i64 _ | .bool _ | .time _ | .str _ | .binary _ => isTrue trivial

/-- The kinds of the columns that are exported. -/
def JSON_KINDS : List UInt8 := [SIGIL_INT, SIGIL_FLOAT, SIGIL_BOOL, SIGIL_TIME, SIGIL_STR]

theorem json_decoded (base64 : Bytes → String) (mode : BinaryEncoding) {c : Cell} (hkind : c.sigil ∈ JSON_KINDS)
    (hfin : c.Finite) : c.json = some (JsonOut.decodedValueToJson base64 mode c.decoded) := by
  cases c with
  | f64 v => rw [Cell.json, Cell.decoded, JsonOut.decodedValueToJson, JsonOut.fromF64, if_neg hfin]
  | absent | null | binary b => exact absurd hkind (by rw [Cell.sigil]; decide)
  | _ =>
    rw [Cell.json, Cell.decoded, JsonOut.decodedValueToJson]

/-- What the getter for a column returns of a cell that reads back. -/
theorem jsonAt_of_reads {r : Reader} {kind : UInt8} {i : ℕ} {key : String} {c : Cell} (hmem : kind ∈ JSON_KINDS)
    (hkind : c = .absent ∨ c.sigil = kind) (h : r.Reads i key c) : r.jsonAt kind i key = .ofOption c.json := by
  rcases hkind with rfl | rfl
  · obtain ⟨h1, h2, h3, h4⟩ := h
    rw [Reader.jsonAt, h1, h2, h3, h4]
    simp only [map_err, ite_self]
    rfl
  · cases c with
    | absent | null | binary b => exact absurd hmem (by rw [Cell.sigil]; decide)
    | i64 v =>
      rw [Reader.jsonAt, Cell.sigil, if_pos (Or.inl rfl), h, map_ok]
      rfl
    | time v =>
      rw [Reader.jsonAt, Cell.sigil, if_pos (Or.inr rfl), h, map_ok]
      rfl
    | f64 v =>
      rw [Reader.jsonAt, Cell.sigil, if_neg (by decide), if_pos rfl, h, map_ok]
      rfl
    | bool v =>
      rw [Reader.jsonAt, Cell.sigil, if_neg (by decide), if_neg (by decide), if_pos rfl, h, map_ok]
      rfl
    | str v =>
      rw [Reader.jsonAt, Cell.sigil, if_neg (by decide), if_neg (by decide), if_neg (by decide), h, map_ok]
      rfl

/-! ## The records of a table -/

/-- A table of columns of one kind each, with absent cells anywhere. -/
structure PlainTable (keys : List String) (kinds : List UInt8) (rows : List RecordRow) : Prop where
  kinds_length : kinds.length = keys.length
  kinds_mem : ∀ k ∈ kinds, k ∈ JSON_KINDS
  ofKind : ∀ fi, (h : fi < kinds.length) → ∀ c ∈ column rows fi, c = .absent ∨ c.sigil = kinds[fi]
  finite : ∀ row ∈ rows, ∀ c ∈ row.cells, c.Finite
  length : ∀ row ∈ rows, row.cells.length ≤ keys.length

namespace PlainTable

variable {keys : List String} {kinds : List UInt8} {rows : List RecordRow} (h : PlainTable keys kinds rows)

include h

theorem typed : TypedTable keys kinds rows := ⟨h.kinds_length, h.kinds_mem, h.ofKind, h.length⟩

/-- The kind of a cell. -/
theorem cell_kind {row : RecordRow} (hrow : row ∈ rows) {fi : ℕ} {kind : UInt8} (hkind : kinds[fi]? = some kind) :
    row.cell fi = .absent ∨ (row.cell fi).sigil = kind := h.typed.cell_kind hrow hkind

theorem exists_kind {fi : ℕ} (hfi : fi < keys.length) : ∃ kind, kinds[fi]? = some kind ∧ kind ∈ JSON_KINDS :=
  h.typed.exists_kind hfi

theorem rowFits {row : RecordRow} (hrow : row ∈ rows) : RowFits keys row := h.typed.rowFits hrow

/-- The sigil of a slot that some cell has a value in. -/
theorem keySigil {row : RecordRow} (hrow : row ∈ rows) {fi : ℕ} (hfi : fi < keys.length)
    (hcell : row.cell fi ≠ .absent) :
    (schemaSigils keys.length (tableSigils keys rows)).getD fi 0 = (row.cell fi).sigil := by
  obtain ⟨hnoted, h0⟩ := h.typed.noted hrow hfi hcell
  rw [schemaSigils, List.getD_eq_getElem?_getD, List.getElem?_map, List.getElem?_range hfi, Option.map_some,
    Option.getD_some, hnoted, schemaSigil, if_neg h0]

end PlainTable

/-- The name of a slot, the keys being distinct. -/
theorem getD_eq_iff {keys : List String} (hnd : keys.Nodup) {s fi : ℕ} {key other : String} (hs : s < keys.length)
    (hkey : keys[fi]? = some key) : keys.getD s other = key ↔ s = fi := by
  obtain ⟨hfi, rfl⟩ := List.getElem?_eq_some_iff.mp hkey
  rw [List.getD_eq_getElem?_getD, List.getElem?_eq_getElem hs, Option.getD_some]
  exact hnd.getElem_inj_iff

theorem getD_mem {keys : List String} {s : ℕ} (other : String) (hs : s < keys.length) : keys.getD s other ∈ keys := by
  rw [List.getD_eq_getElem?_getD, List.getElem?_eq_getElem hs]
  exact List.getElem_mem hs

section Record

variable {keys : List String} {kinds : List UInt8} {rows : List RecordRow} (h : PlainTable keys kinds rows)
  (hnd : keys.Nodup) {row : RecordRow} (hrow : row ∈ rows)

include h hnd hrow

/-- The names of the fields of a record. -/
theorem rowNames_nodup : ((rowValues row).map fun c => keys.getD c.1 s!"key_{c.1}").Nodup := by
  have hslots := (cellValues_ascending 0 row.cells).imp Nat.ne_of_lt
  rw [List.nodup_iff_pairwise_ne, List.pairwise_map]
  refine List.Pairwise.imp_of_mem ?_ (List.pairwise_map.mp hslots)
  intro a b ha hb hne heq
  have hlt := rowValues_lt (h.rowFits hrow)
  exact hne ((getD_eq_iff hnd (hlt a ha) (List.getElem?_eq_getElem (hlt b hb))).mp (by
    rw [heq, List.getD_eq_getElem?_getD, List.getElem?_eq_getElem (hlt b hb), Option.getD_some]))

/-- The values of a record's cells make up its object, as the getters read it. -/
theorem exportedAlike_plain (base64 : Bytes → String) (mode : BinaryEncoding) {r : Reader} {i : ℕ}
    (hreads : ∀ fi key, keys[fi]? = some key → r.Reads i key (row.cell fi)) :
    ExportedAlike r keys kinds i (JsonOut.fieldsToJson base64 mode
      ((rowValues row).map fun c => (keys.getD c.1 s!"key_{c.1}", (row.cell c.1).decoded))) := by
  have hlt := rowValues_lt (h.rowFits hrow)
  have hnames := rowNames_nodup h hnd hrow
  have hmap : ((rowValues row).map fun c => (keys.getD c.1 s!"key_{c.1}", (row.cell c.1).decoded)).map Prod.fst =
      (rowValues row).map fun c => keys.getD c.1 s!"key_{c.1}" := List.map_map
  rw [← hmap] at hnames
  constructor
  · intro fi key kind hkey hkind
    have hfi := (List.getElem?_eq_some_iff.mp hkey).1
    have hmem : kind ∈ JSON_KINDS := h.kinds_mem _ (List.mem_of_getElem? hkind)
    have hcell := h.cell_kind hrow hkind
    rw [jsonAt_of_reads hmem hcell (hreads fi key hkey)]
    congr 1
    cases hb : (row.cell fi).rowBytes with
    | none =>
      rw [absent_of_rowBytes (h.rowFits hrow) hb, JsonOut.lookup_fieldsToJson_none base64 mode hnames]
      · rfl
      · rw [hmap]
        intro hin
        obtain ⟨⟨s, b⟩, hs, hname⟩ := List.mem_map.mp hin
        obtain rfl := (getD_eq_iff hnd (hlt _ hs) hkey).mp hname
        rw [mem_rowValues.mp hs] at hb
        cases hb
    | some b =>
      have habs : row.cell fi ≠ .absent := by
        intro habs
        rw [habs] at hb
        cases hb
      have hkindMem : (row.cell fi).sigil ∈ JSON_KINDS := by
        rw [hcell.resolve_left habs]
        exact hmem
      have hname : keys.getD fi s!"key_{fi}" = key := (getD_eq_iff hnd hfi hkey).mpr rfl
      rw [json_decoded base64 mode hkindMem (h.finite row hrow _ (cell_mem habs)),
        JsonOut.lookup_fieldsToJson base64 mode hnames
          (List.mem_map.mpr ⟨(fi, b), mem_rowValues.mpr hb, Prod.ext hname rfl⟩)]
  · intro key hkey
    refine JsonOut.lookup_fieldsToJson_none base64 mode hnames ?_
    rw [hmap]
    intro hin
    obtain ⟨c, hc, rfl⟩ := List.mem_map.mp hin
    exact hkey (getD_mem _ (hlt c hc))

variable {d : Bytes} {off : ℕ} (hat : At d off (objectBytes keys.length (rowValues row))) (hd : d.length < 2 ^ 63)
  (hmany : keys.length ≤ 256) (hoffs : OffsetsFit keys.length row)

include hat hd hmany hoffs

omit hnd in
/-- A record whose cells are plain is decoded to their values. -/
theorem decodeRecordAt_plain (hplain : ∀ c ∈ row.cells, c.Plain) :
    decodeRecordAt d off keys (schemaSigils keys.length (tableSigils keys rows)) =
      .ok ((rowValues row).map fun c => (keys.getD c.1 s!"key_{c.1}", (row.cell c.1).decoded)) := by
  have hfits := h.rowFits hrow
  have hlt := rowValues_lt hfits
  refine decodeObject_objectBytes hd hat (rowValues_length hfits) (by unfold bitmaskLen; omega)
    (cellValues_ascending 0 _) (fun c hc => ?_) hoffs (fun c => (row.cell c.1).decoded) ?_
  · have hc := hlt c hc
    unfold bitmaskLen
    omega
  · rintro ⟨fi, b⟩ hc p hp
    have hb : (row.cell fi).rowBytes = some b := mem_rowValues.mp hc
    have habs : row.cell fi ≠ .absent := by
      intro habs
      rw [habs] at hb
      cases hb
    rw [h.keySigil hrow (hlt _ hc) habs]
    exact decodeValueAt_plain hb hp hd (hplain _ (cell_mem habs))

/-- A cell that is not plain is not exported as its value. -/
theorem decodeRecordAt_not_plain {base64 : Bytes → String} (mode : BinaryEncoding)
    (h64 : ∀ b, b.length ≤ 8 → (utf8 (base64 b)).length ≤ 12) (hsmall : objectLen keys.length (rowValues row) < 2 ^ 32)
    {fi : ℕ} {key : String} (hkey : keys[fi]? = some key) (hplain : ¬ (row.cell fi).Plain)
    {fields : List (String × DecodedValue)}
    (hok : decodeRecordAt d off keys (schemaSigils keys.length (tableSigils keys rows)) = .ok fields) :
    (JsonOut.fieldsToJson base64 mode fields).lookup key ≠ (row.cell fi).json := by
  have hfits := h.rowFits hrow
  have hlt := rowValues_lt hfits
  have hfi := (List.getElem?_eq_some_iff.mp hkey).1
  obtain ⟨hnames, hvalues⟩ := decodeObject_eq_ok hd hat (rowValues_length hfits) (by unfold bitmaskLen; omega)
    (cellValues_ascending 0 _) (fun c hc => by have := hlt c hc; unfold bitmaskLen; omega) hoffs hok
  have habs : row.cell fi ≠ .absent := by
    intro habs
    rw [habs] at hplain
    exact hplain trivial
  obtain ⟨b, hb⟩ := Option.ne_none_iff_exists'.mp fun hnone => habs (absent_of_rowBytes hfits hnone)
  obtain ⟨p, v, hp, hv, hmem⟩ := hvalues _ (mem_rowValues.mpr hb)
  have hname : keys.getD fi s!"key_{fi}" = key := (getD_eq_iff hnd hfi hkey).mpr rfl
  rw [hname] at hmem
  rw [JsonOut.lookup_fieldsToJson base64 mode (by rw [hnames]; exact rowNames_nodup h hnd hrow) hmem]
  rw [h.keySigil hrow hfi habs] at hv
  have hshort : ∀ s, row.cell fi = .str s → (utf8 s).length < 2 ^ 32 := by
    intro s hs
    rw [hs] at hb
    cases hb
    have hbytes : (row.cell fi).rowBytes = some (NxsWriter.prefixed (utf8 s)) := by rw [hs]; rfl
    obtain ⟨q, hin, -⟩ := resolveSlot_row hfits hoffs hbytes
    have hpre := prefixed_le (utf8 s)
    omega
  rcases decodeValueAt_not_plain hb hp hd hshort hplain hv with ⟨raw, hraw, rfl⟩ | ⟨items, rfl⟩ | ⟨s, n, hs, rfl⟩
  · rw [JsonOut.decodedValueToJson]
    intro heq
    -- raw bytes make a text of at most twelve bytes
    cases hc : row.cell fi with
    | str s =>
      rw [hc] at heq hplain
      cases heq
      have hle := h64 raw hraw
      exact hplain (hle.trans (by decide))
    | _ =>
      rw [hc] at heq
      cases heq
  · rw [JsonOut.decodedValueToJson]
    cases row.cell fi <;> intro heq <;> cases heq
  · rw [hs, JsonOut.decodedValueToJson]
    intro heq
    cases heq

/-- A record with a cell that is not plain is not exported as the getters read it. -/
theorem not_exportedAlike {base64 : Bytes → String} (mode : BinaryEncoding)
    (h64 : ∀ b, b.length ≤ 8 → (utf8 (base64 b)).length ≤ 12) (hsmall : objectLen keys.length (rowValues row) < 2 ^ 32)
    {r : Reader} {i : ℕ} (hreads : ∀ fi key, keys[fi]? = some key → r.Reads i key (row.cell fi))
    {c : Cell} (hc : c ∈ row.cells) (hplain : ¬ c.Plain) {fields : List (String × DecodedValue)}
    (hfields : orEmpty (decodeRecordAt d off keys (schemaSigils keys.length (tableSigils keys rows))) = .ok fields) :
    ¬ ExportedAlike r keys kinds i (JsonOut.fieldsToJson base64 mode fields) := by
  intro halike
  -- the slot of the cell
  obtain ⟨fi, hfi, rfl⟩ := List.getElem_of_mem hc
  have hwidth := h.length row hrow
  have hkey := List.getElem?_eq_getElem (show fi < keys.length by omega)
  obtain ⟨kind, hkind, hmem⟩ := h.exists_kind (show fi < keys.length by omega)
  have hcell : row.cell fi = row.cells[fi] := by
    rw [RecordRow.cell, List.getD_eq_getElem?_getD, List.getElem?_eq_getElem hfi, Option.getD_some]
  rw [← hcell] at hplain
  have hjson : (row.cell fi).json ≠ none := by
    cases hcase : row.cell fi with
    | absent | null | binary b =>
      rw [hcase] at hplain
      exact absurd trivial hplain
    | _ => exact Option.some_ne_none _
  have hvalue := halike.value fi _ kind hkey hkind
  rw [jsonAt_of_reads hmem (h.cell_kind hrow hkind) (hreads fi _ hkey)] at hvalue
  have hsame := Outcome.ofOption_inj hvalue
  have hoff : off ≤ d.length := by
    have := hat.le
    omega
  rcases (safe_decodeObject hd keys (schemaSigils keys.length (tableSigils keys rows)) hoff).cases with ⟨fields', hok⟩ | ⟨e, herr⟩
  · rw [decodeRecordAt, hok] at hfields
    obtain rfl : fields' = fields := Outcome.ok.inj hfields
    exact decodeRecordAt_not_plain h hnd hrow hat hd hmany hoffs mode h64 hsmall hkey hplain hok hsame.symm
  · -- a record that cannot be decoded is exported as an empty object
    rw [decodeRecordAt, herr] at hfields
    cases hfields
    exact hjson hsame

end Record

/-- What `decode` finds in the tail-index of a file in the row layout. -/
theorem decoded_tail_row {file : Slice} {decoded : DecodedFile} {ptr n : ℕ} (hdec : decode file = .ok decoded)
    (hflags : flagsOf file.bytes = FLAG_SCHEMA_EMBEDDED) (hzero : word file.bytes 16 8 = 0)
    (hcount : At file.bytes ptr (leBytes 4 n)) (hptr : At file.bytes (file.bytes.length - 12) (leBytes 8 ptr)) :
    decoded.recordCount = n % 2 ^ 32 ∧ decoded.tailStart = ptr + 4 := by
  have hd := file.small
  have hle := hcount.le
  rw [leBytes_length] at hle
  obtain ⟨hsize, t, -, -, -, -, -, ht, -, -, htail⟩ := decode_opens hdec
  have hrow : RowLayout file.bytes := by
    rw [RowLayout, Flagged, Flagged, hflags]
    decide
  obtain ⟨-, rfl⟩ := (decodeTailPtr_eq hd hsize).mp ht
  rw [if_pos hrow, rowTailPtr, if_pos hzero, word_leBytes hptr (by omega), hflags, decodeTail, if_neg (by decide),
    if_neg (by decide), decodeRecordCount, if_pos (by omega), readLE_leBytes_mod hcount hd, ok_bind] at htail
  obtain ⟨hrecords, hstart⟩ := Prod.mk.inj (Outcome.ok.inj htail)
  exact ⟨hrecords.symm, by omega⟩

/-! ## The export of a table -/

section Table

variable {r : Reader} {keys : List String} {rows : List RecordRow} (h : RowTable r keys rows)

include h

/-- What `decode` finds in the file of a table. -/
theorem RowTable.decoded {file : Slice} {decoded : DecodedFile} (hfile : file.bytes = r.data)
    (hr : Reader.new file = .ok r) (hdec : decode file = .ok decoded) :
    decoded.keys = keys ∧ decoded.keySigils = schemaSigils keys.length (tableSigils keys rows) ∧
      decoded.recordCount = r.recordCount ∧ decoded.tailStart = r.tailStart := by
  obtain ⟨hkeys, hsigils, hcount⟩ := readers_see_same hr hdec
  refine ⟨hkeys.trans h.keys_eq, hsigils.trans h.keySigils, hcount, ?_⟩
  obtain ⟨hflags, -, hzero⟩ := h.file.words
  obtain ⟨hrecords, hptr, -⟩ := h.file.tail_at
  rw [← hfile] at hflags hzero hrecords hptr
  rw [(decoded_tail_row hdec hflags hzero hrecords hptr).2, h.tailStart]

variable {decoded : DecodedFile} (hkeys : decoded.keys = keys)
  (hsigils : decoded.keySigils = schemaSigils keys.length (tableSigils keys rows))
  (htail : decoded.tailStart = r.tailStart) (hrows : ∀ row ∈ rows, RowFits keys row)
  (hsector : (rowsBytes keys.length rows).length < 2 ^ 32)

include hkeys hsigils htail hrows hsector

/-- The exporter finds the object of a row. -/
theorem RowTable.exportRecord (base64 : Bytes → String) (mode : BinaryEncoding) {i : ℕ} {row : RecordRow}
    (hrow : rows[i]? = some row) :
    ∃ off fields, At r.data off (objectBytes keys.length (rowValues row)) ∧
      orEmpty (decodeRecordAt r.data off keys (schemaSigils keys.length (tableSigils keys rows))) = .ok fields ∧
      JsonOut.exportRecord base64 mode r.data decoded i = .ok (some (JsonOut.fieldsToJson base64 mode fields)) := by
  have hd := h.small
  have hi := (List.getElem?_eq_some_iff.mp hrow).1
  obtain ⟨off, hoff, hat, hle⟩ := h.file.record_at hrows hrow
  have hentry := h.file.entry_at hoff
  obtain ⟨-, -, hend⟩ := h.file.tail_at
  have hin := hat.le
  have hobj : 8 ≤ (objectBytes keys.length (rowValues row)).length := by
    rw [objectBytes_length (rowValues_length (hrows row (List.mem_of_getElem? hrow))), objectLen, objectStart]
    unfold objectHeaderLen
    omega
  rw [Nat.mod_eq_of_lt (by omega)] at hentry
  have hoff : tableStart keys rows + off ≤ r.data.length := by omega
  obtain ⟨fields, hfields⟩ := orEmpty_of_safe (safe_decodeObject hd keys (schemaSigils keys.length (tableSigils keys rows)) hoff)
  refine ⟨_, fields, hat, hfields, ?_⟩
  rw [JsonOut.exportRecord, htail, h.tailStart, usizeMul_of (by omega), ok_bind, usizeAdd_of (by omega), ok_bind,
    usizeAdd_of (by omega), ok_bind, if_neg (by omega), getLE_leBytes hentry (by omega) hd, okOr_ok, ok_bind, hkeys,
    hsigils, decodeRecordAt, hfields, ok_bind]

/-- The export of a table: an object for each row. -/
theorem RowTable.run (base64 : Bytes → String) (mode : BinaryEncoding) {file : Slice} (hfile : file.bytes = r.data)
    (hdec : decode file = .ok decoded) (hcount : decoded.recordCount = rows.length) :
    ∃ records, JsonOut.run base64 mode file = .ok records ∧ records.length = rows.length ∧
      ∀ (i : ℕ) (row : RecordRow), rows[i]? = some row → ∃ off fields, At r.data off (objectBytes keys.length (rowValues row)) ∧
        orEmpty (decodeRecordAt r.data off keys (schemaSigils keys.length (tableSigils keys rows))) = .ok fields ∧
        records[i]? = some (JsonOut.fieldsToJson base64 mode fields) := by
  have hrecord : ∀ (i : ℕ) (row : RecordRow), rows[i]? = some row → _ := fun i row hrow =>
    h.exportRecord hkeys hsigils htail hrows hsector base64 mode hrow
  have hall : ∀ j < rows.length, ∃ obj, JsonOut.exportRecord base64 mode r.data decoded (0 + j) = .ok (some obj) := by
    intro j hj
    obtain ⟨off, fields, -, -, hobj⟩ := hrecord j _ (List.getElem?_eq_getElem hj)
    rw [Nat.zero_add]
    exact ⟨_, hobj⟩
  obtain ⟨records, hrecords, hlen, hget⟩ := JsonOut.exportLoop_ok rows.length 0 hall
  refine ⟨records, ?_, hlen, fun i row hrow => ?_⟩
  · rw [JsonOut.run, hdec, ok_bind, hfile, hcount]
    exact hrecords
  · obtain ⟨off, fields, hat, hfields, hobj⟩ := hrecord i row hrow
    obtain ⟨obj, hobj', hi⟩ := hget i (List.getElem?_eq_some_iff.mp hrow).1
    rw [Nat.zero_add, hobj] at hobj'
    cases hobj'
    exact ⟨off, fields, hat, hfields, hi⟩

end Table

theorem exportsRight_of_rejected {base64 : Bytes → String} {mode : BinaryEncoding} {file : Slice} {keys : List String}
    {kinds : List UInt8} (h : (decode file).isOk ≠ true) : ExportsRight base64 mode file keys kinds := by
  rcases decode_total file with ⟨decoded, hdec⟩ | ⟨e, hdec⟩
  · exact absurd (isOk_iff.mpr ⟨decoded, hdec⟩) h
  · rw [ExportsRight, JsonOut.run, hdec, err_bind]
    trivial

/-- The export of a file without records, where the reader accepts what `decode` does. -/
theorem exportsRight_of_empty {base64 : Bytes → String} {mode : BinaryEncoding} {file : Slice} {keys : List String}
    {kinds : List UInt8} (hr : (decode file).isOk = true → ∃ r, Reader.new file = .ok r ∧ r.recordCount = 0) :
    ExportsRight base64 mode file keys kinds := by
  by_cases hok : (decode file).isOk = true
  · obtain ⟨decoded, hdec⟩ := isOk_iff.mp hok
    obtain ⟨r, hnew, hzero⟩ := hr hok
    obtain ⟨-, -, hcount⟩ := readers_see_same hnew hdec
    rw [ExportsRight, JsonOut.run, hdec, ok_bind, hcount, hzero, JsonOut.exportLoop]
    exact ⟨r, hnew, hzero.symm, fun i obj hobj => by cases hobj⟩
  · exact exportsRight_of_rejected hok

/-! ## The files -/

/-- Files of the other layouts that have no rows, or whose keys `decode` does not take. -/
inductive WrittenEmpty (keys : List String) : Slice → Prop where
  | compact {opts : CompactOptions} {file : Slice} (hwire : hasFlag opts.preambleFlags FLAG_V13_COMPACT_MASK = true)
      (h : finishRow keys [] (some opts) = .ok file) : WrittenEmpty keys file
  | columnar {rows : List RecordRow} {file : Slice} (hrows : WithinLimits keys → rows = [])
      (h : finishColumnar keys rows = .ok file) : WrittenEmpty keys file
  | pax {rows : List RecordRow} {pageSize : UInt32} {file : Slice} (hrows : WithinLimits keys → rows = [])
      (h : finishPax keys rows pageSize = .ok file) : WrittenEmpty keys file

section Files

variable (base64 : Bytes → String) (mode : BinaryEncoding) {keys : List String} {kinds : List UInt8} {file : Slice}
  (hlen : keys.length < 65536) (hnd : keys.Nodup) (hnul : ∀ k ∈ keys, NulFree k)

theorem compact_exportsRight {opts : CompactOptions} (hwire : hasFlag opts.preambleFlags FLAG_V13_COMPACT_MASK = true)
    (h : finishRow keys [] (some opts) = .ok file) : ExportsRight base64 mode file keys kinds := by
  have hsmall := file.small
  refine exportsRight_of_empty fun hok => ?_
  obtain ⟨w, hw, hfinish⟩ := finishRow_eq_ok.mp h
  cases hw
  obtain ⟨data, offsets, pre, start, ptr, -, hstart, hptr, hframed, -⟩ := finish_compact_parts rfl hfinish
  obtain ⟨hcol, hpax⟩ := preambleFlags_layout opts
  have hv13 := hasFlag_embedded FLAG_V13_COMPACT_MASK opts.preambleFlags (by decide)
  obtain ⟨hshared, -⟩ := (decode_isOk_iff file).mp hok
  have hchecks := hframed.readerChecks_compact hsmall (by omega) hcol hpax (hv13.trans hwire)
  obtain ⟨r, hr⟩ := isOk_iff.mp ((reader_isOk_iff file).mpr ⟨hshared, hchecks⟩)
  obtain ⟨keys', sigils', ext, plan, hopen, -⟩ := reader_opens hr
  have hcount := (openTail_sees hsmall hshared.size hopen).2.2
  refine ⟨r, hr, ?_⟩
  rw [hcount, finish_compact_count rfl hfinish]
  rfl

include hlen hnd hnul

theorem writtenEmpty_exportsRight (hpos : keys ≠ []) (h : WrittenEmpty keys file) :
    ExportsRight base64 mode file keys kinds := by
  cases h with
  | compact hwire h => exact compact_exportsRight base64 mode hwire h
  | columnar hrows h =>
    obtain ⟨t, body, hframed, -⟩ := finishColumnar_framed h
    refine exportsRight_of_empty fun hok => ?_
    have hempty := hrows (hframed.withinLimits rfl rfl hlen hnul hok)
    obtain ⟨r, hr, -, hcol⟩ := new_finishColumnar hpos hlen hnul hnd (zero_not_mem_sigilsForKeys keys _) h
    exact ⟨r, hr, hcol.holds.recordCount.trans (by rw [hempty]; rfl)⟩
  | pax hrows h =>
    obtain ⟨t, body, hframed, -⟩ := finishPax_framed h
    refine exportsRight_of_empty fun hok => ?_
    have hempty := hrows (hframed.withinLimits rfl rfl hlen hnul hok)
    obtain ⟨r, base, gs, st, hr, -, hpax, hflat, -⟩ := new_finishPax hlen hnul h
    exact ⟨r, hr, hpax.recordCount.trans (by rw [hflat, hempty]; rfl)⟩

variable {rows : List RecordRow} (hplain : PlainTable keys kinds rows)
  (hsector : (rowsBytes keys.length rows).length < 2 ^ 32) (hoffs : ∀ row ∈ rows, OffsetsFit keys.length row)

include hplain hsector hoffs

/-- The export of a v1.2 row file that `decode` takes is right exactly when its cells are plain. -/
theorem table_exportsRight (h64 : ∀ b, b.length ≤ 8 → (utf8 (base64 b)).length ≤ 12) (hlim : WithinLimits keys)
    (h : finishRow keys rows none = .ok file) :
    ExportsRight base64 mode file keys kinds ↔ ∀ row ∈ rows, ∀ c ∈ row.cells, c.Plain := by
  have hmany := hlim.many
  have hfits : ∀ row ∈ rows, RowFits keys row := fun row hrow => hplain.rowFits hrow
  have hcount : rows.length < 2 ^ 32 := lt_of_le_of_lt (rows_le_bytes hfits) hsector
  have hfile := finishRow_file hlen hfits h
  obtain ⟨r, hr, hdata, htable⟩ := hfile.opens hlen hnul
  obtain ⟨-, r', decoded, hr', hdec, -⟩ := finish_accepted hnul hlim h (fun opts hopts => by cases hopts)
  obtain rfl : r = r' := Outcome.ok.inj (hr.symm.trans hr')
  obtain ⟨hkeys, hsigils, hrecs, htail⟩ := htable.decoded hdata.symm hr hdec
  have hrecCount : r.recordCount = rows.length := by
    rw [htable.recordCount, Nat.mod_eq_of_lt hcount]
  obtain ⟨records, hrun, hlenRecords, hrecords⟩ := htable.run hkeys hsigils htail hfits hsector base64 mode hdata.symm hdec
    (hrecs.trans hrecCount)
  have hreads : ∀ (i : ℕ) (row : RecordRow), rows[i]? = some row → ∀ (fi : ℕ) (key : String), keys[fi]? = some key →
      r.Reads i key (row.cell fi) := fun i row hrow fi key hkey =>
    htable.reads hfits hsector hcount hnd hrow hkey (hoffs row (List.mem_of_getElem? hrow))
  rw [ExportsRight, hrun]
  dsimp only
  constructor
  · rintro ⟨r', hr', -, hobj⟩ row hrow c hc
    obtain rfl : r = r' := Outcome.ok.inj (hr.symm.trans hr')
    by_contra hbad
    obtain ⟨i, hi, rfl⟩ := List.getElem_of_mem hrow
    have hget := List.getElem?_eq_getElem hi
    obtain ⟨off, fields, hat, hfields, hrecord⟩ := hrecords i _ hget
    obtain ⟨off', -, -, hle⟩ := htable.file.record_at hfits hget
    exact not_exportedAlike hplain hnd hrow hat htable.small hmany (hoffs _ hrow) mode h64 (by omega) (hreads i _ hget) hc
      hbad hfields (hobj i _ hrecord)
  · intro hall
    refine ⟨r, hr, hlenRecords.trans hrecCount.symm, fun i obj hobj => ?_⟩
    have hi : i < rows.length := by
      rw [← hlenRecords]
      exact (List.getElem?_eq_some_iff.mp hobj).1
    have hget := List.getElem?_eq_getElem hi
    obtain ⟨off, fields, hat, hfields, hrecord⟩ := hrecords i _ hget
    have hrow := List.getElem_mem hi
    rw [decodeRecordAt_plain hplain hrow hat htable.small hmany (hoffs _ hrow) (hall _ hrow)] at hfields
    cases hfields
    rw [hobj] at hrecord
    cases hrecord
    exact exportedAlike_plain hplain hnd hrow base64 mode (hreads i _ hget)

end Files

end Nyxis
