import Nyxis.WrittenSchema

/-!
# Registry — the schema that is pushed, and the one that was hashed

`compileFields` chooses the writer by the options of a compile, and `extractPreamble` looks for the schema in what the
writer wrote.  The writers put the DictHash of `dictSchema` into the preamble.

* `extractPreamble_framed`: the part of a written schema that is found.
* `registry_matches_iff`: it is the whole schema exactly when the file has no compact rows.
-/

namespace Nyxis

open Lib Lib.Outcome

/-! ## Compiling -/

namespace Cell

/-- `Cell::from_value`. -/
def fromValue : Value → Res Cell
  | .int n => .ok (.i64 n)
  | .float f => .ok (.f64 f)
  | .bool b => .ok (.bool b)
  | .time ns => .ok (.time ns)
  | .null => .ok .null
  | .str s => .ok (.str s)
  | .binary b => .ok (.binary b)
  | .keyword _ => .err .unsupportedFieldType
  | .object _ | .list _ | .expr _ | .link _ =>
    .err (.parseError "nested values not supported in columnar/PAX records")

end Cell

/-- `cells.resize(n, Cell::Absent)`. -/
def resizeCells (n : ℕ) (cells : List Cell) : List Cell := cells.take n ++ List.replicate (n - cells.length) .absent

/-- One field of a record: the keys met so far, and the record's cells. -/
def recordField (st : List String × List Cell) (f : Field) : Res (List String × List Cell) := do
  let (keys, cells) := st
  let cell ← Cell.fromValue f.value
  let idx := keys.idxOf f.key
  let (keys, cells) := if f.key ∈ keys then (keys, cells) else (keys ++ [f.key], resizeCells idx cells)
  let cells := if cells.length ≤ idx then resizeCells (idx + 1) cells else cells
  .ok (keys, cells.set idx cell)

/-- One top-level field: the keys met so far, and the rows. -/
def recordBlock (st : List String × List RecordRow) (f : Field) : Res (List String × List RecordRow) :=
  match f.value with
  | .object inner => do
    let (keys, cells) ← inner.foldlM recordField (st.1, [])
    .ok (keys, st.2 ++ [⟨cells⟩])
  | _ => .err (.parseError "columnar/PAX compile expects top-level \x60name \x7b ... \x7d\x60 record blocks")

def recordsFromFields (fields : List Field) : Res (List String × List RecordRow) := do
  let (keys, rows) ← fields.foldlM recordBlock ([], [])
  ensure (rows ≠ []) (.parseError "no records to compile")
  .ok (keys, rows.map fun row => ⟨resizeCells keys.length row.cells⟩)

structure CompileOptions where
  layout : Layout
  pageSize : UInt32
  compact : Option CompactOptions
  legacyV12 : Bool

namespace CompileOptions

/-- `CompileOptions::default()`. -/
def default : CompileOptions := ⟨.row, 0, none, false⟩

/-- Rows are compact unless `legacy_v12` is set. -/
def rowCompact (opts : CompileOptions) : Option CompactOptions :=
  if opts.legacyV12 then none else some (opts.compact.getD .compact)

/-- The options of a compile, those of the file in front. -/
def merge (opts fileOpts : CompileOptions) : CompileOptions :=
  let layout := if fileOpts.layout ≠ .row then fileOpts.layout else opts.layout
  let pageSize := if fileOpts.pageSize ≠ 0 then fileOpts.pageSize else opts.pageSize
  ⟨layout, if pageSize = 0 ∧ layout = .pax then 4096 else pageSize, opts.compact, opts.legacyV12⟩

end CompileOptions

/-- Rows in the compact encoding, or the v1.2 compiler for what has no rows. -/
def compileRow (stack : ℕ) (fields : List Field) (compact : CompactOptions) : Res Slice :=
  match recordsFromFields fields with
  | .ok (keys, rows) => finishRow keys rows (some compact)
  | .err (.parseError _) | .err .unsupportedFieldType => Compiler.compile stack fields
  | .err e => .err e
  | .panic => .panic

def compileFields (stack : ℕ) (fields : List Field) (opts : CompileOptions) : Res Slice :=
  match opts.layout with
  | .row =>
    match opts.rowCompact with
    | some compact => compileRow stack fields compact
    | none => Compiler.compile stack fields
  | .columnar => do
    let (keys, rows) ← recordsFromFields fields
    finishColumnar keys rows
  | .pax => do
    let (keys, rows) ← recordsFromFields fields
    finishPax keys rows (if opts.pageSize = 0 then 4096 else opts.pageSize)

/-- `compile_source_with_opts` once the source is parsed to its fields and the options of its pragmas. -/
def compileSourceWithOpts (stack : ℕ) (parsed : Res (List Field × CompileOptions)) (opts : CompileOptions) : Res Slice := do
  let (fields, fileOpts) ← parsed
  compileFields stack fields (opts.merge fileOpts)

/-! ## The registry's side -/

structure PreambleInfo where
  dictHash : UInt64
  schemaBytes : Bytes
  deriving DecidableEq, Repr

/-- `MAX_SCHEMA_KEYS`. -/
def MAX_SCHEMA_KEYS : ℕ := 256

/-- Behind `n` NUL-terminated names. -/
def skipPreambleNames (d : Bytes) : ℕ → ℕ → Outcome String ℕ
  | 0, pos => .ok pos
  | n + 1, pos => do
    let stop := pos + nonNul (d.drop pos)
    ensure (stop < d.length) "SCHEMA_TRUNCATED"
    skipPreambleNames d n (stop + 1)

/-- `while pos % 8 != 0`; the first argument is above the number of steps. -/
def alignSchema (d : Bytes) : ℕ → ℕ → Outcome String ℕ
  | 0, pos => .ok pos
  | fuel + 1, pos =>
    if pos % 8 ≠ 0 then do
      ensure (pos < d.length) "SCHEMA_ALIGN"
      alignSchema d fuel (pos + 1)
    else .ok pos

def extractPreamble (d : Bytes) : Outcome String PreambleInfo := do
  ensure (¬ d.length < 32) "PAYLOAD_TOO_SHORT"
  let magic ← readLE d 0 4
  ensure (magic = MAGIC_FILE) "BAD_MAGIC"
  let flags ← readLE d 6 2
  ensure (hasFlag flags FLAG_SCHEMA_EMBEDDED) "SCHEMA_NOT_EMBEDDED"
  let dictHash ← readLE d 8 8
  ensure (¬ 32 + 2 > d.length) "SCHEMA_TRUNCATED"
  let keyCount ← readLE d 32 2
  ensure (¬ keyCount > MAX_SCHEMA_KEYS) "SCHEMA_KEY_COUNT"
  let pos ← skipPreambleNames d keyCount (32 + 2 + keyCount)
  let pos ← alignSchema d 8 pos
  let schemaBytes ← range d 32 pos
  .ok ⟨.ofNat dictHash, schemaBytes⟩

/-! ## The schema that was hashed -/

/-- The keys of a row file, and the bytes that its DictHash is computed over. -/
def rowSchema (keys : List String) (rows : List RecordRow) (compact : CompactOptions) : Res (List String × Bytes) := do
  let w ← rows.foldlM writeRow (NxsWriter.withCompact keys (some compact))
  .ok (keys, buildExtendedSchema (w.buildExtendedSchema compact) compact.preambleFlags)

/-- The same for a file of the v1.2 compiler. -/
def compilerSchema (stack : ℕ) (fields : List Field) : Res (List String × Bytes) := do
  let (sigils, _) ← Compiler.encodeRoot stack fields
  .ok (Compiler.collectFields fields [], buildSchema (Compiler.collectFields fields []) sigils)

/-- The same for a columnar or PAX file. -/
def columnSchema (fields : List Field) : Res (List String × Bytes) := do
  let (keys, rows) ← recordsFromFields fields
  .ok (keys, buildSchema keys (sigilsForKeys keys rows))

/-- The same for a file of `compileFields`. -/
def dictSchema (stack : ℕ) (fields : List Field) (opts : CompileOptions) : Res (List String × Bytes) :=
  match opts.layout, opts.rowCompact with
  | .row, some compact =>
    match recordsFromFields fields with
    | .ok (keys, rows) => rowSchema keys rows compact
    | _ => compilerSchema stack fields
  | .row, none => compilerSchema stack fields
  | _, _ => columnSchema fields

/-- The rows are written in the compact encoding. -/
def CompactRows (fields : List Field) (opts : CompileOptions) : Prop :=
  opts.layout = .row ∧ opts.rowCompact.isSome = true ∧ (recordsFromFields fields).isOk = true

instance (fields : List Field) (opts : CompileOptions) : Decidable (CompactRows fields opts) :=
  inferInstanceAs (Decidable (_ ∧ _ ∧ _))

/-- The part of a schema that all writers write. -/
def basicHeader (keys : List String) (sigils : List UInt8) : Bytes :=
  padTo 8 (leBytes 2 keys.length ++ sigils ++ strTable keys)

/-- The file has the hash of `schema`, which consists of the basic header and `rest`. -/
structure Hashed (d : Bytes) (keys : List String) (schema rest : Bytes) : Prop where
  framed : ∃ version flags t body, Framed d version flags t schema body ∧ hasFlag flags FLAG_SCHEMA_EMBEDDED = true
  header : ∃ sigils, sigils.length = keys.length ∧ schema = basicHeader keys sigils ++ rest

/-! ## What is found -/

theorem skipPreambleNames_strTable {d : Bytes} : ∀ {l : List String} {pos : ℕ}, (∀ s ∈ l, NulFree s) → At d pos (strTable l) →
    skipPreambleNames d l.length pos = .ok (pos + (strTable l).length)
  | [], pos, _, _ => rfl
  | s :: l, pos, hl, hat => by
    rw [strTable_cons] at hat ⊢
    have hle := hat.le
    rw [List.length_append, List.length_cons] at hle
    obtain ⟨post, hpost⟩ : ∃ post, d.drop pos = utf8 s ++ 0 :: post := by
      obtain ⟨pre, post, rfl, rfl⟩ := hat
      exact ⟨strTable l ++ post, by simp⟩
    have hstop : pos + nonNul (d.drop pos) = pos + (utf8 s).length := by
      rw [hpost, nonNul_append (hl s List.mem_cons_self)]
    have htab : At d (pos + (utf8 s).length + 1) (strTable l) := (at_cons.mp (at_append.mp hat).2).2
    rw [List.length_cons, skipPreambleNames, hstop, ensure_of (by omega), ok_bind,
      skipPreambleNames_strTable (fun t ht => hl t (List.mem_cons_of_mem s ht)) htab, List.length_append, List.length_cons]
    congr 1
    omega

theorem alignSchema_eq {d : Bytes} : ∀ {fuel pos : ℕ}, align8 pos < pos + fuel → align8 pos ≤ d.length →
    alignSchema d fuel pos = .ok (align8 pos)
  | 0, pos, hfuel, _ => by
    have hle := le_align8 pos
    omega
  | fuel + 1, pos, hfuel, hle => by
    rw [alignSchema]
    by_cases hmod : pos % 8 ≠ 0
    · have hnext : align8 (pos + 1) = align8 pos := by
        unfold align8
        split_ifs <;> omega
      have hpos : pos < align8 pos := by
        rw [align8, if_pos hmod]
        omega
      rw [if_pos hmod, ensure_of (by omega), ok_bind, alignSchema_eq (by omega) (by omega), hnext]
    · rw [if_neg hmod, align8, if_neg hmod]

/-- The part of a written schema that the registry finds: the basic header, and the hash of the whole. -/
theorem extractPreamble_framed {file : Slice} {keys : List String} {sigils : List UInt8} {schema rest body : Bytes}
    {version flags t : ℕ} (hframed : Framed file.bytes version flags t schema body)
    (hemb : hasFlag flags FLAG_SCHEMA_EMBEDDED = true) (hsigils : sigils.length = keys.length)
    (hschema : schema = basicHeader keys sigils ++ rest) (hcount : keys.length ≤ 256) (hnul : ∀ k ∈ keys, NulFree k) :
    extractPreamble file.bytes = .ok ⟨murmur3_64 schema, basicHeader keys sigils⟩ := by
  have hsmall := file.small
  have hat : At file.bytes 32 (basicHeader keys sigils) := by
    have hat := hframed.schema_at
    rw [hschema, at_append] at hat
    exact hat.1
  have hself := at_self file.bytes
  conv at hself => arg 3; rw [hframed.bytes, preamble]
  simp only [at_append, List.length_append, leBytes_length, Nat.zero_add] at hself
  obtain ⟨⟨⟨⟨⟨⟨⟨hmagic, -⟩, hflags⟩, hhash⟩, -⟩, -⟩, -⟩, -⟩ := hself
  have hle := hat.le
  have hparts := hat
  rw [basicHeader, padTo, at_append, at_append, at_append] at hparts
  obtain ⟨⟨⟨hn, -⟩, htab⟩, -⟩ := hparts
  rw [List.length_append, leBytes_length, hsigils, ← Nat.add_assoc] at htab
  have hlen : (basicHeader keys sigils).length = 2 + keys.length + (strTable keys).length +
      padLen 8 (2 + keys.length + (strTable keys).length) := by
    rw [basicHeader, padTo_length, List.length_append, List.length_append, leBytes_length, hsigils]
  have halign : align8 (32 + 2 + keys.length + (strTable keys).length) = 32 + (basicHeader keys sigils).length := by
    rw [hlen, show 32 + 2 + keys.length + (strTable keys).length = 32 + (2 + keys.length + (strTable keys).length) by
      omega, align8_of_dvd (by decide)]
  have hclose : align8 (32 + 2 + keys.length + (strTable keys).length) <
      32 + 2 + keys.length + (strTable keys).length + 8 := by
    unfold align8
    split <;> omega
  have hrange := range_at (ε := String) hat
  rw [extractPreamble, ensure_of (by omega), ok_bind, readLE_leBytes hmagic (by decide) hsmall, ok_bind,
    ensure_of rfl, ok_bind, readLE_leBytes hflags hframed.flags_lt hsmall, ok_bind, ensure_of hemb, ok_bind,
    readLE_leBytes hhash (UInt64.toNat_lt _) hsmall, ok_bind, ensure_of (by omega), ok_bind,
    readLE_leBytes hn (by omega) hsmall, ok_bind, ensure_of (by rw [MAX_SCHEMA_KEYS]; omega), ok_bind,
    skipPreambleNames_strTable hnul htab, ok_bind, alignSchema_eq hclose (by omega), ok_bind, halign, hrange, ok_bind,
    UInt64.ofNat_toNat]

/-! ## Each writer's schema -/

theorem buildSchema_header (keys : List String) (sigils : List UInt8) :
    buildSchema keys sigils = basicHeader keys (schemaSigils keys.length sigils) ++ [] := (List.append_nil _).symm

theorem compile_hashed {stack : ℕ} {fields : List Field} {file : Slice} (h : Compiler.compile stack fields = .ok file) :
    ∃ keys schema, compilerSchema stack fields = .ok (keys, schema) ∧ Hashed file.bytes keys schema [] := by
  rw [Compiler.compile] at h
  obtain ⟨⟨sigils, root⟩, hroot, h⟩ := bind_eq_ok.mp h
  dsimp only at h
  rw [Compiler.encodeTailIndex] at h
  exact ⟨_, _, by rw [compilerSchema, hroot]; rfl, ⟨_, _, _, _, sealRow_eq_ok (by decide) h, rfl⟩, _,
    schemaSigils_length _ sigils, buildSchema_header _ sigils⟩

theorem columnSchema_hashed {fields : List Field} {keys : List String} {rows : List RecordRow} {file : Slice}
    {version flags t : ℕ} {body : Bytes} (hrecords : recordsFromFields fields = .ok (keys, rows))
    (hframed : Framed file.bytes version flags t (buildSchema keys (sigilsForKeys keys rows)) body)
    (hemb : hasFlag flags FLAG_SCHEMA_EMBEDDED = true) :
    ∃ keys schema, columnSchema fields = .ok (keys, schema) ∧ Hashed file.bytes keys schema [] :=
  ⟨_, _, by rw [columnSchema, hrecords]; rfl, ⟨_, _, _, _, hframed, hemb⟩, _, schemaSigils_length _ _,
    buildSchema_header keys (sigilsForKeys keys rows)⟩

/-- Behind the basic header, an extended one has at least the number of pool strings. -/
theorem buildExtendedSchema_header (sch : ExtendedSchema) (flags : ℕ) :
    ∃ rest, rest ≠ [] ∧ buildExtendedSchema sch flags = basicHeader sch.keys sch.sigils ++ rest := by
  have hcount (front back : Bytes) : front ++ (leBytes 2 sch.valuePool.length ++ back) ≠ [] := by
    intro h
    have hlen := congrArg List.length h
    rw [List.length_append, List.length_append, leBytes_length, List.length_nil] at hlen
    omega
  rw [buildExtendedSchema_eq, poolBlock, ← basicHeader]
  set columns := columnBlock sch.keys.length sch.widths (hasFlag flags FLAG_NARROW_CELLS) ++
    columnBlock sch.keys.length sch.fieldAttrs (hasFlag flags FLAG_V13_COMPACT_MASK) with hcolumns
  rw [List.append_assoc (basicHeader sch.keys sch.sigils), ← hcolumns]
  split
  · exact ⟨columns ++ (leBytes 2 sch.valuePool.length ++ []), hcount columns [], by
      rw [List.append_nil, List.append_assoc]⟩
  · exact ⟨columns ++ (leBytes 2 sch.valuePool.length ++ (strTable sch.valuePool ++ _)), hcount columns _, by
      simp only [padTo, List.append_assoc]
      rfl⟩

theorem rowSchema_hashed {keys : List String} {rows : List RecordRow} {compact : CompactOptions} {file : Slice}
    (h : finishRow keys rows (some compact) = .ok file) :
    ∃ schema rest, rowSchema keys rows compact = .ok (keys, schema) ∧ rest ≠ [] ∧ Hashed file.bytes keys schema rest := by
  obtain ⟨w, hw, hfinish⟩ := finishRow_eq_ok.mp h
  have hsame := SameSlots.foldlM (fun _ _ _ h => SameSlots.writeRow h) hw
  have hkeys : w.keys = keys := hsame.keys
  obtain ⟨data, offsets, pre, start, ptr, -, -, -, hframed, -⟩ := finish_compact_parts hsame.compact hfinish
  obtain ⟨rest, hrest, hschema⟩ := buildExtendedSchema_header (w.buildExtendedSchema compact) compact.preambleFlags
  have hsigils : (w.slotSigils.map schemaSigil).length = keys.length := by
    rw [List.length_map, hsame.count]
    exact List.length_replicate
  refine ⟨_, rest, by rw [rowSchema, hw]; rfl, hrest, ⟨_, _, _, _, hframed, hasFlag_or_self _ _ (by decide)⟩,
    w.slotSigils.map schemaSigil, hsigils, ?_⟩
  rw [hschema, ← hkeys]
  rfl

/-- What `compileFields` writes has the hash of `dictSchema`, which is the basic header unless the rows are compact. -/
theorem compileFields_hashed {stack : ℕ} {fields : List Field} {opts : CompileOptions} {file : Slice}
    (h : compileFields stack fields opts = .ok file) : ∃ keys schema rest,
      dictSchema stack fields opts = .ok (keys, schema) ∧ Hashed file.bytes keys schema rest ∧
        (rest = [] ↔ ¬ CompactRows fields opts) := by
  have hbasic (hnot : ¬ CompactRows fields opts)
      (hschema : ∃ keys schema, dictSchema stack fields opts = .ok (keys, schema) ∧ Hashed file.bytes keys schema []) :
      ∃ keys schema rest, dictSchema stack fields opts = .ok (keys, schema) ∧ Hashed file.bytes keys schema rest ∧
        (rest = [] ↔ ¬ CompactRows fields opts) := by
    obtain ⟨keys, schema, hdict, hhashed⟩ := hschema
    exact ⟨keys, schema, [], hdict, hhashed, iff_of_true rfl hnot⟩
  rw [compileFields] at h
  cases hlayout : opts.layout with
  | row =>
    rw [hlayout] at h
    cases hcompact : opts.rowCompact with
    | none =>
      rw [hcompact] at h
      refine hbasic (fun hc => ?_) ?_
      · rw [CompactRows, hcompact] at hc
        exact absurd hc.2.1 Bool.false_ne_true
      · rw [dictSchema, hlayout, hcompact]
        exact compile_hashed h
    | some compact =>
      rw [hcompact] at h
      dsimp only at h
      rw [compileRow] at h
      cases hrecords : recordsFromFields fields with
      | ok r =>
        rw [hrecords] at h
        obtain ⟨keys, rows⟩ := r
        obtain ⟨schema, rest, hschema, hrest, hhashed⟩ := rowSchema_hashed h
        refine ⟨keys, schema, rest, ?_, hhashed, iff_of_false hrest (not_not.mpr ⟨hlayout, ?_, ?_⟩)⟩
        · rw [dictSchema, hlayout, hcompact, hrecords]
          exact hschema
        · rw [hcompact]
          rfl
        · rw [hrecords]
          rfl
      | err e =>
        rw [hrecords] at h
        refine hbasic (fun hc => ?_) ?_
        · rw [CompactRows, hrecords] at hc
          exact absurd hc.2.2 Bool.false_ne_true
        · rw [dictSchema, hlayout, hcompact, hrecords]
          refine compile_hashed ?_
          split at h
          · rename_i heq
            cases heq
          · exact h
          · exact h
          · cases h
          · cases h
      | panic =>
        rw [hrecords] at h
        cases h
  | columnar =>
    rw [hlayout] at h
    obtain ⟨⟨keys, rows⟩, hrecords, h⟩ := bind_eq_ok.mp h
    obtain ⟨t, body, hframed, -⟩ := finishColumnar_framed h
    refine hbasic (fun hc => ?_) ?_
    · rw [CompactRows, hlayout] at hc
      cases hc.1
    · rw [dictSchema, hlayout]
      exact columnSchema_hashed hrecords hframed rfl
  | pax =>
    rw [hlayout] at h
    obtain ⟨⟨keys, rows⟩, hrecords, h⟩ := bind_eq_ok.mp h
    obtain ⟨t, body, hframed, -⟩ := finishPax_framed h
    refine hbasic (fun hc => ?_) ?_
    · rw [CompactRows, hlayout] at hc
      cases hc.1
    · rw [dictSchema, hlayout]
      exact columnSchema_hashed hrecords hframed rfl

/-- The registry finds in `d` exactly the bytes `schema`, and their hash. -/
structure PreambleMatches (d schema : Bytes) (info : PreambleInfo) : Prop where
  extracted : extractPreamble d = .ok info
  range : info.schemaBytes = schema
  hash : murmur3_64 info.schemaBytes = info.dictHash

/-- The registry finds the schema that was hashed exactly where the rows are not written in the compact encoding. -/
theorem registry_matches_iff (stack : ℕ) (fields : List Field) (fileOpts opts : CompileOptions) (file : Slice)
    (h : compileSourceWithOpts stack (.ok (fields, fileOpts)) opts = .ok file) (keys : List String) (schema : Bytes)
    (hschema : dictSchema stack fields (opts.merge fileOpts) = .ok (keys, schema)) (hcount : keys.length ≤ 256)
    (hnul : ∀ k ∈ keys, NulFree k) :
    (∃ info, PreambleMatches file.bytes schema info) ↔ ¬ CompactRows fields (opts.merge fileOpts) := by
  rw [compileSourceWithOpts, ok_bind] at h
  obtain ⟨keys', schema', rest, hdict, ⟨⟨version, flags, t, body, hframed, hemb⟩, sigils, hsigils, hparts⟩, hrest⟩ :=
    compileFields_hashed h
  rw [hschema] at hdict
  cases hdict
  have hextract := extractPreamble_framed hframed hemb hsigils hparts hcount hnul
  rw [← hrest]
  constructor
  · rintro ⟨info, hmatches⟩
    have hinfo := hmatches.extracted
    rw [hextract] at hinfo
    cases hinfo
    have hrange : basicHeader keys sigils = schema := hmatches.range
    rw [hparts] at hrange
    exact List.self_eq_append_right.mp hrange
  · intro hnil
    rw [hnil, List.append_nil] at hparts
    exact ⟨_, hextract, hparts.symm, by rw [hparts]⟩

/-- One record with one integer. -/
def oneBlock : List Field := [.mk "r" (.object [.mk "a" (.int 1)])]

theorem registry_matches_legacy : ∃ file info,
    compileSourceWithOpts 3 (.ok (oneBlock, .default)) ⟨.row, 0, none, true⟩ = .ok file ∧
      PreambleMatches file.bytes [2, 0, 79, 34, 114, 0, 97, 0] info := by
  obtain ⟨file, hfile⟩ := isOk_iff.mp
    (show (compileSourceWithOpts 3 (.ok (oneBlock, .default)) ⟨.row, 0, none, true⟩).isOk = true by decide +kernel)
  obtain ⟨info, hinfo⟩ := (registry_matches_iff 3 oneBlock .default ⟨.row, 0, none, true⟩ file hfile ["r", "a"] _
    (show dictSchema 3 oneBlock _ = .ok (["r", "a"], [2, 0, 79, 34, 114, 0, 97, 0]) by decide +kernel) (by decide)
    (by decide)).mpr (by decide +kernel)
  exact ⟨file, info, hfile, hinfo⟩

/-- What a registry finds when it hashes the schema again. -/
def registryHash (file : Slice) : Option (UInt64 × UInt64) :=
  match extractPreamble file.bytes with
  | .ok info => some (murmur3_64 info.schemaBytes, info.dictHash)
  | _ => none

theorem registry_not_matches : ¬ ∀ (stack : ℕ) (fields : List Field) (fileOpts opts : CompileOptions) (file : Slice),
    compileSourceWithOpts stack (.ok (fields, fileOpts)) opts = .ok file → ∀ (keys : List String) (schema : Bytes),
    dictSchema stack fields (opts.merge fileOpts) = .ok (keys, schema) → keys.length ≤ 256 → (∀ k ∈ keys, NulFree k) →
    ∃ info, extractPreamble file.bytes = .ok info ∧ murmur3_64 info.schemaBytes = info.dictHash := by
  intro h
  obtain ⟨file, hfile⟩ := isOk_iff.mp
    (show (compileSourceWithOpts 3 (.ok (oneBlock, .default)) .default).isOk = true by decide +kernel)
  have hfound : registryHash <$> compileSourceWithOpts 3 (.ok (oneBlock, .default)) .default =
      .ok (some (8347196065206356806, 8920372582192172248)) := by decide +kernel
  rw [hfile, map_ok] at hfound
  obtain ⟨info, hinfo, hhash⟩ := h 3 oneBlock .default .default file hfile ["a"] [1, 0, 61, 97, 0, 0, 0, 0, 1, 0, 0, 0]
    (by decide +kernel) (by decide) (by decide)
  have hpair := ok.inj hfound
  rw [registryHash, hinfo] at hpair
  obtain ⟨hleft, hright⟩ := Prod.mk.inj (Option.some.inj hpair)
  rw [hhash, hright] at hleft
  exact absurd hleft (by decide)

end Nyxis
