import Nyxis.Acceptance
import Nyxis.Compiled
import Nyxis.MissingCells

/-!
# WrittenSchema — written files as both readers see them

`readers_see_same` compares what `Reader.new` and `decode` find in a file that both accept.  A file that
one of the writers wrote consists of a preamble with the hash of its schema, the schema and the rest
(`Framed`), and both readers accept it where the schema keeps to the limits of `decode`.

* `finish_accepted`, `columnar_accepted`, `pax_accepted`, `compile_accepted`: each writer's files.
* `written_seen_alike`: both readers see a written file with the keys that it was written with.
-/

namespace Nyxis

open Lib Lib.Outcome

/-! ## What both see -/

/-- The record count, where both readers look for it. -/
def recordCountOf (d : Bytes) : ℕ :=
  if RowLayout d then
    if Flagged d FLAG_DELTA_TAIL then
      match parseDeltaTailLayout d (rowTailPtr d) with
      | .ok layout => layout.recordCount
      | _ => 0
    else word d (rowTailPtr d) 4
  else word d (d.length - footerSize (flagsOf d) + 8) 8

theorem openTail_sees {d : Bytes} (hd : d.length < 2 ^ 63) (hsize : 32 ≤ d.length) {keys : List String}
    {sigils : List UInt8} {ext : Option ExtendedSchema} {plan : Option RowCellPlan} {r : Reader}
    (h : Reader.openTail d (flagsOf d) (word d 16 8) keys sigils ext plan = .ok r) :
    r.keys = keys ∧ r.keySigils = sigils ∧ r.recordCount = recordCountOf d := by
  have hfooter := footerSize_le (flagsOf d)
  rw [Reader.openTail] at h
  rw [recordCountOf]
  by_cases hrow : RowLayout d
  · -- what follows once the tail pointer is known
    have hrest : ∀ t : ℕ, ((do
        ensure (¬ t > d.length - 4) .outOfBounds
        if hasFlag (flagsOf d) FLAG_DELTA_TAIL then do
          let layout ← parseDeltaTailLayout d t
          .ok ⟨d, flagsOf d, keys, sigils, ext, plan, layout.recordCount, t, some layout, .row, [], []⟩
        else do
          let recordCount ← readLE d t 4
          .ok ⟨d, flagsOf d, keys, sigils, ext, plan, recordCount, t + 4, none, .row, [], []⟩ : Res Reader) = .ok r) →
        r.keys = keys ∧ r.keySigils = sigils ∧ r.recordCount = if Flagged d FLAG_DELTA_TAIL then
          match parseDeltaTailLayout d t with
          | .ok layout => layout.recordCount
          | _ => 0
        else word d t 4 := by
      intro t h
      obtain ⟨_, hle, h1⟩ := bind_eq_ok.mp h
      rw [ensure_eq_ok, Nat.not_lt] at hle
      by_cases hdelta : Flagged d FLAG_DELTA_TAIL
      · rw [if_pos hdelta] at h1 ⊢
        obtain ⟨layout, hlayout, h2⟩ := bind_eq_ok.mp h1
        cases h2
        rw [hlayout]
        exact ⟨rfl, rfl, rfl⟩
      · rw [if_neg hdelta] at h1 ⊢
        rw [readLE_word (by omega) hd, ok_bind] at h1
        cases h1
        exact ⟨rfl, rfl, rfl⟩
    rw [if_neg hrow.1, if_neg hrow.2] at h
    dsimp only at h
    rw [if_pos hrow, rowTailPtr]
    by_cases hzero : word d 16 8 = 0
    · rw [if_pos hzero] at h ⊢
      obtain ⟨_, hroom, h1⟩ := bind_eq_ok.mp h
      rw [ensure_eq_ok] at hroom
      rw [readLE_word (by omega) hd, ok_bind] at h1
      exact hrest _ h1
    · rw [if_neg hzero] at h ⊢
      exact hrest _ h
  · have hroom := le_footerSize ((hasFlag_columns d).mpr hrow)
    rw [if_neg hrow]
    split at h
    · rw [readLE_word (by omega) hd, ok_bind, readLE_word (by omega) hd, ok_bind] at h
      obtain ⟨_, -, h1⟩ := bind_eq_ok.mp h
      obtain ⟨_, -, h2⟩ := bind_eq_ok.mp h1
      obtain ⟨_, -, h3⟩ := bind_eq_ok.mp h2
      obtain ⟨_, -, h4⟩ := bind_eq_ok.mp h3
      cases h4
      exact ⟨rfl, rfl, rfl⟩
    · rename_i hcol
      rw [if_pos (by_contra fun hpax => hrow ⟨hcol, hpax⟩), readLE_word (by omega) hd, ok_bind,
        readLE_word (by omega) hd, ok_bind] at h
      cases h
      exact ⟨rfl, rfl, rfl⟩

theorem decodeTail_sees {d : Bytes} (hd : d.length < 2 ^ 63) (hsize : 32 ≤ d.length) {t : ℕ} {r : ℕ × ℕ}
    (ht : decodeTailPtr d (flagsOf d) (word d 16 8) = .ok t) (hle : RowLayout d → rowTailPtr d ≤ d.length - 4)
    (h : decodeTail d (flagsOf d) t = .ok r) : r.1 = recordCountOf d := by
  have hfooter := footerSize_le (flagsOf d)
  obtain ⟨-, rfl⟩ := (decodeTailPtr_eq hd hsize).mp ht
  rw [decodeTail] at h
  rw [recordCountOf]
  by_cases hrow : RowLayout d
  · rw [if_neg fun hc => (hasFlag_columns d).mp hc hrow, if_pos hrow] at h
    rw [if_pos hrow]
    have hend := hle hrow
    by_cases hdelta : Flagged d FLAG_DELTA_TAIL
    · rw [if_pos hdelta] at h ⊢
      obtain ⟨layout, hlayout, h1⟩ := bind_eq_ok.mp h
      cases h1
      rw [hlayout]
    · rw [if_neg hdelta] at h ⊢
      rw [decodeRecordCount, if_pos (by omega), readLE_word (by omega) hd, ok_bind] at h
      cases h
      rfl
  · have hroom := le_footerSize ((hasFlag_columns d).mpr hrow)
    rw [if_pos ((hasFlag_columns d).mpr hrow), usizeSub_of (by omega), ok_bind, usizeAdd_of (by omega), ok_bind,
      readLE_word (by omega) hd, ok_bind, if_neg hrow] at h
    rw [if_neg hrow]
    cases h
    rfl

theorem fromUtf8Lossy_of_ok {b : Bytes} {s : String} (h : fromUtf8 b = .ok s) : fromUtf8Lossy b = s := by
  rw [fromUtf8Lossy, h]

/-- What `decode` does behind its checks. -/
theorem decode_opens {file : Slice} {decoded : DecodedFile} (h : decode file = .ok decoded) :
    32 ≤ file.bytes.length ∧ ∃ t keys sigils start, decoded.keys = keys ∧ decoded.keySigils = sigils ∧
      decodeTailPtr file.bytes (flagsOf file.bytes) (word file.bytes 16 8) = .ok t ∧
      decodeSchema file.bytes (flagsOf file.bytes) (word file.bytes 8 8) = .ok (keys, sigils, start) ∧
      decodeRoot file.bytes (flagsOf file.bytes) start keys sigils = .ok decoded.rootFields ∧
      decodeTail file.bytes (flagsOf file.bytes) t = .ok (decoded.recordCount, decoded.tailStart) := by
  have hd := file.small
  rw [decode] at h
  dsimp only at h
  obtain ⟨_, hsize, h1⟩ := bind_eq_ok.mp h
  rw [ensure_eq_ok, Nat.not_lt] at hsize
  rw [readLE_word (by omega) hd, ok_bind] at h1
  obtain ⟨_, -, h2⟩ := bind_eq_ok.mp h1
  rw [usizeSub_of (by omega), ok_bind, readLE_word (by omega) hd, ok_bind] at h2
  obtain ⟨_, -, h3⟩ := bind_eq_ok.mp h2
  rw [readLE_word (by omega) hd, ok_bind, readLE_word (by omega) hd, ok_bind,
    show word file.bytes 6 2 = flagsOf file.bytes from rfl] at h3
  obtain ⟨_, -, h4⟩ := bind_eq_ok.mp h3
  rw [readLE_word (by omega) hd, ok_bind, readLE_word (by omega) hd, ok_bind] at h4
  obtain ⟨_, -, h5⟩ := bind_eq_ok.mp h4
  obtain ⟨t, ht, h6⟩ := bind_eq_ok.mp h5
  obtain ⟨⟨keys, sigils, start⟩, hschema, h7⟩ := bind_eq_ok.mp h6
  obtain ⟨_, -, h8⟩ := bind_eq_ok.mp h7
  obtain ⟨root, hroot, h9⟩ := bind_eq_ok.mp h8
  obtain ⟨tail, htail, h10⟩ := bind_eq_ok.mp h9
  cases h10
  exact ⟨hsize, t, keys, sigils, start, rfl, rfl, ht, hschema, hroot, htail⟩

/-- Both readers see a file that they accept with the same keys, sigils and record count. -/
theorem readers_see_same {file : Slice} {r : Reader} {decoded : DecodedFile} (hr : Reader.new file = .ok r)
    (hdec : decode file = .ok decoded) :
    decoded.keys = r.keys ∧ decoded.keySigils = r.keySigils ∧ decoded.recordCount = r.recordCount := by
  have hd := file.small
  obtain ⟨hs, hchecks⟩ := (reader_isOk_iff file).mp (isOk_iff.mpr ⟨r, hr⟩)
  obtain ⟨keys, sigils, ext, plan, hopen, hschema⟩ := reader_opens hr
  obtain ⟨rfl, rfl, hcount⟩ := openTail_sees hd hs.size hopen
  obtain ⟨hsize, t, keys, sigils, start, hk, hs', ht, hdecoded, -, htail⟩ := decode_opens hdec
  rw [hk, hs']
  have hsame : keys = r.keys ∧ sigils = r.keySigils := by
    by_cases hemb : Flagged file.bytes FLAG_SCHEMA_EMBEDDED
    · have h34 := hchecks.schema hemb
      rw [if_pos hemb] at hschema
      rw [decodeSchema, if_pos ⟨hemb, h34⟩] at hdecoded
      obtain ⟨⟨keys', sigils', stop'⟩, hheader, hd1⟩ := bind_eq_ok.mp hdecoded
      obtain ⟨_, -, hd2⟩ := bind_eq_ok.mp hd1
      obtain ⟨_, -, hd3⟩ := bind_eq_ok.mp hd2
      obtain ⟨_, -, hd4⟩ := bind_eq_ok.mp hd3
      cases hd4
      rw [decodeHeader] at hheader
      by_cases hv13 : Flagged file.bytes FLAG_V13_COMPACT_MASK
      · rw [if_pos hv13] at hschema hheader
        obtain ⟨e, stop, hparse, hkeys, hsigils, -⟩ := hschema
        rw [hparse, ok_bind] at hheader
        cases hheader
        exact ⟨hkeys.symm, hsigils.symm⟩
      · rw [if_neg hv13] at hschema hheader
        obtain ⟨⟨stop, hparse⟩, -⟩ := hschema
        obtain ⟨-, -, names, stop, hnames, hall, hsigils, -⟩ := (parseSchema_eq_ok hd).mp hparse
        obtain ⟨-, -, names', stop', hnames', -, -, rfl, rfl, -⟩ := (decodeBasicSchema_eq_ok hd h34).mp hheader
        rw [hnames] at hnames'
        cases hnames'
        refine ⟨?_, hsigils.symm⟩
        rw [← List.forall₂_eq_eq_eq, List.forall₂_map_left_iff]
        exact hall.imp fun _ _ hk => fromUtf8Lossy_of_ok hk
    · rw [if_neg hemb] at hschema
      rw [decodeSchema, if_neg fun h => hemb h.1] at hdecoded
      cases hdecoded
      exact ⟨hschema.1.symm, hschema.2.1.symm⟩
  exact ⟨hsame.1, hsame.2, (decodeTail_sees hd hsize ht hchecks.tail htail).trans hcount.symm⟩

/-! ## Framed files -/

/-- The parts of a written file. -/
structure Framed (d : Bytes) (version flags t : ℕ) (schema body : Bytes) : Prop where
  bytes : d = preamble version flags (murmur3_64 schema) t ++ (schema ++ body) ++ leBytes 4 MAGIC_FOOTER
  flags_lt : flags < 65536
  tail_lt : t < 2 ^ 64

namespace Framed

variable {d schema body : Bytes} {version flags t : ℕ}

theorem length (h : Framed d version flags t schema body) :
    d.length = 32 + schema.length + body.length + 4 := by
  rw [h.bytes]
  simp only [List.length_append, preamble_length, leBytes_length]
  omega

theorem words (h : Framed d version flags t schema body) :
    flagsOf d = flags ∧ word d 8 8 = (murmur3_64 schema).toNat ∧ word d 16 8 = t := by
  have hself := at_self d
  conv at hself => arg 3; rw [h.bytes, preamble]
  simp only [at_append, List.length_append, leBytes_length, Nat.zero_add] at hself
  obtain ⟨⟨⟨⟨⟨⟨⟨-, -⟩, hflags⟩, hhash⟩, htail⟩, -⟩, -⟩, -⟩ := hself
  exact ⟨word_leBytes hflags h.flags_lt, word_leBytes hhash (UInt64.toNat_lt _), word_leBytes htail h.tail_lt⟩

theorem schema_at (h : Framed d version flags t schema body) : At d 32 schema := by
  have hself := at_self d
  conv at hself => arg 3; rw [h.bytes]
  simp only [at_append, preamble_length, Nat.zero_add] at hself
  exact hself.1.2.1

theorem body_at (h : Framed d version flags t schema body) : At d (32 + schema.length) body := by
  have hself := at_self d
  conv at hself => arg 3; rw [h.bytes]
  simp only [at_append, preamble_length, Nat.zero_add] at hself
  exact hself.1.2.2

theorem rest_at (h : Framed d version flags t schema body) :
    At d (32 + schema.length) (body ++ leBytes 4 MAGIC_FOOTER) := by
  have hself := at_self d
  conv at hself => arg 3; rw [h.bytes, List.append_assoc, List.append_assoc]
  rw [at_append, at_append, preamble_length, Nat.zero_add] at hself
  exact hself.2.2

/-- The checks of `decode` on a framed file, once the end of the schema is known. -/
theorem decoderChecks (h : Framed d version flags t schema body) (h2 : 2 ≤ schema.length)
    (hemb : hasFlag flags FLAG_SCHEMA_EMBEDDED = true) (hend : schemaEnd d = 32 + schema.length)
    (hlimits : hasFlag flags FLAG_V13_COMPACT_MASK = false →
      keyCount d ≤ 256 ∧ ∀ r ∈ schemaNames d, ∀ name ∈ r.1, name.length ≤ 257)
    (htail : hasFlag flags FLAG_COLUMNAR = true → t ≠ 0)
    (hpage : hasFlag flags FLAG_PAX = true → ∃ rest, body = leBytes 4 MAGIC_PAGE ++ rest) : DecoderChecks d := by
  obtain ⟨hflags, hhash, ht⟩ := h.words
  have hlen := h.length
  have h34 : 34 ≤ d.length := by omega
  have hstart : dataSectorStart d = 32 + schema.length := by
    rw [dataSectorStart, if_pos ⟨by rwa [Flagged, hflags], h34⟩, hend]
  have htake : (d.drop 32).take schema.length = schema := h.schema_at.take_drop
  refine ⟨fun hcol => ?_, fun _ _ hv13 => ?_, fun _ _ => ?_, fun hpax => ?_⟩
  · rw [ht]
    rw [Flagged, hflags] at hcol
    exact htail hcol
  · rw [Flagged, hflags, Bool.not_eq_true] at hv13
    obtain ⟨hmany, hshort⟩ := hlimits hv13
    exact ⟨hmany, hshort, by omega⟩
  · rw [hend, Nat.add_sub_cancel_left, htake, hhash]
  · rw [Flagged, hflags] at hpax
    obtain ⟨rest, hrest⟩ := hpage hpax
    have hat := h.body_at
    rw [hrest, at_append] at hat
    have hle := hat.1.le
    rw [leBytes_length] at hle
    rw [hstart]
    exact ⟨hle, word_leBytes hat.1 (by decide)⟩

end Framed

/-- What `decode` finds in a v1.2 header. -/
theorem schemaNames_buildSchema {d : Bytes} {keys : List String} {sigils : List UInt8} (hd : d.length < 2 ^ 63)
    (hat : At d 32 (buildSchema keys sigils)) (hv13 : ¬ Flagged d FLAG_V13_COMPACT_MASK) (hlen : keys.length < 65536)
    (hnul : ∀ k ∈ keys, NulFree k) : keyCount d = keys.length ∧
      (∀ r ∈ schemaNames d, r.1 = keys.map utf8) ∧ schemaEnd d = 32 + (buildSchema keys sigils).length := by
  have hparse := parseSchema_buildSchema hd hat (by decide) hlen hnul
  obtain ⟨-, -, names, stop, hnames, hall, -, hstop⟩ := (parseSchema_eq_ok hd).mp hparse
  have hutf : names = keys.map utf8 := by
    rw [← List.forall₂_eq_eq_eq, List.forall₂_map_right_iff]
    exact hall.imp fun _ _ h => (utf8_fromUtf8 h).symm
  refine ⟨(parseSchema_length hd hparse).symm, fun r hr => ?_, ?_⟩
  · rw [hnames] at hr
    cases hr
    exact hutf
  · rw [schemaEnd, if_neg hv13, hnames, hstop]
    rfl

/-- What the schemas keep to that `decode` takes. -/
structure WithinLimits (keys : List String) : Prop where
  many : keys.length ≤ 256
  short : ∀ k ∈ keys, (utf8 k).length ≤ 257

/-- The checks of `decode` on a file with a v1.2 header. -/
theorem Framed.decoderChecks_basic {d body : Bytes} {version flags t : ℕ} {keys : List String} {sigils : List UInt8}
    (h : Framed d version flags t (buildSchema keys sigils) body) (hd : d.length < 2 ^ 63)
    (hemb : hasFlag flags FLAG_SCHEMA_EMBEDDED = true) (hbasic : hasFlag flags FLAG_V13_COMPACT_MASK = false)
    (hnul : ∀ k ∈ keys, NulFree k) (hlim : WithinLimits keys) (htail : hasFlag flags FLAG_COLUMNAR = true → t ≠ 0)
    (hpage : hasFlag flags FLAG_PAX = true → ∃ rest, body = leBytes 4 MAGIC_PAGE ++ rest) : DecoderChecks d := by
  have hmany := hlim.many
  have hv13 : ¬ Flagged d FLAG_V13_COMPACT_MASK := by
    rw [Flagged, h.words.1, hbasic]
    exact Bool.false_ne_true
  obtain ⟨hcount, hnames, hend⟩ := schemaNames_buildSchema hd h.schema_at hv13 (by omega) hnul
  have h2 : 2 ≤ (buildSchema keys sigils).length := by
    rw [buildSchema, padTo_length]
    simp only [List.length_append, leBytes_length]
    omega
  refine h.decoderChecks h2 hemb hend (fun _ => ⟨by omega, fun r hr name hname => ?_⟩) htail hpage
  rw [hnames r hr] at hname
  obtain ⟨k, hk, rfl⟩ := List.mem_map.mp hname
  exact hlim.short k hk

/-- `decode` takes a v1.2 header only within its limits. -/
theorem Framed.withinLimits {file : Slice} {body : Bytes} {version flags t : ℕ} {keys : List String} {sigils : List UInt8}
    (h : Framed file.bytes version flags t (buildSchema keys sigils) body)
    (hemb : hasFlag flags FLAG_SCHEMA_EMBEDDED = true) (hbasic : hasFlag flags FLAG_V13_COMPACT_MASK = false)
    (hlen : keys.length < 65536) (hnul : ∀ k ∈ keys, NulFree k) (hok : (decode file).isOk = true) : WithinLimits keys := by
  have hv13 : ¬ Flagged file.bytes FLAG_V13_COMPACT_MASK := by
    rw [Flagged, h.words.1, hbasic]
    exact Bool.false_ne_true
  have hflag : Flagged file.bytes FLAG_SCHEMA_EMBEDDED := by rwa [Flagged, h.words.1]
  obtain ⟨hcount, hnames, -⟩ := schemaNames_buildSchema file.small h.schema_at hv13 hlen hnul
  obtain ⟨hshared, hchecks⟩ := (decode_isOk_iff file).mp hok
  have h34 : 34 ≤ file.bytes.length := by
    have hle := h.schema_at.le
    rw [buildSchema, padTo_length] at hle
    simp only [List.length_append, leBytes_length] at hle
    omega
  obtain ⟨hmany, hshort, -⟩ := hchecks.limits hflag h34 hv13
  refine ⟨hcount ▸ hmany, fun k hk => ?_⟩
  obtain ⟨r, hr⟩ := Option.isSome_iff_exists.mp (hshared.basicSchema hflag h34 hv13).2
  refine hshort r hr _ ?_
  rw [hnames r hr]
  exact List.mem_map_of_mem hk

/-! ## Files of both readers -/

/-- Both readers accept `file`, whose hash is that of its schema, and see it with the keys `keys`, the same
sigils and the same record count. -/
structure SeenAlike (keys : List String) (file : Slice) : Prop where
  hash : ¬ HashMismatch file.bytes
  readers : ∃ r decoded, Reader.new file = .ok r ∧ decode file = .ok decoded ∧ r.keys = keys ∧ decoded.keys = keys ∧
    decoded.keySigils = r.keySigils ∧ decoded.recordCount = r.recordCount

theorem seenAlike_of {keys : List String} {file : Slice} {r : Reader} (hr : Reader.new file = .ok r) (hkeys : r.keys = keys)
    (hchecks : DecoderChecks file.bytes) : SeenAlike keys file := by
  obtain ⟨hs, -⟩ := (reader_isOk_iff file).mp (isOk_iff.mpr ⟨r, hr⟩)
  obtain ⟨decoded, hdec⟩ := isOk_iff.mp ((decode_isOk_iff file).mpr ⟨hs, hchecks⟩)
  obtain ⟨hsame, hsigils, hcount⟩ := readers_see_same hr hdec
  refine ⟨fun h => h.2.2 (hchecks.hash h.1 h.2.1), r, decoded, hr, hdec, hkeys, hsame.trans hkeys, hsigils, hcount⟩

/-! ## The row writer -/

/-- A writer `w'` over the same slots as `w`. -/
structure SameSlots (w w' : NxsWriter) : Prop where
  keys : w'.keys = w.keys
  compact : w'.compact = w.compact
  count : w'.slotSigils.length = w.slotSigils.length

namespace SameSlots

variable {w w' w'' : NxsWriter}

theorem refl (w : NxsWriter) : SameSlots w w := ⟨rfl, rfl, rfl⟩

theorem trans (h : SameSlots w w') (h' : SameSlots w' w'') : SameSlots w w'' :=
  ⟨h'.keys.trans h.keys, h'.compact.trans h.compact, h'.count.trans h.count⟩

theorem beginObject (w : NxsWriter) : SameSlots w w.beginObject := by
  rw [NxsWriter.beginObject]
  split <;> exact ⟨rfl, rfl, rfl⟩

theorem endObject (h : w.endObject = .ok w') : SameSlots w w' := by
  rw [NxsWriter.endObject, NxsWriter.endObjectBy] at h
  split at h
  · cases h
  · split at h
    · cases h
      exact ⟨rfl, rfl, rfl⟩
    · obtain ⟨_, -, h1⟩ := bind_eq_ok.mp h
      obtain ⟨_, -, h2⟩ := bind_eq_ok.mp h1
      obtain ⟨_, -, h3⟩ := bind_eq_ok.mp h2
      obtain ⟨_, -, h4⟩ := bind_eq_ok.mp h3
      obtain ⟨_, -, h5⟩ := bind_eq_ok.mp h4
      cases h5
      exact ⟨rfl, rfl, rfl⟩

theorem markSlotSigil (w : NxsWriter) (slot : ℕ) (sigil : UInt8) : SameSlots w (w.markSlotSigil slot sigil) := by
  rw [NxsWriter.markSlotSigil]
  split
  · exact ⟨rfl, rfl, List.length_set⟩
  · exact refl w

theorem writeBytesAt {slot : ℕ} {bytes : Bytes} (h : w.writeBytesAt slot bytes = .ok w') : SameSlots w w' := by
  obtain ⟨w₁, hmark, h⟩ := bind_eq_ok.mp h
  cases h
  rw [NxsWriter.markSlot] at hmark
  split at hmark
  · cases hmark
  · obtain ⟨_, -, hmark⟩ := bind_eq_ok.mp hmark
    cases hmark
    exact ⟨rfl, rfl, rfl⟩

theorem writeCell {slot : ℕ} {cell : CompactCell} {bytes : Bytes} (h : w.writeCell slot cell bytes = .ok w') :
    SameSlots w w' := by
  rw [NxsWriter.writeCell] at h
  split at h
  · cases h
    rw [NxsWriter.pushCompact]
    split <;> exact ⟨rfl, rfl, rfl⟩
  · exact writeBytesAt h

theorem writeRowCell {fi : ℕ} {cell : Cell} (h : writeRowCell w fi cell = .ok w') : SameSlots w w' := by
  cases cell with
  | absent =>
    cases h
    exact refl w
  | null => exact (markSlotSigil w _ _).trans (writeBytesAt h)
  | i64 v =>
    have hnote := markSlotSigil w (fi % 65536) SIGIL_INT
    have hrange : SameSlots w ((w.markSlotSigil (fi % 65536) SIGIL_INT).noteInt (fi % 65536) v) :=
      ⟨hnote.keys, hnote.compact, hnote.count⟩
    exact hrange.trans (writeCell h)
  | f64 v => exact (markSlotSigil w _ _).trans (writeCell h)
  | bool v => exact (markSlotSigil w _ _).trans (writeCell h)
  | time v => exact (markSlotSigil w _ _).trans (writeCell h)
  | str v =>
    have hnote := markSlotSigil w (fi % 65536) SIGIL_STR
    have hcol : SameSlots w ((w.markSlotSigil (fi % 65536) SIGIL_STR).noteStr (fi % 65536) v) :=
      ⟨hnote.keys, hnote.compact, hnote.count⟩
    exact hcol.trans (writeCell h)
  | binary b => cases h

/-- What each step keeps, a loop of them keeps. -/
theorem foldlM {α : Type} {f : NxsWriter → α → Res NxsWriter} (hstep : ∀ w a w', f w a = .ok w' → SameSlots w w') :
    ∀ {l : List α} {w w' : NxsWriter}, l.foldlM f w = .ok w' → SameSlots w w'
  | [], w, _, h => by
    cases h
    exact refl w
  | a :: l, w, w', h => by
    rw [List.foldlM_cons] at h
    obtain ⟨w₁, hw₁, h⟩ := bind_eq_ok.mp h
    exact (hstep w a w₁ hw₁).trans (foldlM hstep h)

theorem writeRow {row : RecordRow} (h : writeRow w row = .ok w') : SameSlots w w' := by
  obtain ⟨w₁, hcells, h⟩ := bind_eq_ok.mp h
  have hfold := foldlM (fun w c w' h => writeRowCell h) hcells
  exact (beginObject w).trans (hfold.trans (endObject h))

end SameSlots

/-- The writer of `finish_row` once its rows are written. -/
theorem finishRow_eq_ok {keys : List String} {rows : List RecordRow} {compact : Option CompactOptions} {file : Slice} :
    finishRow keys rows compact = .ok file ↔
      ∃ w, rows.foldlM writeRow (NxsWriter.withCompact keys compact) = .ok w ∧ w.finish = .ok file := bind_eq_ok

/-- The parts of a row file. -/
theorem sealRow_eq_ok {version flags ptr : ℕ} {schema data pre : Bytes} {file : Slice} (hflags : flags < 65536)
    (h : NxsWriter.sealRow version flags schema data (pre ++ leBytes 8 ptr ++ leBytes 4 MAGIC_FOOTER) = .ok file) :
    Framed file.bytes version flags 0 schema (data ++ (pre ++ leBytes 8 ptr)) := by
  refine ⟨?_, hflags, by decide⟩
  rw [Slice.ofBytes_eq_ok.mp h]
  simp only [List.append_assoc]

section RowFramed

variable {d schema data pre : Bytes} {version flags ptr : ℕ}
  (h : Framed d version flags 0 schema (data ++ (pre ++ leBytes 8 ptr))) (hd : d.length < 2 ^ 63)
  (hptr : ptr = 32 + schema.length + data.length) (hcol : hasFlag flags FLAG_COLUMNAR = false)
  (hpax : hasFlag flags FLAG_PAX = false)

include h

include hcol hpax in
theorem Framed.rowLayout : RowLayout d := by
  rw [RowLayout, Flagged, Flagged, h.words.1, hcol, hpax]
  exact ⟨Bool.false_ne_true, Bool.false_ne_true⟩

include hd hptr

/-- The tail-index of a row file is behind its data. -/
theorem Framed.rowTailPtr_eq : rowTailPtr d = ptr ∧ ptr + pre.length + 12 = d.length := by
  have hlen := h.length
  simp only [List.length_append, leBytes_length] at hlen
  have hbody := h.body_at
  rw [at_append, at_append] at hbody
  obtain ⟨-, -, hat⟩ := hbody
  have hend : 32 + schema.length + data.length + pre.length = d.length - 12 := by omega
  rw [hend] at hat
  exact ⟨by rw [rowTailPtr, if_pos h.words.2.2, word_leBytes hat (by omega)], by omega⟩

include hcol hpax

/-- A row file is opened once its schema is parsed. -/
theorem Framed.row_opens (hdelta : hasFlag flags FLAG_DELTA_TAIL = true → (parseDeltaTailLayout d ptr).isOk = true)
    (keys : List String) (sigils : List UInt8) (ext : Option ExtendedSchema) (plan : Option RowCellPlan) :
    ∃ r, Reader.openTail d flags 0 keys sigils ext plan = .ok r ∧ r.keys = keys := by
  obtain ⟨hflags, -, hzero⟩ := h.words
  obtain ⟨hrowTail, hend⟩ := h.rowTailPtr_eq hd hptr
  have hrow := h.rowLayout hcol hpax
  rw [← hflags] at hdelta ⊢
  rw [← hzero]
  have hok := (openTail_row hd (by omega) keys sigils ext plan hrow).mpr
    ⟨fun _ => by omega, by omega, fun hd' => hrowTail ▸ hdelta hd'⟩
  obtain ⟨r, hr⟩ := isOk_iff.mp hok
  exact ⟨r, hr, (openTail_sees hd (by omega) hr).1⟩

/-- What only `Reader.new` checks, a compact file passes. -/
theorem Framed.readerChecks_compact (hv13 : hasFlag flags FLAG_V13_COMPACT_MASK = true) : ReaderChecks d := by
  obtain ⟨hrowTail, hend⟩ := h.rowTailPtr_eq hd hptr
  have hrow := h.rowLayout hcol hpax
  refine ⟨fun hne => absurd hrow hne, fun _ => hrow, fun _ => by omega, fun _ hbasic => ?_, fun _ => by omega,
    fun hflag => absurd hflag hrow.1⟩
  rw [Flagged, h.words.1] at hbasic
  exact absurd hv13 hbasic

end RowFramed

/-- A v1.2 writer's file, whatever objects it holds. -/
theorem finish_basic {w : NxsWriter} {file : Slice} (hplain : w.compact = none) (h : w.finish = .ok file)
    (hnul : ∀ k ∈ w.keys, NulFree k) (hlim : WithinLimits w.keys) : SeenAlike w.keys file := by
  have hmany := hlim.many
  obtain ⟨_, -, h⟩ := bind_eq_ok.mp h
  rw [hplain] at h
  dsimp only at h
  rw [NxsWriter.tailIndexRecords] at h
  have hframed := sealRow_eq_ok (by decide) h
  obtain ⟨r, hr, hkeys⟩ := hframed.row_opens file.small rfl rfl rfl (fun hdelta => absurd hdelta (by decide))
    w.keys (schemaSigils w.keys.length w.slotSigils) none none
  have hnew := Reader.new_basic hframed.bytes (by decide) (by decide) rfl rfl rfl (by omega) hnul
  refine seenAlike_of (hnew.trans hr) hkeys ?_
  exact hframed.decoderChecks_basic file.small rfl rfl hnul hlim (fun hcol => absurd hcol (by decide))
    fun hpax => absurd hpax (by decide)

/-- What a v1.3 header holds in its fields. -/
structure PoolFits (pool : List String) : Prop where
  count : pool.length < 65536
  nulFree : ∀ s ∈ pool, NulFree s

/-- The flags of a compact file. -/
theorem hasFlag_embedded (f flags : ℕ) (hf : f &&& FLAG_SCHEMA_EMBEDDED = 0) :
    hasFlag (FLAG_SCHEMA_EMBEDDED ||| flags) f = hasFlag flags f := by
  rw [hasFlag, hasFlag, Nat.and_comm, Nat.and_or_distrib_left, hf, Nat.zero_or, Nat.and_comm]

theorem hasFlag_or_self (f flags : ℕ) (hf : f ≠ 0) : hasFlag (f ||| flags) f = true := by
  rw [hasFlag, bne_iff_ne, Nat.and_comm, Nat.and_or_distrib_left, Nat.and_self]
  exact fun h => hf (Nat.or_eq_zero_iff.mp h).1

/-- The flags of a row file are valid. -/
theorem validatePreambleFlags_row {flags : ℕ} (hcol : hasFlag flags FLAG_COLUMNAR = false)
    (hpax : hasFlag flags FLAG_PAX = false) : validatePreambleFlags flags = .ok () := by
  rw [validatePreambleFlags, hcol, hpax]
  simp [ensure]

theorem preambleFlags_lt (opts : CompactOptions) : FLAG_SCHEMA_EMBEDDED ||| opts.preambleFlags < 65536 := by
  unfold CompactOptions.preambleFlags
  split_ifs <;> decide

/-- No compact option sets the flag of another layout. -/
theorem preambleFlags_layout (opts : CompactOptions) :
    hasFlag (FLAG_SCHEMA_EMBEDDED ||| opts.preambleFlags) FLAG_COLUMNAR = false ∧
      hasFlag (FLAG_SCHEMA_EMBEDDED ||| opts.preambleFlags) FLAG_PAX = false := by
  unfold CompactOptions.preambleFlags
  split_ifs <;> decide

theorem deltaTail_flag (opts : CompactOptions) :
    hasFlag (FLAG_SCHEMA_EMBEDDED ||| opts.preambleFlags) FLAG_DELTA_TAIL = opts.deltaTail := by
  unfold CompactOptions.preambleFlags
  cases opts.deltaTail <;> split_ifs <;> first | decide | contradiction

/-- The parts of a compact writer's file. -/
theorem finish_compact_parts {w : NxsWriter} {opts : CompactOptions} {file : Slice} (hcompact : w.compact = some opts)
    (h : w.finish = .ok file) : ∃ data offsets pre start ptr,
      NxsWriter.encodePending (w.buildExtendedSchema opts) opts w.pendingRecords [] = .ok (data, offsets) ∧
      start = 32 + (buildExtendedSchema (w.buildExtendedSchema opts) opts.preambleFlags).length ∧
      ptr = start + (padTo 8 data).length ∧
      Framed file.bytes opts.version (FLAG_SCHEMA_EMBEDDED ||| opts.preambleFlags) 0
        (buildExtendedSchema (w.buildExtendedSchema opts) opts.preambleFlags) (padTo 8 data ++ (pre ++ leBytes 8 ptr)) ∧
      if opts.deltaTail then buildDeltaTailIndex (offsets.map (start + ·)) ptr opts.deltaBlockSize =
        .ok (pre ++ leBytes 8 ptr ++ leBytes 4 MAGIC_FOOTER)
      else NxsWriter.tailIndexRecords (offsets.map (start + ·)) ptr = pre ++ leBytes 8 ptr ++ leBytes 4 MAGIC_FOOTER := by
  obtain ⟨_, -, h⟩ := bind_eq_ok.mp h
  rw [hcompact] at h
  dsimp only at h
  obtain ⟨⟨data, offsets⟩, hpending, h⟩ := bind_eq_ok.mp h
  dsimp only at h
  cases hdelta : opts.deltaTail with
  | true =>
    rw [if_pos hdelta] at h
    obtain ⟨tail, htail, h⟩ := bind_eq_ok.mp h
    rw [expect_eq_ok] at htail
    obtain ⟨deltas, -, rfl⟩ := buildDeltaTailIndex_eq_ok.mp htail
    exact ⟨data, offsets, _, _, _, hpending, rfl, rfl, sealRow_eq_ok (preambleFlags_lt opts) h, htail⟩
  | false =>
    rw [if_neg (by rw [hdelta]; exact Bool.false_ne_true), ok_bind] at h
    exact ⟨data, offsets, _, _, _, hpending, rfl, rfl, sealRow_eq_ok (preambleFlags_lt opts) h, rfl⟩

theorem encodePending_length {ext : ExtendedSchema} {opts : CompactOptions} :
    ∀ {pending : List (List (ℕ × CompactCell))} {data : Bytes} {r : Bytes × List ℕ},
      NxsWriter.encodePending ext opts pending data = .ok r → r.2.length = pending.length
  | [], _, _, h => by
    cases h
    rfl
  | cells :: pending, data, r, h => by
    rw [NxsWriter.encodePending] at h
    obtain ⟨obj, -, h⟩ := bind_eq_ok.mp h
    obtain ⟨⟨out, offsets⟩, hrest, h⟩ := bind_eq_ok.mp h
    cases h
    rw [List.length_cons, List.length_cons, encodePending_length hrest]

/-- The record count of a compact file is kept in 32 bits. -/
theorem finish_compact_count {w : NxsWriter} {opts : CompactOptions} {file : Slice} (hcompact : w.compact = some opts)
    (h : w.finish = .ok file) : recordCountOf file.bytes = w.pendingRecords.length % 2 ^ 32 := by
  have hsmall := file.small
  obtain ⟨data, offsets, pre, start, ptr, hpending, hstart, hptr, hframed, htail⟩ := finish_compact_parts hcompact h
  obtain ⟨hcol, hpax⟩ := preambleFlags_layout opts
  have hlen : offsets.length = w.pendingRecords.length := encodePending_length hpending
  have hrowTail := (hframed.rowTailPtr_eq hsmall (by omega)).1
  have hat := hframed.rest_at
  rw [List.append_assoc, at_append, ← hstart, ← hptr] at hat
  have hflag : Flagged file.bytes FLAG_DELTA_TAIL ↔ opts.deltaTail = true := by
    rw [Flagged, hframed.words.1, deltaTail_flag]
  rw [recordCountOf, if_pos (hframed.rowLayout hcol hpax), hrowTail]
  split at htail
  · rename_i hdelta
    rw [if_pos (hflag.mpr hdelta), parseDeltaTailLayout_build hsmall htail hat.2]
    dsimp only [builtLayout]
    rw [List.length_map, hlen]
  · rename_i hdelta
    rw [if_neg fun hf => hdelta (hflag.mp hf)]
    rw [← htail, NxsWriter.tailIndexRecords, List.append_assoc, List.append_assoc, at_append] at hat
    have hword := readLE_leBytes_mod (ε := NxsError) hat.2.1 hsmall
    have hle := hat.2.1.le
    rw [leBytes_length] at hle
    rw [readLE_word hle hsmall] at hword
    rw [Outcome.ok.inj hword, List.length_map, hlen]
    norm_num

theorem two_le_extendedSchema (sch : ExtendedSchema) (flags : ℕ) : 2 ≤ (buildExtendedSchema sch flags).length := by
  rw [buildExtendedSchema_eq, poolBlock]
  split
  · rw [List.length_append, leBytes_length]
    omega
  · rw [padTo_length, List.length_append, List.length_append, leBytes_length]
    omega

/-- A compact writer's file, where an option asks for an encoding of v1.3. -/
theorem finish_compact {w : NxsWriter} {opts : CompactOptions} {file : Slice} (hcompact : w.compact = some opts)
    (h : w.finish = .ok file) (hwire : hasFlag opts.preambleFlags FLAG_V13_COMPACT_MASK = true)
    (hslots : w.slotSigils.length = w.keys.length) (hnul : ∀ k ∈ w.keys, NulFree k)
    (hpool : PoolFits (w.buildExtendedSchema opts).valuePool) (hlim : WithinLimits w.keys) : SeenAlike w.keys file := by
  have hsmall := file.small
  obtain ⟨data, offsets, pre, start, ptr, -, hstart, hptr, hframed, htail⟩ := finish_compact_parts hcompact h
  obtain ⟨hcol, hpax⟩ := preambleFlags_layout opts
  have hv13 := hasFlag_embedded FLAG_V13_COMPACT_MASK opts.preambleFlags (by decide)
  have hsigils : (w.buildExtendedSchema opts).sigils.length = (w.buildExtendedSchema opts).keys.length := by
    show (w.slotSigils.map schemaSigil).length = w.keys.length
    rw [List.length_map, hslots]
  have hparse := parse_buildExtendedSchema hsmall hframed.schema_at (by decide)
    (hasFlag_embedded FLAG_NARROW_CELLS opts.preambleFlags (by decide)) hv13 hlim.many hsigils hnul hpool.count hpool.nulFree
  have hdelta : hasFlag (FLAG_SCHEMA_EMBEDDED ||| opts.preambleFlags) FLAG_DELTA_TAIL = true →
      (parseDeltaTailLayout file.bytes ptr).isOk = true := by
    intro hflag
    rw [if_pos ((deltaTail_flag opts).symm.trans hflag)] at htail
    have hat := hframed.rest_at
    rw [List.append_assoc, at_append, ← hstart, ← hptr] at hat
    exact isOk_iff.mpr ⟨_, parseDeltaTailLayout_build hsmall htail hat.2⟩
  have hnew := Reader.new_file hframed.bytes hframed.flags_lt hframed.tail_lt (validatePreambleFlags_row hcol hpax)
    (hasFlag_or_self _ _ (by decide))
  rw [if_pos (hv13.trans hwire), hparse, ok_bind] at hnew
  obtain ⟨r, hr, hkeys⟩ := hframed.row_opens hsmall (by omega) hcol hpax hdelta _ _ _ _
  refine seenAlike_of (hnew.trans hr) hkeys ?_
  refine hframed.decoderChecks (two_le_extendedSchema _ _) (hasFlag_or_self _ _ (by decide)) ?_
    (fun hbasic => ?_) (fun hc => ?_) fun hp => ?_
  · have hwords := hframed.words.1
    rw [schemaEnd, if_pos (by rw [Flagged, hwords]; exact hv13.trans hwire), hwords, hparse]
  · rw [hv13, hwire] at hbasic
    cases hbasic
  · rw [hcol] at hc
    cases hc
  · rw [hpax] at hp
    cases hp

/-- What is asked of compact options: an encoding of v1.3, and a value pool that the header can hold. -/
structure CompactFits (keys : List String) (rows : List RecordRow) (opts : CompactOptions) : Prop where
  wire : hasFlag opts.preambleFlags FLAG_V13_COMPACT_MASK = true
  pool : ∀ w, rows.foldlM writeRow (NxsWriter.withCompact keys (some opts)) = .ok w →
    PoolFits (w.buildExtendedSchema opts).valuePool

section Accepted

variable {keys : List String} {rows : List RecordRow} {file : Slice} (hnul : ∀ k ∈ keys, NulFree k)
  (hlim : WithinLimits keys)

include hnul hlim

theorem finish_accepted {compact : Option CompactOptions} (h : finishRow keys rows compact = .ok file)
    (hcompact : ∀ opts, compact = some opts → CompactFits keys rows opts) : SeenAlike keys file := by
  obtain ⟨w, hw, hfinish⟩ := finishRow_eq_ok.mp h
  have hsame := SameSlots.foldlM (fun _ _ _ h => SameSlots.writeRow h) hw
  have hkeys : w.keys = keys := hsame.keys
  have hopts : w.compact = compact := hsame.compact
  have hslots : w.slotSigils.length = w.keys.length := by
    rw [hsame.count, hkeys]
    exact List.length_replicate
  rw [← hkeys] at hnul hlim ⊢
  cases compact with
  | none => exact finish_basic hopts hfinish hnul hlim
  | some opts =>
    have hfits := hcompact opts rfl
    exact finish_compact hopts hfinish hfits.wire hslots hnul (hfits.pool w hw) hlim

omit hnul hlim in
/-- The parts of a columnar file. -/
theorem finishColumnar_framed (h : finishColumnar keys rows = .ok file) : ∃ t body,
    Framed file.bytes VERSION (FLAG_SCHEMA_EMBEDDED ||| FLAG_COLUMNAR) t (buildSchema keys (sigilsForKeys keys rows)) body ∧
      t ≠ 0 := by
  obtain ⟨cols, -, hbytes⟩ := finishColumnar_eq_ok.mp h
  have hlen : file.bytes.length < 2 ^ 63 := file.small
  refine ⟨_, _, ⟨hbytes, by decide, ?_⟩, by omega⟩
  rw [hbytes] at hlen
  simp only [List.length_append, preamble_length] at hlen
  omega

theorem columnar_accepted (hpos : keys ≠ []) (hnd : keys.Nodup) (h : finishColumnar keys rows = .ok file) :
    SeenAlike keys file := by
  have hmany := hlim.many
  obtain ⟨r, hr, hkeys, -⟩ := new_finishColumnar hpos (by omega) hnul hnd (zero_not_mem_sigilsForKeys keys rows) h
  obtain ⟨t, body, hframed, hptr⟩ := finishColumnar_framed h
  exact seenAlike_of hr hkeys (hframed.decoderChecks_basic file.small rfl rfl hnul hlim (fun _ => hptr)
    fun hpax => absurd hpax (by decide))

omit hnul hlim in
/-- The data sector starts with a page, where there is one. -/
theorem emitted_starts {base fieldCount : ℕ} {sigils : List UInt8} {gs : List (List RecordRow)} {st : PaxPages}
    (h : Emitted base fieldCount sigils gs st) (hne : gs ≠ []) : ∃ rest, st.data = leBytes 4 MAGIC_PAGE ++ rest := by
  induction h with
  | nil => exact absurd rfl hne
  | @snoc gs st st' g hem hg he ih =>
    obtain ⟨page, hpage, -, rfl⟩ := (emitPage_eq_ok hg).mp he
    by_cases hgs : gs = []
    · cases hem with
      | nil =>
        obtain ⟨cols, -, hpage⟩ := bind_eq_ok.mp hpage
        cases hpage
        rw [padTo]
        simp only [List.append_assoc]
        exact ⟨_, rfl⟩
      | snoc => exact absurd hgs (by simp)
    · obtain ⟨rest, hrest⟩ := ih hgs
      exact ⟨rest ++ page, by rw [hrest, List.append_assoc]⟩

omit hnul hlim in
/-- The parts of a PAX file. -/
theorem finishPax_framed {pageSize : UInt32} (h : finishPax keys rows pageSize = .ok file) : ∃ t body,
    Framed file.bytes VERSION (FLAG_SCHEMA_EMBEDDED ||| FLAG_PAX) t (buildSchema keys (sigilsForKeys keys rows)) body ∧
      (rows ≠ [] → ∃ rest, body = leBytes 4 MAGIC_PAGE ++ rest) := by
  have hsmall := file.small
  rw [finishPax] at h
  obtain ⟨_, hps, h⟩ := bind_eq_ok.mp h
  obtain ⟨st, hloop, h⟩ := bind_eq_ok.mp h
  rw [ensure_eq_ok] at hps
  obtain ⟨gs, hem, hflat, -, -⟩ := paxLoop_emitted (PaxStreamWriter.toNat_pos hps) .nil hloop
  have hbytes := Slice.ofBytes_eq_ok.mp h
  rw [sealPax, buildPaxTail] at hbytes
  simp only [List.append_assoc] at hbytes
  refine ⟨32 + (buildSchema keys (sigilsForKeys keys rows)).length + st.data.length,
    st.data ++ (st.pages.flatMap pageEntryBytes ++
      (leBytes 8 (32 + (buildSchema keys (sigilsForKeys keys rows)).length + st.data.length) ++
        (leBytes 8 rows.length ++ (leBytes 4 st.pages.length ++ leBytes 4 pageSize.toNat)))), ⟨?_, by decide, ?_⟩,
    fun hrows => ?_⟩
  · rw [hbytes]
    simp only [List.append_assoc]
  · rw [hbytes] at hsmall
    simp only [List.length_append, preamble_length] at hsmall
    omega
  · obtain ⟨rest, hrest⟩ := emitted_starts hem (by
      rintro rfl
      exact hrows hflat.symm)
    rw [hrest, List.append_assoc]
    exact ⟨_, rfl⟩

theorem pax_accepted {pageSize : UInt32} (hrows : rows ≠ [])
    (h : finishPax keys rows pageSize = .ok file) : SeenAlike keys file := by
  have hmany := hlim.many
  obtain ⟨r, -, -, -, hr, hkeys, -⟩ := new_finishPax (by omega) hnul h
  obtain ⟨t, body, hframed, hpage⟩ := finishPax_framed h
  exact seenAlike_of hr hkeys (hframed.decoderChecks_basic file.small rfl rfl hnul hlim
    (fun hcol => absurd hcol (by decide)) fun _ => hpage hrows)

omit hnul hlim in
theorem compile_accepted {stack : ℕ} {fields : List Field} (h : Compiler.compile stack fields = .ok file)
    (hnul : ∀ k ∈ Compiler.collectFields fields [], NulFree k) (hlim : WithinLimits (Compiler.collectFields fields [])) :
    SeenAlike (Compiler.collectFields fields []) file := by
  have hmany := hlim.many
  obtain ⟨sigils, root, start, r, -, -, -, hr, hsingle⟩ := Compiler.compile_opens h
    (fun k hk => hnul k (Compiler.mem_collectFields.mpr hk)) (by rw [← Compiler.collectFields_length]; omega)
  obtain ⟨⟨sigils', root'⟩, -, h⟩ := bind_eq_ok.mp h
  dsimp only at h
  rw [Compiler.encodeTailIndex] at h
  have hframed := sealRow_eq_ok (by decide) h
  exact seenAlike_of hr hsingle.keys (hframed.decoderChecks_basic file.small rfl rfl hnul hlim
    (fun hcol => absurd hcol (by decide)) fun hpax => absurd hpax (by decide))

end Accepted

/-- The files with the keys `keys`. -/
inductive Written (keys : List String) : Slice → Prop where
  | row {rows : List RecordRow} {compact : Option CompactOptions} {file : Slice}
      (hcompact : ∀ opts, compact = some opts → CompactFits keys rows opts)
      (h : finishRow keys rows compact = .ok file) : Written keys file
  | columnar {rows : List RecordRow} {file : Slice} (h : finishColumnar keys rows = .ok file) : Written keys file
  | pax {rows : List RecordRow} {pageSize : UInt32} {file : Slice} (hrows : rows ≠ [])
      (h : finishPax keys rows pageSize = .ok file) : Written keys file
  | compiled {stack : ℕ} {fields : List Field} {file : Slice} (hkeys : Compiler.collectFields fields [] = keys)
      (h : Compiler.compile stack fields = .ok file) : Written keys file

/-- Both readers accept what is written with keys within the limits of `decode`, and see the same schema. -/
theorem written_seen_alike {keys : List String} {file : Slice} (hpos : keys ≠ []) (hnd : keys.Nodup)
    (hnul : ∀ k ∈ keys, NulFree k) (hlim : WithinLimits keys) (h : Written keys file) : SeenAlike keys file := by
  cases h with
  | row hcompact h => exact finish_accepted hnul hlim h hcompact
  | columnar h => exact columnar_accepted hnul hlim hpos hnd h
  | pax hrows h => exact pax_accepted hnul hlim hrows h
  | compiled hkeys h =>
    subst hkeys
    exact compile_accepted h hnul hlim

/-- A PAX file of one row with the key `a`. -/
theorem written_seen_alike_one_row : ∃ file, finishPax ["a"] [⟨[.i64 7]⟩] 2 = .ok file ∧ SeenAlike ["a"] file := by
  obtain ⟨file, hfile⟩ := isOk_iff.mp (show (finishPax ["a"] [⟨[.i64 7]⟩] 2).isOk = true by decide +kernel)
  exact ⟨file, hfile, written_seen_alike (by simp) (by simp) (by decide +kernel) ⟨by simp, by decide +kernel⟩
    (.pax (by simp) hfile)⟩

/-- A name of 258 bytes. -/
def longName : String := String.ofList (List.replicate 258 'a')

/-- `decode` rejects a name of more than 257 bytes. -/
theorem written_seen_alike_not_long_name : ¬ ∀ (keys : List String) (rows : List RecordRow) (file : Slice), keys ≠ [] →
    keys.Nodup → (∀ k ∈ keys, NulFree k) → keys.length < 65536 → finishRow keys rows none = .ok file →
    SeenAlike keys file := by
  intro h
  obtain ⟨file, hfile⟩ := isOk_iff.mp (show (finishRow [longName] [] none).isOk = true by decide +kernel)
  obtain ⟨-, r, decoded, -, hdec, -⟩ := h [longName] [] file (by simp) (by simp) (by decide +kernel) (by simp) hfile
  have hnot : (finishRow [longName] [] none >>= decode).isOk = false := by decide +kernel
  rw [hfile, ok_bind, hdec] at hnot
  cases hnot

end Nyxis
