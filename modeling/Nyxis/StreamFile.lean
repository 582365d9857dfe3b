import Nyxis.CallRecords

/-!
# StreamFile — files whose header is written first

A file can be written while its records are: the header, the data sector of a writer, and at the end the
footer.  The header comes before any value is seen, so that it has the default sigil for every key, while
`finish` has the sigils of the values.

* `streamed_alike_iff`: when the two files are read alike.
-/

namespace Nyxis

open Lib Lib.Outcome

/-- The preamble and the schema of a file that is streamed, and the start of its data sector. -/
def writeStreamFileHeader (keys : List String) : Bytes × ℕ :=
  let schemaBytes := buildSchema keys []
  (preamble VERSION FLAG_SCHEMA_EMBEDDED (murmur3_64 schemaBytes) 0 ++ schemaBytes, 32 + schemaBytes.length)

/-- Appends the tail-index and the footer; the start of the data sector is not used. -/
def writeStreamFileFooter (out : Bytes) (_dataStartAbs : ℕ) (recordAbsOffsets : List ℕ) : Bytes :=
  out ++ NxsWriter.tailIndexRecords recordAbsOffsets out.length

/-- The file of a writer, streamed. -/
def NxsWriter.streamFile (w : NxsWriter) : Res Slice := do
  let (header, dataStart) := writeStreamFileHeader w.keys
  Slice.ofBytes (writeStreamFileFooter (header ++ w.buf) dataStart (w.recordOffsets.map (dataStart + ·)))

/-- What the getters return for a key of a record. -/
def Reader.valueAt (r : Reader) (i : ℕ) (key : String) : Opt Int64 × Opt F64 × Opt Bool × Opt String :=
  (r.record i >>= fun off => r.getI64 off key, r.record i >>= fun off => r.getF64 off key,
    r.record i >>= fun off => r.getBool off key, r.record i >>= fun off => r.getStr off key)

/-- Both readers take two files, with the same records, sigils and values. -/
structure ReadAlike (stream file : Slice) : Prop where
  reader : ∃ r r', Reader.new stream = .ok r ∧ Reader.new file = .ok r' ∧ r.recordCount = r'.recordCount ∧
    r.keySigils = r'.keySigils ∧ ∀ i key, r.valueAt i key = r'.valueAt i key
  decoder : ∃ x y, decode stream = .ok x ∧ decode file = .ok y ∧ x.recordCount = y.recordCount ∧
    x.keySigils = y.keySigils ∧ x.rootFields = y.rootFields ∧
    ∀ off, decodeRecordAt stream.bytes off x.keys x.keySigils = decodeRecordAt file.bytes off y.keys y.keySigils

section

variable {w : NxsWriter} {objects : List Bytes} {stream file : Slice}

/-- A streamed file has the objects of the writer behind a schema of default sigils. -/
theorem streamFile_objects (hpacked : Packed w objects) (h : w.streamFile = .ok stream) :
    ObjectFile w.keys [] objects stream.bytes := by
  have hseal : NxsWriter.sealRow VERSION FLAG_SCHEMA_EMBEDDED (buildSchema w.keys []) w.buf
      (NxsWriter.tailIndexRecords (w.recordOffsets.map (32 + (buildSchema w.keys []).length + ·))
        (32 + (buildSchema w.keys []).length + w.buf.length)) = .ok stream := by
    rw [← h, NxsWriter.sealRow, NxsWriter.streamFile, writeStreamFileHeader]
    dsimp only
    rw [writeStreamFileFooter, List.length_append, List.length_append, preamble_length]
  rw [tailIndexRecords_eq] at hseal
  have hframed := sealRow_eq_ok (by decide) hseal
  have hoffsets : w.recordOffsets.map (32 + (buildSchema w.keys []).length + ·) =
      indexOffsets (sectorStart w.keys []) objects := by
    rw [hpacked.recordOffsets, List.map_map]
    rfl
  rw [hoffsets, indexOffsets_length, hpacked.buf] at hframed
  exact hframed

end

/-- The default sigils are those of strings. -/
theorem schemaSigils_default {n : ℕ} {sigils : List UInt8} (hn : sigils.length = n) :
    schemaSigils n [] = schemaSigils n sigils ↔ ∀ s ∈ sigils, s = 0 ∨ s = SIGIL_STR := by
  have hsigil : ∀ s : UInt8, schemaSigil 0 = schemaSigil s ↔ s = 0 ∨ s = SIGIL_STR := by
    intro s
    rw [schemaSigil, if_pos rfl, schemaSigil]
    by_cases hs : s = 0
    · rw [if_pos hs]
      exact ⟨fun _ => Or.inl hs, fun _ => rfl⟩
    · rw [if_neg hs]
      exact ⟨fun h => Or.inr h.symm, fun h => (h.resolve_left hs).symm⟩
  rw [schemaSigils, schemaSigils, List.map_inj_left]
  constructor
  · intro h s hs
    obtain ⟨i, hi, rfl⟩ := List.getElem_of_mem hs
    have heq := h i (List.mem_range.mpr (hn ▸ hi))
    rw [List.getD_nil, List.getD_eq_getElem?_getD, List.getElem?_eq_getElem hi, Option.getD_some] at heq
    exact (hsigil _).mp heq
  · intro h i hi
    have hlt : i < sigils.length := hn ▸ List.mem_range.mp hi
    rw [List.getD_nil, List.getD_eq_getElem?_getD, List.getElem?_eq_getElem hlt, Option.getD_some]
    exact (hsigil _).mpr (h _ (List.getElem_mem hlt))

theorem callSigils_length (keys : List String) (records : List (List Call)) :
    (callSigils keys records).length = keys.length := by
  have hcalls : ∀ (calls : List Call) (s : List UInt8),
      (calls.foldl (fun sigils c => noteSigil sigils c.slot c.arg.sigil) s).length = s.length := by
    intro calls
    induction calls with
    | nil => intro s; rfl
    | cons c calls ih =>
      intro s
      rw [List.foldl_cons, ih, noteSigil_length]
  rw [callSigils]
  have hrecords : ∀ s : List UInt8, (records.foldl (fun sigils calls =>
      calls.foldl (fun sigils c => noteSigil sigils c.slot c.arg.sigil) sigils) s).length = s.length := by
    induction records with
    | nil => intro s; rfl
    | cons calls records ih =>
      intro s
      rw [List.foldl_cons, ih, hcalls]
  rw [hrecords, List.length_replicate]

/-- A streamed file is read like the one `finish` returns exactly where the schema is within the limits of `decode`,
and every slot that was written holds strings. -/
theorem streamed_alike_iff {sorter : SlotSort} {keys : List String} {records : List (List Call)} {w : NxsWriter}
    {stream file : Slice} (hlen : keys.length < 65536) (hnul : ∀ k ∈ keys, NulFree k)
    (hrun : records.foldlM (NxsWriter.writeObject sorter) (NxsWriter.new keys) = .ok w)
    (hstream : w.streamFile = .ok stream) (hfile : w.finish = .ok file) :
    ReadAlike stream file ↔ WithinLimits keys ∧ ∀ s ∈ callSigils keys records, s = 0 ∨ s = SIGIL_STR := by
  obtain ⟨objects, hkept⟩ := writeObjects_kept hrun
  have hobjects := streamFile_objects hkept.packed hstream
  have hobjects' := finish_objects hkept.packed hfile
  rw [hkept.keys_eq] at hobjects hobjects'
  rw [hkept.slotSigils] at hobjects'
  obtain ⟨r, hr, -, htable⟩ := ObjectFile.opens hobjects hlen hnul
  obtain ⟨r', hr', -, htable'⟩ := ObjectFile.opens hobjects' hlen hnul
  constructor
  · intro hsame
    refine ⟨?_, ?_⟩
    · obtain ⟨x, y, hx, -⟩ := hsame.decoder
      exact hobjects.withinLimits rfl rfl hlen hnul (isOk_iff.mpr ⟨x, hx⟩)
    · obtain ⟨a, b, ha, hb, -, hsigils, -⟩ := hsame.reader
      obtain rfl : r = a := Outcome.ok.inj (hr.symm.trans ha)
      obtain rfl : r' = b := Outcome.ok.inj (hr'.symm.trans hb)
      rw [htable.keySigils, htable'.keySigils] at hsigils
      exact (schemaSigils_default (callSigils_length keys records)).mp hsigils
  · rintro ⟨hlim, hstrings⟩
    -- with the same sigils the two files are the same bytes
    have hsigils := (schemaSigils_default (callSigils_length keys records)).mpr hstrings
    have hschema : buildSchema keys [] = buildSchema keys (callSigils keys records) := by
      rw [buildSchema, buildSchema, hsigils]
    have hbytes : stream = file := by
      have h := hobjects.bytes
      rw [sectorStart, hschema] at h
      have hfile := hobjects'.bytes
      rw [sectorStart] at hfile
      cases stream
      cases file
      congr
      exact h.trans hfile.symm
    subst hbytes
    obtain ⟨y, hy⟩ := isOk_iff.mp ((decode_isOk_iff stream).mpr ⟨((reader_isOk_iff stream).mp (isOk_iff.mpr ⟨r, hr⟩)).1,
      hobjects.decoderChecks_basic stream.small rfl rfl hnul hlim (fun hcol => absurd hcol (by decide))
        fun hpax => absurd hpax (by decide)⟩)
    exact ⟨⟨r, r, hr, hr, rfl, rfl, fun _ _ => rfl⟩, ⟨y, y, hy, hy, rfl, rfl, rfl, fun _ => rfl⟩⟩

/-- The two files of some records. -/
def bothFiles (sorter : SlotSort) (keys : List String) (records : List (List Call)) : Res (Slice × Slice) := do
  let w ← records.foldlM (NxsWriter.writeObject sorter) (NxsWriter.new keys)
  let stream ← w.streamFile
  let file ← w.finish
  .ok (stream, file)

/-- A record with a string. -/
theorem streamed_alike_string : ∃ stream file, bothFiles SlotSort.stable ["s", "t"] [[⟨0, .str "x"⟩]] = .ok (stream, file) ∧
    ReadAlike stream file := by
  obtain ⟨⟨stream, file⟩, hboth⟩ := isOk_iff.mp
    (show (bothFiles SlotSort.stable ["s", "t"] [[⟨0, .str "x"⟩]]).isOk = true by decide +kernel)
  refine ⟨stream, file, hboth, ?_⟩
  obtain ⟨w, hrun, hboth⟩ := bind_eq_ok.mp hboth
  obtain ⟨_, hstream, hboth⟩ := bind_eq_ok.mp hboth
  obtain ⟨_, hfile, hboth⟩ := bind_eq_ok.mp hboth
  cases hboth
  exact (streamed_alike_iff (by decide) (by decide +kernel) hrun hstream hfile).mpr
    ⟨⟨by decide, by decide +kernel⟩, by decide +kernel⟩

/-- The sigil of an integer is not in the header of a streamed file. -/
theorem streamed_not_alike_integer : ∃ stream file, bothFiles SlotSort.stable ["a"] [[⟨0, .i64 7⟩]] = .ok (stream, file) ∧
    ¬ ReadAlike stream file := by
  obtain ⟨⟨stream, file⟩, hboth⟩ := isOk_iff.mp
    (show (bothFiles SlotSort.stable ["a"] [[⟨0, .i64 7⟩]]).isOk = true by decide +kernel)
  refine ⟨stream, file, hboth, fun hsame => ?_⟩
  have hsigils : (bothFiles SlotSort.stable ["a"] [[⟨0, .i64 7⟩]] >>= fun files => do
      let r ← Reader.new files.1
      let r' ← Reader.new files.2
      .ok (r.keySigils, r'.keySigils)) = .ok ([SIGIL_STR], [SIGIL_INT]) := by decide +kernel
  obtain ⟨r, r', hr, hr', -, heq, -⟩ := hsame.reader
  rw [hboth, ok_bind, hr, ok_bind, hr', ok_bind, heq] at hsigils
  obtain ⟨hstr, hint⟩ := Prod.mk.inj (Outcome.ok.inj hsigils)
  rw [hint] at hstr
  exact absurd hstr (by decide)

end Nyxis
