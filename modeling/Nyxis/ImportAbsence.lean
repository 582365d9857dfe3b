import Nyxis.ImportRecords

/-!
# ImportAbsence — nulls and missing keys of imported JSON

A null is flattened to an empty text.  The emission of an empty text depends on the sigil of the column:
it fits no number, but it is a boolean that is not `true`, a string and a sequence of bytes.

* `valueArg_empty`: the sigils under which an empty text is written.
* `absence_kept_iff`: when the getters see nothing where the input has nothing.
-/

namespace Nyxis

open Lib Lib.Outcome

namespace JsonIn

/-! ## The fields of a record -/

mutual

/-- The values of an object that are not objects, each with its flattened key. -/
def fieldLeaves : List (String × JsonValue) → List (String × JsonValue)
  | [] => []
  | (k, v) :: rest => valueLeaves k v ++ fieldLeaves rest

def valueLeaves (k : String) : JsonValue → List (String × JsonValue)
  | .object fields => (fieldLeaves fields).map fun e => (k ++ "." ++ e.1, e.2)
  | .null => [(k, .null)]
  | .bool b => [(k, .bool b)]
  | .number n => [(k, .number n)]
  | .string s => [(k, .string s)]
  | .array items => [(k, .array items)]

end

/-- The values of a record with their flattened keys. -/
def leaves : JsonValue → List (String × JsonValue)
  | .object fields => fieldLeaves fields
  | _ => []

/-- Whether a value is null. -/
def isNull : JsonValue → Bool
  | .null => true
  | _ => false

/-- The record has nothing at the key: no value, or null. -/
def AbsentAt (record : JsonValue) (key : String) : Prop := ∀ e ∈ leaves record, e.1 = key → isNull e.2 = true

/-- The record has a null at the key, and nothing else. -/
def NullAt (record : JsonValue) (key : String) : Prop := key ∈ (leaves record).map Prod.fst ∧ AbsentAt record key

instance (record : JsonValue) (key : String) : Decidable (AbsentAt record key) :=
  inferInstanceAs (Decidable (∀ e ∈ leaves record, _))

instance (record : JsonValue) (key : String) : Decidable (NullAt record key) := inferInstanceAs (Decidable (_ ∧ _))

variable (floatText : F64 → String)

/-- The text that a value is flattened to. -/
def leafText : JsonValue → String
  | .bool b => if b then "true" else "false"
  | .number n => numberText floatText n
  | .string s => s
  | .null | .array _ | .object _ => ""

/-- The fields of a record, as texts. -/
def textFields (record : JsonValue) : List (String × String) :=
  (leaves record).map fun e => (e.1, leafText floatText e.2)

variable {floatText}

theorem atDepth_eq_ok {α : Type} {depthLimit depth : ℕ} {x : Res α} {a : α} (h : atDepth depthLimit depth x = .ok a) :
    x = .ok a := by
  rw [atDepth] at h
  split at h
  · cases h
  · exact h

mutual

theorem flattenFields_eq_ok {depthLimit : ℕ} : ∀ {fields : List (String × JsonValue)} {depth : ℕ}
    {kv : List (String × String)}, flattenFields floatText depthLimit fields depth = .ok kv →
      kv = (fieldLeaves fields).map fun e => (e.1, leafText floatText e.2)
  | [], depth, kv, h => by
    cases h
    rfl
  | (k, v) :: rest, depth, kv, h => by
    rw [flattenFields] at h
    obtain ⟨here, hhere, h⟩ := bind_eq_ok.mp h
    obtain ⟨tail, htail, h⟩ := bind_eq_ok.mp h
    cases h
    rw [fieldLeaves, List.map_append, ← flattenField_eq_ok hhere, ← flattenFields_eq_ok htail]

theorem flattenField_eq_ok {depthLimit : ℕ} {k : String} : ∀ {v : JsonValue} {depth : ℕ}
    {kv : List (String × String)}, flattenField floatText depthLimit k v depth = .ok kv →
      kv = (valueLeaves k v).map fun e => (e.1, leafText floatText e.2)
  | .null, depth, kv, h => by
    cases h
    rfl
  | .bool b, depth, kv, h => by
    cases h
    rfl
  | .number n, depth, kv, h => by
    cases h
    rfl
  | .string s, depth, kv, h => by
    cases h
    rfl
  | .array items, depth, kv, h => by
    cases h
    rfl
  | .object fields, depth, kv, h => by
    rw [flattenField] at h
    obtain ⟨nested, hnested, h⟩ := bind_eq_ok.mp h
    cases h
    rw [flattenFields_eq_ok (atDepth_eq_ok hnested), valueLeaves, List.map_map, List.map_map]
    rfl

end

theorem flattenObject_eq_ok {depthLimit depth : ℕ} {v : JsonValue} {kv : List (String × String)}
    (h : flattenObject floatText depthLimit v depth = .ok kv) : kv = textFields floatText v := by
  have hkv := atDepth_eq_ok h
  cases v with
  | object fields => exact flattenFields_eq_ok hkv
  | null | bool _ | number _ | string _ | array _ =>
    cases hkv
    rfl

/-- Flattening the records gives their fields. -/
theorem flattenRecords_eq_ok {args : ImportArgs} {records : List JsonValue} {fields : List (List (String × String))}
    (h : flattenRecords floatText args records = .ok fields) : fields = records.map (textFields floatText) := by
  have hall := mapM_eq_ok.mp h
  clear h
  induction hall with
  | nil => rfl
  | cons hkv _ ih => rw [List.map_cons, flattenObject_eq_ok hkv, ih]

end JsonIn

/-! ## Empty texts -/

/-- The sigils whose columns have no place for an empty text. -/
def dropsEmpty : List UInt8 := [SIGIL_INT, SIGIL_FLOAT, SIGIL_TIME, SIGIL_NULL]

/-- An empty text is written exactly under the other sigils. -/
theorem valueArg_empty (sigil : UInt8) :
    ∃ arg, valueArg sigil "" = .ok arg ∧ (arg = none ↔ sigil ∈ dropsEmpty) := by
  by_cases hint : sigil = SIGIL_INT
  · exact ⟨none, by rw [hint]; rfl, iff_of_true rfl (by rw [hint]; decide)⟩
  by_cases hfloat : sigil = SIGIL_FLOAT
  · exact ⟨none, by rw [hfloat]; rfl, iff_of_true rfl (by rw [hfloat]; decide)⟩
  by_cases hbool : sigil = SIGIL_BOOL
  · exact ⟨some (.bool false), by rw [hbool]; rfl, iff_of_false nofun (by rw [hbool]; decide)⟩
  by_cases htime : sigil = SIGIL_TIME
  · exact ⟨none, by rw [htime]; rfl, iff_of_true rfl (by rw [htime]; decide)⟩
  by_cases hbinary : sigil = SIGIL_BINARY
  · exact ⟨some (.bytes []), by rw [hbinary]; rfl, iff_of_false nofun (by rw [hbinary]; decide)⟩
  by_cases hnull : sigil = SIGIL_NULL
  · exact ⟨none, by rw [hnull]; rfl, iff_of_true rfl (by rw [hnull]; decide)⟩
  · refine ⟨some (.str ""), ?_, iff_of_false nofun (by simp [dropsEmpty, hint, hfloat, htime, hnull])⟩
    rw [valueArg, if_neg hint, if_neg hfloat, if_neg hbool, if_neg htime, if_neg hbinary, if_neg hnull]

/-! ## Reading the import -/

namespace JsonIn

variable (floatText : F64 → String) (args : ImportArgs) (records : List JsonValue)

/-- The flattened keys of all records. -/
def inputKeys : List String := (records.flatMap leaves).map Prod.fst

/-- The texts of all records. -/
def inputFields : List (String × String) := records.flatMap (textFields floatText)

/-- The schema has a slot for every key and stores its name, and every record starts below 4 GiB. -/
structure Addressable : Prop where
  keys : (inputKeys records).dedup.length < 65536
  names : ∀ key ∈ inputKeys records, NulFree key
  starts : ∀ schema calls, inferSchema floatText (.array records) args = .ok schema →
    (records.map (textFields floatText)).mapM (schema.recordCalls fun _ => false) = .ok calls →
      ∀ i < records.length, callStart schema.names.length calls i < 2 ^ 32

/-- Where the input has nothing, the getters of the file see nothing. -/
def AbsenceKept (file : Slice) : Prop :=
  ∃ r, Reader.new file = .ok r ∧ ∀ i record key, records[i]? = some record → AbsentAt record key →
    r.Reads i key .absent

/-- The other values of every column with a null make it a column of numbers or times, or there are none. -/
def NullsDropped : Prop :=
  ∀ record ∈ records, ∀ key, NullAt record key →
    ∃ sigil ∈ dropsEmpty, (columnState (inputFields floatText records) key).resolveSigil args.conflict = .ok sigil

variable {floatText args records}

theorem inputFields_keys : (inputFields floatText records).map Prod.fst = inputKeys records := by
  rw [inputFields, inputKeys, List.map_flatMap, List.map_flatMap]
  congr 1
  funext record
  rw [textFields, List.map_map]
  rfl

/-- Null is flattened to an empty text. -/
theorem leafText_null {v : JsonValue} (h : isNull v = true) : leafText floatText v = "" := by
  cases v with
  | null => rfl
  | bool _ | number _ | string _ | array _ | object _ => cases h

theorem textFields_at {i : ℕ} {record : JsonValue} (hi : records[i]? = some record) :
    (records.map (textFields floatText))[i]? = some (textFields floatText record) := by
  rw [List.getElem?_map, hi]
  rfl

/-- An import of records that the file can address is opened. -/
theorem importFile_imported {sorter : SlotSort} {file : Slice} {report : ImportReport}
    (h : importFile floatText sorter (.array records) args = .ok (file, report))
    (haddr : Addressable floatText args records) : ∃ schema calls r sigils objects, Reader.new file = .ok r ∧
      Imported schema (fun _ => false) args.conflict (records.map (textFields floatText)) calls r sigils objects := by
  obtain ⟨schema, hschema, hemit⟩ := bind_eq_ok.mp h
  obtain ⟨fields, hfields, hinf⟩ := inferSchema_eq_ok hschema
  obtain ⟨fields', calls, w, hfields', hcalls, hw, hfile⟩ := emit_eq_ok hemit
  obtain rfl := flattenRecords_eq_ok hfields
  obtain rfl := flattenRecords_eq_ok hfields'
  have hkeys : ∀ key, key ∈ schema.names ↔ key ∈ inputKeys records := by
    intro key
    have hfields : (inputFields floatText records).map Prod.fst = inputKeys records := inputFields_keys
    rw [← hfields]
    exact hinf.mem key
  have hlength : schema.names.length = (inputKeys records).dedup.length := by
    refine List.Perm.length_eq ((List.perm_ext_iff_of_nodup hinf.nodup (List.nodup_dedup _)).mpr fun key => ?_)
    rw [hkeys, List.mem_dedup]
  have hstarts := haddr.starts schema calls hschema hcalls
  rw [← List.length_map (textFields floatText)] at hstarts
  obtain ⟨r, sigils, objects, hr, himp⟩ := Imported.opens hinf hcalls hw hfile (hlength ▸ haddr.keys)
    (fun key hkey => haddr.names key ((hkeys key).mp hkey)) hstarts
  exact ⟨schema, calls, r, sigils, objects, hr, himp⟩

section Reads

variable {schema : InferredSchema} {calls : List (List Call)} {r : Reader} {sigils : List UInt8} {objects : List Bytes}
  (h : Imported schema (fun _ => false) args.conflict (records.map (textFields floatText)) calls r sigils objects)
  {i : ℕ} {record : JsonValue} {key : String}

include h

/-- A null under a sigil that has a place for the empty text is seen. -/
theorem null_seen (hi : records[i]? = some record) (hnull : NullAt record key) (hread : r.Reads i key .absent) :
    ∃ sigil ∈ dropsEmpty, (columnState (inputFields floatText records) key).resolveSigil args.conflict = .ok sigil := by
  obtain ⟨e, he, rfl⟩ := List.mem_map.mp hnull.1
  have hmem : e.1 ∈ schema.names := by
    rw [h.inferred.mem, ← List.flatMap_def]
    show e.1 ∈ (inputFields floatText records).map Prod.fst
    rw [inputFields_keys, inputKeys]
    exact List.mem_map_of_mem (List.mem_flatMap.mpr ⟨record, List.mem_of_getElem? hi, he⟩)
  obtain ⟨slot, k, hk, hname, hslot, hlt, hsigil⟩ := h.key_at hmem
  refine ⟨k.sigil, ?_, hsigil⟩
  by_contra hdrop
  obtain ⟨arg, harg, hiff⟩ := valueArg_empty k.sigil
  obtain ⟨arg, rfl⟩ := Option.ne_none_iff_exists'.mp fun hnone => hdrop (hiff.mp hnone)
  obtain ⟨cs, hcs, hcalls⟩ := h.record_calls (textFields_at hi)
  have hfield : (k.name, "") ∈ textFields floatText record := by
    have htext : leafText floatText e.2 = "" := leafText_null (hnull.2 e he rfl)
    rw [hname, ← htext]
    exact List.mem_map_of_mem he
  have hcall : schema.fieldCall (fun _ => false) (k.name, "") =
      (valueArg k.sigil "" >>= fun arg => .ok (arg.map fun arg => ⟨slot % 65536, arg⟩)) :=
    InferredSchema.fieldCall_at h.inferred.nodup hk rfl
  rw [harg, ok_bind] at hcall
  have hin := recordCalls_written hfield hcall hcalls
  exact h.table.reads_written h.inferred.nodup h.filled hcs h.count
    (h.start hcs) hslot hin (Nat.mod_eq_of_lt hlt) hread

/-- Where every null is under a sigil that drops the empty text, nothing is seen of it. -/
theorem absent_unseen (hdrop : NullsDropped floatText args records) (hi : records[i]? = some record)
    (habs : AbsentAt record key) : r.Reads i key .absent := by
  obtain ⟨cs, hcs, hcalls⟩ := h.record_calls (textFields_at hi)
  have hstart := h.start hcs
  by_cases hkey : key ∈ schema.names
  · obtain ⟨slot, k, hk, hname, hslot, hlt, hsigil⟩ := h.key_at hkey
    refine h.table.reads_unwritten h.inferred.nodup h.filled hcs h.count hstart hslot fun c hc heq => ?_
    obtain ⟨field, hfield, slot', k', arg, hk', hname', rfl, harg⟩ :=
      recordCalls_slot h.inferred.nodup hcalls c hc
    obtain rfl : slot' = slot := (Nat.mod_eq_of_lt (h.slot_lt hk')).symm.trans heq
    obtain rfl : k' = k := Option.some.inj (hk'.symm.trans hk)
    -- a field of the key is a null, so its sigil drops it
    obtain ⟨e, he, rfl⟩ := List.mem_map.mp hfield
    have hnull : isNull e.2 = true := habs e he (hname'.symm.trans hname)
    obtain ⟨sigil, hmem, hres⟩ := hdrop record (List.mem_of_getElem? hi) key
      ⟨List.mem_map.mpr ⟨e, he, hname'.symm.trans hname⟩, habs⟩
    rw [inputFields, List.flatMap_def, hsigil] at hres
    cases hres
    obtain ⟨arg', harg', hiff⟩ := valueArg_empty k'.sigil
    rw [hiff.mpr hmem] at harg'
    dsimp only at harg
    rw [leafText_null hnull, harg'] at harg
    cases harg
  · obtain ⟨off, -, hrecord, -⟩ := h.table.filled_at h.filled hcs h.count hstart
    exact h.table.reads_unknown hkey ⟨off, hrecord⟩

end Reads

/-- The getters of an imported file see nothing where the input has nothing, exactly when no null is in a
column of booleans, strings or bytes. -/
theorem absence_kept_iff {sorter : SlotSort} {file : Slice} {report : ImportReport}
    (h : importFile floatText sorter (.array records) args = .ok (file, report))
    (haddr : Addressable floatText args records) :
    AbsenceKept records file ↔ NullsDropped floatText args records := by
  obtain ⟨schema, calls, r, sigils, objects, hr, himp⟩ := importFile_imported h haddr
  constructor
  · rintro ⟨r', hr', hreads⟩ record hmem key hnull
    obtain rfl : r = r' := Outcome.ok.inj (hr.symm.trans hr')
    obtain ⟨i, hi⟩ := List.mem_iff_getElem?.mp hmem
    exact null_seen himp hi hnull (hreads i record key hi hnull.2)
  · intro hdrop
    exact ⟨r, hr, fun i record key hi habs => absent_unseen himp hdrop hi habs⟩

/-- Two records, the second with a null in a column of numbers. -/
def nullInNumbers : List JsonValue :=
  [.object [("id", .number (.posInt 7))], .object [("id", .null)]]

/-- The default options of an import. -/
def defaultArgs : ImportArgs := ⟨.error, false, 64⟩

theorem absence_kept_in_numbers : ∃ file report,
    importFile (fun _ => "0.5") SlotSort.stable (.array nullInNumbers) defaultArgs = .ok (file, report) ∧
      AbsenceKept nullInNumbers file := by
  have hschema : inferSchema (fun _ => "0.5") (.array nullInNumbers) defaultArgs =
      .ok ⟨[⟨"id", SIGIL_INT, true, none⟩],
        [⟨true, false, false, false, false, false, true, 2, 1, some SIGIL_INT⟩], 2⟩ := by decide
  have haddr : Addressable (fun _ => "0.5") defaultArgs nullInNumbers := by
    refine ⟨by decide, by decide, fun schema calls hs hc i hi => ?_⟩
    cases hs.symm.trans hschema
    have hcalls : calls = [[⟨0, .i64 7⟩], []] := by
      refine Outcome.ok.inj (hc.symm.trans ?_)
      decide
    subst hcalls
    match i, hi with
    | 0, _ => decide
    | 1, _ => decide
  have hdrop : NullsDropped (fun _ => "0.5") defaultArgs nullInNumbers := by
    intro record hrecord key hnull
    have hmem : key ∈ inputKeys nullInNumbers := by
      rw [inputKeys, List.map_flatMap]
      exact List.mem_flatMap.mpr ⟨record, hrecord, hnull.1⟩
    have hkeys : inputKeys nullInNumbers = ["id", "id"] := by decide
    rw [hkeys] at hmem
    obtain rfl : key = "id" := by simpa using hmem
    exact ⟨SIGIL_INT, by decide, by decide⟩
  obtain ⟨⟨file, report⟩, hok⟩ := isOk_iff.mp (show (importFile (fun _ => "0.5") SlotSort.stable (.array nullInNumbers)
    defaultArgs).isOk = true by decide +kernel)
  exact ⟨file, report, hok, (absence_kept_iff hok haddr).mpr hdrop⟩

/-- Two records, the second with a null in a column of booleans. -/
def nullInBooleans : List JsonValue :=
  [.object [("active", .bool true)], .object [("active", .null)]]

theorem absence_not_kept : ¬ ∀ (floatText : F64 → String) (sorter : SlotSort) (records : List JsonValue)
    (args : ImportArgs) (file : Slice) (report : ImportReport),
      importFile floatText sorter (.array records) args = .ok (file, report) → AbsenceKept records file := by
  intro hclaim
  have hrun : ((importFile (fun _ => "0.5") SlotSort.stable (.array nullInBooleans) defaultArgs >>= fun p =>
      Reader.new p.1).bind fun r => .ok (decide (r.boolAt 1 "active" = .ok false))) = .ok true := by decide +kernel
  obtain ⟨r, hr, hread⟩ := bind_eq_ok.mp hrun
  obtain ⟨⟨file, report⟩, hok, hnew⟩ := bind_eq_ok.mp hr
  obtain ⟨r', hr', hreads⟩ := hclaim _ _ _ _ file report hok
  obtain rfl : r = r' := Outcome.ok.inj (hnew.symm.trans hr')
  obtain ⟨-, -, hbool, -⟩ := hreads 1 (.object [("active", .null)]) "active" rfl (by decide)
  rw [of_decide_eq_true (Outcome.ok.inj hread)] at hbool
  cases hbool

end JsonIn

end Nyxis
