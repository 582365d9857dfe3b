import Nyxis.CsvRows
import Nyxis.DecodedRecords
import Nyxis.ImportValues
import Nyxis.StreamFile
import Nyxis.Transposed
import Nyxis.WrittenSchema

/-!
# CsvPipeline — CSV rows, imported and exported again

An import writes each cell under the sigil that its column was inferred to have, and leaves out what does not fit it.  The
export decodes the records and writes every value as text.

* `CsvIn.inferSchema_names`: the keys of the file are the header, in its order.
* `rowCalls_of`, `record_decoded_of`: the writes of a row are its cells, and are decoded as they were written.
* `csv_pipeline`: the export has the header, and in each cell the text that its sigil makes of the cell that was imported.
-/

namespace Nyxis

open Lib Lib.Outcome

/-! ## The keys of the header -/

namespace InferredSchema

theorem observeField_names (acc : InferredSchema) (field : String × String) :
    (acc.observeField field).names = if field.1 ∈ acc.names then acc.names else acc.names ++ [field.1] := by
  rw [observeField]
  cases hpos : acc.position field.1 with
  | some i =>
    have hmem : field.1 ∈ acc.names := by
      by_contra hnot
      rw [position_eq_none.mpr hnot] at hpos
      cases hpos
    rw [if_pos hmem]
    rfl
  | none =>
    rw [if_neg (position_eq_none.mp hpos)]
    show (acc.keys ++ [_]).map InferredKey.name = acc.names ++ [field.1]
    rw [List.map_append]
    rfl

/-- Fields with keys of their own add them in order. -/
theorem observeFields_new : ∀ {fields : List (String × String)} {acc : InferredSchema}, (fields.map Prod.fst).Nodup →
    (∀ field ∈ fields, field.1 ∉ acc.names) → (fields.foldl observeField acc).names = acc.names ++ fields.map Prod.fst
  | [], acc, _, _ => (List.append_nil _).symm
  | field :: fields, acc, hnd, hnew => by
    rw [List.map_cons, List.nodup_cons] at hnd
    have hnames := acc.observeField_names field
    rw [if_neg (hnew field List.mem_cons_self)] at hnames
    rw [List.foldl_cons, observeFields_new hnd.2 fun other hother => ?_, hnames, List.map_cons, List.append_assoc,
      List.singleton_append]
    rw [hnames, List.mem_append, List.mem_singleton]
    rintro (hold | heq)
    · exact hnew other (List.mem_cons_of_mem field hother) hold
    · exact hnd.1 (heq ▸ List.mem_map_of_mem hother)

/-- Fields of known keys add none. -/
theorem observeFields_old : ∀ {fields : List (String × String)} {acc : InferredSchema},
    (∀ field ∈ fields, field.1 ∈ acc.names) → (fields.foldl observeField acc).names = acc.names
  | [], _, _ => rfl
  | field :: fields, acc, hold => by
    have hnames := acc.observeField_names field
    rw [if_pos (hold field List.mem_cons_self)] at hnames
    rw [List.foldl_cons, observeFields_old fun other hother => ?_, hnames]
    rw [hnames]
    exact hold other (List.mem_cons_of_mem field hother)

theorem merges_old : ∀ {records : List (List (String × String))} {acc : InferredSchema},
    (∀ fields ∈ records, ∀ field ∈ fields, field.1 ∈ acc.names) → (records.foldl merge acc).names = acc.names
  | [], _, _ => rfl
  | fields :: records, acc, hold => by
    have hnames : (acc.merge fields).names = acc.names := observeFields_old (hold fields List.mem_cons_self)
    rw [List.foldl_cons, merges_old fun other hother => ?_, hnames]
    rw [hnames]
    exact hold other (List.mem_cons_of_mem fields hother)

end InferredSchema

namespace CsvIn

variable {headers : List String} {rows : List (List String)} {args : ImportArgs} {schema : InferredSchema}

/-- The keys of the schema are the header, in its order. -/
theorem inferSchema_names (hheader : args.csvNoHeader = false) (hnd : headers.Nodup)
    (hlen : ∀ row ∈ rows, row.length = headers.length) (hne : rows ≠ [])
    (h : inferSchema headers rows args = .ok schema) : schema.names = headers := by
  have hinf := @ImportInput.inferSchema_inferred (fun _ => "") args (.csv headers rows) schema h
  rw [inferSchema, hheader] at h
  obtain ⟨first, rest, rfl⟩ := List.exists_cons_of_ne_nil hne
  have hzip : ∀ row ∈ first :: rest, (headers.zip row).map Prod.fst = headers := fun row hrow =>
    List.map_fst_zip (hlen row hrow).ge
  have hfirst : (InferredSchema.merge InferredSchema.new (headers.zip first)).names = headers := by
    have hnew := @InferredSchema.observeFields_new (headers.zip first) InferredSchema.new
      (by rw [hzip first List.mem_cons_self]; exact hnd) fun _ _ => List.not_mem_nil
    rw [hzip first List.mem_cons_self] at hnew
    exact hnew
  have hacc : ((first :: rest).foldl (fun acc row => InferredSchema.merge acc (headers.zip row)) InferredSchema.new).names =
      headers := by
    rw [List.foldl_cons, ← List.foldl_map, InferredSchema.merges_old fun fields hfields field hfield => ?_, hfirst]
    obtain ⟨other, hother, rfl⟩ := List.mem_map.mp hfields
    rw [hfirst, ← hzip other (List.mem_cons_of_mem first hother)]
    exact List.mem_map_of_mem hfield
  have hobs := InferredSchema.Observed.new.merges ((first :: rest).map headers.zip)
  rw [List.foldl_map, List.nil_append] at hobs
  obtain ⟨hcount, hkey⟩ := finalize_keys hobs h
  rw [← hacc, InferredSchema.names]
  refine List.ext_getElem? fun i => ?_
  rw [List.getElem?_map]
  cases hk : schema.keys[i]? with
  | none =>
    have hle := List.getElem?_eq_none_iff.mp hk
    rw [List.getElem?_eq_none (by rw [InferredSchema.names, List.length_map, ← hcount]; exact hle)]
    rfl
  | some k => exact (hkey i k hk).1.symm

end CsvIn

/-! ## The sigils of values -/

/-- The sigils that a column may be inferred to have. -/
def inferredSigils : List UInt8 :=
  [SIGIL_INT, SIGIL_FLOAT, SIGIL_BOOL, SIGIL_TIME, SIGIL_STR, SIGIL_BINARY, SIGIL_NULL]

theorem observe_first {state : KeyState} (h : ∀ s, state.firstSigil = some s → s ∈ inferredSigils) (raw : String) :
    ∀ s, (state.observe raw).firstSigil = some s → s ∈ inferredSigils := by
  have hfirst : ∀ sigil ∈ inferredSigils, ∀ s, state.first sigil = some s → s ∈ inferredSigils := by
    intro sigil hsigil s hs
    rw [KeyState.first] at hs
    cases hold : state.firstSigil with
    | none =>
      rw [hold] at hs
      exact Option.some.inj hs ▸ hsigil
    | some s' =>
      rw [hold] at hs
      exact Option.some.inj hs ▸ h s' hold
  unfold KeyState.observe
  dsimp only
  split_ifs
  · exact h
  · exact hfirst SIGIL_INT (by decide)
  · exact hfirst SIGIL_FLOAT (by decide)
  · exact hfirst SIGIL_BOOL (by decide)
  · exact hfirst SIGIL_TIME (by decide)
  · exact hfirst SIGIL_BINARY (by decide)
  · exact hfirst SIGIL_STR (by decide)

theorem columnState_first (fields : List (String × String)) (key : String) :
    ∀ s, (columnState fields key).firstSigil = some s → s ∈ inferredSigils := by
  have hfold : ∀ (texts : List String) (state : KeyState), (∀ s, state.firstSigil = some s → s ∈ inferredSigils) →
      ∀ s, (texts.foldl KeyState.observe state).firstSigil = some s → s ∈ inferredSigils := by
    intro texts
    induction texts with
    | nil => exact fun _ h => h
    | cons text texts ih => exact fun _ h => ih _ (observe_first h text)
  exact hfold _ _ fun _ hs => absurd hs (by simp [KeyState.new])

/-- A column resolves to one of these sigils. -/
theorem resolveSigil_mem {fields : List (String × String)} {key : String} {policy : ConflictPolicy} {sigil : UInt8}
    (h : (columnState fields key).resolveSigil policy = .ok sigil) : sigil ∈ inferredSigils := by
  have hfirst : (columnState fields key).firstSigil.getD SIGIL_STR ∈ inferredSigils := by
    cases hold : (columnState fields key).firstSigil with
    | none => decide
    | some s => exact columnState_first fields key s hold
  unfold KeyState.resolveSigil at h
  split at h
  · cases policy with
    | error => cases h
    | coerceString =>
      cases h
      decide
    | firstWins =>
      cases h
      exact hfirst
  · split_ifs at h <;> cases h <;> decide

/-- A text is written under the sigil that was asked for. -/
theorem valueArg_sigil {sigil : UInt8} {text : String} {arg : Arg} (hsigil : sigil ∈ inferredSigils)
    (h : valueArg sigil text = .ok (some arg)) : arg.sigil = sigil ∧ arg.Scalar ∧ sigil ≠ SIGIL_NULL := by
  simp only [inferredSigils, List.mem_cons, List.not_mem_nil, or_false] at hsigil
  rcases hsigil with rfl | rfl | rfl | rfl | rfl | rfl | rfl
  · obtain ⟨n, -, rfl⟩ := Option.map_eq_some_iff.mp (Outcome.ok.inj (show _ = _ from h))
    exact ⟨rfl, trivial, by decide⟩
  · obtain ⟨v, -, rfl⟩ := Option.map_eq_some_iff.mp (Outcome.ok.inj (show _ = _ from h))
    exact ⟨rfl, trivial, by decide⟩
  · cases h
    exact ⟨rfl, trivial, by decide⟩
  · obtain ⟨n, -, rfl⟩ := Option.map_eq_some_iff.mp (Outcome.ok.inj (show _ = _ from h))
    exact ⟨rfl, trivial, by decide⟩
  · cases h
    exact ⟨rfl, trivial, by decide⟩
  · rw [valueArg, if_neg (by decide), if_neg (by decide), if_neg (by decide), if_neg (by decide), if_pos rfl] at h
    split at h
    · cases hbytes : hexBytes (utf8 text) with
      | ok bytes =>
        rw [hbytes] at h
        cases h
        exact ⟨rfl, trivial, by decide⟩
      | err e =>
        rw [hbytes] at h
        cases h
      | panic =>
        rw [hbytes] at h
        cases h
    · cases h
  · cases h

/-! ## The cells of a record -/

/-- A write is that of a field. -/
theorem recordCalls_field {schema : InferredSchema} {skip : String → Bool} {fields : List (String × String)} {calls : List Call}
    (h : schema.recordCalls skip fields = .ok calls) {c : Call} (hc : c ∈ calls) :
    ∃ field ∈ fields, schema.fieldCall skip field = .ok (some c) := by
  obtain ⟨opts, hopts, heq⟩ := bind_eq_ok.mp h
  cases heq
  rw [mapM_eq_ok] at hopts
  obtain ⟨j, hj, hget⟩ := List.getElem_of_mem (List.reduceOption_mem_iff.mp hc)
  have hj' : j < fields.length := by rwa [hopts.length_eq]
  have hcall := hopts.get hj' hj
  rw [List.get_eq_getElem, List.get_eq_getElem, hget] at hcall
  exact ⟨_, List.getElem_mem hj', hcall⟩

/-- A field that is written is not passed over, and fits the sigil of its key. -/
theorem fieldCall_some {schema : InferredSchema} {skip : String → Bool} {field : String × String} {c : Call}
    (hnd : schema.names.Nodup) (h : schema.fieldCall skip field = .ok (some c)) : ∃ i k arg, schema.keys[i]? = some k ∧
      k.name = field.1 ∧ skip field.2 = false ∧ c = ⟨i % 65536, arg⟩ ∧ valueArg k.sigil field.2 = .ok (some arg) := by
  rw [InferredSchema.fieldCall] at h
  cases hpos : schema.position field.1 with
  | none =>
    rw [hpos] at h
    cases h
  | some i =>
    rw [hpos] at h
    dsimp only at h
    have hname := (InferredSchema.position_eq_some hnd).mp hpos
    rw [InferredSchema.names, List.getElem?_map] at hname
    obtain ⟨k, hk, hkn⟩ := Option.map_eq_some_iff.mp hname
    by_cases hskip : skip field.2 = true
    · rw [if_pos hskip] at h
      cases h
    · rw [if_neg hskip] at h
      obtain ⟨arg, harg, heq⟩ := bind_eq_ok.mp h
      rw [hk] at harg
      cases arg with
      | none => cases heq
      | some arg =>
        cases heq
        exact ⟨i, k, arg, hk, hkn, Bool.eq_false_iff.mpr hskip, rfl, harg⟩

/-- The writes of a row are those of the cells that fit the sigil of their column. -/
structure RowCalls (schema : InferredSchema) (row : List String) (calls : List Call) : Prop where
  nodup : (calls.map Call.slot).Nodup
  slots : ∀ c ∈ calls, c.slot < schema.names.length
  mem : ∀ s k text, schema.keys[s]? = some k → row[s]? = some text → ∀ arg,
    (⟨s, arg⟩ ∈ calls ↔ text ≠ "" ∧ valueArg k.sigil text = .ok (some arg))

theorem rowCalls_of {schema : InferredSchema} {skip : String → Bool} {row : List String} {calls : List Call}
    (hskip : ∀ text, skip text = text.isEmpty) (hnd : schema.names.Nodup) (hsmall : schema.names.length < 65536)
    (hlen : row.length = schema.names.length) (h : schema.recordCalls skip (schema.names.zip row) = .ok calls) :
    RowCalls schema row calls := by
  have hkeys : ((schema.names.zip row).map Prod.fst).Nodup := by
    rw [List.map_fst_zip hlen.ge]
    exact hnd
  obtain ⟨hdistinct, hslots⟩ := recordCalls_nodup hnd hsmall.le hkeys h
  refine ⟨hdistinct, hslots, fun s k text hk htext arg => ?_⟩
  have hlt : s < schema.names.length := by
    rw [InferredSchema.names, List.length_map]
    exact (List.getElem?_eq_some_iff.mp hk).1
  have hname : schema.names[s]? = some k.name := by
    rw [InferredSchema.names, List.getElem?_map, hk]
    rfl
  have hfield : (schema.names.zip row)[s]? = some (k.name, text) := by
    rw [List.zip, List.getElem?_zipWith, hname, htext]
  constructor
  · intro hmem
    obtain ⟨field, hf, hcall⟩ := recordCalls_field h hmem
    obtain ⟨s', k', arg', hk', hname', hnot, heq, harg⟩ := fieldCall_some hnd hcall
    have hlt' : s' < schema.names.length := by
      rw [InferredSchema.names, List.length_map]
      exact (List.getElem?_eq_some_iff.mp hk').1
    obtain ⟨hslot, rfl⟩ := Call.mk.inj heq
    obtain rfl : s = s' := by rw [hslot, Nat.mod_eq_of_lt (by omega)]
    obtain rfl : k = k' := Option.some.inj (hk.symm.trans hk')
    obtain rfl : field = (k.name, text) :=
      List.inj_on_of_nodup_map hkeys hf (List.mem_of_getElem? hfield) hname'.symm
    rw [hskip] at hnot
    refine ⟨?_, harg⟩
    rintro rfl
    cases hnot
  · rintro ⟨hne, harg⟩
    have hwritten : skip text = false := by
      rw [hskip, ← Bool.not_eq_true, String.isEmpty_iff]
      exact hne
    have hcall := InferredSchema.fieldCall_at hnd hk hwritten
    rw [harg, ok_bind, Nat.mod_eq_of_lt (by omega)] at hcall
    exact recordCalls_written (List.mem_of_getElem? hfield) hcall h

/-! ## Decoding -/

/-- A value that starts with no magic number is decoded from a slot of its own sigil. -/
theorem keptBy_plain {x : Arg} (hscalar : x.Scalar) (hplain : x.cell.Plain) (hshort : x.bytesOf.length ≤ 65535) (room : ℕ) :
    x.KeptBy x.sigil room := by
  cases x with
  | i64 v =>
    refine ⟨hplain, ?_, fun hstr => ?_⟩
    · show SIGIL_INT ∉ _
      decide
    · exact absurd (show SIGIL_INT = SIGIL_STR from hstr) (by decide)
  | f64 v => exact ⟨hplain, rfl⟩
  | bool v => exact rfl
  | time v => exact ⟨hplain, rfl⟩
  | str s => exact ⟨hplain, rfl⟩
  | bytes b =>
    have hlen : b.length ≤ 65535 := by
      rw [Arg.bytesOf, prefixed_length, prefixedLen] at hshort
      omega
    refine ⟨⟨⟨?_, ?_⟩, by omega⟩, rfl⟩
    · unfold MAGIC_OBJ
      omega
    · unfold MAGIC_LIST
      omega
  | null => exact absurd hscalar not_false
  | listI64 l => exact absurd hscalar not_false
  | listF64 l => exact absurd hscalar not_false

/-- A record is decoded as it was written, where its object stands. -/
theorem record_decoded_of {d : Bytes} {off : ℕ} {keys : List String} {sigils : List UInt8} {calls : List Call}
    {order : List (ℕ × ℕ)} (hd : d.length < 2 ^ 63) (horder : TableOrder keys.length (callCells calls) order)
    (hat : At d off (filledObject keys.length (callCells calls) (order.map fun e => e.2 % 65536)))
    (hslots : ∀ c ∈ calls, c.slot < keys.length) (hdistinct : (calls.map Call.slot).Nodup)
    (hlen : objectLen keys.length (callCells calls) ≤ 65535) (hkeys : keys.length ≤ 256)
    (hvalues : ∀ c ∈ calls, c.arg.Scalar ∧ c.arg.cell.Plain ∧ sigils.getD c.slot 0 = c.arg.sigil) :
    RecordDecoded d off keys sigils calls := by
  have hcells : ((callCells calls).map Prod.fst).Nodup := by rwa [callCells_slots]
  have hcellSlots : ∀ c ∈ callCells calls, c.1 < keys.length := by
    intro c hc
    obtain ⟨call, hcall, rfl⟩ := List.mem_map.mp hc
    exact hslots call hcall
  have hplaces : ∀ e ∈ order, e.2 < 65536 := fun e he =>
    cellPlaces_lt (Nat.lt_succ_of_le hlen) e (horder.perm.mem_iff.mp he)
  have hcount : (callCells calls).length ≤ 512 := by
    have hle := calls_length_le hdistinct hslots
    rw [callCells_length]
    omega
  have hdecode := decodeObject_filled hat hd horder hcells hcellSlots hplaces (by omega) hcount keys sigils
  refine (recordDecoded_iff_of hdecode horder hdistinct fun e he c hc hslot => ?_).mpr fun c hc p _ => ?_
  · exact decodeValueAt_arg (hvalues c hc).1 (value_at_place horder hat hslots hdistinct he hc hslot.symm) hd
  · obtain ⟨hscalar, hplain, hsigil⟩ := hvalues c hc
    rw [hsigil]
    refine keptBy_plain hscalar hplain ?_ _
    obtain ⟨e, -, -, hval, -⟩ := call_at_rank horder hat hslots hdistinct hlen hc
    have hsub := (List.sublist_flatten_of_mem (List.mem_map_of_mem (f := Prod.snd)
      (List.mem_map_of_mem (f := fun c : Call => (c.slot, c.arg.bytesOf)) hc))).length_le
    have hle : c.arg.bytesOf.length ≤ (objectValues (callCells calls)).length := by
      rw [objectValues, List.flatMap_def]
      exact hsub
    rw [objectLen] at hlen
    omega

/-! ## The exported text of a cell -/

/-- What the export writes for a cell that was imported into a column with this sigil. -/
def exportedText {W : Type} (env : ExportEnv W) (sigil : UInt8) (text : String) : String :=
  if text = "" then ""
  else
    match valueArg sigil text with
    | .ok (some arg) => CsvOut.decodedValueToCsv env arg.cell.decoded
    | _ => ""

/-- The cells of a row, each under the sigil of its column. -/
def exportedRow {W : Type} (env : ExportEnv W) (schema : InferredSchema) (row : List String) : List String :=
  List.zipWith (fun k text => exportedText env k.sigil text) schema.keys row

section

variable {W : Type} {env : ExportEnv W} {schema : InferredSchema} {row : List String} {calls ordered : List Call}

/-- The cell of a column, among the fields of a record. -/
theorem RowCalls.fieldCell (h : RowCalls schema row calls) (hnd : schema.names.Nodup) (hperm : ordered.Perm calls) {s : ℕ}
    {k : InferredKey} {text : String} (hk : schema.keys[s]? = some k) (htext : row[s]? = some text) :
    CsvOut.fieldCell env (ordered.map fun c => (schema.names.getD c.slot s!"key_{c.slot}", c.arg.cell.decoded)) k.name =
      exportedText env k.sigil text := by
  have hname : schema.names[s]? = some k.name := by
    rw [InferredSchema.names, List.getElem?_map, hk]
    rfl
  have hslots : ∀ c ∈ ordered, c.slot < schema.names.length := fun c hc => h.slots c (hperm.mem_iff.mp hc)
  have hget : ∀ c ∈ ordered, ∀ hlt : c.slot < schema.names.length,
      schema.names.getD c.slot s!"key_{c.slot}" = schema.names[c.slot] := fun c _ hlt => List.getD_eq_getElem _ _ hlt
  have hdistinct : (ordered.map Call.slot).Nodup := (hperm.map Call.slot).nodup_iff.mpr h.nodup
  have hkeys : ((ordered.map fun c => (schema.names.getD c.slot s!"key_{c.slot}", c.arg.cell.decoded)).reverse.map
      Prod.fst).Nodup := by
    rw [List.map_reverse, List.nodup_reverse, List.map_map]
    refine List.Nodup.map_on (fun c hc c' hc' heq => ?_) (List.Nodup.of_map _ hdistinct)
    rw [Function.comp_apply, Function.comp_apply] at heq
    dsimp only at heq
    rw [hget c hc (hslots c hc), hget c' hc' (hslots c' hc')] at heq
    exact List.inj_on_of_nodup_map hdistinct hc hc' (hnd.getElem_inj_iff.mp heq)
  rw [CsvOut.fieldCell, exportedText]
  by_cases hwritten : ∃ arg, (⟨s, arg⟩ : Call) ∈ calls
  · obtain ⟨arg, hmem⟩ := hwritten
    obtain ⟨hne, harg⟩ := (h.mem s k text hk htext arg).mp hmem
    have hfield : (k.name, arg.cell.decoded) ∈
        (ordered.map fun c => (schema.names.getD c.slot s!"key_{c.slot}", c.arg.cell.decoded)).reverse := by
      rw [List.mem_reverse, List.mem_map]
      refine ⟨⟨s, arg⟩, hperm.mem_iff.mpr hmem, ?_⟩
      rw [List.getD_eq_getElem?_getD, hname, Option.getD_some]
    rw [lookup_of_mem hkeys hfield, if_neg hne, harg]
  · have hnone : k.name ∉ (ordered.map fun c => (schema.names.getD c.slot s!"key_{c.slot}", c.arg.cell.decoded)).reverse.map
        Prod.fst := by
      rw [List.map_reverse, List.mem_reverse, List.map_map]
      rintro hmem
      obtain ⟨c, hc, heq⟩ := List.mem_map.mp hmem
      rw [Function.comp_apply] at heq
      dsimp only at heq
      rw [hget c hc (hslots c hc)] at heq
      have hslot : c.slot = s := by
        refine (List.getElem?_inj (hslots c hc) hnd).mp ?_
        rw [List.getElem?_eq_getElem (hslots c hc), heq, hname]
      exact hwritten ⟨c.arg, hslot ▸ hperm.mem_iff.mp hc⟩
    rw [lookup_of_not_mem hnone]
    by_cases hne : text = ""
    · rw [if_pos hne]
    · rw [if_neg hne]
      cases harg : valueArg k.sigil text with
      | ok arg =>
        cases arg with
        | none => rfl
        | some arg => exact absurd ⟨arg, (h.mem s k text hk htext arg).mpr ⟨hne, harg⟩⟩ hwritten
      | err e => rfl
      | panic => rfl

end

/-! ## From rows to rows -/

/-- A CSV file with a header, each of whose rows has a cell for every column. -/
structure CsvTable (headers : List String) (rows : List (List String)) : Prop where
  columns : headers ≠ []
  nodup : headers.Nodup
  limits : WithinLimits headers
  nonempty : rows ≠ []
  rectangular : ∀ row ∈ rows, row.length = headers.length

/-- What an import of the rows has to keep to: its records start below 4 GiB and fit their offset tables, and what is
written for a cell starts with no magic number, or is a text of at most 1 MiB. -/
structure CsvFits (schema : InferredSchema) (headers : List String) (rows : List (List String)) : Prop where
  imports : ImportFits schema String.isEmpty (rows.map headers.zip)
  short : ∀ row ∈ rows, RecordShort schema String.isEmpty (headers.zip row)
  plain : ∀ row ∈ rows, ∀ (s : ℕ) k text, schema.keys[s]? = some k → row[s]? = some text → ∀ arg,
    valueArg k.sigil text = .ok (some arg) → arg.cell.Plain

section Loop

variable {W : Type} {env : ExportEnv W} (hput : ∀ w text, ∃ w', env.writeAll w text = .ok w')

include hput

/-- The export does not stop where the entries lead to records and the writer takes every text. -/
theorem tailLoop_ok {d : Bytes} (hd : d.length < 2 ^ 63) {decoded : DecodedFile} {columns : List String} {off : ℕ → ℕ} :
    ∀ (n i : ℕ) (s : ExportReport × W), (∀ j < i + n, tailEntry d decoded j = .ok (some (off j)) ∧ off j + 8 < 2 ^ 64) →
      ∃ s', tailLoop d decoded (fun _ _ fields s => CsvOut.writeRow env columns fields s) n i s = .ok s'
  | 0, _, s, _ => ⟨s, rfl⟩
  | n + 1, i, s, hentry => by
    obtain ⟨hread, hoff⟩ := hentry i (by omega)
    obtain ⟨fields, hfields⟩ : ∃ fields, recordFields d decoded (off i) = .ok fields := recordFields_ok hd hoff
    obtain ⟨w, hw⟩ := hput s.2 (CsvOut.csvRow (columns.map (CsvOut.fieldCell env fields)))
    rw [tailLoop, hread, ok_bind]
    dsimp only
    rw [hfields, ok_bind, CsvOut.writeRow, ExportEnv.put, hw]
    exact tailLoop_ok hd n (i + 1) _ fun j hj => hentry j (by omega)

theorem run_ok {args : ExportArgs} {file : Slice} {decoded : DecodedFile} {columns : List String} {off : ℕ → ℕ}
    (hdec : decode file = .ok decoded) (hcolumns : CsvOut.columnOrder args decoded.keys = .ok columns)
    (hentry : ∀ j < decoded.recordCount, tailEntry file.bytes decoded j = .ok (some (off j)) ∧ off j + 8 < 2 ^ 64) (w : W) :
    ∃ report w', CsvOut.run env args file w = .ok (report, w') := by
  obtain ⟨w₁, hw₁⟩ := hput w (CsvOut.csvRow columns)
  have hheader : env.put w (CsvOut.csvRow columns) = .ok w₁ := by
    rw [ExportEnv.put, hw₁]
    rfl
  obtain ⟨⟨report, w'⟩, hloop⟩ := @tailLoop_ok W env hput file.bytes file.small decoded columns off decoded.recordCount 0
    (⟨0, (utf8 (CsvOut.csvRow columns)).length⟩, w₁) fun j hj => hentry j (by omega)
  refine ⟨report, w', ?_⟩
  rw [CsvOut.run, hdec, ok_bind, hcolumns, ok_bind]
  dsimp only
  rw [hheader, ok_bind]
  exact hloop

end Loop

/-- Records that start below 4 GiB are fewer than `2^32`. -/
theorem count_of_starts {n : ℕ} {calls : List (List Call)} (h : ∀ i < calls.length, callStart n calls i < 2 ^ 32) :
    calls.length < 2 ^ 32 := by
  by_contra hbig
  have hge : 16 * (calls.length - 1) ≤ callStart n calls (calls.length - 1) := callStart_ge (by omega)
  have hlt := h (calls.length - 1) (by omega)
  omega

/-- The entries of the tail-index lead to where the records start. -/
theorem entry_of {keys : List String} {calls : List (List Call)} {objects : List Bytes} {file : Slice} {decoded : DecodedFile}
    (hobjects : ObjectFile keys (callSigils keys calls) objects file.bytes) (hdec : decode file = .ok decoded)
    (hkept : List.Forall₂ (fun calls object => object.length = objectLen keys.length (callCells calls)) calls objects)
    (hstarts : ∀ i < calls.length, callStart keys.length calls i < 2 ^ 32) {j : ℕ} (hj : j < calls.length) :
    tailEntry file.bytes decoded j = .ok (some (CsvOut.recordStart keys calls j)) ∧
      CsvOut.recordStart keys calls j + 8 < 2 ^ 64 := by
  have hd := file.small
  obtain ⟨-, -, hend⟩ := ObjectFile.tail_at hobjects
  have hstart := flatten_take_length_of j hkept
  have hle := (List.take_sublist j objects).flatten.length_le
  have hcount := hkept.length_eq
  rw [hstart] at hle
  constructor
  · rw [ObjectFile.tailEntry hobjects hdec (by omega), hstart, Nat.mod_eq_of_lt (hstarts j hj)]
    rfl
  · unfold CsvOut.recordStart
    omega

section Records

variable {W : Type} {env : ExportEnv W} {schema : InferredSchema} {row : List String} {rows : List (List String)}
  {cs : List Call} {calls : List (List Call)}

/-- A write of a row is of the cell in its slot. -/
theorem RowCalls.cell_of (h : RowCalls schema row cs) (hlen : row.length = schema.names.length) {c : Call} (hc : c ∈ cs) :
    ∃ k text, schema.keys[c.slot]? = some k ∧ row[c.slot]? = some text ∧ valueArg k.sigil text = .ok (some c.arg) := by
  have hlt := h.slots c hc
  have hlt' : c.slot < schema.keys.length := by rwa [InferredSchema.names, List.length_map] at hlt
  have hk := List.getElem?_eq_getElem hlt'
  have htext := List.getElem?_eq_getElem (l := row) (i := c.slot) (by omega)
  exact ⟨_, _, hk, htext, ((h.mem c.slot _ _ hk htext c.arg).mp hc).2⟩

/-- The columns of a schema have sigils that may be inferred. -/
def ColumnKinds (schema : InferredSchema) : Prop := ∀ (s : ℕ) k, schema.keys[s]? = some k → k.sigil ∈ inferredSigils

/-- The schema of the file has the sigil of a value for its slot. -/
theorem slotSigil_of (hrows : List.Forall₂ (RowCalls schema) rows calls) (hlen : ∀ row ∈ rows, row.length = schema.names.length)
    (hkinds : ColumnKinds schema) (hcs : cs ∈ calls) {c : Call} (hc : c ∈ cs) :
    (schemaSigils schema.names.length (callSigils schema.names calls)).getD c.slot 0 = c.arg.sigil := by
  have hcell : ∀ cs' ∈ calls, ∀ c' ∈ cs', c'.slot < schema.names.length ∧ ∃ k text, schema.keys[c'.slot]? = some k ∧
      valueArg k.sigil text = .ok (some c'.arg) := by
    intro cs' hcs' c' hc'
    obtain ⟨i, hi, rfl⟩ := List.getElem_of_mem hcs'
    have hi' : i < rows.length := by rwa [hrows.length_eq]
    have hrow := hrows.get hi' hi
    obtain ⟨k, text, hk, -, harg⟩ := hrow.cell_of (hlen _ (List.getElem_mem hi')) hc'
    exact ⟨hrow.slots c' hc', k, text, hk, harg⟩
  obtain ⟨hlt, k, text, hk, harg⟩ := hcell cs hcs c hc
  obtain ⟨hsigil, -, hnull⟩ := valueArg_sigil (hkinds _ k hk) harg
  have hzero : k.sigil ≠ 0 := by
    have hmem := hkinds _ k hk
    intro heq
    rw [heq] at hmem
    exact absurd hmem (by decide)
  have hcolumn : ∀ cs' ∈ calls, ∀ c' ∈ cs', c'.slot = c.slot → c'.arg.sigil = k.sigil := by
    intro cs' hcs' c' hc' hsame
    obtain ⟨-, k', text', hk', harg'⟩ := hcell cs' hcs' c' hc'
    rw [hsame, hk] at hk'
    cases hk'
    exact (valueArg_sigil (hkinds _ k hk) harg').1
  have hslot := callSigils_kind hlt hzero hnull hcolumn ⟨cs, hcs, c, hc, rfl⟩
  have hlong : c.slot < (callSigils schema.names calls).length := by rwa [callSigils_length]
  rw [List.getD_eq_getElem _ _ hlong] at hslot
  rw [schemaSigils, List.getD_eq_getElem?_getD, List.getElem?_map, List.getElem?_range hlt, Option.map_some, Option.getD_some,
    List.getD_eq_getElem _ _ hlong, hslot, schemaSigil, if_neg hzero, hsigil]

/-- The cells of a record of the file, where it starts. -/
theorem record_exported {file : Slice} {decoded : DecodedFile} {objects : List Bytes}
    (hobjects : ObjectFile schema.names (callSigils schema.names calls) objects file.bytes)
    (hkept : List.Forall₂ (fun calls object => object.length = objectLen schema.names.length (callCells calls)) calls objects)
    (hfilled : List.Forall₂ (FilledObject schema.names.length) calls objects)
    (hrows : List.Forall₂ (RowCalls schema) rows calls) (hlen : ∀ row ∈ rows, row.length = schema.names.length)
    (hkinds : ColumnKinds schema) (hnd : schema.names.Nodup) (hmany : schema.names.length ≤ 256)
    (hkeys : decoded.keys = schema.names)
    (hsigils : decoded.keySigils = schemaSigils schema.names.length (callSigils schema.names calls))
    {i : ℕ} (hrow : rows[i]? = some row) (hcs : calls[i]? = some cs)
    (hshort : objectLen schema.names.length (callCells cs) ≤ 65535) (hplain : ∀ c ∈ cs, c.arg.cell.Plain) :
    CsvOut.recordCells env file.bytes decoded schema.names (CsvOut.recordStart schema.names calls i) =
      exportedRow env schema row := by
  obtain ⟨hi, rfl⟩ := List.getElem?_eq_some_iff.mp hrow
  obtain ⟨hic, rfl⟩ := List.getElem?_eq_some_iff.mp hcs
  have hio : i < objects.length := by rwa [← hfilled.length_eq]
  have hcalls : RowCalls schema rows[i] calls[i] := hrows.get hi hic
  obtain ⟨offsets, -, ⟨-, htable⟩, hobject⟩ := hfilled.get hic hio
  rw [List.get_eq_getElem, List.get_eq_getElem] at hobject
  rw [List.get_eq_getElem] at htable
  dsimp only at htable
  obtain ⟨order, horder, rfl⟩ := htable (by omega)
  have hat := ObjectFile.object_at hobjects (List.getElem?_eq_getElem hio)
  rw [flatten_take_length_of i hkept, hobject] at hat
  have hdecoded : RecordDecoded file.bytes (CsvOut.recordStart schema.names calls i) decoded.keys decoded.keySigils calls[i] := by
    rw [hkeys, hsigils]
    refine record_decoded_of file.small horder hat hcalls.slots hcalls.nodup hshort hmany fun c hc => ?_
    obtain ⟨k, text, hk, -, harg⟩ := hcalls.cell_of (hlen _ (List.getElem_mem hi)) hc
    exact ⟨(valueArg_sigil (hkinds _ k hk) harg).2.1, hplain c hc,
      slotSigil_of hrows hlen hkinds (List.getElem_mem hic) hc⟩
  obtain ⟨ordered, hperm, -, hdecode⟩ := hdecoded
  rw [CsvOut.recordCells, recordFields, hdecode, hkeys]
  show schema.names.map _ = _
  refine List.ext_getElem? fun s => ?_
  rw [List.getElem?_map, InferredSchema.names, List.getElem?_map, exportedRow, List.getElem?_zipWith]
  cases hk : schema.keys[s]? with
  | none => rfl
  | some k =>
    have hs : s < rows[i].length := by
      rw [hlen _ (List.getElem_mem hi), InferredSchema.names, List.length_map]
      exact (List.getElem?_eq_some_iff.mp hk).1
    rw [List.getElem?_eq_getElem hs]
    exact congrArg some (hcalls.fieldCell hnd hperm hk (List.getElem?_eq_getElem hs))

end Records

section Pipeline

variable {headers : List String} {rows : List (List String)} {args : ImportArgs} {schema : InferredSchema}

/-- The rows of the file are those of the import. -/
theorem import_rows (hheader : args.csvNoHeader = false) :
    (ImportInput.csv headers rows).rows (fun _ => "") args = rows.map headers.zip := by
  rw [ImportInput.rows, hheader]
  rfl

/-- The columns of an inferred schema have sigils that may be inferred. -/
theorem Inferred.kinds {fields : List (String × String)} {policy : ConflictPolicy} (h : Inferred schema fields policy) :
    ColumnKinds schema := fun s k hk => resolveSigil_mem (h.sigil s k hk)

/-- The writes of all rows. -/
theorem rowCalls_all {calls : List (List Call)} (hnd : schema.names.Nodup) (hsmall : schema.names.length < 65536)
    (hlen : ∀ row ∈ rows, row.length = schema.names.length)
    (h : (rows.map schema.names.zip).mapM (schema.recordCalls String.isEmpty) = .ok calls) :
    List.Forall₂ (RowCalls schema) rows calls := by
  rw [mapM_eq_ok, List.forall₂_map_left_iff] at h
  refine List.forall₂_iff_get.mpr ⟨h.length_eq, fun i hi hi' => ?_⟩
  exact rowCalls_of (fun _ => rfl) hnd hsmall (hlen _ (List.getElem_mem hi)) (h.get hi hi')

/-- A row that is exported has a cell for each column. -/
theorem exportedRow_length {W : Type} {env : ExportEnv W} {row : List String} (hlen : row.length = schema.names.length) :
    (exportedRow env schema row).length = schema.names.length := by
  rw [exportedRow, List.length_zipWith, hlen, InferredSchema.names, List.length_map, Nat.min_self]

/-- The export of an imported CSV file is read back as its header and, in each cell, the text that the sigil of the column
makes of what was imported. -/
theorem csv_pipeline {W : Type} (env : ExportEnv W) (written : W → String)
    (hwriter : ∀ w text, ∃ w', env.writeAll w text = .ok w' ∧ written w' = written w ++ text) (w : W) (hw : written w = "")
    (sorter : SlotSort) (headers : List String) (rows : List (List String)) (args : ImportArgs) (schema : InferredSchema)
    (file : Slice) (imported : ImportReport) (htable : CsvTable headers rows) (hheader : args.csvNoHeader = false)
    (hinfer : CsvIn.inferSchema headers rows args = .ok schema)
    (hemit : CsvIn.emit sorter headers rows schema args = .ok (file, imported)) (hfits : CsvFits schema headers rows)
    (hblank : [""] ∉ headers :: rows.map (exportedRow env schema)) :
    schema.names = headers ∧ ∃ report w', CsvOut.run env ⟨false, false, none, .base64⟩ file w = .ok (report, w') ∧
      Csv.rows ',' (written w') = headers :: rows.map (exportedRow env schema) := by
  have hnames := CsvIn.inferSchema_names hheader htable.nodup htable.rectangular htable.nonempty hinfer
  obtain rfl := hnames
  refine ⟨rfl, ?_⟩
  have hinf := @ImportInput.inferSchema_inferred (fun _ => "") args (.csv schema.names rows) schema hinfer
  obtain ⟨calls, writer, hcalls, hrecords, hfinish⟩ :=
    @ImportInput.emit_calls (fun _ => "") args (.csv schema.names rows) schema sorter file imported hinfer hemit
  rw [import_rows hheader] at hcalls
  have hd := file.small
  have hsmall := hfits.imports.keys
  have hrows := rowCalls_all htable.nodup hsmall htable.rectangular hcalls
  obtain ⟨objects, hkept, hfilled, -⟩ := writeObjects_filled hrecords
  have hobjects := finish_objects hkept.packed hfinish
  rw [hkept.keys_eq, hkept.slotSigils] at hobjects
  obtain ⟨r, hr, -, hread⟩ := ObjectFile.opens hobjects hsmall hfits.imports.names
  -- both readers see the file alike
  have hchecks := Framed.decoderChecks_basic hobjects hd (by decide) (by decide) hfits.imports.names htable.limits
    (fun hcol => absurd hcol (by decide)) fun hpax => absurd hpax (by decide)
  obtain ⟨-, r', decoded, hr', hdec, -, hkeys, hsigils, hcount⟩ := seenAlike_of hr hread.keys_eq hchecks
  obtain rfl : r = r' := Outcome.ok.inj (hr.symm.trans hr')
  rw [hread.keySigils] at hsigils
  have hlength := hrows.length_eq
  have hstarts := hfits.imports.starts calls hcalls
  rw [List.length_map, hlength] at hstarts
  have hall : decoded.recordCount = rows.length := by
    rw [hcount, hread.recordCount, ← hfilled.length_eq, hlength, Nat.mod_eq_of_lt (count_of_starts hstarts)]
  have hentry : ∀ j < decoded.recordCount, tailEntry file.bytes decoded j =
      .ok (some (CsvOut.recordStart schema.names calls j)) ∧ CsvOut.recordStart schema.names calls j + 8 < 2 ^ 64 :=
    fun j hj => entry_of hobjects hdec hkept.lengths hstarts (by omega)
  have hcells : ∀ i (hi : i < rows.length), CsvOut.recordCells env file.bytes decoded schema.names
      (CsvOut.recordStart schema.names calls i) = exportedRow env schema rows[i] := by
    intro i hi
    have hic : i < calls.length := by rwa [← hrows.length_eq]
    have hcs := (mapM_eq_ok.mp hcalls).get (by rwa [List.length_map]) hic
    rw [List.get_eq_getElem, List.get_eq_getElem, List.getElem_map] at hcs
    refine record_exported hobjects hkept.lengths hfilled hrows htable.rectangular hinf.kinds htable.nodup htable.limits.many
      hkeys hsigils (List.getElem?_eq_getElem hi) (List.getElem?_eq_getElem hic)
      (hfits.short _ (List.getElem_mem hi) _ hcs) fun c hc => ?_
    have hrow := hrows.get hi hic
    obtain ⟨k, text, hk, htext, harg⟩ := hrow.cell_of (htable.rectangular _ (List.getElem_mem hi)) hc
    exact hfits.plain _ (List.getElem_mem hi) c.slot k text hk htext c.arg harg
  -- the export runs to its end
  have hcolumns : CsvOut.columnOrder ⟨false, false, none, .base64⟩ decoded.keys = .ok schema.names := by
    rw [hkeys]
    rfl
  obtain ⟨report, w', hrun⟩ := run_ok (fun w text => (hwriter w text).imp fun _ h => h.1) hdec hcolumns hentry w
  refine ⟨report, w', hrun, ?_⟩
  have hwrites : ∀ w text w', env.writeAll w text = .ok w' → written w' = written w ++ text := by
    intro w text w' h
    obtain ⟨w₂, hok, heq⟩ := hwriter w text
    obtain rfl : w₂ = w' := Except.ok.inj (hok.symm.trans h)
    exact heq
  have hlines := CsvOut.run_lines hwrites hw hdec hcolumns (fun j hj => (hentry j hj).1) hrun
  have hexport : ((List.range decoded.recordCount).map fun j => CsvOut.recordCells env file.bytes decoded schema.names
      (CsvOut.recordStart schema.names calls j)) = rows.map (exportedRow env schema) := by
    refine List.ext_getElem (by simp [hall]) fun i hi hi' => ?_
    rw [List.length_map] at hi'
    rw [List.getElem_map, List.getElem_map, List.getElem_range]
    exact hcells i hi'
  rw [hexport] at hlines
  have hrect : CsvOut.Lines schema.names.length (rows.map (exportedRow env schema)) := by
    intro cells hmem
    obtain ⟨row, hrow, rfl⟩ := List.mem_map.mp hmem
    exact exportedRow_length (htable.rectangular row hrow)
  refine (CsvOut.rows_lines_iff htable.columns hrect hrect (Nat.le_refl _) hlines).mpr ⟨⟨.inl rfl, fun row hrow => ?_⟩, rfl⟩
  refine ⟨fun heq => hblank (heq ▸ hrow), fun cell _ hcomma => ⟨',', hcomma, .inl rfl⟩⟩

end Pipeline

/-- Two rows, one with a text that has to be quoted and one without a text. -/
def quotedRows : List (List String) := [["7", "x,\"y\""], ["8", ""]]

def quotedSchema : InferredSchema :=
  ⟨[⟨"id", SIGIL_INT, false, none⟩, ⟨"name", SIGIL_STR, true, none⟩],
    [⟨true, false, false, false, false, false, false, 2, 2, some SIGIL_INT⟩,
      ⟨false, false, false, false, false, true, true, 2, 1, some SIGIL_STR⟩], 2⟩

/-- The writes of the rows. -/
def quotedCalls : List (List Call) := [[⟨0, .i64 7⟩, ⟨1, .str "x,\"y\""⟩], [⟨0, .i64 8⟩]]

theorem quotedRows_calls : (quotedRows.map ["id", "name"].zip).mapM (quotedSchema.recordCalls String.isEmpty) = .ok quotedCalls := by
  decide

theorem quotedRows_fit : CsvFits quotedSchema ["id", "name"] quotedRows where
  imports := by
    refine ⟨by decide, by decide, fun calls hc i hi => ?_⟩
    obtain rfl := Outcome.ok.inj (hc.symm.trans quotedRows_calls)
    match i, hi with
    | 0, _ => decide
    | 1, _ => decide
  short row hrow calls hc := by
    simp only [quotedRows, List.mem_cons, List.not_mem_nil, or_false] at hrow
    rcases hrow with rfl | rfl
    · obtain rfl : calls = [⟨0, .i64 7⟩, ⟨1, .str "x,\"y\""⟩] := Outcome.ok.inj (hc.symm.trans (by decide))
      decide
    · obtain rfl : calls = [⟨0, .i64 8⟩] := Outcome.ok.inj (hc.symm.trans (by decide))
      decide
  plain row hrow s k text hk htext arg harg := by
    simp only [quotedRows, List.mem_cons, List.not_mem_nil, or_false] at hrow
    rcases hrow with rfl | rfl
    · match s, hk, htext with
      | 0, hk, htext =>
        cases hk
        cases htext
        obtain rfl : arg = .i64 7 := Option.some.inj (Outcome.ok.inj (harg.symm.trans (by decide)))
        decide
      | 1, hk, htext =>
        cases hk
        cases htext
        obtain rfl : arg = .str "x,\"y\"" := Option.some.inj (Outcome.ok.inj (harg.symm.trans (by decide)))
        decide
    · match s, hk, htext with
      | 0, hk, htext =>
        cases hk
        cases htext
        obtain rfl : arg = .i64 8 := Option.some.inj (Outcome.ok.inj (harg.symm.trans (by decide)))
        decide
      | 1, hk, htext =>
        cases hk
        cases htext
        obtain rfl : arg = .str "" := Option.some.inj (Outcome.ok.inj (harg.symm.trans (by decide)))
        decide

theorem csv_pipeline_quoted : ∃ file imported report out,
    CsvIn.emit SlotSort.stable ["id", "name"] quotedRows quotedSchema ⟨.error, false, 64⟩ = .ok (file, imported) ∧
      CsvOut.run textEnv ⟨false, false, none, .base64⟩ file "" = .ok (report, out) ∧
        Csv.rows ',' out = [["id", "name"], ["7", "x,\"y\""], ["8", ""]] := by
  have hinfer : CsvIn.inferSchema ["id", "name"] quotedRows ⟨.error, false, 64⟩ = .ok quotedSchema := by decide
  obtain ⟨⟨file, imported⟩, hemit⟩ := isOk_iff.mp (show (CsvIn.emit SlotSort.stable ["id", "name"] quotedRows quotedSchema
    ⟨.error, false, 64⟩).isOk = true by decide +kernel)
  have htable : CsvTable ["id", "name"] quotedRows := ⟨by decide, by decide, ⟨by decide, by decide⟩, by decide, by decide⟩
  have hrows : quotedRows.map (exportedRow textEnv quotedSchema) = [["7", "x,\"y\""], ["8", ""]] := by decide
  obtain ⟨-, report, out, hrun, hread⟩ := csv_pipeline textEnv id (fun w text => ⟨w ++ text, rfl, rfl⟩) "" rfl SlotSort.stable
    ["id", "name"] quotedRows ⟨.error, false, 64⟩ quotedSchema file imported htable rfl hinfer hemit quotedRows_fit
    (by rw [hrows]; decide)
  rw [hrows] at hread
  exact ⟨file, imported, report, out, hemit, hrun, hread⟩

end Nyxis
