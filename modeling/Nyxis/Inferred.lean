import Mathlib.Data.List.ReduceOption
import Nyxis.Import

/-!
# Inferred — what inference and emission make of the fields of the records

* `Inferred`, `finalize_inferred`: the keys of an inferred schema, and their sigils.
* `emitRecord_calls`: the fields of a record become writes.
* `JsonIn.inferSchema_eq_ok`, `JsonIn.emit_eq_ok`: the two passes over a JSON array.
-/

namespace Nyxis

open Lib Lib.Outcome

/-! ## Inference -/

/-- The texts of a key among some fields. -/
def fieldTexts (fields : List (String × String)) (key : String) : List String :=
  (fields.filter fun field => field.1 = key).map Prod.snd

/-- What is observed of a key in some fields. -/
def columnState (fields : List (String × String)) (key : String) : KeyState :=
  (fieldTexts fields key).foldl KeyState.observe KeyState.new

theorem fieldTexts_concat (fields : List (String × String)) (field : String × String) (key : String) :
    fieldTexts (fields ++ [field]) key = fieldTexts fields key ++ if field.1 = key then [field.2] else [] := by
  rw [fieldTexts, List.filter_append, List.map_append]
  congr 1
  by_cases h : field.1 = key
  · simp [h]
  · simp [h]

/-- The state of a key after one more field. -/
theorem columnState_concat (fields : List (String × String)) (field : String × String) (key : String) :
    columnState (fields ++ [field]) key =
      if field.1 = key then (columnState fields key).observe field.2 else columnState fields key := by
  rw [columnState, fieldTexts_concat, List.foldl_append]
  split
  · rfl
  · rfl

/-- Before its first field nothing is known of a key. -/
theorem columnState_new {fields : List (String × String)} {key : String} (h : key ∉ fields.map Prod.fst) :
    columnState fields key = KeyState.new := by
  have hnone : fields.filter (fun field => field.1 = key) = [] := by
    refine List.filter_eq_nil_iff.mpr fun field hfield => ?_
    rw [decide_eq_true_eq]
    rintro rfl
    exact h (List.mem_map_of_mem hfield)
  rw [columnState, fieldTexts, hnone]
  rfl

namespace InferredSchema

/-- A key stands at its position. -/
theorem position_eq_some {schema : InferredSchema} {key : String} {i : ℕ} (hnd : schema.names.Nodup) :
    schema.position key = some i ↔ schema.names[i]? = some key := by
  rw [position, List.findIdx?_eq_some_iff_getElem, names, List.getElem?_map]
  constructor
  · rintro ⟨hi, hk, -⟩
    rw [List.getElem?_eq_getElem hi, Option.map_some, beq_iff_eq.mp hk]
  · intro h
    obtain ⟨k, hk, rfl⟩ := Option.map_eq_some_iff.mp h
    obtain ⟨hi, rfl⟩ := List.getElem?_eq_some_iff.mp hk
    refine ⟨hi, beq_self_eq_true _, fun j hj heq => ?_⟩
    have hj' : j < schema.names.length := by
      simp only [names, List.length_map]
      omega
    have hi' : i < schema.names.length := by
      simp only [names, List.length_map]
      omega
    have heq' : schema.names[j] = schema.names[i] := by simpa [names] using heq
    have : j = i := (List.Nodup.getElem_inj_iff hnd).mp heq'
    omega

theorem position_eq_none {schema : InferredSchema} {key : String} :
    schema.position key = none ↔ key ∉ schema.names := by
  rw [position, List.findIdx?_eq_none_iff, names, List.mem_map]
  constructor
  · rintro h ⟨k, hk, rfl⟩
    simpa using h k hk
  · intro h k hk
    rw [beq_eq_false_iff_ne]
    rintro rfl
    exact h ⟨k, hk, rfl⟩

/-- The keys of the fields seen so far, and what was observed of them. -/
structure Observed (acc : InferredSchema) (fields : List (String × String)) : Prop where
  nodup : acc.names.Nodup
  mem : ∀ key, key ∈ acc.names ↔ key ∈ fields.map Prod.fst
  states : acc.keyStates = acc.names.map (columnState fields)

theorem Observed.new : Observed new [] := ⟨List.nodup_nil, fun _ => Iff.rfl, rfl⟩

theorem Observed.field {acc : InferredSchema} {fields : List (String × String)} (h : Observed acc fields)
    (field : String × String) : Observed (acc.observeField field) (fields ++ [field]) := by
  rw [observeField]
  cases hpos : acc.position field.1 with
  | some i =>
    have hi := (position_eq_some h.nodup).mp hpos
    refine ⟨h.nodup, fun key => ?_, ?_⟩
    · have hmem : field.1 ∈ fields.map Prod.fst := (h.mem field.1).mp (List.mem_of_getElem? hi)
      show key ∈ acc.names ↔ _
      rw [h.mem, List.map_append, List.mem_append, List.map_singleton, List.mem_singleton]
      exact ⟨Or.inl, fun hor => hor.elim id fun heq => heq ▸ hmem⟩
    · show acc.keyStates.modify i _ = acc.names.map _
      rw [h.states]
      refine List.ext_getElem? fun j => ?_
      rw [List.getElem?_modify, List.getElem?_map, List.getElem?_map]
      cases hj : acc.names[j]? with
      | none => rfl
      | some key =>
        rw [Option.map_some, Option.map_some, columnState_concat]
        by_cases hij : i = j
        · subst hij
          obtain rfl : field.1 = key := Option.some.inj (hi.symm.trans hj)
          simp
        · have hne : field.1 ≠ key := by
            rintro rfl
            exact hij ((List.getElem?_inj (List.getElem?_eq_some_iff.mp hi).1 h.nodup).mp (hi.trans hj.symm))
          simp [hij, hne]
  | none =>
    have hnew := position_eq_none.mp hpos
    have hnames : (⟨acc.keys ++ [⟨field.1, 0, false, none⟩], acc.keyStates ++ [KeyState.new.observe field.2],
        acc.totalRecords⟩ : InferredSchema).names = acc.names ++ [field.1] := by
      rw [names, List.map_append]
      rfl
    refine ⟨?_, fun key => ?_, ?_⟩
    · rw [hnames]
      exact List.nodup_append.mpr ⟨h.nodup, List.nodup_singleton _, fun a ha b hb => by
        rw [List.mem_singleton.mp hb]
        rintro rfl
        exact hnew ha⟩
    · rw [hnames, List.mem_append, h.mem, List.map_append, List.mem_append]
      rfl
    · have hold : acc.names.map (columnState (fields ++ [field])) = acc.keyStates := by
        rw [h.states]
        refine List.map_congr_left fun key hkey => ?_
        rw [columnState_concat, if_neg]
        rintro rfl
        exact hnew hkey
      rw [hnames, List.map_append, hold, List.map_singleton, columnState_concat, if_pos rfl,
        columnState_new (by rwa [← h.mem])]

theorem Observed.merge {acc : InferredSchema} {fields : List (String × String)} (h : Observed acc fields)
    (record : List (String × String)) : Observed (acc.merge record) (fields ++ record) := by
  have hfold : ∀ (record fields : List (String × String)) (acc : InferredSchema), Observed acc fields →
      Observed (record.foldl observeField acc) (fields ++ record) := by
    intro record
    induction record with
    | nil =>
      intro fields acc h
      rw [List.append_nil]
      exact h
    | cons field record ih =>
      intro fields acc h
      have hrest := ih _ _ (h.field field)
      rwa [List.append_assoc, List.singleton_append] at hrest
  obtain ⟨hnd, hmem, hstates⟩ := hfold record fields acc h
  exact ⟨hnd, hmem, hstates⟩

theorem Observed.merges {acc : InferredSchema} {fields : List (String × String)} (h : Observed acc fields)
    (records : List (List (String × String))) :
    Observed (records.foldl InferredSchema.merge acc) (fields ++ records.flatten) := by
  induction records generalizing acc fields with
  | nil =>
    rw [List.flatten_nil, List.append_nil]
    exact h
  | cons record records ih =>
    have hrest := ih (h.merge record)
    rwa [List.append_assoc, ← List.flatten_cons] at hrest

end InferredSchema

/-- A schema inferred from some fields: each key once, with the sigil that its texts resolve to. -/
structure Inferred (schema : InferredSchema) (fields : List (String × String)) (policy : ConflictPolicy) :
    Prop where
  nodup : schema.names.Nodup
  mem : ∀ key, key ∈ schema.names ↔ key ∈ fields.map Prod.fst
  sigil : ∀ (i : ℕ) (k : InferredKey), schema.keys[i]? = some k →
    (columnState fields k.name).resolveSigil policy = .ok k.sigil

/-- Each key keeps its name, takes the sigil of its state, and is optional where fewer texts than records were seen. -/
theorem finalize_keys {acc schema : InferredSchema} {fields : List (String × String)}
    {policy : ConflictPolicy} (h : acc.Observed fields) (hfin : acc.finalize policy = .ok schema) :
    schema.keys.length = acc.keys.length ∧ ∀ (i : ℕ) (k : InferredKey), schema.keys[i]? = some k →
      acc.names[i]? = some k.name ∧ (columnState fields k.name).resolveSigil policy = .ok k.sigil ∧
        k.optional = decide ((columnState fields k.name).presentCount < acc.totalRecords) := by
  obtain ⟨keys, hkeys, hok⟩ := bind_eq_ok.mp hfin
  have hlen : acc.keyStates.length = acc.keys.length := by
    rw [h.states, List.length_map, InferredSchema.names, List.length_map]
  rw [hlen, List.drop_length, List.append_nil] at hok
  cases hok
  rw [mapM_eq_ok] at hkeys
  have hcount : keys.length = acc.keys.length := by
    rw [← hkeys.length_eq, List.length_zip, hlen, Nat.min_self]
  refine ⟨hcount, fun i k hk => ?_⟩
  obtain ⟨hi, rfl⟩ := List.getElem?_eq_some_iff.mp hk
  have hi' : i < (acc.keys.zip acc.keyStates).length := by rwa [hkeys.length_eq]
  have hold : i < acc.keys.length := hcount ▸ hi
  have hstate : i < acc.keyStates.length := by omega
  have hstep := hkeys.get hi' hi
  rw [List.get_eq_getElem, List.get_eq_getElem, List.getElem_zip] at hstep
  obtain ⟨sigil, hsigil, heq⟩ := bind_eq_ok.mp hstep
  have heq' := Outcome.ok.inj heq
  have hname : acc.names[i]? = some keys[i].name := by
    rw [InferredSchema.names, List.getElem?_map, List.getElem?_eq_getElem hold, ← heq']
    rfl
  have hobs : acc.keyStates[i]? = some (columnState fields keys[i].name) := by
    rw [h.states, List.getElem?_map, hname, Option.map_some]
  rw [List.getElem?_eq_getElem hstate, Option.some.injEq] at hobs
  refine ⟨hname, ?_, ?_⟩
  · rw [← hobs, hsigil, ← heq']
  · rw [← hobs, ← heq']

theorem finalize_inferred {acc schema : InferredSchema} {fields : List (String × String)}
    {policy : ConflictPolicy} (h : acc.Observed fields) (hfin : acc.finalize policy = .ok schema) :
    Inferred schema fields policy := by
  obtain ⟨hcount, hkey⟩ := finalize_keys h hfin
  have hnames : schema.names = acc.names := by
    rw [InferredSchema.names]
    refine List.ext_getElem? fun i => ?_
    rw [List.getElem?_map]
    cases hk : schema.keys[i]? with
    | none =>
      have hle := List.getElem?_eq_none_iff.mp hk
      rw [List.getElem?_eq_none (by simp only [InferredSchema.names, List.length_map]; omega)]
      rfl
    | some k => exact (hkey i k hk).1.symm
  exact ⟨by rw [hnames]; exact h.nodup, fun key => by rw [hnames]; exact h.mem key, fun i k hk => (hkey i k hk).2.1⟩

/-! ## Emission -/

/-- The writes of the fields of a record. -/
def InferredSchema.recordCalls (schema : InferredSchema) (skip : String → Bool) (fields : List (String × String)) :
    Res (List Call) := do
  let calls ← fields.mapM (schema.fieldCall skip)
  .ok calls.reduceOption

/-- The fields of a record that are written are its writes, one after the other. -/
theorem emitFields_calls {schema : InferredSchema} {skip : String → Bool} : ∀ {fields : List (String × String)}
    {w w' : NxsWriter}, fields.foldlM (schema.emitField skip) w = .ok w' →
      ∃ calls, schema.recordCalls skip fields = .ok calls ∧ calls.foldlM NxsWriter.write w = .ok w'
  | [], w, w', h => ⟨[], rfl, h⟩
  | field :: fields, w, w', h => by
    rw [List.foldlM_cons] at h
    obtain ⟨w₁, hfield, h⟩ := bind_eq_ok.mp h
    obtain ⟨call, hcall, hwrite⟩ := bind_eq_ok.mp hfield
    obtain ⟨calls, hcalls, hrest⟩ := emitFields_calls h
    obtain ⟨opts, hopts, heq⟩ := bind_eq_ok.mp hcalls
    cases heq
    refine ⟨(call :: opts).reduceOption, ?_, ?_⟩
    · rw [InferredSchema.recordCalls, List.mapM_cons, hcall, ok_bind, hopts]
      rfl
    · cases call with
      | none =>
        cases hwrite
        rwa [List.reduceOption_cons_of_none]
      | some c =>
        rw [List.reduceOption_cons_of_some, List.foldlM_cons]
        exact bind_eq_ok.mpr ⟨w₁, hwrite, hrest⟩

theorem emitRecord_calls {schema : InferredSchema} {skip : String → Bool} {sorter : SlotSort}
    {fields : List (String × String)} {w w' : NxsWriter} (h : schema.emitRecord skip sorter w fields = .ok w') :
    ∃ calls, schema.recordCalls skip fields = .ok calls ∧ w.writeObject sorter calls = .ok w' := by
  obtain ⟨w₁, hfields, hend⟩ := bind_eq_ok.mp h
  obtain ⟨calls, hcalls, hwrites⟩ := emitFields_calls hfields
  exact ⟨calls, hcalls, bind_eq_ok.mpr ⟨w₁, hwrites, hend⟩⟩

/-- The records that are emitted are written, one after the other. -/
theorem emitRecords_calls {schema : InferredSchema} {skip : String → Bool} {sorter : SlotSort} :
    ∀ {records : List (List (String × String))} {w w' : NxsWriter},
      records.foldlM (schema.emitRecord skip sorter) w = .ok w' →
        ∃ calls, records.mapM (schema.recordCalls skip) = .ok calls ∧
          calls.foldlM (NxsWriter.writeObject sorter) w = .ok w'
  | [], w, w', h => ⟨[], rfl, h⟩
  | fields :: records, w, w', h => by
    rw [List.foldlM_cons] at h
    obtain ⟨w₁, hrecord, h⟩ := bind_eq_ok.mp h
    obtain ⟨calls, hcalls, hwrite⟩ := emitRecord_calls hrecord
    obtain ⟨rest, hrest, hwrites⟩ := emitRecords_calls h
    refine ⟨calls :: rest, ?_, ?_⟩
    · rw [List.mapM_cons, hcalls, ok_bind, hrest]
      rfl
    · rw [List.foldlM_cons]
      exact bind_eq_ok.mpr ⟨w₁, hwrite, hwrites⟩

/-! ## The two passes over a JSON array -/

namespace JsonIn

variable {floatText : F64 → String} {args : ImportArgs} {records : List JsonValue}

/-- The fields of every record. -/
def flattenRecords (floatText : F64 → String) (args : ImportArgs) (records : List JsonValue) :
    Res (List (List (String × String))) :=
  records.mapM fun record => flattenObject floatText args.maxDepth record 0

theorem inferSchema_eq_ok {schema : InferredSchema} (h : inferSchema floatText (.array records) args = .ok schema) :
    ∃ fields, flattenRecords floatText args records = .ok fields ∧ Inferred schema fields.flatten args.conflict := by
  obtain ⟨acc, hacc, hfin⟩ := bind_eq_ok.mp h
  have hstep : ∃ fields, flattenRecords floatText args records = .ok fields ∧
      fields.foldlM (fun acc kv => (.ok (InferredSchema.merge acc kv) : Res InferredSchema)) InferredSchema.new = .ok acc :=
    foldlM_mapM hacc
  obtain ⟨fields, hfields, hmerge⟩ := hstep
  have hpure : fields.foldlM (fun acc kv => (.ok (InferredSchema.merge acc kv) : Res InferredSchema)) InferredSchema.new =
      .ok (fields.foldl InferredSchema.merge InferredSchema.new) := List.foldlM_pure
  rw [hpure] at hmerge
  cases hmerge
  have hobs := InferredSchema.Observed.new.merges fields
  rw [List.nil_append] at hobs
  exact ⟨fields, hfields, finalize_inferred hobs hfin⟩

theorem emit_eq_ok {sorter : SlotSort} {schema : InferredSchema} {file : Slice} {report : ImportReport}
    (h : emit floatText sorter (.array records) schema args = .ok (file, report)) :
    ∃ fields calls w, flattenRecords floatText args records = .ok fields ∧
      fields.mapM (schema.recordCalls fun _ => false) = .ok calls ∧
      calls.foldlM (NxsWriter.writeObject sorter) (NxsWriter.new schema.names) = .ok w ∧ w.finish = .ok file := by
  obtain ⟨w, hw, hfin⟩ := bind_eq_ok.mp h
  obtain ⟨fields, hfields, hemit⟩ := foldlM_mapM hw
  obtain ⟨calls, hcalls, hwrite⟩ := emitRecords_calls hemit
  obtain ⟨file', hfile, heq⟩ := bind_eq_ok.mp hfin
  cases heq
  exact ⟨fields, calls, w, hfields, hcalls, hwrite, hfile⟩

end JsonIn

end Nyxis
