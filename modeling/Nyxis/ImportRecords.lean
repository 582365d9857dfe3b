import Nyxis.CallRecords
import Nyxis.Inferred

/-!
# ImportRecords — the records of an imported file

Each record of an import is the writes of its fields.  `Imported` is the opened file of an import.

* `recordCalls_slot`, `recordCalls_written`: which fields are written, and where.
* `Imported.opens`: an import that the file can address is opened.
-/

namespace Nyxis

open Lib Lib.Outcome

/-! ## The writes of a record -/

section Calls

variable {schema : InferredSchema} {fields : List (String × String)} {calls : List Call} {key : String} {i : ℕ}

/-- The sigil of a key at its position. -/
theorem InferredSchema.fieldCall_at {skip : String → Bool} {k : InferredKey} (hnd : schema.names.Nodup)
    (hk : schema.keys[i]? = some k) {value : String} (hskip : skip value = false) :
    schema.fieldCall skip (k.name, value) =
      (valueArg k.sigil value >>= fun arg => .ok (arg.map fun arg => ⟨i % 65536, arg⟩)) := by
  have hpos : schema.position k.name = some i := by
    rw [InferredSchema.position_eq_some hnd, InferredSchema.names, List.getElem?_map, hk]
    rfl
  rw [InferredSchema.fieldCall, hpos]
  dsimp only
  rw [hskip, hk]
  rfl

/-- A write goes to the slot of the key of some field. -/
theorem recordCalls_slot {skip : String → Bool} (hnd : schema.names.Nodup)
    (h : schema.recordCalls skip fields = .ok calls) :
    ∀ c ∈ calls, ∃ field ∈ fields, ∃ (i : ℕ) (k : InferredKey) (arg : Arg), schema.keys[i]? = some k ∧ k.name = field.1 ∧
      c = ⟨i % 65536, arg⟩ ∧ valueArg k.sigil field.2 = .ok (some arg) := by
  intro c hc
  obtain ⟨opts, hopts, heq⟩ := bind_eq_ok.mp h
  cases heq
  rw [mapM_eq_ok] at hopts
  obtain ⟨j, hj, hget⟩ := List.getElem_of_mem (List.reduceOption_mem_iff.mp hc)
  have hj' : j < fields.length := by rwa [hopts.length_eq]
  have hcall := hopts.get hj' hj
  rw [List.get_eq_getElem, List.get_eq_getElem, hget, InferredSchema.fieldCall] at hcall
  cases hpos : schema.position fields[j].1 with
  | none =>
    rw [hpos] at hcall
    cases hcall
  | some i =>
    rw [hpos] at hcall
    dsimp only at hcall
    have hname := (InferredSchema.position_eq_some hnd).mp hpos
    rw [InferredSchema.names, List.getElem?_map] at hname
    obtain ⟨k, hk, hkn⟩ := Option.map_eq_some_iff.mp hname
    split at hcall
    · cases hcall
    · obtain ⟨arg, harg, heq⟩ := bind_eq_ok.mp hcall
      rw [hk] at harg
      cases arg with
      | none => cases heq
      | some arg =>
        cases heq
        exact ⟨_, List.getElem_mem hj', i, k, arg, hk, hkn, rfl, harg⟩

/-- A field whose text fits its sigil is written. -/
theorem recordCalls_written {skip : String → Bool} {field : String × String} {call : Call} (hfield : field ∈ fields)
    (hcall : schema.fieldCall skip field = .ok (some call)) (h : schema.recordCalls skip fields = .ok calls) :
    call ∈ calls := by
  obtain ⟨opts, hopts, heq⟩ := bind_eq_ok.mp h
  cases heq
  rw [mapM_eq_ok] at hopts
  obtain ⟨j, hj, rfl⟩ := List.getElem_of_mem hfield
  have hj' : j < opts.length := by rwa [← hopts.length_eq]
  have heq := hopts.get hj hj'
  rw [List.get_eq_getElem, List.get_eq_getElem, hcall] at heq
  rw [List.reduceOption_mem_iff, Outcome.ok.inj heq]
  exact List.getElem_mem hj'

end Calls

/-- The writes of fields with different keys go to different slots of the schema. -/
theorem recordCalls_nodup {schema : InferredSchema} {skip : String → Bool} (hnd : schema.names.Nodup)
    (hsmall : schema.names.length ≤ 65536) : ∀ {fields : List (String × String)} {calls : List Call}, (fields.map Prod.fst).Nodup →
      schema.recordCalls skip fields = .ok calls → (calls.map Call.slot).Nodup ∧ ∀ c ∈ calls, c.slot < schema.names.length
  | [], calls, _, h => by
    cases h
    exact ⟨List.nodup_nil, fun _ hc => absurd hc List.not_mem_nil⟩
  | field :: fields, calls, hkeys, h => by
    rw [List.map_cons, List.nodup_cons] at hkeys
    have hslot := recordCalls_slot hnd h
    obtain ⟨opts, hopts, heq⟩ := bind_eq_ok.mp h
    cases heq
    rw [List.mapM_cons] at hopts
    obtain ⟨call, hcall, hopts⟩ := bind_eq_ok.mp hopts
    obtain ⟨rest, hrest, hopts⟩ := bind_eq_ok.mp hopts
    cases hopts
    have htail : schema.recordCalls skip fields = .ok rest.reduceOption := by
      rw [InferredSchema.recordCalls, hrest]
      rfl
    obtain ⟨hdistinct, -⟩ := recordCalls_nodup hnd hsmall hkeys.2 htail
    have hbound : ∀ {i : ℕ} {k : InferredKey}, schema.keys[i]? = some k → i < schema.names.length := fun hk => by
      rw [InferredSchema.names, List.length_map]
      exact (List.getElem?_eq_some_iff.mp hk).1
    have hmod : ∀ {i : ℕ} {k : InferredKey}, schema.keys[i]? = some k → i % 65536 = i := fun hk =>
      Nat.mod_eq_of_lt ((hbound hk).trans_le hsmall)
    refine ⟨?_, fun c hc => ?_⟩
    · cases call with
      | none =>
        rw [List.reduceOption_cons_of_none]
        exact hdistinct
      | some c =>
        rw [List.reduceOption_cons_of_some, List.map_cons, List.nodup_cons]
        refine ⟨fun hmem => ?_, hdistinct⟩
        -- two writes to one slot come from fields of one key
        obtain ⟨c', hc', heq⟩ := List.mem_map.mp hmem
        obtain ⟨f', hf', i', k', arg', hk', hname', rfl, -⟩ := recordCalls_slot hnd htail c' hc'
        have hone : schema.recordCalls skip [field] = .ok [c] := by
          rw [InferredSchema.recordCalls, List.mapM_cons, hcall]
          rfl
        obtain ⟨f, hf, i, k, arg, hk, hname, rfl, -⟩ := recordCalls_slot hnd hone c List.mem_cons_self
        obtain rfl := List.mem_singleton.mp hf
        dsimp only at heq
        rw [hmod hk, hmod hk'] at heq
        obtain rfl := heq
        obtain rfl : k = k' := Option.some.inj (hk.symm.trans hk')
        exact hkeys.1 (List.mem_map.mpr ⟨f', hf', hname'.symm.trans hname⟩)
    · obtain ⟨f', hf', i', k', arg', hk', hname', rfl, -⟩ := hslot c hc
      dsimp only
      rw [hmod hk']
      exact hbound hk'

/-! ## The file -/

/-- The opened file of an import with these rows of fields. -/
structure Imported (schema : InferredSchema) (skip : String → Bool) (policy : ConflictPolicy)
    (rows : List (List (String × String))) (calls : List (List Call)) (r : Reader) (sigils : List UInt8)
    (objects : List Bytes) : Prop where
  inferred : Inferred schema rows.flatten policy
  written : rows.mapM (schema.recordCalls skip) = .ok calls
  small : schema.names.length < 65536
  count : calls.length < 2 ^ 32
  starts : ∀ i < rows.length, callStart schema.names.length calls i < 2 ^ 32
  table : ObjectTable r schema.names sigils objects
  filled : List.Forall₂ (FilledObject schema.names.length) calls objects

namespace Imported

variable {schema : InferredSchema} {skip : String → Bool} {policy : ConflictPolicy}
  {rows : List (List (String × String))} {calls : List (List Call)}

theorem opens {sorter : SlotSort} {w : NxsWriter} {file : Slice} (hinf : Inferred schema rows.flatten policy)
    (hcalls : rows.mapM (schema.recordCalls skip) = .ok calls)
    (hw : calls.foldlM (NxsWriter.writeObject sorter) (NxsWriter.new schema.names) = .ok w) (hfile : w.finish = .ok file)
    (hsmall : schema.names.length < 65536) (hnul : ∀ key ∈ schema.names, NulFree key)
    (hstarts : ∀ i < rows.length, callStart schema.names.length calls i < 2 ^ 32) :
    ∃ r sigils objects, Reader.new file = .ok r ∧ Imported schema skip policy rows calls r sigils objects := by
  have hlen : rows.length = calls.length := (mapM_eq_ok.mp hcalls).length_eq
  have hcount : calls.length < 2 ^ 32 := by
    by_contra hbig
    have hge : 16 * (calls.length - 1) ≤ callStart schema.names.length calls (calls.length - 1) :=
      callStart_ge (by omega)
    have hlt := hstarts (calls.length - 1) (by omega)
    omega
  obtain ⟨objects, hkept, hfilled, -⟩ := writeObjects_filled hw
  have hobject := finish_objects hkept.packed hfile
  rw [hkept.keys_eq] at hobject
  obtain ⟨r, hr, -, htable⟩ := ObjectFile.opens hobject hsmall hnul
  exact ⟨r, _, objects, hr, hinf, hcalls, hsmall, hcount, hstarts, htable, hfilled⟩

variable {r : Reader} {sigils : List UInt8} {objects : List Bytes}
  (h : Imported schema skip policy rows calls r sigils objects) {i : ℕ} {fields : List (String × String)}
  {cs : List Call} {key : String}

include h

/-- The writes of a record. -/
theorem record_calls (hi : rows[i]? = some fields) : ∃ cs, calls[i]? = some cs ∧ schema.recordCalls skip fields = .ok cs := by
  have hall := mapM_eq_ok.mp h.written
  obtain ⟨hlt, rfl⟩ := List.getElem?_eq_some_iff.mp hi
  have hlt' : i < calls.length := by rwa [← hall.length_eq]
  exact ⟨_, List.getElem?_eq_getElem hlt', hall.get hlt hlt'⟩

theorem start (hi : calls[i]? = some cs) : callStart schema.names.length calls i < 2 ^ 32 := by
  have hlen : rows.length = calls.length := (mapM_eq_ok.mp h.written).length_eq
  exact h.starts i (hlen ▸ (List.getElem?_eq_some_iff.mp hi).1)

/-- A key of the schema has a slot, and a sigil that its texts resolve to. -/
theorem key_at (hkey : key ∈ schema.names) : ∃ (slot : ℕ) (k : InferredKey), schema.keys[slot]? = some k ∧ k.name = key ∧
    schema.names[slot]? = some key ∧ slot < 65536 ∧ (columnState rows.flatten key).resolveSigil policy = .ok k.sigil := by
  obtain ⟨slot, hslot, hget⟩ := List.getElem_of_mem hkey
  have hlt : slot < schema.keys.length := by rwa [InferredSchema.names, List.length_map] at hslot
  have hk := List.getElem?_eq_getElem hlt
  have hname : schema.keys[slot].name = key := by
    rw [← hget]
    simp only [InferredSchema.names, List.getElem_map]
  refine ⟨slot, _, hk, hname, ?_, hslot.trans h.small, ?_⟩
  · rw [List.getElem?_eq_getElem hslot, hget]
  · rw [← hname]
    exact h.inferred.sigil slot _ hk

/-- A write is to the slot of its key. -/
theorem slot_lt {slot : ℕ} {k : InferredKey} (hk : schema.keys[slot]? = some k) : slot < 65536 := by
  have hsmall := h.small
  rw [InferredSchema.names, List.length_map] at hsmall
  exact (List.getElem?_eq_some_iff.mp hk).1.trans hsmall

end Imported

end Nyxis
