import Nyxis.Compiled
import Nyxis.RowGetters

/-!
# CompiledRoot — the top-level fields of a compiled file

The getters of the root record read a top-level field at the rank of its slot (`Root.resolve`).

* `reads_source`: scalars are read back when their slots are in the order of the source, up to nulls.
* `nulls_read_iff`: a top-level null is never read as a null.
-/

namespace Nyxis

open Lib Lib.Outcome

/-- The cell that a scalar is read back as. -/
def Value.cell : Value → Option Cell
  | .int n => some (.i64 n)
  | .float f => some (.f64 f)
  | .bool b => some (.bool b)
  | .time ns => some (.time ns)
  | .str s => some (.str s)
  | _ => none

namespace Compiler

/-! ## The size of an object -/

theorem fieldKeys_length_le : ∀ {fields : List Field} {values : List Bytes},
    List.Forall₂ (fun f b => 2 * (valueKeys f.value).length ≤ b.length) fields values →
      2 * (fieldKeys fields).length ≤ values.length * 2 + values.flatten.length
  | [], _, .nil => by simp [fieldKeys]
  | .mk key value :: fields, b :: values, .cons hb h => by
    have ih := fieldKeys_length_le h
    rw [fieldKeys, List.length_cons, List.length_append, List.length_cons, List.flatten_cons,
      List.length_append]
    dsimp only [Field.value] at hb
    omega

theorem elemKeys_length_le : ∀ {elems : List Value} {bufs : List Bytes},
    List.Forall₂ (fun v b => 2 * (valueKeys v).length ≤ b.length) elems bufs →
      2 * (elemKeys elems).length ≤ bufs.flatten.length
  | [], _, .nil => by simp [elemKeys]
  | v :: elems, b :: bufs, .cons hb h => by
    have ih := elemKeys_length_le h
    rw [elemKeys, List.length_append, List.flatten_cons, List.length_append]
    omega

/-- The keys of a value that is not a macro are those of what it resolves to. -/
theorem valueKeys_resolve {scope : List Field} {v w : Value} (h : resolveMacro scope v = .ok w) :
    (valueKeys v).length ≤ (valueKeys w).length := by
  cases v with
  | expr s => exact Nat.zero_le _
  | _ =>
    cases h
    exact Nat.le_refl _

theorem encodedFields_length_le {encode : Value → Res Bytes}
    (hencode : ∀ v b, encode v = .ok b → 2 * (valueKeys v).length ≤ b.length) {dict : List String}
    {fields : List Field} {sigils : List UInt8} {bytes : Bytes}
    (h : encodeObject encode dict fields = .ok (sigils, bytes)) :
    2 * (fieldKeys fields).length ≤ bytes.length := by
  obtain ⟨resolved, values, -, henc, rfl⟩ := encodeObject_parts h
  have hkeys := fieldKeys_length_le (List.Forall₂.imp (fun f b hfb => by
    obtain ⟨v, hv, hb⟩ := hfb
    have h1 := valueKeys_resolve hv
    have h2 := hencode v b hb
    omega) henc)
  simp only [objectOf, List.length_append, length_flatMap_const fun m _ => leBytes_length 2 m,
    List.length_map, List.length_range]
  omega

/-- An encoded value has at least two bytes, an entry of an offset table, for each key in it. -/
theorem valueKeys_length_le : ∀ (stack : ℕ) (v : Value) (b : Bytes), encodeValue stack v = .ok b →
    2 * (valueKeys v).length ≤ b.length
  | 0, _, _, h => by cases h
  | stack + 1, v, b, h => by
    cases v with
    | object fields =>
      obtain ⟨⟨sigils, bytes⟩, hobj, rfl⟩ := map_eq_ok.mp h
      exact encodedFields_length_le (valueKeys_length_le stack) hobj
    | list elems =>
      cases elems with
      | nil => exact Nat.zero_le _
      | cons v elems =>
        obtain ⟨bufs, hbufs, h⟩ := bind_eq_ok.mp h
        cases h
        have hkeys := elemKeys_length_le (List.Forall₂.imp (fun v b hvb => by
          obtain ⟨_, -, hb⟩ := bind_eq_ok.mp hvb
          exact valueKeys_length_le stack v b hb) (mapM_eq_ok.mp hbufs))
        rw [valueKeys]
        simp only [List.length_append]
        omega
    | _ => exact Nat.zero_le _

/-- A root object of at most 65535 bytes has fewer than 65536 keys in it. -/
theorem fieldKeys_length_lt {stack : ℕ} {fields : List Field} {sigils : List UInt8} {root : Bytes}
    (h : encodeRoot stack fields = .ok (sigils, root)) (hsize : root.length ≤ 65535) :
    (fieldKeys fields).dedup.length < 65536 := by
  have hle := encodedFields_length_le (valueKeys_length_le stack) h
  have hsub := (List.dedup_sublist (fieldKeys fields)).length_le
  omega

/-! ## The getters of the record -/

/-- An encoded scalar is seen where it stands. -/
theorem cellAt_encoded {r : Reader} {stack p : ℕ} {v : Value} {b : Bytes} {c : Cell} (hat : At r.data p b)
    (hb : encodeValue stack v = .ok b) (hc : v.cell = some c)
    (hshort : ∀ s, v = .str s → (utf8 s).length < 2 ^ 32) (hd : r.data.length < 2 ^ 63) : CellAt r p c := by
  cases stack with
  | zero => cases hb
  | succ stack =>
    cases v with
    | int n | time n =>
      cases hc
      cases hb
      rw [CellAt, getLE_at hat (i64Bytes_length n) hd, leNat_i64Bytes, map_ok, i64Of_toNat]
    | float f =>
      cases hc
      cases hb
      rw [CellAt, getLE_at hat (f64Bytes_length f) hd, leNat_f64Bytes, map_ok, f64Of_toNat]
    | bool v =>
      cases hc
      cases hb
      rw [CellAt, get_at hat, ok_bind]
      cases v <;> rfl
    | str s =>
      cases hc
      cases hb
      rw [padTo, at_append, at_append, leBytes_length] at hat
      obtain ⟨⟨hlen, htext⟩, -⟩ := hat
      rw [CellAt, getLE_leBytes hlen (hshort s rfl) hd, ok_bind]
      exact inlineStr_at htext hd
    | _ => cases hc

theorem Single.rowCell {r : Reader} {d : Bytes} {keys : List String} {start slot : ℕ} {key : String}
    (h : Single r d keys start) (hslot : r.slot key = .ok slot) : RowCell r 0 start slot key :=
  ⟨h.layout, h.ext, h.record, hslot⟩

/-! ## The root object -/

theorem str_length_le {stack : ℕ} {s : String} {b : Bytes} (h : encodeValue stack (.str s) = .ok b) :
    (utf8 s).length ≤ b.length := by
  cases stack with
  | zero => cases h
  | succ stack =>
    cases h
    rw [padTo_length, List.length_append]
    omega

theorem length_le_valueStart {n i : ℕ} {values : List Bytes} {b : Bytes} (hb : values[i]? = some b) :
    b.length ≤ valueStart n values values.length := by
  have hmem := List.mem_of_getElem? hb
  have hle := (List.sublist_flatten_of_mem hmem).length_le
  rw [valueStart, List.take_length]
  omega

/-- An opened file with its root object and the values in it. -/
structure Root (stack : ℕ) (fields : List Field) (file : Slice) (r : Reader) (start : ℕ)
    (values : List Bytes) : Prop where
  keys : (fields.map Field.key).Nodup
  single : Single r file.bytes (collectFields fields []) start
  encoded : Encoded (encodeValue stack) fields values
  sub : ∀ f ∈ fields, f.key ∈ collectFields fields []
  at_root : At file.bytes start
    (objectOf (collectFields fields []).length (fieldSlots (collectFields fields []) fields) values)
  root : ∀ sigils root, encodeRoot stack fields = .ok (sigils, root) →
    root.length = valueStart (collectFields fields []).length values values.length
  tail : At file.bytes (start + valueStart (collectFields fields []).length values values.length) (leBytes 4 1)

/-- How many top-level keys are first met before that of `f`. -/
def keyRank (fields : List Field) (f : Field) : ℕ :=
  fields.countP fun g => decide ((fieldKeys fields).idxOf g.key < (fieldKeys fields).idxOf f.key)

theorem exists_root {stack : ℕ} {fields : List Field} {file : Slice}
    (hkeys : (fields.map Field.key).Nodup) (hnul : ∀ k ∈ fieldKeys fields, NulFree k)
    (hlen : (fieldKeys fields).dedup.length < 65536) (hfile : compile stack fields = .ok file) :
    ∃ r start values, Reader.new file = .ok r ∧ Root stack fields file r start values := by
  obtain ⟨sigils, root, start, r, hroot, hat, htail, hnew, hsingle⟩ := compile_opens hfile hnul hlen
  obtain ⟨values, henc, rfl, hsub⟩ := encodeObject_eq_ok (collectFields_nodup fields) hroot
  have hlength : (objectOf (collectFields fields []).length (fieldSlots (collectFields fields []) fields) values).length = _ :=
    objectOf_length (fieldSlots_lt hsub)
  refine ⟨r, start, values, hnew, hkeys, hsingle, henc, hsub, hat, fun sigils' root' hroot' => ?_, hlength ▸ htail⟩
  rw [hroot] at hroot'
  cases hroot'
  exact hlength

/-- The slot of a key of the dictionary. -/
theorem slot_of_mem {r : Reader} {dict : List String} {k : String} (hkeys : r.keys = dict) (hnd : dict.Nodup) (hk : k ∈ dict) :
    r.slot k = .ok (dict.idxOf k) := by
  subst hkeys
  have hidx := List.getElem?_eq_getElem (List.idxOf_lt_length_of_mem hk)
  rw [List.getElem_idxOf] at hidx
  exact Reader.slot_of_nodup hnd hidx

section Root

variable {stack : ℕ} {fields : List Field} {file : Slice} {r : Reader} {start : ℕ} {values : List Bytes}
  (h : Root stack fields file r start values)

include h

theorem Root.slot {k : String} (hk : k ∈ fieldKeys fields) :
    r.slot k = .ok ((collectFields fields []).idxOf k) :=
  slot_of_mem h.single.keys (collectFields_nodup fields) (mem_collectFields.mpr hk)

/-- The getters of a field go to the value at the rank of its key. -/
theorem Root.resolve {f : Field} (hf : f ∈ fields)
    (hfits : valueStart (collectFields fields []).length values (keyRank fields f) < 65536) :
    resolveSlot file.bytes start ((collectFields fields []).idxOf f.key) =
      .ok (start + valueStart (collectFields fields []).length values (keyRank fields f)) := by
  have hrank : (fieldSlots (collectFields fields []) fields).countP
      (fun s => decide (s < (collectFields fields []).idxOf f.key)) = keyRank fields f := by
    rw [fieldSlots, List.countP_map, keyRank]
    refine List.countP_congr fun g hg => ?_
    rw [Function.comp_apply, decide_eq_true_iff, decide_eq_true_iff, collectFields_eq]
    have hseen := firstSeen_internKey (fieldKeys fields)
    rw [hseen.idxOf_lt_iff ((hseen.mem _).mpr (mem_fieldKeys hg)) ((hseen.mem _).mpr (mem_fieldKeys hf))]
  have hres := resolveSlot_objectOf (fieldSlots_lt h.sub) h.at_root file.small
    (fieldSlots_nodup h.sub h.keys) ((List.Forall₂.length_eq h.encoded).symm.trans (by simp [fieldSlots]))
    (List.mem_map_of_mem hf) (hrank ▸ hfits)
  rw [hrank] at hres
  exact hres

theorem Root.resolve_absent {k : String} (hnot : ∀ f ∈ fields, f.key ≠ k) :
    resolveSlot file.bytes start ((collectFields fields []).idxOf k) = none' := by
  refine resolveSlot_objectOf_absent (fieldSlots_lt h.sub) h.at_root file.small fun hmem => ?_
  obtain ⟨f, hf, hfk⟩ := List.mem_map.mp hmem
  exact hnot f hf ((List.idxOf_inj (h.sub f hf)).mp hfk)

theorem Root.cellAt {f : Field} {i : ℕ} {v : Value} {c : Cell} (hf : fields[i]? = some f)
    (hv : resolveMacro fields f.value = .ok v) (hc : v.cell = some c)
    (hsize : valueStart (collectFields fields []).length values values.length ≤ 65535) :
    CellAt r (start + valueStart (collectFields fields []).length values i) c := by
  obtain ⟨v', b, hv', hb, hi⟩ := h.encoded.value hf
  obtain rfl : v' = v := Outcome.ok.inj (hv'.symm.trans hv)
  have hat := at_value (fieldSlots_lt h.sub) h.at_root hi
  have hlen := length_le_valueStart (n := (collectFields fields []).length) hi
  rw [← h.single.data] at hat
  refine cellAt_encoded hat hb hc (fun s hs => ?_) (h.single.data ▸ file.small)
  have htext := str_length_le (hs ▸ hb)
  omega

end Root

/-! ## Scalars -/

/-- Between the place of a scalar field and the place its key ranks at, all fields are null. -/
def ScalarsRanked (fields : List Field) : Prop :=
  ∀ (i : ℕ) (f : Field) (v : Value) (c : Cell), fields[i]? = some f → resolveMacro fields f.value = .ok v →
    v.cell = some c → ∀ (j : ℕ) (g : Field), min i (keyRank fields f) ≤ j → j < max i (keyRank fields f) →
      fields[j]? = some g → resolveMacro fields g.value = .ok .null

/-- The file is accepted with one record, which gives back the scalars of the top level, and nothing for
the keys that are only in objects inside it. -/
def ReadsSource (fields : List Field) (file : Slice) : Prop :=
  ∃ r, Reader.new file = .ok r ∧ r.recordCount = 1 ∧
    (∀ f ∈ fields, ∀ v c, resolveMacro fields f.value = .ok v → v.cell = some c → r.Reads 0 f.key c) ∧
    ∀ k ∈ fieldKeys fields, (∀ f ∈ fields, f.key ≠ k) → r.Reads 0 k .absent

theorem valueStart_eq_of_nil {n i j : ℕ} {values : List Bytes} (hij : i ≤ j)
    (hnil : ∀ (m : ℕ) (b : Bytes), i ≤ m → m < j → values[m]? = some b → b = []) :
    valueStart n values j = valueStart n values i := by
  have hsplit : values.take j = values.take i ++ (values.drop i).take (j - i) := by
    rw [← List.take_add, Nat.add_sub_cancel' hij]
  have hflat : ((values.drop i).take (j - i)).flatten = [] := by
    rw [List.flatten_eq_nil_iff]
    intro b hb
    obtain ⟨m, hm, rfl⟩ := List.getElem_of_mem hb
    rw [List.length_take, List.length_drop] at hm
    refine hnil (i + m) _ (by omega) (by omega) ?_
    rw [List.getElem_take, List.getElem_drop]
    exact List.getElem?_eq_getElem _
  rw [valueStart, valueStart, hsplit, List.flatten_append, hflat, List.append_nil]

theorem keyRank_lt {fields : List Field} {f : Field} (hf : f ∈ fields) : keyRank fields f < fields.length := by
  refine Nat.lt_of_le_of_ne List.countP_le_length fun heq => ?_
  have hself := List.countP_eq_length.mp heq f hf
  simp at hself

/-- Where only nulls stand between them, a field is at the place its key ranks at. -/
theorem valueStart_keyRank {stack n i : ℕ} {fields : List Field} {values : List Bytes} {f : Field}
    (henc : Encoded (encodeValue stack) fields values) (hf : fields[i]? = some f)
    (hnull : ∀ (j : ℕ) (g : Field), min i (keyRank fields f) ≤ j → j < max i (keyRank fields f) →
      fields[j]? = some g → resolveMacro fields g.value = .ok .null) :
    valueStart n values (keyRank fields f) = valueStart n values i := by
  have hnil : ∀ (m : ℕ) (e : Bytes), min i (keyRank fields f) ≤ m → m < max i (keyRank fields f) →
      values[m]? = some e → e = [] := by
    intro m e hmin hmax he
    have hlt := (List.getElem?_eq_some_iff.mp hf).1
    have hrank := keyRank_lt (List.mem_of_getElem? hf)
    obtain ⟨w, e', hw, he', hm⟩ := henc.value (List.getElem?_eq_getElem (show m < fields.length by omega))
    rw [hnull m _ hmin hmax (List.getElem?_eq_getElem _)] at hw
    cases hw
    obtain rfl : e' = e := Option.some.inj (hm.symm.trans he)
    cases stack with
    | zero => cases he'
    | succ stack =>
      cases he'
      rfl
  rcases Nat.le_total i (keyRank fields f) with hle | hle
  · rw [Nat.min_eq_left hle, Nat.max_eq_right hle] at hnil
    exact valueStart_eq_of_nil hle hnil
  · rw [Nat.min_eq_right hle, Nat.max_eq_left hle] at hnil
    exact (valueStart_eq_of_nil hle hnil).symm

/-- A compiled file gives back its scalars when they stand where their keys rank. -/
theorem reads_source (stack : ℕ) (fields : List Field) (sigils : List UInt8) (root : Bytes) (file : Slice)
    (hkeys : (fields.map Field.key).Nodup) (hnul : ∀ k ∈ fieldKeys fields, NulFree k)
    (hroot : encodeRoot stack fields = .ok (sigils, root)) (hsize : root.length ≤ 65535)
    (hfile : compile stack fields = .ok file) (hranked : ScalarsRanked fields) :
    ReadsSource fields file := by
  obtain ⟨r, start, values, hnew, h⟩ := exists_root hkeys hnul (fieldKeys_length_lt hroot hsize) hfile
  rw [h.root sigils root hroot] at hsize
  refine ⟨r, hnew, h.single.count, fun f hf v c hv hc => ?_, fun k hk hnot => ?_⟩
  · obtain ⟨i, hi⟩ := List.getElem?_of_mem hf
    have hplace := valueStart_keyRank (n := (collectFields fields []).length) h.encoded hi (hranked i f v c hi hv hc)
    have hle := valueStart_le (collectFields fields []).length values (keyRank fields f)
    have hres := h.resolve hf (by omega)
    rw [hplace] at hres
    exact (h.single.rowCell (h.slot (mem_fieldKeys hf))).reads_cell (by rw [h.single.data]; exact hres) (h.cellAt hi hv hc hsize)
  · exact (h.single.rowCell (h.slot hk)).reads_absent (by rw [h.single.data]; exact h.resolve_absent hnot)

/-- `x { b: =1 } a: =2 b: =3`: the second key of the text is the last one of the root. -/
def repeatedKey : List Field := [.mk "x" (.object [.mk "b" (.int 1)]), .mk "a" (.int 2), .mk "b" (.int 3)]

/-- An integer, a null, the macro ` 3 + 4 `, and an object with a key of the root. -/
def nullFields : List Field :=
  [.mk "a" (.int 1), .mk "n" .null, .mk "s" (.expr " 3 + 4 "), .mk "x" (.object [.mk "a" (.int 5)])]

/-- An object in front repeats a key: the root reads the wrong entry. -/
theorem reads_source_not_repeated_key :
    ∃ fields sigils root file, (fields.map Field.key).Nodup ∧ (∀ k ∈ fieldKeys fields, NulFree k) ∧
      encodeRoot 3 fields = .ok (sigils, root) ∧ root.length ≤ 65535 ∧ compile 3 fields = .ok file ∧
      ¬ ReadsSource fields file := by
  have hread : (compile 3 repeatedKey >>= fun file => Reader.new file >>= fun r => .ok (r.i64At 0 "b")) =
      .ok (.ok 2) := by decide +kernel
  have hsmall : (encodeRoot 3 repeatedKey >>= fun e => ensure (e.2.length ≤ 65535) .overflow) = .ok () := by
    decide +kernel
  obtain ⟨file, hfile, hread⟩ := bind_eq_ok.mp hread
  obtain ⟨⟨sigils, root⟩, hroot, hsize⟩ := bind_eq_ok.mp hsmall
  refine ⟨repeatedKey, sigils, root, file, by decide, by decide +kernel, hroot, ensure_eq_ok.mp hsize, hfile, ?_⟩
  rintro ⟨r, hr, -, hcells, -⟩
  rw [hr, ok_bind] at hread
  have hb : r.i64At 0 "b" = .ok 3 := hcells (.mk "b" (.int 3)) (.tail _ (.tail _ (.head _))) _ _ rfl rfl
  rw [hb] at hread
  exact absurd (Outcome.ok.inj (Outcome.ok.inj hread)) (by decide)

/-- Nulls before scalars, and an object that repeats a key which the root has met. -/
theorem reads_source_nulls : ∃ file, compile 3 nullFields = .ok file ∧ ReadsSource nullFields file := by
  have hsmall : (encodeRoot 3 nullFields >>= fun e => ensure (e.2.length ≤ 65535) .overflow) = .ok () := by
    decide +kernel
  obtain ⟨⟨sigils, root⟩, hroot, hsize⟩ := bind_eq_ok.mp hsmall
  obtain ⟨file, hfile⟩ := isOk_iff.mp (show (compile 3 nullFields).isOk = true by decide +kernel)
  have hranked : ScalarsRanked nullFields := by
    intro i f v c hi hv hc j g hmin hmax hg
    have hall : ∀ i < 4, keyRank nullFields (nullFields.getD i (.mk "" .null)) = i := by decide +kernel
    have hlt := (List.getElem?_eq_some_iff.mp hi).1
    have hrank := hall i hlt
    rw [List.getD_eq_getElem?_getD, hi, Option.getD_some] at hrank
    omega
  exact ⟨file, hfile, reads_source 3 nullFields sigils root file (by decide) (by decide +kernel) hroot
    (ensure_eq_ok.mp hsize) hfile hranked⟩

/-! ## Nulls -/

/-- Both readers report a null for every null of the top level: the decoder as a value, the getters of the
record as nothing. -/
def NullsRead (fields : List Field) (file : Slice) : Prop :=
  ∀ f ∈ fields, resolveMacro fields f.value = .ok .null →
    (∃ dec, decode file = .ok dec ∧ (f.key, DecodedValue.null) ∈ dec.rootFields) ∧
      ∃ r, Reader.new file = .ok r ∧ r.Reads 0 f.key .absent

/-- No null of the top level is read as a null: `get_bool` takes the byte its offset leads to. -/
theorem nulls_read_iff (stack : ℕ) (fields : List Field) (sigils : List UInt8) (root : Bytes) (file : Slice)
    (hkeys : (fields.map Field.key).Nodup) (hnul : ∀ k ∈ fieldKeys fields, NulFree k)
    (hroot : encodeRoot stack fields = .ok (sigils, root)) (hsize : root.length ≤ 65535)
    (hfile : compile stack fields = .ok file) :
    NullsRead fields file ↔ ∀ f ∈ fields, resolveMacro fields f.value ≠ .ok .null := by
  obtain ⟨r, start, values, hnew, h⟩ := exists_root hkeys hnul (fieldKeys_length_lt hroot hsize) hfile
  rw [h.root sigils root hroot] at hsize
  constructor
  · intro hread f hf hnull
    obtain ⟨-, r', hr', -, -, hbool, -⟩ := hread f hf hnull
    obtain rfl : r = r' := Outcome.ok.inj (hnew.symm.trans hr')
    have hle := valueStart_le (collectFields fields []).length values (keyRank fields f)
    have hin : start + valueStart (collectFields fields []).length values (keyRank fields f) <
        file.bytes.length := by
      have hend := h.tail.le
      rw [leBytes_length] at hend
      omega
    rw [(h.single.rowCell (h.slot (mem_fieldKeys hf))).boolAt, h.single.data, h.resolve hf (by omega), ok_bind, Lib.get,
      List.getElem?_eq_getElem hin] at hbool
    cases hbool
  · intro hnone f hf hnull
    exact absurd hnull (hnone f hf)

/-- A null ahead of an integer. -/
theorem nulls_read_not_null : ∃ fields sigils root file, (fields.map Field.key).Nodup ∧
    (∀ k ∈ fieldKeys fields, NulFree k) ∧ encodeRoot 3 fields = .ok (sigils, root) ∧ root.length ≤ 65535 ∧
      compile 3 fields = .ok file ∧ ¬ NullsRead fields file := by
  have hread : (compile 3 nullFields >>= fun file => Reader.new file >>= fun r => .ok (r.i64At 0 "n")) =
      .ok (.ok 7) := by decide +kernel
  have hsmall : (encodeRoot 3 nullFields >>= fun e => ensure (e.2.length ≤ 65535) .overflow) = .ok () := by
    decide +kernel
  obtain ⟨file, hfile, hread⟩ := bind_eq_ok.mp hread
  obtain ⟨⟨sigils, root⟩, hroot, hsize⟩ := bind_eq_ok.mp hsmall
  refine ⟨nullFields, sigils, root, file, by decide, by decide +kernel, hroot, ensure_eq_ok.mp hsize, hfile, ?_⟩
  intro hnulls
  obtain ⟨-, r, hr, hi64, -⟩ := hnulls (.mk "n" .null) (.tail _ (.head _)) rfl
  have hn : r.i64At 0 "n" = none' := hi64
  rw [hr, ok_bind, hn] at hread
  cases hread

/-- Without nulls there is nothing to read as one. -/
theorem nulls_read_without_nulls : ∃ file, compile 3 repeatedKey = .ok file ∧ NullsRead repeatedKey file := by
  have hsmall : (encodeRoot 3 repeatedKey >>= fun e => ensure (e.2.length ≤ 65535) .overflow) = .ok () := by
    decide +kernel
  obtain ⟨⟨sigils, root⟩, hroot, hsize⟩ := bind_eq_ok.mp hsmall
  obtain ⟨file, hfile⟩ := isOk_iff.mp (show (compile 3 repeatedKey).isOk = true by decide +kernel)
  refine ⟨file, hfile, (nulls_read_iff 3 repeatedKey sigils root file (by decide) (by decide +kernel) hroot
    (ensure_eq_ok.mp hsize) hfile).mpr fun f hf => ?_⟩
  simp only [repeatedKey, List.mem_cons, List.not_mem_nil, or_false] at hf
  rcases hf with rfl | rfl | rfl <;> exact fun h => nomatch h

end Compiler

end Nyxis
