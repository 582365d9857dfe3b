import Mathlib.Data.List.Dedup
import Mathlib.Data.List.Induction
import Nyxis.Compiler
import Nyxis.Lib.FirstSeen
import Nyxis.ReaderOpen
import Nyxis.SlotLookup
import Nyxis.StoredTable

/-!
# Compiled — reading the files the compiler writes

The dictionary has every key once, in the order of the text (`collectFields_eq`, `firstSeen_internKey`).
An object holds its values in source order, and the entry of its offset table that a reader takes for a
slot is the one at the slot's rank (`resolveSlot_objectOf`): it is the slot's own entry when as many slots
below it are present as fields stand before it.

* `compile_opens`: a compiled file is accepted, with one record, the root object.
-/

namespace Nyxis.Compiler

open Lib Lib.Outcome

/-! ## The dictionary -/

mutual

/-- All keys, in the order of the text. -/
def fieldKeys : List Field → List String
  | [] => []
  | .mk key value :: fields => key :: (valueKeys value ++ fieldKeys fields)

def valueKeys : Value → List String
  | .object fields => fieldKeys fields
  | .list elems => elemKeys elems
  | _ => []

def elemKeys : List Value → List String
  | [] => []
  | v :: elems => valueKeys v ++ elemKeys elems

end

mutual

theorem collectFields_eq : ∀ (fields : List Field) (dict : List String),
    collectFields fields dict = (fieldKeys fields).foldl internKey dict
  | [], _ => rfl
  | .mk key value :: fields, dict => by
    rw [collectFields, fieldKeys, List.foldl_cons, List.foldl_append, collectValue_eq, collectFields_eq]

theorem collectValue_eq : ∀ (v : Value) (dict : List String),
    collectValue v dict = (valueKeys v).foldl internKey dict
  | .object fields, dict => collectFields_eq fields dict
  | .list elems, dict => collectElems_eq elems dict
  | .int _, _ | .float _, _ | .bool _, _ | .keyword _, _ | .str _, _ | .time _, _ | .binary _, _
  | .link _, _ | .expr _, _ | .null, _ => rfl

theorem collectElems_eq : ∀ (elems : List Value) (dict : List String),
    collectElems elems dict = (elemKeys elems).foldl internKey dict
  | [], _ => rfl
  | v :: elems, dict => by
    rw [collectElems, elemKeys, List.foldl_append, collectValue_eq, collectElems_eq]

end

/-- Keys are in the dictionary in the order in which they are first met. -/
theorem firstSeen_internKey (l : List String) : FirstSeen (l.foldl internKey []) l := by
  induction l using List.reverseRecOn with
  | nil => exact FirstSeen.nil
  | append_singleton l x ih =>
    rw [List.foldl_append, List.foldl_cons, List.foldl_nil]
    exact ih.concat x

/-- The number of keys. -/
theorem foldl_internKey_length (l : List String) : (l.foldl internKey []).length = l.dedup.length := by
  refine List.Perm.length_eq ((List.perm_ext_iff_of_nodup ((firstSeen_internKey _).nodup)
    (List.nodup_dedup l)).mpr fun k => ?_)
  rw [(firstSeen_internKey l).mem, List.mem_dedup]

theorem keySlot_of_nodup {dict : List String} {i : ℕ} {key : String} (hnd : dict.Nodup)
    (hk : dict[i]? = some key) : keySlot dict key = some i := by
  obtain ⟨hmem, hidx⟩ := lastIdx_of_nodup hnd hk
  rw [keySlot, if_pos hmem, hidx]

/-! ## The layout of an object -/

section Layout

variable {n : ℕ} {slots : List ℕ} {values : List Bytes}

/-- The mask loop writes the bytes of a mask, from byte `i` on. -/
theorem bitmaskBytes_eq (present : ℕ → Bool) {n : ℕ} : ∀ m i fuel, i + m = (n + 6) / 7 → 0 < m →
    m ≤ fuel → bitmaskBytes present n fuel (7 * i) =
      (maskBytes ((n + 6) / 7) fun j => decide (j < n) && present j).drop i
  | 0, _, _, _, hm, _ => absurd hm (Nat.lt_irrefl 0)
  | m + 1, i, 0, _, _, hfuel => absurd hfuel (by omega)
  | m + 1, i, fuel + 1, hi, _, hfuel => by
    have hlt : i < (maskBytes ((n + 6) / 7) fun j => decide (j < n) && present j).length := by
      rw [maskBytes_length]
      omega
    have hget := maskBytes_getElem? (fun j => decide (j < n) && present j) (show i < (n + 6) / 7 by omega)
    rw [List.getElem?_eq_getElem hlt, Option.some.injEq] at hget
    have hbits : byteOfBits (fun bit =>
        if bit = 7 then decide (7 * i + 7 < n) else decide (7 * i + bit < n) && present (7 * i + bit)) =
        byteOfBits fun bit =>
          if bit = 7 then decide (i + 1 < (n + 6) / 7) else decide (7 * i + bit < n) && present (7 * i + bit) := by
      refine byteOfBits_congr fun bit _ => ?_
      by_cases h7 : bit = 7
      · rw [if_pos h7, if_pos h7, decide_eq_decide]
        omega
      · rw [if_neg h7, if_neg h7]
    rw [List.drop_eq_getElem_cons hlt, hget, bitmaskBytes, hbits]
    congr 1
    by_cases hmore : 7 * i + 7 < n
    · rw [if_pos hmore]
      exact bitmaskBytes_eq present m (i + 1) fuel (by omega) (by omega) (by omega)
    · rw [if_neg hmore, List.drop_of_length_le]
      rw [maskBytes_length]
      omega

theorem buildBitmask_eq (h : ∀ s ∈ slots, s < n) :
    buildBitmask slots n = maskBytes (bitmaskLen n) fun i => slots.any (· == i) := by
  unfold buildBitmask
  split
  · rename_i hn
    subst hn
    obtain rfl : slots = [] := List.eq_nil_iff_forall_not_mem.mpr fun s hs => absurd (h s hs) (Nat.not_lt_zero s)
    rfl
  · rename_i hn
    have hlen : bitmaskLen n = (n + 6) / 7 := by
      rw [bitmaskLen]
      omega
    have hfun : (fun i => slots.any (· == i)) = fun i => decide (i < n) && slots.any (· == i) := by
      funext i
      rw [Bool.eq_iff_iff, Bool.and_eq_true, decide_eq_true_iff]
      refine ⟨fun hi => ⟨?_, hi⟩, And.right⟩
      obtain ⟨s, hs, hsi⟩ := List.any_eq_true.mp hi
      exact beq_iff_eq.mp hsi ▸ h s hs
    have hmain := bitmaskBytes_eq (fun i => slots.any (· == i)) (n := n) ((n + 6) / 7) 0 (n + 1) (by omega)
      (by omega) (by omega)
    rw [Nat.mul_zero, List.drop_zero] at hmain
    rw [hlen, hmain]
    exact congrArg _ hfun.symm

theorem buildBitmask_length (h : ∀ s ∈ slots, s < n) : (buildBitmask slots n).length = bitmaskLen n := by
  rw [buildBitmask_eq h, maskBytes_length]

theorem valueStart_le (n : ℕ) (values : List Bytes) (i : ℕ) :
    valueStart n values i ≤ valueStart n values values.length := by
  have h := congrArg List.flatten (List.take_append_drop i values)
  rw [List.flatten_append] at h
  have hlen := congrArg List.length h
  rw [List.length_append] at hlen
  unfold valueStart
  rw [List.take_length]
  omega

theorem objectOf_length (h : ∀ s ∈ slots, s < n) :
    (objectOf n slots values).length = valueStart n values values.length := by
  simp only [objectOf, List.length_append, leBytes_length, buildBitmask_length h,
    length_flatMap_const fun m _ => leBytes_length 2 m, List.length_map, List.length_range, zeros_length,
    valueStart, dataStart, headerLen, List.take_length]

variable {d : Bytes} {off : ℕ}

/-- The parts of an object. -/
theorem at_objectOf (h : ∀ s ∈ slots, s < n) (hat : At d off (objectOf n slots values)) :
    At d off (leBytes 4 MAGIC_OBJ) ∧ At d (off + 8) (maskBytes (bitmaskLen n) fun i => slots.any (· == i)) ∧
      (∀ i < values.length,
        At d (off + 8 + bitmaskLen n + i * 2) (leBytes 2 (valueStart n values i % 65536))) ∧
      At d (off + dataStart n values.length) values.flatten := by
  rw [objectOf] at hat
  simp only [at_append, List.length_append, leBytes_length, buildBitmask_length h,
    length_flatMap_const fun m _ => leBytes_length 2 m, List.length_map, List.length_range,
    zeros_length] at hat
  obtain ⟨⟨⟨⟨⟨hmagic, -⟩, hmask⟩, htable⟩, -⟩, hvalues⟩ := hat
  rw [buildBitmask_eq h] at hmask
  refine ⟨hmagic, hmask, fun i hi => ?_, ?_⟩
  · have hentry : ((List.range values.length).map fun i => valueStart n values i % 65536)[i]? =
        some (valueStart n values i % 65536) := by
      simp [hi]
    rw [Nat.add_assoc off]
    exact htable.trans (at_flatMap_const (fun m _ => leBytes_length 2 m) hentry)
  · exact hvalues

/-- A value, at its place. -/
theorem at_value (h : ∀ s ∈ slots, s < n) (hat : At d off (objectOf n slots values)) {i : ℕ} {b : Bytes}
    (hb : values[i]? = some b) : At d (off + valueStart n values i) b := by
  obtain ⟨-, -, -, hvalues⟩ := at_objectOf h hat
  have hflat : At values.flatten (values.take i).flatten.length b := by
    have hmap := at_flatMap (f := id) hb
    rwa [List.flatMap_id, List.flatMap_id] at hmap
  rw [valueStart, ← Nat.add_assoc]
  exact hvalues.trans hflat

/-- A reader goes to the value at the rank of the slot. -/
theorem resolveSlot_objectOf (h : ∀ s ∈ slots, s < n) (hat : At d off (objectOf n slots values))
    (hd : d.length < 2 ^ 63) (hnd : slots.Nodup) (hlen : values.length = slots.length) {s : ℕ}
    (hs : s ∈ slots) (hfits : valueStart n values (slots.countP (· < s)) < 65536) :
    resolveSlot d off s = .ok (off + valueStart n values (slots.countP (· < s))) := by
  obtain ⟨-, hmask, htable, -⟩ := at_objectOf h hat
  have hrank : slots.countP (· < s) < values.length := by
    rw [hlen]
    refine Nat.lt_of_le_of_ne List.countP_le_length fun heq => ?_
    have hall := List.countP_eq_length.mp heq s hs
    simp at hall
  have hslot : s < 7 * bitmaskLen n := by
    have := h s hs
    rw [bitmaskLen]
    omega
  have hentry := htable _ hrank
  rw [Nat.mod_eq_of_lt hfits, ← slotRank_any hnd] at hentry
  rw [← slotRank_any hnd] at hfits ⊢
  exact resolveSlot_present hmask hd hslot (List.any_eq_true.mpr ⟨s, hs, beq_self_eq_true s⟩) hfits hentry

theorem resolveSlot_objectOf_absent (h : ∀ s ∈ slots, s < n) (hat : At d off (objectOf n slots values))
    (hd : d.length < 2 ^ 63) {s : ℕ} (hs : s ∉ slots) : resolveSlot d off s = none' := by
  obtain ⟨-, hmask, -, -⟩ := at_objectOf h hat
  refine resolveSlot_absent hmask hd (Nat.lt_of_lt_of_le Nat.zero_lt_one (le_max_right _ _)) fun _ => ?_
  rw [Bool.eq_false_iff]
  intro hany
  obtain ⟨t, ht, hts⟩ := List.any_eq_true.mp hany
  exact hs (beq_iff_eq.mp hts ▸ ht)

end Layout

/-! ## What is encoded -/

/-- The slots of the fields of an object. -/
def fieldSlots (dict : List String) (fields : List Field) : List ℕ := fields.map fun f => dict.idxOf f.key

/-- The values of an object are those of its fields. -/
def Encoded (encode : Value → Res Bytes) (fields : List Field) (values : List Bytes) : Prop :=
  List.Forall₂ (fun f b => ∃ v, resolveMacro fields f.value = .ok v ∧ encode v = .ok b) fields values

theorem Encoded.value {encode : Value → Res Bytes} {fields : List Field} {values : List Bytes}
    (h : Encoded encode fields values) {i : ℕ} {f : Field} (hf : fields[i]? = some f) :
    ∃ v b, resolveMacro fields f.value = .ok v ∧ encode v = .ok b ∧ values[i]? = some b := by
  obtain ⟨hi, rfl⟩ := List.getElem?_eq_some_iff.mp hf
  have hlen := List.Forall₂.length_eq h
  obtain ⟨v, hv, hb⟩ := List.Forall₂.get h hi (hlen ▸ hi)
  exact ⟨v, _, hv, hb, List.getElem?_eq_getElem (hlen ▸ hi)⟩

/-- An encoded object has the slots that its fields resolve to. -/
theorem encodeObject_parts {encode : Value → Res Bytes} {dict : List String} {fields : List Field}
    {sigils : List UInt8} {bytes : Bytes} (h : encodeObject encode dict fields = .ok (sigils, bytes)) :
    ∃ resolved values, List.Forall₂ (fun f e => resolveField dict fields f = .ok e) fields resolved ∧
      Encoded encode fields values ∧ bytes = objectOf dict.length (resolved.map Prod.fst) values := by
  obtain ⟨resolved, hresolved, h⟩ := bind_eq_ok.mp h
  obtain ⟨values, hvalues, h⟩ := bind_eq_ok.mp h
  cases h
  have hfields := mapM_eq_ok.mp hresolved
  have hencode := mapM_eq_ok.mp hvalues
  have hl1 := hfields.length_eq
  have hl2 := hencode.length_eq
  refine ⟨resolved, values, hfields, List.forall₂_iff_get.mpr ⟨by omega, fun i h1 h2 => ?_⟩, rfl⟩
  have hres := hfields.get h1 (hl1 ▸ h1)
  obtain ⟨slot, -, hres⟩ := bind_eq_ok.mp hres
  obtain ⟨v, hv, hres⟩ := bind_eq_ok.mp hres
  have henc := hencode.get (hl1 ▸ h1) h2
  rw [← Outcome.ok.inj hres] at henc
  exact ⟨v, hv, henc⟩

section Slots

variable {dict : List String} {fields : List Field} (hsub : ∀ f ∈ fields, f.key ∈ dict)

include hsub in
theorem fieldSlots_lt : ∀ s ∈ fieldSlots dict fields, s < dict.length := by
  intro s hs
  obtain ⟨f, hf, rfl⟩ := List.mem_map.mp hs
  exact List.idxOf_lt_length_of_mem (hsub f hf)

include hsub in
theorem fieldSlots_nodup (hkeys : (fields.map Field.key).Nodup) : (fieldSlots dict fields).Nodup := by
  have hmap : fieldSlots dict fields = (fields.map Field.key).map dict.idxOf := by
    rw [List.map_map]
    rfl
  rw [hmap]
  refine List.Nodup.map_on (fun a ha b _ hab => ?_) hkeys
  obtain ⟨f, hf, rfl⟩ := List.mem_map.mp ha
  exact (List.idxOf_inj (hsub f hf)).mp hab

/-- A field resolves to the index of its key. -/
theorem resolveField_slot (hnd : dict.Nodup) {f : Field} {e : ℕ × Value}
    (h : resolveField dict fields f = .ok e) : f.key ∈ dict ∧ e.1 = dict.idxOf f.key := by
  obtain ⟨slot, hslot, h⟩ := bind_eq_ok.mp h
  obtain ⟨v, -, h⟩ := bind_eq_ok.mp h
  cases h
  by_cases hmem : f.key ∈ dict
  · have hidx := List.getElem?_eq_getElem (List.idxOf_lt_length_of_mem hmem)
    rw [List.getElem_idxOf] at hidx
    rw [keySlot_of_nodup hnd hidx, ofOption_some, okOr_ok] at hslot
    cases hslot
    exact ⟨hmem, rfl⟩
  · rw [keySlot, if_neg hmem] at hslot
    cases hslot

/-- The slot of a field is one of the dictionary's, whether or not its keys are distinct. -/
theorem resolveField_lt {f : Field} {e : ℕ × Value} (h : resolveField dict fields f = .ok e) : e.1 < dict.length := by
  obtain ⟨slot, hslot, h⟩ := bind_eq_ok.mp h
  obtain ⟨v, -, h⟩ := bind_eq_ok.mp h
  cases h
  dsimp only
  by_cases hmem : f.key ∈ dict
  · have hpos := List.length_pos_of_mem hmem
    rw [keySlot, if_pos hmem] at hslot
    cases hslot
    omega
  · rw [keySlot, if_neg hmem] at hslot
    cases hslot

/-- With distinct keys in the dictionary the slots are the indices of the keys. -/
theorem encodeObject_eq_ok {encode : Value → Res Bytes} (hnd : dict.Nodup) {sigils : List UInt8}
    {bytes : Bytes} (h : encodeObject encode dict fields = .ok (sigils, bytes)) :
    ∃ values, Encoded encode fields values ∧
      bytes = objectOf dict.length (fieldSlots dict fields) values ∧ ∀ f ∈ fields, f.key ∈ dict := by
  obtain ⟨resolved, values, hres, henc, rfl⟩ := encodeObject_parts h
  have hslots : resolved.map Prod.fst = fieldSlots dict fields := by
    refine List.ext_getElem (by simp [fieldSlots, hres.length_eq]) fun i h1 h2 => ?_
    rw [List.length_map] at h1
    simp only [fieldSlots, List.getElem_map]
    exact (resolveField_slot hnd (hres.get (hres.length_eq ▸ h1) h1)).2
  refine ⟨values, henc, by rw [hslots], fun f hf => ?_⟩
  obtain ⟨i, hi, rfl⟩ := List.getElem_of_mem hf
  exact (resolveField_slot hnd (hres.get hi (hres.length_eq ▸ hi))).1

end Slots

/-! ## The stack -/

theorem mapM_mono {α β : Type} {f g : α → Res β} (h : ∀ a b, f a = .ok b → g a = .ok b) {l : List α}
    {bs : List β} (hl : l.mapM f = .ok bs) : l.mapM g = .ok bs :=
  mapM_eq_ok.mpr (List.Forall₂.imp (fun a b => h a b) (mapM_eq_ok.mp hl))

/-- A deeper stack does not change what is encoded. -/
theorem encodeValue_succ : ∀ (stack : ℕ) (v : Value) (b : Bytes), encodeValue stack v = .ok b →
    encodeValue (stack + 1) v = .ok b
  | 0, _, _, h => by cases h
  | stack + 1, v, b, h => by
    have ih := encodeValue_succ stack
    cases v with
    | object fields =>
      obtain ⟨⟨sigils, bytes⟩, hobj, rfl⟩ := map_eq_ok.mp h
      obtain ⟨resolved, hresolved, hobj⟩ := bind_eq_ok.mp hobj
      obtain ⟨values, hvalues, hobj⟩ := bind_eq_ok.mp hobj
      have hdeep := mapM_mono (g := fun e : ℕ × Value => encodeValue (stack + 1) e.2)
        (fun e b he => ih e.2 b he) hvalues
      refine map_eq_ok.mpr ⟨(sigils, bytes), ?_, rfl⟩
      rw [encodeObject, hresolved, ok_bind, hdeep, ok_bind]
      exact hobj
    | list elems =>
      cases elems with
      | nil => exact h
      | cons v elems =>
        obtain ⟨bufs, hbufs, h⟩ := bind_eq_ok.mp h
        have hdeep := mapM_mono (g := encodeElem (encodeValue (stack + 1)) v.sigil) (fun w b hw => by
          obtain ⟨_, hsigil, hw⟩ := bind_eq_ok.mp hw
          rw [encodeElem, hsigil, ok_bind]
          exact ih w b hw) hbufs
        exact bind_eq_ok.mpr ⟨bufs, hdeep, h⟩
    | _ => exact h

theorem encodeValue_mono {stack stack' : ℕ} (hle : stack ≤ stack') {v : Value} {b : Bytes}
    (h : encodeValue stack v = .ok b) : encodeValue stack' v = .ok b := by
  induction hle with
  | refl => exact h
  | step _ ih => exact encodeValue_succ _ v b ih

/-- The values of an object do not depend on the stack. -/
theorem Encoded.unique {s t : ℕ} {fields : List Field} {values values' : List Bytes}
    (h : Encoded (encodeValue s) fields values) (h' : Encoded (encodeValue t) fields values') :
    values = values' := by
  have hlen := List.Forall₂.length_eq h
  have hlen' := List.Forall₂.length_eq h'
  refine List.ext_getElem (by omega) fun i h1 h2 => ?_
  obtain ⟨v, hv, hb⟩ := List.Forall₂.get h (by omega) h1
  obtain ⟨v', hv', hb'⟩ := List.Forall₂.get h' (by omega) h2
  obtain rfl : v = v' := Outcome.ok.inj (hv.symm.trans hv')
  have hmax := encodeValue_mono (Nat.le_max_left s t) hb
  rw [encodeValue_mono (Nat.le_max_right s t) hb'] at hmax
  exact (Outcome.ok.inj hmax).symm

theorem mem_fieldKeys : ∀ {fields : List Field} {f : Field}, f ∈ fields → f.key ∈ fieldKeys fields
  | .mk key value :: fields, f, hf => by
    rw [fieldKeys, List.mem_cons, List.mem_append]
    rcases List.mem_cons.mp hf with rfl | hf
    · exact Or.inl rfl
    · exact Or.inr (Or.inr (mem_fieldKeys hf))

/-! ## Opening -/

/-- The reader of a v1.2 row file with one record. -/
structure Single (r : Reader) (d : Bytes) (keys : List String) (start : ℕ) : Prop where
  data : r.data = d
  keys : r.keys = keys
  layout : r.layout = .row
  ext : r.extSchema = none
  count : r.recordCount = 1
  record : r.record 0 = .ok start

theorem collectFields_nodup (fields : List Field) : (collectFields fields []).Nodup := by
  rw [collectFields_eq]
  exact (firstSeen_internKey _).nodup

theorem mem_collectFields {fields : List Field} {k : String} :
    k ∈ collectFields fields [] ↔ k ∈ fieldKeys fields := by
  rw [collectFields_eq]
  exact (firstSeen_internKey _).mem k

theorem collectFields_length (fields : List Field) :
    (collectFields fields []).length = (fieldKeys fields).dedup.length := by
  rw [collectFields_eq, foldl_internKey_length]

/-- A compiled file is accepted, and its record is the root object. -/
theorem compile_opens {stack : ℕ} {fields : List Field} {file : Slice}
    (h : compile stack fields = .ok file) (hnul : ∀ k ∈ fieldKeys fields, NulFree k)
    (hlen : (fieldKeys fields).dedup.length < 65536) :
    ∃ sigils root start r, encodeRoot stack fields = .ok (sigils, root) ∧ At file.bytes start root ∧
      At file.bytes (start + root.length) (leBytes 4 1) ∧ Reader.new file = .ok r ∧
      Single r file.bytes (collectFields fields []) start := by
  obtain ⟨⟨sigils, root⟩, hroot, h⟩ := bind_eq_ok.mp h
  dsimp only at h
  have hbytes := Slice.ofBytes_eq_ok.mp h
  have hsmall := file.small
  have hseal : file.bytes = preamble VERSION FLAG_SCHEMA_EMBEDDED
      (murmur3_64 (buildSchema (collectFields fields []) sigils)) 0 ++
      (buildSchema (collectFields fields []) sigils ++ (root ++ (leBytes 4 1 ++ leBytes 2 0 ++
        leBytes 8 (32 + (buildSchema (collectFields fields []) sigils).length) ++
        leBytes 8 (32 + (buildSchema (collectFields fields []) sigils).length + root.length)))) ++
      leBytes 4 MAGIC_FOOTER := by
    rw [hbytes, encodeTailIndex]
    simp only [List.append_assoc]
  generalize hschema : buildSchema (collectFields fields []) sigils = schema at hseal
  have hlength : file.bytes.length = 32 + schema.length + root.length + 26 := by
    rw [hseal]
    simp only [List.length_append, leBytes_length, preamble_length]
    omega
  have hat := at_self file.bytes
  conv at hat => arg 3; rw [hseal]
  simp only [at_append, preamble_length, leBytes_length, List.length_append, Nat.zero_add] at hat
  obtain ⟨⟨-, -, hrootAt, ⟨⟨hone, hkey⟩, hoff⟩, hptr⟩, -⟩ := hat
  have hnew := Reader.new_basic (hschema ▸ hseal) (by decide) (by decide) rfl rfl rfl
    (collectFields_length fields ▸ hlen) (fun k hk => hnul k (mem_collectFields.mp hk))
  have hend : 32 + schema.length + root.length + (4 + 2 + 8) = file.bytes.length - 12 := by omega
  rw [hend] at hptr
  rw [Reader.openTail] at hnew
  dsimp only at hnew
  rw [if_neg (by decide), if_neg (by decide), if_pos rfl, ensure_of (by omega), ok_bind,
    readLE_leBytes hptr (by omega) hsmall, ok_bind, ensure_of (by omega), ok_bind, if_neg (by decide),
    readLE_leBytes hone (by decide) hsmall, ok_bind] at hnew
  refine ⟨sigils, root, 32 + schema.length, _, hroot, hrootAt, hone, hnew, rfl, rfl, rfl, rfl, rfl, ?_⟩
  rw [Reader.record, ensure_of (show ¬ 0 ≥ 1 by decide), ok_bind, if_pos rfl, Reader.rowRecordOffset]
  dsimp only
  rw [usizeMul_of (by omega), ok_bind, usizeAdd_of (by omega), ok_bind, usizeAdd_of (by omega), ok_bind]
  exact getLE_leBytes (by simpa only [Nat.zero_mul, Nat.add_zero, Nat.add_assoc] using hoff) (by omega) hsmall

end Nyxis.Compiler
