import Nyxis.SlotWrites
import Nyxis.ObjectFile

/-!
# CallRecords — records of typed writes, read back

Each record of a file is written by some calls of the typed write methods.  `WroteCalls` is the writer
once they are written.

* `writeRecords_ok`: the records leave their objects one after the other.
* `ObjectTable.readsWrites`: the getters of a record give back what its calls wrote.
* `writes_read_back`: writes to different slots are read back whatever their order.
-/

namespace Nyxis

open Lib Lib.Outcome

/-! ## Writing records -/

/-- The sigils of the slots once some records are written. -/
def callSigils (keys : List String) (records : List (List Call)) : List UInt8 :=
  records.foldl (fun sigils calls => calls.foldl (fun sigils c => noteSigil sigils c.slot c.arg.sigil) sigils)
    (List.replicate keys.length 0)

/-- Where record `i` starts in the data sector. -/
def callStart (n : ℕ) (records : List (List Call)) (i : ℕ) : ℕ :=
  ((records.take i).map fun calls => objectLen n (callCells calls)).sum

theorem callStart_succ {n i : ℕ} {records : List (List Call)} {calls : List Call} (hi : records[i]? = some calls) :
    callStart n records (i + 1) = callStart n records i + objectLen n (callCells calls) := by
  rw [callStart, callStart, List.take_add_one, hi, Option.toList_some, List.map_append, List.sum_append, List.map_singleton,
    List.sum_singleton]

/-- Every object takes up room. -/
theorem callStart_ge {n : ℕ} {records : List (List Call)} : ∀ {i : ℕ}, i ≤ records.length → 16 * i ≤ callStart n records i
  | 0, _ => Nat.zero_le _
  | i + 1, hi => by
    have hlt : i < records.length := hi
    have hprev : 16 * i ≤ callStart n records i := callStart_ge (Nat.le_of_lt hlt)
    have hdvd := objectStart_dvd n
    have hstart : 8 < objectStart n := by
      unfold objectStart objectHeaderLen bitmaskLen
      omega
    rw [callStart_succ (List.getElem?_eq_getElem hlt), objectLen]
    omega

/-- The object of some calls. -/
def CallObject (n : ℕ) (calls : List Call) (object : Bytes) : Prop :=
  ∃ order, TableOrder n (callCells calls) order ∧ object = filledObject n (callCells calls) (order.map fun e => e.2 % 65536)

theorem CallObject.length {n : ℕ} {calls : List Call} {object : Bytes} (h : CallObject n calls object) :
    object.length = objectLen n (callCells calls) := by
  obtain ⟨order, horder, rfl⟩ := h
  refine filledObject_length ?_
  rw [List.length_map, horder.length]
  exact table_fits (callCells_pos calls)

/-- A writer between two objects that has written the given records. -/
structure WroteCalls (keys : List String) (w : NxsWriter) (records : List (List Call)) (objects : List Bytes) : Prop where
  packed : Packed w objects
  keys_eq : w.keys = keys
  slotSigils : w.slotSigils = callSigils keys records
  objects : List.Forall₂ (CallObject keys.length) records objects

/-- The objects in front of record `i` end where it starts, whatever their offset tables. -/
theorem flatten_take_length_of {n : ℕ} : ∀ {records : List (List Call)} {objects : List Bytes} (i : ℕ),
    List.Forall₂ (fun calls object => object.length = objectLen n (callCells calls)) records objects →
      (objects.take i).flatten.length = callStart n records i
  | _, _, 0, _ => rfl
  | [], [], i + 1, _ => rfl
  | calls :: records, object :: objects, i + 1, h => by
    obtain ⟨hobj, hrest⟩ := List.forall₂_cons.mp h
    rw [List.take_succ_cons, List.flatten_cons, List.length_append, hobj, flatten_take_length_of i hrest, callStart,
      callStart, List.take_succ_cons, List.map_cons, List.sum_cons]

/-- The objects in front of record `i` end where it starts. -/
theorem flatten_take_length {n : ℕ} {records : List (List Call)} {objects : List Bytes} (i : ℕ)
    (h : List.Forall₂ (CallObject n) records objects) : (objects.take i).flatten.length = callStart n records i :=
  flatten_take_length_of i (h.imp fun _ _ hobj => hobj.length)

namespace WroteCalls

variable {keys : List String} {w : NxsWriter} {records : List (List Call)} {objects : List Bytes}

theorem new (keys : List String) : WroteCalls keys (NxsWriter.new keys) [] [] :=
  ⟨Packed.new keys, rfl, rfl, List.Forall₂.nil⟩

theorem rowWriter (h : WroteCalls keys w records objects) : RowWriter keys w :=
  ⟨h.packed.plain, h.packed.frames, h.keys_eq⟩

/-- The buffer ends where the next record starts. -/
theorem buf_length (h : WroteCalls keys w records objects) : w.buf.length = callStart keys.length records records.length := by
  have hall := flatten_take_length objects.length h.objects
  rw [List.take_length] at hall
  rw [h.packed.buf, h.objects.length_eq, hall]

theorem concat (h : WroteCalls keys w records objects) (sorter : SlotSort) {calls : List Call}
    (hslots : ∀ c ∈ calls, c.slot < keys.length)
    (hsort : Sortable (callStart keys.length records records.length) keys.length (callCells calls)) :
    ∃ w' object, w.writeObject sorter calls = .ok w' ∧ WroteCalls keys w' (records ++ [calls]) (objects ++ [object]) := by
  rw [← h.buf_length] at hsort
  obtain ⟨order, w', horder, hw', hwrote⟩ := writeObject_ok h.rowWriter sorter
    (fun c hc => div_lt_bitmaskLen (hslots c hc)) hsort
  have hobj : CallObject keys.length calls _ := ⟨order, horder, rfl⟩
  refine ⟨w', _, hw', ⟨hwrote.packed h.packed, hwrote.writer.keys, ?_, List.rel_append h.objects
    (List.Forall₂.cons hobj List.Forall₂.nil)⟩⟩
  rw [hwrote.slotSigils, h.slotSigils, callSigils, callSigils, List.foldl_append]
  rfl

end WroteCalls

/-- What the writer keeps of records that were written, whatever their slots. -/
structure KeptCalls (keys : List String) (w : NxsWriter) (records : List (List Call)) (objects : List Bytes) : Prop where
  packed : Packed w objects
  keys_eq : w.keys = keys
  slotSigils : w.slotSigils = callSigils keys records
  lengths : List.Forall₂ (fun calls object => object.length = objectLen keys.length (callCells calls)) records objects

/-- An object of some calls, with whatever order its offset table has. -/
def FilledObject (n : ℕ) (calls : List Call) (object : Bytes) : Prop :=
  ∃ offsets : List ℕ, offsets.length = calls.length ∧
    ((∀ o ∈ offsets, o < 65536 ∧ o ≤ objectLen n (callCells calls)) ∧
      (objectLen n (callCells calls) < 2 ^ 32 → ∃ order, TableOrder n (callCells calls) order ∧
        offsets = order.map fun e => e.2 % 65536)) ∧ object = filledObject n (callCells calls) offsets

/-- Every record that is written leaves an object of its calls. -/
theorem writeObjects_filled {sorter : SlotSort} {keys : List String} {records : List (List Call)} {w : NxsWriter}
    (hrun : records.foldlM (NxsWriter.writeObject sorter) (NxsWriter.new keys) = .ok w) :
    ∃ objects, KeptCalls keys w records objects ∧ List.Forall₂ (FilledObject keys.length) records objects ∧
      ∀ calls ∈ records, ∀ c ∈ calls, c.slot / 7 < bitmaskLen keys.length := by
  induction records using List.reverseRecOn generalizing w with
  | nil =>
    cases hrun
    exact ⟨[], ⟨Packed.new keys, rfl, rfl, List.Forall₂.nil⟩, List.Forall₂.nil, fun _ h => absurd h List.not_mem_nil⟩
  | append_singleton records calls ih =>
    rw [List.foldlM_append] at hrun
    obtain ⟨w₁, hfront, hrun⟩ := bind_eq_ok.mp hrun
    obtain ⟨objects, hkept, hfilled, hmask⟩ := ih hfront
    rw [List.foldlM_cons] at hrun
    obtain ⟨w₂, hw₂, hrun⟩ := bind_eq_ok.mp hrun
    cases hrun
    have hrow : RowWriter keys w₁ := ⟨hkept.packed.plain, hkept.packed.frames, hkept.keys_eq⟩
    obtain ⟨offsets, hwrote, hbounds⟩ := writeObject_offsets hrow sorter hw₂
    have hlen : (filledObject keys.length (callCells calls) offsets).length = objectLen keys.length (callCells calls) := by
      refine filledObject_length ?_
      rw [hwrote.count, ← callCells_length]
      exact table_fits (callCells_pos calls)
    refine ⟨_, ⟨hwrote.packed hkept.packed, hwrote.writer.keys, ?_, List.rel_append hkept.lengths
      (List.Forall₂.cons hlen List.Forall₂.nil)⟩, List.rel_append hfilled
      (List.Forall₂.cons ⟨offsets, hwrote.count, hbounds, rfl⟩ List.Forall₂.nil), fun calls' hcalls' => ?_⟩
    · rw [hwrote.slotSigils, hkept.slotSigils, callSigils, callSigils, List.foldl_append]
      rfl
    · rcases List.mem_append.mp hcalls' with hcalls' | hcalls'
      · exact hmask calls' hcalls'
      · rw [List.mem_singleton.mp hcalls']
        exact (writeObject_eq_ok hrow sorter hw₂).1

/-- Every record that is written leaves an object of its length. -/
theorem writeObjects_kept {sorter : SlotSort} {keys : List String} {records : List (List Call)} {w : NxsWriter}
    (hrun : records.foldlM (NxsWriter.writeObject sorter) (NxsWriter.new keys) = .ok w) :
    ∃ objects, KeptCalls keys w records objects := by
  obtain ⟨objects, hkept, -⟩ := writeObjects_filled hrun
  exact ⟨objects, hkept⟩

/-- Every record writes to slots of the schema, and those out of slot order can be sorted. -/
structure Writable (keys : List String) (records : List (List Call)) : Prop where
  slots : ∀ calls ∈ records, ∀ c ∈ calls, c.slot < keys.length
  sortable : ∀ i calls, records[i]? = some calls → Sortable (callStart keys.length records i) keys.length (callCells calls)

/-- The records leave their objects one after the other. -/
theorem writeRecords_ok (sorter : SlotSort) {keys : List String} {records : List (List Call)} (h : Writable keys records) :
    ∃ w objects, records.foldlM (NxsWriter.writeObject sorter) (NxsWriter.new keys) = .ok w ∧
      WroteCalls keys w records objects := by
  induction records using List.reverseRecOn with
  | nil => exact ⟨_, [], rfl, WroteCalls.new keys⟩
  | append_singleton records calls ih =>
    have hfront : Writable keys records := by
      refine ⟨fun a ha => h.slots a (List.mem_append_left _ ha), fun i a ha => ?_⟩
      have hi := (List.getElem?_eq_some_iff.mp ha).1
      have hsort := h.sortable i a (by rw [List.getElem?_append_left hi, ha])
      rwa [callStart, List.take_append_of_le_length (by omega)] at hsort
    obtain ⟨w, objects, hw, hwrote⟩ := ih hfront
    have hsort := h.sortable records.length calls (by
      rw [List.getElem?_append_right (Nat.le_refl _), Nat.sub_self]
      rfl)
    have hstart : callStart keys.length (records ++ [calls]) records.length = callStart keys.length records records.length := by
      rw [callStart, callStart, List.take_left, List.take_length]
    rw [hstart] at hsort
    obtain ⟨w', object, hw', hwrote'⟩ := hwrote.concat sorter (h.slots calls (by simp)) hsort
    refine ⟨w', _, ?_, hwrote'⟩
    rw [List.foldlM_append, hw, ok_bind, List.foldlM_cons, hw', ok_bind]
    rfl

/-! ## Reading them back -/

/-- What the typed getters of a record can see of a value. -/
def Arg.cell : Arg → Cell
  | .i64 v => .i64 v
  | .f64 v => .f64 v
  | .bool v => .bool v
  | .time v => .time v
  | .str v => .str v
  | .bytes v => .binary v
  | .null | .listI64 _ | .listF64 _ => .null

/-- The bytes at the place of a slot in record `i`. -/
def Reader.SlotAt (r : Reader) (i slot : ℕ) (bytes : Bytes) : Prop :=
  ∃ off p, r.record i = .ok off ∧ resolveSlot r.data off slot = .ok p ∧ At r.data p bytes

/-- Record `i` has no value in a slot. -/
def Reader.SlotNone (r : Reader) (i slot : ℕ) : Prop := ∃ off, r.record i = .ok off ∧ resolveSlot r.data off slot = none'

/-- Record `i` holds what the calls wrote, and nothing else. -/
structure Reader.ReadsWrites (r : Reader) (i : ℕ) (keys : List String) (calls : List Call) : Prop where
  written : ∀ c ∈ calls, ∀ key, keys[c.slot]? = some key → r.Reads i key c.arg.cell ∧ r.SlotAt i c.slot c.arg.bytesOf
  unwritten : ∀ slot key, keys[slot]? = some key → (∀ c ∈ calls, c.slot ≠ slot) →
    r.Reads i key .absent ∧ r.SlotNone i slot

/-- A value is seen where its bytes stand. -/
theorem cellAt_arg {r : Reader} {p : ℕ} {x : Arg} (hat : At r.data p x.bytesOf) (hshort : x.bytesOf.length < 2 ^ 32)
    (hd : r.data.length < 2 ^ 63) : CellAt r p x.cell := by
  cases x with
  | null | bytes v | listI64 vs | listF64 vs => trivial
  | i64 v => exact cellAt_rowBytes hat rfl (fun _ h => by cases h) hd
  | f64 v => exact cellAt_rowBytes hat rfl (fun _ h => by cases h) hd
  | bool v => exact cellAt_rowBytes hat rfl (fun _ h => by cases h) hd
  | time v => exact cellAt_rowBytes hat rfl (fun _ h => by cases h) hd
  | str v =>
    refine cellAt_rowBytes hat rfl (fun s hs => ?_) hd
    cases hs
    exact Nat.lt_of_le_of_lt (prefixed_le (utf8 v)) hshort

/-- Different slots of a schema are at most as many as its keys. -/
theorem calls_length_le {n : ℕ} {calls : List Call} (hnd : (calls.map Call.slot).Nodup) (hslots : ∀ c ∈ calls, c.slot < n) :
    calls.length ≤ n := by
  have hsub : (calls.map Call.slot).Subperm (List.range n) := by
    refine List.subperm_of_subset hnd fun s hs => ?_
    obtain ⟨c, hc, rfl⟩ := List.mem_map.mp hs
    exact List.mem_range.mpr (hslots c hc)
  have hle := hsub.length_le
  rwa [List.length_map, List.length_range] at hle

section Value

variable {d : Bytes} {keys : List String} {off : ℕ} {calls : List Call} {order : List (ℕ × ℕ)}
  (horder : TableOrder keys.length (callCells calls) order)
  (hat : At d off (filledObject keys.length (callCells calls) (order.map fun e => e.2 % 65536)))
  (hslots : ∀ c ∈ calls, c.slot < keys.length) (hdistinct : (calls.map Call.slot).Nodup)

include horder hat hslots hdistinct

/-- The value of a call to one of different slots is at the place of its slot. -/
theorem value_at_place {e : ℕ × ℕ} (he : e ∈ order) {c : Call} (hc : c ∈ calls) (hslot : e.1 = c.slot) :
    At d (off + e.2) c.arg.bytesOf := by
  have hroom : (order.map fun e => e.2 % 65536).length * 2 ≤ tableRoom keys.length := by
    have hle := calls_length_le hdistinct hslots
    rw [List.length_map, horder.length, callCells_length, tableRoom]
    omega
  obtain ⟨cell, hcell, hown, hval⟩ := cellPlaces_at (filledObject_values hat hroom) (e := (e.1, off + e.2)) (by
    rw [cellPlaces_shift]
    exact List.mem_map.mpr ⟨e, horder.perm.mem_iff.mp he, rfl⟩)
  obtain ⟨c', hc', rfl⟩ := List.mem_map.mp hcell
  obtain rfl : c' = c := List.inj_on_of_nodup_map hdistinct hc' hc (hown.trans hslot)
  exact hval

/-- The value of a call, where the entry at the rank of its slot says. -/
theorem call_at_rank (hlen : objectLen keys.length (callCells calls) ≤ 65535) {c : Call} (hc : c ∈ calls) :
    ∃ e, order[slotRank (objectSlots (callCells calls)) c.slot]? = some e ∧ e.2 < 65536 ∧ At d (off + e.2) c.arg.bytesOf ∧
      c.arg.bytesOf.length < 2 ^ 32 := by
  have hcell : (c.slot, c.arg.bytesOf) ∈ callCells calls := List.mem_map_of_mem hc
  have hrank : slotRank (objectSlots (callCells calls)) c.slot < order.length := by
    rw [horder.length]
    exact objectSlots_rank_lt (List.any_eq_true.mpr ⟨_, hcell, beq_self_eq_true _⟩)
  refine ⟨_, List.getElem?_eq_getElem hrank, ?_, ?_, ?_⟩
  · have hle := (cellPlaces_bounds (horder.perm.mem_iff.mp (List.getElem_mem hrank))).2
    unfold objectLen at hlen
    omega
  · exact value_at_place horder hat hslots hdistinct (List.getElem_mem hrank) hc
      ((order_at_rank horder (List.mem_map_of_mem hc) (List.getElem?_eq_getElem hrank)).mpr (hdistinct.filter _))
  · have hle := (List.sublist_flatten_of_mem (List.mem_map_of_mem (f := Prod.snd) hcell)).length_le
    rw [← List.flatMap_def] at hle
    unfold objectLen objectValues at hlen
    dsimp only at hle
    omega

end Value

/-- A record whose calls went to different slots is read back, where its object stands. -/
theorem ObjectTable.readsWrites_of {r : Reader} {keys : List String} {sigils : List UInt8} {objects : List Bytes}
    (h : ObjectTable r keys sigils objects) (hnd : keys.Nodup) {i off : ℕ} {calls : List Call} {order : List (ℕ × ℕ)}
    (hrecord : r.record i = .ok off) (horder : TableOrder keys.length (callCells calls) order)
    (hat : At r.data off (filledObject keys.length (callCells calls) (order.map fun e => e.2 % 65536)))
    (hslots : ∀ c ∈ calls, c.slot < keys.length) (hdistinct : (calls.map Call.slot).Nodup)
    (hlen : objectLen keys.length (callCells calls) ≤ 65535) : r.ReadsWrites i keys calls := by
  have hrow : ∀ {slot : ℕ} {key : String}, keys[slot]? = some key → RowCell r i off slot key := fun hkey =>
    ⟨h.layout, h.ext, hrecord, Reader.slot_of_nodup (by rw [h.keys_eq]; exact hnd) (by rw [h.keys_eq]; exact hkey)⟩
  constructor
  · intro c hc key hkey
    have hcell : (c.slot, c.arg.bytesOf) ∈ callCells calls := List.mem_map_of_mem hc
    obtain ⟨e, he, hres⟩ := resolveSlot_filled hat horder h.small hlen hcell (div_lt_bitmaskLen (hslots c hc))
    obtain ⟨e', he', -, hval, hshort⟩ := call_at_rank horder hat hslots hdistinct hlen hc
    obtain rfl : e = e' := Option.some.inj (he.symm.trans he')
    exact ⟨(hrow hkey).reads_cell hres (cellAt_arg hval hshort h.small), off, _, hrecord, hres, hval⟩
  · intro slot key hkey hnone
    have hres := resolveSlot_filled_absent hat h.small (objectSlots_unwritten hnone)
    exact ⟨(hrow hkey).reads_absent hres, off, hrecord, hres⟩

/-- The records are written, and a file that `finish` returns is opened and holds record `i` as the calls wrote it. -/
def ReadBack (sorter : SlotSort) (keys : List String) (records : List (List Call)) (i : ℕ) (calls : List Call) : Prop :=
  ∃ w, records.foldlM (NxsWriter.writeObject sorter) (NxsWriter.new keys) = .ok w ∧ ∀ file, w.finish = .ok file →
    ∃ r, Reader.new file = .ok r ∧ r.ReadsWrites i keys calls

/-- A record whose calls went to different slots is read back. -/
theorem ObjectTable.readsWrites {r : Reader} {keys : List String} {sigils : List UInt8} {records : List (List Call)}
    {objects : List Bytes} (h : ObjectTable r keys sigils objects) (hnd : keys.Nodup)
    (hobjects : List.Forall₂ (CallObject keys.length) records objects) {i : ℕ} {calls : List Call}
    (hi : records[i]? = some calls) (hcount : i < records.length % 2 ^ 32) (hstart : callStart keys.length records i < 2 ^ 32)
    (hslots : ∀ c ∈ calls, c.slot < keys.length) (hdistinct : (calls.map Call.slot).Nodup)
    (hlen : objectLen keys.length (callCells calls) ≤ 65535) : r.ReadsWrites i keys calls := by
  obtain ⟨hlt, hget⟩ := List.getElem?_eq_some_iff.mp hi
  have hlt' : i < objects.length := by rwa [← hobjects.length_eq]
  have hobj : CallObject keys.length calls objects[i] := by
    have hall := hobjects.get hlt hlt'
    rwa [List.get_eq_getElem, List.get_eq_getElem, hget] at hall
  have hat := ObjectFile.object_at h.file (List.getElem?_eq_getElem hlt')
  have hrecord := h.record (i := i) (by rwa [← hobjects.length_eq])
  rw [flatten_take_length i hobjects] at hat hrecord
  rw [Nat.mod_eq_of_lt hstart] at hrecord
  obtain ⟨order, horder, hfilled⟩ := hobj
  rw [hfilled] at hat
  exact h.readsWrites_of hnd hrecord horder hat hslots hdistinct hlen

section Filled

variable {r : Reader} {keys : List String} {sigils : List UInt8} {records : List (List Call)} {objects : List Bytes}
  {i slot : ℕ} {calls : List Call} {key : String}

/-- The object of a record, where the objects in front of it end. -/
theorem ObjectFile.filled_at {d : Bytes} (h : ObjectFile keys sigils objects d)
    (hobjects : List.Forall₂ (FilledObject keys.length) records objects) (hi : records[i]? = some calls) :
    (objects.take i).flatten.length = callStart keys.length records i ∧ ∃ offsets,
      At d (sectorStart keys sigils + callStart keys.length records i) (filledObject keys.length (callCells calls) offsets) ∧
      offsets.length = calls.length ∧
      (∀ o ∈ offsets, o < 65536 ∧ sectorStart keys sigils + callStart keys.length records i + o + 8 ≤ d.length) ∧
      (objectLen keys.length (callCells calls) < 2 ^ 32 → ∃ order, TableOrder keys.length (callCells calls) order ∧
        offsets = order.map fun e => e.2 % 65536) := by
  have hlengths : List.Forall₂ (fun calls object => object.length = objectLen keys.length (callCells calls)) records objects :=
    hobjects.imp fun calls object hfilled => by
      obtain ⟨offsets, hlen, -, rfl⟩ := hfilled
      refine filledObject_length ?_
      rw [hlen, ← callCells_length]
      exact table_fits (callCells_pos calls)
  obtain ⟨hlt, hget⟩ := List.getElem?_eq_some_iff.mp hi
  have hlt' : i < objects.length := by rwa [← hobjects.length_eq]
  have hat := h.object_at (List.getElem?_eq_getElem hlt')
  rw [flatten_take_length_of i hlengths] at hat
  have hfilled := hobjects.get hlt hlt'
  have hlen : objects[i].length = objectLen keys.length (callCells calls) := by
    have hall := hlengths.get hlt hlt'
    rwa [List.get_eq_getElem, List.get_eq_getElem, hget] at hall
  rw [List.get_eq_getElem, List.get_eq_getElem, hget] at hfilled
  obtain ⟨offsets, hoffs, hbounds, hobj⟩ := hfilled
  -- behind the objects the file has at least the count and the footer
  obtain ⟨-, -, hend⟩ := h.tail_at
  have hsub : callStart keys.length records i + objects[i].length ≤ objects.flatten.length := by
    have hmono : (objects.take (i + 1)).flatten.length ≤ objects.flatten.length :=
      ((List.take_prefix _ _).sublist.flatten).length_le
    rw [List.take_add_one, List.getElem?_eq_getElem hlt', Option.toList_some, List.flatten_append, List.length_append,
      flatten_take_length_of i hlengths, List.flatten_singleton] at hmono
    exact hmono
  refine ⟨flatten_take_length_of i hlengths, offsets, hobj ▸ hat, hoffs, fun o ho => ⟨(hbounds.1 o ho).1, ?_⟩, hbounds.2⟩
  have := (hbounds.1 o ho).2
  omega

/-- The object of a record that starts below 4 GiB, where the reader looks for it. -/
theorem ObjectTable.filled_at (h : ObjectTable r keys sigils objects)
    (hobjects : List.Forall₂ (FilledObject keys.length) records objects) (hi : records[i]? = some calls)
    (hcount : records.length < 2 ^ 32) (hstart : callStart keys.length records i < 2 ^ 32) :
    ∃ off offsets, r.record i = .ok off ∧ At r.data off (filledObject keys.length (callCells calls) offsets) ∧
      offsets.length = calls.length ∧ (∀ o ∈ offsets, o < 65536 ∧ off + o + 8 ≤ r.data.length) ∧
      (objectLen keys.length (callCells calls) < 2 ^ 32 → ∃ order, TableOrder keys.length (callCells calls) order ∧
        offsets = order.map fun e => e.2 % 65536) := by
  obtain ⟨hlen, offsets, hfilled⟩ := ObjectFile.filled_at h.file hobjects hi
  have hlt := (List.getElem?_eq_some_iff.mp hi).1
  have hrecord := h.record (i := i) (by rwa [← hobjects.length_eq, Nat.mod_eq_of_lt hcount])
  rw [hlen, Nat.mod_eq_of_lt hstart] at hrecord
  exact ⟨_, offsets, hrecord, hfilled⟩

/-- A slot that no call of the record wrote reads as absent. -/
theorem ObjectTable.reads_unwritten (h : ObjectTable r keys sigils objects) (hnd : keys.Nodup)
    (hobjects : List.Forall₂ (FilledObject keys.length) records objects) (hi : records[i]? = some calls)
    (hcount : records.length < 2 ^ 32) (hstart : callStart keys.length records i < 2 ^ 32) (hkey : keys[slot]? = some key)
    (hnone : ∀ c ∈ calls, c.slot ≠ slot) : r.Reads i key .absent := by
  obtain ⟨off, offsets, hrecord, hat, -, -⟩ := h.filled_at hobjects hi hcount hstart
  have hslot : r.slot key = .ok slot :=
    Reader.slot_of_nodup (by rw [h.keys_eq]; exact hnd) (by rw [h.keys_eq]; exact hkey)
  have hrow : RowCell r i off slot key := ⟨h.layout, h.ext, hrecord, hslot⟩
  exact hrow.reads_absent (resolveSlot_filled_none hat h.small (objectSlots_unwritten hnone))

/-- A slot that some call of the record wrote does not read as absent. -/
theorem ObjectTable.reads_written (h : ObjectTable r keys sigils objects) (hnd : keys.Nodup)
    (hobjects : List.Forall₂ (FilledObject keys.length) records objects) (hi : records[i]? = some calls)
    (hcount : records.length < 2 ^ 32) (hstart : callStart keys.length records i < 2 ^ 32) (hkey : keys[slot]? = some key)
    {c : Call} (hc : c ∈ calls) (hcs : c.slot = slot) : ¬ r.Reads i key .absent := by
  obtain ⟨off, offsets, hrecord, hat, hlen, hbounds, -⟩ := h.filled_at hobjects hi hcount hstart
  have hslot : r.slot key = .ok slot :=
    Reader.slot_of_nodup (by rw [h.keys_eq]; exact hnd) (by rw [h.keys_eq]; exact hkey)
  have hrow : RowCell r i off slot key := ⟨h.layout, h.ext, hrecord, hslot⟩
  have hpresent : objectSlots (callCells calls) slot = true := by
    rw [objectSlots, List.any_eq_true]
    exact ⟨(c.slot, c.arg.bytesOf), List.mem_map_of_mem hc, beq_iff_eq.mpr hcs⟩
  obtain ⟨o, ho, hres⟩ := resolveSlot_filled_entry hat h.small (by rw [hlen, callCells_length])
    (fun o ho => (hbounds o ho).1) hpresent (div_lt_bitmaskLen (List.getElem?_eq_some_iff.mp hkey).1)
  rintro ⟨hint, -⟩
  rw [hrow.i64At, hres, ok_bind, getLE_word (hbounds o ho).2 h.small] at hint
  cases hint

/-- A record whose calls went to different slots is read back, whatever the other records are. -/
theorem ObjectTable.reads_filled (h : ObjectTable r keys sigils objects) (hnd : keys.Nodup)
    (hobjects : List.Forall₂ (FilledObject keys.length) records objects) (hi : records[i]? = some calls)
    (hcount : records.length < 2 ^ 32) (hstart : callStart keys.length records i < 2 ^ 32)
    (hslots : ∀ c ∈ calls, c.slot < keys.length) (hdistinct : (calls.map Call.slot).Nodup)
    (hlen : objectLen keys.length (callCells calls) ≤ 65535) : r.ReadsWrites i keys calls := by
  obtain ⟨off, offsets, hrecord, hat, -, -, hsorted⟩ := h.filled_at hobjects hi hcount hstart
  obtain ⟨order, horder, rfl⟩ := hsorted (by omega)
  exact h.readsWrites_of hnd hrecord horder hat hslots hdistinct hlen

/-- A key that the file does not have reads as absent. -/
theorem ObjectTable.reads_unknown (h : ObjectTable r keys sigils objects) (hkey : key ∉ keys) (hrecord : ∃ off, r.record i = .ok off) :
    r.Reads i key .absent := by
  obtain ⟨off, hoff⟩ := hrecord
  have hslot : r.slot key = none' := by rw [Reader.slot, if_neg (by rw [h.keys_eq]; exact hkey)]
  refine ⟨?_, ?_, ?_, ?_⟩
  · rw [Reader.i64At, hoff, ok_bind, Reader.getI64, hslot, err_bind]
  · rw [Reader.f64At, hoff, ok_bind, Reader.getF64, hslot, err_bind]
  · rw [Reader.boolAt, hoff, ok_bind, Reader.getBool, hslot, err_bind]
  · rw [Reader.strAt, hoff, ok_bind, Reader.getStr, hslot, err_bind]

end Filled

section ReadBack

variable {keys : List String} (hlen : keys.length < 65536) (hnul : ∀ k ∈ keys, NulFree k)

include hlen hnul

/-- The file of some records is opened. -/
theorem WroteCalls.opens {w : NxsWriter} {records : List (List Call)} {objects : List Bytes} {file : Slice}
    (h : WroteCalls keys w records objects) (hfile : w.finish = .ok file) :
    ∃ r, Reader.new file = .ok r ∧ ObjectTable r keys (callSigils keys records) objects := by
  have hobject := finish_objects h.packed hfile
  rw [h.keys_eq, h.slotSigils] at hobject
  obtain ⟨r, hr, -, htable⟩ := ObjectFile.opens hobject hlen hnul
  exact ⟨r, hr, htable⟩

/-- Writes to different slots of a record are read back, in whatever order they came. -/
theorem writes_read_back (sorter : SlotSort) (hnd : keys.Nodup) {records : List (List Call)} (hwritable : Writable keys records)
    {i : ℕ} {written calls : List Call} (hi : records[i]? = some written) (hperm : calls.Perm written)
    (hdistinct : (calls.map Call.slot).Nodup) (hsize : objectLen keys.length (callCells calls) ≤ 65535)
    (hcount : records.length < 2 ^ 32) (hstart : callStart keys.length records i < 2 ^ 32) :
    ReadBack sorter keys records i calls := by
  obtain ⟨w, objects, hw, hwrote⟩ := writeRecords_ok sorter hwritable
  refine ⟨w, hw, fun file hfile => ?_⟩
  obtain ⟨r, hr, htable⟩ := hwrote.opens hlen hnul hfile
  have hlt := (List.getElem?_eq_some_iff.mp hi).1
  have hsize' : objectLen keys.length (callCells written) ≤ 65535 := by
    have hsame : (objectValues (callCells calls)).length = (objectValues (callCells written)).length :=
      ((hperm.map _).flatMap_right _).length_eq
    unfold objectLen at hsize ⊢
    omega
  have hreads := htable.readsWrites hnd hwrote.objects hi (by rwa [Nat.mod_eq_of_lt hcount]) hstart
    (hwritable.slots written (List.mem_of_getElem? hi)) ((hperm.map _).nodup_iff.mp hdistinct) hsize'
  refine ⟨r, hr, ?_, ?_⟩
  · intro c hc
    exact hreads.written c (hperm.mem_iff.mp hc)
  · intro slot key hkey hnone
    exact hreads.unwritten slot key hkey fun c hc => hnone c (hperm.mem_iff.mpr hc)

end ReadBack

/-- Two slots written in descending order. -/
theorem writes_read_back_descending : ReadBack SlotSort.stable ["a", "b"] [[⟨1, .str "x"⟩, ⟨0, .i64 7⟩]] 0
    [⟨0, .i64 7⟩, ⟨1, .str "x"⟩] := by
  refine writes_read_back (by decide) (by decide) _ (by decide) ⟨by decide, ?_⟩ rfl (by decide) (by decide) (by decide)
    (by decide) (by decide)
  intro i calls hi
  match i, hi with
  | 0, hi =>
    cases hi
    exact Or.inr (by decide)

/-! ## Records behind 4 GiB -/

theorem finish_ok {w : NxsWriter} {objects : List Bytes} (hpacked : Packed w objects)
    (hsmall : 32 + (buildSchema w.keys w.slotSigils).length + objects.flatten.length + objects.length * 10 + 16 < 2 ^ 63) :
    ∃ file, w.finish = .ok file := by
  have hcount : w.recordOffsets.length = objects.length := by
    rw [hpacked.recordOffsets, List.length_map, startsFrom_length, List.length_map]
  have hslice : ∀ b : Bytes, b.length < 2 ^ 63 → ∃ file, Slice.ofBytes b = .ok file := fun b hb =>
    ⟨_, dif_pos hb⟩
  rw [NxsWriter.finish, demand_of hpacked.frames, ok_bind, hpacked.plain]
  dsimp only
  refine hslice _ ?_
  rw [tailIndexRecords_eq]
  simp only [List.length_append, preamble_length, leBytes_length, tailEntries_length, List.length_map, hcount, hpacked.buf]
  omega

/-- `2^28` empty records in front of a record with one value. -/
def farRecords : List (List Call) := List.replicate (2 ^ 28) [] ++ [[⟨0, .i64 7⟩]]

theorem farRecords_start {i : ℕ} (hi : i ≤ 2 ^ 28) : callStart 1 farRecords i = i * 16 := by
  rw [callStart, farRecords, List.take_append_of_le_length (by rwa [List.length_replicate]), List.take_replicate,
    Nat.min_eq_left hi, List.map_replicate, List.sum_replicate_nat, show objectLen 1 (callCells []) = 16 by decide]

theorem farRecords_length : farRecords.length = 2 ^ 28 + 1 := by
  rw [farRecords, List.length_append, List.length_replicate, List.length_singleton]

theorem farRecords_last : farRecords[2 ^ 28]? = some [⟨0, .i64 7⟩] := by
  rw [farRecords, List.getElem?_append_right (by rw [List.length_replicate]), List.length_replicate, Nat.sub_self]
  rfl

theorem farRecords_front {i : ℕ} (hi : i < 2 ^ 28) : farRecords[i]? = some [] := by
  rw [farRecords, List.getElem?_append_left (by rwa [List.length_replicate]), List.getElem?_replicate_of_lt hi]

theorem farRecords_mem {calls : List Call} (h : calls ∈ farRecords) : calls = [] ∨ calls = [⟨0, .i64 7⟩] :=
  (List.mem_append.mp h).imp List.eq_of_mem_replicate List.mem_singleton.mp

theorem farRecords_writable : Writable ["a"] farRecords := by
  constructor
  · intro calls hcalls c hc
    rcases farRecords_mem hcalls with rfl | rfl
    · exact absurd hc List.not_mem_nil
    · rw [List.mem_singleton.mp hc]
      decide
  · intro i calls hi
    left
    rcases farRecords_mem (List.mem_of_getElem? hi) with rfl | rfl <;> decide

/-- The offset of a record at 4 GiB is cut to that of the first record. -/
theorem writes_not_read_back_far : ¬ ReadBack SlotSort.stable ["a"] farRecords (2 ^ 28) [⟨0, .i64 7⟩] := by
  have hlength := farRecords_length
  have hget := farRecords_last
  have hfirst := farRecords_front (Nat.two_pow_pos 28)
  rintro ⟨w, hw, hread⟩
  obtain ⟨w', objects, hw', hwrote⟩ := writeRecords_ok SlotSort.stable farRecords_writable
  obtain rfl : w = w' := Outcome.ok.inj (hw.symm.trans hw')
  have hcount : objects.length = 2 ^ 28 + 1 := by rw [← hwrote.objects.length_eq, hlength]
  have hbytes : objects.flatten.length = 2 ^ 28 * 16 + 24 := by
    have hall := flatten_take_length objects.length hwrote.objects
    have hsum : callStart 1 farRecords (2 ^ 28 + 1) = 2 ^ 28 * 16 + 24 := by
      rw [callStart_succ hget, farRecords_start (Nat.le_refl _), show objectLen 1 (callCells [⟨0, .i64 7⟩]) = 24 by decide]
    rw [List.take_length, hcount] at hall
    exact hall.trans hsum
  have hschema : (buildSchema w.keys w.slotSigils).length = 8 := by
    rw [hwrote.keys_eq, buildSchema, padTo_length, List.length_append, List.length_append, leBytes_length, schemaSigils_length]
    rfl
  obtain ⟨file, hfile⟩ := finish_ok hwrote.packed (by rw [hschema, hbytes, hcount]; decide)
  obtain ⟨r, hr, hreads⟩ := hread file hfile
  obtain ⟨r', hr', htable⟩ := hwrote.opens (by decide) (by decide) hfile
  obtain rfl : r = r' := Outcome.ok.inj (hr.symm.trans hr')
  -- the entry of the last record leads to the first one, which has no value
  have hrecord := htable.record (i := 2 ^ 28) (by rw [hcount]; decide)
  rw [flatten_take_length _ hwrote.objects, List.length_singleton, farRecords_start (Nat.le_refl _),
    show 2 ^ 28 * 16 % 2 ^ 32 = 0 by decide, Nat.add_zero] at hrecord
  have hzero : 0 < objects.length := by
    rw [hcount]
    decide
  have hobj : CallObject 1 [] objects[0] := by
    have hall := hwrote.objects.get (by rw [hlength]; decide) hzero
    rwa [List.get_eq_getElem, List.get_eq_getElem, (List.getElem?_eq_some_iff.mp hfirst).2] at hall
  have hat := ObjectFile.object_at htable.file (List.getElem?_eq_getElem hzero)
  obtain ⟨order, -, hfilled⟩ := hobj
  rw [List.take_zero, List.flatten_nil, List.length_nil, Nat.add_zero, hfilled] at hat
  have hrow : RowCell r (2 ^ 28) _ 0 "a" :=
    ⟨htable.layout, htable.ext, hrecord, Reader.slot_of_nodup (by rw [htable.keys_eq]; decide) (by rw [htable.keys_eq]; rfl)⟩
  have habsent : objectSlots (callCells []) 0 = false := rfl
  have hnone := (hrow.reads_absent (resolveSlot_filled_absent hat htable.small habsent)).1
  have hseven : r.i64At (2 ^ 28) "a" = .ok 7 := (hreads.written ⟨0, .i64 7⟩ List.mem_cons_self "a" rfl).1
  rw [hnone] at hseven
  cases hseven

end Nyxis
