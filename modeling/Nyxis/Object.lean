import Nyxis.Writer

/-!
# Object — the bytes of a v1.2 object

`objectBytes n cells` is an object over `n` slots holding the given cells: a header with the length, the
presence mask and the offset table, and the values.  `Writing` is the invariant of a writer that has an
object open.

* `Writing.mark`, `Writing.close`: writing slots in ascending order and closing the object leaves
  `objectBytes` behind the bytes that were there.
-/

namespace Nyxis

open Lib Lib.Outcome

/-! ## The layout -/

/-- The values of an object, one after the other. -/
def objectValues (cells : List (ℕ × Bytes)) : Bytes := cells.flatMap Prod.snd

/-- Bytes of the magic number, the length, the mask and the offset table. -/
def objectHeaderLen (n : ℕ) : ℕ := 8 + bitmaskLen n + n * 2

/-- Where the values of an object start. -/
def objectStart (n : ℕ) : ℕ := objectHeaderLen n + padLen 8 (objectHeaderLen n)

/-- The start of each value, as the `u16` it is cast to. -/
def objectOffsets (n : ℕ) (cells : List (ℕ × Bytes)) : List ℕ :=
  (List.range cells.length).map fun i => (objectStart n + (objectValues (cells.take i)).length) % 65536

/-- The slots that are present. -/
def objectSlots (cells : List (ℕ × Bytes)) (slot : ℕ) : Bool := cells.any fun c => c.1 == slot

def objectLen (n : ℕ) (cells : List (ℕ × Bytes)) : ℕ := objectStart n + (objectValues cells).length

def objectTable (n : ℕ) (cells : List (ℕ × Bytes)) : Bytes := (objectOffsets n cells).flatMap (leBytes 2)

def objectBytes (n : ℕ) (cells : List (ℕ × Bytes)) : Bytes :=
  leBytes 4 MAGIC_OBJ ++ leBytes 4 (objectLen n cells) ++
    maskBytes (bitmaskLen n) (objectSlots cells) ++ objectTable n cells ++
    zeros (n * 2 - cells.length * 2) ++ zeros (padLen 8 (objectHeaderLen n)) ++ objectValues cells

/-- Bytes between the mask of an object and its values. -/
def tableRoom (n : ℕ) : ℕ := n * 2 + padLen 8 (objectHeaderLen n)

/-- An object with the given mask and offset table; a long table runs over what follows it. -/
def closedObject (n : ℕ) (mask table values : Bytes) : Bytes :=
  leBytes 4 MAGIC_OBJ ++ leBytes 4 (objectStart n + values.length) ++ mask ++ table ++
    (zeros (tableRoom n) ++ values).drop table.length

@[simp] theorem objectTable_length (n : ℕ) (cells : List (ℕ × Bytes)) :
    (objectTable n cells).length = cells.length * 2 := by
  rw [objectTable, length_flatMap_const fun m _ => leBytes_length 2 m]
  simp [objectOffsets]

@[simp] theorem objectBytes_length {n : ℕ} {cells : List (ℕ × Bytes)} (h : cells.length ≤ n) :
    (objectBytes n cells).length = objectLen n cells := by
  simp only [objectBytes, List.length_append, leBytes_length, maskBytes_length, objectTable_length,
    zeros_length, objectLen, objectStart, objectHeaderLen]
  omega

/-- A table of at most all slots leaves the values alone. -/
theorem objectBytes_eq {n : ℕ} {cells : List (ℕ × Bytes)} (h : cells.length ≤ n) : objectBytes n cells =
    closedObject n (maskBytes (bitmaskLen n) (objectSlots cells)) (objectTable n cells) (objectValues cells) := by
  have hzeros : (zeros (tableRoom n) ++ objectValues cells).drop (objectTable n cells).length =
      zeros (n * 2 - cells.length * 2) ++ (zeros (padLen 8 (objectHeaderLen n)) ++ objectValues cells) := by
    rw [objectTable_length, List.drop_append_of_le_length (by rw [zeros_length, tableRoom]; omega), zeros_drop,
      ← List.append_assoc, zeros_append, tableRoom, Nat.sub_add_comm (by omega)]
  rw [closedObject, hzeros, objectBytes, objectLen]
  simp only [List.append_assoc]

theorem objectStart_dvd (n : ℕ) : 8 ∣ objectStart n := padLen_dvd (by decide) _

theorem objectValues_concat (cells : List (ℕ × Bytes)) (c : ℕ × Bytes) :
    objectValues (cells ++ [c]) = objectValues cells ++ c.2 := by
  simp [objectValues]

theorem objectOffsets_concat (n : ℕ) (cells : List (ℕ × Bytes)) (c : ℕ × Bytes) :
    objectOffsets n (cells ++ [c]) =
      objectOffsets n cells ++ [(objectStart n + (objectValues cells).length) % 65536] := by
  unfold objectOffsets
  rw [List.length_append, List.length_singleton, List.range_succ, List.map_append]
  congr 1
  · refine List.map_congr_left fun i hi => ?_
    rw [List.mem_range] at hi
    rw [List.take_append_of_le_length (by omega)]
  · simp

theorem objectSlots_concat (cells : List (ℕ × Bytes)) (c : ℕ × Bytes) :
    objectSlots (cells ++ [c]) = fun i => i == c.1 || objectSlots cells i := by
  funext i
  have hcomm : (c.1 == i) = (i == c.1) := by
    rw [Bool.eq_iff_iff, beq_iff_eq, beq_iff_eq, eq_comm]
  rw [objectSlots, List.any_append, List.any_cons, List.any_nil, Bool.or_false, hcomm, Bool.or_comm]
  rfl

theorem emptyBitmask_eq (n : ℕ) : emptyBitmask n = maskBytes (bitmaskLen n) fun _ => false := by
  have hpos : 1 ≤ bitmaskLen n := le_max_right _ _
  refine List.ext_getElem? fun i => ?_
  by_cases hi : i < bitmaskLen n
  · rw [maskBytes_getElem? _ hi, emptyBitmask]
    by_cases hlast : i < bitmaskLen n - 1
    · rw [List.getElem?_append_left (by simpa using hlast), List.getElem?_replicate, if_pos hlast]
      have hmore : decide (i + 1 < bitmaskLen n) = true := decide_eq_true (by omega)
      rw [hmore]
      rfl
    · obtain rfl : i = bitmaskLen n - 1 := by omega
      have hmore : decide (bitmaskLen n - 1 + 1 < bitmaskLen n) = false :=
        decide_eq_false (by omega)
      rw [List.getElem?_append_right (by simp), List.length_replicate, Nat.sub_self, hmore]
      rfl
  · have hlen : (emptyBitmask n).length = bitmaskLen n := by
      rw [emptyBitmask, List.length_append, List.length_replicate, List.length_singleton]
      omega
    rw [List.getElem?_eq_none (by omega), List.getElem?_eq_none (by rw [maskBytes_length]; omega)]

/-! ## The writer with an object open -/

/-- The header reserved when an object is opened. -/
def openHeader (n : ℕ) : Bytes :=
  padTo 8 (leBytes 4 MAGIC_OBJ ++ leBytes 4 0 ++ emptyBitmask n ++ zeros (n * 2))

@[simp] theorem emptyBitmask_length (n : ℕ) : (emptyBitmask n).length = bitmaskLen n := by
  rw [emptyBitmask_eq, maskBytes_length]

@[simp] theorem openHeader_length (n : ℕ) : (openHeader n).length = objectStart n := by
  rw [openHeader, padTo_length]
  simp only [List.length_append, leBytes_length, emptyBitmask_length, zeros_length]
  rfl

/-- A v1.2 writer has, behind `base`, one open object with the given cells. -/
structure Writing (w : NxsWriter) (base : Bytes) (cells : List (ℕ × Bytes)) : Prop where
  plain : w.compact = none
  buf : w.buf = base ++ openHeader w.keys.length ++ objectValues cells
  frame : ∃ f, w.frames = [f] ∧ f.start = base.length ∧
    f.bitmask = maskBytes (bitmaskLen w.keys.length) (objectSlots cells) ∧
    f.offsetTable = objectOffsets w.keys.length cells ∧ f.needsSort = false ∧
    (f.lastSlot = -1 ∨ ∃ c ∈ cells, f.lastSlot = c.1)

/-- The parts of a writer that do not change while the cells of an object are written. -/
structure SameRecords (w w' : NxsWriter) : Prop where
  keys : w'.keys = w.keys
  compact : w'.compact = w.compact
  recordOffsets : w'.recordOffsets = w.recordOffsets

theorem SameRecords.refl (w : NxsWriter) : SameRecords w w := ⟨rfl, rfl, rfl⟩

theorem SameRecords.trans {w w' w'' : NxsWriter} (h : SameRecords w w') (h' : SameRecords w' w'') :
    SameRecords w w'' :=
  ⟨h'.keys.trans h.keys, h'.compact.trans h.compact, h'.recordOffsets.trans h.recordOffsets⟩

namespace Writing

variable {w : NxsWriter} {base : Bytes} {cells : List (ℕ × Bytes)}

theorem begin_object (hplain : w.compact = none) (hframes : w.frames = []) :
    Writing w.beginObject w.buf [] ∧ w.beginObject.keys = w.keys ∧
      w.beginObject.recordOffsets = w.recordOffsets ++ [w.buf.length % 2 ^ 32] := by
  have hbegin : w.beginObject = { w with
      buf := w.buf ++ openHeader w.keys.length
      frames := [⟨w.buf.length, emptyBitmask w.keys.length, [], -1, false, [], []⟩]
      recordOffsets := w.recordOffsets ++ [w.buf.length % 2 ^ 32] } := by
    rw [NxsWriter.beginObject, hplain, hframes]
    rfl
  rw [hbegin]
  refine ⟨⟨hplain, ?_, _, rfl, rfl, ?_, rfl, rfl, Or.inl rfl⟩, rfl, rfl⟩
  · simp [objectValues]
  · rw [emptyBitmask_eq]
    rfl

/-- The tracking fields of a writer play no part in the invariant. -/
theorem of_same {w' : NxsWriter} (h : Writing w base cells) (hkeys : w'.keys = w.keys)
    (hcompact : w'.compact = w.compact) (hbuf : w'.buf = w.buf) (hframes : w'.frames = w.frames) :
    Writing w' base cells := by
  refine ⟨hcompact.trans h.plain, ?_, ?_⟩
  · rw [hbuf, hkeys, h.buf]
  · rw [hframes, hkeys]
    exact h.frame

/-- Writing a slot behind the ones written adds its cell. -/
theorem mark (h : Writing w base cells) {slot : ℕ} (hslot : slot / 7 < bitmaskLen w.keys.length)
    (hasc : ∀ c ∈ cells, c.1 < slot) (bytes : Bytes) :
    ∃ w', w.writeBytesAt slot bytes = .ok w' ∧ Writing w' base (cells ++ [(slot, bytes)]) ∧
      SameRecords w w' ∧ w'.slotSigils = w.slotSigils := by
  obtain ⟨f, hf, hstart, hmask, htable, hsort, hlast⟩ := h.frame
  obtain ⟨byte, hbyte⟩ : ∃ byte, f.bitmask[slot / 7]? = some byte := by
    rw [hmask, maskBytes_getElem? _ hslot]
    exact ⟨_, rfl⟩
  have hlen : w.buf.length - base.length = objectStart w.keys.length + (objectValues cells).length := by
    rw [h.buf]
    simp only [List.length_append, openHeader_length]
    omega
  have hmark : w.writeBytesAt slot bytes = .ok { w with
      buf := w.buf ++ bytes
      frames := [{ f with
        bitmask := f.bitmask.set (slot / 7) (byte ||| UInt8.ofNat (2 ^ (slot % 7)))
        offsetTable := f.offsetTable ++ [(w.buf.length - f.start) % 65536]
        lastSlot := slot
        needsSort := f.needsSort || decide ((slot : ℤ) < f.lastSlot)
        slotOffsets := f.slotOffsets ++ [(slot, w.buf.length % 2 ^ 32)] }] } := by
    rw [NxsWriter.writeBytesAt, NxsWriter.markSlot, hf]
    dsimp only
    rw [index, hbyte, ok_bind, ok_bind]
  refine ⟨_, hmark, ⟨h.plain, ?_, ?_⟩, ⟨rfl, rfl, rfl⟩, rfl⟩
  · show w.buf ++ bytes = _
    rw [h.buf, objectValues_concat]
    simp only [List.append_assoc]
  · have hset := maskBytes_set (objectSlots cells) hslot (hmask ▸ hbyte)
    have hsorted : (f.needsSort || decide ((slot : ℤ) < f.lastSlot)) = false := by
      rw [hsort, Bool.false_or, decide_eq_false_iff_not]
      rcases hlast with hl | ⟨c, hc, hl⟩
      · omega
      · have := hasc c hc
        omega
    refine ⟨_, rfl, hstart, ?_, ?_, hsorted, Or.inr ⟨(slot, bytes), by simp, rfl⟩⟩
    · show f.bitmask.set _ _ = _
      rw [objectSlots_concat, hmask, hset]
    · show f.offsetTable ++ _ = _
      rw [objectOffsets_concat, htable, hstart, hlen]

theorem patch_eq {buf b' : Bytes} {off : ℕ} (a b c : Bytes) (hbuf : buf = a ++ (b ++ c))
    (hoff : off = a.length) (hb : b.length = b'.length) : patch buf off b' = .ok (a ++ (b' ++ c)) := by
  subst hbuf hoff
  have hle : a.length + b'.length ≤ (a ++ (b ++ c)).length := by
    simp only [List.length_append]
    omega
  rw [patch, demand_of hle, ok_bind, List.take_left, ← hb, ← List.drop_drop, List.drop_left,
    List.drop_left, List.append_assoc]

/-- Closing the object patches its header: the length, the mask and the offset table. -/
theorem endObjectBy_eq {sorter : SlotSort} {f : Frame} {frames : List Frame} {values : Bytes} {offsets : List ℕ}
    (hplain : w.compact = none) (hframes : w.frames = f :: frames) (hstart : f.start = base.length)
    (hbuf : w.buf = base ++ openHeader w.keys.length ++ values) (hmask : f.bitmask.length = bitmaskLen w.keys.length)
    (hoffs : NxsWriter.frameOffsets sorter f = .ok offsets) (hused : f.offsetTable.length = offsets.length)
    (hfit : offsets.length * 2 ≤ tableRoom w.keys.length + values.length) :
    w.endObjectBy sorter = .ok { w with
      buf := base ++ closedObject w.keys.length f.bitmask (offsets.flatMap (leBytes 2)) values
      frames := frames } := by
  generalize hkeys : w.keys.length = n at *
  have htotal : w.buf.length - f.start = objectStart n + values.length := by
    rw [hbuf, hstart]
    simp only [List.length_append, openHeader_length]
    omega
  have htable : (offsets.flatMap (leBytes 2)).length = offsets.length * 2 :=
    length_flatMap_const fun m _ => leBytes_length 2 m
  generalize htab : offsets.flatMap (leBytes 2) = table at *
  have hroom : openHeader n = leBytes 4 MAGIC_OBJ ++ leBytes 4 0 ++ emptyBitmask n ++ zeros (tableRoom n) := by
    have hpad : (leBytes 4 MAGIC_OBJ ++ leBytes 4 0 ++ emptyBitmask n ++ zeros (n * 2)).length = objectHeaderLen n := by
      simp only [List.length_append, leBytes_length, emptyBitmask_length, zeros_length, objectHeaderLen]
    rw [openHeader, padTo, hpad, tableRoom, List.append_assoc _ (zeros (n * 2)), zeros_append]
  -- the length, the mask, the table and what is left of it are patched one after the other
  have h1 : patch w.buf (f.start + 4) (leBytes 4 (objectStart n + values.length)) =
      .ok (base ++ leBytes 4 MAGIC_OBJ ++ (leBytes 4 (objectStart n + values.length) ++ (emptyBitmask n ++
        (zeros (tableRoom n) ++ values)))) := by
    refine patch_eq _ (leBytes 4 0) _ ?_ (by simp [hstart]) (by simp)
    rw [hbuf, hroom]
    simp only [List.append_assoc]
  have h2 : patch (base ++ leBytes 4 MAGIC_OBJ ++ (leBytes 4 (objectStart n + values.length) ++ (emptyBitmask n ++
        (zeros (tableRoom n) ++ values)))) (f.start + 8) f.bitmask =
      .ok (base ++ leBytes 4 MAGIC_OBJ ++ leBytes 4 (objectStart n + values.length) ++ (f.bitmask ++
        (zeros (tableRoom n) ++ values))) := by
    refine patch_eq _ (emptyBitmask n) _ ?_ (by simp [hstart]) (by rw [hmask, emptyBitmask_length])
    simp only [List.append_assoc]
  have h3 : patch (base ++ leBytes 4 MAGIC_OBJ ++ leBytes 4 (objectStart n + values.length) ++ (f.bitmask ++
        (zeros (tableRoom n) ++ values))) (f.start + 8 + f.bitmask.length) table =
      .ok (base ++ leBytes 4 MAGIC_OBJ ++ leBytes 4 (objectStart n + values.length) ++ f.bitmask ++
        (table ++ (zeros (tableRoom n) ++ values).drop table.length)) := by
    refine patch_eq _ ((zeros (tableRoom n) ++ values).take table.length) _ ?_ (by simp [hstart]; omega) ?_
    · rw [List.take_append_drop]
      simp only [List.append_assoc]
    · rw [List.length_take, List.length_append, zeros_length]
      omega
  -- behind the table of all slots only zeros are left to clear
  obtain ⟨rest, hrest⟩ : ∃ rest, (zeros (tableRoom n) ++ values).drop table.length =
      zeros (n * 2 - table.length) ++ rest := by
    by_cases hle : table.length ≤ n * 2
    · refine ⟨zeros (padLen 8 (objectHeaderLen n)) ++ values, ?_⟩
      rw [List.drop_append_of_le_length (by rw [zeros_length, tableRoom]; omega), zeros_drop, ← List.append_assoc,
        zeros_append, tableRoom, Nat.sub_add_comm hle]
    · exact ⟨_, by rw [Nat.sub_eq_zero_of_le (by omega), zeros_zero, List.nil_append]⟩
  have h4 : patch (base ++ leBytes 4 MAGIC_OBJ ++ leBytes 4 (objectStart n + values.length) ++ f.bitmask ++
        (table ++ (zeros (tableRoom n) ++ values).drop table.length))
        (f.start + 8 + f.bitmask.length + offsets.length * 2) (zeros (n * 2 - offsets.length * 2)) =
      .ok (base ++ leBytes 4 MAGIC_OBJ ++ leBytes 4 (objectStart n + values.length) ++ f.bitmask ++ table ++
        (zeros (n * 2 - offsets.length * 2) ++ rest)) := by
    refine patch_eq _ (zeros (n * 2 - offsets.length * 2)) _ ?_ (by simp [hstart, htable]; omega) rfl
    rw [hrest, htable]
    simp only [List.append_assoc]
  rw [NxsWriter.endObjectBy, hframes]
  dsimp only
  rw [hplain]
  dsimp only
  rw [htotal, h1, ok_bind, h2, ok_bind, hoffs, ok_bind, htab, h3, ok_bind, hused, hkeys, h4, ok_bind, ← htable, ← hrest,
    closedObject]
  simp only [List.append_assoc]

/-- Closing the object leaves its bytes behind those that were there. -/
theorem close (h : Writing w base cells) (hn : cells.length ≤ w.keys.length) :
    ∃ w', w.endObject = .ok w' ∧ w'.buf = base ++ objectBytes w.keys.length cells ∧ w'.frames = [] ∧
      SameRecords w w' ∧ w'.slotSigils = w.slotSigils := by
  obtain ⟨hplain, hbuf, f, hf, hstart, hmask, htable, hsort, -⟩ := h
  have hoffs : NxsWriter.frameOffsets SlotSort.stable f = .ok (objectOffsets w.keys.length cells) := by
    rw [NxsWriter.frameOffsets, if_neg (by simp [hsort]), htable]
  have hcount : (objectOffsets w.keys.length cells).length = cells.length := by
    simp [objectOffsets]
  have hend := endObjectBy_eq hplain hf hstart hbuf (by rw [hmask, maskBytes_length]) hoffs (by rw [htable])
    (by rw [hcount, tableRoom]; omega)
  refine ⟨_, hend, ?_, rfl, ⟨rfl, rfl, rfl⟩, rfl⟩
  rw [objectBytes_eq hn, hmask]
  rfl

end Writing

end Nyxis
