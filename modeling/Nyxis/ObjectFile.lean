import Nyxis.RowGetters
import Nyxis.RecordFrames

/-!
# ObjectFile — v1.2 row files, object by object

The data sector of a v1.2 row file is its objects, one after the other, and its tail-index has an entry
for each of them.  `ObjectTable` is what a reader finds in the file.

* `finish_objects`: the file that `finish` makes of the objects of a writer.
* `ObjectFile.opens`: the file is opened.
* `ObjectTable.record`: the tail-index leads to the objects that start below 4 GiB.
-/

namespace Nyxis

open Lib Lib.Outcome

/-- Where the data sector of a v1.2 file starts. -/
def sectorStart (keys : List String) (sigils : List UInt8) : ℕ := 32 + (buildSchema keys sigils).length

/-- Where each object starts in the data sector. -/
def objectStarts (objects : List Bytes) : List ℕ := startsFrom 0 (objects.map List.length)

/-- The offsets in the tail-index; those in the data sector are kept in a `u32`. -/
def indexOffsets (start : ℕ) (objects : List Bytes) : List ℕ := (objectStarts objects).map fun off => start + off % 2 ^ 32

/-- What follows the schema of a v1.2 file, without the footer. -/
def objectsBody (start : ℕ) (objects : List Bytes) : Bytes :=
  objects.flatten ++ (leBytes 4 objects.length ++ tailEntries (indexOffsets start objects) ++
    leBytes 8 (start + objects.flatten.length))

/-- The v1.2 file of some objects. -/
abbrev ObjectFile (keys : List String) (sigils : List UInt8) (objects : List Bytes) (d : Bytes) : Prop :=
  Framed d VERSION FLAG_SCHEMA_EMBEDDED 0 (buildSchema keys sigils) (objectsBody (sectorStart keys sigils) objects)

@[simp] theorem objectStarts_length (objects : List Bytes) : (objectStarts objects).length = objects.length := by
  rw [objectStarts, startsFrom_length, List.length_map]

@[simp] theorem indexOffsets_length (start : ℕ) (objects : List Bytes) :
    (indexOffsets start objects).length = objects.length := by
  rw [indexOffsets, List.length_map, objectStarts_length]

/-- An object starts behind the ones before it. -/
theorem objectStarts_getElem? {objects : List Bytes} {i : ℕ} (hi : i < objects.length) :
    (objectStarts objects)[i]? = some (objects.take i).flatten.length := by
  rw [objectStarts, startsFrom_getElem? 0 (by rwa [List.length_map]), Nat.zero_add, List.length_flatten, List.map_take]

/-- `finish` seals the objects of a writer. -/
theorem finish_objects {w : NxsWriter} {objects : List Bytes} {file : Slice} (hpacked : Packed w objects)
    (h : w.finish = .ok file) : ObjectFile w.keys w.slotSigils objects file.bytes := by
  obtain ⟨_, -, h⟩ := bind_eq_ok.mp h
  rw [hpacked.plain] at h
  dsimp only at h
  rw [tailIndexRecords_eq] at h
  have hframed := sealRow_eq_ok (by decide) h
  have hoffsets : w.recordOffsets.map (32 + (buildSchema w.keys w.slotSigils).length + ·) =
      indexOffsets (sectorStart w.keys w.slotSigils) objects := by
    rw [hpacked.recordOffsets, List.map_map]
    rfl
  rw [hoffsets, indexOffsets_length, hpacked.buf] at hframed
  exact hframed

namespace ObjectFile

variable {keys : List String} {sigils : List UInt8} {objects : List Bytes} {d : Bytes}
  (h : ObjectFile keys sigils objects d)

include h

/-- An object, at its start. -/
theorem object_at {i : ℕ} {object : Bytes} (hi : objects[i]? = some object) :
    At d (sectorStart keys sigils + (objects.take i).flatten.length) object := by
  have hdata : At d (sectorStart keys sigils) objects.flatten := (at_append.mp h.body_at).1
  have hat := at_flatMap (f := id) hi
  rw [List.flatMap_id, List.flatMap_id] at hat
  exact hdata.trans hat

/-- The entry of an object in the tail-index. -/
theorem entry_at {i : ℕ} (hi : i < objects.length) :
    At d (sectorStart keys sigils + objects.flatten.length + 4 + i * 10 + 2)
      (leBytes 8 (sectorStart keys sigils + (objects.take i).flatten.length % 2 ^ 32)) := by
  have hbody := h.body_at
  rw [objectsBody, at_append, at_append, at_append, leBytes_length] at hbody
  obtain ⟨-, ⟨-, hentries⟩, -⟩ := hbody
  have hentry : (indexOffsets (sectorStart keys sigils) objects).zipIdx[i]? =
      some (sectorStart keys sigils + (objects.take i).flatten.length % 2 ^ 32, i) := by
    rw [List.getElem?_zipIdx, indexOffsets, List.getElem?_map, objectStarts_getElem? hi, Nat.zero_add]
    rfl
  have hat := hentries.trans (at_flatMap_const (w := 10) (f := fun e : ℕ × ℕ => leBytes 2 e.2 ++ leBytes 8 e.1)
    (by simp) hentry)
  rw [at_append, leBytes_length] at hat
  exact hat.2

/-- The count in front of the entries, and the pointer to it behind them. -/
theorem tail_at : At d (sectorStart keys sigils + objects.flatten.length) (leBytes 4 objects.length) ∧
    At d (d.length - 12) (leBytes 8 (sectorStart keys sigils + objects.flatten.length)) ∧
      sectorStart keys sigils + objects.flatten.length + 4 + objects.length * 10 + 12 = d.length := by
  have hlen := h.length
  have hbody := h.body_at
  rw [objectsBody, at_append, at_append, at_append] at hbody
  obtain ⟨-, ⟨hcount, -⟩, hptr⟩ := hbody
  rw [objectsBody] at hlen
  simp only [List.length_append, leBytes_length, tailEntries_length, indexOffsets_length] at hlen hptr
  have hend : sectorStart keys sigils + objects.flatten.length + 4 + objects.length * 10 + 12 = d.length := by
    unfold sectorStart
    omega
  rw [show 32 + (buildSchema keys sigils).length + objects.flatten.length + (4 + objects.length * 10) = d.length - 12 by
    unfold sectorStart at hend; omega] at hptr
  exact ⟨hcount, hptr, hend⟩

end ObjectFile

/-- The opened v1.2 file of some objects. -/
structure ObjectTable (r : Reader) (keys : List String) (sigils : List UInt8) (objects : List Bytes) : Prop where
  file : ObjectFile keys sigils objects r.data
  small : r.data.length < 2 ^ 63
  keys_eq : r.keys = keys
  keySigils : r.keySigils = schemaSigils keys.length sigils
  layout : r.layout = .row
  ext : r.extSchema = none
  deltaTail : r.deltaTail = none
  recordCount : r.recordCount = objects.length % 2 ^ 32
  tailStart : r.tailStart = sectorStart keys sigils + objects.flatten.length + 4

theorem ObjectFile.opens {keys : List String} {sigils : List UInt8} {objects : List Bytes} {file : Slice}
    (h : ObjectFile keys sigils objects file.bytes) (hlen : keys.length < 65536) (hnul : ∀ k ∈ keys, NulFree k) :
    ∃ r, Reader.new file = .ok r ∧ r.data = file.bytes ∧ ObjectTable r keys sigils objects := by
  have hsmall := file.small
  have hnew := Reader.new_basic h.bytes (by decide) (by decide) rfl rfl rfl hlen hnul
  obtain ⟨hcount, hptr, hend⟩ := ObjectFile.tail_at h
  have hstart : 32 ≤ sectorStart keys sigils := Nat.le_add_right _ _
  rw [Reader.openTail] at hnew
  dsimp only at hnew
  rw [if_neg (by decide), if_neg (by decide), if_pos rfl, ensure_of (by omega), ok_bind,
    readLE_leBytes hptr (by omega) hsmall, ok_bind, ensure_of (by omega), ok_bind, if_neg (by decide),
    readLE_leBytes_mod hcount hsmall, ok_bind] at hnew
  exact ⟨_, hnew, rfl, h, hsmall, rfl, rfl, rfl, rfl, rfl, rfl, rfl⟩

/-- The tail-index leads to where an object starts, cut to a `u32`. -/
theorem ObjectTable.record {r : Reader} {keys : List String} {sigils : List UInt8} {objects : List Bytes}
    (h : ObjectTable r keys sigils objects) {i : ℕ} (hi : i < objects.length % 2 ^ 32) :
    r.record i = .ok (sectorStart keys sigils + (objects.take i).flatten.length % 2 ^ 32) := by
  have hlt : i < objects.length := hi.trans_le (Nat.mod_le _ _)
  have hentry := ObjectFile.entry_at h.file hlt
  obtain ⟨-, -, hend⟩ := ObjectFile.tail_at h.file
  have hlen := hentry.le
  have hsmall := h.small
  rw [leBytes_length] at hlen
  rw [Reader.record, h.recordCount, ensure_of (by omega), ok_bind, if_pos h.layout, Reader.rowRecordOffset, h.deltaTail]
  dsimp only
  rw [h.tailStart, usizeMul_of (by omega), ok_bind, usizeAdd_of (by omega), ok_bind, usizeAdd_of (by omega), ok_bind]
  have hcut := Nat.mod_lt (objects.take i).flatten.length (show 0 < 2 ^ 32 by decide)
  exact getLE_leBytes hentry (by omega) hsmall

end Nyxis
