import Nyxis.CallRecords
import Nyxis.Compact.Sparse
import Nyxis.Compiled

/-!
# OffsetTables — where offsets are cut

Offset tables have 16 bits for an offset and the writer keeps the starts of records in 32 bits; nothing
checks that the offsets fit.

* `tableTrue_iff`, `compiledTrue_iff`, `sparseTrue_iff`: when the offset table of an object is right, for
  each of the three encoders.
* `indexTrue_iff`: when the tail-index of a file is right.
-/

namespace Nyxis

open Lib Lib.Outcome

/-! ## Objects of typed writes -/

/-- Every entry of the offset table is the distance of its value from the start of the object. -/
def TableTrue (n : ℕ) (calls : List Call) (object : Bytes) : Prop :=
  ∃ order, TableOrder n (callCells calls) order ∧
    ∀ j e, order[j]? = some e → word object (8 + bitmaskLen n + j * 2) 2 = e.2

section Table

variable {n : ℕ} {calls : List Call} {order : List (ℕ × ℕ)}

/-- What the offset table has as an entry. -/
theorem filledObject_word {j : ℕ} {e : ℕ × ℕ} (he : order[j]? = some e) :
    word (filledObject n (callCells calls) (order.map fun e => e.2 % 65536)) (8 + bitmaskLen n + j * 2) 2 = e.2 % 65536 := by
  have hentry := filledObject_entry (at_self (filledObject n (callCells calls) (order.map fun e => e.2 % 65536)))
    (i := j) (o := e.2 % 65536) (by rw [List.getElem?_map, he, Option.map_some])
  rw [Nat.zero_add] at hentry
  exact word_leBytes hentry (Nat.mod_lt _ (by decide))

/-- An offset table has no distance of 64 KiB and more. -/
theorem TableTrue.lt {object : Bytes} (h : TableTrue n calls object) :
    ∀ e ∈ cellPlaces (objectStart n) (callCells calls), e.2 < 65536 := by
  obtain ⟨order, horder, hentries⟩ := h
  intro e he
  obtain ⟨j, hj⟩ := List.getElem?_of_mem (horder.perm.mem_iff.mpr he)
  rw [← hentries j e hj]
  exact word_lt _ _ 2

end Table

/-- The offset table of an object is right exactly where all values stand in its first 64 KiB. -/
theorem tableTrue_iff {sorter : SlotSort} {keys : List String} {w w' : NxsWriter} {calls : List Call} {object : Bytes}
    (h : RowWriter keys w) (hw : w.writeObject sorter calls = .ok w') (hbuf : w'.buf = w.buf ++ object) :
    TableTrue keys.length calls object ↔ ∀ e ∈ cellPlaces (objectStart keys.length) (callCells calls), e.2 < 65536 := by
  constructor
  · exact TableTrue.lt
  · intro hplaces
    obtain ⟨hslots, _, -, hsort⟩ := writeObject_eq_ok h sorter hw
    obtain ⟨order, w₁, horder, hw₁, hwrote⟩ := writeObject_ok h sorter hslots
      (hsort fun e he => Nat.lt_trans (hplaces e he) (by decide))
    obtain rfl : w' = w₁ := Outcome.ok.inj (hw.symm.trans hw₁)
    obtain rfl : object = _ := List.append_cancel_left (hbuf.symm.trans hwrote.buf)
    refine ⟨order, horder, fun j e he => ?_⟩
    rw [filledObject_word he, Nat.mod_eq_of_lt (hplaces e (horder.perm.mem_iff.mp (List.mem_of_getElem? he)))]

/-! ## Objects of the compiler -/

/-- Every entry of the offset table is the distance of its value, which stands there. -/
def CompiledTrue (n : ℕ) (values : List Bytes) (object : Bytes) : Prop :=
  ∀ i value, values[i]? = some value → ∃ p, word object (8 + bitmaskLen n + i * 2) 2 = p ∧
    p = Compiler.valueStart n values i ∧ At object p value

theorem compiledTrue_iff {encode : Value → Res Bytes} {dict : List String} {fields : List Field} {sigils : List UInt8}
    {object : Bytes} (h : Compiler.encodeObject encode dict fields = .ok (sigils, object)) :
    ∃ values, Compiler.Encoded encode fields values ∧
      (CompiledTrue dict.length values object ↔ ∀ i < values.length, Compiler.valueStart dict.length values i < 65536) := by
  obtain ⟨resolved, values, hres, henc, rfl⟩ := Compiler.encodeObject_parts h
  have hslots : ∀ s ∈ resolved.map Prod.fst, s < dict.length := by
    intro s hs
    obtain ⟨e, he, rfl⟩ := List.mem_map.mp hs
    obtain ⟨i, hi, rfl⟩ := List.getElem_of_mem he
    exact Compiler.resolveField_lt (hres.get (hres.length_eq ▸ hi) hi)
  have hself := at_self (Compiler.objectOf dict.length (resolved.map Prod.fst) values)
  obtain ⟨-, -, hentries, -⟩ := Compiler.at_objectOf hslots hself
  have hword : ∀ i < values.length, word (Compiler.objectOf dict.length (resolved.map Prod.fst) values)
      (8 + bitmaskLen dict.length + i * 2) 2 = Compiler.valueStart dict.length values i % 65536 := by
    intro i hi
    have hentry := hentries i hi
    rw [Nat.zero_add] at hentry
    exact word_leBytes hentry (Nat.mod_lt _ (by decide))
  refine ⟨values, henc, ?_, ?_⟩
  · intro htrue i hi
    obtain ⟨p, hp, rfl, -⟩ := htrue i _ (List.getElem?_eq_getElem hi)
    rw [← hp]
    exact word_lt _ _ 2
  · intro hsmall i value hvalue
    have hi := (List.getElem?_eq_some_iff.mp hvalue).1
    refine ⟨_, ?_, rfl, ?_⟩
    · rw [hword i hi, Nat.mod_eq_of_lt (hsmall i hi)]
    · have hat := Compiler.at_value hslots hself hvalue
      rwa [Nat.zero_add] at hat

/-! ## Compact records -/

section Sparse

variable (cells : List (ℕ × CompactCell)) (sch : ExtendedSchema) (opts : CompactOptions)

/-- Which slots of a compact record have a cell. -/
def recordPresent : List Bool := (List.range sch.keys.length).map fun i => cells.any fun c => c.1 == i

/-- A dense record has no offset table. -/
def recordDense : Bool := opts.denseFrames && (recordPresent cells sch).all id

/-- The slots with an entry in the offset table of a sparse record. -/
def recordTableSlots : List ℕ :=
  sparseOffsetTableSlots ((List.range sch.keys.length).filter fun i => (recordPresent cells sch).getD i false)
    (RowCellPlan.new sch opts.preambleFlags)

/-- Where the offset table of a sparse record starts. -/
def recordTableStart : ℕ :=
  8 + ((if opts.denseFrames then [0] else []) ++ buildBitmaskBytes (recordPresent cells sch)).length

/-- Where its body starts. -/
def recordBodyStart : ℕ := alignTo (recordTableStart cells sch opts + (recordTableSlots cells sch opts).length * 2) 8

/-- The body of a sparse record in front of slot `fi`. -/
def recordPrefix (fi : ℕ) : Res SparseBody :=
  sparsePrefix cells (recordPresent cells sch) sch (RowCellPlan.new sch opts.preambleFlags) fi

/-- Every entry of the offset table of a record is the distance of its slot's value, which stands there. -/
def SparseTrue (object : Bytes) : Prop :=
  recordDense cells sch opts = false → ∀ j fi, (recordTableSlots cells sch opts)[j]? = some fi → ∃ st bytes p,
    recordPrefix cells sch opts fi = .ok st ∧
      slotBytes cells (recordPresent cells sch) sch (RowCellPlan.new sch opts.preambleFlags) fi = .ok bytes ∧
      p = recordBodyStart cells sch opts + slotPlace cells sch (RowCellPlan.new sch opts.preambleFlags) st.body.length fi ∧
      At object p bytes ∧ word object (recordTableStart cells sch opts + j * 2) 2 = p

/-- Behind a body of the given length the value of slot `fi` is put where its noted start says: a cell needs no
further padding, and the word of the packed bools is padded by as many bytes as the bit of its first present bool
is away from the start of the word. -/
def StartKept (plan : RowCellPlan) (bodyLen fi : ℕ) : Prop :=
  if plan.isPacked fi then padLen plan.boolWordBytes bodyLen = plan.boolSlots.idxOf fi / 8
  else padLen (((cellAt cells fi).map (appendAlign sch plan fi)).getD 1) (sparseCellBodyStart bodyLen fi sch plan) = 0

instance (plan : RowCellPlan) (bodyLen fi : ℕ) : Decidable (StartKept cells sch plan bodyLen fi) :=
  inferInstanceAs (Decidable (if plan.isPacked fi then _ else _))

/-- The starts of a sparse record are kept, and all its values stand in its first 64 KiB. -/
def SparseFits : Prop :=
  recordDense cells sch opts = false → ∀ fi ∈ recordTableSlots cells sch opts, ∀ st, recordPrefix cells sch opts fi = .ok st →
    StartKept cells sch (RowCellPlan.new sch opts.preambleFlags) st.body.length fi ∧
      recordBodyStart cells sch opts +
        slotPlace cells sch (RowCellPlan.new sch opts.preambleFlags) st.body.length fi < 65536

end Sparse

section Sparse

variable {cells : List (ℕ × CompactCell)} {sch : ExtendedSchema} {opts : CompactOptions} {plan : RowCellPlan}

theorem startKept_iff {bodyLen fi : ℕ} (h : bodyLen + 255 ≤ 2 ^ 64) :
    StartKept cells sch plan bodyLen fi ↔ slotStart sch plan bodyLen fi = slotPlace cells sch plan bodyLen fi := by
  rw [StartKept, slotStart, slotPlace]
  by_cases hpacked : plan.isPacked fi = true
  · rw [if_pos hpacked, if_pos hpacked, if_pos hpacked]
    omega
  · have hle : bodyLen ≤ sparseCellBodyStart bodyLen fi sch plan := le_sparseCellBodyStart h
    rw [if_neg hpacked, if_neg hpacked, if_neg hpacked, paddedStart, Nat.add_sub_cancel' hle]
    dsimp only
    omega

/-- The start that is noted is at most seven bytes behind the place of the value. -/
theorem slotStart_le {present : List Bool} {bodyLen fi : ℕ} {bytes : Bytes} (h : slotBytes cells present sch plan fi = .ok bytes)
    (hroom : bodyLen + 255 ≤ 2 ^ 64) : slotStart sch plan bodyLen fi ≤ slotPlace cells sch plan bodyLen fi + 7 := by
  rw [slotStart, slotPlace]
  by_cases hpacked : plan.isPacked fi = true
  · have hcount := boolSlots_le_of_slotBytes hpacked h
    have hidx := List.idxOf_lt_length_of_mem (isPacked_eq_true.mp hpacked).2
    rw [if_pos hpacked, if_pos hpacked]
    omega
  · have hle : bodyLen ≤ sparseCellBodyStart bodyLen fi sch plan := le_sparseCellBodyStart hroom
    rw [if_neg hpacked, if_neg hpacked, paddedStart, Nat.add_sub_cancel' hle]
    dsimp only
    omega

/-- A sparse record: header, mask, offset table, padding and body. -/
theorem encodeCompactRecord_eq (hsparse : recordDense cells sch opts = false) : encodeCompactRecord cells sch opts = (do
    let sparse ← recordPrefix cells sch opts sch.keys.length
    let mask := (if opts.denseFrames then [0] else []) ++ buildBitmaskBytes (recordPresent cells sch)
    let relOffs ← (recordTableSlots cells sch opts).mapM (sparseRelOffset sparse.starts (recordBodyStart cells sch opts))
    let table := relOffs.flatMap (leBytes 2)
    let pad := zeros (recordBodyStart cells sch opts - (recordTableStart cells sch opts + table.length))
    let total := recordTableStart cells sch opts + table.length + pad.length + sparse.body.length
    .ok (leBytes 4 MAGIC_OBJ ++ leBytes 4 total ++ mask ++ table ++ pad ++ sparse.body)) :=
  if_neg (by
    rw [Bool.not_eq_true]
    exact hsparse)

/-- The parts of a sparse record. -/
theorem encodeCompactRecord_sparse {object : Bytes} (h : encodeCompactRecord cells sch opts = .ok object)
    (hsparse : recordDense cells sch opts = false) (hsmall : object.length < 2 ^ 63) :
    ∃ st offsets, recordPrefix cells sch opts sch.keys.length = .ok st ∧
      List.Forall₂ (fun fi o => sparseRelOffset st.starts (recordBodyStart cells sch opts) fi = .ok o)
        (recordTableSlots cells sch opts) offsets ∧
      At object 8 ((if opts.denseFrames then [0] else []) ++ buildBitmaskBytes (recordPresent cells sch)) ∧
      At object (recordTableStart cells sch opts) (offsets.flatMap (leBytes 2)) ∧
      At object (recordBodyStart cells sch opts) st.body ∧ 8 ≤ recordBodyStart cells sch opts := by
  rw [encodeCompactRecord_eq hsparse] at h
  obtain ⟨st, hst, h⟩ := bind_eq_ok.mp h
  obtain ⟨offsets, hoffs, h⟩ := bind_eq_ok.mp h
  have hoffs := mapM_eq_ok.mp hoffs
  have htable : (offsets.flatMap (leBytes 2)).length = (recordTableSlots cells sch opts).length * 2 := by
    rw [length_flatMap_const fun m _ => leBytes_length 2 m, hoffs.length_eq]
  have hobject := (Outcome.ok.inj h).symm
  set mask := (if opts.denseFrames then [0] else []) ++ buildBitmaskBytes (recordPresent cells sch) with hmask
  set table := offsets.flatMap (leBytes 2)
  have hheader : recordTableStart cells sch opts = 4 + 4 + mask.length := rfl
  have hself := at_self object
  rw [hobject, at_append, at_append, at_append, at_append] at hself
  obtain ⟨⟨⟨⟨-, hmaskAt⟩, htab⟩, -⟩, hbody⟩ := hself
  rw [← hobject] at hmaskAt htab hbody
  simp only [List.length_append, leBytes_length, zeros_length, Nat.zero_add, ← hheader] at hmaskAt htab hbody
  have hle := htab.le
  have hstart : recordTableStart cells sch opts + table.length ≤ recordBodyStart cells sch opts := by
    rw [recordBodyStart, htable]
    exact le_alignTo (by omega)
  rw [Nat.add_sub_cancel' hstart] at hbody
  exact ⟨st, offsets, hst, hoffs, hmaskAt, htab, hbody, by omega⟩

/-- The entry of a slot in the offset table of a sparse record, and the slot's value at its place. -/
theorem sparse_entry {object : Bytes} (h : encodeCompactRecord cells sch opts = .ok object)
    (hsparse : recordDense cells sch opts = false) (hsmall : object.length < 2 ^ 63) {j fi : ℕ}
    (hj : (recordTableSlots cells sch opts)[j]? = some fi) : ∃ st bytes,
      recordPrefix cells sch opts fi = .ok st ∧
        slotBytes cells (recordPresent cells sch) sch (RowCellPlan.new sch opts.preambleFlags) fi = .ok bytes ∧
        At object (recordBodyStart cells sch opts +
          slotPlace cells sch (RowCellPlan.new sch opts.preambleFlags) st.body.length fi) bytes ∧
        At object (recordTableStart cells sch opts + j * 2) (leBytes 2 ((recordBodyStart cells sch opts +
          slotStart sch (RowCellPlan.new sch opts.preambleFlags) st.body.length fi) % 65536)) ∧
        8 ≤ recordBodyStart cells sch opts ∧ st.body.length + 255 ≤ 2 ^ 64 := by
  obtain ⟨st, offsets, hst, hoffs, -, htable, hbody, hstart⟩ := encodeCompactRecord_sparse h hsparse hsmall
  obtain ⟨hlt, hleads⟩ := mem_offsetTable.mp (List.mem_of_getElem? hj)
  obtain ⟨stf, hstf, hnoted, bytes, hbytes, hat⟩ := (sparsePrefix_run (boolSlots_nodup sch _) hst).value_at fi hlt hleads
  have hjlt := (List.getElem?_eq_some_iff.mp hj).1
  have hoff := hoffs.get hjlt (hoffs.length_eq ▸ hjlt)
  have hfi : (recordTableSlots cells sch opts)[j] = fi := (List.getElem?_eq_some_iff.mp hj).2
  rw [List.get_eq_getElem, List.get_eq_getElem, hfi, sparseRelOffset] at hoff
  rw [SparseBody.start?] at hnoted
  rw [hnoted, ofOption_some, okOr_ok, ok_bind] at hoff
  have hentry := htable.trans (at_flatMap_const (fun m _ => leBytes_length 2 m) (List.getElem?_eq_getElem (hoffs.length_eq ▸ hjlt)))
  rw [← Outcome.ok.inj hoff] at hentry
  have hle := (hbody.trans hat).le
  have hplace : stf.body.length ≤ slotPlace cells sch (RowCellPlan.new sch opts.preambleFlags) stf.body.length fi :=
    le_slotPlace _ _
  exact ⟨stf, bytes, hstf, hbytes, hbody.trans hat, hentry, hstart, by omega⟩

/-- The offset table of a sparse record is right exactly where its starts are kept and its values stand in its
first 64 KiB. -/
theorem sparseTrue_iff {object : Bytes} (h : encodeCompactRecord cells sch opts = .ok object) (hsmall : object.length < 2 ^ 63) :
    SparseTrue cells sch opts object ↔ SparseFits cells sch opts := by
  constructor
  · intro htrue hsparse fi hfi st hst
    obtain ⟨j, hj⟩ := List.getElem?_of_mem hfi
    obtain ⟨st₁, bytes, p, hst₁, hbytes, hp, -, hword⟩ := htrue hsparse j fi hj
    obtain rfl : st = st₁ := Outcome.ok.inj (hst.symm.trans hst₁)
    obtain ⟨st₂, bytes₂, hst₂, hbytes₂, -, hentry, hstart, hroom⟩ := sparse_entry h hsparse hsmall hj
    obtain rfl : st = st₂ := Outcome.ok.inj (hst.symm.trans hst₂)
    have hnoted := word_leBytes hentry (Nat.mod_lt _ (by decide))
    have hlt := word_lt object (recordTableStart cells sch opts + j * 2) 2
    rw [hword] at hlt
    rw [hword, hp] at hnoted
    rw [hp] at hlt
    refine ⟨(startKept_iff hroom).mpr ?_, hlt⟩
    have hnear := slotStart_le hbytes hroom
    omega
  · intro hfits hsparse j fi hj
    obtain ⟨st, bytes, hst, hbytes, hat, hentry, -, hroom⟩ := sparse_entry h hsparse hsmall hj
    obtain ⟨hkept, hlt⟩ := hfits hsparse fi (List.mem_of_getElem? hj) st hst
    refine ⟨st, bytes, _, hst, hbytes, rfl, hat, ?_⟩
    rw [word_leBytes hentry (Nat.mod_lt _ (by decide)), (startKept_iff hroom).mp hkept, Nat.mod_eq_of_lt hlt]

end Sparse

/-! ## The tail-index -/

/-- The records that a writer between two objects holds: those in its buffer, or what its pending cells become. -/
def NxsWriter.Holds (w : NxsWriter) (records : List Bytes) : Prop :=
  match w.compact with
  | none => Packed w records
  | some opts => List.Forall₂ (fun cells record => encodeCompactRecord cells (w.buildExtendedSchema opts) opts = .ok record)
      w.pendingRecords records

/-- The offset that the tail-index at `ptr` has for record `i` of `n`: the one in its entry, or the sum of the anchor
of its block and its distance from it. -/
def tailIndexEntry (compact : Option CompactOptions) (d : Bytes) (ptr n i : ℕ) : ℕ :=
  match compact.filter CompactOptions.deltaTail with
  | some opts =>
    word d (ptr + 16 + i / max opts.deltaBlockSize 1 * 8) 8 +
      word d (ptr + 16 + anchorCountOf n opts.deltaBlockSize * 8 + i * 4) 4
  | none => word d (ptr + 4 + i * 10 + 2) 8

/-- Every entry of the tail-index is the offset of its record in the file. -/
def IndexTrue (w : NxsWriter) (records : List Bytes) (d : Bytes) : Prop :=
  ∀ i record, records[i]? = some record → ∃ start, start = 32 + w.schemaBytes.length + (records.take i).flatten.length ∧
    At d start record ∧ tailIndexEntry w.compact d (rowTailPtr d) records.length i = start

/-- An entry of a tail-index with an offset for each record. -/
theorem tailIndexRecords_entry {d : Bytes} {offsets : List ℕ} {ptr i off : ℕ}
    (hat : At d ptr (NxsWriter.tailIndexRecords offsets ptr)) (hi : offsets[i]? = some off) :
    At d (ptr + 4 + i * 10 + 2) (leBytes 8 off) := by
  rw [NxsWriter.tailIndexRecords, at_append, at_append, at_append, leBytes_length] at hat
  obtain ⟨⟨⟨-, hentries⟩, -⟩, -⟩ := hat
  have hentry : offsets.zipIdx[i]? = some (off, i) := by
    rw [List.getElem?_zipIdx, hi, Nat.zero_add]
    rfl
  have hat := hentries.trans (at_flatMap_const (w := 10) (f := fun e : ℕ × ℕ => leBytes 2 e.2 ++ leBytes 8 e.1)
    (by simp) hentry)
  rw [at_append, leBytes_length] at hat
  exact hat.2

theorem tailIndexRecords_word {d : Bytes} {offsets : List ℕ} {ptr i off : ℕ}
    (hat : At d ptr (NxsWriter.tailIndexRecords offsets ptr)) (hoff : off < 2 ^ 64) (hi : offsets[i]? = some off) :
    word d (ptr + 4 + i * 10 + 2) 8 = off :=
  word_leBytes (tailIndexRecords_entry hat hi) (by omega)

/-- The anchor and the distance of a record in a tail-index with blocks. -/
theorem buildDeltaTailIndex_word {d tail : Bytes} {offsets : List ℕ} {ptr blockSize i off : ℕ}
    (hat : At d ptr tail) (h : buildDeltaTailIndex offsets ptr blockSize = .ok tail) (hoff : off < 2 ^ 64)
    (hi : offsets[i]? = some off) :
    word d (ptr + 16 + i / max blockSize 1 * 8) 8 +
      word d (ptr + 16 + anchorCountOf offsets.length blockSize * 8 + i * 4) 4 = off := by
  obtain ⟨anchor, delta, hsum, hfit, -, hanchorAt, hdeltaAt⟩ := buildDeltaTailIndex_at h hat hi
  rw [word_leBytes hanchorAt (by omega), word_leBytes hdeltaAt (by omega), hsum]

/-- Encoded one after the other, the pending cells become the records. -/
theorem encodePending_of {ext : ExtendedSchema} {opts : CompactOptions} : ∀ {pending : List (List (ℕ × CompactCell))}
    {records : List Bytes} {data : Bytes},
    List.Forall₂ (fun cells record => encodeCompactRecord cells ext opts = .ok record) pending records →
      NxsWriter.encodePending ext opts pending data =
        .ok (data ++ records.flatten, (startsFrom data.length (records.map List.length)).map (· % 2 ^ 32))
  | [], _, data, h => by
    obtain rfl := List.forall₂_nil_left_iff.mp h
    rw [NxsWriter.encodePending, List.flatten_nil, List.append_nil]
    rfl
  | cells :: pending, _, data, h => by
    obtain ⟨record, records, hrecord, hrest, rfl⟩ := List.forall₂_cons_left_iff.mp h
    rw [NxsWriter.encodePending, hrecord, expect_ok, ok_bind, encodePending_of hrest, ok_bind]
    dsimp only
    rw [List.append_assoc, List.length_append, List.flatten_cons, List.map_cons, startsFrom, List.map_cons]

/-- What the tail-index of a v1.2 file has for a record: its start in the data sector is cut to 32 bits. -/
theorem tailIndexEntry_plain {w : NxsWriter} {records : List Bytes} {file : Slice} (hpacked : Packed w records)
    (hfile : w.finish = .ok file) {i : ℕ} {record : Bytes} (hi : records[i]? = some record) :
    At file.bytes (32 + w.schemaBytes.length + (records.take i).flatten.length) record ∧
      tailIndexEntry w.compact file.bytes (rowTailPtr file.bytes) records.length i =
        32 + w.schemaBytes.length + (records.take i).flatten.length % 2 ^ 32 := by
  have hlt := (List.getElem?_eq_some_iff.mp hi).1
  have hsmall := file.small
  have hobject := finish_objects hpacked hfile
  have hentry := ObjectFile.entry_at hobject hlt
  obtain ⟨-, hptr, hend⟩ := ObjectFile.tail_at hobject
  have hstart : sectorStart w.keys w.slotSigils = 32 + w.schemaBytes.length := by
    rw [sectorStart, NxsWriter.schemaBytes, hpacked.plain]
  have htail : rowTailPtr file.bytes = sectorStart w.keys w.slotSigils + records.flatten.length := by
    rw [rowTailPtr, if_pos hobject.words.2.2, word_leBytes hptr (by omega)]
  have hcut := Nat.mod_lt (records.take i).flatten.length (show 0 < 2 ^ 32 by decide)
  refine ⟨hstart ▸ ObjectFile.object_at hobject hi, ?_⟩
  rw [tailIndexEntry, hpacked.plain, htail]
  exact (word_leBytes hentry (by omega)).trans (by rw [hstart])

/-- What the tail-index of a compact file has for a record. -/
theorem tailIndexEntry_compact {w : NxsWriter} {opts : CompactOptions} {records : List Bytes} {file : Slice}
    (hcompact : w.compact = some opts)
    (hrecords : List.Forall₂ (fun cells record => encodeCompactRecord cells (w.buildExtendedSchema opts) opts = .ok record)
      w.pendingRecords records)
    (hfile : w.finish = .ok file) {i : ℕ} {record : Bytes} (hi : records[i]? = some record) :
    At file.bytes (32 + w.schemaBytes.length + (records.take i).flatten.length) record ∧
      tailIndexEntry w.compact file.bytes (rowTailPtr file.bytes) records.length i =
        32 + w.schemaBytes.length + (records.take i).flatten.length % 2 ^ 32 := by
  have hsmall := file.small
  have hlt := (List.getElem?_eq_some_iff.mp hi).1
  have hcut := Nat.mod_lt (records.take i).flatten.length (show 0 < 2 ^ 32 by decide)
  obtain ⟨data, offsets, pre, start, ptr, hpending, hstart, hptr, hframed, htail⟩ := finish_compact_parts hcompact hfile
  rw [encodePending_of hrecords, List.nil_append, List.length_nil] at hpending
  cases hpending
  have hrowTail := (hframed.rowTailPtr_eq hsmall (by omega)).1
  have hlen := hframed.length
  have hschema : 32 + w.schemaBytes.length = start := by
    rw [hstart, NxsWriter.schemaBytes, hcompact]
  have hrest := hframed.rest_at
  rw [List.append_assoc, at_append, ← hstart, ← hptr] at hrest
  have hoffset : (((startsFrom 0 (records.map List.length)).map (· % 2 ^ 32)).map (start + ·))[i]? =
      some (start + (records.take i).flatten.length % 2 ^ 32) := by
    rw [List.getElem?_map, List.getElem?_map, startsFrom_getElem? 0 (by rwa [List.length_map]), Nat.zero_add,
      List.length_flatten, List.map_take]
    rfl
  have hcount : (((startsFrom 0 (records.map List.length)).map (· % 2 ^ 32)).map (start + ·)).length = records.length := by
    rw [List.length_map, List.length_map, startsFrom_length, List.length_map]
  refine ⟨?_, ?_⟩
  · have hdata := hrest.1
    rw [padTo, at_append] at hdata
    have hat := at_flatMap (f := id) hi
    rw [List.flatMap_id, List.flatMap_id] at hat
    rw [hschema]
    exact hdata.1.trans hat
  · rw [tailIndexEntry, hcompact, hrowTail, hschema]
    cases hdelta : opts.deltaTail with
    | true =>
      rw [if_pos hdelta] at htail
      rw [Option.filter_some, if_pos hdelta]
      have hword := buildDeltaTailIndex_word hrest.2 htail (by omega) hoffset
      rw [hcount] at hword
      exact hword
    | false =>
      rw [if_neg (by rw [hdelta]; exact Bool.false_ne_true)] at htail
      rw [Option.filter_some, if_neg (by rw [hdelta]; exact Bool.false_ne_true)]
      have htable := hrest.2
      rw [← htail] at htable
      exact tailIndexRecords_word htable (by omega) hoffset

/-- The tail-index of a file is right exactly where all records start in the first 4 GiB of the data sector. -/
theorem indexTrue_iff {w : NxsWriter} {records : List Bytes} {file : Slice} (hrecords : w.Holds records)
    (hfile : w.finish = .ok file) :
    IndexTrue w records file.bytes ↔ ∀ i < records.length, (records.take i).flatten.length < 2 ^ 32 := by
  have hentry : ∀ i record, records[i]? = some record →
      At file.bytes (32 + w.schemaBytes.length + (records.take i).flatten.length) record ∧
        tailIndexEntry w.compact file.bytes (rowTailPtr file.bytes) records.length i =
          32 + w.schemaBytes.length + (records.take i).flatten.length % 2 ^ 32 := by
    intro i record hi
    cases hcompact : w.compact with
    | none =>
      rw [NxsWriter.Holds, hcompact] at hrecords
      rw [← hcompact]
      exact tailIndexEntry_plain hrecords hfile hi
    | some opts =>
      rw [NxsWriter.Holds, hcompact] at hrecords
      rw [← hcompact]
      exact tailIndexEntry_compact hcompact hrecords hfile hi
  constructor
  · intro htrue i hi
    obtain ⟨start, rfl, -, hindex⟩ := htrue i _ (List.getElem?_eq_getElem hi)
    have hcut := (hentry i _ (List.getElem?_eq_getElem hi)).2
    have hmod := Nat.mod_lt (records.take i).flatten.length (show 0 < 2 ^ 32 by decide)
    omega
  · intro hnear i record hi
    obtain ⟨hat, hindex⟩ := hentry i record hi
    rw [Nat.mod_eq_of_lt (hnear i (List.getElem?_eq_some_iff.mp hi).1)] at hindex
    exact ⟨_, rfl, hat, hindex⟩

/-! ## Runs of a writer -/

section Runs

variable {w w' : NxsWriter} {opts : CompactOptions} {n : ℕ} {sorter : SlotSort}

/-- A compact writer keeps an object open over a write. -/
theorem Pending.write (h : Pending w opts n true) {c : Call} (hw : w.write c = .ok w') : Pending w' opts n true := by
  obtain ⟨slot, arg⟩ := c
  cases arg with
  | i64 v =>
    have hnoted := h.markSlotSigil slot SIGIL_INT
    exact (Pending.mk hnoted.compact hnoted.frames hnoted.count :
      Pending ((w.markSlotSigil slot SIGIL_INT).noteInt slot v) opts n true).writeCell hw
  | str v =>
    have hnoted := h.markSlotSigil slot SIGIL_STR
    exact (Pending.mk hnoted.compact hnoted.frames hnoted.count :
      Pending ((w.markSlotSigil slot SIGIL_STR).noteStr slot v) opts n true).writeCell hw
  | f64 v => exact (h.markSlotSigil _ _).writeCell hw
  | bool v => exact (h.markSlotSigil _ _).writeCell hw
  | time v => exact (h.markSlotSigil _ _).writeCell hw
  | null => exact (h.markSlotSigil _ _).writeBytesAt hw
  | bytes v => exact (h.markSlotSigil _ _).writeBytesAt hw
  | listI64 vs => exact (h.markSlotSigil _ _).writeBytesAt hw
  | listF64 vs => exact (h.markSlotSigil _ _).writeBytesAt hw

theorem Pending.writes : ∀ {calls : List Call} {w : NxsWriter}, Pending w opts n true → calls.foldlM NxsWriter.write w = .ok w' →
    Pending w' opts n true
  | [], _, h, hw => by
    cases hw
    exact h
  | c :: calls, w, h, hw => by
    rw [List.foldlM_cons] at hw
    obtain ⟨w₁, hw₁, hw⟩ := bind_eq_ok.mp hw
    exact Pending.writes (h.write hw₁) hw

/-- An object of a compact writer is one more pending record. -/
theorem Pending.writeObject (h : Pending w opts n false) {calls : List Call} (hw : w.writeObject sorter calls = .ok w') :
    Pending w' opts (n + 1) false := by
  obtain ⟨w₁, hcalls, hend⟩ := bind_eq_ok.mp hw
  have hempty : w.frames = [] := h.frames
  have hbegin : Pending w.beginObject opts n true := by
    rw [NxsWriter.beginObject, h.compact]
    exact ⟨rfl, ⟨_, congrArg _ hempty⟩, h.count⟩
  have hopen := hbegin.writes hcalls
  obtain ⟨f, hf⟩ := hopen.frames
  rw [NxsWriter.endObjectBy, hf, hopen.compact] at hend
  cases hend
  refine ⟨rfl, rfl, ?_⟩
  rw [List.length_append, hopen.count, List.length_singleton]

theorem Pending.writeObjects : ∀ {records : List (List Call)} {w : NxsWriter} {n : ℕ}, Pending w opts n false →
    records.foldlM (NxsWriter.writeObject sorter) w = .ok w' → Pending w' opts (n + records.length) false
  | [], _, _, h, hw => by
    cases hw
    exact h
  | calls :: records, w, n, h, hw => by
    rw [List.foldlM_cons] at hw
    obtain ⟨w₁, hw₁, hw⟩ := bind_eq_ok.mp hw
    rw [List.length_cons, Nat.add_comm records.length, ← Nat.add_assoc]
    exact Pending.writeObjects (h.writeObject hw₁) hw

end Runs

/-- What pending cells that were encoded became. -/
theorem exists_of_encodePending {ext : ExtendedSchema} {opts : CompactOptions} :
    ∀ {pending : List (List (ℕ × CompactCell))} {data : Bytes} {r : Bytes × List ℕ},
      NxsWriter.encodePending ext opts pending data = .ok r →
        ∃ records, List.Forall₂ (fun cells record => encodeCompactRecord cells ext opts = .ok record) pending records
  | [], _, _, _ => ⟨[], List.Forall₂.nil⟩
  | cells :: pending, data, r, h => by
    rw [NxsWriter.encodePending] at h
    obtain ⟨record, hrecord, h⟩ := bind_eq_ok.mp h
    obtain ⟨_, hrest, -⟩ := bind_eq_ok.mp h
    obtain ⟨records, hrecords⟩ := exists_of_encodePending hrest
    exact ⟨record :: records, List.Forall₂.cons (expect_eq_ok.mp hrecord) hrecords⟩

/-- A file that is finished holds a record for every object that was written. -/
theorem run_holds {sorter : SlotSort} {keys : List String} {compact : Option CompactOptions} {records : List (List Call)}
    {w : NxsWriter} {file : Slice}
    (hrun : records.foldlM (NxsWriter.writeObject sorter) (NxsWriter.withCompact keys compact) = .ok w)
    (hfile : w.finish = .ok file) : ∃ sector, w.Holds sector ∧ sector.length = records.length := by
  cases compact with
  | none =>
    obtain ⟨sector, hkept⟩ := writeObjects_kept hrun
    refine ⟨sector, ?_, hkept.lengths.length_eq.symm⟩
    rw [NxsWriter.Holds, hkept.packed.plain]
    exact hkept.packed
  | some opts =>
    have hpending : Pending (NxsWriter.withCompact keys (some opts)) opts 0 false := ⟨rfl, rfl, rfl⟩
    have hdone := hpending.writeObjects hrun
    obtain ⟨data, offsets, _, _, _, hencode, -⟩ := finish_compact_parts hdone.compact hfile
    obtain ⟨sector, hsector⟩ := exists_of_encodePending hencode
    refine ⟨sector, ?_, ?_⟩
    · rw [NxsWriter.Holds, hdone.compact]
      exact hsector
    · rw [← hsector.length_eq, hdone.count, Nat.zero_add]

/-- Offsets are right exactly where they fit: for the objects of the writer and of the compiler, for compact records,
where the noted starts must also be kept, and for the tail-index. -/
theorem offsets_true_iff (sorter : SlotSort) :
    (∀ (keys : List String) (w w' : NxsWriter) (calls : List Call) (object : Bytes), RowWriter keys w →
      w.writeObject sorter calls = .ok w' → w'.buf = w.buf ++ object →
        (TableTrue keys.length calls object ↔
          ∀ e ∈ cellPlaces (objectStart keys.length) (callCells calls), e.2 < 65536)) ∧
    (∀ (stack : ℕ) (dict : List String) (fields : List Field) (sigils : List UInt8) (object : Bytes),
      Compiler.encodeObject (Compiler.encodeValue stack) dict fields = .ok (sigils, object) →
        ∃ values, Compiler.Encoded (Compiler.encodeValue stack) fields values ∧
          (CompiledTrue dict.length values object ↔
            ∀ i < values.length, Compiler.valueStart dict.length values i < 65536)) ∧
    (∀ (cells : List (ℕ × CompactCell)) (sch : ExtendedSchema) (opts : CompactOptions) (object : Bytes),
      encodeCompactRecord cells sch opts = .ok object → object.length < 2 ^ 63 →
        (SparseTrue cells sch opts object ↔ SparseFits cells sch opts)) ∧
    ∀ (keys : List String) (compact : Option CompactOptions) (records : List (List Call)) (w : NxsWriter) (file : Slice),
      records.foldlM (NxsWriter.writeObject sorter) (NxsWriter.withCompact keys compact) = .ok w → w.finish = .ok file →
        ∃ sector, w.Holds sector ∧ sector.length = records.length ∧
          (IndexTrue w sector file.bytes ↔ ∀ i < sector.length, (sector.take i).flatten.length < 2 ^ 32) := by
  refine ⟨?_, ?_, ?_, ?_⟩
  · intro keys w w' calls object h hw hbuf
    exact tableTrue_iff h hw hbuf
  · intro stack dict fields sigils object h
    exact compiledTrue_iff h
  · intro cells sch opts object h hsmall
    exact sparseTrue_iff h hsmall
  · intro keys compact records w file hrun hfile
    obtain ⟨sector, hsector, hcount⟩ := run_holds hrun hfile
    exact ⟨sector, hsector, hcount, indexTrue_iff hsector hfile⟩

/-- Two small values, the second slot first. -/
theorem offsets_true_descending : ∃ w' object, (NxsWriter.new ["a", "b"]).writeObject SlotSort.stable
    [⟨1, .str "x"⟩, ⟨0, .i64 7⟩] = .ok w' ∧ w'.buf = [] ++ object ∧ TableTrue 2 [⟨1, .str "x"⟩, ⟨0, .i64 7⟩] object := by
  have hslots : ∀ c ∈ ([⟨1, .str "x"⟩, ⟨0, .i64 7⟩] : List Call), c.slot / 7 < bitmaskLen ["a", "b"].length := by decide
  obtain ⟨order, w', -, hw', hwrote⟩ := writeObject_ok (RowWriter.new ["a", "b"]) SlotSort.stable hslots (Or.inr (by decide))
  exact ⟨w', _, hw', hwrote.buf, ((offsets_true_iff SlotSort.stable).1 ["a", "b"] _ w' _ _ (RowWriter.new _) hw' hwrote.buf).mpr
    (by decide)⟩

/-- A value behind one of 64 KiB. -/
theorem offsets_not_true_far : ¬ ∀ (keys : List String) (w w' : NxsWriter) (calls : List Call) (object : Bytes),
    RowWriter keys w → w.writeObject SlotSort.stable calls = .ok w' → w'.buf = w.buf ++ object →
      TableTrue keys.length calls object := by
  intro hall
  obtain ⟨b, hb⟩ : ∃ b : Bytes, b.length = 65536 := ⟨zeros 65536, zeros_length _⟩
  have hlen : (NxsWriter.prefixed b).length = 65544 := by
    rw [NxsWriter.prefixed, padTo_length, List.length_append, leBytes_length, hb]
    rfl
  have hslots : ∀ c ∈ ([⟨0, .bytes b⟩, ⟨1, .i64 7⟩] : List Call), c.slot / 7 < bitmaskLen ["a", "b"].length := by
    intro c hc
    rcases List.mem_cons.mp hc with rfl | hc
    · show 0 / 7 < bitmaskLen 2
      decide
    · rw [List.mem_singleton.mp hc]
      decide
  have hsorted : ((callCells [⟨0, .bytes b⟩, ⟨1, .i64 7⟩]).map Prod.fst).Pairwise (· ≤ ·) := by
    rw [callCells_slots]
    exact List.Pairwise.cons (fun b hb => Nat.zero_le b) (List.pairwise_singleton _ _)
  obtain ⟨order, w', -, hw', hwrote⟩ := writeObject_ok (RowWriter.new ["a", "b"]) SlotSort.stable hslots (Or.inl hsorted)
  have hplace : (1, objectStart 2 + (NxsWriter.prefixed b).length) ∈
      cellPlaces (objectStart 2) (callCells [⟨0, .bytes b⟩, ⟨1, .i64 7⟩]) := List.mem_cons_of_mem _ List.mem_cons_self
  have hlt := (hall ["a", "b"] _ w' _ _ (RowWriter.new _) hw' hwrote.buf).lt _ hplace
  dsimp only at hlt
  omega

end Nyxis
