import Nyxis.RecordFrames
import Nyxis.SlotLookup

/-!
# Calls — typed writes in any order

A caller of `NxsWriter` opens an object, writes values into slots in any order, any slot any number of
times, and closes the object.  `Filling` is what the writer holds in between.

* `TableOrder`, `filledObject`: the object that is left behind, with the offset table in the order of the slots.
* `writeObject_ok`, `writeObject_eq_ok`: what a sequence of writes between `begin_object` and
  `end_object` leaves behind.
-/

namespace Nyxis

open Lib Lib.Outcome
open NxsWriter (prefixed listBytes)

/-! ## The writes -/

/-- What a typed write method is called with. -/
inductive Arg where
  | i64 (v : Int64)
  | f64 (v : F64)
  | bool (v : Bool)
  | time (v : Int64)
  | null
  | str (v : String)
  | bytes (v : Bytes)
  | listI64 (vs : List Int64)
  | listF64 (vs : List F64)
  deriving DecidableEq, Repr

/-- The bytes of a value in a v1.2 object. -/
def Arg.bytesOf : Arg → Bytes
  | .i64 v | .time v => i64Bytes v
  | .f64 v => f64Bytes v
  | .bool v => (if v then 1 else 0) :: zeros 7
  | .null => zeros 8
  | .str v => prefixed (utf8 v)
  | .bytes v => prefixed v
  | .listI64 vs => listBytes SIGIL_INT (vs.map i64Bytes)
  | .listF64 vs => listBytes SIGIL_FLOAT (vs.map f64Bytes)

def Arg.sigil : Arg → UInt8
  | .i64 _ => SIGIL_INT
  | .f64 _ => SIGIL_FLOAT
  | .bool _ => SIGIL_BOOL
  | .time _ => SIGIL_TIME
  | .null => SIGIL_NULL
  | .str _ => SIGIL_STR
  | .bytes _ => SIGIL_BINARY
  | .listI64 _ | .listF64 _ => 0x4C -- `L`

/-- A write of a value to a slot. -/
structure Call where
  slot : ℕ
  arg : Arg
  deriving DecidableEq, Repr

namespace NxsWriter

/-- The write method of the value's type. -/
def write (w : NxsWriter) (c : Call) : Res NxsWriter :=
  match c.arg with
  | .i64 v => w.writeI64 c.slot v
  | .f64 v => w.writeF64 c.slot v
  | .bool v => w.writeBool c.slot v
  | .time v => w.writeTime c.slot v
  | .null => w.writeNull c.slot
  | .str v => w.writeStr c.slot v
  | .bytes v => w.writeBytes c.slot v
  | .listI64 vs => w.writeListI64 c.slot vs
  | .listF64 vs => w.writeListF64 c.slot vs

/-- `begin_object`, the writes, `end_object`. -/
def writeObject (sorter : SlotSort) (w : NxsWriter) (calls : List Call) : Res NxsWriter := do
  let w ← calls.foldlM write w.beginObject
  w.endObjectBy sorter

/-- The objects of several records, and the file. -/
def writeFile (sorter : SlotSort) (keys : List String) (records : List (List Call)) : Res Slice := do
  let w ← records.foldlM (writeObject sorter) (NxsWriter.new keys)
  w.finish

end NxsWriter

/-- The slots and bytes of some writes. -/
def callCells (calls : List Call) : List (ℕ × Bytes) := calls.map fun c => (c.slot, c.arg.bytesOf)

@[simp] theorem callCells_length (calls : List Call) : (callCells calls).length = calls.length :=
  List.length_map _

theorem callCells_slots (calls : List Call) : (callCells calls).map Prod.fst = calls.map Call.slot := by
  rw [callCells, List.map_map]
  rfl

/-- Every value takes up room. -/
theorem Arg.bytesOf_pos (x : Arg) : 8 ≤ x.bytesOf.length := by
  have hprefixed : ∀ b : Bytes, 8 ≤ (prefixed b).length := by
    intro b
    have hdvd : 8 ∣ (prefixed b).length := padTo_dvd (by decide) _
    have hle : 4 ≤ (prefixed b).length := by
      rw [prefixed, padTo_length, List.length_append, leBytes_length]
      omega
    omega
  have hlist : ∀ (s : UInt8) (es : List Bytes), 8 ≤ (listBytes s es).length := by
    intro s es
    simp only [listBytes, List.length_append, leBytes_length]
    omega
  cases x with
  | i64 v | time v => exact (i64Bytes_length v).ge
  | f64 v => exact (f64Bytes_length v).ge
  | bool v => exact Nat.le_refl 8
  | null => exact Nat.le_refl 8
  | str v => exact hprefixed _
  | bytes v => exact hprefixed _
  | listI64 vs => exact hlist _ _
  | listF64 vs => exact hlist _ _

/-- A write to a plain writer appends the bytes of the value, once the sigil is noted. -/
theorem NxsWriter.write_plain {w : NxsWriter} (hplain : w.compact = none) (c : Call) :
    ∃ w₁, Noted w w₁ c.slot c.arg.sigil ∧ w.write c = w₁.writeBytesAt c.slot c.arg.bytesOf := by
  obtain ⟨slot, arg⟩ := c
  have hnoted : ∀ sigil, Noted w (w.markSlotSigil slot sigil) slot sigil := by
    intro sigil
    rw [NxsWriter.markSlotSigil_eq]
    constructor <;> rfl
  have hcell : ∀ sigil, (w.markSlotSigil slot sigil).compact = none := fun sigil =>
    (hnoted sigil).compact.trans hplain
  cases arg with
  | i64 v =>
    have h := hnoted SIGIL_INT
    have hnote : ((w.markSlotSigil slot SIGIL_INT).noteInt slot v).compact = none := hcell _
    exact ⟨(w.markSlotSigil slot SIGIL_INT).noteInt slot v,
      ⟨h.keys, h.compact, h.buf, h.frames, h.recordOffsets, h.slotSigils⟩, Wrote.writeCell_plain hnote slot _ _⟩
  | str v =>
    have h := hnoted SIGIL_STR
    have hnote : ((w.markSlotSigil slot SIGIL_STR).noteStr slot v).compact = none := hcell _
    exact ⟨(w.markSlotSigil slot SIGIL_STR).noteStr slot v,
      ⟨h.keys, h.compact, h.buf, h.frames, h.recordOffsets, h.slotSigils⟩, Wrote.writeCell_plain hnote slot _ _⟩
  | f64 v => exact ⟨_, hnoted SIGIL_FLOAT, Wrote.writeCell_plain (hcell _) slot _ _⟩
  | bool v => exact ⟨_, hnoted SIGIL_BOOL, Wrote.writeCell_plain (hcell _) slot _ _⟩
  | time v => exact ⟨_, hnoted SIGIL_TIME, Wrote.writeCell_plain (hcell _) slot _ _⟩
  | null => exact ⟨_, hnoted SIGIL_NULL, rfl⟩
  | bytes v => exact ⟨_, hnoted SIGIL_BINARY, rfl⟩
  | listI64 vs => exact ⟨_, hnoted 0x4C, rfl⟩
  | listF64 vs => exact ⟨_, hnoted 0x4C, rfl⟩

/-! ## Places of values -/

/-- Where the values of some cells start, the first of them at `pos`. -/
def cellPlaces : ℕ → List (ℕ × Bytes) → List (ℕ × ℕ)
  | _, [] => []
  | pos, c :: cells => (c.1, pos) :: cellPlaces (pos + c.2.length) cells

theorem cellPlaces_concat (c : ℕ × Bytes) : ∀ (pos : ℕ) (cells : List (ℕ × Bytes)),
    cellPlaces pos (cells ++ [c]) = cellPlaces pos cells ++ [(c.1, pos + (objectValues cells).length)]
  | pos, [] => rfl
  | pos, a :: cells => by
    rw [List.cons_append, cellPlaces, cellPlaces_concat c _ cells, cellPlaces, List.cons_append, objectValues, objectValues,
      List.flatMap_cons, List.length_append, Nat.add_assoc]

theorem cellPlaces_slots : ∀ (pos : ℕ) (cells : List (ℕ × Bytes)),
    (cellPlaces pos cells).map Prod.fst = cells.map Prod.fst
  | _, [] => rfl
  | pos, c :: cells => by
    rw [cellPlaces, List.map_cons, List.map_cons, cellPlaces_slots]

@[simp] theorem cellPlaces_length (pos : ℕ) (cells : List (ℕ × Bytes)) :
    (cellPlaces pos cells).length = cells.length := by
  have h := congrArg List.length (cellPlaces_slots pos cells)
  rwa [List.length_map, List.length_map] at h

theorem cellPlaces_shift (k : ℕ) : ∀ (pos : ℕ) (cells : List (ℕ × Bytes)),
    cellPlaces (k + pos) cells = (cellPlaces pos cells).map fun e => (e.1, k + e.2)
  | _, [] => rfl
  | pos, c :: cells => by
    rw [cellPlaces, cellPlaces, List.map_cons, Nat.add_assoc, cellPlaces_shift k]

/-- Each place lies within the values. -/
theorem cellPlaces_bounds : ∀ {pos : ℕ} {cells : List (ℕ × Bytes)} {e : ℕ × ℕ}, e ∈ cellPlaces pos cells →
    pos ≤ e.2 ∧ e.2 ≤ pos + (objectValues cells).length
  | _, [], _, h => absurd h List.not_mem_nil
  | pos, c :: cells, e, h => by
    rw [objectValues, List.flatMap_cons, List.length_append]
    rcases List.mem_cons.mp h with rfl | h
    · exact ⟨Nat.le_refl _, Nat.le_add_right _ _⟩
    · obtain ⟨hlo, hhi⟩ := cellPlaces_bounds h
      rw [objectValues] at hhi
      omega

/-- Values that start in a short object start early. -/
theorem cellPlaces_lt {n b : ℕ} {cells : List (ℕ × Bytes)} (h : objectLen n cells < b) :
    ∀ e ∈ cellPlaces (objectStart n) cells, e.2 < b := by
  intro e he
  have hle := (cellPlaces_bounds he).2
  unfold objectLen at h
  omega

/-- The value of a cell stands at its place. -/
theorem cellPlaces_at {d : Bytes} {e : ℕ × ℕ} : ∀ {pos : ℕ} {cells : List (ℕ × Bytes)}, At d pos (objectValues cells) →
    e ∈ cellPlaces pos cells → ∃ c ∈ cells, c.1 = e.1 ∧ At d e.2 c.2
  | _, [], _, h => absurd h List.not_mem_nil
  | pos, c :: cells, hat, h => by
    rw [objectValues, List.flatMap_cons, at_append] at hat
    rcases List.mem_cons.mp h with rfl | h
    · exact ⟨c, List.mem_cons_self, rfl, hat.1⟩
    · obtain ⟨c', hc', hslot, hval⟩ := cellPlaces_at hat.2 h
      exact ⟨c', List.mem_cons_of_mem c hc', hslot, hval⟩

/-- Values that take up room start at different places. -/
theorem cellPlaces_ascending : ∀ (pos : ℕ) (cells : List (ℕ × Bytes)), (∀ c ∈ cells, 0 < c.2.length) →
    (cellPlaces pos cells).Pairwise fun a b => a.2 < b.2
  | _, [], _ => List.Pairwise.nil
  | pos, c :: cells, h => by
    refine List.Pairwise.cons (fun e he => ?_) (cellPlaces_ascending _ cells fun a ha => h a (List.mem_cons_of_mem c ha))
    have hpos := h c List.mem_cons_self
    have hlo := (cellPlaces_bounds he).1
    dsimp only
    omega

theorem objectOffsets_eq (n : ℕ) (cells : List (ℕ × Bytes)) :
    objectOffsets n cells = (cellPlaces (objectStart n) cells).map fun e => e.2 % 65536 := by
  induction cells using List.reverseRecOn with
  | nil => rfl
  | append_singleton cells c ih => rw [objectOffsets_concat, cellPlaces_concat, List.map_append, ih, List.map_singleton]

/-! ## The writer with an object open -/

/-- The slot written last. -/
def lastSlotOf (cells : List (ℕ × Bytes)) : ℤ := cells.getLast?.elim (-1) fun c => (c.1 : ℤ)

/-- What the frame of an open object knows of the writes so far. -/
structure FrameOf (base : Bytes) (n : ℕ) (cells : List (ℕ × Bytes)) (f : Frame) : Prop where
  start : f.start = base.length
  bitmask : f.bitmask = maskBytes (bitmaskLen n) (objectSlots cells)
  offsetTable : f.offsetTable = objectOffsets n cells
  slotOffsets : f.slotOffsets = (cellPlaces (base.length + objectStart n) cells).map fun e => (e.1, e.2 % 2 ^ 32)
  lastSlot : f.lastSlot = lastSlotOf cells
  needsSort : f.needsSort = false ↔ (cells.map Prod.fst).Pairwise (· ≤ ·)

/-- A v1.2 writer has, behind `base`, one open object into which `cells` were written, in any order. -/
structure Filling (w : NxsWriter) (base : Bytes) (cells : List (ℕ × Bytes)) : Prop where
  plain : w.compact = none
  buf : w.buf = base ++ openHeader w.keys.length ++ objectValues cells
  frame : ∃ f, w.frames = [f] ∧ FrameOf base w.keys.length cells f

/-- A slot behind the last one keeps the slots in order. -/
theorem pairwise_concat_iff {cells : List (ℕ × Bytes)} {slot : ℕ} {bytes : Bytes} :
    ((cells ++ [(slot, bytes)]).map Prod.fst).Pairwise (· ≤ ·) ↔
      (cells.map Prod.fst).Pairwise (· ≤ ·) ∧ ¬ (slot : ℤ) < lastSlotOf cells := by
  rw [List.map_append, List.map_singleton, List.pairwise_append]
  have hsingle : [slot].Pairwise (· ≤ ·) := List.pairwise_singleton _ _
  have hlast : (cells.map Prod.fst).Pairwise (· ≤ ·) →
      ((∀ a ∈ cells.map Prod.fst, ∀ b ∈ [slot], a ≤ b) ↔ ¬ (slot : ℤ) < lastSlotOf cells) := by
    intro hasc
    rcases List.eq_nil_or_concat' cells with rfl | ⟨front, c, rfl⟩
    · refine iff_of_true (fun a ha => absurd ha List.not_mem_nil) ?_
      rw [lastSlotOf, List.getLast?_nil, Option.elim_none]
      omega
    · rw [List.map_append, List.map_singleton, List.pairwise_append] at hasc
      rw [lastSlotOf, List.getLast?_concat, Option.elim_some, not_lt, Nat.cast_le]
      constructor
      · intro h
        exact h c.1 (by simp) slot List.mem_cons_self
      · intro h a ha b hb
        obtain rfl := List.mem_singleton.mp hb
        rw [List.map_append, List.map_singleton, List.mem_append] at ha
        rcases ha with ha | ha
        · exact (hasc.2.2 a ha c.1 List.mem_cons_self).trans h
        · rwa [List.mem_singleton.mp ha]
  constructor
  · rintro ⟨hasc, -, hle⟩
    exact ⟨hasc, (hlast hasc).mp hle⟩
  · rintro ⟨hasc, hlt⟩
    exact ⟨hasc, hsingle, (hlast hasc).mpr hlt⟩

namespace Filling

variable {w w' : NxsWriter} {base : Bytes} {cells : List (ℕ × Bytes)}

theorem begin_object (hplain : w.compact = none) (hframes : w.frames = []) : Filling w.beginObject w.buf [] := by
  obtain ⟨hwriting, -, -⟩ := Writing.begin_object hplain hframes
  have hframe : w.beginObject.frames = [⟨w.buf.length, emptyBitmask w.keys.length, [], -1, false, [], []⟩] ∧
      w.beginObject.keys = w.keys := by
    rw [NxsWriter.beginObject, hplain, hframes]
    exact ⟨rfl, rfl⟩
  refine ⟨hwriting.plain, hwriting.buf, _, hframe.1, rfl, ?_, rfl, rfl, rfl, ?_⟩
  · rw [hframe.2, emptyBitmask_eq]
    rfl
  · exact iff_of_true rfl List.Pairwise.nil

/-- The tracking fields of a writer play no part in the invariant. -/
theorem of_noted {slot : ℕ} {sigil : UInt8} (h : Filling w base cells) (hnoted : Noted w w' slot sigil) :
    Filling w' base cells := by
  refine ⟨hnoted.compact.trans h.plain, ?_, ?_⟩
  · rw [hnoted.buf, hnoted.keys, h.buf]
  · rw [hnoted.frames, hnoted.keys]
    exact h.frame

/-- Writing a slot adds its cell. -/
theorem mark (h : Filling w base cells) {slot : ℕ} (hslot : slot / 7 < bitmaskLen w.keys.length) (bytes : Bytes) :
    ∃ w', w.writeBytesAt slot bytes = .ok w' ∧ Filling w' base (cells ++ [(slot, bytes)]) ∧
      SameRecords w w' ∧ w'.slotSigils = w.slotSigils := by
  obtain ⟨f, hf, hframe⟩ := h.frame
  obtain ⟨byte, hbyte⟩ : ∃ byte, f.bitmask[slot / 7]? = some byte := by
    rw [hframe.bitmask, maskBytes_getElem? _ hslot]
    exact ⟨_, rfl⟩
  have hpos : w.buf.length = base.length + objectStart w.keys.length + (objectValues cells).length := by
    rw [h.buf]
    simp only [List.length_append, openHeader_length]
  have hmark : w.writeBytesAt slot bytes = .ok { w with
      buf := w.buf ++ bytes
      frames := [{ f with
        bitmask := f.bitmask.set (slot / 7) (byte ||| UInt8.ofNat (2 ^ (slot % 7)))
        offsetTable := f.offsetTable ++ [(w.buf.length - f.start) % 65536]
        lastSlot := slot
        needsSort := f.needsSort || decide ((slot : ℤ) < f.lastSlot)
        slotOffsets := f.slotOffsets ++ [(slot, w.buf.length % 2 ^ 32)] }] } := by
    rw [NxsWriter.writeBytesAt, NxsWriter.markSlot, hf]
    dsimp only
    rw [index, hbyte, ok_bind, ok_bind]
  refine ⟨_, hmark, ⟨h.plain, ?_, _, rfl, hframe.start, ?_, ?_, ?_, ?_, ?_⟩, ⟨rfl, rfl, rfl⟩, rfl⟩
  · show w.buf ++ bytes = _
    rw [h.buf, objectValues_concat]
    simp only [List.append_assoc]
  · show f.bitmask.set _ _ = _
    have hset := maskBytes_set (objectSlots cells) hslot (hframe.bitmask ▸ hbyte)
    rw [objectSlots_concat, hframe.bitmask, hset]
  · show f.offsetTable ++ _ = _
    rw [objectOffsets_concat, hframe.offsetTable, hframe.start, hpos, Nat.add_assoc, Nat.add_sub_cancel_left]
  · show f.slotOffsets ++ _ = _
    rw [cellPlaces_concat, List.map_append, hframe.slotOffsets, hpos, List.map_singleton]
  · rw [lastSlotOf, List.getLast?_concat]
    rfl
  · rw [Bool.or_eq_false_iff, decide_eq_false_iff_not, hframe.needsSort, hframe.lastSlot]
    exact pairwise_concat_iff.symm

theorem write (h : Filling w base cells) {c : Call} (hslot : c.slot / 7 < bitmaskLen w.keys.length) :
    ∃ w', w.write c = .ok w' ∧ Filling w' base (cells ++ [(c.slot, c.arg.bytesOf)]) ∧
      SameRecords w w' ∧ w'.slotSigils = noteSigil w.slotSigils c.slot c.arg.sigil := by
  obtain ⟨w₁, hnoted, hwrite⟩ := NxsWriter.write_plain h.plain c
  rw [← hnoted.keys] at hslot
  obtain ⟨w', hw', hfill, hsame, hsig⟩ := (h.of_noted hnoted).mark hslot c.arg.bytesOf
  refine ⟨w', by rw [hwrite, hw'], hfill, ?_, by rw [hsig, hnoted.slotSigils]⟩
  exact SameRecords.trans ⟨hnoted.keys, hnoted.compact, hnoted.recordOffsets⟩ hsame

/-- A write that returns was one to a slot of the mask. -/
theorem slot_of_write (h : Filling w base cells) {c : Call} (hw : w.write c = .ok w') :
    c.slot / 7 < bitmaskLen w.keys.length := by
  obtain ⟨w₁, hnoted, hwrite⟩ := NxsWriter.write_plain h.plain c
  obtain ⟨f, hf, hframe⟩ := (h.of_noted hnoted).frame
  rw [hwrite, NxsWriter.writeBytesAt, NxsWriter.markSlot, hf] at hw
  dsimp only at hw
  obtain ⟨_, hmark, -⟩ := bind_eq_ok.mp hw
  obtain ⟨byte, hindex, -⟩ := bind_eq_ok.mp hmark
  by_contra hout
  rw [index, hframe.bitmask, hnoted.keys, List.getElem?_eq_none (by rw [maskBytes_length]; omega)] at hindex
  cases hindex

/-- Writing several slots. -/
theorem writes : ∀ {calls : List Call} {w : NxsWriter} {cells : List (ℕ × Bytes)}, Filling w base cells →
    (∀ c ∈ calls, c.slot / 7 < bitmaskLen w.keys.length) →
      ∃ w', calls.foldlM NxsWriter.write w = .ok w' ∧ Filling w' base (cells ++ callCells calls) ∧ SameRecords w w' ∧
        w'.slotSigils = calls.foldl (fun sigils c => noteSigil sigils c.slot c.arg.sigil) w.slotSigils
  | [], w, cells, h, _ => by
    refine ⟨w, rfl, ?_, SameRecords.refl w, rfl⟩
    rw [callCells, List.map_nil, List.append_nil]
    exact h
  | c :: calls, w, cells, h, hslots => by
    obtain ⟨w₁, hw₁, h₁, hsame, hsig⟩ := h.write (hslots c List.mem_cons_self)
    have hrest : ∀ c' ∈ calls, c'.slot / 7 < bitmaskLen w₁.keys.length := by
      intro c' hc'
      rw [hsame.keys]
      exact hslots c' (List.mem_cons_of_mem c hc')
    obtain ⟨w', hw', h', hsame', hsig'⟩ := writes h₁ hrest
    refine ⟨w', by rw [List.foldlM_cons, hw₁, ok_bind, hw'], ?_, hsame.trans hsame', by rw [hsig', hsig, List.foldl_cons]⟩
    rw [List.append_assoc, List.singleton_append] at h'
    exact h'

/-- Writes that return were to slots of the mask. -/
theorem slots_of_writes : ∀ {calls : List Call} {w : NxsWriter} {cells : List (ℕ × Bytes)}, Filling w base cells →
    calls.foldlM NxsWriter.write w = .ok w' → ∀ c ∈ calls, c.slot / 7 < bitmaskLen w.keys.length
  | [], _, _, _, _, _, hc => absurd hc List.not_mem_nil
  | c :: calls, w, cells, h, hw, c', hc' => by
    rw [List.foldlM_cons] at hw
    obtain ⟨w₁, hw₁, hw⟩ := bind_eq_ok.mp hw
    have hslot := h.slot_of_write hw₁
    obtain ⟨w₂, hw₂, h₂, hsame, -⟩ := h.write hslot
    obtain rfl : w₁ = w₂ := Outcome.ok.inj (hw₁.symm.trans hw₂)
    rcases List.mem_cons.mp hc' with rfl | hc'
    · exact hslot
    · rw [← hsame.keys]
      exact slots_of_writes h₂ hw c' hc'

end Filling

/-! ## The closed object -/

/-- The values of an object over `n` slots in the order of their slots, each with its place in the object. -/
structure TableOrder (n : ℕ) (cells : List (ℕ × Bytes)) (order : List (ℕ × ℕ)) : Prop where
  perm : order.Perm (cellPlaces (objectStart n) cells)
  sorted : order.Pairwise fun a b => a.1 ≤ b.1

/-- The offset table in the order of the slots can be computed: the positions that are sorted are `u32`. -/
def Sortable (base n : ℕ) (cells : List (ℕ × Bytes)) : Prop :=
  (cells.map Prod.fst).Pairwise (· ≤ ·) ∨ ∀ e ∈ cellPlaces (base + objectStart n) cells, e.2 < 2 ^ 32

section Order

variable {n : ℕ} {cells : List (ℕ × Bytes)} {order : List (ℕ × ℕ)}

theorem TableOrder.length (h : TableOrder n cells order) : order.length = cells.length := by
  rw [h.perm.length_eq, cellPlaces_length]

theorem TableOrder.slots (h : TableOrder n cells order) : (order.map Prod.fst).Perm (cells.map Prod.fst) := by
  rw [← cellPlaces_slots (objectStart n) cells]
  exact h.perm.map Prod.fst

theorem TableOrder.slots_sorted (h : TableOrder n cells order) : (order.map Prod.fst).Pairwise (· ≤ ·) :=
  List.pairwise_map.mpr h.sorted

end Order

namespace FrameOf

variable {base : Bytes} {n : ℕ} {cells : List (ℕ × Bytes)} {f : Frame} (h : FrameOf base n cells f) (sorter : SlotSort)

include h

/-- The offset table has the values in the order of the slots. -/
theorem frameOffsets_ok (hsort : Sortable base.length n cells) : ∃ order, TableOrder n cells order ∧
    NxsWriter.frameOffsets sorter f = .ok (order.map fun e => e.2 % 65536) := by
  rw [NxsWriter.frameOffsets]
  by_cases hneeds : f.needsSort = true
  · have hunsorted : ¬ (cells.map Prod.fst).Pairwise (· ≤ ·) := by
      rw [← h.needsSort, hneeds]
      decide
    have hplaces := hsort.resolve_left hunsorted
    have hslots : f.slotOffsets = cellPlaces (base.length + objectStart n) cells := by
      rw [h.slotOffsets]
      conv_rhs => rw [← List.map_id (cellPlaces (base.length + objectStart n) cells)]
      refine List.map_congr_left fun e he => ?_
      rw [Nat.mod_eq_of_lt (hplaces e he)]
      rfl
    have hmem : ∀ e ∈ sorter.sort f.slotOffsets, base.length ≤ e.2 := by
      intro e he
      rw [hslots, (sorter.perm _).mem_iff] at he
      have := (cellPlaces_bounds he).1
      omega
    refine ⟨(sorter.sort f.slotOffsets).map fun e => (e.1, e.2 - base.length), ⟨?_, ?_⟩, ?_⟩
    · refine ((sorter.perm _).map _).trans ?_
      rw [hslots, cellPlaces_shift, List.map_map]
      refine List.Perm.of_eq ?_
      conv_rhs => rw [← List.map_id (cellPlaces (objectStart n) cells)]
      refine List.map_congr_left fun e _ => ?_
      show (e.1, base.length + e.2 - base.length) = e
      rw [Nat.add_sub_cancel_left]
    · exact List.pairwise_map.mpr (sorter.sorted _)
    · rw [if_pos hneeds, mapM_eq_ok, List.map_map, List.forall₂_map_right_iff, List.forall₂_same]
      intro e he
      rw [h.start, usizeSub_of (hmem e he), ok_bind]
      rfl
  · rw [Bool.not_eq_true] at hneeds
    refine ⟨cellPlaces (objectStart n) cells, ⟨List.Perm.refl _, ?_⟩, ?_⟩
    · have hsorted := h.needsSort.mp hneeds
      rw [← cellPlaces_slots (objectStart n) cells] at hsorted
      exact List.pairwise_map.mp hsorted
    · rw [if_neg (by rw [hneeds]; decide), h.offsetTable, objectOffsets_eq]

/-- Sorting fails where a position is cut. -/
theorem sortable_of_frameOffsets {offsets : List ℕ} (hplaces : ∀ e ∈ cellPlaces (objectStart n) cells, e.2 < 2 ^ 32)
    (hoffs : NxsWriter.frameOffsets sorter f = .ok offsets) : Sortable base.length n cells := by
  by_contra hnot
  rw [Sortable, not_or] at hnot
  obtain ⟨hunsorted, hcut⟩ := hnot
  push Not at hcut
  obtain ⟨e, he, hbig⟩ := hcut
  have hneeds : f.needsSort = true := by
    rw [← Bool.not_eq_false, h.needsSort]
    exact hunsorted
  rw [NxsWriter.frameOffsets, if_pos hneeds, mapM_eq_ok] at hoffs
  have hmem : (e.1, e.2 % 2 ^ 32) ∈ sorter.sort f.slotOffsets := by
    rw [(sorter.perm _).mem_iff, h.slotOffsets]
    exact List.mem_map.mpr ⟨e, he, rfl⟩
  obtain ⟨i, hi, hget⟩ := List.getElem_of_mem hmem
  obtain ⟨rel, hsub, -⟩ := bind_eq_ok.mp (hoffs.get hi (hoffs.length_eq ▸ hi))
  rw [List.get_eq_getElem, hget, h.start, usizeSub] at hsub
  rw [cellPlaces_shift] at he
  obtain ⟨e', he', rfl⟩ := List.mem_map.mp he
  have hlt := hplaces e' he'
  dsimp only at hsub hbig
  rw [if_neg (by omega)] at hsub
  cases hsub

/-- Positions that are not cut are sorted as they are. -/
theorem frameOffsets_order {offsets : List ℕ} (hplaces : ∀ e ∈ cellPlaces (objectStart n) cells, e.2 < 2 ^ 32)
    (hoffs : NxsWriter.frameOffsets sorter f = .ok offsets) :
    ∃ order, TableOrder n cells order ∧ offsets = order.map fun e => e.2 % 65536 := by
  obtain ⟨order, horder, hok⟩ := h.frameOffsets_ok sorter (h.sortable_of_frameOffsets sorter hplaces hoffs)
  exact ⟨order, horder, Outcome.ok.inj (hoffs.symm.trans hok)⟩

theorem frameOffsets_length {offsets : List ℕ} (hoffs : NxsWriter.frameOffsets sorter f = .ok offsets) :
    offsets.length = cells.length := by
  rw [NxsWriter.frameOffsets] at hoffs
  split at hoffs
  · rw [mapM_eq_ok] at hoffs
    rw [← hoffs.length_eq, (sorter.perm _).length_eq, h.slotOffsets, List.length_map, cellPlaces_length]
  · cases hoffs
    rw [h.offsetTable, objectOffsets, List.length_map, List.length_range]

/-- Every entry of the offset table lies in the object. -/
theorem frameOffsets_le {offsets : List ℕ} (hoffs : NxsWriter.frameOffsets sorter f = .ok offsets) :
    ∀ o ∈ offsets, o < 65536 ∧ o ≤ objectLen n cells := by
  intro o ho
  rw [NxsWriter.frameOffsets] at hoffs
  split at hoffs
  · rw [mapM_eq_ok] at hoffs
    obtain ⟨i, hi, rfl⟩ := List.getElem_of_mem ho
    have hi' : i < (sorter.sort f.slotOffsets).length := by rwa [hoffs.length_eq]
    obtain ⟨rel, hsub, hrel⟩ := bind_eq_ok.mp (hoffs.get hi' hi)
    rw [List.get_eq_getElem] at hsub hrel
    have hcells : ∀ e' ∈ f.slotOffsets, ∃ e ∈ cellPlaces (base.length + objectStart n) cells, e'.2 = e.2 % 2 ^ 32 := by
      rw [h.slotOffsets]
      intro e' he'
      obtain ⟨e, he, rfl⟩ := List.mem_map.mp he'
      exact ⟨e, he, rfl⟩
    obtain ⟨e, he, heq⟩ := hcells _ ((sorter.perm _).mem_iff.mp (List.getElem_mem hi'))
    have hplace := (cellPlaces_bounds he).2
    have hcut : e.2 % 2 ^ 32 ≤ e.2 := Nat.mod_le _ _
    rw [heq, h.start, usizeSub] at hsub
    have hmod : rel % 65536 = offsets[i] := Outcome.ok.inj hrel
    have hle : rel % 65536 ≤ rel := Nat.mod_le _ _
    split at hsub
    · cases hsub
      unfold objectLen
      omega
    · cases hsub
  · cases hoffs
    rw [h.offsetTable, objectOffsets_eq] at ho
    obtain ⟨e, he, rfl⟩ := List.mem_map.mp ho
    have hplace := (cellPlaces_bounds he).2
    have hle : e.2 % 65536 ≤ e.2 := Nat.mod_le _ _
    unfold objectLen
    omega

end FrameOf

/-- The object of some writes, with the given entries in its offset table. -/
def filledObject (n : ℕ) (cells : List (ℕ × Bytes)) (offsets : List ℕ) : Bytes :=
  closedObject n (maskBytes (bitmaskLen n) (objectSlots cells)) (offsets.flatMap (leBytes 2)) (objectValues cells)

theorem filledObject_length {n : ℕ} {cells : List (ℕ × Bytes)} {offsets : List ℕ}
    (hfit : offsets.length * 2 ≤ tableRoom n + (objectValues cells).length) :
    (filledObject n cells offsets).length = objectLen n cells := by
  have htable : (offsets.flatMap (leBytes 2)).length = offsets.length * 2 :=
    length_flatMap_const fun m _ => leBytes_length 2 m
  simp only [filledObject, closedObject, List.length_append, leBytes_length, maskBytes_length, htable, List.length_drop,
    zeros_length, objectLen, objectStart, objectHeaderLen]
  unfold tableRoom objectHeaderLen at *
  omega

theorem filledObject_isFrame {n : ℕ} {cells : List (ℕ × Bytes)} {offsets : List ℕ}
    (hfit : offsets.length * 2 ≤ tableRoom n + (objectValues cells).length) : IsFrame (filledObject n cells offsets) := by
  have hlen := filledObject_length hfit
  rw [filledObject, closedObject] at hlen ⊢
  simp only [List.append_assoc] at hlen ⊢
  rw [← List.append_assoc]
  refine isFrame_of ?_
  simp only [List.length_append, leBytes_length] at hlen ⊢
  unfold objectLen at hlen
  omega

/-- Every value takes up more room than its entry in the offset table. -/
theorem table_fits {n : ℕ} : ∀ {cells : List (ℕ × Bytes)}, (∀ c ∈ cells, 8 ≤ c.2.length) →
    cells.length * 2 ≤ tableRoom n + (objectValues cells).length
  | [], _ => by
    rw [List.length_nil, Nat.zero_mul]
    exact Nat.zero_le _
  | c :: cells, hpos => by
    have hrest := table_fits (n := n) fun a ha => hpos a (List.mem_cons_of_mem c ha)
    have hc := hpos c List.mem_cons_self
    rw [objectValues] at hrest ⊢
    rw [List.flatMap_cons, List.length_append, List.length_cons]
    omega

theorem callCells_pos (calls : List Call) : ∀ c ∈ callCells calls, 8 ≤ c.2.length := by
  intro c hc
  obtain ⟨call, -, rfl⟩ := List.mem_map.mp hc
  exact call.arg.bytesOf_pos

/-- A writer `w'` that has written an object behind `w`. -/
structure WroteObject (keys : List String) (w w' : NxsWriter) (calls : List Call) (offsets : List ℕ) : Prop where
  writer : RowWriter keys w'
  count : offsets.length = calls.length
  buf : w'.buf = w.buf ++ filledObject keys.length (callCells calls) offsets
  recordOffsets : w'.recordOffsets = w.recordOffsets ++ [w.buf.length % 2 ^ 32]
  slotSigils : w'.slotSigils = calls.foldl (fun sigils c => noteSigil sigils c.slot c.arg.sigil) w.slotSigils

/-- The object is one more record of the writer. -/
theorem WroteObject.packed {keys : List String} {w w' : NxsWriter} {calls : List Call} {offsets : List ℕ} {objects : List Bytes}
    (h : WroteObject keys w w' calls offsets) (hpacked : Packed w objects) :
    Packed w' (objects ++ [filledObject keys.length (callCells calls) offsets]) := by
  refine ⟨h.writer.plain, h.writer.frames, ?_, ?_, ?_⟩
  · rw [h.buf, hpacked.buf, List.flatten_append, List.flatten_singleton]
  · intro object hmem
    rcases List.mem_append.mp hmem with hmem | hmem
    · exact hpacked.framed object hmem
    · rw [List.mem_singleton.mp hmem]
      refine filledObject_isFrame ?_
      rw [h.count, ← callCells_length]
      exact table_fits (callCells_pos calls)
  · rw [h.recordOffsets, hpacked.recordOffsets, hpacked.buf, List.map_append, startsFrom_append, List.map_append,
      List.length_flatten, Nat.zero_add]
    rfl

section WriteObject

variable {keys : List String} {w w' : NxsWriter} {calls : List Call} (h : RowWriter keys w) (sorter : SlotSort)

include h

/-- What `end_object` does with the frame that the writes left. -/
theorem writeObject_frame (hslots : ∀ c ∈ calls, c.slot / 7 < bitmaskLen keys.length) : ∃ f : Frame,
    FrameOf w.buf keys.length (callCells calls) f ∧
      (∀ offsets, NxsWriter.frameOffsets sorter f = .ok offsets →
        ∃ w', w.writeObject sorter calls = .ok w' ∧ WroteObject keys w w' calls offsets) ∧
      ∀ w', w.writeObject sorter calls = .ok w' → ∃ offsets, NxsWriter.frameOffsets sorter f = .ok offsets := by
  obtain ⟨-, hkeys, hrecords⟩ := Writing.begin_object h.plain h.frames
  have hsigils : w.beginObject.slotSigils = w.slotSigils := by
    rw [NxsWriter.beginObject, h.plain]
  rw [h.keys] at hkeys
  have hslots' := hslots
  rw [← hkeys] at hslots'
  obtain ⟨w₁, hw₁, hfill, hsame, hsig⟩ := (Filling.begin_object h.plain h.frames).writes hslots'
  obtain ⟨f, hf, hframe⟩ := hfill.frame
  have hkeys₁ : w₁.keys = keys := hsame.keys.trans hkeys
  rw [List.nil_append] at hframe hfill
  rw [hkeys₁] at hframe
  refine ⟨f, hframe, fun offsets hoffs => ?_, fun w' hw' => ?_⟩
  rotate_left
  · rw [NxsWriter.writeObject, hw₁, ok_bind, NxsWriter.endObjectBy, hf] at hw'
    dsimp only at hw'
    rw [hfill.plain] at hw'
    obtain ⟨_, -, hw'⟩ := bind_eq_ok.mp hw'
    obtain ⟨_, -, hw'⟩ := bind_eq_ok.mp hw'
    obtain ⟨offsets, hoffs, -⟩ := bind_eq_ok.mp hw'
    exact ⟨offsets, hoffs⟩
  have hcount := hframe.frameOffsets_length sorter hoffs
  have hend := Writing.endObjectBy_eq hfill.plain hf hframe.start hfill.buf (by rw [hframe.bitmask, maskBytes_length, hkeys₁])
    hoffs (by rw [hframe.offsetTable, hcount, objectOffsets, List.length_map, List.length_range])
    (by rw [hcount]; exact table_fits (callCells_pos calls))
  have hwrite : w.writeObject sorter calls = w₁.endObjectBy sorter := by
    rw [NxsWriter.writeObject, hw₁, ok_bind]
  refine ⟨_, hwrite.trans hend, ⟨hfill.plain, rfl, hkeys₁⟩, ?_, ?_, ?_, ?_⟩
  · rw [hcount, callCells_length]
  · dsimp only
    rw [hkeys₁, hframe.bitmask, filledObject]
  · exact hsame.recordOffsets.trans hrecords
  · dsimp only
    rw [hsig, hsigils]

/-- Writes that can be sorted leave an object with the values in the order of the slots. -/
theorem writeObject_ok (hslots : ∀ c ∈ calls, c.slot / 7 < bitmaskLen keys.length)
    (hsort : Sortable w.buf.length keys.length (callCells calls)) : ∃ order w',
      TableOrder keys.length (callCells calls) order ∧ w.writeObject sorter calls = .ok w' ∧
        WroteObject keys w w' calls (order.map fun e => e.2 % 65536) := by
  obtain ⟨f, hframe, hclose, -⟩ := writeObject_frame h sorter hslots
  obtain ⟨order, horder, hoffs⟩ := hframe.frameOffsets_ok sorter hsort
  obtain ⟨w', hw', hwrote⟩ := hclose _ hoffs
  exact ⟨order, w', horder, hw', hwrote⟩

/-- Writes that return were to slots of the mask, and left an object of its length. -/
theorem writeObject_eq_ok (hw : w.writeObject sorter calls = .ok w') :
    (∀ c ∈ calls, c.slot / 7 < bitmaskLen keys.length) ∧ ∃ offsets, WroteObject keys w w' calls offsets ∧
      ((∀ e ∈ cellPlaces (objectStart keys.length) (callCells calls), e.2 < 2 ^ 32) →
        Sortable w.buf.length keys.length (callCells calls)) := by
  obtain ⟨-, hkeys, -⟩ := Writing.begin_object h.plain h.frames
  have hbegin := Filling.begin_object h.plain h.frames
  obtain ⟨w₁, hw₁, -⟩ := bind_eq_ok.mp hw
  have hslots := hbegin.slots_of_writes hw₁
  rw [hkeys, h.keys] at hslots
  obtain ⟨f, hframe, hclose, hoffs⟩ := writeObject_frame h sorter hslots
  obtain ⟨offsets, hoffs⟩ := hoffs w' hw
  obtain ⟨w₂, hw₂, hwrote⟩ := hclose offsets hoffs
  obtain rfl : w' = w₂ := Outcome.ok.inj (hw.symm.trans hw₂)
  exact ⟨hslots, offsets, hwrote, fun hplaces => hframe.sortable_of_frameOffsets sorter hplaces hoffs⟩

/-- Writes that return left an object whose offset table stays in it; that of a short object is in the order
of the slots. -/
theorem writeObject_offsets (hw : w.writeObject sorter calls = .ok w') : ∃ offsets, WroteObject keys w w' calls offsets ∧
    (∀ o ∈ offsets, o < 65536 ∧ o ≤ objectLen keys.length (callCells calls)) ∧
    (objectLen keys.length (callCells calls) < 2 ^ 32 → ∃ order, TableOrder keys.length (callCells calls) order ∧
      offsets = order.map fun e => e.2 % 65536) := by
  obtain ⟨hslots, -⟩ := writeObject_eq_ok h sorter hw
  obtain ⟨f, hframe, hclose, hoffs⟩ := writeObject_frame h sorter hslots
  obtain ⟨offsets, hoffs⟩ := hoffs w' hw
  obtain ⟨w₂, hw₂, hwrote⟩ := hclose offsets hoffs
  obtain rfl : w' = w₂ := Outcome.ok.inj (hw.symm.trans hw₂)
  exact ⟨offsets, hwrote, hframe.frameOffsets_le sorter hoffs, fun hlen =>
    hframe.frameOffsets_order sorter (cellPlaces_lt hlen) hoffs⟩

end WriteObject

end Nyxis
