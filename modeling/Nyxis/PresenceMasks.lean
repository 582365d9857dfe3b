import Mathlib.Data.Finset.Sort
import Nyxis.RecordFrames
import Nyxis.SlotWrites
import Nyxis.SparseRecord

/-!
# PresenceMasks — the masks of the three encoders

The compiler and the compact encoder build the mask of an object from the slots at once, the writer sets
one bit with every write, while other objects may be open around and inside the one it belongs to.

* `PresenceMask`: what a walk over a mask should find.
* `Marked.step`: what one call leaves of the masks of the open objects.
* `masks_decode`: all three encoders meet it, whatever the number of keys and the slots.
-/

namespace Nyxis

open Lib Lib.Outcome

/-- The mask says which of `n` slots are present. -/
structure PresenceMask (n : ℕ) (slots : Finset ℕ) (mask : Bytes) : Prop where
  /-- The last byte, and no other one, has no continuation bit. -/
  continues : mask ≠ [] ∧ ∀ i byte, mask[i]? = some byte → (moreMask byte = true ↔ i + 1 < mask.length)
  /-- A walk ends behind the mask and finds exactly the slots. -/
  walk : ∀ d pos fuel, At d pos mask → mask.length ≤ fuel → ∃ bits,
    readMask d fuel pos [] = .ok (bits, pos + mask.length) ∧ (∀ s, bits.getD s false = true ↔ s ∈ slots) ∧
      bits.count true = slots.card
  /-- The walk that counts slots ends there too. -/
  sparseEnd : ∀ d pos fuel, At d pos mask → mask.length ≤ fuel →
    sparseMaskEnd d n fuel pos 0 = .ok (pos + mask.length)

/-- As many slots are in a list of bits as are set. -/
theorem count_map_range {p : ℕ → Bool} {m : ℕ} {slots : Finset ℕ} (h : ∀ s, s ∈ slots ↔ s < m ∧ p s = true) :
    ((List.range m).map p).count true = slots.card := by
  have hslots : slots = ((List.range m).filter p).toFinset := by
    ext s
    rw [h s, List.mem_toFinset, List.mem_filter, List.mem_range]
  rw [hslots, List.toFinset_card_of_nodup (List.nodup_range.filter p), ← List.countP_eq_length_filter, List.count,
    List.countP_map]
  refine List.countP_congr fun s _ => ?_
  rw [Function.comp_apply, beq_iff_eq]

theorem PresenceMask.of_maskBytes {n : ℕ} {p : ℕ → Bool} {slots : Finset ℕ}
    (h : ∀ s, s ∈ slots ↔ s < 7 * bitmaskLen n ∧ p s = true) : PresenceMask n slots (maskBytes (bitmaskLen n) p) := by
  have hpos : 1 ≤ bitmaskLen n := le_max_right _ _
  refine ⟨⟨?_, fun i byte hi => ?_⟩, fun d pos fuel hat hfuel => ⟨_, ?_, fun s => ?_, count_map_range h⟩,
    fun d pos fuel hat hfuel => ?_⟩
  · rw [← List.length_pos_iff, maskBytes_length]
    exact hpos
  · have hlt := (List.getElem?_eq_some_iff.mp hi).1
    rw [maskBytes_length] at hlt ⊢
    rw [maskBytes_getElem? p hlt] at hi
    rw [← Option.some.inj hi, moreMask_byteOfBits, decide_eq_true_iff]
  · rw [maskBytes_length] at hfuel ⊢
    exact readMask_object hat hfuel
  · rw [List.getD_eq_getElem?_getD, List.getElem?_map, h s]
    by_cases hs : s < 7 * bitmaskLen n
    · rw [List.getElem?_range hs, Option.map_some, Option.getD_some]
      exact ⟨fun hp => ⟨hs, hp⟩, And.right⟩
    · rw [List.getElem?_eq_none (by rw [List.length_range]; omega), Option.map_none, Option.getD_none]
      exact ⟨fun hp => absurd hp Bool.false_ne_true, fun hp => absurd hp.1 hs⟩
  · rw [maskBytes_length] at hfuel ⊢
    by_cases hn : n = 0
    · -- without slots the walk ends behind the one byte
      subst hn
      obtain ⟨fuel, rfl⟩ : ∃ m, fuel = m + 1 := Nat.exists_eq_succ_of_ne_zero (by omega)
      have hbyte := get_maskBytes hat (i := 0) hpos
      rw [Nat.add_zero] at hbyte
      rw [sparseMaskEnd, hbyte, ok_bind, if_pos (Nat.zero_le _)]
      rfl
    · have hlen : bitmaskLen n = (n + 6) / 7 := by
        rw [bitmaskLen]
        omega
      have hend := sparseMaskEnd_mask hat (n := n) (by omega) (by omega) (bitmaskLen n) 0 fuel (by omega) hpos hfuel
      exact hend

/-! ## The writer -/

/-- The mask of a compact record has a byte for every seven slots, and one without slots. -/
theorem buildBitmaskBytes_mask (present : List Bool) : buildBitmaskBytes present =
    maskBytes (bitmaskLen present.length) fun j => decide (j < present.length) && present.getD j false := by
  by_cases hnil : present = []
  · subst hnil
    rfl
  · have hlen := List.length_pos_iff.mpr hnil
    rw [buildBitmaskBytes_eq hnil, bitmaskLen, max_eq_left (by omega)]

/-- A call between the creation of a writer and the end of its file. -/
inductive ObjectCall
  | beginObject
  | write (c : Call)
  | endObject

def NxsWriter.perform (sorter : SlotSort) (w : NxsWriter) : ObjectCall → Res NxsWriter
  | .beginObject => .ok w.beginObject
  | .write c => w.write c
  | .endObject => w.endObjectBy sorter

/-- The slots written so far to each open object, the innermost first. -/
def openSlots : List (List ℕ) → ObjectCall → List (List ℕ)
  | opened, .beginObject => [] :: opened
  | slots :: opened, .write c => (c.slot :: slots) :: opened
  | _ :: opened, .endObject => opened
  | [], _ => []

/-- The frame of an open object has the bits of the slots written to it. -/
def MarkedFrame (n : ℕ) (f : Frame) (slots : List ℕ) : Prop :=
  f.bitmask = maskBytes (bitmaskLen n) (fun i => slots.any (· == i)) ∧ ∀ s ∈ slots, s < 7 * bitmaskLen n

/-- A v1.2 writer whose open objects have been written the given slots. -/
structure Marked (keys : List String) (w : NxsWriter) (opened : List (List ℕ)) : Prop where
  plain : w.compact = none
  schema : w.keys = keys
  frames : List.Forall₂ (MarkedFrame keys.length) w.frames opened

namespace Marked

variable {keys : List String} {w w' : NxsWriter} {opened : List (List ℕ)} {sorter : SlotSort}

theorem new (keys : List String) : Marked keys (NxsWriter.new keys) [] := ⟨rfl, rfl, List.Forall₂.nil⟩

theorem beginObject (h : Marked keys w opened) : Marked keys w.beginObject ([] :: opened) := by
  rw [NxsWriter.beginObject, h.plain]
  refine ⟨rfl, h.schema, List.Forall₂.cons ⟨?_, fun s hs => absurd hs List.not_mem_nil⟩ h.frames⟩
  rw [h.schema, emptyBitmask_eq]
  rfl

/-- A write sets the bit of its slot in the innermost object. -/
theorem write {c : Call} (h : Marked keys w opened) (hw : w.write c = .ok w') :
    ∃ slots rest, opened = slots :: rest ∧ Marked keys w' ((c.slot :: slots) :: rest) := by
  obtain ⟨w₁, hnoted, hwrite⟩ := NxsWriter.write_plain h.plain c
  have hframes := h.frames
  rw [← hnoted.frames] at hframes
  rw [hwrite, NxsWriter.writeBytesAt, NxsWriter.markSlot] at hw
  obtain ⟨w₂, hmark, hw⟩ := bind_eq_ok.mp hw
  cases hframes' : w₁.frames with
  | nil =>
    rw [hframes'] at hmark
    cases hmark
  | cons f frames =>
    rw [hframes'] at hmark hframes
    cases hframes with
    | cons hframe hrest =>
      rename_i slots rest
      obtain ⟨byte, hbyte, hmark⟩ := bind_eq_ok.mp hmark
      cases hmark
      cases hw
      rw [hframe.1, index_eq_ok] at hbyte
      have hslot := (List.getElem?_eq_some_iff.mp hbyte).1
      rw [maskBytes_length] at hslot
      refine ⟨slots, rest, rfl, hnoted.compact.trans h.plain, hnoted.keys.trans h.schema, List.Forall₂.cons ⟨?_, ?_⟩ hrest⟩
      · show f.bitmask.set _ _ = _
        rw [hframe.1, maskBytes_set _ hslot hbyte]
        congr 1
        funext i
        rw [List.any_cons, Bool.beq_comm]
      · intro s hs
        rcases List.mem_cons.mp hs with rfl | hs
        · omega
        · exact hframe.2 s hs

/-- Closing an object leaves the others, and the mask of the closed one in the buffer. -/
theorem endObject (h : Marked keys w opened) (hw : w.endObjectBy sorter = .ok w') :
    ∃ slots rest f, opened = slots :: rest ∧ Marked keys w' rest ∧ w.frames.head? = some f ∧
      MarkedFrame keys.length f slots ∧ At w'.buf (f.start + 8) f.bitmask := by
  rw [NxsWriter.endObjectBy] at hw
  have hframes := h.frames
  cases hframes' : w.frames with
  | nil =>
    rw [hframes'] at hw
    cases hw
  | cons f frames =>
    rw [hframes'] at hw hframes
    cases hframes with
    | cons hframe hrest =>
      rename_i slots rest
      dsimp only at hw
      rw [h.plain] at hw
      dsimp only at hw
      obtain ⟨b₁, -, hw⟩ := bind_eq_ok.mp hw
      obtain ⟨b₂, h₂, hw⟩ := bind_eq_ok.mp hw
      obtain ⟨_, -, hw⟩ := bind_eq_ok.mp hw
      obtain ⟨b₃, h₃, hw⟩ := bind_eq_ok.mp hw
      obtain ⟨b₄, h₄, hw⟩ := bind_eq_ok.mp hw
      cases hw
      refine ⟨slots, rest, f, rfl, ⟨rfl, h.schema, hrest⟩, rfl, hframe, ?_⟩
      -- the patches of the offset table start behind the mask
      obtain ⟨hroom, rfl⟩ := patch_eq_ok.mp h₂
      have hfront : (b₁.take (f.start + 8) ++ f.bitmask).length = f.start + 8 + f.bitmask.length := by
        rw [List.length_append, List.length_take]
        omega
      obtain ⟨r₃, rfl, -⟩ := patch_behind h₃ (by omega)
      obtain ⟨r₄, rfl, -⟩ := patch_behind h₄ (by omega)
      refine ⟨b₁.take (f.start + 8), r₄, rfl, ?_⟩
      rw [List.length_take]
      omega

theorem step {c : ObjectCall} (h : Marked keys w opened) (hw : w.perform sorter c = .ok w') :
    Marked keys w' (openSlots opened c) := by
  cases c with
  | beginObject =>
    cases hw
    exact h.beginObject
  | write c =>
    obtain ⟨slots, rest, rfl, h'⟩ := h.write hw
    exact h'
  | endObject =>
    obtain ⟨slots, rest, f, rfl, h', -⟩ := h.endObject hw
    exact h'

theorem run {calls : List ObjectCall} (h : Marked keys w opened)
    (hw : calls.foldlM (NxsWriter.perform sorter) w = .ok w') : Marked keys w' (calls.foldl openSlots opened) := by
  induction calls generalizing w opened with
  | nil =>
    cases hw
    exact h
  | cons c calls ih =>
    rw [List.foldlM_cons] at hw
    obtain ⟨w₁, hw₁, hw⟩ := bind_eq_ok.mp hw
    exact ih (h.step hw₁) hw

end Marked

/-- The bits of written slots. -/
theorem mem_map_iff_any {n : ℕ} {slots : Finset (Fin n)} {written : List ℕ}
    (h : ∀ s, s ∈ written ↔ s ∈ slots.map Fin.valEmbedding) (s : ℕ) :
    s ∈ slots.map Fin.valEmbedding ↔ s < 7 * bitmaskLen n ∧ (written.any (· == s)) = true := by
  have hany : (written.any (· == s)) = true ↔ s ∈ written := by
    rw [List.any_eq_true]
    exact ⟨fun ⟨t, ht, hts⟩ => beq_iff_eq.mp hts ▸ ht, fun hs => ⟨s, hs, beq_self_eq_true s⟩⟩
  rw [hany, h s]
  refine ⟨fun hs => ⟨?_, hs⟩, And.right⟩
  obtain ⟨i, -, rfl⟩ := Finset.mem_map.mp hs
  have hdiv := div_lt_bitmaskLen i.isLt
  show (i : ℕ) < _
  omega

/-- The calls that write a value to each slot, in slot order. -/
def callsInOrder {n : ℕ} (slots : Finset (Fin n)) (arg : ℕ → Arg) : List Call :=
  (slots.map Fin.valEmbedding).sort.map fun s => ⟨s, arg s⟩

/-- Whatever the keys and the slots, each encoder makes a mask that says so: the compiler from a list of the
slots in any order and with repetitions, the compact encoder from one `bool` for every key, and the writer
by the writes to an object that it closes, whichever objects are open around it and were closed within it.
The writer can write any slots in slot order. -/
theorem masks_decode (keys : List String) (slots : Finset (Fin keys.length)) :
    (∀ present : List ℕ, (∀ s, s ∈ present ↔ s ∈ slots.map Fin.valEmbedding) →
      PresenceMask keys.length (slots.map Fin.valEmbedding) (Compiler.buildBitmask present keys.length)) ∧
    PresenceMask keys.length (slots.map Fin.valEmbedding)
      (buildBitmaskBytes ((List.finRange keys.length).map fun i => decide (i ∈ slots))) ∧
    (∀ (sorter : SlotSort) (calls : List ObjectCall) (w w' : NxsWriter) (written : List ℕ) (opened : List (List ℕ)),
      calls.foldlM (NxsWriter.perform sorter) (NxsWriter.new keys) = .ok w →
      calls.foldl openSlots [] = written :: opened → (∀ s, s ∈ written ↔ s ∈ slots.map Fin.valEmbedding) →
      w.endObjectBy sorter = .ok w' → ∃ f mask, w.frames.head? = some f ∧ At w'.buf (f.start + 8) mask ∧
        PresenceMask keys.length (slots.map Fin.valEmbedding) mask) ∧
    ∀ (sorter : SlotSort) (arg : ℕ → Arg) (w : NxsWriter), RowWriter keys w →
      ∃ w', w.writeObject sorter (callsInOrder slots arg) = .ok w' := by
  refine ⟨fun present hpresent => ?_, ?_, fun sorter calls w w' written opened hrun hopen hwritten hend => ?_,
    fun sorter arg w hw => ?_⟩
  · rw [Compiler.buildBitmask_eq fun s hs => ?_]
    · exact .of_maskBytes (mem_map_iff_any hpresent)
    · obtain ⟨i, -, rfl⟩ := Finset.mem_map.mp ((hpresent s).mp hs)
      exact i.isLt
  · have hbits : ∀ s, s ∈ slots.map Fin.valEmbedding ↔ s < 7 * bitmaskLen keys.length ∧
        (decide (s < keys.length) && ((List.finRange keys.length).map fun i => decide (i ∈ slots)).getD s false) = true := by
      intro s
      rw [Bool.and_eq_true, decide_eq_true_iff, Finset.mem_map]
      constructor
      · rintro ⟨i, hi, rfl⟩
        have hdiv := div_lt_bitmaskLen i.isLt
        refine ⟨?_, i.isLt, ?_⟩
        · show (i : ℕ) < _
          omega
        · simp [hi]
      · rintro ⟨-, hs, hbit⟩
        refine ⟨⟨s, hs⟩, ?_, rfl⟩
        simpa [hs] using hbit
    have hmask := buildBitmaskBytes_mask ((List.finRange keys.length).map fun i => decide (i ∈ slots))
    rw [List.length_map, List.length_finRange] at hmask
    rw [hmask]
    exact .of_maskBytes hbits
  · have hmarked := (Marked.new keys).run hrun
    rw [hopen] at hmarked
    obtain ⟨slots', rest, f, heq, -, hf, hframe, hat⟩ := hmarked.endObject hend
    obtain ⟨rfl, rfl⟩ := List.cons.inj heq
    rw [hframe.1] at hat
    exact ⟨f, _, hf, hat, .of_maskBytes (mem_map_iff_any hwritten)⟩
  · have hslots : ∀ c ∈ callsInOrder slots arg, c.slot / 7 < bitmaskLen keys.length := by
      intro c hc
      obtain ⟨s, hs, rfl⟩ := List.mem_map.mp hc
      obtain ⟨i, -, rfl⟩ := Finset.mem_map.mp ((Finset.mem_sort _).mp hs)
      exact div_lt_bitmaskLen i.isLt
    have hsorted : ((callCells (callsInOrder slots arg)).map Prod.fst).Pairwise (· ≤ ·) := by
      have hid : (Call.slot ∘ fun s => (⟨s, arg s⟩ : Call)) = id := rfl
      rw [callCells_slots, callsInOrder, List.map_map, hid, List.map_id]
      exact Finset.pairwise_sort _ _
    obtain ⟨-, w', -, hw', -⟩ := writeObject_ok hw sorter hslots (.inl hsorted)
    exact ⟨w', hw'⟩

/-- The first and the last of eight slots, from three encoders. -/
theorem masks_decode_eight : PresenceMask 8 {0, 7} [0x81, 0x01] ∧
    ∃ w', (NxsWriter.new ["a", "b", "c", "d", "e", "f", "g", "h"]).writeObject SlotSort.stable
      (callsInOrder ({0, 7} : Finset (Fin 8)) fun _ => .bool true) = .ok w' := by
  have h := masks_decode ["a", "b", "c", "d", "e", "f", "g", "h"] ({0, 7} : Finset (Fin 8))
  refine ⟨h.1 [7, 0] fun s => ?_, h.2.2.2 SlotSort.stable (fun _ => .bool true) _ (RowWriter.new _)⟩
  simp [Finset.map_insert, or_comm]

end Nyxis
