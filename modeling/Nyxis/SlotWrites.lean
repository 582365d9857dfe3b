import Mathlib.Data.List.Flatten
import Nyxis.Calls
import Nyxis.RowFile

/-!
# SlotWrites — what the slots of an object resolve to

`resolveSlot` takes the entry of the offset table at the rank of the slot among the present slots, while
the table has an entry for every write.  The two agree unless a lower slot was written more than once.

* `resolveSlot_filled`: which write a slot resolves to.
* `keepsSlots_iff`: when repeated writes leave the slots of an object as they should be.
* `slots_as_once`: slots that are kept read as if each was written once.
-/

namespace Nyxis

open Lib Lib.Outcome

/-! ## The parts of an object -/

section Parts

variable {d : Bytes} {off n : ℕ} {cells : List (ℕ × Bytes)} {offsets : List ℕ}
  (hat : At d off (filledObject n cells offsets))

include hat

theorem filledObject_mask : At d (off + 8) (maskBytes (bitmaskLen n) (objectSlots cells)) := by
  rw [filledObject, closedObject] at hat
  simp only [at_append, List.length_append, leBytes_length] at hat
  exact hat.1.1.2

/-- An entry of the offset table. -/
theorem filledObject_entry {i o : ℕ} (ho : offsets[i]? = some o) : At d (off + 8 + bitmaskLen n + i * 2) (leBytes 2 o) := by
  rw [filledObject, closedObject] at hat
  simp only [at_append, List.length_append, leBytes_length, maskBytes_length] at hat
  have htable := hat.1.2
  rw [Nat.add_assoc off]
  exact htable.trans (at_flatMap_const (fun m _ => leBytes_length 2 m) ho)

/-- The values, where the table leaves them alone. -/
theorem filledObject_values (hroom : offsets.length * 2 ≤ tableRoom n) : At d (off + objectStart n) (objectValues cells) := by
  have htable : (offsets.flatMap (leBytes 2)).length = offsets.length * 2 :=
    length_flatMap_const fun m _ => leBytes_length 2 m
  rw [filledObject, closedObject, List.drop_append_of_le_length (by rw [htable, zeros_length]; exact hroom), zeros_drop] at hat
  simp only [at_append, List.length_append, leBytes_length, maskBytes_length, zeros_length, htable] at hat
  have hvalues := hat.2.2
  have hstart : 4 + 4 + bitmaskLen n + offsets.length * 2 + (tableRoom n - offsets.length * 2) = objectStart n := by
    unfold objectStart objectHeaderLen tableRoom at *
    unfold objectHeaderLen at *
    omega
  rwa [Nat.add_assoc off, hstart] at hvalues

end Parts

/-- A present slot has an entry at its rank. -/
theorem objectSlots_rank_lt {cells : List (ℕ × Bytes)} {slot : ℕ} (hslot : objectSlots cells slot = true) :
    slotRank (objectSlots cells) slot < cells.length := by
  obtain ⟨c, hc, hcs⟩ := List.any_eq_true.mp hslot
  have hmem : slot ∈ cells.map Prod.fst := List.mem_map.mpr ⟨c, hc, beq_iff_eq.mp hcs⟩
  have hle := distinct_le_rank (cells.map Prod.fst) slot
  have hlt : (cells.map Prod.fst).countP (· < slot) < (cells.map Prod.fst).length := by
    refine Nat.lt_of_le_of_ne List.countP_le_length fun hall => ?_
    have := List.countP_eq_length.mp hall slot hmem
    simp at this
  rw [slotRank, objectSlots_eq]
  rw [List.length_map] at hlt
  omega

/-- A present slot resolves to one of the entries, whatever they are. -/
theorem resolveSlot_filled_entry {d : Bytes} {off n : ℕ} {cells : List (ℕ × Bytes)} {offsets : List ℕ}
    (hat : At d off (filledObject n cells offsets)) (hd : d.length < 2 ^ 63) (hcount : offsets.length = cells.length)
    (hsmall : ∀ o ∈ offsets, o < 65536) {slot : ℕ} (hslot : objectSlots cells slot = true)
    (hmask : slot / 7 < bitmaskLen n) : ∃ o ∈ offsets, resolveSlot d off slot = .ok (off + o) := by
  have hrank := objectSlots_rank_lt hslot
  rw [← hcount] at hrank
  have hentry := filledObject_entry hat (List.getElem?_eq_getElem hrank)
  have hmem := List.getElem_mem hrank
  exact ⟨_, hmem, resolveSlot_present (filledObject_mask hat) hd (by omega) hslot (hsmall _ hmem) hentry⟩

/-- A slot without a write is not found. -/
theorem resolveSlot_filled_none {d : Bytes} {off n : ℕ} {cells : List (ℕ × Bytes)} {offsets : List ℕ}
    (hat : At d off (filledObject n cells offsets)) (hd : d.length < 2 ^ 63) {slot : ℕ}
    (hslot : objectSlots cells slot = false) : resolveSlot d off slot = none' :=
  resolveSlot_absent (filledObject_mask hat) hd (Nat.lt_of_lt_of_le Nat.zero_lt_one (le_max_right _ _)) fun _ => hslot

section Resolve

variable {d : Bytes} {off n : ℕ} {cells : List (ℕ × Bytes)} {order : List (ℕ × ℕ)}
  (hat : At d off (filledObject n cells (order.map fun e => e.2 % 65536))) (horder : TableOrder n cells order)
  (hd : d.length < 2 ^ 63)

include hat hd

theorem resolveSlot_filled_absent {slot : ℕ} (hslot : objectSlots cells slot = false) : resolveSlot d off slot = none' :=
  resolveSlot_filled_none hat hd hslot

include horder

/-- A written slot resolves to the write whose number in slot order is the rank of the slot. -/
theorem resolveSlot_filled (hlen : objectLen n cells ≤ 65535) {c : ℕ × Bytes} (hc : c ∈ cells)
    (hslot : c.1 / 7 < bitmaskLen n) : ∃ e, order[slotRank (objectSlots cells) c.1]? = some e ∧
      resolveSlot d off c.1 = .ok (off + e.2) := by
  have hpresent : objectSlots cells c.1 = true := by
    rw [objectSlots, List.any_eq_true]
    exact ⟨c, hc, beq_self_eq_true _⟩
  have hrank : slotRank (objectSlots cells) c.1 < order.length := by
    rw [horder.length]
    exact objectSlots_rank_lt hpresent
  have hget := List.getElem?_eq_getElem hrank
  refine ⟨_, hget, ?_⟩
  have hbounds := cellPlaces_bounds (horder.perm.mem_iff.mp (List.getElem_mem hrank))
  have hsmall : (order[slotRank (objectSlots cells) c.1]).2 < 65536 := by
    unfold objectLen at hlen
    omega
  have hentry := filledObject_entry hat (i := slotRank (objectSlots cells) c.1)
    (o := (order[slotRank (objectSlots cells) c.1]).2) (by
      rw [List.getElem?_map, hget, Option.map_some, Nat.mod_eq_of_lt hsmall])
  exact resolveSlot_present (filledObject_mask hat) hd (by omega) hpresent hsmall hentry

end Resolve

/-! ## Repeated writes -/

/-- Only the highest of the slots may be repeated. -/
def RepeatsOnlyLast (slots : List ℕ) : Prop := ∀ s ∈ slots, (slots.filter (· < s)).Nodup

instance (slots : List ℕ) : Decidable (RepeatsOnlyLast slots) := inferInstanceAs (Decidable (∀ s ∈ slots, _))

/-- Wherever the object stands in a buffer, the slot resolves to position `p` in it. -/
def ResolvesTo (object : Bytes) (slot p : ℕ) : Prop :=
  ∀ d off, d.length < 2 ^ 63 → At d off object → resolveSlot d off slot = .ok (off + p)

/-- Wherever the object stands in a buffer, the slot is absent. -/
def ResolvesToNone (object : Bytes) (slot : ℕ) : Prop :=
  ∀ d off, d.length < 2 ^ 63 → At d off object → resolveSlot d off slot = none'

/-- What is expected of the object that some writes leave behind. -/
structure SlotsKept (n : ℕ) (calls : List Call) (object : Bytes) : Prop where
  /-- The header ends before the values start. -/
  header : 8 + bitmaskLen n + calls.length * 2 ≤ objectStart n
  /-- A written slot resolves to where one of its writes put its value, and the value is still there. -/
  written : ∀ c ∈ calls, ∃ p, (c.slot, p) ∈ cellPlaces (objectStart n) (callCells calls) ∧ ResolvesTo object c.slot p ∧
    ∃ c' ∈ calls, c'.slot = c.slot ∧ At object p c'.arg.bytesOf
  unwritten : ∀ slot, (∀ c ∈ calls, c.slot ≠ slot) → ResolvesToNone object slot

/-- The writes leave an object whose slots are kept, and those that were not repeated resolve as in the
object that is left when every slot is written once. -/
def KeepsSlots (sorter : SlotSort) (keys : List String) (w : NxsWriter) (calls : List Call) : Prop :=
  ∃ w' object, w.writeObject sorter calls = .ok w' ∧ w'.buf = w.buf ++ object ∧ SlotsKept keys.length calls object ∧
    ∀ (once : List Call) (w₁ : NxsWriter) (object₁ : Bytes), once.Sublist calls → (once.map Call.slot).Nodup →
      (∀ c ∈ calls, c.slot ∈ once.map Call.slot) → w.writeObject sorter once = .ok w₁ → w₁.buf = w.buf ++ object₁ →
      ∀ slot, (calls.map Call.slot).count slot ≤ 1 →
        (ResolvesToNone object slot ∧ ResolvesToNone object₁ slot) ∨
        ∃ c ∈ calls, c.slot = slot ∧ ∃ p p₁, ResolvesTo object slot p ∧ At object p c.arg.bytesOf ∧
          ResolvesTo object₁ slot p₁ ∧ At object₁ p₁ c.arg.bytesOf

/-- Writes to a slot that was written once are one write. -/
theorem eq_of_count_le_one {calls : List Call} {slot : ℕ} (h : (calls.map Call.slot).count slot ≤ 1) {a b : Call}
    (ha : a ∈ calls) (hb : b ∈ calls) (has : a.slot = slot) (hbs : b.slot = slot) : a = b := by
  have hfilter : (calls.filter fun c => c.slot == slot).length ≤ 1 := by
    rwa [List.count, List.countP_map, List.countP_eq_length_filter] at h
  have hmem : ∀ c ∈ calls, c.slot = slot → c ∈ calls.filter fun c => c.slot == slot := fun c hc hs =>
    List.mem_filter.mpr ⟨hc, beq_iff_eq.mpr hs⟩
  obtain ⟨i, hi, rfl⟩ := List.getElem_of_mem (hmem a ha has)
  obtain ⟨j, hj, rfl⟩ := List.getElem_of_mem (hmem b hb hbs)
  obtain rfl : i = j := by omega
  rfl

section Repeats

variable {sorter : SlotSort} {keys : List String} {w : NxsWriter} {calls : List Call} {order : List (ℕ × ℕ)}

theorem callSlots_any (calls : List Call) (slot : ℕ) :
    objectSlots (callCells calls) slot = (calls.map Call.slot).any (· == slot) := by
  rw [objectSlots_eq, callCells_slots]

theorem objectSlots_unwritten {slot : ℕ} (h : ∀ c ∈ calls, c.slot ≠ slot) : objectSlots (callCells calls) slot = false := by
  rw [callSlots_any, Bool.eq_false_iff, ne_eq, List.any_eq_true]
  rintro ⟨s, hs, hbeq⟩
  obtain ⟨c, hc, rfl⟩ := List.mem_map.mp hs
  exact h c hc (beq_iff_eq.mp hbeq)

/-- The entry at the rank of a slot belongs to the slot exactly if no lower slot repeats. -/
theorem order_at_rank (horder : TableOrder keys.length (callCells calls) order) {slot : ℕ} (hslot : slot ∈ calls.map Call.slot)
    {e : ℕ × ℕ} (he : order[slotRank (objectSlots (callCells calls)) slot]? = some e) :
    e.1 = slot ↔ ((calls.map Call.slot).filter (· < slot)).Nodup := by
  have hsorted := horder.slots_sorted
  have hslots := horder.slots
  rw [callCells_slots] at hslots
  have hget : (order.map Prod.fst)[slotRank (objectSlots (callCells calls)) slot]? = some e.1 := by
    rw [List.getElem?_map, he, Option.map_some]
  have hcount := hslots.countP_eq (· < slot)
  have hrank : slotRank (objectSlots (callCells calls)) slot =
      (List.range slot).countP fun i => (calls.map Call.slot).any (· == i) := by
    rw [slotRank]
    congr 1
    funext i
    exact callSlots_any calls i
  constructor
  · intro heq
    by_contra hrep
    rw [← distinct_eq_rank_iff, ← hrank] at hrep
    have hle := distinct_le_rank (calls.map Call.slot) slot
    rw [← hrank] at hle
    have hlt := lt_of_lt_rank hsorted (by rw [hcount]; exact Nat.lt_of_le_of_ne hle hrep) hget
    omega
  · intro hnd
    rw [← distinct_eq_rank_iff, ← hrank] at hnd
    have hfirst := getElem?_rank hsorted (hslots.mem_iff.mpr hslot)
    rw [hcount, ← hnd, hget] at hfirst
    exact Option.some.inj hfirst

variable (h : RowWriter keys w) (hslots : ∀ c ∈ calls, c.slot < keys.length)
  (hlen : objectLen keys.length (callCells calls) ≤ 65535)

include h hslots hlen

/-- Without repetitions below the highest slot the slots are kept. -/
theorem slotsKept_of (hrep : RepeatsOnlyLast (calls.map Call.slot)) (hroom : calls.length * 2 ≤ tableRoom keys.length)
    (hsort : Sortable w.buf.length keys.length (callCells calls)) :
    ∃ w' object, w.writeObject sorter calls = .ok w' ∧ w'.buf = w.buf ++ object ∧ SlotsKept keys.length calls object := by
  obtain ⟨order, w', horder, hw', hwrote⟩ := writeObject_ok h sorter (fun c hc => div_lt_bitmaskLen (hslots c hc)) hsort
  refine ⟨w', _, hw', hwrote.buf, ⟨?_, ?_, ?_⟩⟩
  · unfold objectStart objectHeaderLen
    unfold tableRoom objectHeaderLen at hroom
    omega
  · intro c hc
    have hcell : (c.slot, c.arg.bytesOf) ∈ callCells calls := List.mem_map_of_mem hc
    have hslot : c.slot ∈ calls.map Call.slot := List.mem_map_of_mem hc
    have hself := at_self (filledObject keys.length (callCells calls) (order.map fun e => e.2 % 65536))
    have hsmall : (filledObject keys.length (callCells calls) (order.map fun e => e.2 % 65536)).length < 2 ^ 63 := by
      rw [filledObject_length (by rw [hwrote.count, ← callCells_length]; exact table_fits (callCells_pos calls))]
      omega
    obtain ⟨e, he, -⟩ := resolveSlot_filled hself horder hsmall hlen hcell (div_lt_bitmaskLen (hslots c hc))
    have hown : e.1 = c.slot := (order_at_rank horder hslot he).mpr (hrep c.slot hslot)
    have hplace : (c.slot, e.2) ∈ cellPlaces (objectStart keys.length) (callCells calls) := by
      rw [← hown]
      exact horder.perm.mem_iff.mp (List.mem_of_getElem? he)
    refine ⟨e.2, hplace, ?_, ?_⟩
    · intro d off hd hat
      obtain ⟨e', he', hres⟩ := resolveSlot_filled hat horder hd hlen hcell (div_lt_bitmaskLen (hslots c hc))
      obtain rfl : e = e' := Option.some.inj (he.symm.trans he')
      exact hres
    · have hvalues := filledObject_values hself (by rw [hwrote.count]; exact hroom)
      rw [Nat.zero_add] at hvalues
      obtain ⟨cell, hmem, hcslot, hat⟩ := cellPlaces_at hvalues hplace
      obtain ⟨c', hc', rfl⟩ := List.mem_map.mp hmem
      exact ⟨c', hc', hcslot, hat⟩
  · intro slot hslot d off hd hat
    exact resolveSlot_filled_absent hat hd (objectSlots_unwritten hslot)

/-- Where the slots are kept, no slot below the highest was written twice, and the table had room. -/
theorem repeats_of_slotsKept {w' : NxsWriter} {object : Bytes} (hw : w.writeObject sorter calls = .ok w')
    (hbuf : w'.buf = w.buf ++ object) (hkept : SlotsKept keys.length calls object) :
    RepeatsOnlyLast (calls.map Call.slot) ∧ calls.length * 2 ≤ tableRoom keys.length ∧
      Sortable w.buf.length keys.length (callCells calls) := by
  obtain ⟨-, _, -, hsort⟩ := writeObject_eq_ok h sorter hw
  have hsort := hsort (cellPlaces_lt (by omega))
  obtain ⟨order, w₁, horder, hw₁, hwrote⟩ := writeObject_ok h sorter (fun c hc => div_lt_bitmaskLen (hslots c hc)) hsort
  obtain rfl : w' = w₁ := Outcome.ok.inj (hw.symm.trans hw₁)
  obtain rfl : object = _ := List.append_cancel_left (hbuf.symm.trans hwrote.buf)
  have hheader := hkept.header
  refine ⟨?_, ?_, hsort⟩
  · intro slot hslot
    obtain ⟨c, hc, rfl⟩ := List.mem_map.mp hslot
    have hcell : (c.slot, c.arg.bytesOf) ∈ callCells calls := List.mem_map_of_mem hc
    have hself := at_self (filledObject keys.length (callCells calls) (order.map fun e => e.2 % 65536))
    have hsmall : (filledObject keys.length (callCells calls) (order.map fun e => e.2 % 65536)).length < 2 ^ 63 := by
      rw [filledObject_length (by rw [hwrote.count, ← callCells_length]; exact table_fits (callCells_pos calls))]
      omega
    obtain ⟨e, he, hres⟩ := resolveSlot_filled hself horder hsmall hlen hcell (div_lt_bitmaskLen (hslots c hc))
    obtain ⟨p, hp, hto, -⟩ := hkept.written c hc
    have hsame := hto _ 0 hsmall hself
    rw [hres, Nat.zero_add, Nat.zero_add] at hsame
    have hpe : e.2 = p := Outcome.ok.inj hsame
    -- different writes put their values at different places
    have hmem := horder.perm.mem_iff.mp (List.mem_of_getElem? he)
    have hasc := cellPlaces_ascending (objectStart keys.length) (callCells calls)
      fun a ha => Nat.lt_of_lt_of_le (by decide) (callCells_pos calls a ha)
    have hinj : e = (c.slot, p) := by
      obtain ⟨i, hi, hie⟩ := List.getElem_of_mem hmem
      obtain ⟨j, hj, hje⟩ := List.getElem_of_mem hp
      have hord := List.pairwise_iff_getElem.mp hasc
      rcases Nat.lt_trichotomy i j with hij | rfl | hij
      · have := hord i j hi hj hij
        rw [hie, hje] at this
        dsimp only at this
        omega
      · rw [← hie, hje]
      · have := hord j i hj hi hij
        rw [hie, hje] at this
        dsimp only at this
        omega
    exact (order_at_rank horder hslot he).mp (by rw [hinj])
  · unfold objectStart objectHeaderLen at hheader
    unfold tableRoom objectHeaderLen
    omega

/-- Slots that were not repeated resolve as if every slot had been written once. -/
theorem slots_as_once {object object₁ : Bytes} {w₁ : NxsWriter} {once : List Call} (hkept : SlotsKept keys.length calls object)
    (hsub : once.Sublist calls) (hnd : (once.map Call.slot).Nodup) (hall : ∀ c ∈ calls, c.slot ∈ once.map Call.slot)
    (hw₁ : w.writeObject sorter once = .ok w₁) (hbuf₁ : w₁.buf = w.buf ++ object₁) {slot : ℕ}
    (hcount : (calls.map Call.slot).count slot ≤ 1) :
    (ResolvesToNone object slot ∧ ResolvesToNone object₁ slot) ∨
      ∃ c ∈ calls, c.slot = slot ∧ ∃ p p₁, ResolvesTo object slot p ∧ At object p c.arg.bytesOf ∧
        ResolvesTo object₁ slot p₁ ∧ At object₁ p₁ c.arg.bytesOf := by
  have hslots₁ : ∀ c ∈ once, c.slot < keys.length := fun c hc => hslots c (hsub.subset hc)
  have hlen₁ : objectLen keys.length (callCells once) ≤ 65535 := by
    have hle : (objectValues (callCells once)).length ≤ (objectValues (callCells calls)).length :=
      ((hsub.map _).flatMap _).length_le
    unfold objectLen at hlen ⊢
    omega
  obtain ⟨-, _, -, hsort₁⟩ := writeObject_eq_ok h sorter hw₁
  have hroom : once.length * 2 ≤ tableRoom keys.length := by
    have hheader := hkept.header
    have hle := hsub.length_le
    unfold objectStart objectHeaderLen at hheader
    unfold tableRoom objectHeaderLen
    omega
  obtain ⟨w₂, object₂, hw₂, hbuf₂, hkept₁⟩ := slotsKept_of h hslots₁ hlen₁ (fun s _ => hnd.filter _) hroom
    (hsort₁ (cellPlaces_lt (by omega)))
  obtain rfl : w₁ = w₂ := Outcome.ok.inj (hw₁.symm.trans hw₂)
  obtain rfl : object₁ = object₂ := List.append_cancel_left (hbuf₁.symm.trans hbuf₂)
  by_cases hwritten : ∃ c ∈ calls, c.slot = slot
  · right
    obtain ⟨c, hc, rfl⟩ := hwritten
    obtain ⟨p, -, hres, c', hc', hslot', hat⟩ := hkept.written c hc
    obtain ⟨a, ha, haslot⟩ := List.mem_map.mp (hall c hc)
    obtain ⟨p₁, -, hres₁, c₁, hc₁, hslot₁, hat₁⟩ := hkept₁.written a ha
    obtain rfl : c' = c₁ := eq_of_count_le_one hcount hc' (hsub.subset hc₁) hslot' (hslot₁.trans haslot)
    rw [haslot] at hres₁
    exact ⟨c', hc', hslot', p, p₁, hres, hat, hres₁, hat₁⟩
  · left
    have hnone : ∀ c ∈ calls, c.slot ≠ slot := fun c hc hs => hwritten ⟨c, hc, hs⟩
    exact ⟨hkept.unwritten slot hnone, hkept₁.unwritten slot fun c hc => hnone c (hsub.subset hc)⟩

/-- Repeated writes keep the slots exactly where only the highest slot is repeated and the header has room
for an entry for every write; where slots came out of order, the positions sorted must not be cut. -/
theorem keepsSlots_iff : KeepsSlots sorter keys w calls ↔ RepeatsOnlyLast (calls.map Call.slot) ∧
    calls.length * 2 ≤ tableRoom keys.length ∧ Sortable w.buf.length keys.length (callCells calls) := by
  constructor
  · rintro ⟨w', object, hw', hbuf, hkept, -⟩
    exact repeats_of_slotsKept h hslots hlen hw' hbuf hkept
  · rintro ⟨hrep, hroom, hsort⟩
    obtain ⟨w', object, hw', hbuf, hkept⟩ : ∃ w' object, w.writeObject sorter calls = .ok w' ∧ w'.buf = w.buf ++ object ∧
      SlotsKept keys.length calls object := slotsKept_of h hslots hlen hrep hroom hsort
    refine ⟨w', object, hw', hbuf, hkept, ?_⟩
    intro once w₁ object₁ hsub hnd hall hw₁ hbuf₁ slot hcount
    exact slots_as_once h hslots hlen hkept hsub hnd hall hw₁ hbuf₁ hcount

end Repeats

/-- The highest of two slots may be written twice. -/
theorem keepsSlots_last_twice : KeepsSlots SlotSort.stable ["a", "b"] (NxsWriter.new ["a", "b"])
    [⟨0, .i64 1⟩, ⟨1, .i64 2⟩, ⟨1, .i64 3⟩] :=
  (keepsSlots_iff (RowWriter.new _) (by decide) (by decide)).mpr ⟨by decide, by decide, Or.inl (by decide)⟩

/-- A slot below another one must not: slot 1 resolves to the second value of slot 0. -/
theorem keepsSlots_not_first_twice : ¬ KeepsSlots SlotSort.stable ["a", "b"] (NxsWriter.new ["a", "b"])
    [⟨0, .i64 1⟩, ⟨0, .i64 2⟩, ⟨1, .i64 3⟩] := by
  rintro ⟨w', object, hw', hbuf, hkept, -⟩
  obtain ⟨hrep, -⟩ := repeats_of_slotsKept (RowWriter.new _) (by decide) (by decide) hw' hbuf hkept
  exact absurd hrep (by decide)

end Nyxis
