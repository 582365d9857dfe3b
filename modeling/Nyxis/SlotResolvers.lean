import Nyxis.Lib.Tables
import Nyxis.PresenceMasks
import Nyxis.RowObject
import Nyxis.WalRebuild

/-!
# SlotResolvers — the readers of an offset table

Five functions walk the mask of an object and take an entry of the offset table by the number of bits in
front of a slot.  A mask over which one walk ends is `maskBytes` of its bits, whoever wrote it
(`readMask_eq_ok`), so that what is known of written masks holds of any bytes.

* `FieldTable.lookup_present`, `FieldTable.lookup_absent`: where the decoder finds a slot.
* `resolvers_agree`: the other readers find it there.
-/

namespace Nyxis

open Lib Lib.Outcome

/-! ## Masks in arbitrary bytes -/

theorem byteOfBits_testBit (b : UInt8) : byteOfBits (fun i => b.toNat.testBit i) = b := by
  apply UInt8.toNat.inj
  refine Nat.eq_of_testBit_eq fun j => ?_
  by_cases hj : j < 8
  · exact testBit_byteOfBits _ hj
  · have hout : ∀ c : UInt8, c.toNat.testBit j = false := fun c =>
      Nat.testBit_lt_two_pow (c.toNat_lt.trans_le (Nat.pow_le_pow_right (by decide) (by omega : 8 ≤ j)))
    rw [hout, hout]

/-- A byte from its lower bits and its continuation bit. -/
theorem byteOfBits_more {b : UInt8} {more : Bool} {q : ℕ → Bool} (hb : moreMask b = more)
    (hq : ∀ j < 7, q j = b.toNat.testBit j) : byteOfBits (fun j => if j = 7 then more else q j) = b := by
  have hbits : byteOfBits (fun j => if j = 7 then more else q j) = byteOfBits fun j => b.toNat.testBit j := by
    refine byteOfBits_congr fun j hj => ?_
    by_cases h7 : j = 7
    · rw [if_pos h7, h7, ← hb, moreMask]
    · rw [if_neg h7, hq j (by omega)]
  rw [hbits, byteOfBits_testBit]

theorem maskBytes_one {b : UInt8} (hb : moreMask b = false) : maskBytes 1 (fun i => b.toNat.testBit i) = [b] := by
  have hbyte := @byteOfBits_more b false (fun j => b.toNat.testBit (7 * 0 + j)) hb fun j _ => by rw [Nat.mul_zero, Nat.zero_add]
  exact congrArg (fun c => [c]) hbyte

/-- A byte in front of a mask, with its continuation bit set. -/
theorem maskBytes_cons {b : UInt8} (hb : moreMask b = true) {k : ℕ} (hk : 0 < k) (p : ℕ → Bool) :
    maskBytes (k + 1) (fun i => if i < 7 then b.toNat.testBit i else p (i - 7)) = b :: maskBytes k p := by
  rw [maskBytes, List.range_succ_eq_map, List.map_cons, List.map_map]
  refine List.cons_eq_cons.mpr ⟨?_, ?_⟩
  · rw [decide_eq_true (by omega : 0 + 1 < k + 1)]
    refine byteOfBits_more hb fun j hj => ?_
    rw [Nat.mul_zero, Nat.zero_add, if_pos hj]
  · refine List.map_congr_left fun i _ => ?_
    rw [Function.comp_apply]
    refine byteOfBits_congr fun j hj => ?_
    by_cases h7 : j = 7
    · rw [if_pos h7, if_pos h7, decide_eq_decide]
      omega
    · rw [if_neg h7, if_neg h7, if_neg (by omega), Nat.mul_succ]
      congr 1
      omega

/-- Where the walk ends, a mask stands: the bits read are its bits. -/
theorem readMask_eq_ok {d : Bytes} : ∀ {fuel pos : ℕ} {bits bits' : List Bool} {stop : ℕ},
    readMask d fuel pos bits = .ok (bits', stop) → ∃ k p, 0 < k ∧ k ≤ fuel ∧ At d pos (maskBytes k p) ∧
      bits' = bits ++ (List.range (7 * k)).map p ∧ stop = pos + k
  | 0, _, _, _, _, h => by cases h
  | fuel + 1, pos, bits, bits', stop, h => by
    obtain ⟨b, hb, h⟩ := bind_eq_ok.mp h
    have hget := List.getElem?_eq_some_iff.mp (ofOption_eq_ok.mp hb)
    obtain ⟨hpos, hget⟩ := hget
    have hat : At d pos [b] := at_of_take_drop (by omega : pos + 1 ≤ d.length) (by
      rw [List.drop_eq_getElem_cons hpos, hget]
      rfl)
    dsimp only at h
    by_cases hmore : moreMask b = true
    · rw [if_pos hmore] at h
      obtain ⟨k, p, hk, hle, hmask, rfl, rfl⟩ := readMask_eq_ok h
      refine ⟨k + 1, fun i => if i < 7 then b.toNat.testBit i else p (i - 7), by omega, by omega, ?_, ?_, by omega⟩
      · rw [maskBytes_cons hmore hk]
        exact at_cons.mpr ⟨hat, hmask⟩
      · rw [List.append_assoc, Nat.mul_succ, Nat.add_comm (7 * k), List.range_add, List.map_append, List.map_map]
        have hlow : (List.range 7).map (fun i => if i < 7 then b.toNat.testBit i else p (i - 7)) =
            (List.range 7).map fun bit => b.toNat.testBit bit :=
          List.map_congr_left fun i hi => if_pos (List.mem_range.mp hi)
        have hhigh : (List.range (7 * k)).map ((fun i => if i < 7 then b.toNat.testBit i else p (i - 7)) ∘ fun x => 7 + x) =
            (List.range (7 * k)).map p := by
          refine List.map_congr_left fun i _ => ?_
          rw [Function.comp_apply, if_neg (by omega), Nat.add_sub_cancel_left]
        rw [hlow, hhigh]
    · rw [if_neg hmore] at h
      cases h
      refine ⟨1, fun i => b.toNat.testBit i, Nat.one_pos, by omega, ?_, rfl, rfl⟩
      rw [maskBytes_one (Bool.eq_false_iff.mpr hmore)]
      exact hat

/-! ## The decoder -/

/-- What `decodeObject` does before it decodes a value: each present slot with the position of its value. -/
def objectFields (d : Bytes) (offset : ℕ) : Res (List (ℕ × ℕ)) := do
  let body ← usizeAdd offset 8
  ensure (¬ body > d.length) .outOfBounds
  let magic ← readLE d offset 4
  ensure (magic = MAGIC_OBJ) .badMagic
  let (bits, pos) ← okOr (readMask d 74 body []) .outOfBounds
  let slots := presentSlots bits
  ensure (¬ slots.length > 512) .outOfBounds
  let offsets ← (List.range slots.length).mapM (readOffset d offset pos)
  .ok (slots.zip offsets)

theorem decodeObject_eq (d : Bytes) (offset : ℕ) (keys : List String) (sigils : List UInt8) :
    decodeObject d offset keys sigils = objectFields d offset >>= fun fields => fields.mapM (decodeField d keys sigils) := by
  simp only [decodeObject, objectFields, bind_assoc, ok_bind]

/-- What the decoder has read when it knows the positions of the values. -/
structure FieldTable (d : Bytes) (off : ℕ) (fields : List (ℕ × ℕ)) (k : ℕ) (p : ℕ → Bool) : Prop where
  magic : readLE d off 4 = (.ok MAGIC_OBJ : Res ℕ)
  body : off + 8 ≤ d.length
  pos : 0 < k
  le : k ≤ 74
  mask : At d (off + 8) (maskBytes k p)
  slots : fields.map Prod.fst = (List.range (7 * k)).filter p
  entries : ∀ i f, fields[i]? = some f → readOffset d off (off + 8 + k) i = .ok f.2

theorem FieldTable.of_ok {d : Bytes} {off : ℕ} {fields : List (ℕ × ℕ)} (h : objectFields d off = .ok fields) :
    ∃ k p, FieldTable d off fields k p := by
  obtain ⟨body, hbody, h⟩ := bind_eq_ok.mp h
  obtain rfl : body = off + 8 := by
    rw [usizeAdd] at hbody
    split at hbody
    · exact (Outcome.ok.inj hbody).symm
    · cases hbody
  obtain ⟨_, hroom, h⟩ := bind_eq_ok.mp h
  rw [ensure_eq_ok] at hroom
  obtain ⟨magic, hmagic, h⟩ := bind_eq_ok.mp h
  obtain ⟨_, heq, h⟩ := bind_eq_ok.mp h
  rw [ensure_eq_ok] at heq
  rw [heq] at hmagic
  obtain ⟨⟨bits, pos⟩, hmask, h⟩ := bind_eq_ok.mp h
  obtain ⟨k, p, hk, hle, hat, rfl, rfl⟩ := readMask_eq_ok (okOr_eq_ok hmask)
  obtain ⟨_, -, h⟩ := bind_eq_ok.mp h
  obtain ⟨offsets, hoffsets, h⟩ := bind_eq_ok.mp h
  cases h
  have hrel := mapM_eq_ok.mp hoffsets
  have hlen := hrel.length_eq
  rw [List.length_range] at hlen
  rw [List.nil_append, presentSlots_map] at hlen hrel ⊢
  refine ⟨k, p, hmagic, by omega, hk, hle, hat, ?_, fun i f hf => ?_⟩
  · exact List.map_fst_zip (Nat.le_of_eq hlen)
  · obtain ⟨hi, hoff⟩ := List.getElem?_eq_some_iff.mp (List.getElem?_zip_eq_some.mp hf).2
    have hread := List.Forall₂.get hrel (by rw [List.length_range]; omega) hi
    rw [List.get_eq_getElem, List.get_eq_getElem, List.getElem_range, hoff] at hread
    exact hread

/-- The present slots in order: each one stands at its rank. -/
theorem filter_range_rank {p : ℕ → Bool} {s m : ℕ} (hs : s < m) (hp : p s = true) :
    ((List.range m).filter p)[slotRank p s]? = some s := by
  have hsorted : ((List.range m).filter p).Pairwise (· ≤ ·) := (List.pairwise_lt_range.imp Nat.le_of_lt).filter p
  have hmem : s ∈ (List.range m).filter p := List.mem_filter.mpr ⟨List.mem_range.mpr hs, hp⟩
  have hrank : ((List.range m).filter p).countP (· < s) = slotRank p s := by
    have hsplit : List.range m = List.range s ++ (List.range (m - s)).map (s + ·) := by
      rw [← List.range_add, Nat.add_sub_cancel' (Nat.le_of_lt hs)]
    have hbelow : (List.range s).countP (fun i => decide (i < s) && p i) = (List.range s).countP p :=
      List.countP_congr fun i hi => by simp [List.mem_range.mp hi]
    have habove : ((List.range (m - s)).map (s + ·)).countP (fun i => decide (i < s) && p i) = 0 := by
      rw [List.countP_eq_zero]
      intro i hi
      obtain ⟨j, -, rfl⟩ := List.mem_map.mp hi
      simp
    rw [List.countP_filter, hsplit, List.countP_append, hbelow, habove]
    rfl
  rw [← hrank]
  exact Lib.getElem?_rank hsorted hmem

/-- The present slots, with the rank of each. -/
theorem zipIdx_filter_range (p : ℕ → Bool) (m : ℕ) :
    ((List.range m).filter p).zipIdx = ((List.range m).filter p).map fun s => (s, slotRank p s) := by
  refine List.ext_getElem (by rw [List.length_zipIdx, List.length_map]) fun i hi hi' => ?_
  rw [List.getElem_zipIdx, List.getElem_map, Nat.zero_add]
  rw [List.length_zipIdx] at hi
  have hslot := List.getElem?_eq_getElem hi
  obtain ⟨hlt, hp⟩ := List.mem_filter.mp (List.getElem_mem hi)
  exact congrArg _ ((List.getElem?_inj hi (List.nodup_range.filter p)).mp
    (hslot.trans (filter_range_rank (List.mem_range.mp hlt) hp).symm))

namespace FieldTable

variable {d : Bytes} {off k : ℕ} {fields : List (ℕ × ℕ)} {p : ℕ → Bool} {s : ℕ}

theorem nodup (h : FieldTable d off fields k p) : (fields.map Prod.fst).Nodup := by
  rw [h.slots]
  exact List.nodup_range.filter p

/-- A present slot has the field of its rank. -/
theorem getElem?_rank (h : FieldTable d off fields k p) (hs : s < 7 * k) (hp : p s = true) :
    ∃ v, fields[slotRank p s]? = some (s, v) := by
  have hget := filter_range_rank hs hp
  rw [← h.slots, List.getElem?_map, Option.map_eq_some_iff] at hget
  obtain ⟨⟨t, v⟩, hf, rfl⟩ := hget
  exact ⟨v, hf⟩

/-- A present slot has its field, which the entry at its rank gives. -/
theorem lookup_present (h : FieldTable d off fields k p) (hs : s < 7 * k) (hp : p s = true) :
    ∃ v, fields.lookup s = some v ∧ readOffset d off (off + 8 + k) (slotRank p s) = .ok v := by
  obtain ⟨v, hv⟩ := h.getElem?_rank hs hp
  exact ⟨v, lookup_of_mem h.nodup (List.mem_of_getElem? hv), h.entries _ _ hv⟩

theorem lookup_absent (h : FieldTable d off fields k p) (hs : s < 7 * k → p s = false) : fields.lookup s = none := by
  refine List.lookup_eq_none_iff.mpr fun e he => ?_
  have hmem : e.1 ∈ fields.map Prod.fst := List.mem_map_of_mem he
  rw [h.slots, List.mem_filter, List.mem_range] at hmem
  rw [bne_iff_ne]
  rintro rfl
  rw [hs hmem.1] at hmem
  exact Bool.false_ne_true hmem.2

theorem readMask (h : FieldTable d off fields k p) :
    Nyxis.readMask d 74 (off + 8) [] = .ok ((List.range (7 * k)).map p, off + 8 + k) :=
  readMask_maskBytes h.mask k 0 74 (by omega) h.pos h.le

/-- The slots with a field are those whose bit is set. -/
theorem isSome_lookup (h : FieldTable d off fields k p) (slot : ℕ) :
    (fields.lookup slot).isSome = ((List.range (7 * k)).map p).getD slot false := by
  rw [List.getD_eq_getElem?_getD, List.getElem?_map]
  by_cases hslot : slot < 7 * k
  · rw [List.getElem?_range hslot, Option.map_some, Option.getD_some]
    cases hp : p slot with
    | true =>
      obtain ⟨v, hv, -⟩ := h.lookup_present hslot hp
      rw [hv, Option.isSome_some]
    | false => rw [h.lookup_absent fun _ => hp, Option.isSome_none]
  · rw [List.getElem?_eq_none (by rw [List.length_range]; omega), h.lookup_absent fun hlt => absurd hlt hslot]
    rfl

end FieldTable

theorem at_word {d : Bytes} {pos w : ℕ} (h : pos + w ≤ d.length) : At d pos (leBytes w (word d pos w)) := by
  have hlen : ((d.drop pos).take w).length = w := by
    rw [List.length_take, List.length_drop]
    omega
  have hbytes := leBytes_leNat ((d.drop pos).take w)
  rw [hlen] at hbytes
  exact at_of_take_drop h hbytes.symm

/-- An entry that is read stands in the table. -/
theorem readOffset_eq_ok {d : Bytes} {off pos i v : ℕ} (h : readOffset d off pos i = .ok v) :
    pos + i * 2 + 2 ≤ d.length ∧ v = off + word d (pos + i * 2) 2 := by
  have hadd : ∀ {a b c : ℕ}, (usizeAdd a b : Res ℕ) = .ok c → c = a + b := by
    intro a b c hc
    rw [usizeAdd] at hc
    split at hc
    · exact (Outcome.ok.inj hc).symm
    · cases hc
  have hmul : ∀ {a b c : ℕ}, (usizeMul a b : Res ℕ) = .ok c → c = a * b := by
    intro a b c hc
    rw [usizeMul] at hc
    split at hc
    · exact (Outcome.ok.inj hc).symm
    · cases hc
  obtain ⟨rel, hrel, h⟩ := bind_eq_ok.mp h
  obtain ⟨entry, hentry, h⟩ := bind_eq_ok.mp h
  obtain ⟨stop, -, h⟩ := bind_eq_ok.mp h
  obtain ⟨_, -, h⟩ := bind_eq_ok.mp h
  obtain ⟨r, hr, h⟩ := bind_eq_ok.mp h
  obtain rfl := hmul hrel
  obtain rfl := hadd hentry
  obtain ⟨-, rfl, hle⟩ := readLE_eq_ok hr
  exact ⟨hle, hadd h⟩

/-! ## The copy in the compact reader -/

/-- `maskLoop` with an unchecked step to the next byte. -/
def maskLoopV12 (d : Bytes) (slot : ℕ) : ℕ → ℕ → MaskState → Opt (ℕ × ℕ × UInt8)
  | 0, _, _ => none'
  | fuel + 1, p, st => do
    let b ← get d p
    let p ← usizeAdd p 1
    let st ← (List.range 7).foldlM (maskBit b slot) st
    if st.found && !moreMask b then .ok (p, st.tableIdx, b)
    else if st.cur > slot ∧ st.found then .ok (p, st.tableIdx, b)
    else if !moreMask b then none'
    else maskLoopV12 d slot fuel p st

def skipMaskV12 (d : Bytes) : ℕ → ℕ → UInt8 → Opt ℕ
  | 0, _, _ => none'
  | fuel + 1, p, b =>
    if moreMask b then do
      let b ← get d p
      let p ← usizeAdd p 1
      skipMaskV12 d fuel p b
    else .ok p

def resolveSlotV12 (d : Bytes) (objOffset slot : ℕ) : Opt ℕ := do
  let p ← checkedAdd objOffset 8
  let (p, idx, b) ← maskLoopV12 d slot (d.length + 1) p ⟨0, 0, false⟩
  let p ← skipMaskV12 d (d.length + 1) p b
  let tableOff ← usizeMul idx 2
  let entry ← usizeAdd p tableOff
  let stop ← usizeAdd entry 2
  let bytes ← getRange d entry stop
  checkedAdd objOffset (leNat bytes)

section V12

variable {d : Bytes} (hd : d.length < 2 ^ 63)

include hd

/-- A step behind a byte that was read does not overflow. -/
theorem step_checked {p : ℕ} {b : UInt8} (h : get d p = .ok b) :
    (usizeAdd p 1 : Opt ℕ) = .ok (p + 1) ∧ checkedAdd p 1 = .ok (p + 1) := by
  have hp := (List.getElem?_eq_some_iff.mp (ofOption_eq_ok.mp h)).1
  exact ⟨usizeAdd_of (by omega), checkedAdd_of (by omega)⟩

theorem maskLoopV12_eq {slot : ℕ} : ∀ (fuel p : ℕ) (st : MaskState), maskLoopV12 d slot fuel p st = maskLoop d slot fuel p st
  | 0, _, _ => rfl
  | fuel + 1, p, st => by
    rw [maskLoopV12, maskLoop]
    cases hget : get d p with
    | ok b =>
      obtain ⟨hu, hc⟩ := step_checked hd hget
      simp only [ok_bind, hu, hc, maskLoopV12_eq fuel]
    | err e => rfl
    | panic => rfl

theorem skipMaskV12_eq : ∀ (fuel p : ℕ) (b : UInt8), skipMaskV12 d fuel p b = skipMask d fuel p b
  | 0, _, _ => rfl
  | fuel + 1, p, b => by
    rw [skipMaskV12, skipMask]
    cases hget : get d p with
    | ok c =>
      obtain ⟨hu, hc⟩ := step_checked hd hget
      simp only [ok_bind, hu, hc, skipMaskV12_eq fuel]
    | err e => rfl
    | panic => rfl

end V12

/-! ## The resolvers -/

namespace FieldTable

variable {d : Bytes} {off k : ℕ} {fields : List (ℕ × ℕ)} {p : ℕ → Bool} (h : FieldTable d off fields k p)
  (hd : d.length < 2 ^ 63)

include h hd

theorem resolveSlot_eq (slot : ℕ) : resolveSlot d off slot = .ofOption (fields.lookup slot) := by
  by_cases hslot : slot < 7 * k ∧ p slot = true
  · obtain ⟨v, hv, hread⟩ := h.lookup_present hslot.1 hslot.2
    obtain ⟨hle, rfl⟩ := readOffset_eq_ok hread
    rw [hv]
    exact resolveSlot_present h.mask hd hslot.1 hslot.2 (word_lt _ _ 2) (at_word hle)
  · have habsent : slot < 7 * k → p slot = false := fun hlt => Bool.eq_false_iff.mpr fun hp => hslot ⟨hlt, hp⟩
    rw [h.lookup_absent habsent]
    exact resolveSlot_absent h.mask hd h.pos habsent

theorem resolveSlotV12_eq (slot : ℕ) : resolveSlotV12 d off slot = .ofOption (fields.lookup slot) := by
  have hbody := h.body
  rw [← h.resolveSlot_eq hd slot, resolveSlotV12, resolveSlot, checkedAdd_of (by omega), ok_bind, ok_bind, maskLoopV12_eq hd]
  by_cases hslot : slot < 7 * k ∧ p slot = true
  · have hk := h.le
    have hloop := maskLoop_present h.mask hd hslot.1 hslot.2 k 0 (d.length + 1) (by omega) (by omega) (by
      have := h.mask.le
      rw [maskBytes_length] at this
      omega)
    rw [Nat.mul_zero, slotRank_zero, Nat.add_zero] at hloop
    have hrank : slotRank p slot ≤ slot := by
      have := List.countP_le_length (p := p) (l := List.range slot)
      rwa [List.length_range] at this
    obtain ⟨v, -, hread⟩ := h.lookup_present hslot.1 hslot.2
    have hskip := skipMask_maskBytes h.mask hd (k - (slot / 7 + 1)) (slot / 7) (d.length + 1)
      (fun b => p (7 * (slot / 7) + b)) (by omega) (by
        have := h.mask.le
        rw [maskBytes_length] at this
        omega)
    obtain ⟨hle, -⟩ := readOffset_eq_ok hread
    rw [hloop, ok_bind, ok_bind]
    dsimp only
    rw [skipMaskV12_eq hd, hskip, ok_bind, ok_bind, tableEntry, usizeMul_of (by omega), checkedMul_of (by omega), ok_bind,
      ok_bind, usizeAdd_of (by omega), checkedAdd_of (by omega), ok_bind, ok_bind, usizeAdd_of (by omega),
      checkedAdd_of (by omega)]
  · have habsent : slot < 7 * k → p slot = false := fun hlt => Bool.eq_false_iff.mpr fun hp => hslot ⟨hlt, hp⟩
    have hloop := maskLoop_absent h.mask hd habsent k 0 (d.length + 1) (by omega) h.pos (by omega)
    rw [Nat.mul_zero, slotRank_zero, Nat.add_zero] at hloop
    rw [hloop]
    rfl

end FieldTable

/-! ## The reader of trace and span ids -/

theorem at_of_piece {d seg : Bytes} {off len pos : ℕ} (h : At ((d.drop off).take len) pos seg) (hoff : off ≤ d.length) :
    At d (off + pos) seg := by
  have hpiece : At d off ((d.drop off).take len) :=
    ⟨d.take off, (d.drop off).drop len, by rw [List.append_assoc, List.take_append_drop, List.take_append_drop],
      by rw [List.length_take]; omega⟩
  exact hpiece.trans h

theorem word_piece {d : Bytes} {off len pos w : ℕ} (h : pos + w ≤ ((d.drop off).take len).length) :
    word ((d.drop off).take len) pos w = word d (off + pos) w := by
  rw [List.length_take] at h
  rw [word_take (by omega), word, word, List.drop_drop]

/-- Two masks at one place are one mask. -/
theorem maskBytes_unique {d : Bytes} {pos k k' : ℕ} {p p' : ℕ → Bool} (h : At d pos (maskBytes k p)) (hk : 0 < k)
    (h' : At d pos (maskBytes k' p')) (hk' : 0 < k') : k = k' ∧ ∀ i < 7 * k, p i = p' i := by
  have hread := readMask_maskBytes h k 0 (max k k') (by omega) hk (le_max_left _ _)
  have hread' := readMask_maskBytes h' k' 0 (max k k') (by omega) hk' (le_max_right _ _)
  rw [show (List.range (7 * 0)).map p = (List.range (7 * 0)).map p' from rfl, hread'] at hread
  obtain ⟨hbits, hstop⟩ := Prod.mk.inj (Outcome.ok.inj hread)
  obtain rfl : k = k' := by omega
  exact ⟨rfl, fun i hi => (List.map_inj_left.mp hbits i (List.mem_range.mpr hi)).symm⟩

theorem FieldTable.readSlot_eq_ok {d : Bytes} {off k len slot : ℕ} {fields : List (ℕ × ℕ)} {p p' : ℕ → Bool} {u : UInt64}
    (h : FieldTable d off fields k p) (hd : d.length < 2 ^ 63) (hp : ∀ i < 7 * k, p i = p' i)
    (hread : readSlot ((d.drop off).take len) ((List.range (7 * k)).map p') (8 + k) slot = .ok u) :
    ∃ v n, fields.lookup slot = some v ∧ readLE d v 8 = (.ok n : Res ℕ) ∧ u = .ofNat n := by
  obtain ⟨_, hset, hread⟩ := bind_eq_ok.mp hread
  obtain ⟨_, -, hread⟩ := bind_eq_ok.mp hread
  obtain ⟨rel, hrel, hread⟩ := bind_eq_ok.mp hread
  obtain ⟨_, -, hread⟩ := bind_eq_ok.mp hread
  obtain ⟨n, hn, hread⟩ := bind_eq_ok.mp hread
  cases hread
  rw [ensure_eq_ok, List.getD_eq_getElem?_getD, List.getElem?_map] at hset
  have hslot : slot < 7 * k := by
    by_contra hnot
    rw [List.getElem?_eq_none (by rw [List.length_range]; omega)] at hset
    cases hset
  rw [List.getElem?_range hslot, Option.map_some, Option.getD_some, ← hp slot hslot] at hset
  obtain ⟨v, hv, hoff⟩ := h.lookup_present hslot hset
  obtain ⟨-, rfl⟩ := readOffset_eq_ok hoff
  have hrank : (((List.range (7 * k)).map p').take slot).count true = slotRank p slot := by
    rw [← List.map_take, List.take_range, Nat.min_eq_left (Nat.le_of_lt hslot), List.count, List.countP_map, slotRank]
    refine List.countP_congr fun i hi => ?_
    have hlt := List.mem_range.mp hi
    rw [Function.comp_apply, beq_iff_eq, hp i (by omega)]
  rw [hrank] at hrel
  obtain ⟨-, rfl, hroom⟩ := readLE_eq_ok hrel
  obtain ⟨-, rfl, hvroom⟩ := readLE_eq_ok hn
  rw [word_piece hroom] at hvroom ⊢
  rw [word_piece hvroom]
  rw [← Nat.add_assoc, ← Nat.add_assoc] at hvroom ⊢
  have hle : off + word d (off + 8 + k + slotRank p slot * 2) 2 + 8 ≤ d.length := by
    rw [List.length_take, List.length_drop] at hvroom
    omega
  exact ⟨_, _, hv, readLE_word hle hd, rfl⟩

theorem FieldTable.extract_eq_ok {d : Bytes} {off k len : ℕ} {fields : List (ℕ × ℕ)} {p : ℕ → Bool} {ids : ℕ × UInt64}
    (h : FieldTable d off fields k p) (hd : d.length < 2 ^ 63)
    (hids : extractTraceSpanId ((d.drop off).take len) = .ok ids) :
    ∃ v₀ v₁ v₂ hi lo id, fields.lookup 0 = some v₀ ∧ fields.lookup 1 = some v₁ ∧ fields.lookup 2 = some v₂ ∧
      readLE d v₀ 8 = (.ok hi : Res ℕ) ∧ readLE d v₁ 8 = (.ok lo : Res ℕ) ∧ readLE d v₂ 8 = (.ok id : Res ℕ) ∧
      ids = (traceIdOf (.ofNat hi) (.ofNat lo), .ofNat id) := by
  obtain ⟨⟨bits, tableStart⟩, hmask, hids⟩ := bind_eq_ok.mp hids
  obtain ⟨k', p', hk', -, hat, rfl, rfl⟩ := readMask_eq_ok hmask
  have hbody := h.body
  obtain ⟨rfl, hp⟩ := maskBytes_unique h.mask h.pos (at_of_piece hat (by omega)) hk'
  rw [List.nil_append] at hids
  obtain ⟨_, -, hids⟩ := bind_eq_ok.mp hids
  obtain ⟨hi, h₀, hids⟩ := bind_eq_ok.mp hids
  obtain ⟨lo, h₁, hids⟩ := bind_eq_ok.mp hids
  obtain ⟨id, h₂, hids⟩ := bind_eq_ok.mp hids
  cases hids
  obtain ⟨v₀, n₀, hv₀, hn₀, rfl⟩ := h.readSlot_eq_ok hd hp h₀
  obtain ⟨v₁, n₁, hv₁, hn₁, rfl⟩ := h.readSlot_eq_ok hd hp h₁
  obtain ⟨v₂, n₂, hv₂, hn₂, rfl⟩ := h.readSlot_eq_ok hd hp h₂
  exact ⟨v₀, v₁, v₂, n₀, n₁, n₂, hv₀, hv₁, hv₂, hn₀, hn₁, hn₂, rfl⟩

/-! ## The transposer -/

/-- The bytes at `off` are an object that a writer over the keys left when it closed it. -/
def WrittenObject (keys : List String) (d : Bytes) (off : ℕ) : Prop :=
  ∃ (sorter : SlotSort) (calls : List ObjectCall) (w w' : NxsWriter) (f : Frame),
    calls.foldlM (NxsWriter.perform sorter) (NxsWriter.new keys) = .ok w ∧ w.endObjectBy sorter = .ok w' ∧
      w.frames.head? = some f ∧ At d off (w'.buf.drop f.start)

/-- Such an object has the mask of its writer. -/
theorem WrittenObject.mask {keys : List String} {d : Bytes} {off : ℕ} (h : WrittenObject keys d off) :
    ∃ p, At d (off + 8) (maskBytes (bitmaskLen keys.length) p) := by
  obtain ⟨sorter, calls, w, w', f, hrun, hend, hf, hat⟩ := h
  obtain ⟨slots, -, f', -, -, hf', hframe, hmask⟩ := ((Marked.new keys).run hrun).endObject hend
  obtain rfl : f = f' := Option.some.inj (hf.symm.trans hf')
  rw [hframe.1] at hmask
  obtain ⟨pre, post, hbuf, hpre⟩ := hmask
  have hpiece : At (w'.buf.drop f.start) 8 (maskBytes (bitmaskLen keys.length) fun i => slots.any (· == i)) := by
    refine ⟨pre.drop f.start, post, ?_, by rw [List.length_drop]; omega⟩
    rw [hbuf, List.append_assoc, List.drop_append_of_le_length (by omega), List.append_assoc]
  exact ⟨_, hat.trans hpiece⟩

/-- A mask of as many bytes as the slots need is read to its end, the bits behind the last slot aside. -/
theorem rowMask_maskBytes {d : Bytes} {pos n : ℕ} {p : ℕ → Bool} (hat : At d pos (maskBytes (bitmaskLen n) p)) (hn : 0 < n) :
    ∀ m i fuel, i + m = bitmaskLen n → 0 < m → m ≤ fuel →
      rowMask d n fuel (pos + i) ((List.range (7 * i)).map p) = .ok ((List.range n).map p, pos + bitmaskLen n)
  | 0, _, _, _, hm, _ => absurd hm (Nat.lt_irrefl 0)
  | m + 1, i, 0, _, _, hfuel => absurd hfuel (by omega)
  | m + 1, i, fuel + 1, hi, _, hfuel => by
    have hlen : bitmaskLen n = (n + 6) / 7 := by
      rw [bitmaskLen]
      omega
    have hbits : (List.range (7 * i)).map p ++ ((List.range 7).map fun bit =>
        (byteOfBits fun b => if b = 7 then decide (i + 1 < bitmaskLen n) else p (7 * i + b)).toNat.testBit bit).take (n - 7 * i) =
          (List.range (7 * i + min (n - 7 * i) 7)).map p := by
      rw [List.range_add, List.map_append, List.map_map, ← List.map_take, List.take_range]
      congr 1
      refine List.map_congr_left fun bit hbit => ?_
      rw [List.mem_range] at hbit
      rw [testBit_byteOfBits _ (by omega), if_neg (by omega)]
      rfl
    rw [rowMask, List.length_map, List.length_range, if_pos (by omega), get_maskBytes hat (by omega), okOr_ok, ok_bind]
    dsimp only
    rw [hbits, moreMask_byteOfBits]
    by_cases hlast : i + 1 < bitmaskLen n
    · rw [if_pos (decide_eq_true hlast), show 7 * i + min (n - 7 * i) 7 = 7 * (i + 1) by omega, Nat.add_assoc]
      exact rowMask_maskBytes hat hn m (i + 1) fuel (by omega) (by omega) (by omega)
    · rw [if_neg (by simpa using hlast), show 7 * i + min (n - 7 * i) 7 = n by omega, Nat.add_assoc,
        show i + 1 = bitmaskLen n by omega]

/-- Up to the width of the schema the transposer reads the cells where the decoder finds the fields. -/
theorem FieldTable.decodeRowObject_eq {d : Bytes} {off k : ℕ} {fields : List (ℕ × ℕ)} {p : ℕ → Bool}
    (h : FieldTable d off fields k p) (hd : d.length < 2 ^ 63) {keys : List String} (hobj : WrittenObject keys d off)
    (sigils : List UInt8) : decodeRowObject d off keys.length sigils =
      ((fields.filter fun f => decide (f.1 < keys.length)).mapM fun f =>
        readCellAt d f.2 (sigils.getD f.1 SIGIL_INT) >>= fun cell => .ok (f.1, cell)) >>= fun cells =>
          .ok (rowOfCells keys.length cells) := by
  obtain ⟨q, hmask⟩ := hobj.mask
  have hpos : 0 < bitmaskLen keys.length := Nat.lt_of_lt_of_le Nat.zero_lt_one (le_max_right _ _)
  obtain ⟨rfl, hpq⟩ := maskBytes_unique h.mask h.pos hmask hpos
  have hbody := h.body
  have hk := h.le
  have hslots : ∃ bits tableStart, rowMask d keys.length (keys.length + 1) (off + 8) [] = .ok (bits, tableStart) ∧
      ((List.range keys.length).filter fun s => bits.getD s false) = (List.range keys.length).filter p ∧
      (keys.length = 0 ∨ tableStart = off + 8 + bitmaskLen keys.length) := by
    rcases Nat.eq_zero_or_pos keys.length with hn | hn
    · refine ⟨[], off + 8, ?_, ?_, .inl hn⟩
      · rw [rowMask, List.length_nil, if_neg (by omega)]
      · rw [hn]
        rfl
    · have hread := rowMask_maskBytes h.mask hn (bitmaskLen keys.length) 0 (keys.length + 1) (by omega) hpos (by
        rw [bitmaskLen]
        omega)
      refine ⟨_, _, hread, List.filter_congr fun s hs => ?_, .inr rfl⟩
      rw [List.getD_eq_getElem?_getD, List.getElem?_map, List.getElem?_range (List.mem_range.mp hs), Option.map_some,
        Option.getD_some]
  obtain ⟨bits, tableStart, hread, hfilter, hstart⟩ := hslots
  have hfst : (fields.filter fun f => decide (f.1 < keys.length)).map Prod.fst = (List.range keys.length).filter p := by
    have hmap := @List.filter_map _ _ Prod.fst (fun s => decide (s < keys.length)) fields
    rw [h.slots, List.filter_filter] at hmap
    have hsplit : List.range (7 * bitmaskLen keys.length) = List.range keys.length ++
        (List.range (7 * bitmaskLen keys.length - keys.length)).map (keys.length + ·) := by
      rw [← List.range_add, Nat.add_sub_cancel' (by rw [bitmaskLen]; omega)]
    have habove : ((List.range (7 * bitmaskLen keys.length - keys.length)).map (keys.length + ·)).filter
        (fun s => decide (s < keys.length) && p s) = [] := by
      rw [List.filter_eq_nil_iff]
      intro s hs
      obtain ⟨j, -, rfl⟩ := List.mem_map.mp hs
      simp
    rw [hsplit, List.filter_append, habove, List.append_nil] at hmap
    refine hmap.symm.trans (List.filter_congr fun s hs => ?_)
    rw [decide_eq_true (List.mem_range.mp hs), Bool.true_and]
  have hcells : ((List.range keys.length).filter p).zipIdx.mapM (decodeRowCell d off tableStart sigils) =
      (fields.filter fun f => decide (f.1 < keys.length)).mapM fun f =>
        readCellAt d f.2 (sigils.getD f.1 SIGIL_INT) >>= fun cell => .ok (f.1, cell) := by
    rw [zipIdx_filter_range, ← hfst, List.map_map]
    refine mapM_congr₂ (List.forall₂_map_left_iff.mpr (List.forall₂_same.mpr fun f hmem => ?_))
    obtain ⟨hfield, hlt⟩ := List.mem_filter.mp hmem
    rw [decide_eq_true_iff] at hlt
    have hset : p f.1 = true := by
      have hslot : f.1 ∈ (List.range keys.length).filter p := hfst ▸ List.mem_map_of_mem hmem
      exact (List.mem_filter.mp hslot).2
    have hle : slotRank p f.1 ≤ f.1 := by
      have := @List.countP_le_length _ p (List.range f.1)
      rwa [List.length_range] at this
    have hwidth : f.1 < 7 * bitmaskLen keys.length := by
      have := div_lt_bitmaskLen hlt
      omega
    obtain ⟨v, hv, hoff⟩ := h.lookup_present hwidth hset
    rw [lookup_of_mem h.nodup hfield] at hv
    rw [Function.comp_apply, decodeRowCell, hstart.resolve_left (by omega)]
    dsimp only
    rw [hoff, ok_bind, ← Option.some.inj hv, demand_of (by omega)]
    rfl
  rw [decodeRowObject, usizeAdd_of (by omega), ok_bind, ensure_of (by omega), ok_bind, h.magic, ok_bind, ensure_of rfl, ok_bind,
    hread, ok_bind]
  dsimp only
  rw [hfilter, hcells]

/-- Wherever the decoder gets through the mask and the offset table of an object, it decodes each slot whose
bit is set at one position, and the other readers find it there: both resolvers find no other slot, the
reader of ids has read its three slots there if it returns ids, and the transposer reads the cells of a
writer's object there. -/
theorem resolvers_agree (file : Slice) (off : ℕ) (fields : List (ℕ × ℕ)) (h : objectFields file.bytes off = .ok fields) :
    (∀ keys sigils, decodeObject file.bytes off keys sigils = fields.mapM (decodeField file.bytes keys sigils)) ∧
    (∃ bits stop, readMask file.bytes 74 (off + 8) [] = .ok (bits, stop) ∧
      ∀ slot, (fields.lookup slot).isSome = bits.getD slot false) ∧
    (∀ slot, resolveSlot file.bytes off slot = .ofOption (fields.lookup slot)) ∧
    (∀ slot, resolveSlotV12 file.bytes off slot = .ofOption (fields.lookup slot)) ∧
    (∀ len ids, extractTraceSpanId ((file.bytes.drop off).take len) = .ok ids → ∃ v₀ v₁ v₂ hi lo id,
      fields.lookup 0 = some v₀ ∧ fields.lookup 1 = some v₁ ∧ fields.lookup 2 = some v₂ ∧
      readLE file.bytes v₀ 8 = (.ok hi : Res ℕ) ∧ readLE file.bytes v₁ 8 = (.ok lo : Res ℕ) ∧
      readLE file.bytes v₂ 8 = (.ok id : Res ℕ) ∧ ids = (traceIdOf (.ofNat hi) (.ofNat lo), .ofNat id)) ∧
    ∀ keys, WrittenObject keys file.bytes off → ∀ sigils, decodeRowObject file.bytes off keys.length sigils =
      ((fields.filter fun f => decide (f.1 < keys.length)).mapM fun f =>
        readCellAt file.bytes f.2 (sigils.getD f.1 SIGIL_INT) >>= fun cell => .ok (f.1, cell)) >>= fun cells =>
          .ok (rowOfCells keys.length cells) := by
  obtain ⟨k, p, ht⟩ := FieldTable.of_ok h
  refine ⟨fun keys sigils => ?_, ⟨_, _, ht.readMask, fun slot => ?_⟩, ht.resolveSlot_eq file.small, ht.resolveSlotV12_eq file.small,
    fun len ids => ht.extract_eq_ok file.small, fun keys => ht.decodeRowObject_eq file.small⟩
  · rw [decodeObject_eq, h, ok_bind]
  · exact ht.isSome_lookup slot

/-- The integers 1, 2 and 3 in the slots of three keys. -/
def threeInts : Slice where
  bytes := leBytes 4 MAGIC_OBJ ++ leBytes 4 40 ++ [7] ++ leBytes 2 16 ++ leBytes 2 24 ++ leBytes 2 32 ++ [0] ++
    leBytes 8 1 ++ leBytes 8 2 ++ leBytes 8 3
  small := by decide

theorem resolvers_agree_three : resolveSlot threeInts.bytes 0 1 = .ok 24 ∧ resolveSlotV12 threeInts.bytes 0 7 = none' ∧
    (∃ v₀ v₁ v₂ hi lo id, [(0, 16), (1, 24), (2, 32)].lookup 0 = some v₀ ∧ [(0, 16), (1, 24), (2, 32)].lookup 1 = some v₁ ∧
      [(0, 16), (1, 24), (2, 32)].lookup 2 = some v₂ ∧ readLE threeInts.bytes v₀ 8 = (.ok hi : Res ℕ) ∧
      readLE threeInts.bytes v₁ 8 = (.ok lo : Res ℕ) ∧ readLE threeInts.bytes v₂ 8 = (.ok id : Res ℕ) ∧
      ((1 <<< 64 + 2, 3) : ℕ × UInt64) = (traceIdOf (.ofNat hi) (.ofNat lo), .ofNat id)) ∧
    decodeRowObject threeInts.bytes 0 3 [SIGIL_INT, SIGIL_INT, SIGIL_INT] = .ok [.i64 1, .i64 2, .i64 3] := by
  obtain ⟨-, -, hslot, hcopy, hids, hrow⟩ := resolvers_agree threeInts 0 [(0, 16), (1, 24), (2, 32)] (by decide)
  have hobj : WrittenObject ["a", "b", "c"] threeInts.bytes 0 :=
    ⟨SlotSort.stable, [.beginObject, .write ⟨0, .i64 1⟩, .write ⟨1, .i64 2⟩, .write ⟨2, .i64 3⟩], _, _, _, rfl, rfl, rfl,
      [], [], rfl, rfl⟩
  exact ⟨hslot 1, hcopy 7, hids 40 _ (by decide), (hrow _ hobj _).trans (by decide)⟩

end Nyxis
