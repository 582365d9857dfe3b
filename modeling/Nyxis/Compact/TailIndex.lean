import Nyxis.Compact.Tail

/-!
# Compact.TailIndex — when a block-anchored tail-index reads back

The tail-index has 32 bits for the number of records and 16 for the number of anchors, and neither is checked.
Where the anchors are more, the reader looks for the deltas too far in front, among the anchors.

* `tableWord_at`: the two tables as one list of 32-bit words.
* `deltaRecordOffset_word`: what is read for a record.
* `delta_tail_reads_iff`: all records read back exactly when their number fits and the words in the place of the
  deltas are the deltas.
-/

namespace Nyxis

open Lib Lib.Outcome

/-- The offset of the first record of the block that record `i` is in. -/
def blockAnchor (absOffsets : List ℕ) (blockSize i : ℕ) : ℕ :=
  absOffsets.getD (i / max blockSize 1 * max blockSize 1) 0

/-- The distance of record `i` from its anchor. -/
def blockDelta (absOffsets : List ℕ) (blockSize i : ℕ) : ℕ := absOffsets.getD i 0 - blockAnchor absOffsets blockSize i

/-- Word `k` of the two tables: the halves of the anchors, and behind them the deltas. -/
def tableWord (absOffsets : List ℕ) (blockSize k : ℕ) : ℕ :=
  let anchors := anchorCountOf absOffsets.length blockSize
  if k < 2 * anchors then absOffsets.getD (k / 2 * max blockSize 1) 0 / 2 ^ (32 * (k % 2)) % 2 ^ 32
  else blockDelta absOffsets blockSize (k - 2 * anchors)

/-- The deltas are where the number of anchors, cut to 16 bits, says. -/
def DeltasFound (absOffsets : List ℕ) (blockSize : ℕ) : Prop :=
  ∀ i < absOffsets.length, tableWord absOffsets blockSize
    (2 * (anchorCountOf absOffsets.length blockSize % 65536) + i) = blockDelta absOffsets blockSize i

instance (absOffsets : List ℕ) (blockSize : ℕ) : Decidable (DeltasFound absOffsets blockSize) :=
  inferInstanceAs (Decidable (∀ i < absOffsets.length, _))

/-- The tail-index at `tailPtr` gives the offset of every record, and an error behind the last one. -/
structure TailReads (d : Bytes) (tailPtr : ℕ) (absOffsets : List ℕ) (layout : DeltaTailLayout) : Prop where
  parsed : parseDeltaTailLayout d tailPtr = .ok layout
  recordCount : layout.recordCount = absOffsets.length
  offset : ∀ i abs, absOffsets[i]? = some abs → deltaRecordOffset d layout i = .ok abs
  behind : ∀ i ≥ absOffsets.length, ∃ e, deltaRecordOffset d layout i = .err e

/-- A number of `w + k` bytes in two parts. -/
theorem leBytes_append (w k n : ℕ) : leBytes (w + k) n = leBytes w n ++ leBytes k (n / 256 ^ w) := by
  induction w generalizing n with
  | zero => rw [Nat.zero_add, leBytes_zero, List.nil_append, Nat.pow_zero, Nat.div_one]
  | succ w ih =>
    rw [Nat.succ_add, leBytes, ih, leBytes, List.cons_append, Nat.div_div_eq_div_mul, Nat.pow_succ, Nat.mul_comm 256]

/-- With at most as many anchors as their number has room for, the deltas are found. -/
theorem deltasFound_of_few {absOffsets : List ℕ} {blockSize : ℕ}
    (h : anchorCountOf absOffsets.length blockSize < 65536) : DeltasFound absOffsets blockSize := by
  intro i _
  rw [Nat.mod_eq_of_lt h, tableWord, if_neg (by omega), Nat.add_sub_cancel_left]

/-- Building fails only where a record stands in front of its anchor, or too far behind it. -/
theorem recordDeltas_of {anchors : List ℕ} {a : ℕ} : ∀ {absOffsets : List ℕ} {k : ℕ},
    (∀ i abs, absOffsets[i]? = some abs → anchors.getD ((k + i) / a) 0 ≤ abs ∧
      abs - anchors.getD ((k + i) / a) 0 < 2 ^ 32) → ∃ deltas, recordDeltas anchors a k absOffsets = .ok deltas
  | [], _, _ => ⟨[], rfl⟩
  | abs :: rest, k, h => by
    obtain ⟨hle, hfit⟩ := h 0 abs rfl
    rw [Nat.add_zero] at hle hfit
    have hrest : ∃ deltas, recordDeltas anchors a (k + 1) rest = .ok deltas := by
      refine recordDeltas_of fun i abs' hi => ?_
      rw [Nat.add_assoc, Nat.add_comm 1 i]
      exact h (i + 1) abs' hi
    obtain ⟨deltas, hdeltas⟩ := hrest
    refine ⟨(abs - anchors.getD (k / a) 0) :: deltas, ?_⟩
    rw [recordDeltas, recordDelta, ensure_of hle, ok_bind, ensure_of (by omega), ok_bind, ok_bind, hdeltas, ok_bind]

section

variable {d tail : Bytes} {absOffsets : List ℕ} {tailPtr blockSize : ℕ}
  (h : buildDeltaTailIndex absOffsets tailPtr blockSize = .ok tail) (hat : At d tailPtr tail)

theorem anchorsOf_getD {j : ℕ} (hj : j < anchorCountOf absOffsets.length blockSize) :
    (anchorsOf absOffsets blockSize)[j]? = some (absOffsets.getD (j * max blockSize 1) 0) := by
  rw [anchorsOf, List.getElem?_map, List.getElem?_range hj, Option.map_some]

/-- The block of a record has an anchor. -/
theorem block_lt_anchorCount {i : ℕ} (hi : i < absOffsets.length) :
    i / max blockSize 1 < anchorCountOf absOffsets.length blockSize := by
  set a := max blockSize 1 with ha
  have hapos : 0 < a := by omega
  rw [anchorCountOf, ← ha, if_neg (by omega), Nat.div_lt_iff_lt_mul hapos]
  have hdiv := Nat.div_add_mod (absOffsets.length + a - 1) a
  have hmod := Nat.mod_lt (absOffsets.length + a - 1) hapos
  rw [Nat.mul_comm] at hdiv
  omega

include h in
/-- A delta that was built is the distance from the anchor. -/
theorem built_delta {i : ℕ} (hi : i < absOffsets.length) :
    blockAnchor absOffsets blockSize i + blockDelta absOffsets blockSize i = absOffsets.getD i 0 ∧
      blockDelta absOffsets blockSize i < 2 ^ 32 := by
  obtain ⟨deltas, hdeltas, -⟩ := buildDeltaTailIndex_eq_ok.mp h
  obtain ⟨delta, -, hfit, hsum⟩ := (recordDeltas_spec hdeltas).2 i _ (List.getElem?_eq_getElem hi)
  rw [Nat.zero_add, List.getD_eq_getElem?_getD, anchorsOf_getD (block_lt_anchorCount hi), Option.getD_some] at hsum
  have hget : absOffsets.getD i 0 = absOffsets[i] := by
    rw [List.getD_eq_getElem?_getD, List.getElem?_eq_getElem hi, Option.getD_some]
  rw [blockDelta, blockAnchor, hget]
  omega

include h hat

/-- The anchor of a record's block. -/
theorem blockAnchor_at {i : ℕ} (hi : i < absOffsets.length) :
    At d (tailPtr + 16 + i / max blockSize 1 * 8) (leBytes 8 (blockAnchor absOffsets blockSize i)) := by
  obtain ⟨deltas, -, rfl⟩ := buildDeltaTailIndex_eq_ok.mp h
  rw [at_append, at_append, at_append, at_append] at hat
  obtain ⟨⟨⟨⟨-, hans⟩, -⟩, -⟩, -⟩ := hat
  simp only [List.length_append, padTo_length, leBytes_length, show padLen 8 (4 + 4 + 2 + 2) = 4 from rfl] at hans
  exact hans.trans (at_flatMap_const (fun n _ => leBytes_length 8 n) (anchorsOf_getD (block_lt_anchorCount hi)))

/-- The tables of the tail-index, word by word. -/
theorem tableWord_at {k : ℕ}
    (hk : k < 2 * anchorCountOf absOffsets.length blockSize + absOffsets.length) :
    At d (tailPtr + 16 + k * 4) (leBytes 4 (tableWord absOffsets blockSize k)) ∧
      tableWord absOffsets blockSize k < 2 ^ 32 := by
  have hbuilt := h
  obtain ⟨deltas, hdeltas, rfl⟩ := buildDeltaTailIndex_eq_ok.mp h
  obtain ⟨hlen, hspec⟩ := recordDeltas_spec hdeltas
  have hanchors : ((anchorsOf absOffsets blockSize).flatMap (leBytes 8)).length =
      anchorCountOf absOffsets.length blockSize * 8 := by
    rw [length_flatMap_const fun n _ => leBytes_length 8 n, anchorsOf, List.length_map, List.length_range]
  rw [at_append, at_append, at_append, at_append] at hat
  obtain ⟨⟨⟨⟨-, hans⟩, hdls⟩, -⟩, -⟩ := hat
  simp only [List.length_append, padTo_length, leBytes_length, hanchors, show padLen 8 (4 + 4 + 2 + 2) = 4 from rfl]
    at hans hdls
  rw [tableWord]
  by_cases hlt : k < 2 * anchorCountOf absOffsets.length blockSize
  · rw [if_pos hlt]
    refine ⟨?_, Nat.mod_lt _ (by decide)⟩
    have hpiece := hans.trans (at_flatMap_const (fun n _ => leBytes_length 8 n)
      (anchorsOf_getD (show k / 2 < anchorCountOf absOffsets.length blockSize by omega)))
    rw [leBytes_append 4 4, at_append, leBytes_length] at hpiece
    rw [show (2 : ℕ) ^ 32 = 256 ^ 4 by decide, leBytes_mod]
    rcases Nat.mod_two_eq_zero_or_one k with heven | hodd
    · rw [heven, Nat.mul_zero, Nat.pow_zero, Nat.div_one, show tailPtr + 16 + k * 4 =
        tailPtr + (4 + 4 + 2 + 2 + 4) + k / 2 * 8 by omega]
      exact hpiece.1
    · rw [hodd, show 2 ^ (32 * 1) = 256 ^ 4 by decide, show tailPtr + 16 + k * 4 =
        tailPtr + (4 + 4 + 2 + 2 + 4) + k / 2 * 8 + 4 by omega]
      exact hpiece.2
  · rw [if_neg hlt]
    have hi : k - 2 * anchorCountOf absOffsets.length blockSize < absOffsets.length := by omega
    obtain ⟨hsum, hfit⟩ := built_delta hbuilt hi
    refine ⟨?_, hfit⟩
    obtain ⟨delta, hdelta, -, hsum'⟩ := hspec _ _ (List.getElem?_eq_getElem hi)
    rw [Nat.zero_add, List.getD_eq_getElem?_getD, anchorsOf_getD (block_lt_anchorCount hi), Option.getD_some] at hsum'
    have heq : delta = blockDelta absOffsets blockSize (k - 2 * anchorCountOf absOffsets.length blockSize) := by
      rw [List.getD_eq_getElem?_getD (l := absOffsets), List.getElem?_eq_getElem hi, Option.getD_some] at hsum
      rw [blockAnchor] at hsum
      omega
    have hpiece := hdls.trans (at_flatMap_const (fun n _ => leBytes_length 4 n) hdelta)
    rw [heq] at hpiece
    rw [show tailPtr + 16 + k * 4 = tailPtr + (4 + 4 + 2 + 2 + 4 + anchorCountOf absOffsets.length blockSize * 8) +
      (k - 2 * anchorCountOf absOffsets.length blockSize) * 4 by omega]
    exact hpiece

/-- What is read for a record: its anchor, and the word in the place of its delta. -/
theorem deltaRecordOffset_word (hd : d.length < 2 ^ 63) (hbs : blockSize < 2 ^ 32) (habs : ∀ o ∈ absOffsets, o < 2 ^ 64)
    (hn : absOffsets.length < 2 ^ 32) {i : ℕ} (hi : i < absOffsets.length) :
    deltaRecordOffset d (builtLayout absOffsets tailPtr blockSize) i = okOr (checkedAdd (blockAnchor absOffsets blockSize i)
      (tableWord absOffsets blockSize (2 * (anchorCountOf absOffsets.length blockSize % 65536) + i))) .outOfBounds := by
  have hmod : anchorCountOf absOffsets.length blockSize % 65536 ≤ anchorCountOf absOffsets.length blockSize := Nat.mod_le _ _
  obtain ⟨hword, hlt⟩ := tableWord_at h hat
    (show 2 * (anchorCountOf absOffsets.length blockSize % 65536) + i < _ by omega)
  have hanchorAt := blockAnchor_at h hat hi
  have hale := hanchorAt.le
  have hdle := hword.le
  rw [leBytes_length] at hale hdle
  have hanchor : blockAnchor absOffsets blockSize i < 2 ^ 64 := by
    have hmem := habs _ (List.getElem_mem hi)
    have hsum := (built_delta h hi).1
    rw [List.getD_eq_getElem?_getD, List.getElem?_eq_getElem hi, Option.getD_some] at hsum
    omega
  rw [deltaRecordOffset, builtLayout]
  dsimp only
  rw [Nat.mod_eq_of_lt hn, Nat.mod_eq_of_lt hbs, ensure_of (by omega), ok_bind, checkedMul_of (by omega), okOr_ok, ok_bind,
    checkedAdd_of (by omega), okOr_ok, ok_bind, cellBytes_at hd hanchorAt (by omega), ok_bind, checkedMul_of (by omega),
    okOr_ok, ok_bind, checkedAdd_of (by omega), okOr_ok, ok_bind]
  rw [show tailPtr + 16 + anchorCountOf absOffsets.length blockSize % 65536 * 8 + i * 4 =
    tailPtr + 16 + (2 * (anchorCountOf absOffsets.length blockSize % 65536) + i) * 4 by omega, cellBytes_at hd hword hlt,
    ok_bind]

end

/-- Behind the last record there is an error. -/
theorem deltaRecordOffset_behind {d : Bytes} {layout : DeltaTailLayout} {i : ℕ} (h : layout.recordCount ≤ i) :
    deltaRecordOffset d layout i = .err .outOfBounds := by
  rw [deltaRecordOffset, ensure_not (by omega), err_bind]

section

variable {pre tail : Bytes} {absOffsets : List ℕ} {blockSize : ℕ} {file : Slice}

theorem tail_at (hfile : file.bytes = pre ++ tail) : At file.bytes pre.length tail :=
  ⟨pre, [], by rw [hfile, List.append_nil], rfl⟩

variable (hbuilt : buildDeltaTailIndex absOffsets pre.length blockSize = .ok tail) (hfile : file.bytes = pre ++ tail)
  (habs : ∀ o ∈ absOffsets, o < 2 ^ 64) (hbs : blockSize < 2 ^ 32)

include hbuilt hfile

theorem tailReads_layout {layout : DeltaTailLayout} (h : TailReads file.bytes pre.length absOffsets layout) :
    builtLayout absOffsets pre.length blockSize = layout := by
  have hparsed := h.parsed
  rw [parseDeltaTailLayout_build file.small hbuilt (tail_at hfile)] at hparsed
  exact ok.inj hparsed

include habs hbs

/-- Where all records read back, their number fits and the deltas are found. -/
theorem deltasFound_of_reads {layout : DeltaTailLayout} (h : TailReads file.bytes pre.length absOffsets layout) :
    absOffsets.length < 2 ^ 32 ∧ DeltasFound absOffsets blockSize := by
  obtain rfl := tailReads_layout hbuilt hfile h
  have hn : absOffsets.length < 2 ^ 32 := by
    have hcount : absOffsets.length % 2 ^ 32 = absOffsets.length := h.recordCount
    omega
  refine ⟨hn, fun i hi => ?_⟩
  have hread := h.offset i _ (List.getElem?_eq_getElem hi)
  rw [deltaRecordOffset_word hbuilt (tail_at hfile) file.small hbs habs hn hi] at hread
  have hread := (okOr_checkedAdd.mp hread).1
  have hsum := (built_delta hbuilt hi).1
  rw [List.getD_eq_getElem?_getD, List.getElem?_eq_getElem hi, Option.getD_some] at hsum
  omega

/-- And the other way round. -/
theorem reads_of_deltasFound (hn : absOffsets.length < 2 ^ 32) (h : DeltasFound absOffsets blockSize) :
    TailReads file.bytes pre.length absOffsets (builtLayout absOffsets pre.length blockSize) where
  parsed := parseDeltaTailLayout_build file.small hbuilt (tail_at hfile)
  recordCount := Nat.mod_eq_of_lt hn
  offset := by
    intro i abs habsi
    obtain ⟨hi, hget⟩ := List.getElem?_eq_some_iff.mp habsi
    have hsum := (built_delta hbuilt hi).1
    rw [List.getD_eq_getElem?_getD, List.getElem?_eq_getElem hi, Option.getD_some, hget] at hsum
    have hfits := habs _ (hget ▸ List.getElem_mem hi)
    rw [deltaRecordOffset_word hbuilt (tail_at hfile) file.small hbs habs hn hi, h i hi, checkedAdd_of (by omega), okOr_ok,
      hsum]
  behind := fun _ hi => ⟨_, deltaRecordOffset_behind ((Nat.mod_eq_of_lt hn).trans_le hi)⟩

end

/-- A block-anchored tail-index reads back exactly when the number of records fits and the deltas are found. -/
theorem delta_tail_reads_iff (absOffsets : List ℕ) (habs : ∀ o ∈ absOffsets, o < 2 ^ 64) (blockSize : ℕ)
    (hbs : blockSize < 2 ^ 32) (pre tail : Bytes)
    (hbuilt : buildDeltaTailIndex absOffsets pre.length blockSize = .ok tail) (file : Slice)
    (hfile : file.bytes = pre ++ tail) :
    (∃ layout, TailReads file.bytes pre.length absOffsets layout) ↔
      absOffsets.length < 2 ^ 32 ∧ DeltasFound absOffsets blockSize := by
  constructor
  · rintro ⟨layout, hreads⟩
    exact deltasFound_of_reads hbuilt hfile habs hbs hreads
  · rintro ⟨hn, hfound⟩
    exact ⟨_, reads_of_deltasFound hbuilt hfile habs hbs hn hfound⟩

theorem delta_tail_reads_three : ∃ (tail : Bytes) (file : Slice),
    buildDeltaTailIndex [1000, 1050, 1100] 2 2 = .ok tail ∧ file.bytes = [7, 7] ++ tail ∧
      ∃ layout, TailReads file.bytes 2 [1000, 1050, 1100] layout :=
  ⟨_, ⟨_, by decide⟩, rfl, rfl,
    (delta_tail_reads_iff [1000, 1050, 1100] (by decide) 2 (by decide) [7, 7] _ rfl _ rfl).mpr ⟨by decide, by decide⟩⟩

/-- The offsets 1, 2, …: one more block than the number of anchors has room for. -/
def wideOffsets : List ℕ := (List.range 65536).map (· + 1)

theorem wideOffsets_length : wideOffsets.length = 65536 := by rw [wideOffsets, List.length_map, List.length_range]

theorem wideOffsets_getElem? {i : ℕ} (hi : i < 65536) : wideOffsets[i]? = some (i + 1) := by
  rw [wideOffsets, List.getElem?_map, List.getElem?_range hi, Option.map_some]

theorem wideOffsets_getD {i : ℕ} (hi : i < 65536) : wideOffsets.getD i 0 = i + 1 := by
  rw [List.getD_eq_getElem?_getD, wideOffsets_getElem? hi, Option.getD_some]

theorem wideOffsets_anchors : anchorCountOf wideOffsets.length 1 = 65536 := by
  rw [wideOffsets_length]
  decide

theorem wideOffsets_built (tailPtr : ℕ) : ∃ tail, buildDeltaTailIndex wideOffsets tailPtr 1 = .ok tail := by
  have hdeltas : ∃ deltas, recordDeltas (anchorsOf wideOffsets 1) (max 1 1) 0 wideOffsets = .ok deltas := by
    refine recordDeltas_of fun i abs hi => ?_
    obtain ⟨hlt, -⟩ := List.getElem?_eq_some_iff.mp hi
    rw [wideOffsets_length] at hlt
    rw [wideOffsets_getElem? hlt] at hi
    cases hi
    have hanchor : (anchorsOf wideOffsets 1).getD ((0 + i) / max 1 1) 0 = i + 1 := by
      rw [Nat.zero_add, Nat.max_self, Nat.div_one, List.getD_eq_getElem?_getD,
        anchorsOf_getD (wideOffsets_anchors ▸ hlt), Option.getD_some, Nat.max_self, Nat.mul_one, wideOffsets_getD hlt]
    omega
  obtain ⟨deltas, hdeltas⟩ := hdeltas
  exact ⟨_, buildDeltaTailIndex_eq_ok.mpr ⟨deltas, hdeltas, rfl⟩⟩

/-- Their deltas are looked for among the anchors. -/
theorem wideOffsets_not_found : ¬ DeltasFound wideOffsets 1 := by
  intro h
  have hzero := h 0 (by rw [wideOffsets_length]; decide)
  have hfirst : wideOffsets.getD 0 0 = 1 := wideOffsets_getD (by decide)
  rw [wideOffsets_anchors, show 2 * (65536 % 65536) + 0 = 0 by omega, tableWord, wideOffsets_anchors,
    if_pos (by omega), blockDelta, blockAnchor] at hzero
  simp only [Nat.zero_div, Nat.zero_mul, hfirst, Nat.zero_mod, Nat.mul_zero, Nat.pow_zero, Nat.div_one] at hzero
  exact absurd hzero (by decide)

theorem delta_tail_not_read : ¬ ∀ (absOffsets : List ℕ), absOffsets.Pairwise (· < ·) →
    (∀ o ∈ absOffsets, o < 2 ^ 64) → ∀ blockSize < 2 ^ 32, ∀ (pre tail : Bytes),
    buildDeltaTailIndex absOffsets pre.length blockSize = .ok tail → ∀ file : Slice, file.bytes = pre ++ tail →
    ∃ layout, TailReads file.bytes pre.length absOffsets layout := by
  intro h
  obtain ⟨tail, htail⟩ := wideOffsets_built 0
  have hsmall : tail.length < 2 ^ 63 := by
    obtain ⟨deltas, hdeltas, rfl⟩ := buildDeltaTailIndex_eq_ok.mp htail
    have hlen := (recordDeltas_spec hdeltas).1
    have hanchors : (anchorsOf wideOffsets 1).length = 65536 := by
      rw [anchorsOf, List.length_map, List.length_range, wideOffsets_anchors]
    simp only [List.length_append, padTo_length, leBytes_length, length_flatMap_const fun n _ => leBytes_length 8 n,
      length_flatMap_const fun n _ => leBytes_length 4 n, hlen, hanchors, wideOffsets_length]
    decide
  have hasc : wideOffsets.Pairwise (· < ·) :=
    List.Pairwise.map _ (fun _ _ hlt => Nat.succ_lt_succ hlt) List.pairwise_lt_range
  have hfits : ∀ o ∈ wideOffsets, o < 2 ^ 64 := by
    intro o ho
    obtain ⟨i, hi, rfl⟩ := List.mem_map.mp ho
    rw [List.mem_range] at hi
    omega
  obtain ⟨layout, hreads⟩ := h wideOffsets hasc hfits 1 (by decide) [] tail htail ⟨tail, hsmall⟩ rfl
  have hbuilt : buildDeltaTailIndex wideOffsets ([] : Bytes).length 1 = .ok tail := htail
  have hfile : (⟨tail, hsmall⟩ : Slice).bytes = [] ++ tail := rfl
  exact wideOffsets_not_found (deltasFound_of_reads hbuilt hfile hfits (by decide) hreads).2

end Nyxis
