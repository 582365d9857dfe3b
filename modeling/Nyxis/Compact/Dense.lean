import Mathlib.Data.List.Induction
import Nyxis.Compact.Cells

/-!
# Compact.Dense — where the cells of a dense record stand

`encodeDenseBody` appends the cells of a record in wire order and pads each to its alignment;
`denseFieldOffset` walks the same order with alignments of its own.  Both are followed here cell by cell:
`densePos` is the encoder's position, `walkStep` and `walkPlace` are the walk's.

* `denseFold_at`: each cell stands at its place.
* `denseWalk_eq`: the walk returns the place it computes in front of the slot's cell.
* `DenseColumns`, `FullRow`: the columns and rows that the two are compared on.
-/

namespace Nyxis

open Lib Lib.Outcome

/-- The slot has a cell of its own in a dense body: of the packed bools, the first one holds the word. -/
def denseHeld (plan : RowCellPlan) (fi : ℕ) : Bool := !plan.isPacked fi || plan.firstBool == some fi

/-- The slot whose cell holds the value of `slot`. -/
def denseHolder (plan : RowCellPlan) (slot : ℕ) : ℕ := if plan.isPacked slot then plan.firstBool.getD slot else slot

/-- The byte of the slot's cell that holds its value. -/
def holderByte (plan : RowCellPlan) (slot : ℕ) : ℕ := if plan.isPacked slot then plan.boolSlots.idxOf slot / 8 else 0

section

variable (cells : List (ℕ × CompactCell)) (sch : ExtendedSchema) (plan : RowCellPlan)

/-- The length of a cell. -/
def cellSize (fi : ℕ) : CompactCell → ℕ
  | .i64 _ | .f64 _ => planWidth sch plan fi
  | .bool _ => if plan.packedBools then 0 else 8
  | .time _ => 8
  | .str s =>
    if sch.isPromoted fi then 2
    else sch.strLenPrefix fi + (utf8 s).length + padLen 8 (sch.strLenPrefix fi + (utf8 s).length)
  | .keyword _ => 2
  | .null => 0

/-- The alignment of a slot's cell, or of the word of the packed bools. -/
def denseAlign (fi : ℕ) : ℕ :=
  if plan.isPacked fi then plan.boolWordBytes else ((cellAt cells fi).map (appendAlign sch plan fi)).getD 1

/-- The length of a slot's cell, or of the word of the packed bools. -/
def denseSize (fi : ℕ) : ℕ :=
  if plan.isPacked fi then plan.boolWordBytes else ((cellAt cells fi).map (cellSize sch plan fi)).getD 0

/-- The bytes of a slot's cell, or of the word of the packed bools. -/
def denseBytes (fi : ℕ) : Res Bytes :=
  if plan.isPacked fi then
    range (bitBytes 8 fun bi => (plan.boolSlots[bi]?).any fun bs => cellAt cells bs == some (.bool true)) 0
      plan.boolWordBytes
  else do
    let cell ← okOr (.ofOption (cellAt cells fi)) .outOfBounds
    appendBytes sch plan fi cell

/-- Where a slot's cell comes to stand behind a body of the given length. -/
def cellPlace (pos fi : ℕ) : ℕ := pos + padLen (denseAlign cells sch plan fi) pos

/-- The length of a dense body with the cells of these slots. -/
def densePos (order : List ℕ) : ℕ :=
  order.foldl (fun pos fi => cellPlace cells sch plan pos fi + denseSize cells sch plan fi) 0

/-- The position at which the encoder puts the value of a slot: behind the cells in front of its cell, and
the padding of its cell. -/
def densePlace (slot : ℕ) : Res ℕ := do
  let holder := denseHolder plan slot
  let body ← ((denseWireOrder sch plan).takeWhile (· != holder)).foldlM (denseStep cells sch plan) []
  .ok ((padTo (denseAlign cells sch plan holder) body).length + holderByte plan slot)

/-- The walk of a reader past one slot of the wire order. -/
def walkStep (d : Bytes) (bodyBase pos fi : ℕ) : Res ℕ :=
  if plan.isPacked fi then .ok (if some fi = plan.firstBool then advancePastBoolWord pos plan else pos)
  else advanceDensePastCell d bodyBase pos fi sch plan

/-- Where a reader takes a slot's cell to be from a position on. -/
def walkPlace (pos fi : ℕ) : ℕ :=
  if plan.isPacked fi then alignTo pos plan.boolWordBytes
  else if sch.isPromoted fi || sch.sigil fi == SIGIL_KEYWORD then alignTo pos 2
  else if isVarSigil (sch.sigil fi) then pos
  else alignTo pos (planWidth sch plan fi)

end

section

variable {cells : List (ℕ × CompactCell)} {sch : ExtendedSchema} {plan : RowCellPlan}

/-! ## The encoder -/

theorem denseStep_held {body : Bytes} {fi : ℕ} (h : denseHeld plan fi = true) : denseStep cells sch plan body fi =
    (padTo (denseAlign cells sch plan fi) body ++ ·) <$> denseBytes cells sch plan fi := by
  rw [denseStep, denseAlign, denseBytes]
  by_cases hpacked : plan.isPacked fi = true
  · rw [denseHeld, hpacked, Bool.not_true, Bool.false_or, beq_iff_eq] at h
    rw [if_pos hpacked, if_pos hpacked, if_pos hpacked, if_pos h.symm]
    rfl
  · rw [if_neg hpacked, if_neg hpacked, if_neg hpacked]
    cases hcell : cellAt cells fi with
    | none => rfl
    | some cell =>
      rw [ofOption_some, okOr_ok, ok_bind, ok_bind, Option.map_some, Option.getD_some, appendCell_eq]

theorem denseStep_skip {body : Bytes} {fi : ℕ} (h : denseHeld plan fi = false) :
    denseStep cells sch plan body fi = .ok body := by
  rw [denseHeld, Bool.or_eq_false_iff, Bool.not_eq_false', beq_eq_false_iff_ne] at h
  rw [denseStep, if_pos h.1, if_neg (Ne.symm h.2)]

theorem strBytes_length {pre : ℕ} {s : String} {bytes : Bytes} (hpre : pre = 2 ∨ pre = 4) (h : strBytes pre s = .ok bytes) :
    bytes.length = pre + (utf8 s).length + padLen 8 (pre + (utf8 s).length) := by
  rw [strBytes] at h
  obtain ⟨_, -, h⟩ := bind_eq_ok.mp h
  cases h
  rw [List.length_append, List.length_append, leBytes_length, zeros_length]
  rcases hpre with rfl | rfl
  · rw [if_pos rfl]
  · rw [if_neg (by decide)]

theorem strLenPrefix_cases {fi : ℕ} (h : sch.isPromoted fi = false) : sch.strLenPrefix fi = 2 ∨ sch.strLenPrefix fi = 4 := by
  rw [ExtendedSchema.strLenPrefix, h, if_neg Bool.false_ne_true]
  split
  · exact Or.inl rfl
  · exact Or.inr rfl

theorem appendBytes_length {fi : ℕ} {cell : CompactCell} {bytes : Bytes} (h : appendBytes sch plan fi cell = .ok bytes) :
    bytes.length = cellSize sch plan fi cell := by
  cases cell with
  | i64 v => exact (encodeIntCell_length h).1
  | f64 v => exact (encodeF64Cell_length h).1
  | bool v =>
    cases h
    rw [cellSize]
    split
    · rfl
    · rw [List.length_cons, zeros_length]
  | time v =>
    cases h
    exact i64Bytes_length v
  | str s =>
    rw [appendBytes] at h
    rw [cellSize]
    by_cases hprom : sch.isPromoted fi = true
    · rw [if_pos hprom] at h ⊢
      obtain ⟨_, -, h⟩ := bind_eq_ok.mp h
      cases h
      exact leBytes_length _ _
    · rw [if_neg hprom] at h ⊢
      exact strBytes_length (strLenPrefix_cases (Bool.eq_false_of_not_eq_true hprom)) h
  | keyword idx =>
    cases h
    exact leBytes_length _ _
  | null =>
    cases h
    rfl

theorem boolWordBytes_le_of_range {p : ℕ → Bool} {bytes : Bytes}
    (h : (range (bitBytes 8 p) 0 plan.boolWordBytes : Res Bytes) = .ok bytes) : plan.boolWordBytes ≤ 8 := by
  rw [range] at h
  split at h
  · rename_i hle
    rw [bitBytes_length] at hle
    exact hle.2
  · cases h

theorem denseBytes_length {fi : ℕ} {bytes : Bytes} (h : denseBytes cells sch plan fi = .ok bytes) :
    bytes.length = denseSize cells sch plan fi := by
  rw [denseBytes] at h
  rw [denseSize]
  by_cases hpacked : plan.isPacked fi = true
  · rw [if_pos hpacked] at h ⊢
    have hle := boolWordBytes_le_of_range h
    rw [range_of (Nat.zero_le _) (by rw [bitBytes_length]; exact hle)] at h
    cases h
    rw [List.length_take, List.drop_zero, bitBytes_length, Nat.sub_zero, Nat.min_eq_left hle]
  · rw [if_neg hpacked] at h ⊢
    obtain ⟨cell, hcell, h⟩ := bind_eq_ok.mp h
    cases hat : cellAt cells fi with
    | none =>
      rw [hat] at hcell
      cases hcell
    | some c =>
      rw [hat] at hcell
      cases hcell
      exact appendBytes_length h

theorem densePos_append (order : List ℕ) (fi : ℕ) : densePos cells sch plan (order ++ [fi]) =
    cellPlace cells sch plan (densePos cells sch plan order) fi + denseSize cells sch plan fi := by
  rw [densePos, List.foldl_append]
  rfl

/-- Slots without a cell of their own add nothing. -/
theorem denseFold_held : ∀ (order : List ℕ) (body : Bytes), order.foldlM (denseStep cells sch plan) body =
    (order.filter (denseHeld plan)).foldlM (denseStep cells sch plan) body
  | [], _ => rfl
  | fi :: order, body => by
    rw [List.foldlM_cons]
    cases hheld : denseHeld plan fi with
    | false =>
      rw [List.filter_cons_of_neg (by rw [hheld]; exact Bool.false_ne_true), denseStep_skip hheld, ok_bind]
      exact denseFold_held order body
    | true =>
      rw [List.filter_cons_of_pos hheld, List.foldlM_cons]
      exact bind_congr fun body' => denseFold_held order body'

/-- A cell is appended behind the body so far. -/
theorem denseStep_eq_ok {body body' : Bytes} {fi : ℕ} (hheld : denseHeld plan fi = true)
    (h : denseStep cells sch plan body fi = .ok body') : ∃ bytes, denseBytes cells sch plan fi = .ok bytes ∧
      body' = padTo (denseAlign cells sch plan fi) body ++ bytes ∧
      body'.length = cellPlace cells sch plan body.length fi + denseSize cells sch plan fi := by
  rw [denseStep_held hheld, map_eq_ok] at h
  obtain ⟨bytes, hbytes, rfl⟩ := h
  refine ⟨bytes, hbytes, rfl, ?_⟩
  rw [List.length_append, padTo_length, denseBytes_length hbytes]
  rfl

/-- A body grows by every cell. -/
theorem denseFold_prefix : ∀ {order : List ℕ} {body body' : Bytes}, (∀ fi ∈ order, denseHeld plan fi = true) →
    order.foldlM (denseStep cells sch plan) body = .ok body' → ∃ e, body' = body ++ e
  | [], body, body', _, h => by
    cases h
    exact ⟨[], (List.append_nil body).symm⟩
  | fi :: order, body, body', hheld, h => by
    rw [List.foldlM_cons] at h
    obtain ⟨mid, hmid, h⟩ := bind_eq_ok.mp h
    obtain ⟨bytes, -, rfl, -⟩ := denseStep_eq_ok (hheld fi List.mem_cons_self) hmid
    obtain ⟨e, rfl⟩ := denseFold_prefix (fun f hf => hheld f (List.mem_cons_of_mem _ hf)) h
    refine ⟨zeros (padLen (denseAlign cells sch plan fi) body.length) ++ bytes ++ e, ?_⟩
    rw [padTo]
    simp only [List.append_assoc]

theorem denseFold_length {order : List ℕ} : ∀ {body : Bytes}, (∀ fi ∈ order, denseHeld plan fi = true) →
    order.foldlM (denseStep cells sch plan) [] = .ok body → body.length = densePos cells sch plan order := by
  induction order using List.reverseRecOn with
  | nil =>
    intro body _ h
    cases h
    rfl
  | append_singleton order fi ih =>
    intro body hheld h
    rw [List.foldlM_append] at h
    obtain ⟨mid, hmid, h⟩ := bind_eq_ok.mp h
    rw [List.foldlM_cons] at h
    obtain ⟨last, hlast, h⟩ := bind_eq_ok.mp h
    cases h
    obtain ⟨_, -, -, hlen⟩ := denseStep_eq_ok (hheld fi (List.mem_append_right _ List.mem_cons_self)) hlast
    rw [hlen, ih (fun f hf => hheld f (List.mem_append_left _ hf)) hmid, densePos_append]

/-- Each cell stands at its place, behind the cells in front of it. -/
theorem denseFold_at {pre rest : List ℕ} {fi : ℕ} {body : Bytes} (hheld : ∀ f ∈ pre ++ fi :: rest, denseHeld plan f = true)
    (h : (pre ++ fi :: rest).foldlM (denseStep cells sch plan) [] = .ok body) :
    densePos cells sch plan (pre ++ [fi]) ≤ body.length ∧
    (∃ front, pre.foldlM (denseStep cells sch plan) [] = .ok front ∧ front.length = densePos cells sch plan pre) ∧
    ∃ bytes, denseBytes cells sch plan fi = .ok bytes ∧ At body (cellPlace cells sch plan (densePos cells sch plan pre) fi) bytes := by
  rw [List.foldlM_append] at h
  obtain ⟨front, hfront, h⟩ := bind_eq_ok.mp h
  rw [List.foldlM_cons] at h
  obtain ⟨mid, hmid, h⟩ := bind_eq_ok.mp h
  obtain ⟨bytes, hbytes, rfl, hlen⟩ := denseStep_eq_ok (hheld fi (List.mem_append_right _ List.mem_cons_self)) hmid
  obtain ⟨e, rfl⟩ := denseFold_prefix (fun f hf => hheld f (List.mem_append_right _ (List.mem_cons_of_mem _ hf))) h
  have hfrontlen := denseFold_length (fun f hf => hheld f (List.mem_append_left _ hf)) hfront
  rw [hfrontlen] at hlen
  refine ⟨?_, ⟨front, hfront, hfrontlen⟩, bytes, hbytes, ?_⟩
  · rw [densePos_append, List.length_append, hlen]
    exact Nat.le_add_right _ _
  · have hplace : cellPlace cells sch plan (densePos cells sch plan pre) fi =
        (padTo (denseAlign cells sch plan fi) front).length := by
      rw [padTo_length, hfrontlen]
      rfl
    rw [hplace]
    exact At.mk _ bytes e

/-! ## The walk -/

/-- The first packed bool holds the word of all of them. -/
theorem holder_of_packed (hfirst : plan.firstBool = plan.boolSlots.head?) {slot : ℕ} (h : plan.isPacked slot = true) :
    plan.firstBool = some (denseHolder plan slot) ∧ plan.isPacked (denseHolder plan slot) = true := by
  obtain ⟨hon, hmem⟩ := isPacked_eq_true.mp h
  obtain ⟨first, rest, hslots⟩ := List.exists_cons_of_ne_nil (List.ne_nil_of_mem hmem)
  have hsome : plan.firstBool = some first := by
    rw [hfirst, hslots]
    rfl
  have hholder : denseHolder plan slot = first := by
    rw [denseHolder, if_pos h, hsome, Option.getD_some]
  rw [hholder, isPacked_eq_true, hslots]
  exact ⟨hsome, hon, List.mem_cons_self⟩

theorem holder_of_unpacked {slot : ℕ} (h : plan.isPacked slot = false) :
    denseHolder plan slot = slot ∧ holderByte plan slot = 0 := by
  rw [denseHolder, holderByte, h, if_neg Bool.false_ne_true, if_neg Bool.false_ne_true]
  exact ⟨rfl, rfl⟩

/-- The bit of a packed bool is in the word. -/
theorem holderByte_lt {slot : ℕ} (h : plan.isPacked slot = true) : holderByte plan slot < plan.boolWordBytes := by
  obtain ⟨hon, hmem⟩ := isPacked_eq_true.mp h
  have hlt := List.idxOf_lt_length_iff.mpr hmem
  have hne : plan.boolSlots.isEmpty = false := List.isEmpty_eq_false_iff.mpr (List.ne_nil_of_mem hmem)
  rw [holderByte, if_pos h, RowCellPlan.boolWordBytes, hon, hne, if_neg (by decide)]
  omega

theorem holder_held (hfirst : plan.firstBool = plan.boolSlots.head?) (slot : ℕ) : denseHeld plan (denseHolder plan slot) = true := by
  cases hpacked : plan.isPacked slot with
  | true =>
    rw [denseHeld, (holder_of_packed hfirst hpacked).1, beq_self_eq_true, Bool.or_true]
  | false =>
    rw [(holder_of_unpacked hpacked).1, denseHeld, hpacked, Bool.not_false, Bool.true_or]

/-- The walk stops at the slot that holds the value, behind the steps past the slots in front of it. -/
theorem denseWalk_eq (hfirst : plan.firstBool = plan.boolSlots.head?) {d : Bytes} {bodyBase slot : ℕ} :
    ∀ {order pre rest : List ℕ} {pos : ℕ}, order.filter (denseHeld plan) = pre ++ denseHolder plan slot :: rest →
      denseHolder plan slot ∉ pre → denseWalk d bodyBase slot sch plan order pos = (do
        let pos ← pre.foldlM (walkStep sch plan d bodyBase) pos
        let off ← usizeAdd bodyBase (walkPlace sch plan pos (denseHolder plan slot) + holderByte plan slot)
        .ok (some off))
  | [], pre, rest, pos, h, _ => absurd h.symm (by simp)
  | fi :: order, pre, rest, pos, h, hpre => by
    rw [denseWalk]
    cases hheld : denseHeld plan fi with
    | false =>
      rw [List.filter_cons_of_neg (by rw [hheld]; exact Bool.false_ne_true)] at h
      rw [denseHeld, Bool.or_eq_false_iff, Bool.not_eq_false', beq_eq_false_iff_ne] at hheld
      rw [if_pos hheld.1, if_neg (Ne.symm hheld.2)]
      exact denseWalk_eq hfirst h hpre
    | true =>
      rw [List.filter_cons_of_pos hheld] at h
      rw [denseHeld, Bool.or_eq_true, Bool.not_eq_true', beq_iff_eq] at hheld
      cases pre with
      | nil =>
        -- the slot that holds the value
        rw [List.nil_append, List.cons.injEq] at h
        rw [List.foldlM_nil, pure_eq, ok_bind]
        cases hpacked : plan.isPacked slot with
        | true =>
          obtain ⟨hsome, hpackedFirst⟩ := holder_of_packed hfirst hpacked
          rw [h.1, if_pos hpackedFirst, if_pos hsome.symm, if_pos (List.contains_iff_mem.mpr (isPacked_eq_true.mp hpacked).2),
            walkPlace, if_pos hpackedFirst, holderByte, if_pos hpacked]
        | false =>
          obtain ⟨hself, hbyte⟩ := holder_of_unpacked hpacked
          rw [hself] at h ⊢
          rw [h.1, if_neg (by rw [hpacked]; exact Bool.false_ne_true), if_pos rfl, walkPlace,
            if_neg (by rw [hpacked]; exact Bool.false_ne_true), hbyte, Nat.add_zero]
      | cons f pre =>
        -- a slot in front of it
        rw [List.cons_append, List.cons.injEq] at h
        obtain ⟨rfl, h⟩ := h
        have hne : fi ≠ denseHolder plan slot := fun heq => hpre (heq ▸ List.mem_cons_self)
        have hpre' : denseHolder plan slot ∉ pre := fun hin => hpre (List.mem_cons_of_mem _ hin)
        rw [List.foldlM_cons]
        cases hpacked : plan.isPacked fi with
        | true =>
          have hsome := hheld.resolve_left (by rw [hpacked]; exact Bool.true_eq_false.mp)
          have hslot : ¬ plan.boolSlots.contains slot = true := fun hin => by
            have hslot := isPacked_eq_true.mpr ⟨(isPacked_eq_true.mp hpacked).1, List.contains_iff_mem.mp hin⟩
            have hsome' := (holder_of_packed hfirst hslot).1
            rw [hsome] at hsome'
            exact hne (Option.some.inj hsome')
          rw [if_pos rfl, if_pos hsome.symm, if_neg hslot, walkStep, if_pos hpacked, if_pos hsome.symm, ok_bind]
          exact denseWalk_eq hfirst h hpre'
        | false =>
          have hslot : ¬ fi = slot := fun heq => hne (by
            rw [(holder_of_unpacked (heq ▸ hpacked)).1, heq])
          rw [if_neg Bool.false_ne_true, if_neg hslot, walkStep, if_neg (by rw [hpacked]; exact Bool.false_ne_true),
            bind_assoc]
          exact bind_congr fun pos' => denseWalk_eq hfirst h hpre'

/-! ## Columns and rows -/

end

/-- The sigil of the columns that hold such cells. -/
def CompactCell.sigil : CompactCell → UInt8
  | .i64 _ => SIGIL_INT
  | .f64 _ => SIGIL_FLOAT
  | .bool _ => SIGIL_BOOL
  | .str _ => SIGIL_STR
  | .time _ => SIGIL_TIME
  | .null => SIGIL_NULL
  | .keyword _ => SIGIL_KEYWORD

/-- Columns of ints, floats, bools, times and promoted or inline strings with the widths 0, 1, 2, 4 and 8. -/
structure DenseColumns (sch : ExtendedSchema) : Prop where
  lengths : sch.sigils.length = sch.keys.length
  kinds : ∀ fi < sch.keys.length, sch.sigil fi ∈ [SIGIL_INT, SIGIL_FLOAT, SIGIL_BOOL, SIGIL_TIME, SIGIL_STR]
  promoted : ∀ fi, sch.isPromoted fi = true → sch.sigil fi = SIGIL_STR
  widths : ∀ fi, (sch.widths.getD fi 0).toNat ∈ [0, 1, 2, 4, 8]

/-- A full row: every slot has a cell of its column's kind. -/
structure FullRow (cells : List (ℕ × CompactCell)) (sch : ExtendedSchema) : Prop where
  slots : ∀ c ∈ cells, c.1 < 65536
  full : ∀ fi < sch.keys.length, ∃ c ∈ cells, c.1 = fi
  kinds : ∀ c ∈ cells, c.1 < sch.keys.length → c.2.sigil = sch.sigil c.1

/-- What a plan takes over from its schema. -/
structure PlanOf (sch : ExtendedSchema) (plan : RowCellPlan) : Prop where
  boolSlots : plan.boolSlots = sch.boolSlots
  firstBool : plan.firstBool = plan.boolSlots.head?

theorem planOf_bare (sch : ExtendedSchema) (flags : ℕ) : PlanOf sch (RowCellPlan.bare sch flags) := ⟨rfl, rfl⟩

theorem planOf_new (sch : ExtendedSchema) (flags : ℕ) : PlanOf sch (RowCellPlan.new sch flags) := by
  rw [RowCellPlan.new]
  dsimp only
  split
  · exact ⟨rfl, rfl⟩
  · exact planOf_bare sch flags

/-- The cell that is kept for a slot is one of the row's. -/
theorem cellAt_mem {cells : List (ℕ × CompactCell)} (hslots : ∀ c ∈ cells, c.1 < 65536) {fi : ℕ} (h : ∃ c ∈ cells, c.1 = fi) :
    ∃ c ∈ cells, c.1 = fi ∧ cellAt cells fi = some c.2 := by
  obtain ⟨c, hc, rfl⟩ := h
  have hmod : c.1 % 65536 = c.1 := Nat.mod_eq_of_lt (hslots c hc)
  cases hfind : cells.reverse.find? fun e => e.1 == c.1 % 65536 with
  | none =>
    have := List.find?_eq_none.mp hfind c (List.mem_reverse.mpr hc)
    rw [hmod, beq_self_eq_true] at this
    exact absurd rfl this
  | some e =>
    have hslot := beq_iff_eq.mp (List.find?_some (p := fun e : ℕ × CompactCell => e.1 == c.1 % 65536) hfind)
    rw [hmod] at hslot
    refine ⟨e, List.mem_reverse.mp (List.mem_of_find?_eq_some hfind), hslot, ?_⟩
    rw [cellAt, hfind]
    rfl

/-- The cell of a slot that has one is of its column's kind. -/
theorem exists_cellAt {cells : List (ℕ × CompactCell)} {sch : ExtendedSchema} (hslots : ∀ c ∈ cells, c.1 < 65536)
    (hkinds : ∀ c ∈ cells, c.1 < sch.keys.length → c.2.sigil = sch.sigil c.1) {fi : ℕ} (hfi : fi < sch.keys.length)
    (h : ∃ c ∈ cells, c.1 = fi) : ∃ cell, cellAt cells fi = some cell ∧ cell.sigil = sch.sigil fi := by
  obtain ⟨c, hc, rfl, hat⟩ := cellAt_mem hslots h
  exact ⟨c.2, hat, hkinds c hc hfi⟩

theorem FullRow.cell {cells : List (ℕ × CompactCell)} {sch : ExtendedSchema} (h : FullRow cells sch) {fi : ℕ}
    (hfi : fi < sch.keys.length) : ∃ cell, cellAt cells fi = some cell ∧ cell.sigil = sch.sigil fi :=
  exists_cellAt h.slots h.kinds hfi (h.full fi hfi)

section

variable {cells : List (ℕ × CompactCell)} {sch : ExtendedSchema} {plan : RowCellPlan}

theorem DenseColumns.planWidth_cases (h : DenseColumns sch) (plan : RowCellPlan) (fi : ℕ) :
    planWidth sch plan fi = 1 ∨ planWidth sch plan fi = 2 ∨ planWidth sch plan fi = 4 ∨ planWidth sch plan fi = 8 := by
  have hw := h.widths fi
  rw [planWidth]
  split
  · rw [ExtendedSchema.cellWidth]
    split
    · exact Or.inr (Or.inl rfl)
    · dsimp only
      simp only [List.mem_cons, List.not_mem_nil, or_false] at hw
      split <;> omega
  · exact Or.inr (Or.inr (Or.inr rfl))

theorem alignTo_width {pos w : ℕ} (hw : w = 1 ∨ w = 2 ∨ w = 4 ∨ w = 8) (hpos : pos + 8 ≤ 2 ^ 64) :
    alignTo pos w = pos + padLen w pos := by
  rcases hw with rfl | rfl | rfl | rfl
  · exact alignTo_pow (k := 0) (by decide) (by omega)
  · exact alignTo_pow (k := 1) (by decide) (by omega)
  · exact alignTo_pow (k := 2) (by decide) (by omega)
  · exact alignTo_pow (k := 3) (by decide) hpos

/-- A plan of a schema with a sigil for each key. -/
structure Planned (sch : ExtendedSchema) (plan : RowCellPlan) : Prop where
  lengths : sch.sigils.length = sch.keys.length
  plan_of : PlanOf sch plan

/-- The slots of the packed bools are the bool columns. -/
theorem Planned.isPacked_iff (h : Planned sch plan) {fi : ℕ} (hfi : fi < sch.keys.length) :
    plan.isPacked fi = true ↔ plan.packedBools = true ∧ sch.sigil fi = SIGIL_BOOL := by
  rw [isPacked_eq_true, h.plan_of.boolSlots, ExtendedSchema.boolSlots, List.mem_filter, List.mem_range, beq_iff_eq, h.lengths]
  exact and_congr_right fun _ => ⟨fun hin => hin.2, fun hsig => ⟨hfi, hsig⟩⟩

theorem DenseColumns.isPacked_iff (h : DenseColumns sch) (hplan : PlanOf sch plan) {fi : ℕ} (hfi : fi < sch.keys.length) :
    plan.isPacked fi = true ↔ plan.packedBools = true ∧ sch.sigil fi = SIGIL_BOOL :=
  Planned.isPacked_iff ⟨h.lengths, hplan⟩ hfi

/-- A column of variable length is never packed. -/
theorem Planned.unpacked_of_var (h : Planned sch plan) {fi : ℕ} (hfi : fi < sch.keys.length)
    (hvar : isVarSigil (sch.sigil fi) = true) : plan.isPacked fi = false := by
  refine Bool.eq_false_of_not_eq_true fun hpacked => ?_
  rw [((h.isPacked_iff hfi).mp hpacked).2] at hvar
  exact absurd hvar (by decide)

end

end Nyxis
