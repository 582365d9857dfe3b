import Nyxis.Lib.Safe
import Nyxis.PaxStreamReader

/-!
# StreamAgrees — the reader of a growing PAX file and the reader of the sealed file

The two readers are compared over the pages that a prefix of the file shows.  The page views count eight bytes a record
for every column in front of the one they look for, so that the comparison comes down to what stands at that place.

* `found_of_fixed`: it is the column, if no column in front has a variable length.
* `stream_agrees_iff`: the readers agree exactly when it is, in every numeric column.
-/

namespace Nyxis

open Lib Lib.Outcome

/-! ## What is compared -/

/-- The numbers that the reader of the sealed file adds up over its first `n` records. -/
def Reader.paxSumTerms (r : Reader) (n : ℕ) (key : String) : Opt (List F64) := do
  let s ← r.slot key
  (List.range n).filterMapM fun i => orNone (r.paxGetF64 i s)

/-- Over all records these are the numbers of `col_sum_f64`. -/
theorem Reader.colSumTerms_pax {r : Reader} (hpax : r.layout = .pax) (key : String) :
    r.colSumTerms key = r.paxSumTerms r.recordCount key := by
  rw [colSumTerms, paxSumTerms]
  congr 1
  funext s
  rw [hpax]

/-- The sum of numbers, from 0.0 on. -/
def sumF64 (add : F64 → F64 → F64) (terms : List F64) : F64 := terms.foldl add (f64Of 0)

/-- The sigil of a column of integers or of floating-point numbers. -/
def NumericSigil (sigil : UInt8) : Prop := sigil = SIGIL_INT ∨ sigil = SIGIL_FLOAT

/-- The readers of the prefix `d` and of the sealed file agree on the first `k` pages. -/
def StreamAgrees (add : F64 → F64 → F64) (r : Reader) (d : Bytes) (gs : List (List RecordRow)) (k : ℕ) : Prop :=
  ∃ s views, PaxStreamReader.new d = .ok s ∧ s.completePages = .ok views ∧ views.length = k ∧
    s.completeRecordCount = .ok (groupStart gs k) ∧
    (∀ p view g, views[p]? = some view → gs[p]? = some g →
      view.recordStart = groupStart gs p ∧ view.recordCount = g.length) ∧
    ∀ key fi, r.slot key = .ok fi → NumericSigil (r.keySigils.getD fi SIGIL_INT) →
      (∀ p view g j, views[p]? = some view → gs[p]? = some g → j < g.length →
        s.getF64 view j key = r.f64At (groupStart gs p + j) key ∧
          s.getI64 view j key = r.i64At (groupStart gs p + j) key) ∧
      sumF64 add <$> s.colSumTerms key = sumF64 add <$> r.paxSumTerms (groupStart gs k) key

/-- At the place where a view looks for a column are the bits and the words of `cells`. -/
def PaxPageView.Found (v : PaxPageView) (slot : ℕ) (sigil : UInt8) (cells : List Cell) : Prop :=
  v.Room slot ∧ ∀ j c, cells[j]? = some c → bitOf v.data (v.place slot) j = cellPopulated c ∧
    (cellPopulated c = true → word v.data (v.valuesPlace slot + j * 8) 8 = leNat ((fixedBytes sigil c).take 8))

/-- The first `k` pages of a numeric column can be read by either reader. -/
structure ColumnShown (fieldCount : ℕ) (sigils : List UInt8) (gs : List (List RecordRow)) (st : PaxPages) (d : Bytes)
    (k fi : ℕ) : Prop where
  populated : ∃ g ∈ gs.take k, ∃ row ∈ g, cellPopulated (row.cell fi) = true
  pages : gs.length ≤ 2 ^ 31
  search : ∀ p < k, PaxReader.SearchFits gs.length p
  found : ∀ (p : ℕ) (g : List RecordRow) (page : PaxPageMeta), (gs.take k)[p]? = some g → st.pages[p]? = some page →
    (page.view fieldCount d).Found fi (sigils.getD fi SIGIL_INT) (column g fi)

/-- When the two readers agree. -/
structure StreamReadable (keys : List String) (sigils : List UInt8) (gs : List (List RecordRow)) (st : PaxPages)
    (preambleTail : ℕ) (d : Bytes) (k : ℕ) : Prop where
  opens : preambleTail = 0 ∨ SealedPax.EndsSealed d
  framed : ∀ g ∈ gs.take k, pageLen keys.length sigils g < 2 ^ 32
  columns : ∀ key ∈ keys, NumericSigil (sigils.getD (keys.length - 1 - keys.reverse.idxOf key) SIGIL_INT) →
    ColumnShown keys.length sigils gs st d k (keys.length - 1 - keys.reverse.idxOf key)

/-! ## Cells -/

theorem not_isVarSigil {sigil : UInt8} (h : NumericSigil sigil) : isVarSigil sigil = false := by
  rcases h with rfl | rfl <;> rfl

/-- What a cell of a numeric column adds to its sum. -/
def cellTerm (sigil : UInt8) (c : Cell) : Option F64 :=
  if cellPopulated c then some (f64Of (leNat ((fixedBytes sigil c).take 8))) else none

theorem storedWord_numeric {sigil : UInt8} (h : NumericSigil sigil) (c : Cell) : storedWord sigil 8 c =
    if cellPopulated c then .ok (leNat ((fixedBytes sigil c).take 8)) else none' := by
  rw [storedWord, if_neg (by simp [not_isVarSigil h])]

theorem orNone_storedWord {sigil : UInt8} (h : NumericSigil sigil) (c : Cell) :
    orNone (f64Of <$> storedWord sigil 8 c) = .ok (cellTerm sigil c) := by
  rw [storedWord_numeric h, cellTerm]
  split <;> rfl

theorem word_take_lt (b : Bytes) : leNat (b.take 8) < 2 ^ 64 :=
  Nat.lt_of_lt_of_le (leNat_lt _) (Nat.pow_le_pow_right (by decide) (List.length_take_le 8 b))

/-- Numbers of 64 bits are told apart. -/
theorem f64Of_map_inj {x y : Opt ℕ} (hx : ∀ n, x = .ok n → n < 2 ^ 64) (hy : ∀ n, y = .ok n → n < 2 ^ 64)
    (h : f64Of <$> x = f64Of <$> y) : x = y := by
  cases x <;> cases y <;> try cases h
  · rename_i a b
    rw [map_ok, map_ok] at h
    have hbits := F64.mk.inj (ok.inj h)
    have hnat := congrArg UInt64.toNat hbits
    rw [UInt64.toNat_ofNat_of_lt' (hx a rfl), UInt64.toNat_ofNat_of_lt' (hy b rfl)] at hnat
    rw [hnat]
  · rfl
  · rfl

theorem orNone_ne_err {α : Type} {x : Opt α} {e : Unit} : orNone x ≠ .err e := by
  cases x <;> simp [orNone, unwrapOr]

/-- Going over the positions of a list is going over the list. -/
theorem filterMap_range {α β : Type} (l : List α) (f : α → Option β) :
    (List.range l.length).filterMap (fun i => l[i]?.bind f) = l.filterMap f := by
  induction l with
  | nil => rfl
  | cons a l ih =>
    rw [List.length_cons, List.range_succ_eq_map, List.filterMap_cons, List.filterMap_map, List.filterMap_cons]
    have htail : (List.range l.length).filterMap ((fun i => (a :: l)[i]?.bind f) ∘ Nat.succ) = l.filterMap f := by
      rw [← ih]
      exact List.filterMap_congr fun i _ => by rw [Function.comp_apply, Nat.succ_eq_add_one, List.getElem?_cons_succ]
    rw [htail]
    rfl

namespace PaxPageView

variable {v : PaxPageView} {slot : ℕ} {sigil : UInt8} {cells : List Cell}

/-- Cells that are found are read. -/
theorem Found.getWord (h : v.Found slot sigil cells) (hv : v.Fits) (hslot : slot < v.fieldCount)
    (hsigil : NumericSigil sigil) (hlen : cells.length = v.recordCount) {j : ℕ} {c : Cell} (hc : cells[j]? = some c) :
    v.getWord j slot = storedWord sigil 8 c := by
  have hj := (List.getElem?_eq_some_iff.mp hc).1
  obtain ⟨hbit, hword⟩ := h.2 j c hc
  rw [getWord_eq hv hslot (by omega), storedWord_numeric hsigil, hbit]
  by_cases hpop : cellPopulated c = true
  · rw [if_pos ⟨h.1, hpop⟩, if_pos hpop, hword hpop]
  · rw [if_neg fun h' => hpop h'.2, if_neg hpop]

/-- Cells that are read are found, if their place is inside the buffer. -/
theorem found_of_getWord (hroom : v.Room slot) (hv : v.Fits) (hslot : slot < v.fieldCount) (hsigil : NumericSigil sigil)
    (hlen : cells.length = v.recordCount)
    (h : ∀ j c, cells[j]? = some c → v.getWord j slot = storedWord sigil 8 c) : v.Found slot sigil cells := by
  refine ⟨hroom, fun j c hc => ?_⟩
  have hj := (List.getElem?_eq_some_iff.mp hc).1
  have hread := h j c hc
  rw [getWord_eq hv hslot (by omega), storedWord_numeric hsigil] at hread
  by_cases hbit : bitOf v.data (v.place slot) j = true
  · rw [if_pos ⟨hroom, hbit⟩] at hread
    by_cases hpop : cellPopulated c = true
    · rw [if_pos hpop] at hread
      exact ⟨by rw [hbit, hpop], fun _ => ok.inj hread⟩
    · rw [if_neg hpop] at hread
      cases hread
  · rw [if_neg fun h' => hbit h'.2] at hread
    by_cases hpop : cellPopulated c = true
    · rw [if_pos hpop] at hread
      cases hread
    · exact ⟨by simp [hbit, hpop], fun hpop' => absurd hpop' hpop⟩

/-- The sum over the page of cells that are found. -/
theorem Found.terms (h : v.Found slot sigil cells) (hv : v.Fits) (hslot : slot < v.fieldCount)
    (hlen : cells.length = v.recordCount) : v.terms slot = .ok (cells.filterMap (cellTerm sigil)) := by
  rw [terms_eq hv hslot, if_pos h.1, ← filterMap_range cells, hlen]
  congr 1
  refine List.filterMap_congr fun j hj => ?_
  rw [List.mem_range] at hj
  have hc := List.getElem?_eq_getElem (show j < cells.length by omega)
  obtain ⟨hbit, hword⟩ := h.2 j _ hc
  rw [hc, Option.bind_some, cellTerm, hbit]
  by_cases hpop : cellPopulated cells[j] = true
  · rw [if_pos hpop, if_pos hpop, hword hpop]
  · rw [if_neg hpop, if_neg hpop]

/-- The columns in front of a column have eight bytes a record, all together. -/
theorem found_of_widths {d : Bytes} {m fieldCount p recordStart : ℕ} {sigils : List UInt8} {g : List RecordRow}
    {cols : List Bytes} (hcols : encodeColumns fieldCount sigils g = .ok cols)
    (hpage : PageAt d v.offset p recordStart g cols) (hdata : v.data = d.take m)
    (hm : v.offset + 24 + cols.flatten.length ≤ m) (hcount : v.recordCount = g.length) (hslot : slot < fieldCount)
    (hsigil : NumericSigil (sigils.getD slot SIGIL_INT))
    (hwidth : (cols.take slot).flatten.length = slot * (nullBitmapBytes g.length + g.length * 8)) :
    v.Found slot (sigils.getD slot SIGIL_INT) (column g slot) := by
  obtain ⟨hlen, hspec⟩ := encodeColumns_spec hcols
  obtain ⟨s, hs, henc⟩ := hspec slot hslot
  rcases encodeFieldColumn_eq_ok.mp henc with ⟨hv, -, -⟩ | ⟨-, -, rfl⟩
  · rw [not_isVarSigil hsigil] at hv
    cases hv
  · have hsplit : cols.flatten = (cols.take slot).flatten ++
        (fixedColumn (sigils.getD slot SIGIL_INT) (column g slot) ++ (cols.drop (slot + 1)).flatten) := by
      obtain ⟨hlt, hget⟩ := List.getElem?_eq_some_iff.mp hs
      conv_lhs => rw [← List.take_append_drop slot cols, List.drop_eq_getElem_cons hlt, hget]
      rw [List.flatten_append, List.flatten_cons]
    have hbody := hpage.body.of_prefix hm
    rw [hsplit, at_append, at_append, hwidth, ← hdata, fixedColumn, at_append, encodeNullBitmap_length, column_length] at hbody
    obtain ⟨-, ⟨hbits, hvals⟩, -⟩ := hbody
    have hplace : v.place slot = v.offset + 24 + slot * (nullBitmapBytes g.length + g.length * 8) := by
      rw [place, hcount]
    rw [← hplace] at hbits hvals
    have hvplace : v.valuesPlace slot = v.place slot + nullBitmapBytes g.length := by rw [valuesPlace, hcount]
    rw [← hvplace] at hvals
    have hroom := hvals.le
    rw [writeFixedBuffer_length, column_length, ← hcount] at hroom
    refine ⟨hroom, fun j c hc => ⟨?_, fun hpop => ?_⟩⟩
    · have hj := (List.getElem?_eq_some_iff.mp hc).1
      have hble := nullBitmapBytes_le g.length
      rw [column_length] at hj
      have hbm := hbits.take_drop
      rw [encodeNullBitmap_length, column_length] at hbm
      have hslice : (bitAt ((v.data.drop (v.place slot)).take (nullBitmapBytes g.length)) j : Opt Bool) = _ := bitAt_slice
        (by have := hbits.le; rw [encodeNullBitmap_length, column_length] at this; exact this) (by omega)
      rw [hbm, bitAt_encodeNullBitmap hc] at hslice
      exact (ok.inj hslice).symm
    · have hcell := word_at (hvals.trans (fixed_cell_at (sigils.getD slot SIGIL_INT) hc hpop))
      rw [fixedBytes_length] at hcell
      rw [hcell, List.take_of_length_le (by rw [fixedBytes_length])]

/-- A column is found if no column in front of it has a variable length. -/
theorem found_of_fixed {d : Bytes} {m fieldCount p recordStart : ℕ} {sigils : List UInt8} {g : List RecordRow}
    {cols : List Bytes} (hcols : encodeColumns fieldCount sigils g = .ok cols)
    (hpage : PageAt d v.offset p recordStart g cols) (hdata : v.data = d.take m)
    (hm : v.offset + 24 + cols.flatten.length ≤ m) (hcount : v.recordCount = g.length) (hslot : slot < fieldCount)
    (hsigil : NumericSigil (sigils.getD slot SIGIL_INT))
    (hfixed : ∀ fi < slot, isVarSigil (sigils.getD fi SIGIL_INT) = false) :
    v.Found slot (sigils.getD slot SIGIL_INT) (column g slot) := by
  obtain ⟨hlen, hspec⟩ := encodeColumns_spec hcols
  have hwidth : ∀ n ≤ slot, (cols.take n).flatten.length = n * (nullBitmapBytes g.length + g.length * 8) := by
    intro n
    induction n with
    | zero => intro _; simp
    | succ n ih =>
      intro hn
      obtain ⟨s, hs, henc⟩ := hspec n (by omega)
      rcases encodeFieldColumn_eq_ok.mp henc with ⟨hv, -, -⟩ | ⟨-, -, rfl⟩
      · rw [hfixed n (by omega)] at hv
        cases hv
      · rw [List.take_add_one, hs, List.flatten_append, List.length_append, ih (by omega), Nat.add_mul]
        simp
  exact found_of_widths hcols hpage hdata hm hcount hslot hsigil (hwidth slot (le_refl _))

end PaxPageView

/-! ## The sealed file -/

theorem Reader.slot_eq_ok {r : Reader} {key : String} {fi : ℕ} : r.slot key = .ok fi ↔
    key ∈ r.keys ∧ fi = r.keys.length - 1 - r.keys.reverse.idxOf key := by
  rw [Reader.slot]
  by_cases hmem : key ∈ r.keys
  · rw [if_pos hmem, ok.injEq, and_iff_right hmem, eq_comm]
  · rw [if_neg hmem]
    exact iff_of_false (by simp) fun h => hmem h.1

theorem Reader.slot_lt {r : Reader} {key : String} {fi : ℕ} (h : r.slot key = .ok fi) : fi < r.keys.length := by
  obtain ⟨hmem, rfl⟩ := slot_eq_ok.mp h
  have := List.length_pos_of_mem hmem
  omega

namespace PaxReader

variable {r : Reader} {base fieldCount : ℕ} {sigils : List UInt8} {gs : List (List RecordRow)} {st : PaxPages}

/-- What the reader of the sealed file adds up over its first `k` pages. -/
theorem paxSumTerms_eq (h : PaxReader r base fieldCount sigils gs st) {key : String} {fi k : ℕ}
    (hslot : r.slot key = .ok fi) (hsigil : NumericSigil (sigils.getD fi SIGIL_INT)) (hpages : gs.length ≤ 2 ^ 31)
    (hk : k ≤ gs.length) (hsearch : ∀ p < k, SearchFits gs.length p) : r.paxSumTerms (groupStart gs k) key =
      .ok ((gs.take k).flatten.filterMap fun row => cellTerm (sigils.getD fi SIGIL_INT) (row.cell fi)) := by
  have hfi : fi < fieldCount := by
    rw [← h.keys_length]
    exact Reader.slot_lt hslot
  rw [Reader.paxSumTerms, hslot, ok_bind, ← filterMap_range, groupStart]
  refine filterMapM_ok fun i hi => ?_
  rw [List.mem_range] at hi
  obtain ⟨row, hrow⟩ : ∃ row, (gs.take k).flatten[i]? = some row := ⟨_, List.getElem?_eq_getElem hi⟩
  obtain ⟨p, j, g, hp, hj, rfl⟩ := exists_group hrow
  have hpk : p < k := by
    have := (List.getElem?_eq_some_iff.mp hp).1
    rw [List.length_take] at this
    omega
  rw [List.getElem?_take_of_lt hpk] at hp
  have hstart : groupStart (gs.take k) p = groupStart gs p := by
    rw [groupStart, List.take_take, Nat.min_eq_left (by omega), groupStart]
  have hloc := h.locate hpages hp (List.getElem?_eq_some_iff.mp hj).1
  rw [if_pos (hsearch p hpk)] at hloc
  rw [hrow, Option.bind_some, hstart, Reader.paxGetF64, h.getWord hp hj hloc hfi (le_refl _), orNone_storedWord hsigil]

end PaxReader

/-! ## The pages that are shown -/

namespace SealedPax

variable {keys : List String} {sigils : List UInt8} {gs : List (List RecordRow)} {st : PaxPages} {preambleTail : ℕ}
  {file : Slice}

theorem view_fits (h : SealedPax keys sigils gs st preambleTail file) {p : ℕ} {g : List RecordRow} {entry : PaxPageMeta}
    (hp : gs[p]? = some g) (hentry : st.pages[p]? = some entry) (m : ℕ) :
    (entry.view keys.length (file.bytes.take m)).Fits ∧ entry.recordStart = groupStart gs p ∧
      entry.recordCount = g.length := by
  obtain ⟨page, cols, entry', -, -, hentry', -, hstart, hcount, -, -, -, hat, -, -⟩ := h.page hp
  rw [hentry] at hentry'
  cases hentry'
  have hsmall := file.small
  have hle := hat.le
  obtain ⟨-, hrows⟩ := h.emitted.fits g (List.mem_of_getElem? hp)
  refine ⟨⟨?_, ?_, ?_, h.keys_lt⟩, hstart, hcount⟩
  · show (file.bytes.take m).length < 2 ^ 63
    rw [List.length_take]
    omega
  · show entry.pageOffset < 2 ^ 63
    omega
  · show entry.recordCount < 2 ^ 32
    rw [hcount]
    exact hrows

/-- The pages and the groups of rows go together. -/
theorem entry_of (h : SealedPax keys sigils gs st preambleTail file) {p : ℕ} {g : List RecordRow}
    (hp : gs[p]? = some g) : ∃ entry, st.pages[p]? = some entry := by
  obtain ⟨-, -, entry, -, -, hentry, -⟩ := h.page hp
  exact ⟨entry, hentry⟩

/-- The record counts of the first pages. -/
theorem recordCount_views (h : SealedPax keys sigils gs st preambleTail file) (m : ℕ) : ∀ k ≤ gs.length,
    ((st.pages.take k).map fun page => page.view keys.length (file.bytes.take m)).foldlM
      (fun n view => usizeAdd n view.recordCount) 0 = (.ok (groupStart gs k) : Opt ℕ) := by
  intro k
  induction k with
  | zero => intro _; rfl
  | succ k ih =>
    intro hk
    have hget := List.getElem?_eq_getElem (show k < gs.length by omega)
    obtain ⟨entry, hentry⟩ := h.entry_of hget
    obtain ⟨-, -, hcount⟩ := h.view_fits hget hentry m
    have hsucc := groupStart_succ hget
    have hbound := PaxReader.groupStart_le gs (k + 1)
    have hflat := h.emitted.flatten_lt
    have hadd : (usizeAdd (groupStart gs k) gs[k].length : Opt ℕ) = .ok (groupStart gs (k + 1)) := by
      rw [usizeAdd_of (by omega), hsucc]
    rw [List.take_add_one, hentry, Option.toList_some, List.map_append, List.foldlM_append, ih (by omega), ok_bind,
      List.map_singleton, List.foldlM_cons]
    show (do
      let n ← usizeAdd (groupStart gs k) entry.recordCount
      List.foldlM _ n []) = _
    rw [hcount, hadd]
    rfl

/-- The views of the first pages. -/
def views (keys : List String) (st : PaxPages) (d : Bytes) (k : ℕ) : List PaxPageView :=
  (st.pages.take k).map fun page => page.view keys.length d

theorem views_getElem? {d : Bytes} {k p : ℕ} {view : PaxPageView} (h : (views keys st d k)[p]? = some view) :
    p < k ∧ ∃ entry, st.pages[p]? = some entry ∧ view = entry.view keys.length d := by
  rw [views, List.getElem?_map] at h
  obtain ⟨entry, hentry, rfl⟩ := Option.map_eq_some_iff.mp h
  obtain ⟨hlt, rfl⟩ := List.getElem?_eq_some_iff.mp hentry
  rw [List.length_take] at hlt
  refine ⟨by omega, _, ?_, rfl⟩
  rw [List.getElem_take]
  exact List.getElem?_eq_getElem _

theorem views_length (h : SealedPax keys sigils gs st preambleTail file) {d : Bytes} {k : ℕ} (hk : k ≤ gs.length) :
    (views keys st d k).length = k := by
  obtain ⟨-, hplen, -, -⟩ := h.emitted.counts
  rw [views, List.length_map, List.length_take]
  omega

/-- What the pages add to the sum over a column that is found on each of them. -/
theorem mapM_terms (h : SealedPax keys sigils gs st preambleTail file) {m k fi : ℕ} (hk : k ≤ gs.length)
    (hfi : fi < keys.length) (hfound : ∀ (p : ℕ) (g : List RecordRow) (page : PaxPageMeta), (gs.take k)[p]? = some g →
      st.pages[p]? = some page →
      (page.view keys.length (file.bytes.take m)).Found fi (sigils.getD fi SIGIL_INT) (column g fi)) :
    (views keys st (file.bytes.take m) k).mapM (fun view => view.terms fi) = .ok ((gs.take k).map fun g =>
      (column g fi).filterMap (cellTerm (sigils.getD fi SIGIL_INT))) := by
  refine mapM_eq_ok.mpr (List.forall₂_iff_get.mpr ⟨?_, fun p hp hp' => ?_⟩)
  · rw [h.views_length hk, List.length_map, List.length_take, Nat.min_eq_left hk]
  · rw [List.length_map, List.length_take] at hp'
    have hget := List.getElem?_eq_getElem (show p < gs.length by omega)
    have htake : (gs.take k)[p]? = some gs[p] := by rw [List.getElem?_take_of_lt (by omega), hget]
    obtain ⟨-, entry, hentry, hview⟩ := views_getElem? (List.getElem?_eq_getElem hp)
    obtain ⟨hfits, -, hcount⟩ := h.view_fits hget hentry m
    rw [List.get_eq_getElem, List.get_eq_getElem, hview, List.getElem_map, List.getElem_take]
    exact (hfound p _ entry htake hentry).terms hfits hfi (by rw [column_length]; exact hcount.symm)

theorem schema_le (h : SealedPax keys sigils gs st preambleTail file) {m k : ℕ} (hk : Shows keys sigils gs st m k) :
    32 + (buildSchema keys sigils).length ≤ m := by
  have hpages := hk.pages
  have hoff := h.pageOffset_add_le (n := k) (p := 0) (by omega)
  have := hk.complete
  rw [h.emitted.pageOffset_zero, Nat.zero_add] at hoff
  omega

/-- A row of a group is one of the flattened rows. -/
theorem row_index_lt {p j : ℕ} {g : List RecordRow} (hp : gs[p]? = some g) (hj : j < g.length) :
    groupStart gs p + j < gs.flatten.length := by
  have hsucc := groupStart_succ hp
  have := PaxReader.groupStart_le gs (p + 1)
  omega

/-- What both readers see of a cell on a page that is shown. -/
theorem getters_agree (h : SealedPax keys sigils gs st preambleTail file) {base : ℕ} {r : Reader}
    (hpax : PaxReader r base keys.length sigils gs st) {m k fi : ℕ} {key : String}
    (hslot : r.slot key = .ok fi) (hfi : fi < keys.length) (hsigil : NumericSigil (sigils.getD fi SIGIL_INT))
    (hshown : ColumnShown keys.length sigils gs st (file.bytes.take m) k fi) {p j : ℕ} {g : List RecordRow}
    {entry : PaxPageMeta} (hp : gs[p]? = some g) (hpk : p < k) (hentry : st.pages[p]? = some entry) (hj : j < g.length) :
    f64Of <$> (entry.view keys.length (file.bytes.take m)).getWord j fi = r.f64At (groupStart gs p + j) key ∧
      i64Of <$> (entry.view keys.length (file.bytes.take m)).getWord j fi = r.i64At (groupStart gs p + j) key := by
  obtain ⟨hfits, -, hcount⟩ := h.view_fits hp hentry m
  have hrow := List.getElem?_eq_getElem hj
  have hcell : (column g fi)[j]? = some (g[j].cell fi) := by
    rw [column, List.getElem?_map, hrow]
    rfl
  have hword := (hshown.found p g entry (by rw [List.getElem?_take_of_lt hpk, hp]) hentry).getWord hfits hfi hsigil
    (by rw [column_length]; exact hcount.symm) hcell
  have hloc := hpax.locate hshown.pages hp hj
  rw [if_pos (hshown.search p hpk)] at hloc
  have hsees := hpax.sees hp hrow hloc (row_index_lt hp hj) hfi hslot
  rw [hword]
  exact ⟨hsees.f64At.symm, hsees.i64At.symm⟩

/-- Where the condition holds the readers agree. -/
theorem agrees_of_readable (h : SealedPax keys sigils gs st preambleTail file) {base : ℕ} {r : Reader}
    (hpax : PaxReader r base keys.length sigils gs st) (hkeys : r.keys = keys) {m k : ℕ}
    (hk : Shows keys sigils gs st m k) (add : F64 → F64 → F64)
    (hread : StreamReadable keys sigils gs st preambleTail (file.bytes.take m) k) :
    StreamAgrees add r (file.bytes.take m) gs k := by
  have hm := h.schema_le hk
  have hkle := hk.pages
  obtain ⟨⟨-, -⟩, -, -, pageSize, -, hlen⟩ := h.sectors
  have hsmall := file.small
  obtain ⟨b, hb, -⟩ := footerSeals_ok (d := file.bytes.take m) (by rw [List.length_take]; omega)
    (by rw [List.length_take]; omega) preambleTail
  have hnew : PaxStreamReader.new (file.bytes.take m) = .ok ⟨file.bytes.take m, keys, sigils,
      32 + (buildSchema keys sigils).length, 32 + (buildSchema keys sigils).length, b⟩ :=
    (h.new_prefix hm).mpr ⟨hread.opens, hb, rfl⟩
  obtain ⟨k', -, hpages, hall⟩ := h.completePages_prefix hk (s := ⟨file.bytes.take m, keys, sigils,
      32 + (buildSchema keys sigils).length, 32 + (buildSchema keys sigils).length, b⟩) rfl rfl rfl
  rw [hall.mpr hread.framed, ← views] at hpages
  refine ⟨_, _, hnew, hpages, h.views_length hkle, ?_, ?_, ?_⟩
  · rw [PaxStreamReader.completeRecordCount, hpages, ok_bind, views, h.recordCount_views m k hkle]
  · intro p view g hview hp
    obtain ⟨-, entry, hentry, rfl⟩ := views_getElem? hview
    exact (h.view_fits hp hentry m).2
  · intro key fi hslot hsigil
    obtain ⟨hmem, hpos⟩ := Reader.slot_eq_ok.mp hslot
    have hfi := Reader.slot_lt hslot
    rw [hkeys] at hmem hpos hfi
    rw [hpax.keySigils] at hsigil
    have hshown := hread.columns key hmem (hpos ▸ hsigil)
    rw [← hpos] at hshown
    have hstreamSlot : ∀ {start cursor : ℕ}, (PaxStreamReader.mk (file.bytes.take m) keys sigils start cursor b).slot key =
        .ok fi := by
      intro start cursor
      rw [PaxStreamReader.slot, if_pos hmem, hpos]
    constructor
    · intro p view g j hview hp hj
      obtain ⟨hpk, entry, hentry, rfl⟩ := views_getElem? hview
      rw [PaxStreamReader.getF64, PaxStreamReader.getI64, hstreamSlot, ok_bind, ok_bind]
      exact h.getters_agree hpax hslot hfi hsigil hshown hp hpk hentry hj
    · rw [PaxStreamReader.colSumTerms, hstreamSlot, ok_bind, hpages, ok_bind, h.mapM_terms hkle hfi hshown.found, ok_bind,
        hpax.paxSumTerms_eq hslot hsigil hshown.pages hkle hshown.search]
      have hterms : ((gs.take k).map fun g => (column g fi).filterMap (cellTerm (sigils.getD fi SIGIL_INT))).flatten =
          (gs.take k).flatten.filterMap fun row => cellTerm (sigils.getD fi SIGIL_INT) (row.cell fi) := by
        rw [List.filterMap_flatten]
        congr 1
        refine List.map_congr_left fun g _ => ?_
        rw [column, List.filterMap_map]
        rfl
      have hne : ((gs.take k).flatten.filterMap fun row => cellTerm (sigils.getD fi SIGIL_INT) (row.cell fi)) ≠ [] := by
        obtain ⟨g, hg, row, hrow, hpop⟩ := hshown.populated
        refine List.ne_nil_of_mem (a := f64Of (leNat ((fixedBytes (sigils.getD fi SIGIL_INT) (row.cell fi)).take 8)))
          (List.mem_filterMap.mpr ⟨row, List.mem_flatten.mpr ⟨g, hg, hrow⟩, ?_⟩)
        rw [cellTerm, if_pos hpop]
      rw [hterms, ensure_of hne, ok_bind]

/-- A sum over the pages that are shown gives numbers only if the column's place is inside the buffer on each page. -/
theorem rooms_of_sum (h : SealedPax keys sigils gs st preambleTail file) {m k fi : ℕ} (hk : k ≤ gs.length)
    (hfi : fi < keys.length) {terms : List (List F64)}
    (hterms : (views keys st (file.bytes.take m) k).mapM (fun view => view.terms fi) = .ok terms) :
    (∀ (p : ℕ) (g : List RecordRow) (page : PaxPageMeta), (gs.take k)[p]? = some g → st.pages[p]? = some page →
      (page.view keys.length (file.bytes.take m)).Room fi) ∧
    (terms.flatten ≠ [] → ∃ (p j : ℕ) (g : List RecordRow) (page : PaxPageMeta), p < k ∧ gs[p]? = some g ∧ j < g.length ∧
      st.pages[p]? = some page ∧ ∃ n, (page.view keys.length (file.bytes.take m)).getWord j fi = .ok n) := by
  have hall := mapM_eq_ok.mp hterms
  have hlen := hall.length_eq
  rw [h.views_length hk] at hlen
  constructor
  · intro p g page hp hpage
    have hpk := (List.getElem?_eq_some_iff.mp hp).1
    rw [List.length_take] at hpk
    rw [List.getElem?_take_of_lt (by omega)] at hp
    have hterm := hall.get (i := p) (by rw [h.views_length hk]; omega) (by omega)
    obtain ⟨-, entry, hentry, hview⟩ := views_getElem? (List.getElem?_eq_getElem
      (show p < (views keys st (file.bytes.take m) k).length by rw [h.views_length hk]; omega))
    rw [hpage] at hentry
    cases hentry
    rw [List.get_eq_getElem, hview, PaxPageView.terms_eq (h.view_fits hp hpage m).1 hfi] at hterm
    by_contra hroom
    rw [if_neg hroom] at hterm
    cases hterm
  · intro hne
    obtain ⟨x, hx⟩ := List.exists_mem_of_ne_nil _ hne
    obtain ⟨l, hl, hxl⟩ := List.mem_flatten.mp hx
    obtain ⟨p, hp, rfl⟩ := List.getElem_of_mem hl
    have hget := List.getElem?_eq_getElem (show p < gs.length by omega)
    have hterm := hall.get (i := p) (by rw [h.views_length hk]; omega) hp
    obtain ⟨-, entry, hentry, hview⟩ := views_getElem? (List.getElem?_eq_getElem
      (show p < (views keys st (file.bytes.take m) k).length by rw [h.views_length hk]; omega))
    obtain ⟨hfits, -, hcount⟩ := h.view_fits hget hentry m
    rw [List.get_eq_getElem, List.get_eq_getElem, hview, PaxPageView.terms_eq hfits hfi] at hterm
    by_cases hroom : (entry.view keys.length (file.bytes.take m)).Room fi
    · rw [if_pos hroom] at hterm
      rw [← ok.inj hterm] at hxl
      obtain ⟨j, hj, hsome⟩ := List.mem_filterMap.mp hxl
      rw [List.mem_range] at hj
      refine ⟨p, j, _, entry, by omega, hget, by rw [← hcount]; exact hj, hentry, ?_⟩
      rw [PaxPageView.getWord_eq hfits hfi hj]
      by_cases hbit : bitOf (entry.view keys.length (file.bytes.take m)).data
          ((entry.view keys.length (file.bytes.take m)).place fi) j = true
      · exact ⟨_, if_pos ⟨hroom, hbit⟩⟩
      · rw [if_neg hbit] at hsome
        cases hsome
    · rw [if_neg hroom] at hterm
      cases hterm

/-- The sum over the pages that are shown, and over the same records of the sealed file, do not fail alike. -/
theorem sum_of_agree (h : SealedPax keys sigils gs st preambleTail file) {m k fi n : ℕ} {r : Reader} {key : String}
    {add : F64 → F64 → F64} {s : PaxStreamReader} (hk : k ≤ gs.length) (hfi : fi < keys.length)
    (hslot : s.slot key = .ok fi) (hrslot : r.slot key = .ok fi)
    (hpages : s.completePages = .ok (views keys st (file.bytes.take m) k))
    (hsum : sumF64 add <$> s.colSumTerms key = sumF64 add <$> r.paxSumTerms n key) :
    ∃ terms, (views keys st (file.bytes.take m) k).mapM (fun view => view.terms fi) = .ok terms ∧ terms.flatten ≠ [] := by
  have hsealed : ∀ e, sumF64 add <$> r.paxSumTerms n key ≠ .err e := by
    intro e he
    rw [Reader.paxSumTerms, hrslot, ok_bind] at he
    have hne := filterMapM_ne_err (l := List.range n) (f := fun i => orNone (r.paxGetF64 i fi)) fun i _ e => orNone_ne_err
    cases hterms : (List.range n).filterMapM fun i => orNone (r.paxGetF64 i fi) with
    | ok terms => rw [hterms] at he; cases he
    | err e' => exact hne e' hterms
    | panic => rw [hterms] at he; cases he
  have hsafe : Safe ((views keys st (file.bytes.take m) k).mapM fun view => view.terms fi) fun _ => True := by
    refine Safe.mono (safe_mapM (Q := fun _ => True) fun view hview => ?_) fun _ _ => trivial
    obtain ⟨p, hp⟩ := List.getElem?_of_mem hview
    obtain ⟨hpk, entry, hentry, rfl⟩ := views_getElem? hp
    have hget := List.getElem?_eq_getElem (show p < gs.length by omega)
    rw [PaxPageView.terms_eq (h.view_fits hget hentry m).1 hfi]
    split <;> trivial
  rw [← hsum] at hsealed
  rw [PaxStreamReader.colSumTerms, hslot, ok_bind, hpages, ok_bind] at hsealed
  cases hterms : (views keys st (file.bytes.take m) k).mapM fun view => view.terms fi with
  | ok terms =>
    refine ⟨terms, rfl, fun hnil => hsealed () ?_⟩
    rw [hterms, ok_bind, ensure_not (not_not_intro hnil), err_bind]
    rfl
  | err e =>
    refine absurd ?_ (hsealed e)
    rw [hterms, err_bind]
    rfl
  | panic => exact absurd hterms hsafe.ne_panic

/-- Where the readers agree the condition holds. -/
theorem readable_of_agrees (h : SealedPax keys sigils gs st preambleTail file) {base : ℕ} {r : Reader}
    (hpax : PaxReader r base keys.length sigils gs st) (hkeys : r.keys = keys) {m k : ℕ}
    (hk : Shows keys sigils gs st m k) (add : F64 → F64 → F64) (hagree : StreamAgrees add r (file.bytes.take m) gs k) :
    StreamReadable keys sigils gs st preambleTail (file.bytes.take m) k := by
  obtain ⟨s, vs, hnew, hpages, hvlen, -, -, hcols⟩ := hagree
  have hkle := hk.pages
  obtain ⟨hopens, -, hs⟩ := (h.new_prefix (h.schema_le hk)).mp hnew
  obtain ⟨k', hk', hpages', hall⟩ := h.completePages_prefix hk (s := s) (by rw [hs]) (by rw [hs]) (by rw [hs])
  rw [hpages, ← views] at hpages'
  obtain rfl := ok.inj hpages'
  rw [h.views_length (by omega)] at hvlen
  subst hvlen
  refine ⟨hopens, hall.mp rfl, fun key hmem hsigil => ?_⟩
  set fi := keys.length - 1 - keys.reverse.idxOf key with hpos
  have hrslot : r.slot key = .ok fi := Reader.slot_eq_ok.mpr ⟨by rwa [hkeys], by rw [hkeys, hpos]⟩
  have hfi := Reader.slot_lt hrslot
  rw [hkeys] at hfi
  have hslot : s.slot key = .ok fi := by
    rw [hs, PaxStreamReader.slot, if_pos hmem, hpos]
  obtain ⟨hget, hsum⟩ := hcols key fi hrslot (by rwa [hpax.keySigils])
  obtain ⟨terms, hterms, hne⟩ := h.sum_of_agree hkle hfi hslot hrslot hpages hsum
  obtain ⟨hrooms, hsome⟩ := h.rooms_of_sum hkle hfi hterms
  -- the cell of a page that is shown, read by either reader
  have hread : ∀ {p j : ℕ} {g : List RecordRow} {page : PaxPageMeta}, p < k' → gs[p]? = some g → j < g.length →
      st.pages[p]? = some page → f64Of <$> (page.view keys.length (file.bytes.take m)).getWord j fi =
        r.f64At (groupStart gs p + j) key := by
    intro p j g page hpk hp hj hpage
    have hview : (views keys st (file.bytes.take m) k')[p]? = some (page.view keys.length (file.bytes.take m)) := by
      rw [views, List.getElem?_map, List.getElem?_take_of_lt hpk, hpage]
      rfl
    have hf64 := (hget p _ g j hview hp hj).1
    rw [PaxStreamReader.getF64, hslot, ok_bind] at hf64
    exact hf64
  have hpagesLe : gs.length ≤ 2 ^ 31 := by
    by_contra hmany
    obtain ⟨p, j, g, page, hpk, hp, hj, hpage, n, hn⟩ := hsome hne
    have hf64 := hread hpk hp hj hpage
    obtain ⟨-, hnone, -, -⟩ := hpax.stops (row_index_lt hp hj) hrslot (fun _ => none') (fun _ => rfl)
      (hpax.locate_none (by omega) _)
    rw [hn, hnone] at hf64
    cases hf64
  have hsearch : ∀ p < k', PaxReader.SearchFits gs.length p := by
    intro p hpk
    have hp := List.getElem?_eq_getElem (show p < gs.length by omega)
    obtain ⟨entry, hentry⟩ := h.entry_of hp
    obtain ⟨hrows, -⟩ := h.emitted.fits _ (List.mem_of_getElem? hp)
    obtain ⟨hfits, -, hcount⟩ := h.view_fits hp hentry m
    by_contra hnot
    have hloc := hpax.locate hpagesLe hp hrows
    rw [if_neg hnot] at hloc
    obtain ⟨-, hpanic, -, -⟩ := hpax.stops (row_index_lt hp hrows) hrslot (fun _ => .panic) (fun _ => rfl) hloc
    have hf64 := hread hpk hp hrows hentry
    rw [hpanic, PaxPageView.getWord_eq hfits hfi (Nat.lt_of_lt_of_eq hrows hcount.symm)] at hf64
    split at hf64 <;> cases hf64
  have hfound : ∀ (p : ℕ) (g : List RecordRow) (page : PaxPageMeta), (gs.take k')[p]? = some g → st.pages[p]? = some page →
      (page.view keys.length (file.bytes.take m)).Found fi (sigils.getD fi SIGIL_INT) (column g fi) := by
    intro p g page hp hpage
    have hroom := hrooms p g page hp hpage
    have hpk := (List.getElem?_eq_some_iff.mp hp).1
    rw [List.length_take] at hpk
    rw [List.getElem?_take_of_lt (by omega)] at hp
    obtain ⟨hfits, -, hcount⟩ := h.view_fits hp hpage m
    refine PaxPageView.found_of_getWord hroom hfits hfi hsigil (by rw [column_length]; exact hcount.symm) fun j c hc => ?_
    have hj := (List.getElem?_eq_some_iff.mp hc).1
    rw [column_length] at hj
    have hrow := List.getElem?_eq_getElem hj
    have hcell : g[j].cell fi = c := by
      rw [column, List.getElem?_map, hrow] at hc
      exact Option.some.inj hc
    have hloc := hpax.locate hpagesLe hp hj
    rw [if_pos (hsearch p (by omega))] at hloc
    have hsees := hpax.sees hp hrow hloc (row_index_lt hp hj) hfi hrslot
    have hf64 := hread (by omega) hp hj hpage
    rw [hsees.f64At, hcell] at hf64
    refine f64Of_map_inj ?_ ?_ hf64
    · intro n hn
      rw [PaxPageView.getWord_eq hfits hfi (Nat.lt_of_lt_of_eq hj hcount.symm)] at hn
      split at hn
      · rw [← ok.inj hn]
        exact word_lt _ _ 8
      · cases hn
    · intro n hn
      rw [storedWord_numeric hsigil] at hn
      split at hn
      · rw [← ok.inj hn]
        exact word_take_lt _
      · cases hn
  refine ⟨?_, hpagesLe, hsearch, hfound⟩
  rw [h.mapM_terms hkle hfi hfound] at hterms
  rw [← ok.inj hterms] at hne
  obtain ⟨x, hx⟩ := List.exists_mem_of_ne_nil _ hne
  obtain ⟨l, hl, hxl⟩ := List.mem_flatten.mp hx
  obtain ⟨g, hg, rfl⟩ := List.mem_map.mp hl
  obtain ⟨c, hc, hterm⟩ := List.mem_filterMap.mp hxl
  obtain ⟨row, hrow, rfl⟩ := List.mem_map.mp hc
  refine ⟨g, hg, row, hrow, ?_⟩
  rw [cellTerm] at hterm
  split at hterm
  · assumption
  · cases hterm

/-- A column without columns of variable length in front of it is found on every page that is shown. -/
theorem found_of_fixed (h : SealedPax keys sigils gs st preambleTail file) {m k p fi : ℕ} (hk : Shows keys sigils gs st m k)
    (hfi : fi < keys.length) (hsigil : NumericSigil (sigils.getD fi SIGIL_INT))
    (hfixed : ∀ i < fi, isVarSigil (sigils.getD i SIGIL_INT) = false) {g : List RecordRow} {entry : PaxPageMeta}
    (hp : (gs.take k)[p]? = some g) (hentry : st.pages[p]? = some entry) :
    (entry.view keys.length (file.bytes.take m)).Found fi (sigils.getD fi SIGIL_INT) (column g fi) := by
  have hpk := (List.getElem?_eq_some_iff.mp hp).1
  rw [List.length_take] at hpk
  rw [List.getElem?_take_of_lt (by omega)] at hp
  obtain ⟨page, cols, entry', -, hcols, hentry', -, -, hcount, -, -, hparts, -, hnext, hlen⟩ := h.page hp
  rw [hentry] at hentry'
  cases hentry'
  have hpages := hk.pages
  have hmono := h.pageOffset_add_le (n := k - (p + 1)) (p := p + 1) (by omega)
  rw [show p + 1 + (k - (p + 1)) = k by omega] at hmono
  have hcomplete := hk.complete
  refine PaxPageView.found_of_fixed hcols hparts rfl ?_ hcount hfi hsigil hfixed
  show entry.pageOffset + 24 + cols.flatten.length ≤ m
  omega

end SealedPax

/-- The readers of a prefix with `k` complete pages and of the sealed file agree exactly under the condition. -/
theorem stream_agrees_iff (add : F64 → F64 → F64) (keys : List String) (sigils : List UInt8)
    (gs : List (List RecordRow)) (st : PaxPages) (preambleTail : ℕ) (file : Slice) (m k : ℕ)
    (hfile : SealedPax keys sigils gs st preambleTail file) (hk : SealedPax.Shows keys sigils gs st m k) :
    ∃ r, Reader.new file = .ok r ∧ (StreamAgrees add r (file.bytes.take m) gs k ↔
      StreamReadable keys sigils gs st preambleTail (file.bytes.take m) k) := by
  obtain ⟨hash, pageSize, hbytes⟩ := hfile.bytes
  have hsmall := file.small
  obtain ⟨-, -, -, written, -, hlen⟩ := hfile.sectors
  have htail : preambleTail < 2 ^ 64 := by
    rcases hfile.tail with h0 | h0 <;> omega
  obtain ⟨r, hr, hkeys, hpax⟩ := new_paxFile hfile.emitted hbytes htail hfile.keys_lt hfile.nulFree hfile.sigils_length
    hfile.sigils_ne
  exact ⟨r, hr, hfile.readable_of_agrees hpax hkeys hk add, hfile.agrees_of_readable hpax hkeys hk add⟩

/-- The file of a stream of one page, and its prefix without the tail-index. -/
theorem SealedPax.single {keys : List String} {sigils : List UInt8} {g : List RecordRow} {st : PaxPages}
    (hkeys : keys.length < 65536) (hnul : ∀ k ∈ keys, NulFree k) (hsigils : sigils.length = keys.length)
    (h0 : (0 : UInt8) ∉ sigils) (hg : PageFits g)
    (hst : emitPage (32 + (buildSchema keys sigils).length) keys.length sigils .empty g = .ok st)
    (hsmall : (buildSchema keys sigils).length + st.data.length < 2 ^ 32) :
    ∃ file m, SealedPax keys sigils [g] st 0 file ∧ Shows keys sigils [g] st m 1 := by
  have hem : Emitted (32 + (buildSchema keys sigils).length) keys.length sigils [g] st := .snoc .nil hg hst
  obtain ⟨-, hplen, -, -⟩ := hem.counts
  have hentries : (st.pages.flatMap pageEntryBytes).length = st.pages.length * 28 :=
    length_flatMap_const fun e _ => pageEntryBytes_length e
  refine ⟨⟨preamble VERSION (FLAG_SCHEMA_EMBEDDED ||| FLAG_PAX) 0 0 ++ buildSchema keys sigils ++ st.data ++
    buildPaxTail st.pages (32 + (buildSchema keys sigils).length + st.data.length) [g].flatten.length 1, ?_⟩,
    32 + (buildSchema keys sigils).length + st.data.length, ⟨hkeys, hnul, hsigils, h0, hem, Or.inl rfl, 0, 1, rfl⟩,
    ⟨le_refl _, ?_, fun hlt => absurd hlt (lt_irrefl _)⟩⟩
  · rw [buildPaxTail]
    simp only [List.length_append, preamble_length, leBytes_length, hentries, hplen, List.length_singleton]
    omega
  · rw [pageOffset, List.getElem?_eq_none (by rw [hplen]; exact le_refl 1)]

/-- Numbers in front of a string are read by either reader. -/
theorem stream_agrees_numbers : ∃ st file m, SealedPax ["n", "s"] [SIGIL_INT, SIGIL_STR] [[⟨[.i64 5, .str "x"]⟩]] st 0 file ∧
    SealedPax.Shows ["n", "s"] [SIGIL_INT, SIGIL_STR] [[⟨[.i64 5, .str "x"]⟩]] st m 1 ∧
    ∃ r, Reader.new file = .ok r ∧ (StreamAgrees (fun a _ => a) r (file.bytes.take m) [[⟨[.i64 5, .str "x"]⟩]] 1 ↔
      StreamReadable ["n", "s"] [SIGIL_INT, SIGIL_STR] [[⟨[.i64 5, .str "x"]⟩]] st 0 (file.bytes.take m) 1) ∧
    StreamReadable ["n", "s"] [SIGIL_INT, SIGIL_STR] [[⟨[.i64 5, .str "x"]⟩]] st 0 (file.bytes.take m) 1 := by
  obtain ⟨st, hst⟩ := isOk_iff.mp (show (emitPage (32 + (buildSchema ["n", "s"] [SIGIL_INT, SIGIL_STR]).length) 2
    [SIGIL_INT, SIGIL_STR] .empty [⟨[.i64 5, .str "x"]⟩]).isOk = true by decide +kernel)
  have hlen : (fun st => (buildSchema ["n", "s"] [SIGIL_INT, SIGIL_STR]).length + st.data.length) <$>
      emitPage (32 + (buildSchema ["n", "s"] [SIGIL_INT, SIGIL_STR]).length) 2 [SIGIL_INT, SIGIL_STR] .empty
        [⟨[.i64 5, .str "x"]⟩] = .ok 72 := by decide +kernel
  rw [hst, map_ok] at hlen
  obtain ⟨file, m, hfile, hshows⟩ := @SealedPax.single ["n", "s"] _ _ _ (by decide) (by decide) rfl (by decide)
    ⟨by decide, by decide⟩ hst (by rw [ok.inj hlen]; decide)
  obtain ⟨r, hr, hiff⟩ := stream_agrees_iff (fun a _ => a) ["n", "s"] [SIGIL_INT, SIGIL_STR]
    [[⟨[.i64 5, .str "x"]⟩]] st 0 file m 1 hfile hshows
  refine ⟨st, file, m, hfile, hshows, r, hr, hiff, Or.inl rfl, by decide +kernel, fun key hmem hsigil => ?_⟩
  have hkey : key = "n" := by
    rcases List.mem_cons.mp hmem with rfl | hs
    · rfl
    · obtain rfl := List.mem_singleton.mp hs
      exact absurd hsigil (by unfold NumericSigil; decide)
  subst hkey
  refine ⟨⟨_, List.mem_singleton.mpr rfl, _, List.mem_singleton.mpr rfl, rfl⟩, by decide, by decide, ?_⟩
  exact fun p g page hp hpage => hfile.found_of_fixed hshows (by decide) (Or.inl rfl) (fun i hi => absurd hi (Nat.not_lt_zero i)) hp hpage

/-- With a string in front, the number that the stream reader returns is a part of the bitmap of its column. -/
theorem stream_not_agrees : ∃ st file m, SealedPax ["s", "n"] [SIGIL_STR, SIGIL_INT] [[⟨[.str "abcdefgh", .i64 5]⟩]] st 0 file ∧
    SealedPax.Shows ["s", "n"] [SIGIL_STR, SIGIL_INT] [[⟨[.str "abcdefgh", .i64 5]⟩]] st m 1 ∧
    ∃ r, Reader.new file = .ok r ∧
      ¬ StreamAgrees (fun a _ => a) r (file.bytes.take m) [[⟨[.str "abcdefgh", .i64 5]⟩]] 1 := by
  obtain ⟨st, hst⟩ := isOk_iff.mp (show (emitPage (32 + (buildSchema ["s", "n"] [SIGIL_STR, SIGIL_INT]).length) 2
    [SIGIL_STR, SIGIL_INT] .empty [⟨[.str "abcdefgh", .i64 5]⟩]).isOk = true by decide +kernel)
  have hlen : (fun st => (buildSchema ["s", "n"] [SIGIL_STR, SIGIL_INT]).length + st.data.length) <$>
      emitPage (32 + (buildSchema ["s", "n"] [SIGIL_STR, SIGIL_INT]).length) 2 [SIGIL_STR, SIGIL_INT] .empty
        [⟨[.str "abcdefgh", .i64 5]⟩] = .ok 80 := by decide +kernel
  rw [hst, map_ok] at hlen
  obtain ⟨file, m, hfile, hshows⟩ := @SealedPax.single ["s", "n"] _ _ _ (by decide) (by decide) rfl (by decide)
    ⟨by decide, by decide⟩ hst (by rw [ok.inj hlen]; decide)
  obtain ⟨hash, pageSize, hbytes⟩ := hfile.bytes
  obtain ⟨r, hr, hkeys, hpax⟩ := new_paxFile hfile.emitted hbytes (by decide) hfile.keys_lt hfile.nulFree
    hfile.sigils_length hfile.sigils_ne
  refine ⟨st, file, m, hfile, hshows, r, hr, fun hagree => ?_⟩
  have hshown := (hfile.readable_of_agrees hpax hkeys hshows _ hagree).columns "n" (by decide) (Or.inl rfl)
  obtain ⟨page, cols, entry, -, hcols, hentry, -, -, hcount, hoff, -, hparts, -, hnext, hpageLen⟩ := hfile.page (p := 0) rfl
  -- behind the string column, the bitmap of the numbers
  have hbytes' : encodeColumns 2 [SIGIL_STR, SIGIL_INT] [⟨[.str "abcdefgh", .i64 5]⟩] =
      .ok [[1, 0, 0, 0, 0, 0, 0, 0, 0, 0, 0, 0, 8, 0, 0, 0, 97, 98, 99, 100, 101, 102, 103, 104],
        [1, 0, 0, 0, 0, 0, 0, 0] ++ [5, 0, 0, 0, 0, 0, 0, 0]] := by decide +kernel
  rw [show ["s", "n"].length = 2 from rfl, hbytes'] at hcols
  cases hcols
  have hbody := hparts.body
  rw [List.flatten_cons, List.flatten_singleton, at_append, at_append] at hbody
  obtain ⟨-, hbitmap, -⟩ := hbody
  have hpage : 24 + 40 + 4 ≤ page.length := hpageLen
  have hcomplete := hshows.complete
  have hseen : At (file.bytes.take m) (entry.pageOffset + 24 + 24) [1, 0, 0, 0, 0, 0, 0, 0] := by
    refine hbitmap.of_prefix ?_
    show entry.pageOffset + 24 + 24 + 8 ≤ m
    rw [hnext] at hcomplete
    omega
  -- which the page view takes for the numbers
  obtain ⟨-, hcell⟩ := hshown.found 0 _ entry rfl hentry
  have hfive : word (file.bytes.take m) ((entry.view 2 (file.bytes.take m)).valuesPlace 1 + 0 * 8) 8 = 5 :=
    (hcell 0 (.i64 5) rfl).2 rfl
  have hplace : (entry.view 2 (file.bytes.take m)).valuesPlace 1 + 0 * 8 = entry.pageOffset + 24 + 24 := by
    show entry.pageOffset + 24 + 1 * (nullBitmapBytes entry.recordCount + entry.recordCount * 8) +
      nullBitmapBytes entry.recordCount + 0 * 8 = _
    rw [hcount]
    rfl
  rw [hplace] at hfive
  have hone : word (file.bytes.take m) (entry.pageOffset + 24 + 24) 8 = 1 := word_at hseen
  omega

end Nyxis
