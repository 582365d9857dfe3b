import Nyxis.Compact.Cells
import Nyxis.PaxPages

/-!
# PageFraming — where a page of a growing file ends

`completePageEnd` adds up the sectors of a page's columns, some of which it measures by an offset table that may not
be there yet, and compares the sum with the page's own length.

* `page_framing_exact`: a page is found as soon as all of it is there, and not before.
-/

namespace Nyxis

open Lib Lib.Outcome

/-- `data.get(i..)`. -/
def getFrom (d : Bytes) (i : ℕ) : Opt Bytes := if i ≤ d.length then .ok (d.drop i) else none'

/-- Behind the sectors of `n` columns, those of the fields from `fi` on, the first of which is at `body`. -/
def pageColumnsEnd (d : Bytes) (sigils : List UInt8) (rc : ℕ) : ℕ → ℕ → ℕ → Opt ℕ
  | 0, _, body => .ok body
  | n + 1, fi, body => do
    let sector ← getFrom d body
    let slen ← (columnSectorLen sector rc (sigils.getD fi SIGIL_INT)).toOpt
    let body ← checkedAdd body slen
    pageColumnsEnd d sigils rc n (fi + 1) body

def completePageEnd (d : Bytes) (off : ℕ) (sigils : List UInt8) : Opt ℕ := do
  let header ← usizeAdd off 24
  ensure (¬ header > d.length) ()
  let magic ← getLE d off 4
  ensure (magic = MAGIC_PAGE) ()
  let recordCount ← getLE d (off + 16) 4
  let fieldCount ← getLE d (off + 20) 2
  let bodyEnd ← pageColumnsEnd d sigils recordCount fieldCount 0 header
  let stop ← usizeAdd bodyEnd 4
  ensure (¬ stop > d.length) ()
  let pageLen ← getLE d bodyEnd 4
  let logicalEnd ← checkedAdd off pageLen
  ensure (logicalEnd = stop) ()
  let _ ← usizeAdd logicalEnd 7
  let alignedEnd := alignTo logicalEnd 8
  ensure (alignedEnd ≤ d.length) ()
  .ok alignedEnd

/-! ## Columns that may be cut off -/

/-- The walk over the columns of a page, of which `m` bytes of the file are there. -/
theorem pageColumnsEnd_prefix {d : Bytes} {fieldCount : ℕ} {sigils : List UInt8} {g : List RecordRow} {cols : List Bytes}
    (hsmall : d.length < 2 ^ 63) (hcols : encodeColumns fieldCount sigils g = .ok cols) (m : ℕ) :
    ∀ (n fi body : ℕ), fi + n = fieldCount → At d body (cols.drop fi).flatten →
      pageColumnsEnd (d.take m) sigils g.length n fi body = .ok (body + (cols.drop fi).flatten.length) ∨
        m < body + (cols.drop fi).flatten.length ∧ pageColumnsEnd (d.take m) sigils g.length n fi body = none'
  | 0, fi, body, hfi, _ => by
    obtain ⟨hlen, -⟩ := encodeColumns_spec hcols
    rw [List.drop_of_length_le (by omega)]
    exact Or.inl rfl
  | n + 1, fi, body, hfi, hat => by
    obtain ⟨hlen, hspec⟩ := encodeColumns_spec hcols
    obtain ⟨s, hs, henc⟩ := hspec fi (by omega)
    have hdrop : cols.drop fi = s :: cols.drop (fi + 1) := by
      obtain ⟨hlt, rfl⟩ := List.getElem?_eq_some_iff.mp hs
      exact List.drop_eq_getElem_cons hlt
    rw [hdrop, List.flatten_cons, at_append] at hat
    obtain ⟨hsec, hrest⟩ := hat
    have hle := hrest.le
    rw [pageColumnsEnd, getFrom, hdrop, List.flatten_cons, List.length_append]
    by_cases hbody : body ≤ (d.take m).length
    · obtain ⟨rest, hdeq⟩ := hsec.drop_eq
      have htake : (d.take m).drop body = (s ++ rest).take (m - body) := by rw [List.drop_take, hdeq]
      have hroom : (s ++ rest).length < 2 ^ 63 := by
        rw [← hdeq, List.length_drop]
        omega
      rw [if_pos hbody, ok_bind]
      rcases columnSectorLen_prefix henc htake hroom (column_length g fi).symm with hok | ⟨hshort, e, herr⟩
      · rw [hok, toOpt_ok, ok_bind, checkedAdd_of (by omega), ok_bind, ← Nat.add_assoc]
        exact pageColumnsEnd_prefix hsmall hcols m n (fi + 1) (body + s.length) (by omega) hrest
      · refine Or.inr ⟨by omega, ?_⟩
        rw [herr]
        rfl
    · refine Or.inr ⟨?_, by rw [if_neg hbody, err_bind]⟩
      rw [List.length_take] at hbody
      omega

/-! ## Pages -/

/-- What stands in a page. -/
structure PageAt (d : Bytes) (off pageIndex recordStart : ℕ) (g : List RecordRow) (cols : List Bytes) : Prop where
  magic : At d off (leBytes 4 MAGIC_PAGE)
  index : At d (off + 4) (leBytes 4 pageIndex)
  start : At d (off + 8) (leBytes 8 recordStart)
  count : At d (off + 16) (leBytes 4 g.length)
  fields : At d (off + 20) (leBytes 2 cols.length)
  body : At d (off + 24) cols.flatten
  length : At d (off + 24 + cols.flatten.length) (leBytes 4 (24 + cols.flatten.length + 4))

theorem pageAt {d page : Bytes} {off pageIndex recordStart fieldCount : ℕ} {sigils : List UInt8} {g : List RecordRow}
    (henc : encodePage pageIndex recordStart g.length fieldCount sigils g = .ok page) (hat : At d off page) :
    ∃ cols, encodeColumns fieldCount sigils g = .ok cols ∧ PageAt d off pageIndex recordStart g cols ∧
      page.length = 24 + cols.flatten.length + 4 + padLen 8 (24 + cols.flatten.length + 4) := by
  obtain ⟨cols, hcols, rfl⟩ := encodePage_eq_ok.mp henc
  obtain ⟨hlen, -⟩ := encodeColumns_spec hcols
  rw [padTo, at_append, at_append, at_append, at_append, at_append, at_append, at_append, at_append] at hat
  obtain ⟨⟨⟨⟨⟨⟨⟨⟨hmagic, hindex⟩, hstart⟩, hcount⟩, hfields⟩, -⟩, hbody⟩, hlength⟩, -⟩ := hat
  simp only [List.length_append, leBytes_length] at hindex hstart hcount hfields hbody hlength
  refine ⟨cols, hcols, ⟨hmagic, hindex, hstart, hcount, by rw [hlen]; exact hfields, hbody, ?_⟩, ?_⟩
  · rw [← Nat.add_assoc] at hlength
    exact hlength
  · simp only [padTo_length, List.length_append, leBytes_length]

/-- A page starts at a multiple of eight, and its end is rounded up to one. -/
theorem alignTo_pageEnd {off n : ℕ} (h8 : 8 ∣ off) (hsmall : off + n + 8 ≤ 2 ^ 64) :
    alignTo (off + n) 8 = off + (n + padLen 8 n) := by
  have halign : alignTo (off + n) (2 ^ 3) = _ := alignTo_pow (by decide) (by omega)
  rw [show (2 : ℕ) ^ 3 = 8 from rfl] at halign
  have hpad : padLen 8 (off + n) = padLen 8 n := by
    obtain ⟨k, rfl⟩ := h8
    unfold padLen
    omega
  rw [halign, hpad, Nat.add_assoc]

/-- With `m` bytes of the file, a page is found exactly when all of it is there and its length is a `u32`. -/
theorem completePageEnd_prefix {d page : Bytes} {off pageIndex recordStart fieldCount : ℕ} {sigils : List UInt8}
    {g : List RecordRow} {cols : List Bytes} (hsmall : d.length < 2 ^ 63)
    (henc : encodePage pageIndex recordStart g.length fieldCount sigils g = .ok page) (hat : At d off page)
    (hcols : encodeColumns fieldCount sigils g = .ok cols) (hcount : g.length < 2 ^ 32) (hfields : fieldCount < 65536)
    (h8 : 8 ∣ off) (m : ℕ) : completePageEnd (d.take m) off sigils =
      if off + page.length ≤ m ∧ 24 + cols.flatten.length + 4 < 2 ^ 32 then .ok (off + page.length) else none' := by
  obtain ⟨cols', hcols', hparts, hlen⟩ := pageAt henc hat
  rw [hcols] at hcols'
  cases hcols'
  obtain ⟨hclen, -⟩ := encodeColumns_spec hcols
  have hle := hat.le
  have hmlen : (d.take m).length = min m d.length := List.length_take
  rw [completePageEnd, usizeAdd_of (by omega), ok_bind]
  by_cases hhead : off + 24 ≤ (d.take m).length
  · have hmagic := hparts.magic.of_prefix (m := m) (by rw [leBytes_length]; omega)
    have hrows := hparts.count.of_prefix (m := m) (by rw [leBytes_length]; omega)
    have hcolumns := hparts.fields.of_prefix (m := m) (by rw [leBytes_length]; omega)
    have hwalk := pageColumnsEnd_prefix hsmall hcols m fieldCount 0 (off + 24) (by omega) hparts.body
    rw [List.drop_zero] at hwalk
    rw [ensure_of (by omega), ok_bind, getLE_leBytes hmagic (by decide) (by omega), ok_bind, ensure_of rfl, ok_bind,
      getLE_leBytes hrows hcount (by omega), ok_bind, getLE_leBytes hcolumns (by omega) (by omega), ok_bind, hclen]
    rcases hwalk with hok | ⟨hshort, herr⟩
    · rw [hok, ok_bind, usizeAdd_of (by omega), ok_bind]
      by_cases hstop : off + 24 + cols.flatten.length + 4 ≤ (d.take m).length
      · have hlength := hparts.length.of_prefix (m := m) (by rw [leBytes_length]; omega)
        rw [← leBytes_mod] at hlength
        have hmod := Nat.mod_lt (24 + cols.flatten.length + 4) (show 0 < 256 ^ 4 by decide)
        rw [ensure_of (by omega), ok_bind, getLE_leBytes hlength hmod (by omega), ok_bind,
          checkedAdd_of (by omega), ok_bind]
        by_cases hfits : 24 + cols.flatten.length + 4 < 2 ^ 32
        · rw [Nat.mod_eq_of_lt (show 24 + cols.flatten.length + 4 < 256 ^ 4 by omega), ensure_of (by omega), ok_bind,
            usizeAdd_of (by omega), ok_bind]
          dsimp only
          rw [alignTo_pageEnd h8 (by omega), ← hlen]
          by_cases hall : off + page.length ≤ m
          · rw [ensure_of (by omega), ok_bind, if_pos ⟨hall, hfits⟩]
          · rw [ensure_not (by omega), err_bind, if_neg fun h => hall h.1]
        · -- the length that the page gives of itself is cut to 32 bits
          rw [ensure_not (by omega), err_bind, if_neg fun h => hfits h.2]
      · rw [ensure_not (by omega), err_bind, if_neg (by omega)]
    · rw [herr, err_bind, if_neg (by omega)]
  · rw [ensure_not (by omega), err_bind, if_neg (by omega)]

/-- A page is found where it ends as soon as all of it is there, its padding included, and not before. -/
theorem page_framing_exact (pageIndex recordStart fieldCount : ℕ) (sigils : List UInt8) (rows : List RecordRow)
    (page : Bytes) (henc : encodePage pageIndex recordStart rows.length fieldCount sigils rows = .ok page)
    (hcount : rows.length < 2 ^ 32) (hfields : fieldCount < 65536) (hpage : page.length < 2 ^ 32) (pre post : Bytes)
    (h8 : 8 ∣ pre.length) (file : Slice) (hfile : file.bytes = pre ++ page ++ post) :
    completePageEnd file.bytes pre.length sigils = .ok (pre.length + page.length) ∧
      ∀ k < pre.length + page.length, completePageEnd (file.bytes.take k) pre.length sigils = none' := by
  have hat : At file.bytes pre.length page := hfile ▸ At.mk pre page post
  obtain ⟨cols, hcols, -, hlen⟩ := pageAt henc hat
  have hcut := completePageEnd_prefix file.small henc hat hcols hcount hfields h8
  constructor
  · have hwhole := hcut file.bytes.length
    rw [List.take_length, if_pos ⟨hat.le, by omega⟩] at hwhole
    exact hwhole
  · intro k hk
    rw [hcut k, if_neg (by omega)]

theorem page_framing_exact_two : ∃ (page : Bytes) (file : Slice),
    encodePage 0 0 2 2 [SIGIL_STR, SIGIL_INT] [⟨[.str "ab", .i64 1]⟩, ⟨[.absent, .i64 2]⟩] = .ok page ∧
      file.bytes = zeros 8 ++ page ++ [1, 2, 3] ∧
      completePageEnd file.bytes 8 [SIGIL_STR, SIGIL_INT] = .ok (8 + page.length) ∧
      ∀ k < 8 + page.length, completePageEnd (file.bytes.take k) 8 [SIGIL_STR, SIGIL_INT] = none' := by
  obtain ⟨page, hpage⟩ := isOk_iff.mp (show (encodePage 0 0 2 2 [SIGIL_STR, SIGIL_INT]
    [⟨[.str "ab", .i64 1]⟩, ⟨[.absent, .i64 2]⟩]).isOk = true by decide +kernel)
  have hlen : List.length <$> encodePage 0 0 2 2 [SIGIL_STR, SIGIL_INT] [⟨[.str "ab", .i64 1]⟩, ⟨[.absent, .i64 2]⟩] =
      .ok 80 := by decide +kernel
  rw [hpage, map_ok] at hlen
  have hsize : page.length = 80 := ok.inj hlen
  have hsmall : (zeros 8 ++ page ++ [1, 2, 3]).length < 2 ^ 63 := by
    rw [List.length_append, List.length_append, hsize, zeros_length]
    decide
  exact ⟨page, ⟨_, hsmall⟩, hpage, rfl, page_framing_exact 0 0 2 [SIGIL_STR, SIGIL_INT]
    [⟨[.str "ab", .i64 1]⟩, ⟨[.absent, .i64 2]⟩] page hpage (by decide) (by decide) (by omega) (zeros 8) [1, 2, 3]
    (by decide) _ rfl⟩

end Nyxis
