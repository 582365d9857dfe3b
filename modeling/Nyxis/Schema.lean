import Nyxis.Format

/-!
# Schema — the schema header

`buildSchema` and `murmur3_64` are the writer's side of the header, `parseSchema` is the reader's.
The string tables of the header (and of the v1.3 value pool) are NUL-terminated: `readStrings` takes
one apart.

* `readStrings_strTable`: a table of NUL-free strings is read back.
* `parseSchema_buildSchema`: so is a whole header.
-/

namespace Nyxis

open Lib Lib.Outcome

/-! ## The writer's side -/

/-- The strings of a header, each with its NUL. -/
def strTable (l : List String) : Bytes := l.flatMap fun s => utf8 s ++ [0]

/-- The sigil byte written for a slot; 0 means "not yet observed". -/
def schemaSigil (s : UInt8) : UInt8 := if s = 0 then SIGIL_STR else s

/-- The sigil bytes of `n` slots. -/
def schemaSigils (n : ℕ) (sigils : List UInt8) : List UInt8 :=
  (List.range n).map fun i => schemaSigil (sigils.getD i 0)

def buildSchema (keys : List String) (sigils : List UInt8) : Bytes :=
  padTo 8 (leBytes 2 keys.length ++ schemaSigils keys.length sigils ++ strTable keys)

/-- One chunk of at most eight bytes mixed into the hash. -/
def murmurMix (h k : UInt64) : UInt64 :=
  let k := k * 0xFF51AFD7ED558CCD
  let k := k ^^^ (k >>> 33)
  let h := (h ^^^ k) * 0xC4CEB9FE1A85EC53
  h ^^^ (h >>> 33)

/-- `for chunk in data.chunks(8)`; the first argument bounds the number of chunks. -/
def murmurLoop : ℕ → UInt64 → Bytes → UInt64
  | 0, h, _ => h
  | _ + 1, h, [] => h
  | n + 1, h, b :: bs =>
    murmurLoop n (murmurMix h (UInt64.ofNat (leNat ((b :: bs).take 8)))) ((b :: bs).drop 8)

def murmur3_64 (data : Bytes) : UInt64 :=
  let h := murmurLoop data.length 0x93681D6255313A99 data
  let h := h ^^^ UInt64.ofNat data.length
  let h := (h ^^^ (h >>> 33)) * 0xFF51AFD7ED558CCD
  h ^^^ (h >>> 33)

/-! ## The reader's side -/

/-- The number of steps of `while pos < data.len() && data[pos] != 0 { pos += 1 }`. -/
def nonNul : Bytes → ℕ
  | [] => 0
  | b :: bs => if b = 0 then 0 else nonNul bs + 1

/-- `n` NUL-terminated strings from `pos` on; `msg` is the error for bytes that are not UTF-8. -/
def readStrings (msg : String) (d : Bytes) : ℕ → ℕ → Res (List String × ℕ)
  | 0, pos => .ok ([], pos)
  | n + 1, pos => do
    let stop := pos + nonNul (d.drop pos)
    ensure (stop < d.length) .outOfBounds
    let bytes ← range d pos stop
    let s ← okOr (fromUtf8 bytes) (.parseError msg)
    let (rest, pos) ← readStrings msg d n (stop + 1)
    .ok (s :: rest, pos)

/-- `if pos % 8 != 0 { pos += 8 - pos % 8 }`. -/
def align8 (pos : ℕ) : ℕ := if pos % 8 ≠ 0 then pos + (8 - pos % 8) else pos

/-- Keys, sigils and the position after the header. -/
def parseSchema (d : Bytes) (offset : ℕ) : Res (List String × List UInt8 × ℕ) := do
  ensure (offset + 2 ≤ d.length) .outOfBounds
  let keyCount ← readLE d offset 2
  let pos := offset + 2
  ensure (pos + keyCount ≤ d.length) .outOfBounds
  let sigils ← range d pos (pos + keyCount)
  let (keys, pos) ← readStrings "invalid utf-8 key" d keyCount (pos + keyCount)
  .ok (keys, sigils, align8 pos)

/-! ## Round trip -/

@[simp] theorem strTable_nil : strTable [] = [] := rfl

theorem strTable_cons (s : String) (l : List String) :
    strTable (s :: l) = utf8 s ++ 0 :: strTable l := by
  simp [strTable]

@[simp] theorem schemaSigils_length (n : ℕ) (sigils : List UInt8) :
    (schemaSigils n sigils).length = n := by simp [schemaSigils]

theorem nonNul_append {l : Bytes} (h : (0 : UInt8) ∉ l) (rest : Bytes) :
    nonNul (l ++ 0 :: rest) = l.length := by
  induction l with
  | nil => rfl
  | cons b bs ih =>
    rw [List.mem_cons, not_or] at h
    rw [List.cons_append, nonNul, if_neg (Ne.symm h.1), ih h.2, List.length_cons]

theorem align8_eq (pos : ℕ) : align8 pos = pos + padLen 8 pos := by
  unfold align8 padLen
  split <;> omega

/-- A table of NUL-free strings is read back, whatever follows it. -/
theorem readStrings_strTable (msg : String) {d : Bytes} :
    ∀ {l : List String} {pos : ℕ}, (∀ s ∈ l, NulFree s) → At d pos (strTable l) →
      readStrings msg d l.length pos = .ok (l, pos + (strTable l).length)
  | [], pos, _, _ => rfl
  | s :: l, pos, hl, hat => by
    rw [strTable_cons, at_append] at hat
    obtain ⟨hs, hrest⟩ := hat
    obtain ⟨hnul, htab⟩ := at_cons.mp hrest
    have hle := hrest.le
    rw [List.length_cons] at hle
    obtain ⟨post, hpost⟩ : ∃ post, d.drop pos = utf8 s ++ 0 :: post := by
      obtain ⟨pre, post, hd, hpre⟩ := at_append.mpr ⟨hs, hnul⟩
      exact ⟨post, by rw [hd, ← hpre]; simp⟩
    have hstop : pos + nonNul (d.drop pos) = pos + (utf8 s).length := by
      rw [hpost, nonNul_append (hl s (by simp))]
    have ih := readStrings_strTable msg (fun t ht => hl t (by simp [ht])) htab
    rw [List.length_cons, readStrings, hstop, ensure_of (by omega), ok_bind, range_at hs, ok_bind,
      fromUtf8_utf8, okOr_ok, ok_bind, ih, ok_bind]
    simp only [strTable_cons, List.length_append, List.length_cons]
    congr 2
    omega

theorem buildSchema_length_dvd (keys : List String) (sigils : List UInt8) :
    8 ∣ (buildSchema keys sigils).length := padTo_dvd (by decide) _

/-- A schema header is parsed to what it was built from. -/
theorem parseSchema_buildSchema {d : Bytes} {keys : List String} {sigils : List UInt8} {offset : ℕ}
    (hd : d.length < 2 ^ 63) (hat : At d offset (buildSchema keys sigils)) (h8 : 8 ∣ offset)
    (hlen : keys.length < 65536) (hnul : ∀ k ∈ keys, NulFree k) :
    parseSchema d offset =
      .ok (keys, schemaSigils keys.length sigils, offset + (buildSchema keys sigils).length) := by
  have hle := hat.le
  rw [buildSchema, padTo_length] at hle
  simp only [List.length_append, leBytes_length, schemaSigils_length] at hle
  have hat' := hat
  rw [buildSchema, padTo, at_append, at_append, at_append] at hat'
  obtain ⟨⟨⟨hcount, hsig⟩, htab⟩, -⟩ := hat'
  rw [leBytes_length] at hsig
  have hrange := range_at (ε := NxsError) hsig
  rw [schemaSigils_length] at hrange
  rw [List.length_append, leBytes_length, schemaSigils_length, ← Nat.add_assoc] at htab
  have hstr := readStrings_strTable "invalid utf-8 key" hnul htab
  rw [parseSchema, ensure_of (by omega), ok_bind, readLE_leBytes hcount (by omega) hd, ok_bind]
  simp only []
  rw [ensure_of (by omega), ok_bind, hrange, ok_bind, hstr, ok_bind]
  simp only []
  congr 3
  rw [align8_eq, buildSchema, padTo_length]
  simp only [List.length_append, leBytes_length, schemaSigils_length]
  obtain ⟨k, rfl⟩ := h8
  unfold padLen
  omega

end Nyxis
