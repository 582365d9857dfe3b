import Nyxis.DecoderTotal

/-!
# Acceptance — which byte strings the two readers take for files

`Reader.new` and `decode` check a file in two chains of their own.  `SharedChecks` are the checks both of
them make, `ReaderChecks` and `DecoderChecks` those that only one of them makes, all of them said of the
bytes.

* `reader_isOk_iff`, `decode_isOk_iff`: what each reader accepts.
* `readers_agree_iff`: for which byte strings they agree.
-/

namespace Nyxis

open Lib Lib.Outcome

/-! ## The schema header -/

/-- The `n` NUL-terminated names from `pos` on, and the position behind them. -/
def rawNames (d : Bytes) : ℕ → ℕ → Option (List Bytes × ℕ)
  | 0, pos => some ([], pos)
  | n + 1, pos =>
    let len := nonNul (d.drop pos)
    if pos + len < d.length then
      (rawNames d n (pos + len + 1)).map fun r => ((d.drop pos).take len :: r.1, r.2)
    else none

theorem readStrings_eq_ok {msg : String} {d : Bytes} : ∀ {n pos e : ℕ} {keys : List String},
    readStrings msg d n pos = .ok (keys, e) ↔
      ∃ names, rawNames d n pos = some (names, e) ∧ List.Forall₂ (fun b k => fromUtf8 b = .ok k) names keys
  | 0, pos, e, keys => by
    rw [readStrings, rawNames]
    constructor
    · rintro ⟨⟩
      exact ⟨[], rfl, .nil⟩
    · rintro ⟨names, h, hall⟩
      cases h
      cases hall
      rfl
  | n + 1, pos, e, keys => by
    rw [readStrings, rawNames]
    dsimp only
    by_cases hstop : pos + nonNul (d.drop pos) < d.length
    · rw [ensure_of hstop, ok_bind, range_of (Nat.le_add_right _ _) (Nat.le_of_lt hstop), ok_bind,
        Nat.add_sub_cancel_left, if_pos hstop]
      constructor
      · intro h
        obtain ⟨s, hs, h⟩ := bind_eq_ok.mp h
        obtain ⟨⟨rest, p⟩, hrest, h⟩ := bind_eq_ok.mp h
        cases h
        obtain ⟨names, hnames, hall⟩ := readStrings_eq_ok.mp hrest
        refine ⟨_, by rw [hnames]; rfl, .cons ?_ hall⟩
        cases hutf : fromUtf8 ((d.drop pos).take (nonNul (d.drop pos))) with
        | ok s' =>
          rw [hutf, okOr_ok] at hs
          cases hs
          rfl
        | err e =>
          rw [hutf] at hs
          cases hs
        | panic =>
          rw [hutf] at hs
          cases hs
      · rintro ⟨names, h, hall⟩
        obtain ⟨⟨names', e'⟩, hnames, h⟩ := Option.map_eq_some_iff.mp h
        cases h
        cases hall with
        | cons hs hrest =>
          rw [hs, okOr_ok, ok_bind, readStrings_eq_ok.mpr ⟨_, hnames, hrest⟩, ok_bind]
    · rw [ensure_not hstop, err_bind, if_neg hstop]
      constructor
      · intro h
        cases h
      · rintro ⟨names, h, -⟩
        cases h

theorem decodeNames_eq_ok {d : Bytes} (hd : d.length < 2 ^ 63) : ∀ {n pos e : ℕ} {keys : List String},
    pos ≤ d.length → (decodeNames d n pos = .ok (keys, e) ↔
      ∃ names, rawNames d n pos = some (names, e) ∧ (∀ b ∈ names, b.length ≤ 257) ∧
        keys = names.map fromUtf8Lossy)
  | 0, pos, e, keys, _ => by
    rw [decodeNames, rawNames]
    constructor
    · rintro ⟨⟩
      exact ⟨[], rfl, by simp, rfl⟩
    · rintro ⟨names, h, -, rfl⟩
      cases h
      rfl
  | n + 1, pos, e, keys, hpos => by
    have hle := nonNul_le (d.drop pos)
    rw [List.length_drop] at hle
    rw [decodeNames, rawNames]
    dsimp only
    have htake : ((d.drop pos).take (nonNul (d.drop pos))).length = nonNul (d.drop pos) := by
      rw [List.length_take, List.length_drop]
      omega
    by_cases hlong : nonNul (d.drop pos) ≤ 257
    · rw [ensure_of (by omega), ok_bind, usizeAdd_of (by omega), ok_bind, range_of (by omega) (by omega), ok_bind]
      by_cases hstop : pos + nonNul (d.drop pos) < d.length
      · rw [ensure_of (by omega), ok_bind, usizeAdd_of (by omega), ok_bind, Nat.add_sub_cancel_left, if_pos hstop]
        constructor
        · intro h
          obtain ⟨⟨rest, p⟩, hrest, h⟩ := bind_eq_ok.mp h
          cases h
          obtain ⟨names, hnames, hshort, rfl⟩ := (decodeNames_eq_ok hd (by omega)).mp hrest
          refine ⟨_, by rw [hnames]; rfl, fun b hb => ?_, rfl⟩
          rcases List.mem_cons.mp hb with rfl | hb
          · omega
          · exact hshort b hb
        · rintro ⟨names, h, hshort, rfl⟩
          obtain ⟨⟨names', e'⟩, hnames, h⟩ := Option.map_eq_some_iff.mp h
          cases h
          rw [(decodeNames_eq_ok hd (by omega)).mpr
            ⟨names', hnames, fun b hb => hshort b (List.mem_cons_of_mem _ hb), rfl⟩, ok_bind]
          rfl
      · rw [if_neg hstop, ensure_not (by omega), err_bind]
        constructor
        · intro h
          cases h
        · rintro ⟨names, h, -⟩
          cases h
    · rw [ensure_not (by omega), err_bind]
      constructor
      · intro h
        cases h
      · rintro ⟨names, h, hshort, -⟩
        split at h
        · obtain ⟨⟨names', e'⟩, -, h⟩ := Option.map_eq_some_iff.mp h
          cases h
          have hlen := hshort _ List.mem_cons_self
          omega
        · cases h

/-- The number of keys of a v1.2 header. -/
def keyCount (d : Bytes) : ℕ := word d 32 2

/-- The names of a v1.2 header, and where they end. -/
def schemaNames (d : Bytes) : Option (List Bytes × ℕ) := rawNames d (keyCount d) (34 + keyCount d)

theorem parseSchema_eq_ok {d : Bytes} (hd : d.length < 2 ^ 63) {keys : List String} {sigils : List UInt8} {e : ℕ} :
    parseSchema d 32 = .ok (keys, sigils, e) ↔ 34 ≤ d.length ∧ 34 + keyCount d ≤ d.length ∧
      ∃ names stop, schemaNames d = some (names, stop) ∧ List.Forall₂ (fun b k => fromUtf8 b = .ok k) names keys ∧
        sigils = (d.drop 34).take (keyCount d) ∧ e = align8 stop := by
  rw [parseSchema]
  by_cases h34 : 34 ≤ d.length
  · rw [ensure_of h34, ok_bind, readLE_word h34 hd, ok_bind]
    dsimp only
    show (ensure (34 + keyCount d ≤ d.length) NxsError.outOfBounds >>= _) = _ ↔ _
    by_cases hkc : 34 + keyCount d ≤ d.length
    · rw [ensure_of hkc, ok_bind, show word d 32 2 = keyCount d from rfl,
        range_of (Nat.le_add_right _ _) hkc, ok_bind, Nat.add_sub_cancel_left]
      constructor
      · intro h
        obtain ⟨⟨keys', stop⟩, hnames, h⟩ := bind_eq_ok.mp h
        cases h
        obtain ⟨names, hraw, hall⟩ := readStrings_eq_ok.mp hnames
        exact ⟨h34, hkc, names, stop, hraw, hall, rfl, rfl⟩
      · rintro ⟨-, -, names, stop, hraw, hall, rfl, rfl⟩
        rw [readStrings_eq_ok.mpr ⟨names, hraw, hall⟩, ok_bind]
    · rw [ensure_not hkc, err_bind]
      constructor
      · intro h
        cases h
      · rintro ⟨-, h, -⟩
        exact absurd h hkc
  · rw [ensure_not h34, err_bind]
    constructor
    · intro h
      cases h
    · rintro ⟨h, -⟩
      exact absurd h h34

theorem decodeBasicSchema_eq_ok {d : Bytes} (hd : d.length < 2 ^ 63) (h34 : 34 ≤ d.length) {keys : List String}
    {sigils : List UInt8} {e : ℕ} :
    decodeBasicSchema d 32 = .ok (keys, sigils, e) ↔ keyCount d ≤ 256 ∧ 34 + keyCount d ≤ d.length ∧
      ∃ names stop, schemaNames d = some (names, stop) ∧ (∀ b ∈ names, b.length ≤ 257) ∧ align8 stop ≤ d.length ∧
        keys = names.map fromUtf8Lossy ∧ sigils = (d.drop 34).take (keyCount d) ∧ e = align8 stop := by
  rw [decodeBasicSchema, readLE_word h34 hd, ok_bind, show word d 32 2 = keyCount d from rfl]
  by_cases hmany : keyCount d ≤ 256
  · rw [ensure_of (by omega), ok_bind, usizeAdd_of (by decide), ok_bind, checkedAdd_of (by omega), okOr_ok, ok_bind]
    by_cases hkc : 34 + keyCount d ≤ d.length
    · rw [ensure_of (by omega), ok_bind, range_of (by omega) hkc, ok_bind, Nat.add_sub_cancel_left]
      constructor
      · intro h
        obtain ⟨⟨keys', stop⟩, hnames, h⟩ := bind_eq_ok.mp h
        obtain ⟨_, hend, h⟩ := bind_eq_ok.mp h
        cases h
        obtain ⟨names, hraw, hshort, rfl⟩ := (decodeNames_eq_ok hd hkc).mp hnames
        rw [ensure_eq_ok] at hend
        exact ⟨hmany, hkc, names, stop, hraw, hshort, by omega, rfl, rfl, rfl⟩
      · rintro ⟨-, -, names, stop, hraw, hshort, hend, rfl, rfl, rfl⟩
        rw [(decodeNames_eq_ok hd hkc).mpr ⟨names, hraw, hshort, rfl⟩, ok_bind]
        dsimp only
        rw [ensure_of (by omega), ok_bind]
    · rw [ensure_not (by omega), err_bind]
      constructor
      · intro h
        cases h
      · rintro ⟨-, h, -⟩
        exact absurd h hkc
  · rw [ensure_not (by omega), err_bind]
    constructor
    · intro h
      cases h
    · rintro ⟨h, -⟩
      exact absurd h hmany

/-! ## The checks -/

def flagsOf (d : Bytes) : ℕ := word d 6 2

/-- A flag of the preamble is set. -/
abbrev Flagged (d : Bytes) (f : ℕ) : Prop := hasFlag (flagsOf d) f = true

/-- Neither of the column layouts. -/
def RowLayout (d : Bytes) : Prop := ¬ Flagged d FLAG_COLUMNAR ∧ ¬ Flagged d FLAG_PAX

instance (d : Bytes) : Decidable (RowLayout d) := inferInstanceAs (Decidable (_ ∧ _))

/-- The tail pointer of a row file: that of the preamble, or that of the footer where it is 0. -/
def rowTailPtr (d : Bytes) : ℕ := if word d 16 8 = 0 then word d (d.length - 12) 8 else word d 16 8

/-- Where the embedded schema ends. -/
def schemaEnd (d : Bytes) : ℕ :=
  if Flagged d FLAG_V13_COMPACT_MASK then
    match parseExtendedSchema d 32 (flagsOf d) with
    | .ok (_, stop) => stop
    | _ => 32
  else align8 ((schemaNames d).elim 0 Prod.snd)

/-- Where the data sector starts: a schema of which there are not even two bytes is passed over. -/
def dataSectorStart (d : Bytes) : ℕ :=
  if Flagged d FLAG_SCHEMA_EMBEDDED ∧ 34 ≤ d.length then schemaEnd d else 32

/-- The checks that both readers make. -/
structure SharedChecks (d : Bytes) : Prop where
  size : 32 ≤ d.length
  magic : word d 0 4 = MAGIC_FILE
  footer : word d (d.length - 4) 4 = MAGIC_FOOTER
  layout : ¬ (Flagged d FLAG_COLUMNAR ∧ Flagged d FLAG_PAX)
  compactSchema : Flagged d FLAG_SCHEMA_EMBEDDED → 34 ≤ d.length → Flagged d FLAG_V13_COMPACT_MASK →
    (parseExtendedSchema d 32 (flagsOf d)).isOk = true
  basicSchema : Flagged d FLAG_SCHEMA_EMBEDDED → 34 ≤ d.length → ¬ Flagged d FLAG_V13_COMPACT_MASK →
    34 + keyCount d ≤ d.length ∧ (schemaNames d).isSome = true
  footerTail : RowLayout d → word d 16 8 = 0 → 44 ≤ d.length
  deltaTail : RowLayout d → Flagged d FLAG_DELTA_TAIL → (parseDeltaTailLayout d (rowTailPtr d)).isOk = true

/-- The checks that only `Reader.new` makes. -/
structure ReaderChecks (d : Bytes) : Prop where
  embedded : ¬ RowLayout d → Flagged d FLAG_SCHEMA_EMBEDDED
  compact : Flagged d FLAG_V13_COMPACT_MASK → RowLayout d
  schema : Flagged d FLAG_SCHEMA_EMBEDDED → 34 ≤ d.length
  utf8 : Flagged d FLAG_SCHEMA_EMBEDDED → ¬ Flagged d FLAG_V13_COMPACT_MASK →
    ∀ r ∈ schemaNames d, ∀ name ∈ r.1, (fromUtf8 name).isOk = true
  tail : RowLayout d → rowTailPtr d ≤ d.length - 4
  table : Flagged d FLAG_COLUMNAR →
    word d (d.length - 20) 8 < d.length - 20 ∧
      word d (d.length - 20) 8 + keyCount d * 20 ≤ d.length - 20 ∧
      ∀ i < keyCount d, word d (word d (d.length - 20) 8 + i * 20) 2 < keyCount d

/-- The checks that only `decode` makes. -/
structure DecoderChecks (d : Bytes) : Prop where
  tailPtr : Flagged d FLAG_COLUMNAR → word d 16 8 ≠ 0
  limits : Flagged d FLAG_SCHEMA_EMBEDDED → 34 ≤ d.length → ¬ Flagged d FLAG_V13_COMPACT_MASK →
    keyCount d ≤ 256 ∧ (∀ r ∈ schemaNames d, ∀ name ∈ r.1, name.length ≤ 257) ∧ schemaEnd d ≤ d.length
  hash : Flagged d FLAG_SCHEMA_EMBEDDED → 34 ≤ d.length →
    (murmur3_64 ((d.drop 32).take (schemaEnd d - 32))).toNat = word d 8 8
  page : Flagged d FLAG_PAX → dataSectorStart d + 4 ≤ d.length ∧ word d (dataSectorStart d) 4 = MAGIC_PAGE

/-! ## What the reader accepts -/

theorem readColumnTable_isOk {d : Bytes} {t kc n : ℕ} (hd : d.length < 2 ^ 63) (hn : t + n * 20 ≤ d.length)
    (acc : List ℕ × List ℕ) : ((List.range n).foldlM (readColumnEntry d t kc) acc).isOk = true ↔
      ∀ i < n, word d (t + i * 20) 2 < kc := by
  induction n with
  | zero => exact ⟨fun _ i hi => absurd hi (Nat.not_lt_zero i), fun _ => rfl⟩
  | succ n ih =>
    rw [List.range_succ, List.foldlM_append]
    have hentry : ∀ acc : List ℕ × List ℕ, (readColumnEntry d t kc acc n).isOk = true ↔ word d (t + n * 20) 2 < kc := by
      intro acc
      rw [readColumnEntry, readLE_word (by omega) hd, ok_bind]
      by_cases hfid : word d (t + n * 20) 2 < kc
      · rw [ensure_of hfid, ok_bind, readLE_word (by omega) hd, ok_bind, readLE_word (by omega) hd, ok_bind]
        exact ⟨fun _ => hfid, fun _ => rfl⟩
      · rw [ensure_not hfid, err_bind]
        exact ⟨fun h => (Bool.false_ne_true h).elim, fun h => absurd h hfid⟩
    constructor
    · intro h i hi
      obtain ⟨acc', h⟩ := isOk_iff.mp h
      obtain ⟨mid, hmid, h⟩ := bind_eq_ok.mp h
      rcases Nat.lt_succ_iff_lt_or_eq.mp hi with hi | rfl
      · exact (ih (by omega)).mp (isOk_iff.mpr ⟨mid, hmid⟩) i hi
      · rw [List.foldlM_cons] at h
        obtain ⟨last, hlast, -⟩ := bind_eq_ok.mp h
        exact (hentry mid).mp (isOk_iff.mpr ⟨last, hlast⟩)
    · intro h
      obtain ⟨mid, hmid⟩ := isOk_iff.mp ((ih (by omega)).mpr fun i hi => h i (by omega))
      obtain ⟨last, hlast⟩ := isOk_iff.mp ((hentry mid).mpr (h n (by omega)))
      rw [hmid, ok_bind, List.foldlM_cons, hlast, ok_bind]
      rfl

theorem isOk_bind {α β : Type} {x : Res α} {f : α → Res β} :
    (x >>= f).isOk = true ↔ ∃ a, x = .ok a ∧ (f a).isOk = true := by
  cases x <;> simp [isOk]

theorem isOk_ensure_bind {α : Type} {p : Prop} [Decidable p] {e : NxsError} {f : Unit → Res α} :
    (ensure p e >>= f).isOk = true ↔ p ∧ (f ()).isOk = true := by
  by_cases hp : p
  · rw [ensure_of hp, ok_bind]
    exact ⟨fun h => ⟨hp, h⟩, And.right⟩
  · rw [ensure_not hp, err_bind]
    exact ⟨fun h => (Bool.false_ne_true h).elim, fun h => absurd h.1 hp⟩

section Tail

variable {d : Bytes} (hd : d.length < 2 ^ 63) (hsize : 32 ≤ d.length) (keys : List String) (sigils : List UInt8)
  (ext : Option ExtendedSchema) (plan : Option RowCellPlan)

include hd hsize

theorem openTail_columnar (hcol : Flagged d FLAG_COLUMNAR) (hpax : ¬ Flagged d FLAG_PAX) :
    (Reader.openTail d (flagsOf d) (word d 16 8) keys sigils ext plan).isOk = true ↔
      word d (d.length - 20) 8 < d.length - 20 ∧
        word d (d.length - 20) 8 + keys.length * 20 ≤ d.length - 20 ∧
        ∀ i < keys.length, word d (word d (d.length - 20) 8 + i * 20) 2 < keys.length := by
  have hfooter : footerSize (flagsOf d) = 20 := by
    rw [footerSize, if_neg hpax, if_pos hcol]
  rw [Reader.openTail, if_pos hcol, hfooter]
  dsimp only
  rw [readLE_word (by omega) hd, ok_bind, readLE_word (by omega) hd, ok_bind]
  constructor
  · intro h
    obtain ⟨_, htable, h1⟩ := isOk_bind.mp h
    obtain ⟨_, hend, h2⟩ := isOk_bind.mp h1
    obtain ⟨hin, h3⟩ := isOk_ensure_bind.mp h2
    clear h h1 h2
    have hmul : keys.length * 20 < 2 ^ 64 := by
      by_contra hover
      rw [checkedMul, if_neg hover] at htable
      cases htable
    rw [checkedMul_of hmul, okOr_ok] at htable
    cases htable
    have hadd : word d (d.length - 20) 8 + keys.length * 20 < 2 ^ 64 := by
      by_contra hover
      rw [checkedAdd, if_neg hover] at hend
      cases hend
    rw [checkedAdd_of hadd, okOr_ok] at hend
    cases hend
    obtain ⟨columns, hcols, -⟩ := isOk_bind.mp h3
    exact ⟨by omega, by omega, (readColumnTable_isOk hd (by omega) _).mp (isOk_iff.mpr ⟨_, hcols⟩)⟩
  · rintro ⟨hlt, hle, hfids⟩
    obtain ⟨columns, hcols⟩ := isOk_iff.mp ((readColumnTable_isOk hd (by omega) _).mpr hfids)
    have hcols' : readColumnTable d (word d (d.length - 20) 8) keys.length = .ok columns := hcols
    rw [checkedMul_of (by omega), okOr_ok, ok_bind, checkedAdd_of (by omega), okOr_ok, ok_bind,
      ensure_of (by omega), ok_bind, hcols', ok_bind]
    rfl

theorem openTail_pax (hcol : ¬ Flagged d FLAG_COLUMNAR) (hpax : Flagged d FLAG_PAX) :
    (Reader.openTail d (flagsOf d) (word d 16 8) keys sigils ext plan).isOk = true := by
  have hfooter : footerSize (flagsOf d) = 28 := by rw [footerSize, if_pos hpax]
  rw [Reader.openTail, if_neg hcol, if_pos hpax, hfooter, readLE_word (by omega) hd, ok_bind, readLE_word (by omega) hd, ok_bind]
  rfl

theorem openTail_row (hrow : RowLayout d) :
    (Reader.openTail d (flagsOf d) (word d 16 8) keys sigils ext plan).isOk = true ↔
      (word d 16 8 = 0 → 44 ≤ d.length) ∧ rowTailPtr d ≤ d.length - 4 ∧
        (Flagged d FLAG_DELTA_TAIL → (parseDeltaTailLayout d (rowTailPtr d)).isOk = true) := by
  -- what follows once the tail pointer is known
  have hrest : ∀ t : ℕ, ((do
      ensure (¬ t > d.length - 4) .outOfBounds
      if hasFlag (flagsOf d) FLAG_DELTA_TAIL then do
        let layout ← parseDeltaTailLayout d t
        .ok ⟨d, flagsOf d, keys, sigils, ext, plan, layout.recordCount, t, some layout, .row, [], []⟩
      else do
        let recordCount ← readLE d t 4
        .ok ⟨d, flagsOf d, keys, sigils, ext, plan, recordCount, t + 4, none, .row, [], []⟩ : Res Reader).isOk = true ↔
      t ≤ d.length - 4 ∧ (Flagged d FLAG_DELTA_TAIL → (parseDeltaTailLayout d t).isOk = true)) := by
    intro t
    rw [isOk_ensure_bind, Nat.not_lt]
    refine and_congr_right fun ht => ?_
    by_cases hdelta : Flagged d FLAG_DELTA_TAIL
    · rw [if_pos hdelta, isOk_bind]
      constructor
      · rintro ⟨layout, hlayout, -⟩ _
        exact isOk_iff.mpr ⟨layout, hlayout⟩
      · intro h
        obtain ⟨layout, hlayout⟩ := isOk_iff.mp (h hdelta)
        exact ⟨layout, hlayout, rfl⟩
    · rw [if_neg hdelta, readLE_word (by omega) hd, ok_bind]
      exact ⟨fun _ h => absurd h hdelta, fun _ => rfl⟩
  rw [Reader.openTail, if_neg hrow.1, if_neg hrow.2]
  dsimp only
  by_cases hzero : word d 16 8 = 0
  · rw [if_pos hzero, rowTailPtr, if_pos hzero]
    by_cases h44 : 44 ≤ d.length
    · rw [ensure_of (by omega), ok_bind, readLE_word (by omega) hd, ok_bind]
      exact (hrest _).trans ⟨fun h => ⟨fun _ => h44, h⟩, And.right⟩
    · rw [ensure_not (by omega), err_bind]
      exact ⟨fun h => (Bool.false_ne_true h).elim, fun h => absurd (h.1 hzero) h44⟩
  · rw [if_neg hzero, rowTailPtr, if_neg hzero]
    exact (hrest _).trans ⟨fun h => ⟨fun hz => absurd hz hzero, h⟩, And.right⟩

end Tail

/-- What `openTail` accepts, whatever the schema says beyond the number of keys. -/
theorem openTail_isOk {d : Bytes} (hd : d.length < 2 ^ 63) (hsize : 32 ≤ d.length)
    (hlayout : ¬ (Flagged d FLAG_COLUMNAR ∧ Flagged d FLAG_PAX)) (keys : List String) (sigils : List UInt8)
    (ext : Option ExtendedSchema) (plan : Option RowCellPlan) :
    (Reader.openTail d (flagsOf d) (word d 16 8) keys sigils ext plan).isOk = true ↔
      (Flagged d FLAG_COLUMNAR → word d (d.length - 20) 8 < d.length - 20 ∧
        word d (d.length - 20) 8 + keys.length * 20 ≤ d.length - 20 ∧
        ∀ i < keys.length, word d (word d (d.length - 20) 8 + i * 20) 2 < keys.length) ∧
      (RowLayout d → (word d 16 8 = 0 → 44 ≤ d.length) ∧ rowTailPtr d ≤ d.length - 4 ∧
        (Flagged d FLAG_DELTA_TAIL → (parseDeltaTailLayout d (rowTailPtr d)).isOk = true)) := by
  by_cases hcol : Flagged d FLAG_COLUMNAR
  · rw [openTail_columnar hd hsize keys sigils ext plan hcol fun hpax => hlayout ⟨hcol, hpax⟩]
    exact ⟨fun h => ⟨fun _ => h, fun hrow => absurd hcol hrow.1⟩, fun h => h.1 hcol⟩
  · by_cases hpax : Flagged d FLAG_PAX
    · exact ⟨fun _ => ⟨fun h => absurd h hcol, fun hrow => absurd hpax hrow.2⟩,
        fun _ => openTail_pax hd hsize keys sigils ext plan hcol hpax⟩
    · rw [openTail_row hd hsize keys sigils ext plan ⟨hcol, hpax⟩]
      exact ⟨fun h => ⟨fun h' => absurd h' hcol, fun _ => h⟩, fun h => h.2 ⟨hcol, hpax⟩⟩

theorem validatePreambleFlags_isOk (d : Bytes) :
    (validatePreambleFlags (flagsOf d)).isOk = true ↔ ¬ (Flagged d FLAG_COLUMNAR ∧ Flagged d FLAG_PAX) ∧
      (¬ RowLayout d → Flagged d FLAG_SCHEMA_EMBEDDED) ∧ (Flagged d FLAG_V13_COMPACT_MASK → RowLayout d) := by
  unfold validatePreambleFlags RowLayout Flagged
  generalize hasFlag (flagsOf d) FLAG_COLUMNAR = col
  generalize hasFlag (flagsOf d) FLAG_PAX = pax
  generalize hasFlag (flagsOf d) FLAG_SCHEMA_EMBEDDED = embedded
  generalize hasFlag (flagsOf d) FLAG_V13_COMPACT_MASK = compact
  cases col <;> cases pax <;> cases embedded <;> cases compact <;> simp [ensure, isOk]

theorem parseExtendedSchema_size {d : Bytes} {flags : ℕ} {r : ExtendedSchema × ℕ}
    (h : parseExtendedSchema d 32 flags = .ok r) : 34 ≤ d.length := by
  obtain ⟨p, hp, h⟩ := bind_eq_ok.mp h
  rw [usizeAdd_of (by decide)] at hp
  cases hp
  obtain ⟨_, hin, -⟩ := bind_eq_ok.mp h
  rw [ensure_eq_ok] at hin
  omega

theorem rawNames_length {d : Bytes} : ∀ {n pos e : ℕ} {names : List Bytes},
    rawNames d n pos = some (names, e) → names.length = n
  | 0, _, _, _, h => by
    cases h
    rfl
  | n + 1, pos, e, names, h => by
    rw [rawNames] at h
    split at h
    · obtain ⟨⟨rest, e'⟩, hrest, h⟩ := Option.map_eq_some_iff.mp h
      cases h
      rw [List.length_cons, rawNames_length hrest]
    · cases h

/-- A v1.2 header is parsed when its names are there and are UTF-8. -/
theorem parseSchema_isOk {d : Bytes} (hd : d.length < 2 ^ 63) :
    (∃ keys sigils e, parseSchema d 32 = .ok (keys, sigils, e)) ↔ 34 ≤ d.length ∧
      (34 + keyCount d ≤ d.length ∧ (schemaNames d).isSome = true) ∧
      ∀ r ∈ schemaNames d, ∀ name ∈ r.1, (fromUtf8 name).isOk = true := by
  constructor
  · rintro ⟨keys, sigils, e, h⟩
    obtain ⟨h34, hkc, names, stop, hnames, hall, -, -⟩ := (parseSchema_eq_ok hd).mp h
    refine ⟨h34, ⟨hkc, by rw [hnames]; rfl⟩, fun r hr name hname => ?_⟩
    rw [hnames] at hr
    cases hr
    obtain ⟨i, hi, rfl⟩ := List.getElem_of_mem hname
    exact isOk_iff.mpr ⟨_, hall.get hi (hall.length_eq ▸ hi)⟩
  · rintro ⟨h34, ⟨hkc, hsome⟩, hutf⟩
    obtain ⟨⟨names, stop⟩, hnames⟩ := Option.isSome_iff_exists.mp hsome
    obtain ⟨keys, hkeys⟩ := exists_mapM_eq_ok.mpr fun name hname => isOk_iff.mp (hutf _ hnames name hname)
    exact ⟨keys, _, _, (parseSchema_eq_ok hd).mpr ⟨h34, hkc, names, stop, hnames, mapM_eq_ok.mp hkeys, rfl, rfl⟩⟩

theorem parseSchema_length {d : Bytes} (hd : d.length < 2 ^ 63) {keys : List String} {sigils : List UInt8} {e : ℕ}
    (h : parseSchema d 32 = .ok (keys, sigils, e)) : keys.length = keyCount d := by
  obtain ⟨-, -, names, stop, hnames, hall, -, -⟩ := (parseSchema_eq_ok hd).mp h
  rw [← hall.length_eq, rawNames_length hnames]

/-- `Reader.new` accepts what passes the shared checks and its own. -/
theorem reader_isOk_iff (file : Slice) :
    (Reader.new file).isOk = true ↔ SharedChecks file.bytes ∧ ReaderChecks file.bytes := by
  have hd := file.small
  rw [Reader.new]
  dsimp only
  by_cases hsize : 32 ≤ file.bytes.length
  swap
  · rw [ensure_not (by omega), err_bind]
    exact ⟨fun h => (Bool.false_ne_true h).elim, fun h => absurd h.1.size hsize⟩
  rw [ensure_of (by omega), ok_bind, readLE_word (by omega) hd, ok_bind, isOk_ensure_bind,
    readLE_word (by omega) hd, ok_bind, isOk_ensure_bind, readLE_word (by omega) hd, ok_bind,
    show word file.bytes 6 2 = flagsOf file.bytes from rfl, isOk_bind]
  simp only [readLE_word (show 16 + 8 ≤ file.bytes.length by omega) hd, ok_bind]
  generalize file.bytes = d at *
  constructor
  · rintro ⟨hmagic, hfooter, _, hvalid, h⟩
    obtain ⟨hlayout, hembedded, hcompact⟩ := (validatePreambleFlags_isOk d).mp (isOk_iff.mpr ⟨_, hvalid⟩)
    by_cases hemb : Flagged d FLAG_SCHEMA_EMBEDDED
    · rw [if_pos hemb] at h
      by_cases hv13 : Flagged d FLAG_V13_COMPACT_MASK
      · rw [if_pos hv13] at h
        obtain ⟨⟨ext, stop⟩, hparse, h⟩ := isOk_bind.mp h
        have hrow := hcompact hv13
        have h34 := parseExtendedSchema_size hparse
        obtain ⟨-, htail⟩ := (openTail_isOk hd hsize hlayout _ _ _ _).mp h
        obtain ⟨h44, hptr, hdelta⟩ := htail hrow
        exact ⟨⟨hsize, hmagic, hfooter, hlayout, fun _ _ _ => isOk_iff.mpr ⟨_, hparse⟩,
            fun _ _ hn => absurd hv13 hn, fun _ => h44, fun _ => hdelta⟩,
          ⟨hembedded, hcompact, fun _ => h34, fun _ hn => absurd hv13 hn, fun _ => hptr, fun hcol => absurd hcol hrow.1⟩⟩
      · rw [if_neg hv13] at h
        obtain ⟨⟨keys, sigils, e⟩, hparse, h⟩ := isOk_bind.mp h
        obtain ⟨h34, hbasic, hutf⟩ := (parseSchema_isOk hd).mp ⟨_, _, _, hparse⟩
        obtain ⟨htable, htail⟩ := (openTail_isOk hd hsize hlayout _ _ _ _).mp h
        rw [parseSchema_length hd hparse] at htable
        exact ⟨⟨hsize, hmagic, hfooter, hlayout, fun _ _ hn => absurd hn hv13, fun _ _ _ => hbasic,
            fun hrow => (htail hrow).1, fun hrow => (htail hrow).2.2⟩,
          ⟨hembedded, hcompact, fun _ => h34, fun _ _ => hutf, fun hrow => (htail hrow).2.1, htable⟩⟩
    · have hrow : RowLayout d := by
        by_contra hrow
        exact hemb (hembedded hrow)
      rw [if_neg hemb] at h
      obtain ⟨-, htail⟩ := (openTail_isOk hd hsize hlayout _ _ _ _).mp h
      obtain ⟨h44, hptr, hdelta⟩ := htail hrow
      exact ⟨⟨hsize, hmagic, hfooter, hlayout, fun he => absurd he hemb, fun he => absurd he hemb,
          fun _ => h44, fun _ => hdelta⟩,
        ⟨hembedded, hcompact, fun he => absurd he hemb, fun he => absurd he hemb, fun _ => hptr,
          fun hcol => absurd hcol hrow.1⟩⟩
  · rintro ⟨hs, hr⟩
    obtain ⟨_, hvalid⟩ := isOk_iff.mp ((validatePreambleFlags_isOk d).mpr ⟨hs.layout, hr.embedded, hr.compact⟩)
    refine ⟨hs.magic, hs.footer, _, hvalid, ?_⟩
    have htail : RowLayout d → (word d 16 8 = 0 → 44 ≤ d.length) ∧ rowTailPtr d ≤ d.length - 4 ∧
        (Flagged d FLAG_DELTA_TAIL → (parseDeltaTailLayout d (rowTailPtr d)).isOk = true) :=
      fun hrow => ⟨hs.footerTail hrow, hr.tail hrow, hs.deltaTail hrow⟩
    by_cases hemb : Flagged d FLAG_SCHEMA_EMBEDDED
    · rw [if_pos hemb]
      have h34 := hr.schema hemb
      by_cases hv13 : Flagged d FLAG_V13_COMPACT_MASK
      · rw [if_pos hv13]
        obtain ⟨⟨ext, stop⟩, hparse⟩ := isOk_iff.mp (hs.compactSchema hemb h34 hv13)
        have hrow := hr.compact hv13
        rw [hparse, ok_bind]
        exact (openTail_isOk hd hsize hs.layout _ _ _ _).mpr ⟨fun hcol => absurd hcol hrow.1, htail⟩
      · rw [if_neg hv13]
        obtain ⟨keys, sigils, e, hparse⟩ := (parseSchema_isOk hd).mpr
          ⟨h34, hs.basicSchema hemb h34 hv13, hr.utf8 hemb hv13⟩
        have htable := hr.table
        rw [← parseSchema_length hd hparse] at htable
        rw [hparse, ok_bind]
        exact (openTail_isOk hd hsize hs.layout _ _ _ _).mpr ⟨htable, htail⟩
    · rw [if_neg hemb]
      have hrow : RowLayout d := by
        by_contra hrow
        exact hemb (hr.embedded hrow)
      exact (openTail_isOk hd hsize hs.layout _ _ _ _).mpr ⟨fun hcol => absurd hcol hrow.1, htail⟩

/-! ## What the decoder accepts -/

/-- What `Reader.new` does behind its checks. -/
theorem reader_opens {file : Slice} {r : Reader} (h : Reader.new file = .ok r) :
    ∃ keys sigils ext plan, Reader.openTail file.bytes (flagsOf file.bytes) (word file.bytes 16 8) keys sigils ext plan
        = .ok r ∧
      if Flagged file.bytes FLAG_SCHEMA_EMBEDDED then
        if Flagged file.bytes FLAG_V13_COMPACT_MASK then
          ∃ e stop, parseExtendedSchema file.bytes 32 (flagsOf file.bytes) = .ok (e, stop) ∧
            keys = e.keys ∧ sigils = e.sigils ∧ ext = some e ∧ plan = some (RowCellPlan.new e (flagsOf file.bytes))
        else (∃ stop, parseSchema file.bytes 32 = .ok (keys, sigils, stop)) ∧ ext = none
      else keys = [] ∧ sigils = [] ∧ ext = none := by
  have hd := file.small
  rw [Reader.new] at h
  obtain ⟨_, hsize, h1⟩ := bind_eq_ok.mp h
  rw [ensure_eq_ok, Nat.not_lt] at hsize
  rw [readLE_word (by omega) hd, ok_bind] at h1
  obtain ⟨_, -, h2⟩ := bind_eq_ok.mp h1
  rw [readLE_word (by omega) hd, ok_bind] at h2
  obtain ⟨_, -, h3⟩ := bind_eq_ok.mp h2
  rw [readLE_word (by omega) hd, ok_bind, show word file.bytes 6 2 = flagsOf file.bytes from rfl] at h3
  obtain ⟨_, -, h4⟩ := bind_eq_ok.mp h3
  rw [readLE_word (by omega) hd, ok_bind] at h4
  by_cases hemb : Flagged file.bytes FLAG_SCHEMA_EMBEDDED
  · simp only [if_pos hemb]
    rw [if_pos hemb] at h4
    by_cases hv13 : Flagged file.bytes FLAG_V13_COMPACT_MASK
    · simp only [if_pos hv13]
      rw [if_pos hv13] at h4
      obtain ⟨⟨e, stop⟩, hparse, h5⟩ := bind_eq_ok.mp h4
      exact ⟨_, _, _, _, h5, e, stop, hparse, rfl, rfl, rfl, rfl⟩
    · simp only [if_neg hv13]
      rw [if_neg hv13] at h4
      obtain ⟨⟨keys, sigils, stop⟩, hparse, h5⟩ := bind_eq_ok.mp h4
      exact ⟨_, _, _, _, h5, ⟨stop, hparse⟩, rfl⟩
  · simp only [if_neg hemb]
    rw [if_neg hemb] at h4
    exact ⟨_, _, _, _, h4, rfl, rfl, rfl⟩

theorem hasFlag_columns (d : Bytes) :
    hasFlag (flagsOf d) (FLAG_COLUMNAR ||| FLAG_PAX) = true ↔ ¬ RowLayout d := by
  rw [RowLayout, not_and_or, not_not, not_not, Flagged, Flagged]
  simp only [hasFlag, Nat.and_or_distrib_left, bne_iff_ne, ne_eq, Nat.or_eq_zero_iff, not_and_or]

theorem readStrings_le {msg : String} {d : Bytes} : ∀ {n pos : ℕ} {r : List String × ℕ},
    readStrings msg d n pos = .ok r → pos ≤ r.2
  | 0, _, _, h => by
    cases h
    exact Nat.le_refl _
  | n + 1, pos, r, h => by
    obtain ⟨_, -, h1⟩ := bind_eq_ok.mp h
    obtain ⟨_, -, h2⟩ := bind_eq_ok.mp h1
    obtain ⟨_, -, h3⟩ := bind_eq_ok.mp h2
    obtain ⟨⟨rest, p⟩, hrest, h4⟩ := bind_eq_ok.mp h3
    cases h4
    have hle : pos + nonNul (d.drop pos) + 1 ≤ p := readStrings_le hrest
    show pos ≤ p
    omega

theorem rawNames_le {d : Bytes} : ∀ {n pos e : ℕ} {names : List Bytes},
    rawNames d n pos = some (names, e) → pos ≤ e
  | 0, _, _, _, h => by
    cases h
    exact Nat.le_refl _
  | n + 1, pos, e, names, h => by
    rw [rawNames] at h
    split at h
    · obtain ⟨⟨rest, e'⟩, hrest, h⟩ := Option.map_eq_some_iff.mp h
      cases h
      have hle := rawNames_le hrest
      omega
    · cases h

theorem le_align8 (pos : ℕ) : pos ≤ align8 pos := by
  unfold align8
  split <;> omega

theorem takeBytes_end {d : Bytes} {p n : ℕ} {r : Bytes × ℕ} (h : takeBytes d p n = .ok r) : r.2 = p + n := by
  obtain ⟨stop, hstop, h1⟩ := bind_eq_ok.mp h
  obtain ⟨_, -, h2⟩ := bind_eq_ok.mp h1
  obtain ⟨_, -, h3⟩ := bind_eq_ok.mp h2
  cases h3
  exact ((safe_okOr (safe_checkedAdd p n)).post hstop).1

theorem takeColumnBytes_le {d : Bytes} {p n : ℕ} {given : Bool} {r : Bytes × ℕ}
    (h : takeColumnBytes d p n given = .ok r) : p ≤ r.2 := by
  rw [takeColumnBytes] at h
  split at h
  · rw [takeBytes_end h]
    omega
  · cases h
    exact Nat.le_refl _

theorem parseValuePool_le {d : Bytes} {p : ℕ} {r : List String × ℕ} (h : parseValuePool d p = .ok r) :
    p ≤ r.2 := by
  obtain ⟨stop, hstop, h1⟩ := bind_eq_ok.mp h
  have hle : p ≤ stop := by
    rw [usizeAdd] at hstop
    split at hstop
    · cases hstop
      omega
    · cases hstop
  split at h1
  · obtain ⟨valueCount, -, h2⟩ := bind_eq_ok.mp h1
    split at h2
    · obtain ⟨⟨pool, q⟩, hpool, h3⟩ := bind_eq_ok.mp h2
      cases h3
      exact hle.trans ((readStrings_le hpool).trans (le_align8 q))
    · cases h2
      exact hle
  · cases h1
    exact Nat.le_refl _

/-- A v1.3 header ends within the file. -/
theorem parseExtendedSchema_end {d : Bytes} {pos flags : ℕ} {r : ExtendedSchema × ℕ}
    (h : parseExtendedSchema d pos flags = .ok r) : pos ≤ r.2 ∧ r.2 ≤ d.length := by
  obtain ⟨p, hp, h1⟩ := bind_eq_ok.mp h
  obtain ⟨_, -, h2⟩ := bind_eq_ok.mp h1
  obtain ⟨keyCount, -, h3⟩ := bind_eq_ok.mp h2
  obtain ⟨_, -, h4⟩ := bind_eq_ok.mp h3
  obtain ⟨sigils, hsigils, h5⟩ := bind_eq_ok.mp h4
  obtain ⟨keys, hkeys, h6⟩ := bind_eq_ok.mp h5
  obtain ⟨widths, hwidths, h7⟩ := bind_eq_ok.mp h6
  obtain ⟨attrs, hattrs, h8⟩ := bind_eq_ok.mp h7
  obtain ⟨pool, hpool, h9⟩ := bind_eq_ok.mp h8
  obtain ⟨_, hend, h10⟩ := bind_eq_ok.mp h9
  cases h10
  rw [ensure_eq_ok, Nat.not_lt] at hend
  refine ⟨?_, hend⟩
  have hstart : pos ≤ p := by
    rw [usizeAdd] at hp
    split at hp
    · cases hp
      omega
    · cases hp
  calc pos ≤ p := hstart
    _ ≤ sigils.2 := by rw [takeBytes_end hsigils]; omega
    _ ≤ keys.2 := readStrings_le hkeys
    _ ≤ align8 keys.2 := le_align8 _
    _ ≤ widths.2 := takeColumnBytes_le hwidths
    _ ≤ attrs.2 := takeColumnBytes_le hattrs
    _ ≤ pool.2 := parseValuePool_le hpool

/-- The decoder finds the tail-index where the reader does. -/
theorem decodeTailPtr_eq {d : Bytes} (hd : d.length < 2 ^ 63) (hsize : 32 ≤ d.length) {t : ℕ} :
    decodeTailPtr d (flagsOf d) (word d 16 8) = .ok t ↔
      (RowLayout d → word d 16 8 = 0 → 44 ≤ d.length) ∧
        t = if RowLayout d then rowTailPtr d else word d (d.length - footerSize (flagsOf d)) 8 := by
  have hfooter := footerSize_le (flagsOf d)
  rw [decodeTailPtr]
  by_cases hrow : RowLayout d
  · rw [if_neg fun h => (hasFlag_columns d).mp h hrow, if_pos hrow, rowTailPtr]
    by_cases hzero : word d 16 8 = 0
    · rw [if_pos hzero, if_pos hzero]
      by_cases h44 : 44 ≤ d.length
      · rw [ensure_of (by omega), ok_bind, usizeSub_of (by omega), ok_bind, readLE_word (by omega) hd, ok.injEq]
        exact ⟨fun h => ⟨fun _ _ => h44, h.symm⟩, fun h => h.2.symm⟩
      · rw [ensure_not (by omega), err_bind]
        constructor
        · intro h
          cases h
        · rintro ⟨h, -⟩
          exact absurd (h hrow hzero) h44
    · rw [if_neg hzero, if_neg hzero, ok.injEq]
      exact ⟨fun h => ⟨fun _ hz => absurd hz hzero, h.symm⟩, fun h => h.2.symm⟩
  · have hroom := le_footerSize ((hasFlag_columns d).mpr hrow)
    rw [if_pos ((hasFlag_columns d).mpr hrow), if_neg hrow, ensure_of (by omega), ok_bind,
      usizeSub_of (by omega), ok_bind, readLE_word (by omega) hd, ok.injEq]
    exact ⟨fun h => ⟨fun h' => absurd h' hrow, h.symm⟩, fun h => h.2.symm⟩

theorem decodeTail_isOk {d : Bytes} (hd : d.length < 2 ^ 63) (hsize : 32 ≤ d.length) (t : ℕ) :
    (∃ r, decodeTail d (flagsOf d) t = .ok r) ↔
      (RowLayout d → Flagged d FLAG_DELTA_TAIL → (parseDeltaTailLayout d t).isOk = true) := by
  have hfooter := footerSize_le (flagsOf d)
  rw [decodeTail]
  by_cases hrow : RowLayout d
  · rw [if_neg fun h => (hasFlag_columns d).mp h hrow]
    by_cases hdelta : Flagged d FLAG_DELTA_TAIL
    · rw [if_pos hdelta]
      constructor
      · rintro ⟨r, h⟩ - -
        obtain ⟨layout, hlayout, -⟩ := bind_eq_ok.mp h
        exact isOk_iff.mpr ⟨layout, hlayout⟩
      · intro h
        obtain ⟨layout, hlayout⟩ := isOk_iff.mp (h hrow hdelta)
        rw [hlayout, ok_bind]
        exact ⟨_, rfl⟩
    · rw [if_neg hdelta]
      refine ⟨fun _ _ h => absurd h hdelta, fun _ => ?_⟩
      have hcount : ∃ n, decodeRecordCount d t = .ok n := by
        rw [decodeRecordCount]
        split
        · rw [readLE_word (by omega) hd]
          exact ⟨_, rfl⟩
        · exact ⟨_, rfl⟩
      obtain ⟨n, hn⟩ := hcount
      rw [hn, ok_bind]
      exact ⟨_, rfl⟩
  · have hroom := le_footerSize ((hasFlag_columns d).mpr hrow)
    rw [if_pos ((hasFlag_columns d).mpr hrow), usizeSub_of (by omega), ok_bind, usizeAdd_of (by omega), ok_bind,
      readLE_word (by omega) hd, ok_bind]
    exact ⟨fun _ h => absurd h hrow, fun _ => ⟨_, rfl⟩⟩

/-- The decoder's schema: its keys, its sigils and its end. -/
theorem decodeHeader_eq_ok {d : Bytes} (hd : d.length < 2 ^ 63) (h34 : 34 ≤ d.length) :
    (∃ keys sigils, decodeHeader d (flagsOf d) = .ok (keys, sigils, schemaEnd d)) ↔
      (Flagged d FLAG_V13_COMPACT_MASK → (parseExtendedSchema d 32 (flagsOf d)).isOk = true) ∧
      (¬ Flagged d FLAG_V13_COMPACT_MASK → (34 + keyCount d ≤ d.length ∧ (schemaNames d).isSome = true) ∧
        keyCount d ≤ 256 ∧ (∀ r ∈ schemaNames d, ∀ name ∈ r.1, name.length ≤ 257) ∧ schemaEnd d ≤ d.length) := by
  rw [decodeHeader]
  by_cases hv13 : Flagged d FLAG_V13_COMPACT_MASK
  · rw [if_pos hv13]
    constructor
    · rintro ⟨keys, sigils, h⟩
      obtain ⟨ext, hext, -⟩ := bind_eq_ok.mp h
      exact ⟨fun _ => isOk_iff.mpr ⟨ext, hext⟩, fun hn => absurd hv13 hn⟩
    · rintro ⟨h, -⟩
      obtain ⟨⟨ext, stop⟩, hext⟩ := isOk_iff.mp (h hv13)
      rw [schemaEnd, if_pos hv13, hext, ok_bind]
      exact ⟨_, _, rfl⟩
  · have hend : schemaEnd d = align8 ((schemaNames d).elim 0 Prod.snd) := if_neg hv13
    rw [if_neg hv13]
    constructor
    · rintro ⟨keys, sigils, h⟩
      obtain ⟨hmany, hkc, names, stop, hnames, hshort, hle, -, -, -⟩ := (decodeBasicSchema_eq_ok hd h34).mp h
      refine ⟨fun hv => absurd hv hv13, fun _ => ⟨⟨hkc, by rw [hnames]; rfl⟩, hmany, fun r hr => ?_, ?_⟩⟩
      · rw [hnames] at hr
        cases hr
        exact hshort
      · rw [hend, hnames]
        exact hle
    · rintro ⟨-, h⟩
      obtain ⟨⟨hkc, hsome⟩, hmany, hshort, hle⟩ := h hv13
      obtain ⟨⟨names, stop⟩, hnames⟩ := Option.isSome_iff_exists.mp hsome
      rw [hend, hnames] at hle ⊢
      exact ⟨_, _, (decodeBasicSchema_eq_ok hd h34).mpr
        ⟨hmany, hkc, names, stop, hnames, fun name hname => hshort _ hnames name hname, hle, rfl, rfl, rfl⟩⟩

theorem decodeHeader_end {d : Bytes} (hd : d.length < 2 ^ 63) (h34 : 34 ≤ d.length)
    {r : List String × List UInt8 × ℕ} (h : decodeHeader d (flagsOf d) = .ok r) :
    r.2.2 = schemaEnd d ∧ 32 ≤ schemaEnd d ∧ schemaEnd d ≤ d.length := by
  obtain ⟨keys, sigils, e⟩ := r
  rw [decodeHeader] at h
  by_cases hv13 : Flagged d FLAG_V13_COMPACT_MASK
  · rw [if_pos hv13] at h
    obtain ⟨⟨ext, stop⟩, hext, h⟩ := bind_eq_ok.mp h
    cases h
    have hend : schemaEnd d = e := by
      rw [schemaEnd, if_pos hv13, hext]
    rw [hend]
    exact ⟨rfl, parseExtendedSchema_end hext⟩
  · rw [if_neg hv13] at h
    obtain ⟨-, hkc, names, stop, hnames, -, hle, -, -, rfl⟩ := (decodeBasicSchema_eq_ok hd h34).mp h
    have hend : schemaEnd d = align8 stop := by
      rw [schemaEnd, if_neg hv13, hnames]
      rfl
    have hstop := rawNames_le hnames
    have halign := le_align8 stop
    rw [hend]
    exact ⟨rfl, by omega, hle⟩

/-- The embedded schema is taken with its hash; a file without one has no keys. -/
theorem decodeSchema_isOk {d : Bytes} (hd : d.length < 2 ^ 63) :
    (∃ keys sigils, decodeSchema d (flagsOf d) (word d 8 8) = .ok (keys, sigils, dataSectorStart d)) ↔
      (Flagged d FLAG_SCHEMA_EMBEDDED → 34 ≤ d.length →
        (Flagged d FLAG_V13_COMPACT_MASK → (parseExtendedSchema d 32 (flagsOf d)).isOk = true) ∧
        (¬ Flagged d FLAG_V13_COMPACT_MASK → (34 + keyCount d ≤ d.length ∧ (schemaNames d).isSome = true) ∧
          keyCount d ≤ 256 ∧ (∀ r ∈ schemaNames d, ∀ name ∈ r.1, name.length ≤ 257) ∧ schemaEnd d ≤ d.length) ∧
        (murmur3_64 ((d.drop 32).take (schemaEnd d - 32))).toNat = word d 8 8) := by
  rw [decodeSchema, dataSectorStart]
  by_cases hemb : hasFlag (flagsOf d) FLAG_SCHEMA_EMBEDDED = true ∧ 32 + 2 ≤ d.length
  · rw [if_pos hemb, if_pos hemb]
    constructor
    · rintro ⟨keys, sigils, h⟩ - -
      obtain ⟨⟨keys', sigils', stop⟩, hheader, h1⟩ := bind_eq_ok.mp h
      obtain ⟨hstop, h32, hle⟩ := decodeHeader_end hd hemb.2 hheader
      obtain ⟨_, -, h2⟩ := bind_eq_ok.mp h1
      obtain ⟨schema, hschema, h3⟩ := bind_eq_ok.mp h2
      obtain ⟨_, hhash, h4⟩ := bind_eq_ok.mp h3
      cases h4
      rw [ensure_eq_ok] at hhash
      rw [range_of h32 hle, ok.injEq] at hschema
      have hboth := (decodeHeader_eq_ok hd hemb.2).mp ⟨_, _, hheader⟩
      exact ⟨hboth.1, hboth.2, by rw [hschema]; exact hhash⟩
    · intro h
      obtain ⟨hcompact, hbasic, hhash⟩ := h hemb.1 hemb.2
      obtain ⟨keys, sigils, hheader⟩ := (decodeHeader_eq_ok hd hemb.2).mpr ⟨hcompact, hbasic⟩
      obtain ⟨-, h32, hle⟩ := decodeHeader_end hd hemb.2 hheader
      rw [hheader, ok_bind]
      dsimp only
      rw [ensure_of (by omega), ok_bind, range_of h32 hle, ok_bind, ensure_of hhash, ok_bind]
      exact ⟨keys, sigils, rfl⟩
  · rw [if_neg hemb, if_neg hemb]
    exact ⟨fun _ he hl => absurd ⟨he, hl⟩ hemb, fun _ => ⟨_, _, rfl⟩⟩

theorem decodeSchema_start {d : Bytes} (hd : d.length < 2 ^ 63) {r : List String × List UInt8 × ℕ}
    (h : decodeSchema d (flagsOf d) (word d 8 8) = .ok r) : r.2.2 = dataSectorStart d := by
  rw [decodeSchema] at h
  rw [dataSectorStart]
  by_cases hemb : hasFlag (flagsOf d) FLAG_SCHEMA_EMBEDDED = true ∧ 32 + 2 ≤ d.length
  · rw [if_pos hemb] at h ⊢
    obtain ⟨⟨keys, sigils, stop⟩, hheader, h1⟩ := bind_eq_ok.mp h
    obtain ⟨_, -, h2⟩ := bind_eq_ok.mp h1
    obtain ⟨_, -, h3⟩ := bind_eq_ok.mp h2
    obtain ⟨_, -, h4⟩ := bind_eq_ok.mp h3
    cases h4
    exact (decodeHeader_end hd hemb.2 hheader).1
  · rw [if_neg hemb] at h ⊢
    cases h
    rfl

theorem checkPageMagic_eq_ok {d : Bytes} (hd : d.length < 2 ^ 63) (hsize : 32 ≤ d.length) {start : ℕ}
    (hstart : start ≤ d.length) {u : Unit} : checkPageMagic d (flagsOf d) start = .ok u ↔
      (Flagged d FLAG_PAX → start + 4 ≤ d.length ∧ word d start 4 = MAGIC_PAGE) := by
  rw [checkPageMagic]
  by_cases hpax : Flagged d FLAG_PAX
  · rw [if_pos hpax, usizeAdd_of (by omega), ok_bind]
    by_cases hroom : start + 4 ≤ d.length
    · rw [ensure_of (by omega), ok_bind, readLE_word hroom hd, ok_bind, ensure_eq_ok]
      exact ⟨fun h _ => ⟨hroom, h⟩, fun h => (h hpax).2⟩
    · rw [ensure_not (by omega), err_bind]
      constructor
      · intro h
        cases h
      · intro h
        exact absurd (h hpax).1 hroom
  · rw [if_neg hpax]
    exact ⟨fun _ h => absurd h hpax, fun _ => rfl⟩

/-- A first object that cannot be decoded is no error. -/
theorem decodeRoot_isOk {d : Bytes} (hd : d.length < 2 ^ 63) (start : ℕ) (keys : List String) (sigils : List UInt8) :
    ∃ fields, decodeRoot d (flagsOf d) start keys sigils = .ok fields := by
  rw [decodeRoot]
  split
  · rename_i h
    exact orEmpty_of_safe (safe_decodeObject hd keys sigils (Nat.le_of_lt h.2))
  · exact ⟨[], rfl⟩

/-- `decode` accepts what passes the shared checks and its own. -/
theorem decode_isOk_iff (file : Slice) :
    (decode file).isOk = true ↔ SharedChecks file.bytes ∧ DecoderChecks file.bytes := by
  have hd := file.small
  rw [decode]
  dsimp only
  by_cases hsize : 32 ≤ file.bytes.length
  swap
  · rw [ensure_not (by omega), err_bind]
    exact ⟨fun h => (Bool.false_ne_true h).elim, fun h => absurd h.1.size hsize⟩
  rw [ensure_of (by omega), ok_bind, readLE_word (by omega) hd, ok_bind, isOk_ensure_bind,
    usizeSub_of (by omega), ok_bind, readLE_word (by omega) hd, ok_bind, isOk_ensure_bind,
    readLE_word (by omega) hd, ok_bind, readLE_word (by omega) hd, ok_bind,
    show word file.bytes 6 2 = flagsOf file.bytes from rfl, isOk_ensure_bind,
    readLE_word (by omega) hd, ok_bind, readLE_word (by omega) hd, ok_bind, isOk_ensure_bind]
  generalize file.bytes = d at *
  constructor
  · rintro ⟨hmagic, hfooter, hlayout, hptr, h⟩
    obtain ⟨t, ht, h⟩ := isOk_bind.mp h
    obtain ⟨⟨keys, sigils, start⟩, hschema, h⟩ := isOk_bind.mp h
    obtain ⟨_, hpage, h⟩ := isOk_bind.mp h
    obtain ⟨fields, -, h⟩ := isOk_bind.mp h
    obtain ⟨tail, htail, -⟩ := isOk_bind.mp h
    obtain ⟨h44, rfl⟩ := (decodeTailPtr_eq hd hsize).mp ht
    obtain rfl : start = dataSectorStart d := decodeSchema_start hd hschema
    have hschema' := (decodeSchema_isOk hd).mp ⟨keys, sigils, hschema⟩
    have htail' := (decodeTail_isOk hd hsize _).mp ⟨tail, htail⟩
    have hstart : dataSectorStart d ≤ d.length := by
      rcases (safe_decodeSchema hd _ _).post hschema with hle | heq
      · exact hle
      · exact (Nat.le_of_eq heq).trans hsize
    refine ⟨⟨hsize, hmagic, hfooter, hlayout, fun he hl => (hschema' he hl).1,
        fun he hl hn => ((hschema' he hl).2.1 hn).1, h44, fun hrow hdelta => ?_⟩,
      ⟨fun hcol hz => hptr ⟨hcol, hz⟩, fun he hl hn => ((hschema' he hl).2.1 hn).2,
        fun he hl => (hschema' he hl).2.2, (checkPageMagic_eq_ok hd hsize hstart).mp hpage⟩⟩
    have hdeltaTail := htail' hrow hdelta
    rwa [if_pos hrow] at hdeltaTail
  · rintro ⟨hs, hc⟩
    refine ⟨hs.magic, hs.footer, hs.layout, fun h => hc.tailPtr h.1 h.2, ?_⟩
    obtain ⟨keys, sigils, hschema⟩ := (decodeSchema_isOk hd).mpr fun he hl =>
      ⟨hs.compactSchema he hl, fun hn => ⟨hs.basicSchema he hl hn, hc.limits he hl hn⟩, hc.hash he hl⟩
    have hstart : dataSectorStart d ≤ d.length := by
      rcases (safe_decodeSchema hd _ _).post hschema with hle | heq
      · exact hle
      · exact (Nat.le_of_eq heq).trans hsize
    obtain ⟨fields, hfields⟩ := decodeRoot_isOk hd (dataSectorStart d) keys sigils
    obtain ⟨tail, htail⟩ := (decodeTail_isOk hd hsize
      (if RowLayout d then rowTailPtr d else word d (d.length - footerSize (flagsOf d)) 8)).mpr fun hrow hdelta => by
        rw [if_pos hrow]
        exact hs.deltaTail hrow hdelta
    rw [(decodeTailPtr_eq hd hsize).mpr ⟨hs.footerTail, rfl⟩, ok_bind, hschema, ok_bind]
    dsimp only
    rw [(checkPageMagic_eq_ok (u := ()) hd hsize hstart).mpr hc.page, ok_bind, hfields, ok_bind, htail, ok_bind]
    rfl

/-! ## Where the readers agree -/

/-- The embedded schema is not the one that the hash of the preamble was taken of. -/
def HashMismatch (d : Bytes) : Prop :=
  Flagged d FLAG_SCHEMA_EMBEDDED ∧ 34 ≤ d.length ∧
    (murmur3_64 ((d.drop 32).take (schemaEnd d - 32))).toNat ≠ word d 8 8

/-- Neither reader takes `file` for one. -/
def Rejected (file : Slice) : Prop := (Reader.new file).isOk = false ∧ (decode file).isOk = false

/-- The readers agree about `file`, and neither of them takes a schema with a wrong hash, a columnar file
without a tail pointer in its preamble, or flags that exclude one another. -/
structure ReadersAgree (file : Slice) : Prop where
  agree : (Reader.new file).isOk = true ↔ (decode file).isOk = true
  hash : HashMismatch file.bytes → Rejected file
  tailPtr : Flagged file.bytes FLAG_COLUMNAR → word file.bytes 16 8 = 0 → Rejected file
  flags : (validatePreambleFlags (flagsOf file.bytes)).isOk = false → Rejected file

/-- Where the readers agree, one of them rejecting a file is enough. -/
theorem rejected_of_decode {file : Slice} (hagree : (Reader.new file).isOk = true ↔ (decode file).isOk = true)
    (h : ¬ DecoderChecks file.bytes) : Rejected file := by
  have hdec : ¬ (decode file).isOk = true := fun hok => h ((decode_isOk_iff file).mp hok).2
  exact ⟨Bool.eq_false_iff.mpr fun hok => hdec (hagree.mp hok), Bool.eq_false_iff.mpr hdec⟩

theorem rejected_of_reader {file : Slice} (hagree : (Reader.new file).isOk = true ↔ (decode file).isOk = true)
    (h : ¬ (SharedChecks file.bytes ∧ ReaderChecks file.bytes)) : Rejected file := by
  have hreader : ¬ (Reader.new file).isOk = true := fun hok => h ((reader_isOk_iff file).mp hok)
  exact ⟨Bool.eq_false_iff.mpr hreader, Bool.eq_false_iff.mpr fun hok => hreader (hagree.mpr hok)⟩

/-- The readers agree about a byte string when it fails a check that both make, or when the checks that
only one of them makes turn out the same. -/
theorem readers_agree_iff (file : Slice) : ReadersAgree file ↔
    (SharedChecks file.bytes → (ReaderChecks file.bytes ↔ DecoderChecks file.bytes)) := by
  have hiff : ((Reader.new file).isOk = true ↔ (decode file).isOk = true) ↔
      (SharedChecks file.bytes → (ReaderChecks file.bytes ↔ DecoderChecks file.bytes)) := by
    rw [reader_isOk_iff, decode_isOk_iff]
    exact and_congr_right_iff
  constructor
  · intro h
    exact hiff.mp h.agree
  · intro h
    have hagree := hiff.mpr h
    refine ⟨hagree, fun hhash => ?_, fun hcol hzero => ?_, fun hflags => ?_⟩
    · exact rejected_of_decode hagree fun hchecks => hhash.2.2 (hchecks.hash hhash.1 hhash.2.1)
    · exact rejected_of_decode hagree fun hchecks => hchecks.tailPtr hcol hzero
    · refine rejected_of_reader hagree fun ⟨hs, hr⟩ => ?_
      rw [(validatePreambleFlags_isOk file.bytes).mpr ⟨hs.layout, hr.embedded, hr.compact⟩] at hflags
      cases hflags

/-- The bytes of a file with the key `a` and no records, whose preamble holds 0 for the hash. -/
def zeroHashFile : Slice where
  bytes := preamble VERSION FLAG_SCHEMA_EMBEDDED 0 40 ++ buildSchema ["a"] [SIGIL_INT] ++
    leBytes 4 0 ++ leBytes 8 40 ++ leBytes 4 MAGIC_FOOTER
  small := by decide +kernel

/-- `Reader.new` does not look at the hash. -/
theorem readers_agree_not_hash : ¬ ReadersAgree zeroHashFile := by
  intro h
  have hdecode : (decode zeroHashFile).isOk = false := by decide +kernel
  have hreader : (Reader.new zeroHashFile).isOk = true := by decide +kernel
  rw [h.agree.mp hreader] at hdecode
  cases hdecode

end Nyxis
