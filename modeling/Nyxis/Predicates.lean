import Nyxis.Lib.Scan
import Nyxis.Query
import Nyxis.ReaderSafe

/-!
# Predicates — what a query selects

A predicate says something about the fields of a record (`Predicate.holds`): a comparison with a field that
the record does not have is false.  The reader evaluates it in place, without the getters.

* `Predicate.test_eq`: outside the compact encoding the evaluation in place is the one by the getters.
* `Reader.selectFrom_eq_scan`: a query is a cursor over the records.
-/

namespace Nyxis

open Lib Lib.Outcome

/-! ## The meaning of a predicate -/

/-- A value for each key, by its type. -/
structure Fields (f : Type → Type) where
  i64 : String → f Int64
  f64 : String → f F64
  bool : String → f Bool
  str : String → f String

/-- The type that a comparison reads its field as. -/
inductive FieldType where
  | i64
  | f64
  | bool
  | str
  deriving DecidableEq, Repr

namespace Predicate

/-- The meaning of a predicate on a record with these fields. -/
def holds (a : Fields Option) : Predicate → Bool
  | .alwaysTrue => true
  | .eqBool key value => (a.bool key).any (· == value)
  | .eqStr key value => (a.str key).any (· == value)
  | .eqI64 key value => (a.i64 key).any (· == value)
  | .eqF64 key value => (a.f64 key).any fun x => x.eq value
  | .gtF64 key value => (a.f64 key).any fun x => value.lt x
  | .gtI64 key value => (a.i64 key).any fun n => decide (value < n)
  | .ltF64 key value => (a.f64 key).any fun x => x.lt value
  | .ltI64 key value => (a.i64 key).any fun n => decide (n < value)
  | .and p q => p.holds a && q.holds a
  | .or p q => p.holds a || q.holds a
  | .not p => !p.holds a

/-- The fields that a predicate reads, with their types. -/
def leaves : Predicate → List (FieldType × String)
  | .alwaysTrue => []
  | .eqBool key _ => [(.bool, key)]
  | .eqStr key _ => [(.str, key)]
  | .eqI64 key _ | .gtI64 key _ | .ltI64 key _ => [(.i64, key)]
  | .eqF64 key _ | .gtF64 key _ | .ltF64 key _ => [(.f64, key)]
  | .and p q | .or p q => p.leaves ++ q.leaves
  | .not p => p.leaves

/-- A predicate evaluated by getters; a comparison with a field that is not there is false. -/
def ask (g : Fields Opt) : Predicate → Opt Bool
  | .alwaysTrue => .ok true
  | .eqBool key value => unwrapOr ((· == value) <$> g.bool key) false
  | .eqStr key value => unwrapOr ((· == value) <$> g.str key) false
  | .eqI64 key value => unwrapOr ((· == value) <$> g.i64 key) false
  | .eqF64 key value => unwrapOr ((fun x => x.eq value) <$> g.f64 key) false
  | .gtF64 key value => unwrapOr ((fun x => value.lt x) <$> g.f64 key) false
  | .gtI64 key value => unwrapOr ((fun n => decide (value < n)) <$> g.i64 key) false
  | .ltF64 key value => unwrapOr ((fun x => x.lt value) <$> g.f64 key) false
  | .ltI64 key value => unwrapOr ((fun n => decide (n < value)) <$> g.i64 key) false
  | .and p q => do
    let x ← p.ask g
    if x then q.ask g else .ok false
  | .or p q => do
    let x ← p.ask g
    if x then .ok true else q.ask g
  | .not p => do
    let x ← p.ask g
    .ok !x

end Predicate

/-- The fields that getters return. -/
def Fields.values (g : Fields Opt) : Fields Option where
  i64 key := (g.i64 key).toOption
  f64 key := (g.f64 key).toOption
  bool key := (g.bool key).toOption
  str key := (g.str key).toOption

theorem unwrapOr_ofOption {α : Type} (f : α → Bool) (x : Option α) :
    unwrapOr (f <$> (ofOption x : Opt α)) false = .ok (x.any f) := by
  cases x <;> rfl

theorem unwrapOr_eq_ok {α : Type} {f : α → Bool} {x : Opt α} {hit : Bool} (h : unwrapOr (f <$> x) false = .ok hit) :
    hit = x.toOption.any f := by
  cases x with
  | ok a =>
    cases h
    rfl
  | err e =>
    cases h
    rfl
  | panic => cases h

theorem unwrapOr_ne_err {α : Type} (x : Opt α) (a : α) (e : Unit) : unwrapOr x a ≠ .err e := by
  cases x <;> exact fun h => by cases h

namespace Predicate

variable {g : Fields Opt}

/-- An evaluation that comes to a result is right on the fields that the getters return. -/
theorem ask_eq_ok : ∀ {p : Predicate} {hit : Bool}, p.ask g = .ok hit → hit = p.holds g.values
  | .alwaysTrue, hit, h => by
    cases h
    rfl
  | .eqBool .., hit, h | .eqStr .., hit, h | .eqI64 .., hit, h | .eqF64 .., hit, h | .gtF64 .., hit, h | .gtI64 .., hit, h
  | .ltF64 .., hit, h | .ltI64 .., hit, h => unwrapOr_eq_ok h
  | .and p q, hit, h => by
    rw [ask] at h
    obtain ⟨x, hx, h⟩ := bind_eq_ok.mp h
    rw [holds, ← ask_eq_ok hx]
    cases x with
    | true => exact ask_eq_ok h
    | false =>
      cases h
      rfl
  | .or p q, hit, h => by
    rw [ask] at h
    obtain ⟨x, hx, h⟩ := bind_eq_ok.mp h
    rw [holds, ← ask_eq_ok hx]
    cases x with
    | true =>
      cases h
      rfl
    | false => exact ask_eq_ok h
  | .not p, hit, h => by
    rw [ask] at h
    obtain ⟨x, hx, h⟩ := bind_eq_ok.mp h
    cases h
    rw [holds, ← ask_eq_ok hx]

end Predicate

/-! ## The evaluation in place -/

namespace Reader

variable {r : Reader}

/-- The getters of the record that `off` identifies. -/
def getters (r : Reader) (off : ℕ) : Fields Opt where
  i64 := r.getI64 off
  f64 := r.getF64 off
  bool := r.getBool off
  str := r.getStr off

/-- The first `w` bytes of a fixed-width field of a file that is not compact. -/
def fieldWord (r : Reader) (w : ℕ) (key : String) (off : ℕ) : Opt ℕ := do
  let s ← r.slot key
  match r.layout with
  | .columnar => r.colGetWord w s off
  | .pax => r.paxGetWord w off s
  | .row => do
    let p ← resolveSlot r.data off s
    getLE r.data p w

/-- Every slot has a sigil. -/
def Sigiled (r : Reader) : Prop := r.keySigils.length = r.keys.length

theorem slot_lt_keys {key : String} {s : ℕ} (h : r.slot key = .ok s) : s < r.keys.length := by
  rw [slot] at h
  split at h
  · rename_i hmem
    have hpos := List.length_pos_of_mem hmem
    cases h
    omega
  · cases h

theorem Sigiled.keySigil (hsig : r.Sigiled) {key : String} {s : ℕ} (h : r.slot key = .ok s) :
    r.keySigil s = .ok (r.sigilOr0 s) := by
  have hlt : s < r.keySigils.length := hsig ▸ slot_lt_keys h
  rw [Reader.keySigil, sigilOr0, List.getElem?_eq_getElem hlt, ofOption_some, List.getD_eq_getElem?_getD,
    List.getElem?_eq_getElem hlt, Option.getD_some]

theorem getI64_eq (hext : r.extSchema = none) (off : ℕ) (key : String) :
    r.getI64 off key = i64Of <$> r.fieldWord 8 key off := by
  rw [getI64, fieldWord]
  cases r.slot key with
  | err e => rfl
  | panic => rfl
  | ok s =>
    rw [ok_bind, ok_bind]
    cases r.layout with
    | columnar => rfl
    | pax => rfl
    | row =>
      dsimp only
      rw [rowGetI64, Reader.resolve, hext, map_bind]

theorem getF64_eq (hext : r.extSchema = none) (off : ℕ) (key : String) :
    r.getF64 off key = f64Of <$> r.fieldWord 8 key off := by
  rw [getF64, fieldWord]
  cases r.slot key with
  | err e => rfl
  | panic => rfl
  | ok s =>
    rw [ok_bind, ok_bind]
    cases r.layout with
    | columnar => rfl
    | pax => rfl
    | row =>
      dsimp only
      rw [rowGetF64, Reader.resolve, hext, map_bind]

/-- A byte as a word of one byte. -/
theorem getLE_one {d : Bytes} {p : ℕ} (h : p + 1 < 2 ^ 64) : getLE d p 1 = UInt8.toNat <$> Lib.get d p := by
  rw [getLE, usizeAdd_of h, ok_bind, Lib.get, getRange]
  by_cases hp : p < d.length
  · rw [if_pos ⟨Nat.le_succ p, hp⟩, List.getElem?_eq_getElem hp, ofOption_some, ok_bind, Nat.add_sub_cancel_left,
      List.drop_eq_getElem_cons hp, List.take_succ_cons, List.take_zero, leNat, leNat, map_ok]
    rfl
  · rw [if_neg fun h => hp h.2, List.getElem?_eq_none (not_lt.mp hp)]
    rfl

theorem getBool_eq (hext : r.extSchema = none) (hsmall : r.data.length < 2 ^ 63) (off : ℕ) (key : String) :
    r.getBool off key = (· != 0) <$> r.fieldWord 1 key off := by
  rw [getBool, fieldWord]
  cases r.slot key with
  | err e => rfl
  | panic => rfl
  | ok s =>
    rw [ok_bind, ok_bind]
    cases r.layout with
    | columnar => rfl
    | pax => rfl
    | row =>
      dsimp only
      rw [rowGetBool, hext]
      dsimp only
      rw [rowGetPlainBool, Reader.resolve, hext]
      dsimp only
      cases hres : resolveSlot r.data off s with
      | err e => rfl
      | panic => rfl
      | ok p =>
        have hp := (safe_resolveSlot r.data off s).post hres
        rw [ok_bind, ok_bind, getLE_one (by omega)]
        cases Lib.get r.data p with
        | err e => rfl
        | panic => rfl
        | ok b =>
          have hzero : (b != 0) = (b.toNat != 0) := by
            rw [Bool.eq_iff_iff, bne_iff_ne, bne_iff_ne, ne_eq, ne_eq, ← UInt8.toNat_inj, UInt8.toNat_zero]
          rw [ok_bind, map_ok, map_ok, hzero]

/-- A test of a word reads that of its field. -/
theorem testWord_eq (hsig : r.Sigiled) (w : ℕ) (key : String) (off : ℕ) (passes : ℕ → Bool) :
    r.testWord w key off passes = unwrapOr (passes <$> r.fieldWord w key off) false := by
  rw [testWord, fieldWord]
  cases hslot : r.slot key with
  | err e => rfl
  | panic => rfl
  | ok s =>
    rw [ok_bind, ok_bind]
    cases r.layout with
    | columnar =>
      dsimp only
      rw [colGetWord, hsig.keySigil hslot, ok_bind]
      simp only [map_bind]
    | pax => rfl
    | row =>
      dsimp only
      rw [map_bind]

theorem testStr_eq (hext : r.extSchema = none) {key : String}
    (htext : r.layout = .columnar → ∀ s, r.slot key = .ok s → r.keySigils[s]? = some SIGIL_STR) (off : ℕ) (value : String) :
    r.testStr key off value = unwrapOr ((· == value) <$> r.getStr off key) false := by
  rw [testStr, getStr]
  cases hslot : r.slot key with
  | err e => rfl
  | panic => rfl
  | ok s =>
    rw [ok_bind, ok_bind]
    cases hlayout : r.layout with
    | columnar =>
      dsimp only
      rw [colGetStr, ensure_of (htext hlayout s hslot), ok_bind]
      simp only [map_bind]
    | pax => rfl
    | row =>
      dsimp only
      rw [rowGetStr, Reader.resolve, hext]
      simp only [map_bind]

/-- The comparisons with a field come out as they do on the record with the fields `a`. -/
def Decides (r : Reader) (off : ℕ) (a : Fields Option) : FieldType × String → Prop
  | (.i64, key) => ∀ passes : Int64 → Bool, r.testWord 8 key off (fun n => passes (i64Of n)) = .ok ((a.i64 key).any passes)
  | (.f64, key) => ∀ passes : F64 → Bool, r.testWord 8 key off (fun n => passes (f64Of n)) = .ok ((a.f64 key).any passes)
  | (.bool, key) => ∀ passes : Bool → Bool, r.testWord 1 key off (fun n => passes (n != 0)) = .ok ((a.bool key).any passes)
  | (.str, key) => ∀ value, r.testStr key off value = .ok ((a.str key).any (· == value))

end Reader

namespace Predicate

variable {r : Reader}

/-- In a columnar file a predicate reads strings of string columns only. -/
def TextTyped (r : Reader) (p : Predicate) : Prop :=
  r.layout = .columnar → ∀ leaf ∈ p.leaves, leaf.1 = .str → ∀ s, r.slot leaf.2 = .ok s → r.keySigils[s]? = some SIGIL_STR

theorem TextTyped.of_subset {p q : Predicate} (h : q.TextTyped r) (hsub : p.leaves ⊆ q.leaves) : p.TextTyped r :=
  fun hlayout leaf hleaf => h hlayout leaf (hsub hleaf)

/-- Outside the compact encoding the evaluation in place is the one by the getters. -/
theorem test_eq (hext : r.extSchema = none) (hsmall : r.data.length < 2 ^ 63) (hsig : r.Sigiled) (off : ℕ) :
    ∀ {p : Predicate}, p.TextTyped r → p.test r off = p.ask (r.getters off)
  | .alwaysTrue, _ => rfl
  | .eqBool key value, _ => by
    rw [test, ask, Reader.testWord_eq hsig, show (r.getters off).bool key = r.getBool off key from rfl,
      Reader.getBool_eq hext hsmall, Functor.map_map]
  | .eqStr key value, h => by
    have htext := fun hlayout s hslot => h hlayout (.str, key) List.mem_cons_self rfl s hslot
    exact Reader.testStr_eq hext htext off value
  | .eqI64 key value, _ | .gtI64 key value, _ | .ltI64 key value, _ => by
    rw [test, ask, Reader.testWord_eq hsig, show (r.getters off).i64 key = r.getI64 off key from rfl,
      Reader.getI64_eq hext, Functor.map_map]
  | .eqF64 key value, _ | .gtF64 key value, _ | .ltF64 key value, _ => by
    rw [test, ask, Reader.testWord_eq hsig, show (r.getters off).f64 key = r.getF64 off key from rfl,
      Reader.getF64_eq hext, Functor.map_map]
  | .and p q, h => by
    rw [test, ask, test_eq hext hsmall hsig off (h.of_subset (List.subset_append_left _ _))]
    simp only [test_eq hext hsmall hsig off (h.of_subset (p := q) (List.subset_append_right _ _))]
  | .or p q, h => by
    rw [test, ask, test_eq hext hsmall hsig off (h.of_subset (List.subset_append_left _ _))]
    simp only [test_eq hext hsmall hsig off (h.of_subset (p := q) (List.subset_append_right _ _))]
  | .not p, h => by
    rw [test, ask, test_eq hext hsmall hsig off (p := p) h]

/-- A test whose comparisons are decided comes out as the predicate holds. -/
theorem test_of_decides {off : ℕ} {a : Fields Option} : ∀ {p : Predicate}, (∀ leaf ∈ p.leaves, r.Decides off a leaf) →
    p.test r off = .ok (p.holds a)
  | .alwaysTrue, _ => rfl
  | .eqBool key value, h => h (.bool, key) List.mem_cons_self (· == value)
  | .eqStr key value, h => h (.str, key) List.mem_cons_self value
  | .eqI64 key value, h => h (.i64, key) List.mem_cons_self (· == value)
  | .eqF64 key value, h => h (.f64, key) List.mem_cons_self fun x => x.eq value
  | .gtF64 key value, h => h (.f64, key) List.mem_cons_self fun x => value.lt x
  | .gtI64 key value, h => h (.i64, key) List.mem_cons_self fun n => decide (value < n)
  | .ltF64 key value, h => h (.f64, key) List.mem_cons_self fun x => x.lt value
  | .ltI64 key value, h => h (.i64, key) List.mem_cons_self fun n => decide (n < value)
  | .and p q, h => by
    rw [test, test_of_decides fun leaf hleaf => h leaf (List.mem_append_left _ hleaf), ok_bind, holds]
    cases p.holds a with
    | true => exact test_of_decides fun leaf hleaf => h leaf (List.mem_append_right _ hleaf)
    | false => rfl
  | .or p q, h => by
    rw [test, test_of_decides fun leaf hleaf => h leaf (List.mem_append_left _ hleaf), ok_bind, holds]
    cases p.holds a with
    | true => rfl
    | false => exact test_of_decides fun leaf hleaf => h leaf (List.mem_append_right _ hleaf)
  | .not p, h => by
    rw [test, test_of_decides (p := p) h, ok_bind, holds]

theorem test_ne_err (r : Reader) (off : ℕ) : ∀ (p : Predicate) (e : Unit), p.test r off ≠ .err e
  | .alwaysTrue, _ => fun h => by cases h
  | .eqBool .., e | .eqI64 .., e | .eqF64 .., e | .gtF64 .., e | .gtI64 .., e | .ltF64 .., e | .ltI64 .., e =>
    unwrapOr_ne_err _ _ e
  | .eqStr .., e => unwrapOr_ne_err _ _ e
  | .and p q, e => by
    rw [test]
    cases hx : p.test r off with
    | err e' => exact absurd hx (test_ne_err r off p e')
    | panic => exact fun h => by cases h
    | ok x =>
      cases x with
      | true => exact test_ne_err r off q e
      | false => exact fun h => by cases h
  | .or p q, e => by
    rw [test]
    cases hx : p.test r off with
    | err e' => exact absurd hx (test_ne_err r off p e')
    | panic => exact fun h => by cases h
    | ok x =>
      cases x with
      | true => exact fun h => by cases h
      | false => exact test_ne_err r off q e
  | .not p, e => by
    rw [test]
    cases hx : p.test r off with
    | err e' => exact absurd hx (test_ne_err r off p e')
    | panic => exact fun h => by cases h
    | ok x => exact fun h => by cases h

end Predicate

/-! ## The records that a query yields -/

namespace Reader

theorem selectFrom_eq_scan (r : Reader) (p : Predicate) : ∀ n i, r.selectFrom p n i = scan r.recordAt (p.test r) n i
  | 0, _ => rfl
  | n + 1, i => by
    rw [selectFrom, scan]
    cases r.recordAt i with
    | ok off =>
      dsimp only
      rw [selectFrom_eq_scan r p n (i + 1)]
    | err e => rfl
    | panic => rfl

variable {r : Reader}

theorem record_eq {i : ℕ} (h : i < r.recordCount) : r.record i = r.recordAt i := by
  rw [record, ensure_of (by omega), ok_bind]
  rfl

/-- The cursor of a query meets the records that `record` finds. -/
theorem located_record {offs : List ℕ} : Located r.recordAt r.recordCount 0 offs ↔ Located r.record r.recordCount 0 offs := by
  have heq : ∀ j < r.recordCount, r.recordAt (0 + j) = r.record (0 + j) := fun j hj => by
    rw [Nat.zero_add, record_eq hj]
  constructor
  · intro h
    refine ⟨h.le, fun j off hoff => ?_, fun hlt => heq _ hlt ▸ h.stop hlt⟩
    have hj := (List.getElem?_eq_some_iff.mp hoff).1
    rw [← heq j (lt_of_lt_of_le hj h.le)]
    exact h.found j off hoff
  · intro h
    refine ⟨h.le, fun j off hoff => ?_, fun hlt => (heq _ hlt).symm ▸ h.stop hlt⟩
    have hj := (List.getElem?_eq_some_iff.mp hoff).1
    rw [heq j (lt_of_lt_of_le hj h.le)]
    exact h.found j off hoff

end Reader

end Nyxis
