import Nyxis.Reader

/-!
# Query — the other calls of a reader

Paths, keywords, whole columns, and the records that a predicate selects.  A predicate reads its field on
its own, not through the getters of a record.
-/

namespace Nyxis

open Lib Lib.Outcome

/-- `dot_path.split('.')`. -/
def splitDots (path : String) : List String := (path.toList.splitOn '.').map String.ofList

/-- `x.unwrap_or(a)`. -/
def unwrapOr {α : Type} (x : Opt α) (a : α) : Opt α :=
  match x with
  | .ok b => .ok b
  | .err _ => .ok a
  | .panic => .panic

/-- An `Option` as a value. -/
def orNone {α : Type} (x : Opt α) : Opt (Option α) := unwrapOr (some <$> x) none

namespace Reader

variable (r : Reader)

/-! ## Paths -/

/-- `walk_path` from the object at `obj` on: the position of the last part of a path. -/
def walkPath : List String → ℕ → Opt ℕ
  | [], _ => none'
  | [part], obj => do
    let slot ← r.slot part
    resolveSlot r.data obj slot
  | part :: next :: parts, obj => do
    let slot ← r.slot part
    let fieldOff ← resolveSlot r.data obj slot
    let magic ← getLE r.data fieldOff 4
    ensure (magic = MAGIC_OBJ) ()
    walkPath (next :: parts) fieldOff

def getI64Path (offset : ℕ) (path : String) : Opt Int64 := do
  let off ← r.walkPath (splitDots path) offset
  i64Of <$> getLE r.data off 8

def getF64Path (offset : ℕ) (path : String) : Opt F64 := do
  let off ← r.walkPath (splitDots path) offset
  f64Of <$> getLE r.data off 8

def getBoolPath (offset : ℕ) (path : String) : Opt Bool := do
  let off ← r.walkPath (splitDots path) offset
  let b ← get r.data off
  .ok (b != 0)

def getStrPath (offset : ℕ) (path : String) : Opt String := do
  let off ← r.walkPath (splitDots path) offset
  let len ← getLE r.data off 4
  r.inlineStr off 4 len

/-! ## Keywords -/

/-- `materialise_keyword` of the keyword or promoted string at slot `s`. -/
def materialiseKeyword (ext : ExtendedSchema) (s idx : ℕ) : Opt String :=
  if ext.sigil s = SIGIL_KEYWORD ∨ ext.isPromoted s then .ofOption ext.valuePool[idx]? else none'

def getKeyword (key : String) (i : ℕ) : Opt String := do
  let s ← r.slot key
  let ext ← .ofOption r.extSchema
  let sig ← r.keySigil s
  ensure (¬ (sig ≠ SIGIL_KEYWORD ∧ ¬ ext.isPromoted s)) ()
  let rec_ ← r.record i
  let off ← r.resolve rec_ s
  let idx ← getLE r.data off 2
  materialiseKeyword ext s idx

/-! ## Columns -/

/-- The sigil of a slot, 0 where there is none. -/
def sigilOr0 (s : ℕ) : UInt8 := r.keySigils.getD s 0

def colBuffer (key : String) : Opt Bytes := do
  ensure (r.layout = .columnar) ()
  let s ← r.slot key
  ensure (¬ isVarSigil (r.sigilOr0 s)) ()
  let (_, vals) ← (r.colFieldParts s).toOpt
  .ok vals

structure VarColumnView where
  nullBitmap : Bytes
  offsets : Bytes
  values : Bytes
  recordCount : ℕ

def colVarBuffer (key : String) : Res VarColumnView := do
  ensure (r.layout = .columnar) .unsupportedFieldType
  let s ← okOr (r.slot key) .outOfBounds
  ensure (isVarSigil (r.sigilOr0 s)) .unsupportedFieldType
  let (bm, offsets, values) ← r.colFieldVarParts s
  .ok ⟨bm, offsets, values, r.recordCount⟩

/-- The first byte of each page of a sector, as `prefetch_column` touches them. -/
def touchPages (sector : Bytes) : Res (List UInt8) :=
  (List.range ((sector.length + 4095) / 4096)).mapM fun page => index sector (page * 4096)

/-- `prefetch_column`; a column that is `warmed` is not touched again. -/
def prefetchColumn (warmed : Bool) (key : String) : Res (List UInt8) := do
  ensure (r.layout = .columnar) .unsupportedLayout
  let s ← okOr (r.slot key) (.parseError s!"key not found: {key}")
  let sector ← r.colSector s
  if warmed then .ok [] else touchPages sector

/-! ## Predicates -/

end Reader

/-- The predicates of the crate. -/
inductive Predicate where
  | alwaysTrue
  | eqBool (key : String) (value : Bool)
  | eqStr (key value : String)
  | eqI64 (key : String) (value : Int64)
  | eqF64 (key : String) (value : F64)
  | gtF64 (key : String) (value : F64)
  | gtI64 (key : String) (value : Int64)
  | ltF64 (key : String) (value : F64)
  | ltI64 (key : String) (value : Int64)
  | and (a b : Predicate)
  | or (a b : Predicate)
  | not (a : Predicate)

namespace Reader

variable (r : Reader)

/-- Whether the first `w` bytes of a fixed-width field pass a test. -/
def testWord (w : ℕ) (key : String) (off : ℕ) (passes : ℕ → Bool) : Opt Bool :=
  unwrapOr (do
    let s ← r.slot key
    match r.layout with
    | .columnar => do
      ensure (¬ isVarSigil (r.sigilOr0 s)) ()
      let (bm, vals) ← (r.colFieldParts s).toOpt
      let set ← bitAt bm off
      ensure (set = true) ()
      let o ← usizeMul off 8
      passes <$> getLE vals o w
    | .pax => passes <$> r.paxGetWord w off s
    | .row => do
      let foff ← resolveSlot r.data off s
      passes <$> getLE r.data foff w) false

/-- Whether a string field has a value.  The column of a columnar file is not asked for its sigil. -/
def testStr (key : String) (off : ℕ) (value : String) : Opt Bool :=
  unwrapOr (do
    let s ← r.slot key
    match r.layout with
    | .columnar => do
      let (bm, offsets, values) ← (r.colFieldVarParts s).toOpt
      let set ← bitAt bm off
      ensure (set = true) ()
      (· == value) <$> varStrAt offsets values off
    | .pax => (· == value) <$> r.paxGetStr off s
    | .row => do
      let foff ← resolveSlot r.data off s
      let len ← getLE r.data foff 4
      (· == value) <$> r.inlineStr foff 4 len) false

end Reader

/-- `test` of the predicates, on the record that `off` identifies. -/
def Predicate.test (r : Reader) (off : ℕ) : Predicate → Opt Bool
  | .alwaysTrue => .ok true
  | .eqBool key value => r.testWord 1 key off fun n => (n != 0) == value
  | .eqStr key value => r.testStr key off value
  | .eqI64 key value => r.testWord 8 key off fun n => i64Of n == value
  | .eqF64 key value => r.testWord 8 key off fun n => (f64Of n).eq value
  | .gtF64 key value => r.testWord 8 key off fun n => value.lt (f64Of n)
  | .gtI64 key value => r.testWord 8 key off fun n => decide (value < i64Of n)
  | .ltF64 key value => r.testWord 8 key off fun n => (f64Of n).lt value
  | .ltI64 key value => r.testWord 8 key off fun n => decide (i64Of n < value)
  | .and a b => do
    let x ← a.test r off
    if x then b.test r off else .ok false
  | .or a b => do
    let x ← a.test r off
    if x then .ok true else b.test r off
  | .not a => do
    let x ← a.test r off
    .ok !x

namespace Reader

variable (r : Reader)

/-- Where record `i` is, for a reader of all records. -/
def recordAt (i : ℕ) : Opt ℕ := if r.layout = .row then r.rowRecordOffset i else .ok i

/-- The records that `Records` yields from index `i` on, of which there are `n`; a record that is not found
ends it. -/
def selectFrom (p : Predicate) : ℕ → ℕ → Opt (List ℕ)
  | 0, _ => .ok []
  | n + 1, i =>
    match r.recordAt i with
    | .ok off => do
      let hit ← p.test r off
      let rest ← selectFrom p n (i + 1)
      .ok (if hit then off :: rest else rest)
    | .err _ => .ok []
    | .panic => .panic

/-- `where_pred`, iterated to its end; `all` is that of `AlwaysTrue`. -/
def select (p : Predicate) : Opt (List ℕ) := r.selectFrom p r.recordCount 0

/-! ## Sums -/

/-- Every bit of the first `n` is set. -/
def nullBitmapDense (bm : Bytes) (n : ℕ) : Opt Bool :=
  if n = 0 then .ok true
  else do
    let n7 ← usizeAdd n 7
    if bm.length < n7 / 8 then .ok false
    else do
      let full ← range bm 0 (n / 8)
      if full.any (· != 0xFF) then .ok false
      else if n % 8 = 0 then .ok true
      else do
        let b ← index bm (n / 8)
        .ok ((List.range (n % 8)).all fun j => b.toNat.testBit j)

/-- A cell of a sparse column, where it is populated. -/
def sparseTerm (vals bm : Bytes) (i : ℕ) : Opt (Option F64) := do
  let set ← bitAt bm i
  if set then do
    let o ← usizeMul i 8
    orNone (f64Of <$> getLE vals o 8)
  else .ok none

/-- The numbers that `sum_f64_column` adds up.  The cells of a dense column are loaded without a check. -/
def sumTerms (vals bm : Bytes) (n : ℕ) : Opt (List F64) := do
  let dense ← nullBitmapDense bm n
  if dense && decide (min (n * 8) (2 ^ 64 - 1) ≤ vals.length) then -- `saturating_mul`
    (List.range n).mapM fun i => f64Of <$> readLE vals (i * 8) 8
  else (List.range n).filterMapM (sparseTerm vals bm)

/-- The numbers that `col_sum_f64` adds up. -/
def colSumTerms (key : String) : Opt (List F64) := do
  let s ← r.slot key
  match r.layout with
  | .row => do
    let offs ← r.select .alwaysTrue
    let terms ← offs.filterMapM fun off => orNone (r.getF64 off key)
    ensure (terms ≠ []) ()
    .ok terms
  | .columnar => do
    let (bm, vals) ← (r.colFieldParts s).toOpt
    sumTerms vals bm r.recordCount
  | .pax => (List.range r.recordCount).filterMapM fun i => orNone (r.paxGetF64 i s)

end Reader

end Nyxis
