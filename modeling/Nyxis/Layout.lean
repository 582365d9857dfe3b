import Nyxis.Reader

/-!
# Layout — the columnar and PAX writers

`finishColumnar` writes one sector per column behind the schema and a table of the sectors;
`finishPax` cuts the rows into pages of at most `page_size` records (`paxLoop`), each with its own
column sectors (`encodePage`), and writes a tail-index of the pages.
-/

namespace Nyxis

open Lib Lib.Outcome

/-- The sigil of a column: that of its first cell that is not absent. -/
def columnSigil : List Cell → UInt8
  | [] => SIGIL_INT
  | c :: cells => if c ≠ .absent then c.sigil else columnSigil cells

def sigilsForKeys (keys : List String) (rows : List RecordRow) : List UInt8 :=
  (List.range keys.length).map fun fi => columnSigil (column rows fi)

/-- The 32 bytes in front of the schema. -/
def preamble (version flags : ℕ) (dictHash : UInt64) (tailPtr : ℕ) : Bytes :=
  leBytes 4 MAGIC_FILE ++ leBytes 2 version ++ leBytes 2 flags ++ leBytes 8 dictHash.toNat ++
    leBytes 8 tailPtr ++ leBytes 8 0

/-- The encoded columns of `fieldCount` fields. -/
def encodeColumns (fieldCount : ℕ) (sigils : List UInt8) (rows : List RecordRow) : Res (List Bytes) :=
  (List.range fieldCount).mapM fun fi =>
    encodeFieldColumn (column rows fi) (sigils.getD fi SIGIL_INT)

/-! ## Columnar files -/

/-- Field, offset and length of each column, the first of them at `off`. -/
def columnEntries : ℕ → ℕ → List Bytes → List (ℕ × ℕ × ℕ)
  | _, _, [] => []
  | fi, off, col :: cols => (fi, off, col.length) :: columnEntries (fi + 1) (off + col.length) cols

/-- The 20 bytes of a column's entry. -/
def columnEntryBytes (e : ℕ × ℕ × ℕ) : Bytes :=
  leBytes 2 e.1 ++ leBytes 2 0 ++ leBytes 8 e.2.1 ++ leBytes 8 e.2.2

def finishColumnar (keys : List String) (rows : List RecordRow) : Res Slice := do
  let n := rows.length
  let sigils := sigilsForKeys keys rows
  let schemaBytes := buildSchema keys sigils
  let dictHash := murmur3_64 schemaBytes
  let cols ← encodeColumns keys.length sigils rows
  let tailIndexOffset := 32 + schemaBytes.length + cols.flatten.length
  let tail := (columnEntries 0 (32 + schemaBytes.length) cols).flatMap columnEntryBytes ++
    leBytes 8 tailIndexOffset ++ leBytes 8 n ++ leBytes 4 MAGIC_FOOTER
  let flags := FLAG_SCHEMA_EMBEDDED ||| FLAG_COLUMNAR
  Slice.ofBytes (preamble VERSION flags dictHash tailIndexOffset ++ schemaBytes ++ cols.flatten ++ tail)

/-! ## PAX files -/

def encodePage (pageIndex recordStart recordCount fieldCount : ℕ) (sigils : List UInt8)
    (rows : List RecordRow) : Res Bytes := do
  let cols ← encodeColumns fieldCount sigils rows
  let pageLen := 24 + cols.flatten.length + 4
  .ok (padTo 8 (leBytes 4 MAGIC_PAGE ++ leBytes 4 pageIndex ++ leBytes 8 recordStart ++
    leBytes 4 recordCount ++ leBytes 2 fieldCount ++ leBytes 2 0 ++ cols.flatten ++ leBytes 4 pageLen))

/-- Metadata of one written page. -/
structure PaxPageMeta where
  pageIndex : ℕ
  recordStart : ℕ
  recordCount : ℕ
  pageOffset : ℕ
  pageLength : ℕ
  deriving DecidableEq, Repr

/-- What a PAX writer has written so far. -/
structure PaxPages where
  data : Bytes
  pages : List PaxPageMeta
  nextPageIndex : ℕ
  nextRecordStart : ℕ
  deriving DecidableEq, Repr

def PaxPages.empty : PaxPages := ⟨[], [], 0, 0⟩

/-- Emit `rows` as the next page of a file whose data sector starts at `base`. -/
def emitPage (base fieldCount : ℕ) (sigils : List UInt8) (st : PaxPages) (rows : List RecordRow) :
    Res PaxPages := do
  let count := rows.length % 2 ^ 32
  let pageOff := base + st.data.length
  let page ← encodePage st.nextPageIndex st.nextRecordStart count fieldCount sigils rows
  let entry := ⟨st.nextPageIndex, st.nextRecordStart, count, pageOff, page.length % 2 ^ 32⟩
  let nextPageIndex ← u32Add st.nextPageIndex 1
  .ok ⟨st.data ++ page, st.pages ++ [entry], nextPageIndex, st.nextRecordStart + count⟩

/-- The 28 bytes of a page's tail-index entry. -/
def pageEntryBytes (p : PaxPageMeta) : Bytes :=
  leBytes 4 p.pageIndex ++ leBytes 8 p.recordStart ++ leBytes 4 p.recordCount ++
    leBytes 8 p.pageOffset ++ leBytes 4 p.pageLength

def buildPaxTail (pages : List PaxPageMeta) (tailIndexOffset recordCount pageSize : ℕ) : Bytes :=
  pages.flatMap pageEntryBytes ++ leBytes 8 tailIndexOffset ++ leBytes 8 recordCount ++
    leBytes 4 pages.length ++ leBytes 4 pageSize ++ leBytes 4 MAGIC_FOOTER

/-- Preamble, schema, pages and tail-index of a sealed PAX file. -/
def sealPax (schemaBytes : Bytes) (dictHash : UInt64) (st : PaxPages) (recordCount pageSize : ℕ) :
    Bytes :=
  let tailIndexOffset := 32 + schemaBytes.length + st.data.length
  preamble VERSION (FLAG_SCHEMA_EMBEDDED ||| FLAG_PAX) dictHash tailIndexOffset ++ schemaBytes ++
    st.data ++ buildPaxTail st.pages tailIndexOffset recordCount pageSize

/-- The page loop of `finish_pax` over the rows that are left.  The row count of a page is cast to
`u32`: when it wraps to 0 the loop stops advancing, and ends when the page index overflows. -/
def paxLoop (base fieldCount : ℕ) (sigils : List UInt8) (pageSize : ℕ) :
    ℕ → List RecordRow → PaxPages → Res PaxPages
  | _, [], st => .ok st
  | 0, _ :: _, _ => .panic
  | fuel + 1, row :: rest, st => do
    let rows := row :: rest
    let count := min (rows.length % 2 ^ 32) pageSize
    let st ← emitPage base fieldCount sigils st (rows.take count)
    paxLoop base fieldCount sigils pageSize fuel (rows.drop count) st

def finishPax (keys : List String) (rows : List RecordRow) (pageSize : UInt32) : Res Slice := do
  ensure (pageSize ≠ 0) (.parseError "page_size must be > 0")
  let sigils := sigilsForKeys keys rows
  let schemaBytes := buildSchema keys sigils
  let dictHash := murmur3_64 schemaBytes
  let base := 32 + schemaBytes.length
  let st ← paxLoop base keys.length sigils pageSize.toNat rows.length rows PaxPages.empty
  Slice.ofBytes (sealPax schemaBytes dictHash st rows.length pageSize.toNat)

end Nyxis
