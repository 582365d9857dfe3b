import Nyxis.Lexer

/-!
# Parser — tokens as fields

`Parser.parseFile` reads the fields of a source.  An object counts one level of nesting, a list none.
-/

namespace Nyxis

open Lib Lib.Outcome

/-- The tokens that are left, and the objects that are open. -/
structure Parser where
  rest : List Token
  depth : ℕ

def MAX_DEPTH : ℕ := 64

/-- `sigil_name`. -/
def Value.sigilName : Value → String
  | .int _ => "int"
  | .float _ => "float"
  | .bool _ => "bool"
  | .keyword _ => "keyword"
  | .str _ => "str"
  | .time _ => "time"
  | .binary _ => "binary"
  | .link _ => "link"
  | .expr _ => "macro"
  | .null => "null"
  | .object _ => "object"
  | .list _ => "list"

/-- The value that a token alone is. -/
def Token.value : Token → Option Value
  | .int n => some (.int n)
  | .float f => some (.float f)
  | .bool b => some (.bool b)
  | .keyword s => some (.keyword s)
  | .str s => some (.str s)
  | .time ns => some (.time ns)
  | .binary raw => some (.binary raw)
  | .link off => some (.link off)
  | .expr s => some (.expr s)
  | .null => some .null
  | _ => none

namespace Parser

def new (tokens : List Token) : Parser := ⟨tokens, 0⟩

def peek (p : Parser) : Token := p.rest.headD .eof

def advance (p : Parser) : Parser := { p with rest := p.rest.tail }

section

-- the text of a token in an error, which its derived `Debug` makes
variable (debug : Token → String)

def expect (expected : Token) (p : Parser) : Res Parser :=
  if p.peek = expected then .ok p.advance
  else .err (.parseError s!"expected {debug expected}, got {debug p.peek}")

/-- One token if it is there. -/
def optional (t : Token) (p : Parser) : Parser := if p.peek = t then p.advance else p

/-- `parse_field`, its value read by `value`. -/
def parseField (value : Parser → Res (Value × Parser)) (p : Parser) : Res (Field × Parser) :=
  match p.peek with
  | .ident key => do
    let (v, p) ← value (p.advance.optional .colon)
    .ok (.mk key v, p)
  | other => .err (.parseError s!"expected field key, got {debug other}")

/-- The fields of an object up to its brace; the first argument bounds their number. -/
def objectLoop (value : Parser → Res (Value × Parser)) : ℕ → List Field → Parser → Res (List Field × Parser)
  | 0, _, _ => .panic
  | fuel + 1, fields, p =>
    if p.peek = .rBrace ∨ p.peek = .eof then .ok (fields, p)
    else do
      let (f, p) ← parseField debug value p
      objectLoop value fuel (fields ++ [f]) (p.optional .comma)

def parseObject (value : Parser → Res (Value × Parser)) (p : Parser) : Res (Value × Parser) := do
  let p := { p with depth := p.depth + 1 }
  ensure (¬ p.depth > MAX_DEPTH) .recursionLimit
  let p ← expect debug .lBrace p
  let (fields, p) ← objectLoop debug value (p.rest.length + 1) [] p
  let p ← expect debug .rBrace p
  .ok (.object fields, { p with depth := p.depth - 1 })

/-- The elements of a list up to its bracket, which have the kind `tag` of the first one. -/
def listLoop (value : Parser → Res (Value × Parser)) : ℕ → Option String → List Value → Parser → Res (List Value × Parser)
  | 0, _, _, _ => .panic
  | fuel + 1, tag, elems, p =>
    if p.peek = .rBracket ∨ p.peek = .eof then .ok (elems, p)
    else do
      let (v, p) ← value p
      ensure (tag.all (· == v.sigilName)) .listTypeMismatch
      listLoop value fuel (some v.sigilName) (elems ++ [v]) (p.optional .comma)

def parseList (value : Parser → Res (Value × Parser)) (p : Parser) : Res (Value × Parser) := do
  let p ← expect debug .lBracket p
  let (elems, p) ← listLoop value (p.rest.length + 1) none [] p
  let p ← expect debug .rBracket p
  .ok (.list elems, p)

/-- `parse_value`; the first argument bounds the objects and lists that are open. -/
def parseValue : ℕ → Parser → Res (Value × Parser)
  | 0, _ => .panic
  | nested + 1, p =>
    match p.peek with
    | .lBrace => parseObject debug (parseValue nested) p
    | .lBracket => parseList debug (parseValue nested) p
    | t =>
      match t.value with
      | some v => .ok (v, p.advance)
      | none => .err (.parseError s!"unexpected token for value: {debug t}")

/-- The fields up to the end of the tokens; the first argument bounds their number. -/
def fileLoop (value : Parser → Res (Value × Parser)) : ℕ → List Field → Parser → Res (List Field × Parser)
  | 0, _, _ => .panic
  | fuel + 1, fields, p =>
    if p.peek = .eof then .ok (fields, p)
    else do
      let (f, p) ← parseField debug value p
      fileLoop value fuel (fields ++ [f]) p

/-- `parse_file` on some tokens, which cannot open more objects and lists than they have braces and brackets. -/
def parseFile (tokens : List Token) : Res (List Field) :=
  Prod.fst <$> fileLoop debug (parseValue debug (tokens.length + 1)) (tokens.length + 1) [] (.new tokens)

end

end Parser

end Nyxis
