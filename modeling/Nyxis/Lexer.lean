import Nyxis.Temporal

/-!
# Lexer — source text as tokens

`tokenize` reads one token after the other.  A sigil says what a value is; the text behind it goes as far as the
characters that the sigil takes.
-/

namespace Nyxis

open Lib Lib.Outcome

inductive Token where
  | int (n : Int64)
  | float (f : F64)
  | bool (b : Bool)
  | keyword (s : String)
  | str (s : String)
  | time (ns : Int64)
  | binary (raw : Bytes)
  | link (off : Int32)
  /-- `Token::Macro`. -/
  | expr (s : String)
  | null
  | ident (s : String)
  | colon
  | lBrace
  | rBrace
  | lBracket
  | rBracket
  | comma
  | lParen
  | rParen
  | eof
  deriving DecidableEq, Repr

/-- `char::is_alphabetic` and `char::is_numeric`, which follow the tables of Unicode. -/
structure CharClasses where
  alphabetic : Char → Bool
  numeric : Char → Bool
  ascii : ∀ c : Char, c.toNat < 128 → alphabetic c = c.isAlpha ∧ numeric c = c.isDigit

namespace CharClasses

variable (u : CharClasses)

def alphanumeric (c : Char) : Bool := u.alphabetic c || u.numeric c

/-- A character of a keyword. -/
def word (c : Char) : Bool := u.alphanumeric c || c == '_'

/-- A character of a key behind its first one. -/
def key (c : Char) : Bool := u.alphanumeric c || c == '_' || c == '-'

end CharClasses

/-! ## Blanks -/

/-- `skip_whitespace_and_comments`; the first argument says whether a comment has been opened. -/
def skipBlank : Bool → List Char → List Char
  | _, [] => []
  | true, c :: rest => if c = '\n' then skipBlank false rest else skipBlank true rest
  | false, c :: rest =>
    if c = '#' then skipBlank true rest else if isWhitespace c then skipBlank false rest else c :: rest

/-! ## Numbers -/

/-- A minus in front of a number. -/
def minusSign : List Char → Bool × List Char
  | '-' :: rest => (true, rest)
  | l => (false, l)

/-- `s.parse::<i32>().ok()` of digits. -/
def parseI32 (l : List Char) : Option Int32 :=
  if l.isEmpty || !l.all Char.isDigit then none
  else if digitsNat l < 2 ^ 31 then some (.ofNat (digitsNat l)) else none

/-- The token behind `=`. -/
def readInt (l : List Char) : Res (Token × List Char) := do
  let (neg, l) := minusSign l
  let s := l.takeWhile Char.isDigit
  let n ← okOr (ofOption (parseI64 s)) (.parseError s!"bad int: {String.ofList s}")
  .ok (.int (if neg then -n else n), l.dropWhile Char.isDigit)

/-- A character that a float may have behind its sign. -/
def floatChar (c : Char) : Bool := c.isDigit || c == '.' || c == 'e' || c == 'E' || c == '+' || c == '-'

/-- The token behind `~`. -/
def readFloat (l : List Char) : Res (Token × List Char) := do
  let (neg, l) := minusSign l
  let s := l.takeWhile floatChar
  let f ← okOr (ofOption (parseF64 s)) (.parseError s!"bad float: {String.ofList s}")
  .ok (.float (if neg then f.neg else f), l.dropWhile floatChar)

/-- The token behind `&`. -/
def readLink (l : List Char) : Res (Token × List Char) := do
  let (neg, l) := minusSign l
  let s := l.takeWhile Char.isDigit
  let n ← okOr (ofOption (parseI32 s)) (.parseError s!"bad link offset: {String.ofList s}")
  .ok (.link (if neg then -n else n), l.dropWhile Char.isDigit)

/-! ## Strings -/

/-- The value of a hexadecimal digit. -/
def hexDigit (c : Char) : Option ℕ :=
  if '0' ≤ c ∧ c ≤ '9' then some (c.toNat - 48)
  else if 'a' ≤ c ∧ c ≤ 'f' then some (c.toNat - 87)
  else if 'A' ≤ c ∧ c ≤ 'F' then some (c.toNat - 55)
  else none

/-- The number that hexadecimal digits stand for. -/
def hexNat (l : List Char) : Option ℕ := l.foldlM (fun n c => (hexDigit c).map (16 * n + ·)) 0

/-- `u32::from_str_radix(s, 16).ok()`: a plus may stand in front of the digits. -/
def fromStrRadix16 (l : List Char) : Option ℕ :=
  let digits := match l with
    | '+' :: rest => rest
    | l => l
  if digits.isEmpty then none else (hexNat digits).filter (· < 2 ^ 32)

/-- `char::from_u32`. -/
def charOfCode (n : ℕ) : Option Char := if h : n.isValidChar then some (Char.ofNatAux n h) else none

/-- An escape of `n` hexadecimal digits, the letter already read. -/
def readCode (letter : Char) (n : ℕ) (l : List Char) : Res (Char × List Char) := do
  let hex := l.take n
  let code ← okOr (ofOption (fromStrRadix16 hex)) (.parseError s!"bad \\{letter} escape: {String.ofList hex}")
  let c ← okOr (ofOption (charOfCode code)) (.parseError s!"invalid unicode: {code}")
  .ok (c, l.drop n)

/-- The character that an escape stands for, the backslash already read. -/
def readEscape : List Char → Res (Char × List Char)
  | '\\' :: rest => .ok ('\\', rest)
  | '"' :: rest => .ok ('"', rest)
  | 'n' :: rest => .ok ('\n', rest)
  | 'r' :: rest => .ok ('\r', rest)
  | 't' :: rest => .ok ('\t', rest)
  | '0' :: rest => .ok ('\x00', rest)
  | 'u' :: rest => readCode 'u' 4 rest
  | 'U' :: rest => readCode 'U' 8 rest
  | c :: _ => .err (.badEscape c)
  | [] => .err (.parseError "unterminated escape")

/-- `read_string`, the opening quote already read; the first argument bounds the number of characters. -/
def readString : ℕ → List Char → List Char → Res (List Char × List Char)
  | 0, _, _ => .panic
  | _ + 1, _, [] => .err (.parseError "unterminated string")
  | fuel + 1, s, c :: rest =>
    if c = '"' then .ok (s, rest)
    else if c = '\\' then do
      let (c, rest) ← readEscape rest
      readString fuel (s ++ [c]) rest
    else readString fuel (s ++ [c]) rest

/-! ## Other values -/

/-- The hexadecimal digits of a binary value, up to its closing bracket. -/
def readHex : List Char → List Char → Res (List Char × List Char)
  | _, [] => .err (.parseError "unterminated binary literal")
  | hex, c :: rest =>
    if c = '>' then .ok (hex, rest)
    else if (hexDigit c).isSome then readHex (hex ++ [c]) rest
    else if isWhitespace c then readHex hex rest
    else .err (.parseError s!"unexpected char in binary: '{c}'")

/-- The bytes of an even number of hexadecimal digits. -/
def bytesOfHex : List Char → Res Bytes
  | [] => .ok []
  | [_] => .err (.parseError "binary hex must have even number of digits")
  | a :: b :: rest => do
    let n ← okOr (ofOption (hexNat [a, b])) (.parseError s!"bad hex byte: {String.ofList [a, b]}")
    let bytes ← bytesOfHex rest
    .ok (.ofNat n :: bytes)

/-- `read_binary`, the opening bracket already read. -/
def readBinary (l : List Char) : Res (Token × List Char) := do
  let (hex, rest) ← readHex [] l
  let raw ← bytesOfHex hex
  .ok (.binary raw, rest)

/-- A character that `read_macro_expr` goes past. -/
def macroChar (c : Char) : Bool := !(c == '\n' || c == ',' || c == '}')

/-- A character of a literal time. -/
def temporalChar (c : Char) : Bool := !isWhitespace c && c != ',' && c != '}' && c != ']'

section

variable (u : CharClasses)

/-- The token behind `?`. -/
def readBool (l : List Char) : Res (Token × List Char) :=
  let s := l.takeWhile u.alphabetic
  if s = ['t', 'r', 'u', 'e'] then .ok (.bool true, l.dropWhile u.alphabetic)
  else if s = ['f', 'a', 'l', 's', 'e'] then .ok (.bool false, l.dropWhile u.alphabetic)
  else .err (.parseError s!"bad bool: {String.ofList s}")

/-- The token behind `@`: a time where a digit follows, a reference otherwise. -/
def readAt (l : List Char) : Res (Token × List Char) :=
  if l.head?.any Char.isDigit then do
    let ns ← parseTemporal (l.takeWhile temporalChar)
    .ok (.time (.ofInt ns), l.dropWhile temporalChar)
  else .ok (.expr (String.ofList ('@' :: l.takeWhile u.word)), l.dropWhile u.word)

/-- The token that starts with `c`, and the text behind it. -/
def readToken (c : Char) (l : List Char) : Res (Token × List Char) :=
  match c with
  | '{' => .ok (.lBrace, l)
  | '}' => .ok (.rBrace, l)
  | '[' => .ok (.lBracket, l)
  | ']' => .ok (.rBracket, l)
  | '(' => .ok (.lParen, l)
  | ')' => .ok (.rParen, l)
  | ':' => .ok (.colon, l)
  | ',' => .ok (.comma, l)
  | '=' => readInt l
  | '~' => readFloat l
  | '?' => readBool u l
  | '$' => .ok (.keyword (String.ofList (l.takeWhile u.word)), l.dropWhile u.word)
  | '"' => do
    let (s, rest) ← readString (l.length + 1) [] l
    .ok (.str (String.ofList s), rest)
  | '@' => readAt u l
  | '<' => readBinary l
  | '&' => readLink l
  | '!' => .ok (.expr (String.ofList (trim (l.takeWhile macroChar))), l.dropWhile macroChar)
  | '^' => .ok (.null, l)
  | c =>
    if u.alphabetic c || c == '_' then .ok (.ident (String.ofList (c :: l.takeWhile u.key)), l.dropWhile u.key)
    else .err (.unknownSigil c)

/-- The loop of `tokenize`; the first argument bounds the number of tokens. -/
def tokenizeLoop : ℕ → List Token → List Char → Res (List Token)
  | 0, _, _ => .panic
  | fuel + 1, tokens, l =>
    match skipBlank false l with
    | [] => .ok (tokens ++ [.eof])
    | c :: rest => do
      let (tok, rest) ← readToken u c rest
      tokenizeLoop fuel (tokens ++ [tok]) rest

/-- `tokenize` of a text. -/
def tokenize (l : List Char) : Res (List Token) := tokenizeLoop u (l.length + 1) [] l

end

end Nyxis
