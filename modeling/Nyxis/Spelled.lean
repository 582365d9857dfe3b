import Nyxis.Literals
import Nyxis.Printed

/-!
# Spelled — the texts of a token sequence

`Spells` says how a token is written, `Spelled` how a sequence of tokens is, with blanks and comments between them.  A
token ends where no character follows that it would take.

* `readToken_spells`, `spells_of_readToken`: what is read as one token is what is written as one.
* `tokenize_iff`: the lexer accepts exactly the texts of token sequences.
-/

namespace Nyxis

open Lib Lib.Outcome

/-! ## Single tokens -/

/-- The tokens that are written as one character. -/
def Token.mark : Token → Option Char
  | .lBrace => some '{'
  | .rBrace => some '}'
  | .lBracket => some '['
  | .rBracket => some ']'
  | .lParen => some '('
  | .rParen => some ')'
  | .colon => some ':'
  | .comma => some ','
  | .null => some '^'
  | _ => none

def boolText (b : Bool) : List Char := if b then ['t', 'r', 'u', 'e'] else ['f', 'a', 'l', 's', 'e']

def signText (neg : Bool) : List Char := if neg then ['-'] else []

/-- The texts that are read as one character of a string: a plus may stand for the first digit of a code. -/
inductive StringChar : Char → List Char → Prop
  | quoted {c : Char} {form : List Char} (h : QuotedChar c form) : StringChar c form
  | short {c : Char} {ds : List Char} (hlen : ds.length = 3) (h : hexNat ds = some c.toNat) :
    StringChar c ('\\' :: 'u' :: '+' :: ds)
  | long {c : Char} {ds : List Char} (hlen : ds.length = 7) (h : hexNat ds = some c.toNat) :
    StringChar c ('\\' :: 'U' :: '+' :: ds)

/-- The texts between quotes that are read as a string. -/
inductive StringText : List Char → List Char → Prop
  | nil : StringText [] []
  | cons {c : Char} {s form body : List Char} (hc : StringChar c form) (h : StringText s body) : StringText (c :: s) (form ++ body)

section

variable (u : CharClasses)

/-- The text is the token, unless a character follows that the class takes. -/
inductive Spells : Token → List Char → (Char → Bool) → Prop
  | mark {t : Token} {c : Char} (h : t.mark = some c) : Spells t [c] fun _ => false
  | int {digits : List Char} (neg : Bool) (hne : digits ≠ []) (hdigits : ∀ c ∈ digits, c.isDigit = true)
    (hfits : digitsNat digits < 2 ^ 63) :
    Spells (.int (if neg then -.ofNat (digitsNat digits) else .ofNat (digitsNat digits))) ('=' :: (signText neg ++ digits))
      Char.isDigit
  | float {text : List Char} {f : F64} (neg : Bool) (hchars : ∀ c ∈ text, floatChar c = true)
    (hsign : neg = false → text.head? ≠ some '-') (h : parseF64 text = some f) :
    Spells (.float (if neg then f.neg else f)) ('~' :: (signText neg ++ text)) floatChar
  | bool (b : Bool) : Spells (.bool b) ('?' :: boolText b) u.alphabetic
  | keyword {name : List Char} (h : ∀ c ∈ name, u.word c = true) : Spells (.keyword (String.ofList name)) ('$' :: name) u.word
  | str {s body : List Char} (h : StringText s body) :
    Spells (.str (String.ofList s)) ('"' :: (body ++ ['"'])) fun _ => false
  | time {text : List Char} {ns : ℤ} (hdigit : text.head?.any Char.isDigit = true)
    (hchars : ∀ c ∈ text, temporalChar c = true) (h : parseTemporal text = .ok ns) :
    Spells (.time (.ofInt ns)) ('@' :: text) temporalChar
  | binary {text : List Char} {raw : Bytes} (hchars : ∀ c ∈ text, (hexDigit c).isSome = true ∨ isWhitespace c = true)
    (h : bytesOfHex (text.filter fun c => (hexDigit c).isSome) = .ok raw) :
    Spells (.binary raw) ('<' :: (text ++ ['>'])) fun _ => false
  | link {digits : List Char} (neg : Bool) (hne : digits ≠ []) (hdigits : ∀ c ∈ digits, c.isDigit = true)
    (hfits : digitsNat digits < 2 ^ 31) :
    Spells (.link (if neg then -.ofNat (digitsNat digits) else .ofNat (digitsNat digits))) ('&' :: (signText neg ++ digits))
      Char.isDigit
  /-- A reference to a key. -/
  | reference {name : List Char} (hdigit : name.head?.any Char.isDigit = false) (h : ∀ c ∈ name, u.word c = true) :
    Spells (.expr (String.ofList ('@' :: name))) ('@' :: name) u.word
  | expr {text : List Char} (h : ∀ c ∈ text, macroChar c = true) :
    Spells (.expr (String.ofList (trim text))) ('!' :: text) macroChar
  | ident {c : Char} {text : List Char} (hc : u.alphabetic c = true ∨ c = '_') (hblank : isWhitespace c = false)
    (h : ∀ c ∈ text, u.key c = true) : Spells (.ident (String.ofList (c :: text))) (c :: text) u.key

/-- No character of the class is first. -/
def Ends (p : Char → Bool) (rest : List Char) : Prop := ∀ c ∈ rest.head?, p c = false

variable {u}

theorem Ends.none (rest : List Char) : Ends (fun _ => false) rest := fun _ _ => rfl

/-- What is taken of a text in front of what ends it. -/
theorem takeWhile_ends {p : Char → Bool} {l rest : List Char} (hl : ∀ c ∈ l, p c = true) (h : Ends p rest) :
    (l ++ rest).takeWhile p = l ∧ (l ++ rest).dropWhile p = rest := by
  have hrest : rest.takeWhile p = [] ∧ rest.dropWhile p = rest := by
    cases rest with
    | nil => exact ⟨rfl, rfl⟩
    | cons c rest =>
      have hc := h c rfl
      exact ⟨List.takeWhile_cons_of_neg (by rw [hc]; exact Bool.false_ne_true),
        List.dropWhile_cons_of_neg (by rw [hc]; exact Bool.false_ne_true)⟩
  rw [List.takeWhile_append_of_pos hl, List.dropWhile_append_of_pos hl, hrest.1, hrest.2, List.append_nil]
  exact ⟨rfl, rfl⟩

/-- What a class takes of a text, and what it leaves. -/
theorem exists_takeWhile (p : Char → Bool) (l : List Char) : ∃ text rest, l = text ++ rest ∧ l.takeWhile p = text ∧
    l.dropWhile p = rest ∧ (∀ c ∈ text, p c = true) ∧ Ends p rest := by
  refine ⟨_, _, (List.takeWhile_append_dropWhile).symm, rfl, rfl, fun c hc => List.mem_takeWhile_imp hc, fun c hc => ?_⟩
  have hnot := List.head?_dropWhile_not p l
  rw [Option.mem_def.mp hc] at hnot
  exact hnot

/-- The sign of a number, and what is behind it. -/
theorem minusSign_text {neg : Bool} {text : List Char} (h : neg = false → text.head? ≠ some '-') :
    minusSign (signText neg ++ text) = (neg, text) := by
  cases neg with
  | true => rfl
  | false =>
    show minusSign text = _
    unfold minusSign
    split
    · exact absurd rfl (h rfl)
    · rfl

theorem minusSign_split (l : List Char) : ∃ neg text, l = signText neg ++ text ∧ minusSign l = (neg, text) ∧
    (neg = false → text.head? ≠ some '-') := by
  unfold minusSign
  split
  · exact ⟨true, _, rfl, rfl, nofun⟩
  · rename_i hno
    refine ⟨false, l, rfl, rfl, fun _ hhead => ?_⟩
    cases l with
    | nil => cases hhead
    | cons c rest =>
      cases hhead
      exact hno rest rfl

/-- Digits have no sign in front. -/
theorem head_digits {digits rest : List Char} (hne : digits ≠ []) (hdigits : ∀ c ∈ digits, c.isDigit = true) :
    (digits ++ rest).head? ≠ some '-' := by
  cases digits with
  | nil => exact absurd rfl hne
  | cons c digits =>
    intro hhead
    cases hhead
    exact absurd (hdigits '-' List.mem_cons_self) (by decide)

/-! ### Numbers -/

theorem readInt_text {digits rest : List Char} (neg : Bool) (hne : digits ≠ []) (hdigits : ∀ c ∈ digits, c.isDigit = true)
    (hfits : digitsNat digits < 2 ^ 63) (h : Ends Char.isDigit rest) : readInt (signText neg ++ digits ++ rest) =
      .ok (.int (if neg then -.ofNat (digitsNat digits) else .ofNat (digitsNat digits)), rest) := by
  obtain ⟨htake, hdrop⟩ := takeWhile_ends hdigits h
  rw [readInt, List.append_assoc, minusSign_text fun _ => head_digits hne hdigits]
  dsimp only
  rw [htake, hdrop, parseI64_digits hne hdigits, if_pos hfits, ofOption_some, okOr_ok, ok_bind]

theorem readInt_eq_ok {l rest : List Char} {t : Token} (h : readInt l = .ok (t, rest)) :
    ∃ form, l = form ++ rest ∧ Spells u t ('=' :: form) Char.isDigit ∧ Ends Char.isDigit rest := by
  obtain ⟨neg, text, rfl, hminus, -⟩ := minusSign_split l
  obtain ⟨digits, rest', rfl, htake, hdrop, hdigits, hends⟩ := exists_takeWhile Char.isDigit text
  rw [readInt, hminus] at h
  dsimp only at h
  rw [htake, hdrop] at h
  obtain ⟨n, hn, h⟩ := bind_eq_ok.mp h
  cases h
  have hne : digits ≠ [] := by
    rintro rfl
    cases hn
  rw [parseI64_digits hne hdigits] at hn
  by_cases hfits : digitsNat digits < 2 ^ 63
  · rw [if_pos hfits] at hn
    cases hn
    exact ⟨_, (List.append_assoc _ _ _).symm, .int neg hne hdigits hfits, hends⟩
  · rw [if_neg hfits] at hn
    cases hn

theorem parseI32_digits {l : List Char} (hne : l ≠ []) (h : ∀ c ∈ l, c.isDigit = true) :
    parseI32 l = if digitsNat l < 2 ^ 31 then some (.ofNat (digitsNat l)) else none := by
  have hall : (l.isEmpty || !l.all Char.isDigit) = false := by
    rw [List.isEmpty_eq_false_iff.mpr hne, List.all_eq_true.mpr h]
    rfl
  rw [parseI32, hall]
  rfl

theorem readLink_text {digits rest : List Char} (neg : Bool) (hne : digits ≠ []) (hdigits : ∀ c ∈ digits, c.isDigit = true)
    (hfits : digitsNat digits < 2 ^ 31) (h : Ends Char.isDigit rest) : readLink (signText neg ++ digits ++ rest) =
      .ok (.link (if neg then -.ofNat (digitsNat digits) else .ofNat (digitsNat digits)), rest) := by
  obtain ⟨htake, hdrop⟩ := takeWhile_ends hdigits h
  rw [readLink, List.append_assoc, minusSign_text fun _ => head_digits hne hdigits]
  dsimp only
  rw [htake, hdrop, parseI32_digits hne hdigits, if_pos hfits, ofOption_some, okOr_ok, ok_bind]

theorem readLink_eq_ok {l rest : List Char} {t : Token} (h : readLink l = .ok (t, rest)) :
    ∃ form, l = form ++ rest ∧ Spells u t ('&' :: form) Char.isDigit ∧ Ends Char.isDigit rest := by
  obtain ⟨neg, text, rfl, hminus, -⟩ := minusSign_split l
  obtain ⟨digits, rest', rfl, htake, hdrop, hdigits, hends⟩ := exists_takeWhile Char.isDigit text
  rw [readLink, hminus] at h
  dsimp only at h
  rw [htake, hdrop] at h
  obtain ⟨n, hn, h⟩ := bind_eq_ok.mp h
  cases h
  have hne : digits ≠ [] := by
    rintro rfl
    cases hn
  rw [parseI32_digits hne hdigits] at hn
  by_cases hfits : digitsNat digits < 2 ^ 31
  · rw [if_pos hfits] at hn
    cases hn
    exact ⟨_, (List.append_assoc _ _ _).symm, .link neg hne hdigits hfits, hends⟩
  · rw [if_neg hfits] at hn
    cases hn

theorem readFloat_text {text rest : List Char} {f : F64} {neg : Bool} (hchars : ∀ c ∈ text, floatChar c = true)
    (hsign : neg = false → text.head? ≠ some '-') (hf : parseF64 text = some f) (h : Ends floatChar rest) :
    readFloat (signText neg ++ text ++ rest) = .ok (.float (if neg then f.neg else f), rest) := by
  have hhead : neg = false → (text ++ rest).head? ≠ some '-' := by
    intro hneg
    cases text with
    | nil => cases hf
    | cons c text => exact hsign hneg
  obtain ⟨htake, hdrop⟩ := takeWhile_ends hchars h
  rw [readFloat, List.append_assoc, minusSign_text hhead]
  dsimp only
  rw [htake, hdrop, hf, ofOption_some, okOr_ok, ok_bind]

theorem readFloat_eq_ok {l rest : List Char} {t : Token} (h : readFloat l = .ok (t, rest)) :
    ∃ form, l = form ++ rest ∧ Spells u t ('~' :: form) floatChar ∧ Ends floatChar rest := by
  obtain ⟨neg, text, rfl, hminus, hsign⟩ := minusSign_split l
  obtain ⟨chars, rest', rfl, htake, hdrop, hchars, hends⟩ := exists_takeWhile floatChar text
  rw [readFloat, hminus] at h
  dsimp only at h
  rw [htake, hdrop] at h
  obtain ⟨f, hf, h⟩ := bind_eq_ok.mp h
  cases h
  have hhead : neg = false → chars.head? ≠ some '-' := by
    intro hneg
    cases chars with
    | nil => exact fun hhead => by cases hhead
    | cons c chars => exact hsign hneg
  cases hparse : parseF64 chars with
  | none =>
    rw [hparse] at hf
    cases hf
  | some f' =>
    rw [hparse] at hf
    cases hf
    exact ⟨_, (List.append_assoc _ _ _).symm, .float neg hchars hhead hparse, hends⟩

/-! ### Strings -/

/-- The string goes on behind a character, however it is written. -/
theorem readString_stringChar {c : Char} {form : List Char} (hc : StringChar c form) (fuel : ℕ) (acc rest : List Char) :
    readString (fuel + 1) acc (form ++ rest) = readString fuel (acc ++ [c]) rest := by
  cases hc with
  | quoted h => exact readString_quotedChar h fuel acc rest
  | short hlen h =>
    rw [List.cons_append, List.cons_append, List.cons_append, readString, if_neg (by decide), if_pos rfl, readEscape,
      readCode_signed hlen (by decide) h]
    rfl
  | long hlen h =>
    rw [List.cons_append, List.cons_append, List.cons_append, readString, if_neg (by decide), if_pos rfl, readEscape,
      readCode_signed hlen (by decide) h]
    rfl

theorem readString_text : ∀ {s body : List Char}, StringText s body → ∀ (fuel : ℕ) (acc rest : List Char),
    readString (s.length + fuel) acc (body ++ rest) = readString fuel (acc ++ s) rest
  | _, _, .nil, fuel, acc, rest => by
    rw [List.length_nil, Nat.zero_add, List.nil_append, List.append_nil]
  | _, _, .cons (s := s) hc h, fuel, acc, rest => by
    rw [List.length_cons, show s.length + 1 + fuel = s.length + fuel + 1 by omega, List.append_assoc,
      readString_stringChar hc, readString_text h, List.append_assoc, List.singleton_append]

theorem StringChar.length_pos {c : Char} {form : List Char} (h : StringChar c form) : 1 ≤ form.length := by
  cases h with
  | quoted h => exact h.length_pos
  | short => exact Nat.succ_pos _
  | long => exact Nat.succ_pos _

theorem StringText.length_le : ∀ {s body : List Char}, StringText s body → s.length ≤ body.length
  | _, _, .nil => Nat.le_refl 0
  | _, _, .cons hc h => by
    have hpos := hc.length_pos
    have ih := h.length_le
    rw [List.length_cons, List.length_append]
    omega

/-- The digits of a code that the end of the text does not cut off. -/
theorem readCode_eq_ok {letter c : Char} {n : ℕ} {l rest : List Char} (h : readCode letter n l = .ok (c, rest)) (hrest : rest ≠ []) :
    ∃ ds, l = ds ++ rest ∧ ds.length = n ∧ (hexNat ds = some c.toNat ∨ ∃ ds', ds = '+' :: ds' ∧ hexNat ds' = some c.toNat) := by
  have hdrop : l.drop n = rest := by
    obtain ⟨_, -, h⟩ := bind_eq_ok.mp h
    obtain ⟨_, -, h⟩ := bind_eq_ok.mp h
    cases h
    rfl
  have hlen : n ≤ l.length := by
    by_contra hshort
    rw [List.drop_of_length_le (by omega)] at hdrop
    exact hrest hdrop.symm
  have hsplit : l.take n ++ rest = l := by rw [← hdrop, List.take_append_drop]
  refine ⟨l.take n, hsplit.symm, by rw [List.length_take]; omega, ?_⟩
  rcases @readCode_cases letter n (l.take n) rest (by rw [hsplit]) (by rw [hsplit, hdrop]) with ⟨e, herr⟩ | ⟨c', hok, hcode⟩
  · rw [hsplit, h] at herr
    cases herr
  · rw [hsplit, h] at hok
    cases hok
    exact hcode

theorem readEscape_eq_ok {c : Char} {l rest : List Char} (h : readEscape l = .ok (c, rest)) (hrest : rest ≠ []) :
    ∃ form, '\\' :: l = form ++ rest ∧ StringChar c form := by
  unfold readEscape at h
  split at h
  · cases h
    exact ⟨_, rfl, .quoted .backslash⟩
  · cases h
    exact ⟨_, rfl, .quoted .quote⟩
  · cases h
    exact ⟨_, rfl, .quoted .newline⟩
  · cases h
    exact ⟨_, rfl, .quoted .return⟩
  · cases h
    exact ⟨_, rfl, .quoted .tab⟩
  · cases h
    exact ⟨_, rfl, .quoted .nul⟩
  · obtain ⟨ds, rfl, hlen, hcode | ⟨ds, rfl, hcode⟩⟩ := readCode_eq_ok h hrest
    · exact ⟨_, rfl, .quoted (.short hlen hcode)⟩
    · exact ⟨_, rfl, .short (Nat.succ.inj hlen) hcode⟩
  · obtain ⟨ds, rfl, hlen, hcode | ⟨ds, rfl, hcode⟩⟩ := readCode_eq_ok h hrest
    · exact ⟨_, rfl, .quoted (.long hlen hcode)⟩
    · exact ⟨_, rfl, .long (Nat.succ.inj hlen) hcode⟩
  · cases h
  · cases h

/-- What is read as a string is its text, up to the closing quote. -/
theorem readString_eq_ok : ∀ {fuel : ℕ} {acc l s rest : List Char}, readString fuel acc l = .ok (s, rest) →
    ∃ more body, s = acc ++ more ∧ l = body ++ '"' :: rest ∧ StringText more body
  | 0, _, _, _, _, h => by cases h
  | _ + 1, _, [], _, _, h => by cases h
  | fuel + 1, acc, c :: l, s, rest, h => by
    rw [readString] at h
    by_cases hquote : c = '"'
    · rw [if_pos hquote] at h
      cases h
      exact ⟨[], [], (List.append_nil _).symm, by rw [hquote]; rfl, .nil⟩
    · rw [if_neg hquote] at h
      by_cases hslash : c = '\\'
      · rw [if_pos hslash] at h
        obtain ⟨⟨c', l'⟩, hescape, h⟩ := bind_eq_ok.mp h
        obtain ⟨more, body, rfl, hbody, htext⟩ := readString_eq_ok h
        have hne : l' ≠ [] := by
          rw [hbody]
          exact List.append_ne_nil_of_right_ne_nil _ (List.cons_ne_nil _ _)
        obtain ⟨form, hform, hc⟩ := readEscape_eq_ok hescape hne
        refine ⟨c' :: more, form ++ body, ?_, ?_, .cons hc htext⟩
        · rw [List.append_assoc, List.singleton_append]
        · rw [hslash, hform, hbody, List.append_assoc]
      · rw [if_neg hslash] at h
        obtain ⟨more, body, rfl, hbody, htext⟩ := readString_eq_ok h
        refine ⟨c :: more, c :: body, ?_, by rw [hbody]; rfl, .cons (.quoted (.plain hquote hslash)) htext⟩
        rw [List.append_assoc, List.singleton_append]

/-! ### Other values -/

theorem isDigit_lt {c : Char} (h : c.isDigit = true) : 48 ≤ c.toNat ∧ c.toNat < 58 := by
  rw [Char.isDigit] at h
  simp only [ge_iff_le, Bool.and_eq_true, decide_eq_true_eq, UInt32.le_iff_toNat_le] at h
  exact ⟨h.1, Nat.lt_succ_of_le h.2⟩

theorem digit_temporal {c : Char} (h : c.isDigit = true) : temporalChar c = true := by
  have hc := isDigit_lt h
  have hne : ∀ d : Char, ¬ (48 ≤ d.toNat ∧ d.toNat < 58) → (c != d) = true := by
    intro d hd
    rw [bne_iff_ne]
    rintro rfl
    exact hd hc
  have hblank : isWhitespace c = false := by
    rw [isWhitespace]
    simp only [Bool.or_eq_false_iff, Bool.and_eq_false_iff, decide_eq_false_iff_not, beq_eq_false_iff_ne]
    omega
  rw [temporalChar, hblank, hne ',' (by decide), hne '}' (by decide), hne ']' (by decide)]
  rfl

theorem readBool_text (b : Bool) {rest : List Char} (h : Ends u.alphabetic rest) :
    readBool u (boolText b ++ rest) = .ok (.bool b, rest) := by
  have hletters : ∀ c ∈ boolText b, u.alphabetic c = true := by
    have hascii : ∀ c ∈ boolText b, c.toNat < 128 ∧ c.isAlpha = true := by
      cases b with
      | true => simp [boolText]
      | false => simp [boolText]
    exact fun c hc => (u.ascii c (hascii c hc).1).1.trans (hascii c hc).2
  obtain ⟨htake, hdrop⟩ := takeWhile_ends hletters h
  rw [readBool, htake, hdrop]
  cases b <;> rfl

theorem readBool_eq_ok {l rest : List Char} {t : Token} (h : readBool u l = .ok (t, rest)) :
    ∃ form, l = form ++ rest ∧ Spells u t ('?' :: form) u.alphabetic ∧ Ends u.alphabetic rest := by
  obtain ⟨text, rest', rfl, htake, hdrop, -, hends⟩ := exists_takeWhile u.alphabetic l
  rw [readBool, htake, hdrop] at h
  split at h
  · rename_i htrue
    cases h
    exact ⟨text, rfl, htrue ▸ .bool true, hends⟩
  · split at h
    · rename_i hfalse
      cases h
      exact ⟨text, rfl, hfalse ▸ .bool false, hends⟩
    · cases h

/-- The digits of a binary value, its blanks left out. -/
theorem readHex_text : ∀ {text : List Char} (acc rest : List Char),
    (∀ c ∈ text, (hexDigit c).isSome = true ∨ isWhitespace c = true) →
      readHex acc (text ++ '>' :: rest) = .ok (acc ++ text.filter fun c => (hexDigit c).isSome, rest)
  | [], acc, rest, _ => by
    rw [List.filter_nil, List.append_nil]
    rfl
  | c :: text, acc, rest, h => by
    have ih := fun acc => readHex_text acc rest fun c' hc' => h c' (List.mem_cons_of_mem c hc')
    have hclose : c ≠ '>' := by
      rintro rfl
      rcases h '>' List.mem_cons_self with h | h
      · exact absurd h (by decide)
      · exact absurd h (by decide)
    rw [List.cons_append, readHex, if_neg hclose]
    by_cases hdigit : (hexDigit c).isSome = true
    · rw [if_pos hdigit, ih, List.filter_cons, if_pos hdigit, List.append_assoc, List.singleton_append]
    · rw [if_neg hdigit, if_pos ((h c List.mem_cons_self).resolve_left hdigit), ih, List.filter_cons, if_neg hdigit]

theorem readHex_eq_ok : ∀ {l acc hex rest : List Char}, readHex acc l = .ok (hex, rest) → ∃ text, l = text ++ '>' :: rest ∧
    hex = acc ++ text.filter (fun c => (hexDigit c).isSome) ∧ ∀ c ∈ text, (hexDigit c).isSome = true ∨ isWhitespace c = true
  | [], _, _, _, h => by cases h
  | c :: l, acc, hex, rest, h => by
    rw [readHex] at h
    by_cases hclose : c = '>'
    · rw [if_pos hclose] at h
      cases h
      exact ⟨[], by rw [hclose]; rfl, (List.append_nil _).symm, nofun⟩
    · rw [if_neg hclose] at h
      by_cases hdigit : (hexDigit c).isSome = true
      · rw [if_pos hdigit] at h
        obtain ⟨text, rfl, rfl, hchars⟩ := readHex_eq_ok h
        refine ⟨c :: text, rfl, ?_, List.forall_mem_cons.mpr ⟨.inl hdigit, hchars⟩⟩
        rw [List.filter_cons, if_pos hdigit, List.append_assoc, List.singleton_append]
      · rw [if_neg hdigit] at h
        by_cases hblank : isWhitespace c = true
        · rw [if_pos hblank] at h
          obtain ⟨text, rfl, rfl, hchars⟩ := readHex_eq_ok h
          refine ⟨c :: text, rfl, ?_, List.forall_mem_cons.mpr ⟨.inr hblank, hchars⟩⟩
          rw [List.filter_cons, if_neg hdigit]
        · rw [if_neg hblank] at h
          cases h

theorem readBinary_eq_ok {l rest : List Char} {t : Token} (h : readBinary l = .ok (t, rest)) :
    ∃ form, l = form ++ rest ∧ Spells u t ('<' :: form) fun _ => false := by
  obtain ⟨⟨hex, rest'⟩, hhex, h⟩ := bind_eq_ok.mp h
  obtain ⟨raw, hraw, h⟩ := bind_eq_ok.mp h
  cases h
  obtain ⟨text, rfl, rfl, hchars⟩ := readHex_eq_ok hhex
  exact ⟨text ++ ['>'], by simp, .binary hchars hraw⟩

theorem readAt_eq_ok {l rest : List Char} {t : Token} (h : readAt u l = .ok (t, rest)) :
    ∃ form p, l = form ++ rest ∧ Spells u t ('@' :: form) p ∧ Ends p rest := by
  rw [readAt] at h
  by_cases hdigit : l.head?.any Char.isDigit = true
  · rw [if_pos hdigit] at h
    obtain ⟨ns, htime, h⟩ := bind_eq_ok.mp h
    cases h
    obtain ⟨text, rest', rfl, htake, hdrop, hchars, hends⟩ := exists_takeWhile temporalChar l
    rw [htake] at htime
    rw [hdrop]
    refine ⟨text, _, rfl, .time ?_ hchars htime, hends⟩
    cases text with
    | cons c text => exact hdigit
    | nil =>
      -- a digit belongs to the time
      cases rest' with
      | nil => cases hdigit
      | cons c rest' =>
        have hc := hends c rfl
        rw [List.nil_append, List.head?_cons, Option.any_some] at hdigit
        rw [digit_temporal hdigit] at hc
        cases hc
  · rw [if_neg hdigit] at h
    cases h
    obtain ⟨name, rest', rfl, htake, hdrop, hname, hends⟩ := exists_takeWhile u.word l
    rw [htake, hdrop]
    refine ⟨name, _, rfl, .reference ?_ hname, hends⟩
    cases name with
    | nil => rfl
    | cons c name => exact Bool.not_eq_true _ ▸ hdigit

/-- A reference is no time, whatever ends it. -/
theorem readAt_reference {name : List Char} (hdigit : name.head?.any Char.isDigit = false)
    (hname : ∀ c ∈ name, u.word c = true) {rest : List Char} (h : Ends u.word rest) :
    readAt u (name ++ rest) = .ok (.expr (String.ofList ('@' :: name)), rest) := by
  have hhead : (name ++ rest).head?.any Char.isDigit = false := by
    cases name with
    | cons c name => exact hdigit
    | nil =>
      cases rest with
      | nil => rfl
      | cons c rest =>
        have hc := h c rfl
        rw [List.nil_append, List.head?_cons, Option.any_some]
        by_contra hd
        rw [Bool.not_eq_false] at hd
        have hsmall : c.toNat < 128 := (isDigit_lt hd).2.trans (by decide)
        rw [CharClasses.word, CharClasses.alphanumeric, (u.ascii c hsmall).2, hd, Bool.or_true, Bool.true_or] at hc
        cases hc
  obtain ⟨htake, hdrop⟩ := takeWhile_ends hname h
  rw [readAt, hhead, if_neg Bool.false_ne_true, htake, hdrop]

/-- A character that starts a key is the sign of no other token. -/
theorem readToken_ident {c : Char} (hc : u.alphabetic c = true ∨ c = '_') (l : List Char) :
    readToken u c l = .ok (.ident (String.ofList (c :: l.takeWhile u.key)), l.dropWhile u.key) := by
  have hsign : ∀ d : Char, d.toNat < 128 → d.isAlpha = false → d ≠ '_' → c ≠ d := by
    rintro d hsmall halpha hline rfl
    rcases hc with hc | hc
    · rw [(u.ascii c hsmall).1, halpha] at hc
      cases hc
    · exact hline hc
  have hkey : (u.alphabetic c || c == '_') = true := by
    rcases hc with hc | rfl
    · rw [hc, Bool.true_or]
    · exact Bool.or_true _
  unfold readToken
  split
  all_goals first
    | exact absurd rfl (hsign _ (by decide) (by decide) (by decide))
    | exact if_pos hkey

/-- One token is read back in front of what ends it. -/
theorem readToken_spells {t : Token} {form rest : List Char} {p : Char → Bool} (h : Spells u t form p) (hends : Ends p rest) :
    ∃ c l, form = c :: l ∧ isWhitespace c = false ∧ c ≠ '#' ∧ readToken u c (l ++ rest) = .ok (t, rest) := by
  cases h with
  | @mark t c h =>
    refine ⟨c, [], rfl, ?_⟩
    cases t <;> cases h <;> exact ⟨by decide, by decide, rfl⟩
  | int neg hne hdigits hfits => exact ⟨_, _, rfl, by decide, by decide, readInt_text neg hne hdigits hfits hends⟩
  | float neg hchars hsign hf => exact ⟨_, _, rfl, by decide, by decide, readFloat_text hchars hsign hf hends⟩
  | bool b => exact ⟨_, _, rfl, by decide, by decide, readBool_text b hends⟩
  | @keyword name hname =>
    obtain ⟨htake, hdrop⟩ := takeWhile_ends hname hends
    refine ⟨_, _, rfl, by decide, by decide, ?_⟩
    show ok (Token.keyword (String.ofList ((name ++ rest).takeWhile u.word)), (name ++ rest).dropWhile u.word) = _
    rw [htake, hdrop]
  | @str s body htext =>
    refine ⟨_, _, rfl, by decide, by decide, ?_⟩
    have hle := htext.length_le
    have hfuel : ((body ++ ['"']) ++ rest).length + 1 = s.length + ((body.length - s.length) + rest.length + 1 + 1) := by
      simp only [List.length_append, List.length_singleton]
      omega
    show (readString (((body ++ ['"']) ++ rest).length + 1) [] ((body ++ ['"']) ++ rest) >>= fun r =>
      ok (Token.str (String.ofList r.1), r.2)) = _
    rw [hfuel, List.append_assoc, readString_text htext, List.singleton_append, readString, if_pos rfl, ok_bind]
    rfl
  | time hdigit hchars htime =>
    obtain ⟨htake, hdrop⟩ := takeWhile_ends hchars hends
    refine ⟨_, _, rfl, by decide, by decide, ?_⟩
    have hhead : ∀ {text : List Char}, text.head?.any Char.isDigit = true → (text ++ rest).head?.any Char.isDigit = true := by
      intro text h
      cases text with
      | nil => cases h
      | cons c text => exact h
    show readAt u _ = _
    rw [readAt, if_pos (hhead hdigit), htake, hdrop, htime, ok_bind]
  | binary hchars hraw =>
    refine ⟨_, _, rfl, by decide, by decide, ?_⟩
    show readBinary _ = _
    rw [readBinary, List.append_assoc, List.singleton_append, readHex_text [] rest hchars, ok_bind]
    dsimp only
    rw [List.nil_append, hraw, ok_bind]
  | link neg hne hdigits hfits => exact ⟨_, _, rfl, by decide, by decide, readLink_text neg hne hdigits hfits hends⟩
  | reference hdigit hname => exact ⟨_, _, rfl, by decide, by decide, readAt_reference hdigit hname hends⟩
  | @expr text hchars =>
    obtain ⟨htake, hdrop⟩ := takeWhile_ends hchars hends
    refine ⟨_, _, rfl, by decide, by decide, ?_⟩
    show ok (Token.expr (String.ofList (trim ((text ++ rest).takeWhile macroChar))), (text ++ rest).dropWhile macroChar) = _
    rw [htake, hdrop]
  | @ident c text hc hblank hkey =>
    obtain ⟨htake, hdrop⟩ := takeWhile_ends hkey hends
    refine ⟨c, text, rfl, hblank, ?_, by rw [readToken_ident hc, htake, hdrop]⟩
    rintro rfl
    rcases hc with hc | hc
    · rw [(u.ascii _ (by decide)).1] at hc
      cases hc
    · cases hc

/-- What is read as one token is written as one. -/
theorem spells_of_readToken {c : Char} {l rest : List Char} {t : Token} (hblank : isWhitespace c = false)
    (h : readToken u c l = .ok (t, rest)) : ∃ form p, c :: l = form ++ rest ∧ Spells u t form p ∧ Ends p rest := by
  -- a sigil and what is read behind it
  have hsigil : ∀ {s : Char} {p : Char → Bool}, c = s →
      (∃ form, l = form ++ rest ∧ Spells u t (s :: form) p ∧ Ends p rest) →
        ∃ form p, c :: l = form ++ rest ∧ Spells u t form p ∧ Ends p rest := by
    rintro s p rfl ⟨form, rfl, hspells, hends⟩
    exact ⟨_, p, rfl, hspells, hends⟩
  unfold readToken at h
  split at h
  case h_9 => exact hsigil rfl (readInt_eq_ok h)
  case h_10 => exact hsigil rfl (readFloat_eq_ok h)
  case h_11 => exact hsigil rfl (readBool_eq_ok h)
  case h_12 =>
    obtain ⟨name, rest', rfl, htake, hdrop, hname, hends⟩ := exists_takeWhile u.word l
    rw [htake, hdrop] at h
    cases h
    exact ⟨'$' :: name, _, rfl, .keyword hname, hends⟩
  case h_13 =>
    obtain ⟨⟨s, rest'⟩, hs, h⟩ := bind_eq_ok.mp h
    cases h
    obtain ⟨more, body, rfl, rfl, htext⟩ := readString_eq_ok hs
    exact ⟨'"' :: (body ++ ['"']), _, by simp, .str htext, .none _⟩
  case h_14 =>
    obtain ⟨form, p, rfl, hspells, hends⟩ := readAt_eq_ok h
    exact ⟨_, p, rfl, hspells, hends⟩
  case h_15 =>
    obtain ⟨form, rfl, hspells⟩ := readBinary_eq_ok h
    exact ⟨_, _, rfl, hspells, .none _⟩
  case h_16 => exact hsigil rfl (readLink_eq_ok h)
  case h_17 =>
    obtain ⟨text, rest', rfl, htake, hdrop, hchars, hends⟩ := exists_takeWhile macroChar l
    rw [htake, hdrop] at h
    cases h
    exact ⟨'!' :: text, _, rfl, .expr hchars, hends⟩
  case h_19 =>
    split at h
    · rename_i hkey
      obtain ⟨text, rest', rfl, htake, hdrop, hchars, hends⟩ := exists_takeWhile u.key l
      rw [htake, hdrop] at h
      cases h
      refine ⟨c :: text, _, rfl, .ident ?_ hblank hchars, hends⟩
      rwa [Bool.or_eq_true, beq_iff_eq] at hkey
    · cases h
  all_goals
    cases h
    exact ⟨[_], _, rfl, .mark rfl, .none _⟩

end

/-! ## Token sequences -/

/-- Blanks, and comments with the ends of their lines. -/
inductive Blank : List Char → Prop
  | nil : Blank []
  | space {c : Char} {l : List Char} (hc : isWhitespace c = true) (h : Blank l) : Blank (c :: l)
  | comment {text l : List Char} (hline : '\n' ∉ text) (h : Blank l) : Blank ('#' :: (text ++ '\n' :: l))

/-- Blanks at the end of a text, where a comment needs no end. -/
inductive LastBlank : List Char → Prop
  | blank {l : List Char} (h : Blank l) : LastBlank l
  | comment {gap text : List Char} (hgap : Blank gap) (hline : '\n' ∉ text) : LastBlank (gap ++ '#' :: text)

/-- The text is the sequence of tokens. -/
inductive Spelled (u : CharClasses) : List Token → List Char → Prop
  | nil {gap : List Char} (hgap : LastBlank gap) : Spelled u [] gap
  | cons {t : Token} {ts : List Token} {gap form rest : List Char} {p : Char → Bool} (hgap : Blank gap) (h : Spells u t form p)
    (hends : Ends p rest) (hrest : Spelled u ts rest) : Spelled u (t :: ts) (gap ++ (form ++ rest))

theorem skipBlank_comment : ∀ {text : List Char} (rest : List Char), '\n' ∉ text →
    skipBlank true (text ++ '\n' :: rest) = skipBlank false rest
  | [], _, _ => rfl
  | c :: text, rest, h => by
    rw [List.mem_cons, not_or] at h
    rw [List.cons_append, skipBlank, if_neg (Ne.symm h.1), skipBlank_comment rest h.2]

theorem skipBlank_last : ∀ {text : List Char}, '\n' ∉ text → skipBlank true text = []
  | [], _ => rfl
  | c :: text, h => by
    rw [List.mem_cons, not_or] at h
    rw [skipBlank, if_neg (Ne.symm h.1), skipBlank_last h.2]

/-- No blank is the sign of a comment. -/
theorem skipBlank_blank : ∀ {gap : List Char}, Blank gap → ∀ rest, skipBlank false (gap ++ rest) = skipBlank false rest
  | _, .nil, _ => rfl
  | _, .space (c := c) hc h, rest => by
    have hsign : c ≠ '#' := by
      rintro rfl
      exact absurd hc (by decide)
    rw [List.cons_append, skipBlank, if_neg hsign, if_pos hc, skipBlank_blank h]
  | _, .comment hline h, rest => by
    rw [List.cons_append, List.append_assoc, List.cons_append, skipBlank, if_pos rfl, skipBlank_comment _ hline,
      skipBlank_blank h]

/-- Blanks in front do not matter. -/
theorem tokenize_blank (u : CharClasses) {gap : List Char} (hgap : Blank gap) (rest : List Char) :
    tokenize u (gap ++ rest) = tokenize u rest := by
  have hskip := skipBlank_blank hgap rest
  have hle := skipBlank_le false rest
  rw [tokenize, tokenize, tokenizeLoop, tokenizeLoop, hskip]
  cases hrest : skipBlank false rest with
  | nil => rfl
  | cons c l =>
    rw [hrest, List.length_cons] at hle
    dsimp only
    cases ht : readToken u c l with
    | ok t =>
      have hlt : t.2.length ≤ _ := readToken_le u (t := t.1) ht
      rw [ok_bind, ok_bind]
      exact tokenizeLoop_fuel u (by rw [List.length_append]; omega) (by omega) _
    | err e => rfl
    | panic => rfl

/-- Behind the blanks of a text there is nothing, or something that is no blank. -/
inductive Skips (l : List Char) : List Char → Prop
  | nil (h : LastBlank l) : Skips l []
  | cons {gap : List Char} {c : Char} {rest : List Char} (hsplit : l = gap ++ c :: rest) (hgap : Blank gap)
    (hblank : isWhitespace c = false) (hsign : c ≠ '#') : Skips l (c :: rest)

theorem Skips.space {l out : List Char} {c : Char} (hc : isWhitespace c = true) (h : Skips l out) : Skips (c :: l) out := by
  cases h with
  | nil h =>
    cases h with
    | blank h => exact .nil (.blank (.space hc h))
    | comment hgap hline => exact .nil (.comment (.space hc hgap) hline)
  | cons hsplit hgap hblank hsign => exact .cons (congrArg (c :: ·) hsplit) (.space hc hgap) hblank hsign

/-- The line of a comment ends. -/
theorem Skips.line {l out : List Char} (h : Skips l out) : Skips ('#' :: '\n' :: l) out := by
  cases h with
  | nil h =>
    cases h with
    | blank h => exact .nil (.blank (.comment List.not_mem_nil h))
    | comment hgap hline => exact .nil (.comment (.comment List.not_mem_nil hgap) hline)
  | cons hsplit hgap hblank hsign =>
    exact .cons (congrArg ('#' :: '\n' :: ·) hsplit) (.comment List.not_mem_nil hgap) hblank hsign

theorem blank_comment {l : List Char} (h : Blank ('#' :: l)) : ∃ text more, l = text ++ '\n' :: more ∧ '\n' ∉ text ∧ Blank more := by
  cases h with
  | space hc => exact absurd hc (by decide)
  | comment hline h => exact ⟨_, _, rfl, hline, h⟩

/-- A comment goes on. -/
theorem Skips.comment {l out : List Char} {c : Char} (hc : c ≠ '\n') (h : Skips ('#' :: l) out) : Skips ('#' :: c :: l) out := by
  have hcons : ∀ {line : List Char}, '\n' ∉ line → '\n' ∉ c :: line := fun hline hmem =>
    (List.mem_cons.mp hmem).elim (fun heq => hc heq.symm) hline
  have hblank : ∀ {more : List Char}, Blank ('#' :: more) → Blank ('#' :: c :: more) := by
    intro more hmore
    obtain ⟨text, more, rfl, hline, hmore⟩ := blank_comment hmore
    exact .comment (hcons hline) hmore
  cases h with
  | nil h =>
    generalize hl : '#' :: l = l' at h
    cases h with
    | blank h =>
      subst hl
      exact .nil (.blank (hblank h))
    | @comment gap text hgap hline =>
      cases gap with
      | nil =>
        cases hl
        exact .nil (.comment .nil (hcons hline))
      | cons d gap =>
        cases hl
        exact .nil (.comment (hblank hgap) hline)
  | @cons gap d rest hsplit hgap hd hsign =>
    cases gap with
    | nil =>
      cases hsplit
      exact absurd rfl hsign
    | cons e gap =>
      cases hsplit
      exact .cons rfl (hblank hgap) hd hsign

/-- Outside a comment and inside one. -/
theorem skips_skipBlank : ∀ (l : List Char), Skips l (skipBlank false l) ∧ Skips ('#' :: l) (skipBlank true l)
  | [] => ⟨.nil (.blank .nil), .nil (.comment .nil List.not_mem_nil)⟩
  | c :: l => by
    obtain ⟨hplain, hcomment⟩ := skips_skipBlank l
    constructor
    · rw [skipBlank]
      by_cases hsign : c = '#'
      · rw [if_pos hsign, hsign]
        exact hcomment
      · rw [if_neg hsign]
        by_cases hspace : isWhitespace c = true
        · rw [if_pos hspace]
          exact hplain.space hspace
        · rw [if_neg hspace]
          exact .cons rfl .nil (Bool.not_eq_true _ ▸ hspace) hsign
    · rw [skipBlank]
      by_cases hend : c = '\n'
      · rw [if_pos hend, hend]
        exact hplain.line
      · rw [if_neg hend]
        exact hcomment.comment hend

/-- The lexer reads a written sequence of tokens back. -/
theorem tokenize_spelled (u : CharClasses) {ts : List Token} {l : List Char} (h : Spelled u ts l) :
    tokenize u l = .ok (ts ++ [.eof]) := by
  induction h with
  | @nil l hlast =>
    cases hlast with
    | blank hgap =>
      rw [← List.append_nil l, tokenize_blank u hgap]
      rfl
    | comment hgap hline => rw [tokenize_blank u hgap, tokenize, tokenizeLoop, skipBlank, if_pos rfl, skipBlank_last hline]
  | @cons t ts gap form rest p hgap hform hends hrest ih =>
    obtain ⟨c, l, rfl, hc, hsign, hread⟩ := readToken_spells hform hends
    have hskip : skipBlank false (c :: (l ++ rest)) = c :: (l ++ rest) := by
      rw [skipBlank, if_neg hsign, if_neg (by rw [hc]; exact Bool.false_ne_true)]
    rw [tokenize_blank u hgap, List.cons_append, tokenize_cons u hskip, hread, ok_bind]
    dsimp only
    rw [ih, map_ok, List.cons_append]

/-- What the lexer accepts is a written sequence of tokens. -/
theorem spelled_of_tokenize (u : CharClasses) : ∀ (n : ℕ) {l : List Char} {tokens : List Token}, l.length ≤ n →
    tokenize u l = .ok tokens → ∃ ts, tokens = ts ++ [.eof] ∧ Spelled u ts l
  | n, l, tokens, hlen, h => by
    have hskips := (skips_skipBlank l).1
    generalize hout : skipBlank false l = out at hskips
    cases hskips with
    | nil hblank =>
      rw [tokenize, tokenizeLoop, hout] at h
      cases h
      exact ⟨[], rfl, .nil hblank⟩
    | @cons gap c rest hsplit hgap hc hsign =>
      have hskip : skipBlank false (c :: rest) = c :: rest := by
        rw [skipBlank, if_neg hsign, if_neg (by rw [hc]; exact Bool.false_ne_true)]
      subst hsplit
      rw [tokenize_blank u hgap, tokenize_cons u hskip] at h
      obtain ⟨⟨t, more⟩, ht, h⟩ := bind_eq_ok.mp h
      obtain ⟨tokens, hmore, rfl⟩ := map_eq_ok.mp h
      have hle : more.length ≤ rest.length := readToken_le u ht
      rw [List.length_append, List.length_cons] at hlen
      obtain ⟨n, rfl⟩ := Nat.exists_eq_add_of_le' (show 1 ≤ n by omega)
      obtain ⟨ts, rfl, hspelled⟩ := spelled_of_tokenize u n (l := more) (by omega) hmore
      obtain ⟨form, p, hform, hspells, hends⟩ := spells_of_readToken hc ht
      refine ⟨t :: ts, rfl, ?_⟩
      rw [hform]
      exact .cons hgap hspells hends hspelled

/-- The lexer accepts exactly the texts of token sequences. -/
theorem tokenize_iff (u : CharClasses) {l : List Char} {tokens : List Token} :
    tokenize u l = .ok tokens ↔ ∃ ts, tokens = ts ++ [.eof] ∧ Spelled u ts l := by
  constructor
  · exact spelled_of_tokenize u l.length (Nat.le_refl _)
  · rintro ⟨ts, rfl, h⟩
    exact tokenize_spelled u h

/-- The characters of a key. -/
theorem Spelled.ident {u : CharClasses} {ts : List Token} {l : List Char} (h : Spelled u ts l) :
    ∀ s, .ident s ∈ ts → ∃ c text, s = String.ofList (c :: text) ∧ (u.alphabetic c = true ∨ c = '_') ∧
      ∀ c ∈ text, u.key c = true := by
  induction h with
  | nil => exact fun s hs => absurd hs List.not_mem_nil
  | cons hgap hspells hends hrest ih =>
    intro s hs
    rcases List.mem_cons.mp hs with rfl | hs
    · cases hspells with
      | mark h => cases h
      | ident hc hblank hkey => exact ⟨_, _, rfl, hc, hkey⟩
    · exact ih s hs

end Nyxis
